import CLab.ParserAccepts
import CLab.ParserReads

/-!
# Errors end with their line

Every statement routine of the parser, begun at its keyword, stays on the line
of the keyword: it reads at most one end of line, as its last token, and never
the end of the file.  After an error the cursor is where the line ends, so the
next line is parsed from its first token.
-/

namespace Assembler

/-- Some tokens are read: only the last may end a line, and none ends the file. -/
def ReadsOneLine (tokens after : List Token) : Prop :=
  ∃ used, tokens = used ++ after ∧ (∀ t ∈ used, t.type ≠ .eoft) ∧
    ∀ t ∈ used.dropLast, t.type ≠ .eol

/-- The cursor is behind the first end of line, or on the first end of the file
if that comes first. -/
def AtFirstEnd (tokens after : List Token) : Prop :=
  ∃ line, (∀ t ∈ line, t.type ≠ .eol ∧ t.type ≠ .eoft) ∧
    ((∃ eol, eol.type = .eol ∧ tokens = line ++ eol :: after) ∨
      (∃ eof rest, eof.type = .eoft ∧ after = eof :: rest ∧ tokens = line ++ after))

/-- A routine goes from the first unit to the second: it reads no more than its
line, and all of it when the error handler is changed. -/
structure LineLocal (unit unit' : TranslationUnit) : Prop where
  consumed : ReadsOneLine unit.tokens unit'.tokens
  recovered : unit'.errorHandler ≠ unit.errorHandler → AtFirstEnd unit.tokens unit'.tokens

theorem WithinLine.readsOneLine {line after : List Token} (h : WithinLine line after) :
    ReadsOneLine line after := by
  obtain ⟨used, hsplit, hused⟩ := h
  refine ⟨used, hsplit, fun t ht => (hused t ht).2, ?_⟩
  intro t ht
  exact (hused t (List.dropLast_subset used ht)).1

theorem AtFirstEnd.readsOneLine {tokens after : List Token} (h : AtFirstEnd tokens after) :
    ReadsOneLine tokens after := by
  obtain ⟨line, hline, ⟨eol, heol, hsplit⟩ | ⟨eof, rest, -, -, hsplit⟩⟩ := h
  · refine ⟨line ++ [eol], by rw [hsplit, List.append_assoc]; rfl, ?_, ?_⟩
    · intro t ht
      rcases List.mem_append.mp ht with ht | ht
      · exact (hline t ht).2
      · rw [List.mem_singleton.mp ht, heol]
        decide
    · intro t ht
      rw [List.dropLast_concat] at ht
      exact (hline t ht).1
  · exact WithinLine.readsOneLine ⟨line, hsplit, hline⟩

/-- A list that ends with the end of the file has a first end. -/
theorem endOfLine_atFirstEnd {tokens : List Token} (h : EndsFile tokens) :
    AtFirstEnd tokens (endOfLine tokens) := by
  obtain ⟨before, eof, rfl, heof⟩ := h
  induction before with
  | nil => exact ⟨[], by simp, Or.inr ⟨eof, [], heof, by simp [endOfLine, heof], by
      simp [endOfLine, heof]⟩⟩
  | cons token before ih =>
      rw [List.cons_append]
      by_cases hend : token.type ≠ .eol ∧ token.type ≠ .eoft
      · rw [endOfLine_cons hend]
        obtain ⟨line, hline, hsplit⟩ := ih
        refine ⟨token :: line, List.forall_mem_cons.mpr ⟨hend, hline⟩, ?_⟩
        rcases hsplit with ⟨eol, heol, hsplit⟩ | ⟨last, rest, hlast, hafter, hsplit⟩
        · exact Or.inl ⟨eol, heol, congrArg (token :: ·) hsplit⟩
        · exact Or.inr ⟨last, rest, hlast, hafter, congrArg (token :: ·) hsplit⟩
      · by_cases heol : token.type = .eol
        · exact ⟨[], by simp, Or.inl ⟨token, heol, by simp [endOfLine, heol]⟩⟩
        · have hlast : token.type = .eoft := by
            by_contra h
            exact hend ⟨heol, h⟩
          exact ⟨[], by simp, Or.inr ⟨token, before ++ [eof], hlast, by
            simp [endOfLine, hlast], by simp [endOfLine, hlast]⟩⟩

/-- A statement that is read to the end of its line is line-local. -/
theorem StatementRead.lineLocal {unit unit' : TranslationUnit} (hend : EndsFile unit.tokens)
    (h : StatementRead unit unit.tokens unit') : LineLocal unit unit' := by
  rcases h with h | ⟨-, hline, hsame⟩
  · have hfirst : AtFirstEnd unit.tokens unit'.tokens := by
      rw [h]
      exact endOfLine_atFirstEnd hend
    exact ⟨hfirst.readsOneLine, fun _ => hfirst⟩
  · exact ⟨hline.readsOneLine, fun hchanged => absurd hsame hchanged⟩

/-- Every statement routine is line-local when it is begun at its keyword. -/
structure StatementsLineLocal (unit : TranslationUnit) (keyword : Token) : Prop where
  dataDirective : keyword.type = .dataIns →
    LineLocal unit (parseDataDirectiveGuidance unit).1
  stringDirective : keyword.type = .stringIns →
    LineLocal unit (parseStringDirectiveGuidance unit).1
  entry : keyword.type = .entryIns →
    ∃ unit' node, parserParseEntry unit = .ok (unit', node) ∧ LineLocal unit unit'
  external : keyword.type = .externIns → LineLocal unit (parserParseExternal unit).1
  instruction : isInstructionToken keyword.type = true →
    LineLocal unit (parserParseInstruction unit).1

/-- **One bad line costs one line.**  On every list that ends with the end of
the file, whether or not there is an error, no statement routine reads into the
next line, and after an error the next line is untouched. -/
theorem statements_lineLocal {unit : TranslationUnit} {keyword : Token} {rest : List Token}
    (htokens : unit.tokens = keyword :: rest) (hend : EndsFile unit.tokens) :
    StatementsLineLocal unit keyword := by
  -- a keyword ends no line, so its line is the line behind it
  have hread : ∀ {unit' : TranslationUnit}, keyword.type ≠ .eol ∧ keyword.type ≠ .eoft →
      StatementRead unit rest unit' → LineLocal unit unit' := by
    intro unit' hkeyword h
    refine (h.of_within ?_ rfl).lineLocal hend
    rw [htokens]
    exact (WithinLine.refl rest).cons hkeyword
  refine ⟨?_, ?_, ?_, ?_, ?_⟩
  · intro hdata
    exact hread (by simp [hdata]) (Or.inl (parseDataDirectiveGuidance_line htokens hdata))
  · intro hstring
    exact hread (by simp [hstring]) (Or.inl (parseStringDirectiveGuidance_line htokens hstring))
  · intro hentry
    have hrest : rest ≠ [] := by
      rw [htokens] at hend
      exact (hend.of_cons (by simp [hentry])).ne_nil
    have hparse := parserParseEntry_line htokens hentry
    rw [if_neg hrest] at hparse
    obtain ⟨unit', node, hparse, hline⟩ := hparse
    exact ⟨unit', node, hparse, hread (by simp [hentry]) (Or.inl hline)⟩
  · intro hexternIns
    exact hread (by simp [hexternIns]) (Or.inl (parserParseExternal_line htokens hexternIns))
  · intro hop
    refine hread ?_ (parserParseInstruction_read htokens hop)
    constructor <;>
    · intro h
      rw [h] at hop
      exact absurd hop (by decide)

/-- An instruction without the comma, and the next line. -/
theorem statements_lineLocal_sample : EndsFile (parserSample "mov r1 r2\nstop").tokens ∧
    ∃ keyword rest, (parserSample "mov r1 r2\nstop").tokens = keyword :: rest ∧
      keyword.type = .mov ∧ StatementsLineLocal (parserSample "mov r1 r2\nstop") keyword := by
  have hend : EndsFile (parserSample "mov r1 r2\nstop").tokens :=
    endsFile_of_getLast (by decide +kernel)
  have htypes : (parserSample "mov r1 r2\nstop").tokens.map Token.type =
      [.mov, .register, .register, .eol, .stop, .eoft] := by
    decide +kernel
  cases htokens : (parserSample "mov r1 r2\nstop").tokens with
  | nil => simp [htokens] at htypes
  | cons keyword rest =>
      refine ⟨htokens ▸ hend, keyword, rest, rfl, ?_, statements_lineLocal htokens hend⟩
      rw [htokens, List.map_cons] at htypes
      exact (List.cons.inj htypes).1

end Assembler
