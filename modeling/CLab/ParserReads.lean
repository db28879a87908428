import CLab.CheckedParser
import CLab.ParserContent

/-!
# Where the parser reads a token that is not there

The parser goes through its tokens line by line: every statement leaves the
cursor where its line ends.  A property of the tokens that respects lines is
therefore kept by a round of the main loop.  It follows which lists make
`parser_parse_entry` read the token of `NULL`.
-/

namespace Assembler

/-! ## Properties that respect lines -/

/-- A property that may be decided line by line; a label takes the blank lines
behind it and the next line with it. -/
structure LineInvariant (holds : List Token → Prop) : Prop where
  blank : ∀ {t : Token} {rest : List Token}, t.type = .eol → (holds (t :: rest) ↔ holds rest)
  label : ∀ {name colon : Token} {rest : List Token}, LabelColon name colon →
    (holds (name :: colon :: rest) ↔ holds (endOfLine (skipEol rest)))
  line : ∀ {t : Token} {rest : List Token}, t.type ≠ .eol ∧ t.type ≠ .eoft →
    (t.type = .entryIns → rest ≠ []) →
    (∀ colon rest', rest = colon :: rest' → ¬ LabelColon t colon) →
    (holds (t :: rest) ↔ holds (endOfLine rest))

/-- The rest of a line is read, with or without its end. -/
def EndsLine (line after : List Token) : Prop :=
  after = endOfLine line ∨ atLineEnd after = true ∧ endOfLine after = endOfLine line

/-- A part of the line is read, and none of its end. -/
def WithinLine (line after : List Token) : Prop :=
  ∃ used, line = used ++ after ∧ ∀ t ∈ used, t.type ≠ .eol ∧ t.type ≠ .eoft

/-- Reading nothing stays within the line. -/
theorem WithinLine.refl (line : List Token) : WithinLine line line :=
  ⟨[], rfl, by simp⟩

/-- One more token of the line may be read. -/
theorem WithinLine.cons {t : Token} {rest after : List Token}
    (ht : t.type ≠ .eol ∧ t.type ≠ .eoft) (h : WithinLine rest after) :
    WithinLine (t :: rest) after := by
  obtain ⟨used, rfl, hused⟩ := h
  refine ⟨t :: used, rfl, ?_⟩
  intro u hu
  rcases List.mem_cons.mp hu with rfl | hu
  · exact ht
  · exact hused u hu

/-- Reading on within the line is reading within the line. -/
theorem WithinLine.trans {line middle after : List Token} (h : WithinLine line middle)
    (h' : WithinLine middle after) : WithinLine line after := by
  obtain ⟨used, rfl, hused⟩ := h
  induction used with
  | nil => exact h'
  | cons t used ih =>
      exact (ih fun u hu => hused u (List.mem_cons_of_mem t hu)).cons (hused t (by simp))

/-- The line ends where it ended before. -/
theorem WithinLine.endOfLine_eq {line after : List Token} (h : WithinLine line after) :
    endOfLine after = endOfLine line := by
  obtain ⟨used, rfl, hused⟩ := h
  induction used with
  | nil => rfl
  | cons t used ih =>
      rw [List.cons_append, endOfLine_cons (hused t (by simp))]
      exact ih fun u hu => hused u (List.mem_cons_of_mem t hu)

/-- An operand with an error takes the rest of its line; any other stays on the
line and adds no error. -/
theorem parseOperand_line (unit : TranslationUnit) :
    ((parseOperand unit).2.2 = true ∧
      (parseOperand unit).1.tokens = endOfLine unit.tokens) ∨
    ((parseOperand unit).2.2 = false ∧
      WithinLine unit.tokens (parseOperand unit).1.tokens ∧
      (parseOperand unit).1.errorHandler = unit.errorHandler) := by
  have hplain : ∀ {t : Token} {rest after : List Token},
      (t.type = .hashtag ∨ t.type = .number ∨ t.type = .star ∨ t.type = .register ∨
        t.type = .identifier) → WithinLine rest after → WithinLine (t :: rest) after := by
    intro t rest after h hrest
    apply hrest.cons
    rcases h with h | h | h | h | h <;> simp [h]
  rw [parseOperand]
  cases htokens : unit.tokens with
  | nil => exact Or.inl ⟨rfl, htokens⟩
  | cons current rest =>
      have hreport : ∀ message t, (unit.reportError message t).tokens =
          endOfLine (current :: rest) := by
        intro message t
        rw [reportError_tokens, htokens]
      simp only
      by_cases hhash : current.type = .hashtag
      · rw [if_pos hhash]
        cases rest with
        | nil => exact Or.inl ⟨rfl, hreport _ _⟩
        | cons number rest =>
            simp only
            by_cases hnumber : number.type = .number
            · rw [if_neg (not_not_intro hnumber)]
              exact Or.inr ⟨rfl, hplain (Or.inl hhash)
                (hplain (Or.inr (Or.inl hnumber)) (.refl rest)), rfl⟩
            · rw [if_pos hnumber]
              exact Or.inl ⟨rfl, hreport _ _⟩
      · rw [if_neg hhash]
        by_cases hstar : current.type = .star
        · rw [if_pos hstar]
          cases rest with
          | nil => exact Or.inl ⟨rfl, hreport _ _⟩
          | cons operand rest =>
              simp only
              by_cases h : operand.type = .register ∨ operand.type = .identifier
              · rw [if_pos h]
                exact Or.inr ⟨rfl, hplain (Or.inr (Or.inr (Or.inl hstar)))
                  (hplain (Or.inr (Or.inr (Or.inr h))) (.refl rest)), rfl⟩
              · rw [if_neg h]
                exact Or.inl ⟨rfl, hreport _ _⟩
        · rw [if_neg hstar]
          by_cases h : current.type = .register ∨ current.type = .identifier
          · rw [if_pos h]
            exact Or.inr ⟨rfl, hplain (Or.inr (Or.inr (Or.inr h))) (.refl rest), rfl⟩
          · rw [if_neg h]
            exact Or.inl ⟨rfl, hreport _ _⟩

/-- A statement takes its line with its end; or, adding no error, up to it. -/
def StatementRead (unit : TranslationUnit) (line : List Token) (unit' : TranslationUnit) : Prop :=
  unit'.tokens = endOfLine line ∨
    (atLineEnd unit'.tokens = true ∧ WithinLine line unit'.tokens ∧
      unit'.errorHandler = unit.errorHandler)

/-- A statement that is read ends its line. -/
theorem StatementRead.endsLine {unit unit' : TranslationUnit} {line : List Token}
    (h : StatementRead unit line unit') : EndsLine line unit'.tokens := by
  rcases h with h | ⟨hend, hline, -⟩
  · exact Or.inl h
  · exact Or.inr ⟨hend, hline.endOfLine_eq⟩

/-- What stands in front of the statement belongs to its line. -/
theorem StatementRead.of_within {unit middle unit' : TranslationUnit} {line after : List Token}
    (h : StatementRead middle after unit') (hline : WithinLine line after)
    (hsame : middle.errorHandler = unit.errorHandler) : StatementRead unit line unit' := by
  rcases h with h | ⟨hend, hafter, herrors⟩
  · exact Or.inl (h.trans hline.endOfLine_eq)
  · exact Or.inr ⟨hend, hline.trans hafter, herrors.trans hsame⟩

/-- The second operand is read to the end of the line. -/
theorem parseSecondOperand_read (unit : TranslationUnit) (node : InstructionNode) :
    StatementRead unit unit.tokens (parseSecondOperand unit node).1 := by
  rw [parseSecondOperand]
  rcases parseOperand_line unit with ⟨herr, hline⟩ | ⟨herr, hline, hsame⟩
  · simp only [herr, if_true]
    exact Or.inl hline
  · simp only [herr, Bool.false_eq_true, if_false]
    by_cases hend : atLineEnd (parseOperand unit).1.tokens = true
    · rw [if_pos hend]
      exact Or.inr ⟨hend, hline, hsame⟩
    · rw [if_neg hend]
      apply Or.inl
      rw [reportError_tokens, hline.endOfLine_eq]

theorem parseFirstOperand_read (unit : TranslationUnit) (node : InstructionNode) :
    StatementRead unit unit.tokens (parseFirstOperand unit node).1 := by
  rw [parseFirstOperand]
  rcases parseOperand_line unit with ⟨herr, hline⟩ | ⟨herr, hline, hsame⟩
  · simp only [herr, if_true]
    exact Or.inl hline
  · simp only [herr, Bool.false_eq_true, if_false]
    cases hafter : (parseOperand unit).1.tokens with
    | nil => exact Or.inr ⟨by rw [hafter]; rfl, hline, hsame⟩
    | cons separator after =>
        simp only
        by_cases hsep : separator.type = .eol ∨ separator.type = .eoft
        · rw [if_pos hsep]
          refine Or.inr ⟨?_, hline, hsame⟩
          rw [hafter]
          simpa [atLineEnd] using hsep
        · rw [if_neg hsep]
          by_cases hcomma : separator.type = .comma
          · rw [if_neg (not_not_intro hcomma)]
            refine (parseSecondOperand_read _ _).of_within ?_ hsame
            rw [hafter] at hline
            exact hline.trans ((WithinLine.refl after).cons (not_or.mp hsep))
          · rw [if_pos hcomma]
            apply Or.inl
            rw [reportError_tokens, hline.endOfLine_eq]

/-- An instruction is read to the end of its line. -/
theorem parserParseInstruction_read {unit : TranslationUnit} {operation : Token}
    {rest : List Token} (htokens : unit.tokens = operation :: rest)
    (hop : isInstructionToken operation.type = true) :
    StatementRead unit rest (parserParseInstruction unit).1 := by
  rw [parserParseInstruction, htokens]
  simp only [hop, Bool.true_eq_false, if_false]
  by_cases hend : atLineEnd rest = true
  · rw [if_pos hend]
    exact Or.inr ⟨hend, .refl rest, rfl⟩
  · rw [if_neg hend]
    exact parseFirstOperand_read (unit.setTokens rest) _

/-- The numbers take the whole line. -/
theorem parseDataNumbers_line (unit : TranslationUnit) (node : DataNode) (tokens : List Token) :
    (parseDataNumbers unit node tokens).1.tokens = endOfLine tokens := by
  have hfinish : ∀ unit node, (finishDataDirective unit node).1.tokens = unit.tokens := by
    intro unit node
    unfold finishDataDirective
    split_ifs <;> rfl
  fun_induction parseDataNumbers unit node tokens with
  | case1 node => exact hfinish _ _
  | case2 node t rest heof =>
      rw [hfinish]
      simp [endOfLine, heof]
  | case3 node t heof hnumber node' =>
      rw [hfinish]
      simp [endOfLine, hnumber]
  | case4 node t heof hnumber node' separator rest hcomma ih =>
      rw [ih]
      simp [endOfLine, hnumber, hcomma]
  | case5 node t heof hnumber node' separator rest hcomma heol =>
      rw [hfinish]
      simp [endOfLine, hnumber, heol]
  | case6 node t heof hnumber node' separator rest hcomma heol hseparator =>
      rw [endOfLine_cons (by simp [hnumber])]
      rfl
  | case7 node t heof hnumber node' separator rest hcomma heol hseparator =>
      rw [hfinish]
      simp [endOfLine, hnumber, not_not.mp hseparator]
  | case8 node t rest heof hnumber => rfl

/-- A `.data` takes its line. -/
theorem parseDataDirectiveGuidance_line {unit : TranslationUnit} {directive : Token}
    {rest : List Token} (htokens : unit.tokens = directive :: rest)
    (hdata : directive.type = .dataIns) :
    (parseDataDirectiveGuidance unit).1.tokens = endOfLine rest := by
  rw [parseDataDirectiveGuidance, htokens]
  simp only [if_neg (not_not_intro hdata)]
  exact parseDataNumbers_line _ _ _

theorem parseStringDirectiveGuidance_line {unit : TranslationUnit} {directive : Token}
    {rest : List Token} (htokens : unit.tokens = directive :: rest)
    (hstring : directive.type = .stringIns) :
    (parseStringDirectiveGuidance unit).1.tokens = endOfLine rest := by
  rw [parseStringDirectiveGuidance, htokens]
  simp only [if_neg (not_not_intro hstring)]
  rcases rest with _ | ⟨string, _ | ⟨after, rest⟩⟩
  · rfl
  · by_cases h : string.type = .string <;> simp [h, endOfLine]
  · by_cases h : string.type = .string
    · by_cases heol : after.type = .eol <;> by_cases heof : after.type = .eoft <;>
        simp [h, heol, heof, endOfLine]
    · simp [h]

/-- A directive is read to the end of its line. -/
theorem guidanceListRound_line {s : TranslationUnit × List GuidanceNode} {directive : Token}
    {rest : List Token} (htokens : s.1.tokens = directive :: rest)
    (hdirective : isGuidanceToken directive.type = true) :
    (guidanceListRound s).1.tokens = endOfLine rest := by
  have hneol : directive.type ≠ .eol := by
    intro h
    rw [h] at hdirective
    exact absurd hdirective (by decide)
  rw [guidanceListRound, htokens]
  simp only [if_neg hneol]
  by_cases hdata : directive.type = .dataIns
  · rw [if_pos hdata]
    exact parseDataDirectiveGuidance_line htokens hdata
  · have hstring : directive.type = .stringIns := by
      simpa [isGuidanceToken, hdata] using hdirective
    rw [if_neg hdata]
    exact parseStringDirectiveGuidance_line htokens hstring

/-- Finishing a directive takes what is left of the line. -/
theorem finishDirective_line (unit : TranslationUnit) (message : String) :
    (finishDirective unit message).1.tokens = endOfLine unit.tokens := by
  rw [finishDirective]
  cases htokens : unit.tokens with
  | nil => exact htokens
  | cons t rest =>
      by_cases heol : t.type = .eol <;> by_cases heof : t.type = .eoft <;>
        simp [heol, heof, htokens, endOfLine]

/-- A `.extern` takes its line. -/
theorem parserParseExternal_line {unit : TranslationUnit} {directive : Token}
    {rest : List Token} (htokens : unit.tokens = directive :: rest)
    (hexternIns : directive.type = .externIns) :
    (parserParseExternal unit).1.tokens = endOfLine rest := by
  rw [parserParseExternal, htokens]
  simp only [if_neg (not_not_intro hexternIns)]
  cases rest with
  | nil => rfl
  | cons label rest =>
      by_cases hlabel : label.type = .identifier
      · simp [hlabel, finishDirective_line, endOfLine]
      · simp [hlabel]

/-- `.entry` needs one more token behind it. -/
theorem parserParseEntry_line {unit : TranslationUnit} {directive : Token} {rest : List Token}
    (htokens : unit.tokens = directive :: rest) (hentry : directive.type = .entryIns) :
    if rest = [] then parserParseEntry unit = .error .nullDereference
    else ∃ unit' node, parserParseEntry unit = .ok (unit', node) ∧
      unit'.tokens = endOfLine rest := by
  rw [parserParseEntry, htokens]
  simp only [if_neg (not_not_intro hentry)]
  cases rest with
  | nil => rfl
  | cons label rest =>
      rw [if_neg (List.cons_ne_nil _ _)]
      by_cases hlabel : label.type = .identifier
      · simp only [if_neg (not_not_intro hlabel)]
        refine ⟨_, _, rfl, ?_⟩
        rw [finishDirective_line, setTokens_tokens]
        exact (endOfLine_cons (by simp [hlabel])).symm
      · simp only [if_pos hlabel]
        exact ⟨_, _, rfl, rfl⟩

/-! ## A round keeps the property -/

section Rounds

variable {holds : List Token → Prop} (hinv : LineInvariant holds)

include hinv

/-- At a line end the property may be asked before it or behind it. -/
theorem LineInvariant.endOfLine_iff {after : List Token} (h : atLineEnd after = true) :
    holds (endOfLine after) ↔ holds after := by
  cases after with
  | nil => exact Iff.rfl
  | cons t rest =>
      by_cases heol : t.type = .eol
      · rw [endOfLine, if_pos heol, hinv.blank heol]
      · have heof : t.type = .eoft := by simpa [atLineEnd, heol] using h
        rw [endOfLine, if_neg heol, if_pos heof]

/-- Where a line is ended it does not matter how. -/
theorem LineInvariant.endsLine_iff {line after : List Token} (h : EndsLine line after) :
    holds after ↔ holds (endOfLine line) := by
  rcases h with rfl | ⟨hend, hline⟩
  · exact Iff.rfl
  · rw [← hline, hinv.endOfLine_iff hend]

/-- A line that does not begin with an identifier has no label. -/
theorem LineInvariant.plain_iff {t : Token} {rest : List Token}
    (ht : isInstructionToken t.type = true ∨ isGuidanceToken t.type = true) :
    holds (t :: rest) ↔ holds (endOfLine rest) := by
  have hne : t.type ≠ .eol ∧ t.type ≠ .eoft ∧ t.type ≠ .entryIns ∧ t.type ≠ .identifier := by
    refine ⟨?_, ?_, ?_, ?_⟩ <;>
    · intro h
      rw [h] at ht
      exact absurd ht (by decide)
  exact hinv.line ⟨hne.1, hne.2.1⟩ (fun h => absurd h hne.2.2.1)
    fun _ _ _ hlabel => hne.2.2.2 hlabel.labelType

/-- The loops of the lists keep what their rounds keep. -/
theorem LineInvariant.list_iff {α : Type} {accepts : TokenType → Bool}
    {round : TranslationUnit × List α → TranslationUnit × List α}
    (hblank : ∀ s t rest, s.1.tokens = t :: rest → t.type = .eol → (round s).1.tokens = rest)
    (hround : ∀ s t rest, s.1.tokens = t :: rest → t.type ≠ .eol → accepts t.type = true →
      (holds (round s).1.tokens ↔ holds (t :: rest)))
    (s : TranslationUnit × List α) (measure : TranslationUnit × List α → Nat) :
    holds (While.loop (fun s => listGoesOn accepts s.1) round measure s).1.tokens ↔
      holds s.1.tokens := by
  refine While.run_invariant
    (fun s' : TranslationUnit × List α => holds s'.1.tokens ↔ holds s.1.tokens) ?_ _ Iff.rfl
  intro s' hgo hsame
  rw [← hsame]
  cases htokens : s'.1.tokens with
  | nil => simp [listGoesOn, htokens] at hgo
  | cons t rest =>
      by_cases heol : t.type = .eol
      · rw [hblank s' t rest htokens heol, hinv.blank heol]
      · have haccepts : accepts t.type = true := by
          simpa [listGoesOn, htokens, heol] using hgo
        exact hround s' t rest htokens heol haccepts

/-- The loop over the instructions keeps the property. -/
theorem LineInvariant.instructionList_iff (unit : TranslationUnit) :
    holds (parserParseInstructionList unit).1.tokens ↔ holds unit.tokens := by
  refine hinv.list_iff ?_ ?_ (unit, []) _
  · intro s t rest htokens heol
    rw [instructionListRound, htokens]
    simp only [if_pos heol]
    rfl
  · intro s t rest htokens heol hop
    have hstep : (instructionListRound s).1 = (parserParseInstruction s.1).1 := by
      rw [instructionListRound, htokens]
      simp only [if_neg heol]
    rw [hstep, hinv.plain_iff (Or.inl hop)]
    exact hinv.endsLine_iff (parserParseInstruction_read htokens hop).endsLine

theorem LineInvariant.guidanceList_iff (unit : TranslationUnit) :
    holds (parserParseGuidanceList unit).1.tokens ↔ holds unit.tokens := by
  refine hinv.list_iff ?_ ?_ (unit, []) _
  · intro s t rest htokens heol
    rw [guidanceListRound, htokens]
    simp only [if_pos heol]
    rfl
  · intro s t rest htokens heol hdirective
    rw [guidanceListRound_line htokens hdirective, hinv.plain_iff (Or.inr hdirective)]

/-- Behind a label, the next line that is not blank is read. -/
theorem LineInvariant.statementBody_iff (unit : TranslationUnit) (label : LabelNode) :
    holds (parseStatementBody unit label true).1.tokens ↔ holds (endOfLine unit.tokens) := by
  rw [parseStatementBody]
  cases htokens : unit.tokens with
  | nil => rw [htokens]; exact Iff.rfl
  | cons t rest =>
      have hline : isInstructionToken t.type = true ∨ isGuidanceToken t.type = true →
          (holds unit.tokens ↔ holds (endOfLine (t :: rest))) := by
        intro ht
        rw [htokens, hinv.plain_iff ht]
        rw [endOfLine_cons]
        constructor <;>
        · intro h
          rw [h] at ht
          exact absurd ht (by decide)
      simp only [Bool.true_eq_false, if_false]
      by_cases hop : isInstructionToken t.type = true
      · rw [if_pos hop, ← hline (Or.inl hop)]
        exact hinv.instructionList_iff unit
      · rw [if_neg hop]
        by_cases hdirective : isGuidanceToken t.type = true
        · rw [if_pos hdirective, ← hline (Or.inr hdirective)]
          exact hinv.guidanceList_iff unit
        · rw [if_neg hdirective, reportError_tokens, htokens]

theorem LineInvariant.labeledStatement_iff {unit : TranslationUnit} {t : Token}
    {rest : List Token} (htokens : unit.tokens = t :: rest)
    (hstart : t.type = .identifier ∨ isGuidanceToken t.type = true) :
    holds (parseLabeledStatement unit).1.tokens ↔ holds (t :: rest) := by
  rcases hstart with hlabel | hdirective
  · have hwrong : (∀ colon rest', rest = colon :: rest' → ¬ LabelColon t colon) →
        (holds (t :: rest) ↔ holds (endOfLine rest)) :=
      hinv.line (by simp [hlabel]) (by simp [hlabel])
    cases rest with
    | nil =>
        rw [hwrong nofun, parseLabeledStatement, htokens]
        simp [hlabel]
    | cons colon rest =>
        by_cases hcolon : LabelColon t colon
        · have hbody := parseLabeledStatement_label hcolon unit rest
          rw [setTokens_eq_self htokens] at hbody
          rw [hbody, hinv.label hcolon]
          exact hinv.statementBody_iff _ _
        · have hreport : (parseLabeledStatement unit).1.tokens = endOfLine (colon :: rest) := by
            rw [parseLabeledStatement, htokens]
            simp only [hlabel, ne_eq, not_true_eq_false, if_false]
            split_ifs with htype hadjacent
            · exact absurd ⟨hlabel, htype, hadjacent⟩ hcolon
            · rfl
            · rfl
          rw [hreport, hwrong]
          intro _ _ heq
          obtain ⟨rfl, -⟩ := List.cons.inj heq
          exact hcolon
  · have hlabel : t.type ≠ .identifier := by
      intro h
      rw [h] at hdirective
      exact absurd hdirective (by decide)
    have hparse : (parseLabeledStatement unit).1 = (parserParseGuidanceList unit).1 := by
      simp [parseLabeledStatement, htokens, hlabel, parseStatementBody,
        isGuidanceToken_not_instruction hdirective, hdirective]
    rw [hparse, ← htokens]
    exact hinv.guidanceList_iff unit

/-- **A round of the main loop.**  It fails on an `.entry` that is the last
token, and otherwise keeps the property. -/
theorem LineInvariant.contentRound {unit : TranslationUnit} {t : Token} {rest : List Token}
    (htokens : unit.tokens = t :: rest) (heof : t.type ≠ .eoft) :
    if t.type = .entryIns ∧ rest = [] then
      Assembler.contentRound unit = .error .nullDereference
    else ∃ unit', Assembler.contentRound unit = .ok unit' ∧
      (holds unit'.tokens ↔ holds (t :: rest)) := by
  rw [Assembler.contentRound, htokens]
  by_cases heol : t.type = .eol
  · have hentry : t.type ≠ .entryIns := by rw [heol]; decide
    simp only [if_pos heol, hentry, false_and, if_false]
    exact ⟨_, rfl, (hinv.blank heol).symm⟩
  by_cases hidentifier : t.type = .identifier ∨ t.type = .dataIns ∨ t.type = .stringIns
  · have hne : t.type ≠ .externIns ∧ t.type ≠ .entryIns := by
      rcases hidentifier with h | h | h <;> simp [h]
    simp only [if_neg heol, hne.1, hne.2, if_false, if_pos hidentifier, false_and]
    refine ⟨_, rfl, ?_⟩
    rw [appendLabel_tokens]
    exact hinv.labeledStatement_iff htokens (by simpa [isGuidanceToken] using hidentifier)
  have hline : (t.type = .entryIns → rest ≠ []) →
      (holds (t :: rest) ↔ holds (endOfLine rest)) := fun h =>
    hinv.line ⟨heol, heof⟩ h fun _ _ _ hlabel => hidentifier (Or.inl hlabel.labelType)
  have hend : endOfLine (t :: rest) = endOfLine rest := endOfLine_cons ⟨heol, heof⟩
  by_cases hentry : t.type = .entryIns
  · have hparse := parserParseEntry_line htokens hentry
    simp only [hentry, reduceCtorEq, if_false, if_true, true_and]
    by_cases hnil : rest = []
    · rw [if_pos hnil] at hparse ⊢
      rw [hparse]
      rfl
    · rw [if_neg hnil] at hparse ⊢
      obtain ⟨unit', node, hparse, htokens'⟩ := hparse
      rw [hparse]
      refine ⟨_, rfl, ?_⟩
      rw [hline fun _ => hnil]
      show holds unit'.tokens ↔ _
      rw [htokens']
  · rw [if_neg fun h => hentry h.1]
    rw [hline fun h => absurd h hentry]
    simp only [if_neg heol, if_neg hentry, if_neg hidentifier]
    by_cases hexternIns : t.type = .externIns
    · rw [if_pos hexternIns]
      refine ⟨_, rfl, ?_⟩
      rw [parserParseExternal_line htokens hexternIns]
    · rw [if_neg hexternIns]
      have hskip : (parserMoveToEndOfLine unit).tokens = endOfLine rest := by
        rw [parserMoveToEndOfLine, setTokens_tokens, htokens, hend]
      split_ifs
      · exact ⟨_, rfl, by rw [hskip]⟩
      · exact ⟨_, rfl, by rw [reportError_tokens, htokens, hend]⟩

/-- **The main loop** ends at the end of the file or of the list, and keeps the
property, unless it comes to an `.entry` that is the last token. -/
theorem LineInvariant.contentLoop (unit : TranslationUnit) :
    (∃ unit', Assembler.contentLoop (.ok unit) = .ok unit' ∧ AtEnd unit'.tokens ∧
      (holds unit'.tokens ↔ holds unit.tokens)) ∨
    (Assembler.contentLoop (.ok unit) = .error .nullDereference ∧
      ∃ t, t.type = .entryIns ∧ (holds [t] ↔ holds unit.tokens)) := by
  induction hn : unit.tokens.length using Nat.strong_induction_on generalizing unit with
  | h n ih =>
      by_cases hend : AtEnd unit.tokens
      · exact Or.inl ⟨unit, contentLoop_atEnd hend, hend, Iff.rfl⟩
      obtain ⟨t, rest, htokens⟩ := List.exists_cons_of_ne_nil fun h => hend (Or.inl h)
      have heof : t.type ≠ .eoft := fun h => hend (Or.inr ⟨t, rest, htokens, h⟩)
      have hround := hinv.contentRound htokens heof
      rw [contentLoop_step htokens heof]
      by_cases hlone : t.type = .entryIns ∧ rest = []
      · rw [if_pos hlone] at hround
        obtain ⟨hentry, rfl⟩ := hlone
        rw [hround, htokens]
        exact Or.inr ⟨While.loop_exit rfl, t, hentry, Iff.rfl⟩
      · rw [if_neg hlone] at hround
        obtain ⟨unit', hround, hsame⟩ := hround
        have hgo : contentGoesOn (.ok unit) = true := by simp [contentGoesOn, htokens, heof]
        have hshorter : contentRemaining (Assembler.contentRound unit) < n :=
          hn ▸ contentRound_remaining hgo
        rw [hround] at hshorter ⊢
        rw [htokens, ← hsame]
        exact ih _ hshorter unit' rfl

end Rounds

/-! ## The lists that make the parser read a token that is not there -/

/-- The parser comes to an `.entry` that is the last token of the list: every
line in front of it is passed, and it is not taken with a label whose line has
no statement. -/
inductive ReachesLoneEntry : List Token → Prop
  | entry {t : Token} (ht : t.type = .entryIns) : ReachesLoneEntry [t]
  | blank {t : Token} {rest : List Token} (ht : t.type = .eol)
      (hrest : ReachesLoneEntry rest) : ReachesLoneEntry (t :: rest)
  | label {name colon : Token} {rest : List Token} (hlabel : LabelColon name colon)
      (hrest : ReachesLoneEntry (endOfLine (skipEol rest))) :
      ReachesLoneEntry (name :: colon :: rest)
  | line {t : Token} {rest : List Token} (ht : t.type ≠ .eol ∧ t.type ≠ .eoft)
      (hplain : ∀ colon rest', rest = colon :: rest' → ¬ LabelColon t colon)
      (hrest : ReachesLoneEntry (endOfLine rest)) : ReachesLoneEntry (t :: rest)

/-- Behind the end of the file no lone `.entry` is reached. -/
theorem not_reachesLoneEntry_eoft {t : Token} {rest : List Token} (ht : t.type = .eoft) :
    ¬ ReachesLoneEntry (t :: rest) := by
  intro h
  cases h with
  | entry hentry => simp [ht] at hentry
  | blank heol => simp [ht] at heol
  | label hlabel =>
      have htype := hlabel.labelType
      simp [ht] at htype
  | line hne => exact hne.2 ht

/-- Reaching one may be decided line by line. -/
theorem reachesLoneEntry_invariant : LineInvariant ReachesLoneEntry where
  blank := by
    intro t rest ht
    refine ⟨fun h => ?_, .blank ht⟩
    cases h with
    | entry hentry => simp [ht] at hentry
    | blank _ hrest => exact hrest
    | label hlabel =>
        have htype := hlabel.labelType
        simp [ht] at htype
    | line hne => exact absurd ht hne.1
  label := by
    intro name colon rest hlabel
    have htype := hlabel.labelType
    refine ⟨fun h => ?_, .label hlabel⟩
    cases h with
    | blank heol => simp [htype] at heol
    | label _ hrest => exact hrest
    | line _ hplain => exact absurd hlabel (hplain _ _ rfl)
  line := by
    intro t rest hne hentry hplain
    refine ⟨fun h => ?_, .line hne hplain⟩
    cases h with
    | entry ht => exact absurd rfl (hentry ht)
    | blank heol => exact absurd heol hne.1
    | label hlabel => exact absurd hlabel (hplain _ _ rfl)
    | line _ _ hrest => exact hrest

/-- At the end of the list none is reached. -/
theorem AtEnd.not_reachesLoneEntry {tokens : List Token} (h : AtEnd tokens) :
    ¬ ReachesLoneEntry tokens := by
  rcases h with rfl | ⟨t, rest, rfl, heof⟩
  · exact nofun
  · exact not_reachesLoneEntry_eoft heof

/-- The main loop returns unless it comes to such an `.entry`. -/
theorem contentLoop_returns_iff (unit : TranslationUnit) :
    (∃ unit', contentLoop (.ok unit) = .ok unit') ↔ ¬ ReachesLoneEntry unit.tokens := by
  rcases reachesLoneEntry_invariant.contentLoop unit with
    ⟨unit', hloop, hend, hsame⟩ | ⟨hloop, t, hentry, hsame⟩
  · refine iff_of_true ⟨unit', hloop⟩ ?_
    rw [← hsame]
    exact hend.not_reachesLoneEntry
  · refine iff_of_false ?_ (not_not_intro (hsame.mp (.entry hentry)))
    intro hfacts
    obtain ⟨unit', h⟩ := hfacts
    rw [hloop] at h
    cases h

/-- Every routine of the parser, begun at this cursor, returns without reading
a token of `NULL`. -/
structure NeverReadsNull (unit : TranslationUnit) : Prop where
  content : ∃ result, Checked.parseTranslationUnitContent unit = .ok result
  labeledStatement : ∃ result, Checked.parseLabeledStatement unit = .ok result
  entry : ∃ result, Checked.parserParseEntry unit = .ok result
  external : ∃ result, Checked.parserParseExternal unit = .ok result
  instructionList : ∃ result, Checked.parserParseInstructionList unit = .ok result
  instruction : ∃ result, Checked.parserParseInstruction unit = .ok result
  operand : ∃ result, Checked.parseOperand unit = .ok result
  guidanceList : ∃ result, Checked.parserParseGuidanceList unit = .ok result
  dataDirective : ∃ result, Checked.parseDataDirectiveGuidance unit = .ok result
  stringDirective : ∃ result, Checked.parseStringDirectiveGuidance unit = .ok result

/-- `parse_translation_unit_content` alone reads a token of `NULL` on the lists whose
last token is an `.entry` it comes to, and on no others: it does not call
`parser_parse_entry` on an empty list. -/
theorem parseTranslationUnitContent_reads_iff (unit : TranslationUnit) :
    (∃ result, Checked.parseTranslationUnitContent unit = .ok result) ↔
      ¬ ReachesLoneEntry unit.tokens := by
  rw [Checked.parseTranslationUnitContent_eq]
  exact contentLoop_returns_iff { unit with
    externalList := []
    entryList := []
    instructionLabelList := []
    guidanceLabelList := [] }

/-- **Reads of the parser.**  All its routines return from every list that is
not empty and on which it does not come to an `.entry` that is the last token;
on the others `parser_parse_entry` reads the token of `NULL`.  The empty list is
one of them for the call of `parser_parse_entry` itself only. -/
theorem neverReadsNull_iff (unit : TranslationUnit) :
    NeverReadsNull unit ↔ unit.tokens ≠ [] ∧ ¬ ReachesLoneEntry unit.tokens := by
  have hcontent := parseTranslationUnitContent_reads_iff unit
  constructor
  · intro h
    constructor
    · intro hnil
      obtain ⟨result, hentry⟩ := h.entry
      rw [Checked.parserParseEntry_eq, parserParseEntry, hnil] at hentry
      cases hentry
    · exact hcontent.mp h.content
  · intro hfacts
    obtain ⟨hne, hreach⟩ := hfacts
    refine ⟨hcontent.mpr hreach, ⟨_, Checked.parseLabeledStatement_eq unit⟩, ?_,
      ⟨_, Checked.parserParseExternal_eq unit⟩,
      ⟨_, Checked.parserParseInstructionList_eq unit⟩,
      ⟨_, Checked.parserParseInstruction_eq unit⟩, ⟨_, Checked.parseOperand_eq unit⟩,
      ⟨_, Checked.parserParseGuidanceList_eq unit⟩,
      ⟨_, Checked.parseDataDirectiveGuidance_eq unit⟩,
      ⟨_, Checked.parseStringDirectiveGuidance_eq unit⟩⟩
    rw [Checked.parserParseEntry_eq]
    cases htokens : unit.tokens with
    | nil => exact absurd htokens hne
    | cons t rest =>
        by_cases hentry : t.type = .entryIns
        · have hparse := parserParseEntry_line htokens hentry
          have hrest : rest ≠ [] := by
            intro heq
            obtain rfl := heq
            rw [htokens] at hreach
            exact hreach (.entry hentry)
          rw [if_neg hrest] at hparse
          obtain ⟨unit', node, hparse, -⟩ := hparse
          exact ⟨_, hparse⟩
        · rw [parserParseEntry, htokens]
          simp only [if_pos hentry]
          exact ⟨_, rfl⟩

/-- The tokens of the string `.entry` are such a list: no end-of-file character
stands behind it. -/
theorem lone_entry_reads_null : ¬ NeverReadsNull (parserInitializeTranslationUnit (lexerAnalyze
    (lexerInitializeFromString "sample" (stringCreateFromCstr (bytes ".entry"))))) := by
  have htypes : (lexerAnalyze (lexerInitializeFromString "sample"
      (stringCreateFromCstr (bytes ".entry")))).tokenList.map Token.type = [.entryIns] := by
    decide +kernel
  obtain ⟨t, htokens, hentry⟩ := List.map_eq_singleton_iff.mp htypes
  intro h
  apply ((neverReadsNull_iff _).mp h).2
  show ReachesLoneEntry (lexerAnalyze (lexerInitializeFromString "sample"
    (stringCreateFromCstr (bytes ".entry")))).tokenList
  rw [htokens]
  exact .entry hentry

end Assembler
