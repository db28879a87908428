import CLab.LexerVisits
import Mathlib.Data.List.Pairwise

/-!
# Lossless tokenisation

The tokens of a text are slices of it in their order, and a character outside
all of them is a blank, stands in a comment, or is reported by an error of its
own: `LexerInput.lossless`.
-/

namespace Assembler

/-- The characters a token stands for: those of its string, and the
end-of-file character itself, whose token has an empty string. -/
def spanLength (t : Token) : Nat :=
  if t.type = .eoft then 1 else stringLength t.string

/-- The character at an index belongs to a token. -/
def InSpan (tokens : List Token) (i : Nat) : Prop :=
  ∃ t ∈ tokens, t.index ≤ i ∧ i < t.index + spanLength t

/-- The place in the text an error points to. -/
def ErrorNode.index : ErrorNode → Nat
  | .tokenError _ error => error.token.index
  | .charError _ error => error.fileIndex

/-- From a semicolon outside every token up to the character in question there
is no newline and no end-of-file character. -/
def InComment (source : List UInt8) (tokens : List Token) (i : Nat) : Prop :=
  ∃ start ≤ i, source[start]? = some ';'.toUInt8 ∧ ¬ InSpan tokens start ∧
    ∀ j, start ≤ j → j ≤ i → source[j]? ≠ some '\n'.toUInt8 ∧ source[j]? ≠ some eofChar

/-- The only error that points to an index says that the character there is
unknown. -/
def ReportedUnknown (source : List UInt8) (errors : List ErrorNode) (i : Nat) : Prop :=
  ∃ c lineIndex lineNumber, source[i]? = some c ∧ isUnknownChar c = true ∧
    errors.filter (fun e => e.index = i) =
      [.charError .lexer
        { character := c, fileIndex := i, lineIndex := lineIndex, lineNumber := lineNumber
          message := "unknown char (in the current context)" }]

/-- The tokens of a text and its errors account for every character. -/
structure Lossless (source : List UInt8) (length : Nat) (tokens : List Token)
    (errors : List ErrorNode) : Prop where
  ordered : tokens.Pairwise fun t u => t.index < u.index ∧ t.index + spanLength t ≤ u.index
  slice : ∀ t ∈ tokens, t.type ≠ .eoft → t.string.data ≠ [] ∧
    (source.drop t.index).take (stringLength t.string) = t.string.data
  endOfFile : ∀ t ∈ tokens, t.type = .eoft → source[t.index]? = some eofChar
  gap : ∀ i < length, ¬ InSpan tokens i →
    (∃ c, source[i]? = some c ∧ isWhitespace c = true) ∨ InComment source tokens i ∨
      ReportedUnknown source errors i

/-! ## The lexemes without a token -/

theorem nextLexeme_untyped {c : UInt8} {cs : List UInt8} (h : (nextLexeme c cs).type = none) :
    (isWhitespace c = true ∧ nextLexeme c cs = ⟨[c], none, none⟩) ∨
    (c = ';'.toUInt8 ∧ nextLexeme c cs =
      ⟨c :: cs.takeWhile (fun d => d != eofChar && d != '\n'.toUInt8), none, none⟩) ∨
    (isUnknownChar c = true ∧ nextLexeme c cs = ⟨[c], none, some .unknownChar⟩) := by
  revert h
  refine nextLexeme_branches (P := fun f => (f cs).type = none →
    (isWhitespace c = true ∧ f cs = ⟨[c], none, none⟩) ∨
    (c = ';'.toUInt8 ∧ f cs =
      ⟨c :: cs.takeWhile (fun d => d != eofChar && d != '\n'.toUInt8), none, none⟩) ∨
    (isUnknownChar c = true ∧ f cs = ⟨[c], none, some .unknownChar⟩)) c
    ?_ ?_ ?_ ?_ ?_ ?_ ?_ ?_ ?_ ?_
  · exact fun hblank _ => Or.inl ⟨hblank, rfl⟩
  · exact fun hcomment _ => Or.inr (Or.inl ⟨hcomment, rfl⟩)
  · exact fun _ h => by cases h
  · exact fun _ h => by cases h
  · exact fun _ h => by cases h
  · intro _ h
    simp only [numberLexeme] at h
    split at h <;> cases h
  · intro _ h
    simp only [stringLexeme] at h
    split at h <;> cases h
  · intro _ h
    simp only [nonOpLexeme] at h
    split at h <;> cases h
  · exact fun _ h => by cases h
  · exact fun hunknown _ => Or.inr (Or.inr ⟨hunknown, rfl⟩)

theorem nextLexeme_eoft {c : UInt8} {cs : List UInt8}
    (h : (nextLexeme c cs).type = some .eoft) : (nextLexeme c cs).text = [eofChar] := by
  revert h
  refine nextLexeme_cases (P := fun x => x.type = some .eoft → x.text = [eofChar]) c cs
    ?_ ?_ ?_ ?_ ?_ ?_ ?_ ?_ ?_ ?_
  · exact fun _ h => by cases h
  · exact fun _ h => by cases h
  · exact fun _ h => by cases h
  · intro heq _
    obtain rfl := heq
    rfl
  · exact fun _ h => absurd (Option.some.inj h) (separatorType_ne c)
  · intro _ h
    unfold numberLexeme at h
    split at h <;> cases h
  · intro _ h
    unfold stringLexeme at h
    split at h <;> cases h
  · intro _ h
    unfold nonOpLexeme at h
    split at h
    · rename_i hkey
      exact absurd (Option.some.inj h) (keywordOf_ne hkey (by decide))
    · cases h
  · intro _ h
    cases hkey : keywordOf keywords (c :: cs.takeWhile (wordChar c)) with
    | none => simp [wordLexeme, hkey] at h
    | some type =>
        simp only [wordLexeme, hkey, Option.getD_some, Option.some.injEq] at h
        exact absurd h (keywordOf_ne hkey (by decide))
  · exact fun _ h => by cases h

/-! ## Visits and spans -/

section Visits

variable {source : CString} {v : Lexer × Lexeme}

/-- The token of a visit stands for the characters of its lexeme. -/
theorem LexerVisit.token (h : LexerVisit source.data v) {t : Token}
    (ht : visitToken v = some t) :
    t.index = v.1.index ∧ spanLength t = v.2.text.length ∧
      (t.type ≠ .eoft → t.string.data = v.2.text) ∧
      (t.type = .eoft → v.2.text = [eofChar]) := by
  obtain ⟨type, htype, rfl⟩ := Option.map_eq_some_iff.mp ht
  have hno := h.text_noNul
  have heof : type = .eoft → v.2.text = [eofChar] := by
    intro heq
    obtain rfl := heq
    obtain ⟨c, cs, -, hnext⟩ := h.ahead
    rw [← hnext] at htype ⊢
    exact nextLexeme_eoft htype
  have hstring : type ≠ .eoft → (v.2.tokenAt v.1 type).string.data = v.2.text := by
    intro hne
    simp only [Lexeme.tokenAt, if_neg hne, fromCstr_noNul hno]
  refine ⟨rfl, ?_, hstring, heof⟩
  by_cases hne : type = .eoft
  · have hspan : spanLength (v.2.tokenAt v.1 type) = 1 := if_pos hne
    rw [hspan, heof hne]
    rfl
  · have hspan : spanLength (v.2.tokenAt v.1 type) =
        stringLength (v.2.tokenAt v.1 type).string := if_neg hne
    rw [hspan, stringLength, hstring hne]

/-- The error of a visit points to the start of its lexeme. -/
theorem visitError_index {e : ErrorNode} (h : visitError v = some e) : e.index = v.1.index := by
  obtain ⟨error, -, rfl⟩ := Option.map_eq_some_iff.mp h
  cases error <;> rfl

end Visits

section Run

variable {source : CString} {lexer : Lexer} {xs : List Lexeme}
  (hvisits : ∀ v ∈ lexer.visits xs, LexerVisit source.data v)

/-- Two visits do not share a character. -/
theorem visits_disjoint {v w : Lexer × Lexeme} (hv : v ∈ lexer.visits xs)
    (hw : w ∈ lexer.visits xs) {i : Nat} (hvi : v.1.index ≤ i ∧ i < v.1.index + v.2.text.length)
    (hwi : w.1.index ≤ i ∧ i < w.1.index + w.2.text.length) : v = w := by
  by_contra hne
  let apart : Lexer × Lexeme → Lexer × Lexeme → Prop := fun v w =>
    v.1.index + v.2.text.length ≤ w.1.index ∨ w.1.index + w.2.text.length ≤ v.1.index
  have hpairs : (lexer.visits xs).Pairwise apart := (visits_ordered lexer xs).imp Or.inl
  have : Std.Symm apart := ⟨fun _ _ => Or.symm⟩
  rcases hpairs.forall hv hw hne with h | h <;> omega

include hvisits

/-- A character of a lexeme without a token is outside every span. -/
theorem not_inSpan_of_untyped {v : Lexer × Lexeme} (hv : v ∈ lexer.visits xs)
    (htype : v.2.type = none) {i : Nat}
    (hi : v.1.index ≤ i ∧ i < v.1.index + v.2.text.length) :
    ¬ InSpan ((lexer.visits xs).filterMap visitToken) i := by
  intro hfacts
  obtain ⟨t, ht, hti⟩ := hfacts
  obtain ⟨w, hw, htoken⟩ := List.mem_filterMap.mp ht
  obtain ⟨hindex, hspan, -, -⟩ := (hvisits w hw).token htoken
  rw [hindex, hspan] at hti
  obtain rfl := visits_disjoint hv hw hi hti
  simp [visitToken, htype] at htoken

/-- The errors that point to a place where the lexer has stopped. -/
theorem errors_at_visit {v : Lexer × Lexeme} (hv : v ∈ lexer.visits xs) :
    ((lexer.visits xs).filterMap visitError).filter (fun e => e.index = v.1.index) =
      (visitError v).toList := by
  have hordered := visits_ordered lexer xs
  obtain ⟨before, after, hsplit⟩ := List.append_of_mem hv
  have hother : ∀ ws : List (Lexer × Lexeme), (∀ w ∈ ws, w.1.index ≠ v.1.index) →
      (ws.filterMap visitError).filter (fun e => e.index = v.1.index) = [] := by
    intro ws hws
    refine List.filter_eq_nil_iff.mpr fun e he => ?_
    obtain ⟨w, hw, herror⟩ := List.mem_filterMap.mp he
    rw [visitError_index herror]
    simpa using hws w hw
  have hself : ((visitError v).toList).filter (fun e => e.index = v.1.index) =
      (visitError v).toList := by
    refine List.filter_eq_self.mpr fun e he => ?_
    exact decide_eq_true (visitError_index (Option.mem_toList.mp he))
  rw [hsplit] at hordered hvisits ⊢
  obtain ⟨-, hafter, hbefore⟩ := List.pairwise_append.mp hordered
  have hpos : ∀ w ∈ before ++ v :: after, 0 < w.2.text.length := fun w hw =>
    (hvisits w hw).text_pos
  have hleft := hother before fun w hw => by
    have hle := hbefore w hw v List.mem_cons_self
    have hlen := hpos w (List.mem_append_left _ hw)
    omega
  have hright := hother after fun w hw => by
    have hle := (List.pairwise_cons.mp hafter).1 w hw
    have hlen := hpos v (by simp)
    omega
  have hcons : (v :: after).filterMap visitError =
      (visitError v).toList ++ after.filterMap visitError := by
    cases herror : visitError v <;> simp [herror]
  rw [List.filterMap_append, hcons, List.filter_append, List.filter_append, hleft, hself, hright,
    List.nil_append, List.append_nil]

/-- A character of a lexeme without a token is a blank, in a comment, or
reported. -/
theorem gap_of_untyped {v : Lexer × Lexeme} (hv : v ∈ lexer.visits xs)
    (htype : v.2.type = none) {i : Nat}
    (hi : v.1.index ≤ i ∧ i < v.1.index + v.2.text.length) :
    (∃ c, source.data[i]? = some c ∧ isWhitespace c = true) ∨
      InComment source.data ((lexer.visits xs).filterMap visitToken) i ∨
      ReportedUnknown source.data ((lexer.visits xs).filterMap visitError) i := by
  obtain ⟨c, cs, hdrop, hnext⟩ := (hvisits v hv).ahead
  have hget : ∀ k, source.data[v.1.index + k]? = (c :: cs)[k]? := fun k => by
    rw [← hdrop, List.getElem?_drop]
  rw [← hnext] at htype
  rcases nextLexeme_untyped htype with ⟨hblank, hlexeme⟩ | ⟨hsemicolon, hlexeme⟩ |
    ⟨hunknown, hlexeme⟩
  · rw [← hnext, hlexeme, List.length_singleton] at hi
    obtain rfl : i = v.1.index + 0 := by omega
    exact Or.inl ⟨c, hget 0, hblank⟩
  · refine Or.inr (Or.inl ⟨v.1.index, hi.1, ?_, ?_, ?_⟩)
    · rw [← Nat.add_zero v.1.index, hget 0, hsemicolon]
      rfl
    · exact not_inSpan_of_untyped hvisits hv (hnext ▸ htype)
        ⟨Nat.le_refl _, Nat.lt_add_of_pos_right (hvisits v hv).text_pos⟩
    · -- the characters behind the semicolon are those the comment takes
      intro j hj hji
      obtain ⟨k, rfl⟩ := Nat.exists_eq_add_of_le hj
      rw [← hnext, hlexeme, List.length_cons] at hi
      rw [hget k]
      cases k with
      | zero =>
          rw [hsemicolon, List.getElem?_cons_zero]
          exact ⟨by decide, by decide⟩
      | succ k =>
          have hk : k < (cs.takeWhile (fun d => d != eofChar && d != '\n'.toUInt8)).length := by
            omega
          have hchar := List.mem_takeWhile_imp (List.getElem_mem hk)
          have hfront := (List.takeWhile_prefix
            (p := fun d => d != eofChar && d != '\n'.toUInt8) (l := cs)).getElem hk
          have hlt : k < cs.length := Nat.lt_of_lt_of_le hk (List.takeWhile_prefix _).length_le
          rw [hfront] at hchar
          rw [List.getElem?_cons_succ, List.getElem?_eq_getElem hlt]
          simp only [Bool.and_eq_true, bne_iff_ne, ne_eq] at hchar
          exact ⟨fun h => hchar.2 (Option.some.inj h), fun h => hchar.1 (Option.some.inj h)⟩
  · rw [← hnext, hlexeme, List.length_singleton] at hi
    obtain rfl : i = v.1.index := by omega
    have hq : c ≠ '\"'.toUInt8 := by
      intro heq
      obtain rfl := heq
      exact absurd hunknown (by decide)
    refine Or.inr (Or.inr ⟨c, v.1.column, v.1.lineNumber, hget 0, hunknown, ?_⟩)
    rw [errors_at_visit hvisits hv, visitError, ← hnext, hlexeme]
    simp [Lexeme.errorAt, Lexeme.charErrorAt, hq]

end Run

/-- **Lossless tokenisation.**  Whatever the lexer starts from, its tokens are
slices of the source text in order, an end-of-file token stands on an
end-of-file character, and every other character of the text is a blank,
belongs to a comment or is reported as unknown, exactly once. -/
theorem LexerInput.lossless (input : LexerInput) :
    Lossless input.source.data input.text.length input.tokens input.errors := by
  obtain ⟨xs, htokens, herrors, hvisits, hfront, hlength⟩ := input.exists_visits
  rw [htokens, herrors]
  refine ⟨?_, ?_, ?_, ?_⟩
  · apply List.pairwise_filterMap.mpr
    apply (visits_ordered input.lexer xs).imp_of_mem
    intro v w hv hw hvw t ht u hu
    obtain ⟨hti, hspan, -, -⟩ := (hvisits v hv).token ht
    obtain ⟨hui, -, -, -⟩ := (hvisits w hw).token hu
    have hpos := (hvisits v hv).text_pos
    omega
  · intro t ht hne
    obtain ⟨v, hv, htoken⟩ := List.mem_filterMap.mp ht
    obtain ⟨hindex, -, hstring, -⟩ := (hvisits v hv).token htoken
    have hpos := (hvisits v hv).text_pos
    rw [stringLength, hstring hne, hindex]
    refine ⟨fun hnil => by rw [hnil] at hpos; exact Nat.lt_irrefl 0 hpos, ?_⟩
    exact (List.prefix_iff_eq_take.mp (hvisits v hv).text_front).symm
  · intro t ht heof
    obtain ⟨v, hv, htoken⟩ := List.mem_filterMap.mp ht
    obtain ⟨hindex, -, -, htext⟩ := (hvisits v hv).token htoken
    obtain ⟨rest, hrest⟩ := (hvisits v hv).text_front
    rw [hindex, ← Nat.add_zero v.1.index, ← List.getElem?_drop, ← hrest, htext heof]
    rfl
  · intro i hi hout
    obtain ⟨v, hv, hin⟩ := visits_cover input.lexer xs (i := i)
      (by rw [input.atStart.index]; omega) (by omega)
    refine gap_of_untyped hvisits hv ?_ hin
    by_contra htype
    obtain ⟨type, htype⟩ := Option.ne_none_iff_exists'.mp htype
    have htoken : visitToken v = some (v.2.tokenAt v.1 type) := by
      rw [visitToken, htype, Option.map_some]
    obtain ⟨hindex, hspan, -, -⟩ := (hvisits v hv).token htoken
    refine hout ⟨_, List.mem_filterMap.mpr ⟨v, hv, htoken⟩, ?_⟩
    rw [hindex, hspan]
    exact hin

/-- The string of every token, empty or not, stands at the token's index. -/
theorem LexerInput.tokenSlice (input : LexerInput) :
    ∀ t ∈ input.tokens, TokenSlice input.source.data t := by
  intro t ht
  by_cases htype : t.type = .eoft
  · obtain ⟨xs, htokens, -, -, -, -⟩ := input.exists_visits
    rw [htokens] at ht
    obtain ⟨v, -, htoken⟩ := List.mem_filterMap.mp ht
    obtain ⟨type, -, rfl⟩ := Option.map_eq_some_iff.mp htoken
    have hempty : (v.2.tokenAt v.1 type).string = stringCreate := if_pos htype
    rw [TokenSlice, hempty]
    exact List.nil_prefix
  · obtain ⟨-, hslice⟩ := input.lossless.slice t ht htype
    exact List.prefix_iff_eq_take.mpr hslice.symm

end Assembler
