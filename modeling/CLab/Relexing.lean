import CLab.Seams
import Mathlib.Data.List.Basic

/-!
# Lexing what has been printed

The tokens of a text that was lexed without an error, written one after the
other with a space in between, are lexed again to the same tokens:
`LexerInput.relexed`.  What makes it work is that the lexeme behind a token
stays the same when all that follows it is a space (`nextLexeme_rereads`).
-/

namespace Assembler

/-- The characters written for a token: the end-of-file token has none of its
own. -/
def printedToken (t : Token) : List UInt8 :=
  if t.type = .eoft then [eofChar] else t.string.data

/-- The tokens in order, with single spaces between them. -/
def printTokens (tokens : List Token) : List UInt8 :=
  [' '.toUInt8].intercalate (tokens.map printedToken)

/-! ## A lexeme in front of a space -/

/-- Nothing follows, or a space. -/
def SpaceAhead (rest : List UInt8) : Prop :=
  ∀ d ∈ rest.head?, d = ' '.toUInt8

/-- The lexeme is read again wherever nothing but a space follows it. -/
def Lexeme.Rereads (x : Lexeme) : Prop :=
  ∃ c t, x.text = c :: t ∧ ∀ rest, SpaceAhead rest → nextLexeme c (t ++ rest) = x

/-- **A lexeme with a token and without an error is read again.** -/
theorem nextLexeme_rereads {c : UInt8} {cs : List UInt8} (h0 : c ≠ 0)
    (htype : (nextLexeme c cs).type ≠ none) (herror : (nextLexeme c cs).error = none) :
    (nextLexeme c cs).Rereads := by
  obtain ⟨t, htext, -⟩ := nextLexeme_text c cs
  refine ⟨c, t, htext, fun rest hrest => ?_⟩
  have hcomment : c ≠ ';'.toUInt8 := fun h =>
    htype ((nextLexeme_untyped_iff cs).mpr (Or.inr (Or.inl h)))
  obtain ⟨t', htext', hagain⟩ := nextLexeme_again h0 (Or.inl herror) fun d hd =>
    hrest d hd ▸ continues_space hcomment
  obtain rfl : t = t' := (List.cons.inj (htext.symm.trans htext')).2
  exact hagain

/-! ## Lexemes with spaces between them -/

/-- A blank is a lexeme without a token. -/
theorem nextLexeme_space (cs : List UInt8) :
    nextLexeme ' '.toUInt8 cs = ⟨[' '.toUInt8], none, none⟩ := by
  rw [nextLexeme, if_pos (by decide)]

/-- The lexeme of a single space. -/
def spaceLexeme : Lexeme := ⟨[' '.toUInt8], none, none⟩

/-- Lexemes that are read again, with spaces between them, are the lexemes of
what is written. -/
theorem lexes_intersperse {xs : List Lexeme} (h : ∀ x ∈ xs, x.Rereads) :
    Lexes (lexemesText (xs.intersperse spaceLexeme)) (xs.intersperse spaceLexeme) := by
  induction xs with
  | nil => exact Lexes.nil
  | cons x xs ih =>
      obtain ⟨c, t, htext, hagain⟩ := h x List.mem_cons_self
      have htail := ih fun y hy => h y (List.mem_cons_of_mem _ hy)
      cases xs with
      | nil =>
          have hread := hagain [] nofun
          rw [List.append_nil] at hread
          rw [List.intersperse_singleton, lexemesText_cons, lexemesText_nil, List.append_nil, htext]
          exact Lexes.cons hread (by rw [htext, List.append_nil]) Lexes.nil
      | cons y ys =>
          rw [List.intersperse_cons_cons, lexemesText_cons, lexemesText_cons]
          generalize (y :: ys).intersperse spaceLexeme = rest at htail
          have hread := hagain (spaceLexeme.text ++ lexemesText rest) fun d hd =>
            (Option.some.inj hd).symm
          rw [htext]
          apply Lexes.cons hread (by rw [htext]; rfl)
          exact Lexes.cons (nextLexeme_space _) rfl htail

/-- Between the lexemes there is only what was put there. -/
theorem mem_intersperse {x y : Lexeme} {xs : List Lexeme} (h : x ∈ xs.intersperse y) :
    x ∈ xs ∨ x = y := by
  induction xs with
  | nil => exact absurd h List.not_mem_nil
  | cons z zs ih =>
      cases zs with
      | nil => exact Or.inl h
      | cons w ws =>
          rw [List.intersperse_cons_cons] at h
          rcases List.mem_cons.mp h with rfl | h
          · exact Or.inl List.mem_cons_self
          · rcases List.mem_cons.mp h with rfl | h
            · exact Or.inr rfl
            · exact (ih h).imp_left (List.mem_cons_of_mem _)

/-- What is between the tokens leaves none. -/
theorem filterMap_intersperse_kind (xs : List Lexeme) :
    (xs.intersperse spaceLexeme).filterMap Lexeme.kind = xs.filterMap Lexeme.kind := by
  induction xs with
  | nil => rfl
  | cons x xs ih =>
      cases xs with
      | nil => rfl
      | cons y ys =>
          have hspace : spaceLexeme.kind = none := rfl
          rw [List.intersperse_cons_cons]
          cases hx : x.kind <;> simp only [List.filterMap_cons, hx, hspace, ih]

/-! ## Printing and lexing again -/

/-- The lexemes that have a token. -/
def typedLexemes (xs : List Lexeme) : List Lexeme :=
  xs.filter fun x => x.type.isSome

/-- Leaving out what has no token keeps all tokens. -/
theorem typedLexemes_kind (xs : List Lexeme) :
    (typedLexemes xs).filterMap Lexeme.kind = xs.filterMap Lexeme.kind := by
  induction xs with
  | nil => rfl
  | cons x xs ih =>
      rw [typedLexemes] at ih ⊢
      cases htype : x.type with
      | none =>
          have hkind : x.kind = none := by rw [Lexeme.kind, htype]; rfl
          simp only [List.filter_cons, htype, List.filterMap_cons, hkind, ← ih]
          rfl
      | some type => simp only [List.filter_cons, htype, List.filterMap_cons, ← ih]; rfl

/-- The visits are at the lexemes, in order. -/
theorem visits_lexemes (lexer : Lexer) (xs : List Lexeme) :
    (lexer.visits xs).map Prod.snd = xs := by
  induction xs generalizing lexer with
  | nil => rfl
  | cons x xs ih => rw [Lexer.visits, List.map_cons, ih]

section Visits

variable {source : CString} {vs : List (Lexer × Lexeme)}
  (hvisits : ∀ v ∈ vs, LexerVisit source.data v)

include hvisits

/-- What is printed for the tokens are the characters of their lexemes. -/
theorem map_printedToken : (vs.filterMap visitToken).map printedToken =
    (typedLexemes (vs.map Prod.snd)).map Lexeme.text := by
  induction vs with
  | nil => rfl
  | cons v vs ih =>
      have ih' := ih fun w hw => hvisits w (List.mem_cons_of_mem _ hw)
      cases htype : v.2.type with
      | none =>
          have htoken : visitToken v = none := by rw [visitToken, htype]; rfl
          simpa [typedLexemes, htoken, htype] using ih'
      | some type =>
          have htoken : visitToken v = some (v.2.tokenAt v.1 type) := by
            rw [visitToken, htype]; rfl
          have hprinted : printedToken (v.2.tokenAt v.1 type) = v.2.text := by
            obtain ⟨-, -, hstring, heof⟩ := (hvisits v List.mem_cons_self).token htoken
            unfold printedToken
            split
            · rename_i h
              exact (heof h).symm
            · rename_i h
              exact hstring h
          simpa [typedLexemes, htoken, htype, hprinted] using ih'

/-- Without errors every lexeme that has a token is read again. -/
theorem typedLexemes_reread (herrors : vs.filterMap visitError = []) :
    ∀ x ∈ typedLexemes (vs.map Prod.snd), x.Rereads ∧ x.error = none := by
  intro x hx
  obtain ⟨hmem, htype⟩ := List.mem_filter.mp hx
  obtain ⟨v, hv, rfl⟩ := List.mem_map.mp hmem
  have herror : v.2.error = none :=
    Option.map_eq_none_iff.mp (List.filterMap_eq_nil_iff.mp herrors v hv)
  obtain ⟨c, cs, hahead, hnext⟩ := (hvisits v hv).ahead
  have h0 : c ≠ 0 := by
    intro heq
    obtain rfl := heq
    refine source.noNul (List.mem_of_mem_drop (i := v.1.index) ?_)
    rw [hahead]
    exact List.mem_cons_self
  refine ⟨?_, herror⟩
  rw [← hnext] at htype herror ⊢
  exact nextLexeme_rereads h0 (Option.isSome_iff_ne_none.mp htype) herror

end Visits

/-- What is printed has no NUL in it. -/
theorem printTokens_noNul (tokens : List Token) : 0 ∉ printTokens tokens := by
  have htoken : ∀ t : Token, 0 ∉ printedToken t := by
    intro t
    unfold printedToken
    split
    · decide
    · exact t.string.noNul
  unfold printTokens
  induction tokens with
  | nil => exact List.not_mem_nil
  | cons t tokens ih =>
      cases tokens with
      | nil =>
          rw [List.map_singleton, List.intercalate_singleton]
          exact htoken t
      | cons u tokens =>
          rw [List.map_cons, List.map_cons, List.intercalate_cons_cons, ← List.map_cons]
          simp only [List.mem_append, not_or]
          exact ⟨⟨htoken t, by decide⟩, ih⟩

/-- With blanks between them the texts are joined by blanks. -/
theorem lexemesText_intersperse (xs : List Lexeme) :
    lexemesText (xs.intersperse spaceLexeme) =
      [' '.toUInt8].intercalate (xs.map Lexeme.text) := by
  induction xs with
  | nil => rfl
  | cons x xs ih =>
      cases xs with
      | nil => simp [List.intercalate_singleton]
      | cons y ys =>
          have hlist : [' '.toUInt8].intercalate ((x :: y :: ys).map Lexeme.text) =
              x.text ++ [' '.toUInt8] ++ [' '.toUInt8].intercalate ((y :: ys).map Lexeme.text) :=
            List.intercalate_cons_cons
          rw [List.intersperse_cons_cons, lexemesText_cons, lexemesText_cons, ih, hlist,
            List.append_assoc]
          rfl

/-- A string of the program is lexed to the lexemes of its characters. -/
theorem LexerInput.string_lexes (filePath : String) {source : CString} {xs : List Lexeme}
    (h : Lexes source.data xs) :
    (LexerInput.string filePath source).tokens.map Token.kind = xs.filterMap Lexeme.kind ∧
      ((∀ x ∈ xs, x.error = none) → (LexerInput.string filePath source).errors = []) := by
  have hdata : (LexerInput.string filePath source).source.data = source.data :=
    stringAppend_data _ _
  have hstart := (LexerInput.string filePath source).atStart
  obtain ⟨ys, hys, heq⟩ := lexerAnalyze_eq
    (show (LexerInput.string filePath source).lexer.Synced from rfl)
  rw [hstart.rest_eq] at hys
  obtain rfl := h.unique (hdata ▸ hys)
  constructor
  · rw [LexerInput.tokens, heq, takeAll_tokenList, hstart.tokenList, List.nil_append,
      placeTokens_kind]
  · intro hnone
    rw [LexerInput.errors, heq, takeAll_errorList, hstart.errorList, List.nil_append]
    refine List.filterMap_eq_nil_iff.mpr fun v hv => ?_
    obtain ⟨before, after, hsplit, -⟩ := mem_visits hv
    rw [visitError, hnone v.2 (by rw [hsplit]; simp), Option.map_none]

/-- **Lexing undoes printing.**  The tokens of a text without lexical errors,
written with spaces between them, are lexed to the same types and strings, and
without an error. -/
theorem LexerInput.relexed (input : LexerInput) (hclean : input.errors = [])
    (filePath : String) :
    (LexerInput.string filePath (stringCreateFromCstr (printTokens input.tokens))).tokens.map
        Token.kind = input.tokens.map Token.kind ∧
      (LexerInput.string filePath (stringCreateFromCstr (printTokens input.tokens))).errors =
        [] := by
  obtain ⟨xs, htokens, herrors, hvisits, -, -⟩ := input.exists_visits
  rw [herrors] at hclean
  have hreread := typedLexemes_reread hvisits hclean
  rw [visits_lexemes] at hreread
  have hprinted : (stringCreateFromCstr (printTokens input.tokens)).data =
      lexemesText ((typedLexemes xs).intersperse spaceLexeme) := by
    rw [fromCstr_noNul (printTokens_noNul _), printTokens, htokens, map_printedToken hvisits,
      visits_lexemes, lexemesText_intersperse]
  have hkinds : input.tokens.map Token.kind = xs.filterMap Lexeme.kind := by
    rw [htokens, ← placeTokens_eq_visits, placeTokens_kind]
  have hlex := lexes_intersperse fun x hx => (hreread x hx).1
  rw [← hprinted] at hlex
  obtain ⟨hagain, hclean'⟩ := LexerInput.string_lexes filePath hlex
  refine ⟨?_, hclean' fun x hx => ?_⟩
  · rw [hagain, filterMap_intersperse_kind, typedLexemes_kind, hkinds]
  · rcases mem_intersperse hx with hx | rfl
    · exact (hreread x hx).2
    · rfl

/-- The theorem at a text with a comment, a literal and two lines. -/
theorem LexerInput.relexed_sample :
    (LexerInput.file "sample" (bytes "a: .string \"x ;\\n\" ; b\n prn #-5")).errors = [] ∧
    (LexerInput.string "sample" (stringCreateFromCstr (printTokens (LexerInput.file "sample"
        (bytes "a: .string \"x ;\\n\" ; b\n prn #-5")).tokens))).tokens.map Token.kind =
      (LexerInput.file "sample"
        (bytes "a: .string \"x ;\\n\" ; b\n prn #-5")).tokens.map Token.kind := by
  have hclean : (LexerInput.file "sample"
      (bytes "a: .string \"x ;\\n\" ; b\n prn #-5")).errors = [] := by decide +kernel
  exact ⟨hclean, (LexerInput.relexed _ hclean "sample").1⟩

end Assembler
