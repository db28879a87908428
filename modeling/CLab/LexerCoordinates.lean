import CLab.LexerCoverage
import Mathlib.Data.Nat.Init

/-!
# Lines and columns

The lexer counts lines and columns while it advances; `error_handler.c` finds
them again from an index.  The two agree wherever the lexer stands
(`Lexer.Located`), so every token and every error gets the right line, and the
right column unless it begins with the quote of a string literal: there the
source puts the line number into the column.  `LexerInput.coordinates_iff`
says for which texts all coordinates are right.
-/

namespace Assembler

/-! ## `error_handler.c` -/

/-- `while (index > 0 && string_char_at(str, index - 1) != '\n') index--;` -/
def stringFindLineStart (str : CString) : Nat → Nat
  | 0 => 0
  | index + 1 =>
      if stringCharAt str index ≠ '\n'.toUInt8 then stringFindLineStart str index
      else index + 1

/-- `string_get_line_number`, which counts the newlines in front. -/
def stringGetLineNumber (str : CString) (index : Nat) : Nat :=
  (List.range index).foldl
    (fun line i => if stringCharAt str i = '\n'.toUInt8 then line + 1 else line) 1

/-- `count_digits`, of a number that is not negative. -/
def countDigits (value : Nat) : Nat :=
  if value = 0 then 0 else countDigits (value / 10) + 1
termination_by value
decreasing_by omega

/-- What `print_error_line` prints in front of the character in question: the
line number, a bar and the line up to that character. -/
def errorLineFront (sourceString : CString) (startIndex errorIndex : Nat) : List UInt8 :=
  bytes "    " ++
    (Nat.toDigits 10 (stringGetLineNumber sourceString startIndex)).map Char.toUInt8 ++
    bytes " | " ++
    ((sourceString.data.drop startIndex).takeWhile (· != '\n'.toUInt8)).take
      (errorIndex - startIndex)

/-- What `print_error_pointer` prints in front of the caret. -/
def errorPointerFront (lineNumber errorIndex : Nat) : List UInt8 :=
  bytes "    " ++ List.replicate (countDigits lineNumber) ' '.toUInt8 ++ bytes " | " ++
    List.replicate errorIndex ' '.toUInt8

/-! ## The two ways of counting -/

/-- The line and the column of an index, as the error handler computes them. -/
structure Coordinates (source : CString) (index line indexInLine : Nat) : Prop where
  line : line = stringGetLineNumber source (stringFindLineStart source index)
  column : indexInLine = index - stringFindLineStart source index

/-- A newline ends its line. -/
theorem stringGetLineNumber_succ (str : CString) (index : Nat) :
    stringGetLineNumber str (index + 1) =
      if stringCharAt str index = '\n'.toUInt8 then stringGetLineNumber str index + 1
      else stringGetLineNumber str index := by
  rw [stringGetLineNumber, List.range_succ, List.foldl_append]
  rfl

/-- The first line is number one. -/
theorem stringGetLineNumber_pos (str : CString) (index : Nat) :
    0 < stringGetLineNumber str index := by
  induction index with
  | zero => exact Nat.one_pos
  | succ index ih =>
      rw [stringGetLineNumber_succ]
      split <;> omega

/-- A line starts in front of what is in it. -/
theorem stringFindLineStart_le (str : CString) (index : Nat) :
    stringFindLineStart str index ≤ index := by
  induction index with
  | zero => exact Nat.le_refl 0
  | succ index ih =>
      unfold stringFindLineStart
      split <;> omega

/-- There is no newline between the start of a line and a place in it. -/
theorem stringFindLineStart_line (str : CString) (index : Nat) :
    ∀ i, stringFindLineStart str index ≤ i → i < index →
      stringCharAt str i ≠ '\n'.toUInt8 := by
  induction index with
  | zero => intro i _ hi; omega
  | succ index ih =>
      intro i hstart hi
      unfold stringFindLineStart at hstart
      split at hstart
      · rename_i hchar
        rcases Nat.lt_or_ge i index with hlt | hge
        · exact ih i hstart hlt
        · obtain rfl : i = index := by omega
          exact hchar
      · omega

/-- A line has one number, counted at its start or at any place in it. -/
theorem stringGetLineNumber_lineStart (str : CString) (index : Nat) :
    stringGetLineNumber str (stringFindLineStart str index) = stringGetLineNumber str index := by
  induction index with
  | zero => rfl
  | succ index ih =>
      unfold stringFindLineStart
      split
      · rename_i hchar
        rw [ih, stringGetLineNumber_succ, if_neg hchar]
      · rfl

/-- The lexer's own counts are those of the error handler. -/
def Lexer.Located (lexer : Lexer) : Prop :=
  Coordinates lexer.sourceCode lexer.index lexer.lineNumber lexer.column

/-- A step keeps the coordinates right. -/
theorem Lexer.Located.advance {lexer : Lexer} (hs : lexer.Synced) (hl : lexer.Located) :
    (lexerAdvanceCharacter lexer).Located := by
  have hline := hl.line
  have hcolumn := hl.column
  have hle := stringFindLineStart_le lexer.sourceCode lexer.index
  rw [stringGetLineNumber_lineStart] at hline
  rw [Lexer.Synced] at hs
  by_cases hchar : lexer.currentChar = '\n'.toUInt8
  · have hread : stringCharAt lexer.sourceCode lexer.index = '\n'.toUInt8 := hs ▸ hchar
    have hstart : stringFindLineStart lexer.sourceCode (lexer.index + 1) = lexer.index + 1 := by
      simp [stringFindLineStart, hread]
    constructor
    · show (if lexer.currentChar = '\n'.toUInt8 then lexer.lineNumber + 1 else lexer.lineNumber) = _
      rw [if_pos hchar, hline, stringGetLineNumber_lineStart]
      exact (stringGetLineNumber_succ _ _ |>.trans (if_pos hread)).symm
    · show (if lexer.currentChar = '\n'.toUInt8 then 0 else lexer.column + 1) =
        lexer.index + 1 - stringFindLineStart lexer.sourceCode (lexer.index + 1)
      rw [if_pos hchar, hstart, Nat.sub_self]
  · have hread : stringCharAt lexer.sourceCode lexer.index ≠ '\n'.toUInt8 := hs ▸ hchar
    have hstart : stringFindLineStart lexer.sourceCode (lexer.index + 1) =
        stringFindLineStart lexer.sourceCode lexer.index := by
      simp [stringFindLineStart, hread]
    constructor
    · show (if lexer.currentChar = '\n'.toUInt8 then lexer.lineNumber + 1 else lexer.lineNumber) = _
      rw [if_neg hchar, hline, stringGetLineNumber_lineStart]
      exact (stringGetLineNumber_succ _ _ |>.trans (if_neg hread)).symm
    · show (if lexer.currentChar = '\n'.toUInt8 then 0 else lexer.column + 1) =
        lexer.index + 1 - stringFindLineStart lexer.sourceCode (lexer.index + 1)
      rw [if_neg hchar, hstart, hcolumn]
      omega

theorem Lexer.Located.advance_iterate {lexer : Lexer} (hs : lexer.Synced) (hl : lexer.Located)
    (n : Nat) : (lexerAdvanceCharacter^[n] lexer).Located := by
  induction n with
  | zero => exact hl
  | succ n ih =>
      rw [Function.iterate_succ_apply']
      exact Lexer.Located.advance (hs.advance_iterate n) ih

/-- At the start they are right. -/
theorem Lexer.AtStart.located {lexer : Lexer} (h : lexer.AtStart) : lexer.Located := by
  rw [Lexer.Located, h.index, h.lineNumber, h.column]
  exact ⟨rfl, rfl⟩

/-- Lines and columns stay right from lexeme to lexeme. -/
theorem Lexer.Located.takeAll {lexer : Lexer} (hs : lexer.Synced) (hl : lexer.Located)
    (xs : List Lexeme) : (lexer.takeAll xs).Located := by
  induction xs generalizing lexer with
  | nil => exact hl
  | cons x xs ih => exact ih (hs.take x) (hl.advance_iterate hs x.text.length)

/-! ## The caret -/

/-- `count_digits` counts the digits that are printed. -/
theorem countDigits_eq {value : Nat} (h : 0 < value) :
    countDigits value = (Nat.toDigits 10 value).length := by
  induction value using Nat.strong_induction_on with
  | h value ih =>
      rw [countDigits, if_neg (by omega)]
      by_cases hlt : value < 10
      · have hzero : value / 10 = 0 := by omega
        rw [hzero, Nat.toDigits_of_lt_base hlt, countDigits, if_pos rfl]
        rfl
      · rw [Nat.toDigits_of_base_le (by omega) (by omega), List.length_append,
          ih (value / 10) (by omega) (by omega)]
        rfl

/-- The characters of a line in front of a place in it are all printed. -/
theorem line_printed (source : CString) {index : Nat} (hindex : index ≤ source.data.length) :
    index - stringFindLineStart source index ≤
      ((source.data.drop (stringFindLineStart source index)).takeWhile
        (· != '\n'.toUInt8)).length := by
  have hle := stringFindLineStart_le source index
  have hline := stringFindLineStart_line source index
  generalize stringFindLineStart source index = start at hle hline ⊢
  have hall : ∀ c ∈ (source.data.drop start).take (index - start),
      (c != '\n'.toUInt8) = true := by
    intro c hc
    obtain ⟨k, hk, rfl⟩ := List.getElem_of_mem hc
    rw [List.length_take, List.length_drop] at hk
    have hchar := hline (start + k) (by omega) (by omega)
    rw [stringCharAt, List.getD_eq_getElem _ _ (by omega)] at hchar
    simpa using hchar
  rw [← List.take_append_drop (index - start) (source.data.drop start),
    List.takeWhile_append_of_pos hall, List.length_append, List.length_take, List.length_drop]
  omega

/-- Coordinates that are right put the caret under the character. -/
theorem Coordinates.caret {source : CString} {index line indexInLine : Nat}
    (h : Coordinates source index line indexInLine) (hindex : index ≤ source.data.length) :
    (errorPointerFront line indexInLine).length =
      (errorLineFront source (stringFindLineStart source index) index).length := by
  have hprinted := line_printed source hindex
  have hpos := stringGetLineNumber_pos source (stringFindLineStart source index)
  simp only [errorPointerFront, errorLineFront, List.length_append, List.length_replicate,
    List.length_map, List.length_take, h.line, h.column, countDigits_eq hpos]
  omega

/-! ## The quotes that open a string literal -/

/-- Where a text stands: in a comment, in a string literal, or in neither. -/
inductive ScanState
  | code
  | comment
  | quoted
deriving DecidableEq

/-- What a character does to the state of the scan. -/
def scanStep (s : ScanState) (c : UInt8) : ScanState :=
  match s with
  | .code =>
      if c = ';'.toUInt8 then .comment else if c = '\"'.toUInt8 then .quoted else .code
  | .comment => if c = '\n'.toUInt8 ∨ c = eofChar then .code else .comment
  | .quoted => if c = '\"'.toUInt8 ∨ c = eofChar then .code else .quoted

/-- A quote that is neither in a comment nor in a string literal. -/
def OpensString (source : List UInt8) (i : Nat) : Prop :=
  source[i]? = some '\"'.toUInt8 ∧ (source.take i).foldl scanStep .code = .code

instance (source : List UInt8) (i : Nat) : Decidable (OpensString source i) :=
  inferInstanceAs (Decidable (_ ∧ _))

/-- Most characters do nothing. -/
theorem scanStep_code {d : UInt8} (hs : d ≠ ';'.toUInt8) (hq : d ≠ '\"'.toUInt8) :
    scanStep .code d = .code := by
  simp [scanStep, hs, hq]

/-- The lexeme in front of `rest` is scanned as one piece: no character after
its first opens a string, and what is ahead is settled. -/
structure ScannedLexeme (text rest : List UInt8) : Prop where
  settled : Settled scanStep .code (text.foldl scanStep .code) rest
  inside : ∀ k, 0 < k → k < text.length → ¬ OpensString text k

/-- A lexeme that does not change the state. -/
theorem scannedLexeme_of_code {c : UInt8} {t rest : List UInt8}
    (h : ∀ d ∈ c :: t, d ≠ ';'.toUInt8 ∧ d ≠ '\"'.toUInt8) :
    ScannedLexeme (c :: t) rest := by
  have hstay : (c :: t).foldl scanStep .code = .code :=
    foldl_stay fun d hd => scanStep_code (h d hd).1 (h d hd).2
  refine ⟨?_, ?_⟩
  · rw [hstay]
    exact fun d _ => rfl
  · intro k _ _ hfacts
    obtain ⟨hchar, -⟩ := hfacts
    exact (h _ (List.mem_of_getElem? hchar)).2 rfl

/-- A lexeme behind whose first character the state is one that stays. -/
theorem scannedLexeme_of_stay {c : UInt8} {t rest : List UInt8} {s : ScanState}
    (hs : s ≠ .code) (hfirst : scanStep .code c = s) (hstay : ∀ d ∈ t, scanStep s d = s)
    (hrest : Settled scanStep .code s rest) : ScannedLexeme (c :: t) rest := by
  refine ⟨?_, ?_⟩
  · rw [List.foldl_cons, hfirst, foldl_stay hstay]
    exact hrest
  · intro k hk _ hfacts
    obtain ⟨-, hstate⟩ := hfacts
    obtain ⟨k, rfl⟩ : ∃ j, k = j + 1 := ⟨k - 1, by omega⟩
    rw [List.take_succ_cons, List.foldl_cons, hfirst,
      foldl_stay fun d hd => hstay d (List.mem_of_mem_take hd)] at hstate
    exact hs hstate

/-- A comment is scanned as one. -/
theorem scannedLexeme_comment {cs rest : List UInt8}
    (hsplit : cs = cs.takeWhile (fun d => d != eofChar && d != '\n'.toUInt8) ++ rest) :
    ScannedLexeme
      (';'.toUInt8 :: cs.takeWhile (fun d => d != eofChar && d != '\n'.toUInt8)) rest := by
  refine scannedLexeme_of_stay (s := .comment) (by decide) (by decide) ?_ ?_
  · intro d hd
    have hchar := List.mem_takeWhile_imp hd
    simp only [Bool.and_eq_true, bne_iff_ne, ne_eq] at hchar
    simp [scanStep, hchar]
  · intro d hd
    have hstop := head_behind_takeWhile hsplit d hd
    simp only [Bool.and_eq_false_iff, bne_eq_false_iff_eq] at hstop
    rcases hstop with rfl | rfl
    · decide
    · decide

theorem scannedLexeme_string {cs rest : List UInt8} (hsplit : cs = (quotedText cs).1 ++ rest) :
    ScannedLexeme ('\"'.toUInt8 :: (quotedText cs).1) rest := by
  have hbody : ∀ d ∈ quotedBody cs, scanStep .quoted d = .quoted := by
    intro d hd
    have hchar := List.mem_takeWhile_imp hd
    simp only [Bool.and_eq_true, bne_iff_ne, ne_eq] at hchar
    simp [scanStep, hchar]
  unfold quotedText at hsplit ⊢
  split
  · rename_i hclosed
    rw [if_pos hclosed] at hsplit
    refine ⟨?_, ?_⟩
    · have hend : ('\"'.toUInt8 :: (quotedBody cs ++ ['\"'.toUInt8])).foldl scanStep .code =
          .code := by
        rw [List.foldl_cons, List.foldl_append]
        show [('\"'.toUInt8)].foldl scanStep ((quotedBody cs).foldl scanStep .quoted) = .code
        rw [foldl_stay hbody]
        rfl
      rw [hend]
      exact fun d _ => rfl
    · -- the closing quote is met in the quoted state
      intro k hk hlt hfacts
      obtain ⟨-, hstate⟩ := hfacts
      obtain ⟨k, rfl⟩ : ∃ j, k = j + 1 := ⟨k - 1, by omega⟩
      rw [List.length_cons, List.length_append, List.length_singleton] at hlt
      rw [List.take_succ_cons, List.foldl_cons, List.take_append_of_le_length (by omega)] at hstate
      have hquoted : scanStep .code '\"'.toUInt8 = .quoted := by decide
      rw [hquoted, foldl_stay fun d hd => hbody d (List.mem_of_mem_take hd)] at hstate
      cases hstate
  · rename_i hopen
    rw [if_neg hopen] at hsplit
    apply scannedLexeme_of_stay (s := .quoted) (by decide) (by decide) hbody
    intro d hd
    have hrest : cs.drop (quotedBody cs).length = rest :=
      (congrArg (List.drop _) hsplit).trans List.drop_left
    have hstop := head_behind_takeWhile hsplit d hd
    simp only [Bool.and_eq_false_iff, bne_eq_false_iff_eq] at hstop
    rcases hstop with rfl | rfl
    · exact absurd (hrest ▸ hd) hopen
    · decide

/-- A lexeme that begins neither a comment nor a string has no such character
in it. -/
theorem nextLexeme_plain {c : UInt8} (cs : List UInt8) (hs : c ≠ ';'.toUInt8)
    (hq : c ≠ '\"'.toUInt8) :
    ∀ d ∈ (nextLexeme c cs).text, d ≠ ';'.toUInt8 ∧ d ≠ '\"'.toUInt8 := by
  have hsingle : ∀ d ∈ [c], d ≠ ';'.toUInt8 ∧ d ≠ '\"'.toUInt8 := by
    intro d hd
    obtain rfl := List.mem_singleton.mp hd
    exact ⟨hs, hq⟩
  have hrun : ∀ {p : UInt8 → Bool}, p ';'.toUInt8 = false → p '\"'.toUInt8 = false →
      ∀ d ∈ c :: cs.takeWhile p, d ≠ ';'.toUInt8 ∧ d ≠ '\"'.toUInt8 := by
    intro p hps hpq d hd
    rcases List.mem_cons.mp hd with rfl | hd
    · exact ⟨hs, hq⟩
    · have hchar := List.mem_takeWhile_imp hd
      constructor <;> rintro rfl
      · exact absurd (hps.symm.trans hchar) (by decide)
      · exact absurd (hpq.symm.trans hchar) (by decide)
  refine nextLexeme_cases (P := fun x => ∀ d ∈ x.text, d ≠ ';'.toUInt8 ∧ d ≠ '\"'.toUInt8)
    c cs ?_ ?_ ?_ ?_ ?_ ?_ ?_ ?_ ?_ ?_
  · exact fun _ => hsingle
  · exact fun h => absurd h hs
  · exact fun _ => hsingle
  · exact fun _ => hsingle
  · exact fun _ => hsingle
  · intro _
    rw [numberLexeme_text]
    exact hrun (by decide) (by decide)
  · exact fun h => absurd h hq
  · intro _
    rw [nonOpLexeme_text]
    exact hrun (by decide) (by decide)
  · intro _
    have hword : ∀ d, wordChar c d = true → d ≠ ';'.toUInt8 ∧ d ≠ '\"'.toUInt8 := by
      intro d hd
      refine ⟨?_, (wordChar_ne hd).2⟩
      intro heq
      obtain rfl := heq
      unfold wordChar at hd
      split at hd
      · exact absurd hd (by decide)
      · exact absurd hd (by decide)
    rw [wordLexeme_text]
    exact hrun (Bool.eq_false_iff.mpr fun h => (hword _ h).1 rfl)
      (Bool.eq_false_iff.mpr fun h => (hword _ h).2 rfl)
  · exact fun _ => hsingle

/-- Every lexeme is scanned as one piece. -/
theorem nextLexeme_scanned {c : UInt8} {cs rest : List UInt8}
    (hsplit : c :: cs = (nextLexeme c cs).text ++ rest) :
    ScannedLexeme (nextLexeme c cs).text rest := by
  by_cases hs : c = ';'.toUInt8
  · subst hs
    rw [nextLexeme_semicolon] at hsplit ⊢
    exact scannedLexeme_comment (List.cons.inj hsplit).2
  by_cases hq : c = '\"'.toUInt8
  · subst hq
    rw [nextLexeme_quote, stringLexeme_text] at hsplit ⊢
    exact scannedLexeme_string (List.cons.inj hsplit).2
  have hplain := nextLexeme_plain cs hs hq
  obtain ⟨t, htext, -⟩ := nextLexeme_text c cs
  rw [htext] at hplain ⊢
  exact scannedLexeme_of_code hplain

section Run

variable {lexer : Lexer} {xs : List Lexeme} (hstart : lexer.index = 0)
  (hlex : Lexes lexer.sourceCode.data xs) {v : Lexer × Lexeme} (hv : v ∈ lexer.visits xs)
  (hvisit : LexerVisit lexer.sourceCode.data v)

include hstart hlex hv hvisit

/-- A lexeme that begins with a quote opens a string there. -/
theorem opensString_of_visit (hq : v.2.text.head? = some '\"'.toUInt8) :
    OpensString lexer.sourceCode.data v.1.index := by
  obtain ⟨hsettled, -⟩ :=
    visit_scan (fun _ _ _ hsplit => (nextLexeme_scanned hsplit).settled) hstart hlex hv
  refine ⟨?_, ?_⟩
  · rw [← hq, List.head?_eq_getElem?]
    exact hvisit.getElem? hvisit.text_pos
  · -- only in code does a quote lead to a string
    have hquote := hsettled _ hq
    revert hquote
    cases (lexer.sourceCode.data.take v.1.index).foldl scanStep .code <;> decide

/-- A string is opened only where a lexeme begins with a quote. -/
theorem visit_of_opensString {i : Nat}
    (hi : v.1.index ≤ i ∧ i < v.1.index + v.2.text.length)
    (hopens : OpensString lexer.sourceCode.data i) :
    i = v.1.index ∧ v.2.text.head? = some '\"'.toUInt8 := by
  obtain ⟨-, hscan⟩ :=
    visit_scan (fun _ _ _ hsplit => (nextLexeme_scanned hsplit).settled) hstart hlex hv
  obtain ⟨k, rfl⟩ := Nat.exists_eq_add_of_le hi.1
  have hk : k < v.2.text.length := by omega
  obtain ⟨hchar, hstate⟩ := hopens
  rw [hvisit.getElem? hk] at hchar
  cases k with
  | zero => exact ⟨Nat.add_zero _, List.head?_eq_getElem?.trans hchar⟩
  | succ k =>
      obtain ⟨c, cs, hahead, hnext⟩ := hvisit.ahead
      obtain ⟨rest, hrest⟩ := hvisit.text_front
      have hscanned : ScannedLexeme (nextLexeme c cs).text rest :=
        nextLexeme_scanned (by rw [hnext, hrest, hahead])
      rw [hnext] at hscanned
      rw [hscan (k + 1) (by omega) (by omega)] at hstate
      exact absurd ⟨hchar, hstate⟩ (hscanned.inside (k + 1) (by omega) hk)

end Run

/-! ## All coordinates of a text -/

/-- The line an error names. -/
def ErrorNode.line : ErrorNode → Nat
  | .tokenError _ error => error.token.line
  | .charError _ error => error.lineNumber

/-- The column an error names. -/
def ErrorNode.indexInLine : ErrorNode → Nat
  | .tokenError _ error => error.token.indexInLine
  | .charError _ error => error.lineIndex

/-- Coordinates that are right, with a caret that stands under the character. -/
structure Diagnosed (source : CString) (index lineNumber indexInLine : Nat) : Prop extends
    Coordinates source index lineNumber indexInLine where
  caret : (errorPointerFront lineNumber indexInLine).length =
    (errorLineFront source (stringFindLineStart source index) index).length

/-- Every token and every error of a text is where it says it is. -/
structure CoordinatesRight (source : CString) (tokens : List Token)
    (errors : List ErrorNode) : Prop where
  tokens : ∀ t ∈ tokens, Diagnosed source t.index t.line t.indexInLine
  errors : ∀ e ∈ errors, Diagnosed source e.index e.line e.indexInLine

/-- The column a visit gives its token and its error. -/
def visitColumn (v : Lexer × Lexeme) : Nat :=
  if v.2.text.head? = some '\"'.toUInt8 then v.1.lineNumber else v.1.column

/-- A token has the coordinates of its visit. -/
theorem visitToken_coordinates {v : Lexer × Lexeme} {t : Token} (h : visitToken v = some t) :
    t.index = v.1.index ∧ t.line = v.1.lineNumber ∧ t.indexInLine = visitColumn v := by
  obtain ⟨type, -, rfl⟩ := Option.map_eq_some_iff.mp h
  exact ⟨rfl, rfl, rfl⟩

theorem visitError_coordinates {v : Lexer × Lexeme} {e : ErrorNode} (h : visitError v = some e) :
    e.index = v.1.index ∧ e.line = v.1.lineNumber ∧ e.indexInLine = visitColumn v := by
  obtain ⟨error, -, rfl⟩ := Option.map_eq_some_iff.mp h
  cases error <;> exact ⟨rfl, rfl, rfl⟩

/-- A lexeme that begins with a quote has a token. -/
theorem LexerVisit.quoted_type {source : List UInt8} {v : Lexer × Lexeme}
    (h : LexerVisit source v) (hq : v.2.text.head? = some '\"'.toUInt8) :
    ∃ type, v.2.type = some type := by
  obtain ⟨c, cs, -, hnext⟩ := h.ahead
  obtain ⟨t, htext, -⟩ := nextLexeme_text c cs
  obtain rfl : c = '\"'.toUInt8 := by
    rw [← hnext, htext] at hq
    exact Option.some.inj hq
  rw [← hnext, nextLexeme_quote, stringLexeme]
  split <;> exact ⟨_, rfl⟩

/-- A visit is inside the source. -/
theorem LexerVisit.index_le {source : List UInt8} {v : Lexer × Lexeme}
    (h : LexerVisit source v) : v.1.index ≤ source.length := by
  obtain ⟨c, cs, hdrop, -⟩ := h.ahead
  have hlength := congrArg List.length hdrop
  rw [List.length_drop, List.length_cons] at hlength
  omega

/-- The column of a visit is right, or is that of a string literal: then it is
the line number. -/
theorem coordinates_visit_iff {v : Lexer × Lexeme} (hl : v.1.Located) :
    Coordinates v.1.sourceCode v.1.index v.1.lineNumber (visitColumn v) ↔
      (v.2.text.head? = some '\"'.toUInt8 → stringGetLineNumber v.1.sourceCode v.1.index =
        v.1.index - stringFindLineStart v.1.sourceCode v.1.index) := by
  have hline := hl.line
  rw [stringGetLineNumber_lineStart] at hline
  unfold visitColumn
  constructor
  · intro h hq
    rw [← hline]
    have hcolumn := h.column
    rw [if_pos hq] at hcolumn
    exact hcolumn
  · intro h
    refine ⟨hl.line, ?_⟩
    split
    · rename_i hq
      rw [hline]
      exact h hq
    · exact hl.column

/-- What is left of well-placed visits is placed right. -/
theorem coordinatesRight_of_visits {source : CString} {visits : List (Lexer × Lexeme)}
    (hplaced : ∀ v ∈ visits, Diagnosed source v.1.index v.1.lineNumber (visitColumn v)) :
    CoordinatesRight source (visits.filterMap visitToken) (visits.filterMap visitError) := by
  constructor
  · intro t ht
    obtain ⟨v, hv, htoken⟩ := List.mem_filterMap.mp ht
    obtain ⟨hindex, hline, hcolumn⟩ := visitToken_coordinates htoken
    rw [hindex, hline, hcolumn]
    exact hplaced v hv
  · intro e he
    obtain ⟨v, hv, herror⟩ := List.mem_filterMap.mp he
    obtain ⟨hindex, hline, hcolumn⟩ := visitError_coordinates herror
    rw [hindex, hline, hcolumn]
    exact hplaced v hv

/-- **Coordinates.**  All lines and columns are right, and all carets stand
where they should, exactly when every string literal of the text happens to
begin in the column that is the number of its line. -/
theorem LexerInput.coordinates_iff (input : LexerInput) :
    CoordinatesRight input.source input.tokens input.errors ↔
      ∀ i, OpensString input.source.data i →
        stringGetLineNumber input.source i = i - stringFindLineStart input.source i := by
  unfold LexerInput.tokens LexerInput.errors
  refine input.analyze_cases (P := fun l =>
    CoordinatesRight input.source l.tokenList l.errorHandler.errorList ↔ _) ?_ ?_
  · intro htext
    refine ⟨fun _ i hopens => ?_, fun _ => ⟨?_, ?_⟩⟩
    · -- the text is empty or an end-of-file character
      have hchar := List.mem_of_getElem? hopens.1
      rcases input.source_data with h | h
      · rw [h, htext] at hchar
        exact absurd hchar List.not_mem_nil
      · rw [h, htext] at hchar
        exact absurd hchar (by decide)
    · rw [input.atStart.tokenList]
      exact fun t ht => absurd ht List.not_mem_nil
    · rw [input.atStart.errorList]
      exact fun e he => absurd he List.not_mem_nil
  · intro xs hs hlex
    have hstart : input.lexer.index = 0 := input.atStart.index
    have hlocated : ∀ v ∈ input.lexer.visits xs,
        v.1.Located ∧ v.1.sourceCode = input.source := by
      intro v hv
      obtain ⟨ys, zs, -, hlexer⟩ := mem_visits hv
      rw [hlexer, takeAll_sourceCode]
      exact ⟨Lexer.Located.takeAll hs input.atStart.located ys, rfl⟩
    have hvisits := visits_lexerVisit (input.atStart.rest_eq.symm ▸ hlex)
    have htokens : (input.lexer.takeAll xs).tokenList =
        (input.lexer.visits xs).filterMap visitToken := by
      rw [takeAll_tokenList, input.atStart.tokenList, List.nil_append, placeTokens_eq_visits]
    have herrors : (input.lexer.takeAll xs).errorHandler.errorList =
        (input.lexer.visits xs).filterMap visitError := by
      rw [takeAll_errorList, input.atStart.errorList, List.nil_append]
    rw [htokens, herrors]
    constructor
    · intro hright i hopens
      have hi : i < (lexemesText xs).length := by
        rw [hlex.text_eq]
        exact (List.getElem?_eq_some_iff.mp hopens.1).1
      obtain ⟨v, hv, hin⟩ := visits_cover input.lexer xs (i := i)
        (by omega) (by omega)
      obtain ⟨rfl, hq⟩ := visit_of_opensString hstart hlex hv (hvisits v hv) hin hopens
      obtain ⟨type, htype⟩ := (hvisits v hv).quoted_type hq
      have htoken : visitToken v = some (v.2.tokenAt v.1 type) := by
        rw [visitToken, htype, Option.map_some]
      have hplaced := (hright.tokens _ (List.mem_filterMap.mpr ⟨v, hv, htoken⟩)).toCoordinates
      obtain ⟨hl, hsource⟩ := hlocated v hv
      have hiff := coordinates_visit_iff hl
      rw [hsource] at hiff
      exact hiff.mp hplaced hq
    · intro hquotes
      have hplaced : ∀ v ∈ input.lexer.visits xs,
          Diagnosed input.source v.1.index v.1.lineNumber (visitColumn v) := by
        intro v hv
        obtain ⟨hl, hsource⟩ := hlocated v hv
        have hiff := coordinates_visit_iff hl
        rw [hsource] at hiff
        have hcoordinates := hiff.mpr fun hq =>
          hquotes _ (opensString_of_visit hstart hlex hv (hvisits v hv) hq)
        exact ⟨hcoordinates, hcoordinates.caret (hvisits v hv).index_le⟩
      exact coordinatesRight_of_visits hplaced

/-- A string literal that does not begin in the column of its line number. -/
theorem coordinates_wrong_string :
    ¬ CoordinatesRight (LexerInput.file "sample" (bytes ".string \"ab\"\n")).source
      (LexerInput.file "sample" (bytes ".string \"ab\"\n")).tokens
      (LexerInput.file "sample" (bytes ".string \"ab\"\n")).errors := by
  intro hright
  have hwrong : ∃ t ∈ (LexerInput.file "sample" (bytes ".string \"ab\"\n")).tokens,
      t.indexInLine ≠ t.index - stringFindLineStart
        (LexerInput.file "sample" (bytes ".string \"ab\"\n")).source t.index := by
    decide +kernel
  obtain ⟨t, ht, hne⟩ := hwrong
  exact hne (hright.tokens t ht).column

end Assembler
