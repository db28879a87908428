import CLab.Seams
import CLab.TracedExpansion

/-!
# The expanded text by lexemes

`Spliced` goes over the lexemes of the source: it leaves out the definitions,
puts the lexemes of a content in place of a name, and does without the first
character behind a name that ends its line.  Where the definitions stand apart
(`Placed`) every source is spliced (`exists_spliced`), and the loop writes the
text of the pieces with their places (`Spliced.finishes`).
-/

namespace Assembler

/-! ## Pieces -/

/-- How a lexeme comes into the new text: it is copied, it is in a content, or
the use of a macro has uncovered it. -/
inductive PieceKind
  | copied
  | content
  | uncovered
deriving DecidableEq

/-- A lexeme of the expanded text, with its place in the source. -/
structure Piece where
  lexeme : Lexeme
  index : Nat
  kind : PieceKind

/-- The place of a character of the piece. -/
def Piece.placeOf (p : Piece) (k : Nat) : Place :=
  if p.kind = .content then .content (p.index + k) else .copied (p.index + k)

/-- The places of the characters of a piece. -/
def Piece.places (p : Piece) : List Place :=
  (List.range p.lexeme.text.length).map p.placeOf

/-- The text that pieces make up. -/
def piecesText (ps : List Piece) : List UInt8 :=
  lexemesText (ps.map Piece.lexeme)

/-- The places that the text of pieces comes from. -/
def piecesPlaces (ps : List Piece) : List Place :=
  ps.flatMap Piece.places

/-- The lexemes of a text that stands at a place. -/
def piecesAt (kind : PieceKind) (i : Nat) : List Lexeme → List Piece
  | [] => []
  | x :: xs => ⟨x, i, kind⟩ :: piecesAt kind (i + x.text.length) xs

/-- The lexemes of a content. -/
def contentPieces (tokens : List Token) (m : Macro) : List Piece :=
  piecesAt .content (contentStart tokens m) (lexemesOf m.content.data.length m.content.data)

/-- The lexemes of what a use of a macro uncovers of a lexeme at a place. -/
def uncoveredPieces (i : Nat) (x : Lexeme) : List Piece :=
  piecesAt .uncovered (i + 1) (lexemesOf x.text.length x.text.tail)

/-- The next token ends its line. -/
def endsLineNext (vs : List (Lexer × Lexeme)) : Bool :=
  (vs.filterMap visitToken).head?.any fun t => t.type = .eol

/-! ## The text of the pieces -/

@[simp] theorem piecesText_cons (p : Piece) (ps : List Piece) :
    piecesText (p :: ps) = p.lexeme.text ++ piecesText ps := rfl

@[simp] theorem piecesText_append (ps qs : List Piece) :
    piecesText (ps ++ qs) = piecesText ps ++ piecesText qs := by
  simp [piecesText]

@[simp] theorem piecesPlaces_cons (p : Piece) (ps : List Piece) :
    piecesPlaces (p :: ps) = p.places ++ piecesPlaces ps := rfl

@[simp] theorem piecesPlaces_append (ps qs : List Piece) :
    piecesPlaces (ps ++ qs) = piecesPlaces ps ++ piecesPlaces qs := by
  simp [piecesPlaces]

/-- The pieces of some lexemes have these lexemes. -/
theorem piecesAt_lexemes (kind : PieceKind) (i : Nat) (ys : List Lexeme) :
    (piecesAt kind i ys).map Piece.lexeme = ys := by
  induction ys generalizing i with
  | nil => rfl
  | cons y ys ih => rw [piecesAt, List.map_cons, ih]

/-- Each stands where the text in front of it ends. -/
theorem mem_piecesAt {kind : PieceKind} {i : Nat} {ys : List Lexeme} {p : Piece}
    (hp : p ∈ piecesAt kind i ys) : ∃ before y after, ys = before ++ y :: after ∧
      p = ⟨y, i + (lexemesText before).length, kind⟩ := by
  induction ys generalizing i with
  | nil => cases hp
  | cons y ys ih =>
      rcases List.mem_cons.mp hp with rfl | hp
      · exact ⟨[], y, ys, rfl, rfl⟩
      · obtain ⟨before, z, after, rfl, hpiece⟩ := ih hp
        refine ⟨y :: before, z, after, rfl, ?_⟩
        rw [hpiece, lexemesText_cons, List.length_append, Nat.add_assoc]

/-- All are of the same kind. -/
theorem piecesAt_kind {kind : PieceKind} {i : Nat} {ys : List Lexeme} {p : Piece}
    (hp : p ∈ piecesAt kind i ys) : p.kind = kind := by
  obtain ⟨before, y, after, -, rfl⟩ := mem_piecesAt hp
  rfl

theorem piecesAt_index {kind : PieceKind} {i : Nat} {ys : List Lexeme} {p : Piece}
    (hp : p ∈ piecesAt kind i ys) :
    i ≤ p.index ∧ p.index + p.lexeme.text.length ≤ i + (lexemesText ys).length := by
  obtain ⟨before, y, after, rfl, rfl⟩ := mem_piecesAt hp
  rw [lexemesText_append, lexemesText_cons, List.length_append, List.length_append]
  exact ⟨Nat.le_add_right _ _, by show i + _ + y.text.length ≤ _; omega⟩

theorem piecesAt_places (kind : PieceKind) (i : Nat) (ys : List Lexeme) :
    piecesPlaces (piecesAt kind i ys) = (List.range (lexemesText ys).length).map fun k =>
      if kind = .content then .content (i + k) else .copied (i + k) := by
  induction ys generalizing i with
  | nil => rfl
  | cons y ys ih =>
      rw [piecesAt, piecesPlaces_cons, ih, lexemesText_cons, List.length_append, List.range_add,
        List.map_append, List.map_map]
      simp only [Function.comp_def, Nat.add_assoc]
      rfl

/-- The pieces of a content have its lexemes. -/
theorem contentPieces_lexemes (tokens : List Token) (m : Macro) :
    (contentPieces tokens m).map Piece.lexeme =
      lexemesOf m.content.data.length m.content.data := piecesAt_lexemes _ _ _

theorem contentPieces_text (tokens : List Token) (m : Macro) :
    piecesText (contentPieces tokens m) = m.content.data := by
  rw [piecesText, contentPieces_lexemes, (lexes_lexemesOf (Nat.le_refl _)).text_eq]

theorem contentPieces_places (tokens : List Token) (m : Macro) :
    piecesPlaces (contentPieces tokens m) =
      (List.range m.content.data.length).map fun k => .content (contentStart tokens m + k) := by
  rw [contentPieces, piecesAt_places, (lexes_lexemesOf (Nat.le_refl _)).text_eq]
  rfl

/-- What comes out of a comment is lexed anew. -/
theorem uncoveredPieces_lexemes (i : Nat) (x : Lexeme) :
    (uncoveredPieces i x).map Piece.lexeme = lexemesOf x.text.length x.text.tail :=
  piecesAt_lexemes _ _ _

/-- These are the lexemes of the text behind the semicolon. -/
theorem uncovered_lexes (x : Lexeme) :
    Lexes x.text.tail (lexemesOf x.text.length x.text.tail) :=
  lexes_lexemesOf (by rw [List.length_tail]; omega)

theorem uncoveredPieces_text (i : Nat) (x : Lexeme) :
    piecesText (uncoveredPieces i x) = x.text.tail := by
  rw [piecesText, uncoveredPieces_lexemes, (uncovered_lexes x).text_eq]

theorem uncoveredPieces_places (i : Nat) (x : Lexeme) :
    piecesPlaces (uncoveredPieces i x) =
      (List.range x.text.tail.length).map fun k => .copied (i + 1 + k) := by
  rw [uncoveredPieces, piecesAt_places, (uncovered_lexes x).text_eq]
  rfl

/-! ## Definitions that stand in a text -/

/-- The spans of two definitions have no place in common. -/
def Macro.Apart (m m' : Macro) : Prop :=
  m.endIndex < m'.startIndex ∨ m'.endIndex < m.startIndex

/-- The definitions stand apart in a text: each begins with its `macr`, ends
with a single character, and is named by an identifier. -/
structure Placed (macroList : List Macro) (vs : List (Lexer × Lexeme)) : Prop where
  opener : ∀ m ∈ macroList, ∃ v ∈ vs, ∃ t, visitToken v = some t ∧ t.type = .macr ∧
    v.1.index = m.startIndex
  closer : ∀ m ∈ macroList, ∃ v ∈ vs, v.1.index = m.endIndex ∧ v.2.text.length = 1
  ordered : ∀ m ∈ macroList, m.startIndex < m.endIndex
  named : ∀ m ∈ macroList, ∀ v ∈ vs, ∀ t, visitToken v = some t →
    m.identifier.string = t.string → t.type = .identifier
  apart : macroList.Pairwise Macro.Apart

/-- The index is in the span of no definition. -/
def Outside (macroList : List Macro) (i : Nat) : Prop :=
  ∀ m ∈ macroList, ¬ (m.startIndex ≤ i ∧ i ≤ m.endIndex)

/-- No definition has begun in front of the index and not ended there. -/
def Between (macroList : List Macro) (i : Nat) : Prop :=
  ∀ m ∈ macroList, m.startIndex < i → m.endIndex < i

/-- Between two definitions one is outside both, unless one begins here. -/
theorem Between.outside {macroList : List Macro} {i : Nat} (h : Between macroList i)
    (hstart : ∀ m ∈ macroList, m.startIndex ≠ i) : Outside macroList i := by
  intro m hm hfacts
  obtain ⟨hle, hend⟩ := hfacts
  have hne := hstart m hm
  have hlt := h m hm (by omega)
  omega

/-- The first macro of the list that has the token as its name. -/
def namedMacro (macroList : List Macro) (t : Token) : Option Macro :=
  macroList.find? fun m => stringEquals m.identifier.string t.string

/-- A macro that is found is in the list and has the name. -/
theorem namedMacro_some {macroList : List Macro} {t : Token} {m : Macro}
    (h : namedMacro macroList t = some m) : m ∈ macroList ∧ m.identifier.string = t.string := by
  refine ⟨List.mem_of_find?_eq_some h, stringEquals_iff.mp ?_⟩
  exact List.find?_some (p := fun m : Macro => stringEquals m.identifier.string t.string) h

/-- Outside the definitions only names count. -/
theorem concernedMacro_outside {macroList : List Macro} {i : Nat} (h : Outside macroList i)
    (t : Token) : concernedMacro macroList i t = namedMacro macroList t := by
  unfold concernedMacro namedMacro
  induction macroList with
  | nil => rfl
  | cons m macroList ih =>
      have ih' := ih fun m' hm' => h m' (List.mem_cons_of_mem _ hm')
      have hspan := decide_eq_false (h m List.mem_cons_self)
      rw [List.find?_cons, List.find?_cons, hspan, Bool.false_or, ih']

/-! ## Splicing -/

/-- The lexemes of the expanded text, from the lexemes `xs` of the source on.
Those in front of `start` belong to a definition that has been met; `skips` says
that the first character of the next lexeme is passed over. -/
inductive Spliced (macroList : List Macro) (tokens : List Token) :
    Lexer → List Lexeme → Nat → Bool → List Piece → Prop
  | nil {l start skips} : Spliced macroList tokens l [] start skips []
  | inside {l x xs start ps} (hlt : l.index < start) (hin : ¬ Outside macroList l.index)
      (hend : (l.take x).index ≤ start)
      (rest : Spliced macroList tokens (l.take x) xs start false ps) :
      Spliced macroList tokens l (x :: xs) start false ps
  | definition {l x xs start t m ps} (hle : start ≤ l.index)
      (htoken : visitToken (l, x) = some t) (htype : t.type = .macr) (hm : m ∈ macroList)
      (hstart : m.startIndex = l.index) (hend : (l.take x).index ≤ m.endIndex)
      (rest : Spliced macroList tokens (l.take x) xs (m.endIndex + 1) false ps) :
      Spliced macroList tokens l (x :: xs) start false ps
  | kept {l x xs start ps} (hle : start ≤ l.index) (hout : Outside macroList l.index)
      (hname : ∀ t, visitToken (l, x) = some t → namedMacro macroList t = none)
      (rest : Spliced macroList tokens (l.take x) xs start false ps) :
      Spliced macroList tokens l (x :: xs) start false (⟨x, l.index, .copied⟩ :: ps)
  | name {l x xs start t m ps} (hle : start ≤ l.index) (hout : Outside macroList l.index)
      (htoken : visitToken (l, x) = some t) (htype : t.type = .identifier)
      (hname : namedMacro macroList t = some m)
      (rest : Spliced macroList tokens (l.take x) xs start
        (endsLineNext ((l.take x).visits xs)) ps) :
      Spliced macroList tokens l (x :: xs) start false (contentPieces tokens m ++ ps)
  | skipped {l x xs start ps} (hle : start ≤ l.index)
      (hnext : endsLineNext (l.visits (x :: xs)) = true)
      (rest : Spliced macroList tokens (l.take x) xs start false ps) :
      Spliced macroList tokens l (x :: xs) start true
        (uncoveredPieces l.index x ++ ps)

section Visits

variable {source : CString} {macroList : List Macro} {tokens : List Token} {lexer : Lexer}
  {xs : List Lexeme}
  (hvisits : ∀ v ∈ lexer.visits xs, LexerVisit source.data v)
  (hplaced : Placed macroList (lexer.visits xs))

include hvisits hplaced

/-- A visit that begins a definition is its `macr`. -/
theorem opener_type {v : Lexer × Lexeme} (hv : v ∈ lexer.visits xs) {m : Macro}
    (hm : m ∈ macroList) (hstart : m.startIndex = v.1.index) :
    ∃ t, visitToken v = some t ∧ t.type = .macr := by
  obtain ⟨w, hw, t, htoken, htype, hindex⟩ := hplaced.opener m hm
  have hposv := (hvisits v hv).text_pos
  have hposw := (hvisits w hw).text_pos
  obtain rfl := visits_disjoint hv hw (i := v.1.index) (by omega) (by omega)
  exact ⟨t, htoken, htype⟩

/-- The `macr` of a definition is in its span, and its own name. -/
theorem macroUse_definition {v : Lexer × Lexeme} (hv : v ∈ lexer.visits xs) {t : Token}
    (htoken : visitToken v = some t) {m : Macro} (hm : m ∈ macroList)
    (hstart : m.startIndex = v.1.index) :
    macroUse macroList v.1.index t = some (.definition m.endIndex) := by
  obtain ⟨t', htoken', hmacr⟩ := opener_type hvisits hplaced hv hm hstart
  obtain rfl := Option.some.inj (htoken.symm.trans htoken')
  have hordered := hplaced.ordered m hm
  cases huse : macroUse macroList v.1.index t with
  | none =>
      have hnone := List.findSome?_eq_none_iff.mp huse m hm
      rw [if_pos (by omega)] at hnone
      cases hnone
  | some found =>
      obtain ⟨m', hm', hfound⟩ := List.exists_of_findSome?_eq_some huse
      split at hfound
      · rename_i hspan
        have hsame : m' = m := by
          by_contra hne
          have hsymm : Std.Symm Macro.Apart := ⟨fun _ _ => Or.symm⟩
          rcases hplaced.apart.forall hm' hm hne with h | h <;> omega
        rw [← hsame]
        exact hfound.symm
      · split at hfound
        · rename_i hname
          have htype := hplaced.named m' hm' v hv t htoken (stringEquals_iff.mp hname)
          rw [hmacr] at htype
          cases htype
        · cases hfound

/-- Behind a lexeme that begins no definition none has begun. -/
theorem Between.next {v : Lexer × Lexeme} (hv : v ∈ lexer.visits xs)
    (h : Between macroList v.1.index) (hstart : ∀ m ∈ macroList, m.startIndex ≠ v.1.index) :
    Between macroList (v.1.index + v.2.text.length) := by
  intro m hm hlt
  by_cases hbefore : m.startIndex < v.1.index
  · have hend := h m hm hbefore
    omega
  · exfalso
    obtain ⟨w, hw, -, -, -, hindex⟩ := hplaced.opener m hm
    have hpos := (hvisits w hw).text_pos
    obtain rfl := visits_disjoint hv hw (i := m.startIndex) (by omega) (by omega)
    exact hstart m hm hindex.symm

omit hvisits in
/-- Behind a definition none has begun. -/
theorem between_behind {m : Macro} (hm : m ∈ macroList) : Between macroList (m.endIndex + 1) := by
  intro m' hm' hlt
  by_cases hsame : m' = m
  · rw [hsame]
    exact Nat.lt_succ_self _
  · have hordered := hplaced.ordered m hm
    have hordered' := hplaced.ordered m' hm'
    have hsymm : Std.Symm Macro.Apart := ⟨fun _ _ => Or.symm⟩
    rcases hplaced.apart.forall hm' hm hsame with h | h <;> omega

omit hplaced in
/-- A visit that does not stand in front of a point is among those behind it. -/
theorem mem_visits_suffix {l : Lexer} {zs : List Lexeme}
    (hsuffix : l.visits zs <:+ lexer.visits xs) {w : Lexer × Lexeme} (hw : w ∈ lexer.visits xs)
    (hzs : zs ≠ []) (hle : l.index ≤ w.1.index) : w ∈ l.visits zs := by
  obtain ⟨front, hfront⟩ := hsuffix
  have hpos := (hvisits w hw).text_pos
  rw [← hfront] at hw
  rcases List.mem_append.mp hw with hin | hin
  · exfalso
    obtain ⟨z, zs, rfl⟩ := List.exists_cons_of_ne_nil hzs
    have hordered := visits_ordered lexer xs
    rw [← hfront] at hordered
    have hbefore : w.1.index + w.2.text.length ≤ l.index :=
      (List.pairwise_append.mp hordered).2.2 w hin (l, z) List.mem_cons_self
    omega
  · exact hin

/-- A token that is no `macr` begins no definition. -/
theorem start_ne {v : Lexer × Lexeme} (hv : v ∈ lexer.visits xs)
    (hother : ∀ t, visitToken v = some t → t.type ≠ .macr) :
    ∀ m ∈ macroList, m.startIndex ≠ v.1.index := by
  intro m hm hstart
  obtain ⟨t, htoken, hmacr⟩ := opener_type hvisits hplaced hv hm hstart
  exact hother t htoken hmacr

omit hvisits hplaced in
/-- In front of the end of a line stands nothing else. -/
theorem endsLineNext_type {l : Lexer} {x : Lexeme} {zs : List Lexeme} {t : Token}
    (hnext : endsLineNext (l.visits (x :: zs)) = true) (htoken : visitToken (l, x) = some t) :
    t.type = .eol := by
  rw [endsLineNext, Lexer.visits, List.filterMap_cons_some htoken] at hnext
  exact of_decide_eq_true hnext

/-- Where the lexemes from a point on stand to the definitions: the start is
not ahead, or behind the definition the point is in. -/
structure Ahead (macroList : List Macro) (start : Nat) (l : Lexer) (zs : List Lexeme) :
    Prop where
  between : Between macroList (max start l.index)
  reached : start ≤ l.index ∨ ∃ m ∈ macroList, m.startIndex ≤ l.index ∧
    start = m.endIndex + 1 ∧ ∃ w ∈ l.visits zs, w.1.index = m.endIndex ∧ w.2.text.length = 1

/-- Behind a lexeme that is no `macr` the splice goes on. -/
theorem Ahead.next {l : Lexer} {x : Lexeme} {zs : List Lexeme} {start : Nat}
    (h : Ahead macroList start l (x :: zs)) (hv : (l, x) ∈ lexer.visits xs)
    (hle : start ≤ l.index) (hopener : ∀ m ∈ macroList, m.startIndex ≠ l.index) :
    Ahead macroList start (l.take x) zs := by
  have hindex : (l.take x).index = l.index + x.text.length := take_index l x
  have hbetween := h.between
  rw [Nat.max_eq_right hle] at hbetween
  refine ⟨?_, Or.inl (by omega)⟩
  rw [Nat.max_eq_right (by omega), hindex]
  exact hbetween.next hvisits hplaced hv hopener

omit hvisits hplaced in
/-- Inside a definition the rest of it stays ahead. -/
theorem Ahead.inside {l : Lexer} {x : Lexeme} {zs : List Lexeme} {start : Nat}
    (h : Ahead macroList start l (x :: zs)) (hlt : l.index < start) :
    ¬ Outside macroList l.index ∧ (l.take x).index ≤ start ∧
      Ahead macroList start (l.take x) zs := by
  have hindex : (l.take x).index = l.index + x.text.length := take_index l x
  obtain ⟨m, hm, hstart, rfl, w, hw, hwindex, hwlength⟩ := h.reached.resolve_left (by omega)
  have hin : ¬ Outside macroList l.index := fun hout => hout m hm ⟨hstart, by omega⟩
  have hend : (l.take x).index ≤ m.endIndex + 1 := by
    rcases List.mem_cons.mp hw with rfl | hw
    · simp only at hwindex hwlength
      omega
    · have hle := visits_index_le w hw
      omega
  refine ⟨hin, hend, ?_, ?_⟩
  · have hbetween := h.between
    rw [Nat.max_eq_left (by omega)] at hbetween ⊢
    exact hbetween
  · rcases List.mem_cons.mp hw with rfl | hw
    · simp only at hwindex hwlength
      exact Or.inl (by omega)
    · exact Or.inr ⟨m, hm, by omega, rfl, w, hw, hwindex, hwlength⟩

/-- Behind its `macr` the rest of a definition is ahead: it ends with a lexeme
of the text. -/
theorem ahead_of_opener {l : Lexer} {x : Lexeme} {zs : List Lexeme}
    (hsuffix : l.visits (x :: zs) <:+ lexer.visits xs) {m : Macro} (hm : m ∈ macroList)
    (hstart : m.startIndex = l.index) :
    (l.take x).index ≤ m.endIndex ∧ Ahead macroList (m.endIndex + 1) (l.take x) zs := by
  have hindex : (l.take x).index = l.index + x.text.length := take_index l x
  have hordered := hplaced.ordered m hm
  obtain ⟨w, hw, hwindex, hwlength⟩ := hplaced.closer m hm
  have hwahead : w ∈ (l.take x).visits zs := by
    have hmem := mem_visits_suffix hvisits hsuffix hw (List.cons_ne_nil _ _) (by omega)
    rcases List.mem_cons.mp hmem with rfl | hmem
    · simp only at hwindex
      omega
    · exact hmem
  have hwle := visits_index_le w hwahead
  have hpos : 0 < x.text.length := (hvisits _ (hsuffix.subset List.mem_cons_self)).text_pos
  refine ⟨by omega, ?_, Or.inr ⟨m, hm, by omega, rfl, w, hwahead, hwindex, hwlength⟩⟩
  rw [Nat.max_eq_left (by omega)]
  exact between_behind hplaced hm

/-- **Every source is spliced**, from any lexeme on. -/
theorem exists_spliced_from {zs : List Lexeme} {l : Lexer} {start : Nat}
    (hsuffix : l.visits zs <:+ lexer.visits xs) (hahead : Ahead macroList start l zs) :
    (∃ ps, Spliced macroList tokens l zs start false ps) ∧
      (start ≤ l.index → endsLineNext (l.visits zs) = true →
        ∃ ps, Spliced macroList tokens l zs start true ps) := by
  induction zs generalizing l start with
  | nil => exact ⟨⟨[], Spliced.nil⟩, fun _ _ => ⟨[], Spliced.nil⟩⟩
  | cons x zs ih =>
      have hv : (l, x) ∈ lexer.visits xs := hsuffix.subset List.mem_cons_self
      have hsuffix' : (l.take x).visits zs <:+ lexer.visits xs :=
        (List.suffix_cons _ _).trans hsuffix
      have hindex' : (l.take x).index = l.index + x.text.length := take_index l x
      refine ⟨?_, ?_⟩
      · by_cases hlt : l.index < start
        · obtain ⟨hin, hend, hahead'⟩ := hahead.inside hlt
          obtain ⟨ps, hps⟩ := (ih hsuffix' hahead').1
          exact ⟨ps, Spliced.inside hlt hin hend hps⟩
        have hle : start ≤ l.index := by omega
        by_cases hopener : ∃ m ∈ macroList, m.startIndex = l.index
        · obtain ⟨m, hm, hstart⟩ := hopener
          obtain ⟨t, htoken, hmacr⟩ := opener_type hvisits hplaced hv hm hstart
          obtain ⟨hend, hahead'⟩ := ahead_of_opener hvisits hplaced hsuffix hm hstart
          obtain ⟨ps, hps⟩ := (ih hsuffix' hahead').1
          exact ⟨ps, Spliced.definition hle htoken hmacr hm hstart hend hps⟩
        push Not at hopener
        have hbetween := hahead.between
        rw [Nat.max_eq_right hle] at hbetween
        have hout := hbetween.outside hopener
        have hahead' := hahead.next hvisits hplaced hv hle hopener
        cases hname : (visitToken (l, x)).bind (namedMacro macroList) with
        | none =>
            obtain ⟨ps, hps⟩ := (ih hsuffix' hahead').1
            refine ⟨_, Spliced.kept hle hout (fun t htoken => ?_) hps⟩
            rwa [htoken, Option.bind_some] at hname
        | some m =>
            obtain ⟨t, htoken, hname⟩ := Option.bind_eq_some_iff.mp hname
            obtain ⟨hm, hstring⟩ := namedMacro_some hname
            have htype := hplaced.named m hm _ hv t htoken hstring
            have hrest : ∃ ps, Spliced macroList tokens (l.take x) zs start
                (endsLineNext ((l.take x).visits zs)) ps := by
              cases hnext : endsLineNext ((l.take x).visits zs) with
              | false => exact (ih hsuffix' hahead').1
              | true => exact (ih hsuffix' hahead').2 (by omega) hnext
            obtain ⟨ps, hps⟩ := hrest
            exact ⟨_, Spliced.name hle hout htoken htype hname hps⟩
      · intro hle hnext
        have hopener : ∀ m ∈ macroList, m.startIndex ≠ l.index := by
          refine start_ne hvisits hplaced hv fun t htoken => ?_
          rw [endsLineNext_type hnext htoken]
          decide
        have hahead' := hahead.next hvisits hplaced hv hle hopener
        obtain ⟨ps, hps⟩ := (ih hsuffix' hahead').1
        exact ⟨_, Spliced.skipped hle hnext hps⟩

/-- Every source is spliced. -/
theorem exists_spliced (tokens : List Token) :
    ∃ ps, Spliced macroList tokens lexer xs 0 false ps := by
  refine (exists_spliced_from hvisits hplaced List.suffix_rfl ⟨?_, Or.inl (Nat.zero_le _)⟩).1
  intro m hm hlt
  exfalso
  obtain ⟨v, hv, -, -, -, hindex⟩ := hplaced.opener m hm
  have hle := visits_index_le v hv
  omega

end Visits

/-! ## The loop writes the pieces -/

/-- The tokens of the lexemes from a point on. -/
def tokensFrom (l : Lexer) (zs : List Lexeme) : List Token :=
  (l.visits zs).filterMap visitToken

/-- A lexeme without a token gives none. -/
theorem tokensFrom_untyped {l : Lexer} {x : Lexeme} (h : visitToken (l, x) = none)
    (zs : List Lexeme) : tokensFrom l (x :: zs) = tokensFrom (l.take x) zs :=
  List.filterMap_cons_none h

theorem tokensFrom_typed {l : Lexer} {x : Lexeme} {t : Token} (h : visitToken (l, x) = some t)
    (zs : List Lexeme) : tokensFrom l (x :: zs) = t :: tokensFrom (l.take x) zs :=
  List.filterMap_cons_some h

/-- What holds of all tokens holds of the first and of the others. -/
theorem forall_tokensFrom_cons {P : Token → Prop} {l : Lexer} {x : Lexeme} {zs : List Lexeme} :
    (∀ t ∈ tokensFrom l (x :: zs), P t) ↔
      (∀ t, visitToken (l, x) = some t → P t) ∧ ∀ t ∈ tokensFrom (l.take x) zs, P t := by
  cases htoken : visitToken (l, x) with
  | none =>
      rw [tokensFrom_untyped htoken]
      exact ⟨fun h => ⟨nofun, h⟩, And.right⟩
  | some t =>
      rw [tokensFrom_typed htoken, List.forall_mem_cons]
      simp only [Option.some.injEq, forall_eq']

/-- What the loop does from a point on: where it goes on behind a start, where
the end of the line is no longer ahead of the cursor, and where moreover it has
passed over a character. -/
structure SpliceFinishes (macroList : List Macro) (tokens : List Token) (source : CString)
    (l : Lexer) (zs : List Lexeme) (start : Nat) (skips : Bool) (ps : List Piece) : Prop where
  copies : skips = false → Finishes macroList tokens source (max start l.index)
    ((tokensFrom l zs).dropWhile fun t => t.index < start) (piecesText ps) (piecesPlaces ps)
  line : skips = false → start ≤ l.index → endsLineNext (l.visits zs) = true →
    Finishes macroList tokens source l.index (tokensFrom l zs).tail (piecesText ps)
      (piecesPlaces ps)
  skips : skips = true →
    Finishes macroList tokens source (l.index + 1) (tokensFrom l zs).tail (piecesText ps)
      (piecesPlaces ps)

section Loop

variable {source : CString} {macroList : List Macro} {tokens : List Token} {lexer : Lexer}
  {xs : List Lexeme}
  (hvisits : ∀ v ∈ lexer.visits xs, LexerVisit source.data v)

include hvisits

/-- The tokens ahead have places ahead. -/
theorem tokensFrom_index {l : Lexer} {zs : List Lexeme}
    (hsuffix : l.visits zs <:+ lexer.visits xs) : ∀ t ∈ tokensFrom l zs, l.index ≤ t.index := by
  intro t ht
  obtain ⟨v, hv, htoken⟩ := List.mem_filterMap.mp ht
  obtain ⟨hindex, -⟩ := (hvisits v (hsuffix.subset hv)).token htoken
  have hle := visits_index_le v hv
  omega

/-- No token is in front of a start that has been reached. -/
theorem tokensFrom_reached {l : Lexer} {zs : List Lexeme} {start : Nat}
    (hsuffix : l.visits zs <:+ lexer.visits xs) (hle : start ≤ l.index) :
    (tokensFrom l zs).dropWhile (fun t => t.index < start) = tokensFrom l zs := by
  refine List.dropWhile_eq_self_iff.mpr fun hpos => ?_
  have hge := tokensFrom_index hvisits hsuffix _ (List.getElem_mem hpos)
  simp only [decide_eq_true_eq]
  omega

section Cons

variable {l : Lexer} {x : Lexeme} {zs : List Lexeme} {start : Nat} {skips : Bool}
  {ps : List Piece} (hsuffix : l.visits (x :: zs) <:+ lexer.visits xs)
  (hrest : SpliceFinishes macroList tokens source (l.take x) zs start skips ps)

include hsuffix

/-- The tokens behind a lexeme are behind its characters. -/
theorem tokensFrom_behind :
    ∀ t ∈ tokensFrom (l.take x) zs, l.index + x.text.length ≤ t.index := by
  intro t ht
  have hge := tokensFrom_index hvisits ((List.suffix_cons _ _).trans hsuffix) t ht
  rwa [take_index] at hge

include hrest

/-- The loop goes on at the next lexeme. -/
theorem SpliceFinishes.next (hskips : skips = false) (hle : start ≤ (l.take x).index) :
    Finishes macroList tokens source (l.take x).index (tokensFrom (l.take x) zs) (piecesText ps)
      (piecesPlaces ps) := by
  have hcopies := hrest.copies hskips
  rwa [Nat.max_eq_right hle,
    tokensFrom_reached hvisits ((List.suffix_cons _ _).trans hsuffix) hle] at hcopies

/-- A lexeme that lies in a definition that has been skipped. -/
theorem SpliceFinishes.inside (hskips : skips = false) (hlt : l.index < start)
    (hend : (l.take x).index ≤ start) :
    SpliceFinishes macroList tokens source l (x :: zs) start false ps := by
  refine ⟨fun _ => ?_, fun _ hle => absurd hle (by omega), nofun⟩
  have hdrop : (tokensFrom l (x :: zs)).dropWhile (fun t => t.index < start) =
      (tokensFrom (l.take x) zs).dropWhile fun t => t.index < start := by
    cases htoken : visitToken (l, x) with
    | none => rw [tokensFrom_untyped htoken]
    | some t =>
        have hindex : t.index = l.index :=
          ((hvisits _ (hsuffix.subset List.mem_cons_self)).token htoken).1
        rw [tokensFrom_typed htoken, List.dropWhile_cons_of_pos]
        rw [hindex]
        exact decide_eq_true hlt
  have hcopies := hrest.copies hskips
  rw [Nat.max_eq_left hend] at hcopies
  rw [Nat.max_eq_left (by omega), hdrop]
  exact hcopies

/-- A lexeme that is copied. -/
theorem SpliceFinishes.kept (hskips : skips = false) (hle : start ≤ l.index)
    (hout : Outside macroList l.index)
    (hname : ∀ t, visitToken (l, x) = some t → namedMacro macroList t = none) :
    SpliceFinishes macroList tokens source l (x :: zs) start false
      (⟨x, l.index, .copied⟩ :: ps) := by
  have hvisit := hvisits _ (hsuffix.subset List.mem_cons_self)
  have hindex' : (l.take x).index = l.index + x.text.length := take_index l x
  have hbehind := tokensFrom_behind hvisits hsuffix
  have hnext := hrest.next hvisits hsuffix hskips (by omega)
  rw [hindex'] at hnext
  refine ⟨fun _ => ?_, fun _ _ hends => ?_, nofun⟩
  · rw [Nat.max_eq_right hle, tokensFrom_reached hvisits hsuffix hle]
    cases htoken : visitToken (l, x) with
    | none =>
        rw [tokensFrom_untyped htoken]
        refine (steps_untyped hvisit fun t ht => ?_).finishes hnext
        exact hbehind t (List.mem_of_mem_head? ht)
    | some t =>
        have huse : macroUse macroList l.index t = none := by
          rw [macroUse_eq, concernedMacro_outside hout, hname t htoken]
          rfl
        rw [tokensFrom_typed htoken]
        refine (steps_typed hvisit htoken huse fun t ht => ?_).finishes hnext
        exact hbehind t (List.mem_of_mem_head? ht)
  · cases htoken : visitToken (l, x) with
    | none =>
        have hends' : endsLineNext ((l.take x).visits zs) = true := by
          rw [endsLineNext, Lexer.visits, List.filterMap_cons_none htoken] at hends
          exact hends
        have hline := hrest.line hskips (by omega) hends'
        rw [hindex'] at hline
        rw [tokensFrom_untyped htoken]
        refine (steps_untyped hvisit fun t ht => ?_).finishes hline
        exact hbehind t (List.mem_of_mem_tail (List.mem_of_mem_head? ht))
    | some t =>
        -- the end of the line, which the cursor has passed, is copied by characters
        rw [tokensFrom_typed htoken, List.tail_cons]
        refine (steps_untyped hvisit fun t ht => ?_).finishes hnext
        exact hbehind t (List.mem_of_mem_head? ht)

/-- A lexeme whose first character has been passed over. -/
theorem SpliceFinishes.skipped (hskips : skips = false) (hle : start ≤ l.index)
    (hends : endsLineNext (l.visits (x :: zs)) = true) :
    SpliceFinishes macroList tokens source l (x :: zs) start true
      (uncoveredPieces l.index x ++ ps) := by
  have hvisit := hvisits _ (hsuffix.subset List.mem_cons_self)
  have hpos : 0 < x.text.length := hvisit.text_pos
  have hindex' : (l.take x).index = l.index + x.text.length := take_index l x
  have hbehind := tokensFrom_behind hvisits hsuffix
  refine ⟨nofun, nofun, fun _ => ?_⟩
  rw [piecesText_append, piecesPlaces_append, uncoveredPieces_text, uncoveredPieces_places]
  cases htoken : visitToken (l, x) with
  | none =>
      have hends' : endsLineNext ((l.take x).visits zs) = true := by
        rw [endsLineNext, Lexer.visits, List.filterMap_cons_none htoken] at hends
        exact hends
      have hlength : l.index + 1 + x.text.tail.length = (l.take x).index := by
        rw [hindex', List.length_tail]
        omega
      have htext : (source.data.drop (l.index + 1)).take x.text.tail.length = x.text.tail := by
        have htake := hvisit.text_take
        simp only at htake
        rw [← List.drop_drop, List.length_tail, ← List.drop_take, htake, List.drop_one]
      have hend := hvisit.end_le
      simp only at hend
      have hsteps : Steps macroList tokens source (l.index + 1) (tokensFrom (l.take x) zs).tail _ _
          (l.index + 1 + x.text.tail.length) _ :=
        steps_characters (by omega) fun t ht => by
          have hge := hbehind t (List.mem_of_mem_tail (List.mem_of_mem_head? ht))
          omega
      rw [htext, hlength] at hsteps
      rw [tokensFrom_untyped htoken]
      exact hsteps.finishes (hrest.line hskips (by omega) hends')
  | some t =>
      have htext : x.text = ['\n'.toUInt8] :=
        hvisit.text_of_eol htoken (endsLineNext_type hends htoken)
      have hone : l.index + 1 = (l.take x).index := by
        rw [hindex', htext]
        rfl
      rw [tokensFrom_typed htoken, List.tail_cons, hone, htext]
      exact hrest.next hvisits hsuffix hskips (by omega)

/-- The name of a macro. -/
theorem SpliceFinishes.name {t : Token} {m : Macro} (hle : start ≤ l.index)
    (hout : Outside macroList l.index) (htoken : visitToken (l, x) = some t)
    (htype : t.type = .identifier) (hname : namedMacro macroList t = some m)
    (hskips : skips = endsLineNext ((l.take x).visits zs)) :
    SpliceFinishes macroList tokens source l (x :: zs) start false
      (contentPieces tokens m ++ ps) := by
  have hvisit := hvisits _ (hsuffix.subset List.mem_cons_self)
  have hend := hvisit.end_le
  have hpos := hvisit.text_pos
  obtain ⟨hindex, -, hstring, -⟩ := hvisit.token htoken
  simp only at hend hpos hindex hstring
  have hindex' : (l.take x).index = l.index + x.text.length := take_index l x
  have hconcerned : concernedMacro macroList l.index t = some m := by
    rw [concernedMacro_outside hout, hname]
  have hlength : t.string.data.length = x.text.length := by
    rw [hstring (by rw [htype]; decide)]
  have hsteps : Steps macroList tokens source l.index (t :: tokensFrom (l.take x) zs)
      m.content.data _ _ _ :=
    steps_expansion (by omega) hindex hconcerned (hout m (namedMacro_some hname).1)
  rw [hlength, ← hindex'] at hsteps
  refine ⟨fun _ => ?_, fun _ _ hends => ?_, nofun⟩
  · rw [Nat.max_eq_right hle, tokensFrom_reached hvisits hsuffix hle, tokensFrom_typed htoken,
      piecesText_append, piecesPlaces_append, contentPieces_text, contentPieces_places]
    cases heol : endsLineNext ((l.take x).visits zs) with
    | true =>
        have hany : (tokensFrom (l.take x) zs).head?.any (fun u => u.type = .eol) = true := heol
        rw [if_pos hany, if_pos hany] at hsteps
        exact hsteps.finishes (hrest.skips (hskips.trans heol))
    | false =>
        have hany : ¬ (tokensFrom (l.take x) zs).head?.any (fun u => u.type = .eol) = true :=
          Bool.eq_false_iff.mp heol
        rw [if_neg hany, if_neg hany] at hsteps
        exact hsteps.finishes (hrest.next hvisits hsuffix (hskips.trans heol) (by omega))
  · have hother := endsLineNext_type hends htoken
    rw [htype] at hother
    cases hother

end Cons

variable (hplaced : Placed macroList (lexer.visits xs))

include hplaced

/-- The `macr` of a definition. -/
theorem SpliceFinishes.definition {l : Lexer} {x : Lexeme} {zs : List Lexeme} {start : Nat}
    {ps : List Piece} {t : Token} {m : Macro} (hsuffix : l.visits (x :: zs) <:+ lexer.visits xs)
    (hrest : SpliceFinishes macroList tokens source (l.take x) zs (m.endIndex + 1) false ps)
    (hle : start ≤ l.index) (htoken : visitToken (l, x) = some t) (htype : t.type = .macr)
    (hm : m ∈ macroList) (hstart : m.startIndex = l.index) (hend : (l.take x).index ≤ m.endIndex) :
    SpliceFinishes macroList tokens source l (x :: zs) start false ps := by
  have hv : (l, x) ∈ lexer.visits xs := hsuffix.subset List.mem_cons_self
  have hindex : t.index = l.index := ((hvisits _ hv).token htoken).1
  have hinside : l.index + x.text.length ≤ source.data.length := (hvisits _ hv).end_le
  have hpos : 0 < x.text.length := (hvisits _ hv).text_pos
  have hindex' : (l.take x).index = l.index + x.text.length := take_index l x
  have huse : macroUse macroList l.index t = some (.definition m.endIndex) :=
    macroUse_definition hvisits hplaced hv htoken hm hstart
  have hcursor : (t :: tokensFrom (l.take x) zs).dropWhile (fun u => u.index ≤ m.endIndex) =
      (tokensFrom (l.take x) zs).dropWhile fun u => u.index < m.endIndex + 1 := by
    rw [List.dropWhile_cons, if_pos (decide_eq_true (by omega))]
    simp only [Nat.lt_succ_iff]
  refine ⟨fun _ => ?_, fun _ _ hends => ?_, nofun⟩
  · have hsteps : Steps macroList tokens source l.index (t :: tokensFrom (l.take x) zs) _ _ _ _ :=
      steps_definition (by omega) hindex huse
    have hcopies := hrest.copies rfl
    rw [Nat.max_eq_left (by omega)] at hcopies
    rw [hcursor] at hsteps
    rw [Nat.max_eq_right hle, tokensFrom_reached hvisits hsuffix hle, tokensFrom_typed htoken]
    exact hsteps.finishes hcopies
  · have hother := endsLineNext_type hends htoken
    rw [htype] at hother
    cases hother

omit hvisits hplaced in
/-- The lexemes behind one of the source are lexemes of the source. -/
theorem suffix_next {l : Lexer} {x : Lexeme} {zs : List Lexeme}
    (hsuffix : l.visits (x :: zs) <:+ lexer.visits xs) :
    (l.take x).visits zs <:+ lexer.visits xs :=
  (List.suffix_cons _ _).trans hsuffix

omit hvisits hplaced in
theorem end_next {l : Lexer} {x : Lexeme} {zs : List Lexeme}
    (hend : l.index + (lexemesText (x :: zs)).length = source.data.length) :
    (l.take x).index + (lexemesText zs).length = source.data.length := by
  rw [lexemesText_cons, List.length_append] at hend
  rw [take_index]
  omega

/-- **The loop writes the pieces**, from any lexeme on. -/
theorem Spliced.finishes_from {zs : List Lexeme} {l : Lexer} {start : Nat} {skips : Bool}
    {ps : List Piece} (h : Spliced macroList tokens l zs start skips ps)
    (hsuffix : l.visits zs <:+ lexer.visits xs)
    (hend : l.index + (lexemesText zs).length = source.data.length) :
    SpliceFinishes macroList tokens source l zs start skips ps := by
  induction h with
  | nil =>
      rw [lexemesText_nil, List.length_nil, Nat.add_zero] at hend
      exact ⟨fun _ => finishes_end (by omega), fun _ _ => nofun, fun _ => finishes_end (by omega)⟩
  | inside hlt _ hle _ ih =>
      have hrest := ih (suffix_next hsuffix) (end_next hend)
      exact hrest.inside hvisits hsuffix rfl hlt hle
  | definition hle htoken htype hm hstart hbehind _ ih =>
      have hrest := ih (suffix_next hsuffix) (end_next hend)
      exact hrest.definition hvisits hplaced hsuffix hle htoken htype hm hstart hbehind
  | kept hle hout hname _ ih =>
      have hrest := ih (suffix_next hsuffix) (end_next hend)
      exact hrest.kept hvisits hsuffix rfl hle hout hname
  | name hle hout htoken htype hname _ ih =>
      have hrest := ih (suffix_next hsuffix) (end_next hend)
      exact hrest.name hvisits hsuffix hle hout htoken htype hname rfl
  | skipped hle hnext _ ih =>
      have hrest := ih (suffix_next hsuffix) (end_next hend)
      exact hrest.skipped hvisits hsuffix rfl hle hnext

/-- **The loop writes the pieces.** -/
theorem Spliced.finishes {ps : List Piece} (h : Spliced macroList tokens lexer xs 0 false ps)
    (hstart : lexer.index = 0) (htext : lexemesText xs = source.data) :
    Finishes macroList tokens source 0 ((lexer.visits xs).filterMap visitToken) (piecesText ps)
      (piecesPlaces ps) := by
  have hfinishes := h.finishes_from hvisits hplaced List.suffix_rfl (by rw [hstart, htext]; omega)
  have hcopies := hfinishes.copies rfl
  rwa [hstart, tokensFrom_reached hvisits List.suffix_rfl (by omega)] at hcopies

end Loop

end Assembler
