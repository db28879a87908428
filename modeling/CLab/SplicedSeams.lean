import CLab.Splicing

/-!
# Seams of the expanded text

`ShownAt` says from the source which character stands at a place once the
definitions have gone and the names have been replaced: it is the first
character of the pieces from there on (`Spliced.head`).  So a piece runs on
where a token of the source is continued by the character behind it
(`Spliced.seamless_iff`); comments and contents always end (`Spliced.commentsEnd`).
-/

namespace Assembler

/-- The character that stands at a place of the expanded text. -/
inductive ShownAt (macroList : List Macro) (source : CString) (tokens : List Token) :
    Nat → UInt8 → Prop
  | definition {i m d} (hm : m ∈ macroList) (hstart : m.startIndex = i)
      (h : ShownAt macroList source tokens (m.endIndex + 1) d) :
      ShownAt macroList source tokens i d
  | name {i t m d} (hout : Outside macroList i) (ht : t ∈ tokens) (hindex : t.index = i)
      (hname : namedMacro macroList t = some m) (hd : m.content.data[0]? = some d) :
      ShownAt macroList source tokens i d
  | source {i d} (hout : Outside macroList i)
      (hname : ∀ t ∈ tokens, t.index = i → namedMacro macroList t = none)
      (hd : source.data[i]? = some d) : ShownAt macroList source tokens i d

/-- The character that stands behind a token goes on with it. -/
def Continued (macroList : List Macro) (source : CString) (tokens : List Token) (t : Token) :
    Prop :=
  ∃ d, ShownAt macroList source tokens (t.index + spanLength t) d ∧
    continues (stringCharAt source t.index) d = true

/-- The lexeme of the end of a line. -/
def newlineLexeme : Lexeme := ⟨['\n'.toUInt8], some .eol, none⟩

/-- A content consists of lexemes that were read without an error, the last of
them the end of a line. -/
def Macro.EndsLine (m : Macro) : Prop :=
  ∃ xs, Lexes m.content.data (xs ++ [newlineLexeme]) ∧ ∀ x ∈ xs, x.Clean

theorem newlineLexeme_clean : newlineLexeme.Clean :=
  ⟨'\n'.toUInt8, [], by decide, nextLexeme_newline _, Or.inl rfl⟩

/-! ## Behind a comment -/

section Comment

variable {source : CString} {v w : Lexer × Lexeme} (hv : LexerVisit source.data v)
  (hw : LexerVisit source.data w)

/-- The lexeme is a comment. -/
def Lexeme.IsComment (x : Lexeme) : Prop :=
  x.type = none ∧ ∃ t, x.text = ';'.toUInt8 :: t

include hv

/-- A lexeme without a token is a comment or a single character. -/
theorem LexerVisit.untyped (htype : v.2.type = none) : v.2.IsComment ∨
    ∃ c, c ≠ 0 ∧ v.2.text = [c] ∧ ∀ d, continues c d = false := by
  have hnoNul := hv.text_noNul
  obtain ⟨c, cs, -, hread⟩ := hv.ahead
  rw [← hread] at htype hnoNul ⊢
  have h0 : c ≠ 0 := by
    intro heq
    obtain rfl := heq
    obtain ⟨t, htext, -⟩ := nextLexeme_text 0 cs
    rw [htext] at hnoNul
    exact hnoNul List.mem_cons_self
  rcases nextLexeme_untyped htype with ⟨hc, hlexeme⟩ | ⟨rfl, hlexeme⟩ | ⟨hc, hlexeme⟩
  · refine Or.inr ⟨c, h0, by rw [hlexeme], ?_⟩
    exact continues_single h0 (Or.inl hc)
  · exact Or.inl ⟨htype, _, by rw [hlexeme]⟩
  · refine Or.inr ⟨c, h0, by rw [hlexeme], ?_⟩
    exact continues_single h0 (Or.inr (Or.inl hc))

/-- The line or the file ends behind a comment. -/
theorem LexerVisit.behind_comment (hcomment : v.2.IsComment) {d : UInt8}
    (hd : source.data[v.1.index + v.2.text.length]? = some d) :
    d = '\n'.toUInt8 ∨ d = eofChar := by
  obtain ⟨htype, t, htext⟩ := hcomment
  obtain ⟨c, cs, hdrop, hread⟩ := hv.ahead
  have hfirst := hv.text_front
  rw [hdrop, htext] at hfirst
  obtain rfl := (List.cons_prefix_cons.mp hfirst).1
  rw [nextLexeme_semicolon] at hread
  rw [← List.getElem?_drop, hdrop, ← hread, List.length_cons, List.getElem?_cons_succ,
    ← List.head?_drop] at hd
  have hrest : cs = cs.takeWhile (fun d => d != eofChar && d != '\n'.toUInt8) ++
      cs.drop (cs.takeWhile fun d => d != eofChar && d != '\n'.toUInt8).length := by
    conv_lhs => rw [← List.take_append_drop
      (cs.takeWhile fun d => d != eofChar && d != '\n'.toUInt8).length cs]
    rw [← List.prefix_iff_eq_take.mp (List.takeWhile_prefix _)]
  have hstop := head_behind_takeWhile hrest d hd
  by_contra hnot
  push Not at hnot
  simp [hnot.1, hnot.2] at hstop

/-- A token begins with the first character of its lexeme. -/
theorem LexerVisit.first {t : Token} (htoken : visitToken v = some t) :
    stringCharAt source t.index = v.2.text.headD 0 := by
  have hget := hv.getElem? hv.text_pos
  rw [Nat.add_zero, ← List.head?_eq_getElem?] at hget
  rw [stringCharAt, List.getD_eq_getElem?_getD, (hv.token htoken).1, hget,
    List.headD_eq_head?_getD]

include hw

/-- The lexeme behind a comment is the end of a line or of the file. -/
theorem LexerVisit.token_behind_comment (hcomment : v.2.IsComment)
    (hindex : w.1.index = v.1.index + v.2.text.length) :
    w.2 = newlineLexeme ∨ w.2 = ⟨[eofChar], some .eoft, none⟩ := by
  obtain ⟨c, cs, hdrop, hread⟩ := hw.ahead
  have hc : source.data[v.1.index + v.2.text.length]? = some c := by
    rw [← hindex, ← Nat.add_zero w.1.index, ← List.getElem?_drop, hdrop]
    rfl
  rcases hv.behind_comment hcomment hc with rfl | rfl
  · exact Or.inl (hread.symm.trans (nextLexeme_newline _))
  · exact Or.inr (hread.symm.trans (nextLexeme_eofChar _))

end Comment

/-! ## The first character of the pieces -/

section Pieces

variable {source : CString} {macroList : List Macro} {lexer : Lexer} {xs : List Lexeme}
  (hvisits : ∀ v ∈ lexer.visits xs, LexerVisit source.data v)

include hvisits

/-- The token at the index of a visit is its token. -/
theorem visitToken_at {v : Lexer × Lexeme} (hv : v ∈ lexer.visits xs) {t : Token}
    (ht : t ∈ tokensFrom lexer xs) (hindex : t.index = v.1.index) : visitToken v = some t := by
  obtain ⟨w, hw, htoken⟩ := List.mem_filterMap.mp ht
  obtain ⟨hwindex, -⟩ := (hvisits w hw).token htoken
  have hpos := (hvisits v hv).text_pos
  have hpos' := (hvisits w hw).text_pos
  obtain rfl := visits_disjoint hv hw (i := v.1.index) (by omega) (by omega)
  exact htoken

theorem tokensFrom_inside {t : Token} (ht : t ∈ tokensFrom lexer xs) :
    t.index < source.data.length := by
  obtain ⟨w, hw, htoken⟩ := List.mem_filterMap.mp ht
  obtain ⟨hindex, -⟩ := (hvisits w hw).token htoken
  have hend := (hvisits w hw).end_le
  have hpos := (hvisits w hw).text_pos
  omega

variable (hplaced : Placed macroList (lexer.visits xs))

include hplaced

theorem Placed.start_inside {m : Macro} (hm : m ∈ macroList) :
    m.startIndex < source.data.length := by
  obtain ⟨v, hv, -, -, -, hindex⟩ := hplaced.opener m hm
  have hend := (hvisits v hv).end_le
  have hpos := (hvisits v hv).text_pos
  omega

omit hvisits in
/-- A token that is no identifier is no name. -/
theorem Placed.not_named {v : Lexer × Lexeme} (hv : v ∈ lexer.visits xs) {t : Token}
    (htoken : visitToken v = some t) (htype : t.type ≠ .identifier) :
    namedMacro macroList t = none := by
  by_contra hsome
  obtain ⟨m, hname⟩ := Option.ne_none_iff_exists'.mp hsome
  obtain ⟨hm, hstring⟩ := namedMacro_some hname
  exact htype (hplaced.named m hm v hv t htoken hstring)

omit hvisits in
theorem Outside.not_start {i : Nat} (hout : Outside macroList i) {m : Macro}
    (hm : m ∈ macroList) (hstart : m.startIndex = i) : False := by
  have hordered := hplaced.ordered m hm
  exact hout m hm ⟨by omega, by omega⟩

/-- Nothing stands behind the end of the source. -/
theorem ShownAt.inside {i : Nat} {d : UInt8}
    (h : ShownAt macroList source (tokensFrom lexer xs) i d) : i < source.data.length := by
  cases h with
  | definition hm hstart _ =>
      rw [← hstart]
      exact hplaced.start_inside hvisits hm
  | name _ ht hindex _ _ =>
      rw [← hindex]
      exact tokensFrom_inside hvisits ht
  | source _ _ hd => exact (List.getElem?_eq_some_iff.mp hd).1

omit hvisits in
/-- At the start of a definition stands what stands behind it. -/
theorem shownAt_definition {m : Macro} (hm : m ∈ macroList) {d : UInt8} :
    ShownAt macroList source (tokensFrom lexer xs) m.startIndex d ↔
      ShownAt macroList source (tokensFrom lexer xs) (m.endIndex + 1) d := by
  constructor
  · intro h
    cases h with
    | @definition _ m' _ hm' hstart h =>
        have hsame : m' = m := by
          by_contra hne
          have hordered := hplaced.ordered m hm
          have hordered' := hplaced.ordered m' hm'
          have hsymm : Std.Symm Macro.Apart := ⟨fun _ _ => Or.symm⟩
          rcases hplaced.apart.forall hm' hm hne with h | h <;> omega
        rwa [hsame] at h
    | name hout => exact (hout.not_start hplaced hm rfl).elim
    | source hout => exact (hout.not_start hplaced hm rfl).elim
  · exact ShownAt.definition hm rfl

/-- Behind a comment the line or the file ends. -/
theorem shownAt_behind_comment {v : Lexer × Lexeme} (hv : v ∈ lexer.visits xs)
    (hcomment : v.2.IsComment) {d : UInt8}
    (h : ShownAt macroList source (tokensFrom lexer xs) (v.1.index + v.2.text.length) d) :
    d = '\n'.toUInt8 ∨ d = eofChar := by
  have htoken : ∀ w ∈ lexer.visits xs, ∀ t, visitToken w = some t →
      w.1.index = v.1.index + v.2.text.length → t.type = .eol ∨ t.type = .eoft := by
    intro w hw t htoken hindex
    obtain ⟨type, htype, rfl⟩ := Option.map_eq_some_iff.mp htoken
    rcases (hvisits v hv).token_behind_comment (hvisits w hw) hcomment hindex with h | h
    · rw [h] at htype
      exact Or.inl (Option.some.inj htype).symm
    · rw [h] at htype
      exact Or.inr (Option.some.inj htype).symm
  cases h with
  | definition hm hstart _ =>
      obtain ⟨w, hw, t, ht, hmacr, hindex⟩ := hplaced.opener _ hm
      have htype := htoken w hw t ht (hindex.trans hstart)
      rw [hmacr] at htype
      rcases htype with h | h <;> cases h
  | @name _ t m _ _ ht hindex hname _ =>
      obtain ⟨w, hw, ht⟩ := List.mem_filterMap.mp ht
      obtain ⟨hm, hstring⟩ := namedMacro_some hname
      have hword := hplaced.named m hm w hw t ht hstring
      have htype := htoken w hw t ht (((hvisits w hw).token ht).1.symm.trans hindex)
      rw [hword] at htype
      rcases htype with h | h <;> cases h
  | source _ _ hd => exact (hvisits v hv).behind_comment hcomment hd

variable (hends : ∀ m ∈ macroList, m.EndsLine)

omit hvisits hplaced in
theorem Macro.EndsLine.content_pos {m : Macro} (h : m.EndsLine) : 0 < m.content.data.length := by
  obtain ⟨ys, hlex, -⟩ := h
  rw [← hlex.text_eq, lexemesText_append, List.length_append]
  exact Nat.lt_of_lt_of_le (by decide : 0 < (lexemesText [newlineLexeme]).length)
    (Nat.le_add_left _ _)

include hends

/-- **The first character of the pieces** is the one that stands where they
begin. -/
theorem Spliced.head {zs : List Lexeme} {l : Lexer} {start : Nat} {skips : Bool}
    {ps : List Piece} (h : Spliced macroList (tokensFrom lexer xs) l zs start skips ps)
    (hskips : skips = false) (hsuffix : l.visits zs <:+ lexer.visits xs)
    (hend : l.index + (lexemesText zs).length = source.data.length) (d : UInt8) :
    (piecesText ps)[0]? = some d ↔
      ShownAt macroList source (tokensFrom lexer xs) (max start l.index) d := by
  induction h with
  | nil =>
      rw [lexemesText_nil, List.length_nil, Nat.add_zero] at hend
      constructor
      · exact nofun
      · intro h
        have hin := h.inside hvisits hplaced
        omega
  | inside hlt _ hle _ ih =>
      have hrest := ih rfl (suffix_next hsuffix) (end_next hend)
      rw [Nat.max_eq_left hle] at hrest
      rw [Nat.max_eq_left (by omega)]
      exact hrest
  | definition hle _ _ hm hstart hle' _ ih =>
      have hrest := ih rfl (suffix_next hsuffix) (end_next hend)
      rw [Nat.max_eq_left (by omega)] at hrest
      rw [Nat.max_eq_right hle, ← hstart]
      exact hrest.trans (shownAt_definition hplaced hm).symm
  | @kept l x zs start ps hle hout hname _ _ =>
      have hv : (l, x) ∈ lexer.visits xs := hsuffix.subset List.mem_cons_self
      have hpos : 0 < x.text.length := (hvisits _ hv).text_pos
      have hfirst : (piecesText (⟨x, l.index, .copied⟩ :: ps))[0]? =
          source.data[l.index]? := by
        rw [piecesText_cons, List.getElem?_append_left hpos]
        exact ((hvisits _ hv).getElem? hpos).symm
      rw [hfirst, Nat.max_eq_right hle]
      constructor
      · refine fun hd => ShownAt.source hout (fun t ht hindex => ?_) hd
        exact hname t (visitToken_at hvisits hv ht hindex)
      · intro h
        cases h with
        | definition hm hstart _ => exact (hout.not_start hplaced hm hstart).elim
        | name _ ht hindex hname' _ =>
            rw [hname _ (visitToken_at hvisits hv ht hindex)] at hname'
            cases hname'
        | source _ _ hd => exact hd
  | @name l x zs start t m ps hle hout htoken _ hname _ _ =>
      have hv : (l, x) ∈ lexer.visits xs := hsuffix.subset List.mem_cons_self
      have ht : t ∈ tokensFrom lexer xs := List.mem_filterMap.mpr ⟨_, hv, htoken⟩
      have hindex : t.index = l.index := ((hvisits _ hv).token htoken).1
      have hpos := (hends m (namedMacro_some hname).1).content_pos
      have hfirst : (piecesText (contentPieces (tokensFrom lexer xs) m ++ ps))[0]? =
          m.content.data[0]? := by
        rw [piecesText_append, contentPieces_text, List.getElem?_append_left hpos]
      rw [hfirst, Nat.max_eq_right hle]
      constructor
      · exact ShownAt.name hout ht hindex hname
      · intro h
        cases h with
        | definition hm hstart _ => exact (hout.not_start hplaced hm hstart).elim
        | @name _ t' m' _ _ ht' hindex' hname' hd =>
            obtain rfl := Option.some.inj
              (htoken.symm.trans (visitToken_at hvisits hv ht' hindex'))
            obtain rfl := Option.some.inj (hname.symm.trans hname')
            exact hd
        | source _ hnone _ =>
            rw [hnone t ht hindex] at hname
            cases hname
  | skipped => cases hskips

omit hends hplaced in
/-- A lexeme in front of the end of its line is a comment if it is longer than
one character. -/
theorem comment_of_endsLine {l : Lexer} {x : Lexeme} {zs : List Lexeme}
    (hsuffix : l.visits (x :: zs) <:+ lexer.visits xs)
    (hnext : endsLineNext (l.visits (x :: zs)) = true) : x.text.tail = [] ∨ x.IsComment := by
  have hvisit := hvisits _ (hsuffix.subset List.mem_cons_self)
  cases htoken : visitToken (l, x) with
  | none =>
      have htype : x.type = none := Option.map_eq_none_iff.mp htoken
      rcases hvisit.untyped htype with hcomment | ⟨c, -, htext, -⟩
      · exact Or.inr hcomment
      · have htext' : x.text = [c] := htext
        exact Or.inl (by rw [htext']; rfl)
  | some t =>
      have htext : x.text = ['\n'.toUInt8] :=
        hvisit.text_of_eol htoken (endsLineNext_type hnext htoken)
      exact Or.inl (by rw [htext]; rfl)

/-- Nothing runs on where a comment of the source has ended. -/
theorem Spliced.stops_behind_comment {l : Lexer} {x : Lexeme} {zs : List Lexeme} {start : Nat}
    {ps : List Piece} (h : Spliced macroList (tokensFrom lexer xs) (l.take x) zs start false ps)
    (hle : start ≤ l.index) (hsuffix : l.visits (x :: zs) <:+ lexer.visits xs)
    (hend : l.index + (lexemesText (x :: zs)).length = source.data.length)
    (hcomment : x.IsComment) (y : Lexeme) : ¬ y.RunsOn (piecesText ps) := by
  intro hfacts
  obtain ⟨d, hd, hgo⟩ := hfacts
  have hindex' : (l.take x).index = l.index + x.text.length := take_index l x
  have hshown := (h.head hvisits hplaced hends rfl (suffix_next hsuffix) (end_next hend) d).mp
    (by rw [← List.head?_eq_getElem?]; exact hd)
  rw [Nat.max_eq_right (by omega), hindex'] at hshown
  have hchar := shownAt_behind_comment hvisits hplaced (hsuffix.subset List.mem_cons_self)
    hcomment hshown
  rw [continues_lineEnd _ hchar] at hgo
  cases hgo

omit hvisits hplaced hends in
/-- A content stops where it ends. -/
theorem Macro.EndsLine.stops {m : Macro} (h : m.EndsLine) (kind : Lexeme → Prop)
    (rest : List UInt8) : Stops kind (lexemesOf m.content.data.length m.content.data) ∧
      (∀ y ∈ lexemesOf m.content.data.length m.content.data, y.Clean) ∧
      ∀ y ∈ (lexemesOf m.content.data.length m.content.data).getLast?, ¬ y.RunsOn rest := by
  obtain ⟨ys, hlex, hclean⟩ := h
  have hlexemes := hlex.unique (lexes_lexemesOf (Nat.le_refl _))
  have hall : ∀ y ∈ ys ++ [newlineLexeme], y.Clean := by
    intro y hy
    rcases List.mem_append.mp hy with hy | hy
    · exact hclean y hy
    · rw [List.mem_singleton.mp hy]
      exact newlineLexeme_clean
  rw [← hlexemes]
  refine ⟨hlex.stops fun y hy _ => hall y hy, hall, fun y hy => ?_⟩
  rw [List.getLast?_concat] at hy
  obtain rfl := Option.some.inj hy
  intro hfacts
  obtain ⟨d, -, hgo⟩ := hfacts
  rw [newlineLexeme, List.headD_cons, continues_single (by decide) (by simp) d] at hgo
  cases hgo

omit hvisits hplaced in
/-- The lexemes of a body stop where those behind them do. -/
theorem stops_content {kind : Lexeme → Prop} {tokens : List Token} {m : Macro}
    (hm : m ∈ macroList) {ps : List Piece} (hrest : Stops kind (ps.map Piece.lexeme)) :
    Stops kind ((contentPieces tokens m ++ ps).map Piece.lexeme) := by
  obtain ⟨hstops, -, hlast⟩ := (hends m hm).stops kind (lexemesText (ps.map Piece.lexeme))
  rw [List.map_append, contentPieces_lexemes]
  exact hstops.append (lexes_lexemesOf (Nat.le_refl _)).text_pos (fun y hy _ => hlast y hy) hrest

/-- So do the lexemes uncovered in front of the end of a line that have no
token. -/
theorem Spliced.stops_uncovered {kind : Lexeme → Prop} {l : Lexer} {x : Lexeme} {zs : List Lexeme}
    {start : Nat} {ps : List Piece}
    (h : Spliced macroList (tokensFrom lexer xs) (l.take x) zs start false ps)
    (hle : start ≤ l.index) (hsuffix : l.visits (x :: zs) <:+ lexer.visits xs)
    (hend : l.index + (lexemesText (x :: zs)).length = source.data.length)
    (hnext : endsLineNext (l.visits (x :: zs)) = true)
    (huntyped : ∀ p ∈ uncoveredPieces l.index x, kind p.lexeme → p.lexeme.type = none)
    (hrest : Stops kind (ps.map Piece.lexeme)) :
    Stops kind ((uncoveredPieces l.index x ++ ps).map Piece.lexeme) := by
  have hlex := uncovered_lexes x
  rw [List.map_append, uncoveredPieces_lexemes]
  rcases comment_of_endsLine hvisits hsuffix hnext with htail | hcomment
  · rw [htail, lexemesOf_nil]
    exact hrest
  · refine Stops.append (hlex.stops fun y hy hkind => ?_) hlex.text_pos (fun y _ _ => ?_) hrest
    · have hnoNul : 0 ∉ x.text.tail := fun h =>
        (hvisits _ (hsuffix.subset List.mem_cons_self)).text_noNul (List.mem_of_mem_tail h)
      obtain ⟨c, cs, h0, hread⟩ := hlex.read hnoNul y hy
      rw [← uncoveredPieces_lexemes l.index x] at hy
      obtain ⟨p, hp, rfl⟩ := List.mem_map.mp hy
      exact ⟨c, cs, h0, hread, Or.inr (huntyped p hp hkind)⟩
    · exact h.stops_behind_comment hvisits hplaced hends hle hsuffix hend hcomment y

/-- **Comments end.** -/
theorem Spliced.commentsEnd {zs : List Lexeme} {l : Lexer} {start : Nat} {skips : Bool}
    {ps : List Piece} (h : Spliced macroList (tokensFrom lexer xs) l zs start skips ps)
    (hsuffix : l.visits zs <:+ lexer.visits xs)
    (hend : l.index + (lexemesText zs).length = source.data.length) :
    CommentsEnd (ps.map Piece.lexeme) := by
  induction h with
  | nil => trivial
  | inside _ _ _ _ ih => exact ih (suffix_next hsuffix) (end_next hend)
  | definition _ _ _ _ _ _ _ ih =>
      exact ih (suffix_next hsuffix) (end_next hend)
  | @kept l x zs start ps hle _ _ rest ih =>
      refine ⟨fun htype => ?_, ih (suffix_next hsuffix) (end_next hend)⟩
      rcases (hvisits _ (hsuffix.subset List.mem_cons_self)).untyped htype with
        hcomment | ⟨c, -, htext, hstop⟩
      · exact rest.stops_behind_comment hvisits hplaced hends hle hsuffix hend hcomment x
      · intro hfacts
        obtain ⟨d, -, hgo⟩ := hfacts
        have htext' : x.text = [c] := htext
        rw [htext', List.headD_cons, hstop d] at hgo
        cases hgo
  | name _ _ _ _ hname _ ih =>
      exact stops_content hends (namedMacro_some hname).1 (ih (suffix_next hsuffix) (end_next hend))
  | skipped hle hnext rest ih =>
      have hrest := ih (suffix_next hsuffix) (end_next hend)
      exact rest.stops_uncovered hvisits hplaced hends hle hsuffix hend hnext
        (fun p _ htype => htype) hrest

/-- A lexeme that is copied runs on if its token is continued. -/
theorem Spliced.runsOn_iff {l : Lexer} {x : Lexeme} {zs : List Lexeme} {start : Nat}
    {ps : List Piece} (h : Spliced macroList (tokensFrom lexer xs) (l.take x) zs start false ps)
    (hle : start ≤ l.index) (hsuffix : l.visits (x :: zs) <:+ lexer.visits xs)
    (hend : l.index + (lexemesText (x :: zs)).length = source.data.length) {t : Token}
    (htoken : visitToken (l, x) = some t) :
    x.RunsOn (piecesText ps) ↔ Continued macroList source (tokensFrom lexer xs) t := by
  have hvisit := hvisits _ (hsuffix.subset List.mem_cons_self)
  obtain ⟨hindex, hspan, -⟩ := hvisit.token htoken
  have hpos := hvisit.text_pos
  have hindex' : (l.take x).index = l.index + x.text.length := take_index l x
  have hplace : t.index + spanLength t = max start (l.take x).index := by
    rw [hindex, hspan, Nat.max_eq_right (by omega), hindex']
  have hfirst : stringCharAt source t.index = x.text.headD 0 := hvisit.first htoken
  have hhead := h.head hvisits hplaced hends rfl (suffix_next hsuffix) (end_next hend)
  unfold Lexeme.RunsOn Continued
  rw [hplace, hfirst]
  constructor
  · intro hfacts
    obtain ⟨d, hd, hgo⟩ := hfacts
    exact ⟨d, (hhead d).mp (by rw [← List.head?_eq_getElem?]; exact hd), hgo⟩
  · intro hfacts
    obtain ⟨d, hd, hgo⟩ := hfacts
    exact ⟨d, by rw [List.head?_eq_getElem?]; exact (hhead d).mpr hd, hgo⟩

/-- **Seams of the pieces.**  Where no token has been uncovered, no piece runs
on exactly when no token that is copied is continued. -/
theorem Spliced.seamless_iff {zs : List Lexeme} {l : Lexer} {start : Nat} {skips : Bool}
    {ps : List Piece} (h : Spliced macroList (tokensFrom lexer xs) l zs start skips ps)
    (hsuffix : l.visits zs <:+ lexer.visits xs)
    (hend : l.index + (lexemesText zs).length = source.data.length)
    (huncovered : ∀ p ∈ ps, p.kind = .uncovered → p.lexeme.type = none) :
    Seamless (ps.map Piece.lexeme) ↔
      ∀ t ∈ tokensFrom l zs, Outside macroList t.index → namedMacro macroList t = none →
        ¬ Continued macroList source (tokensFrom lexer xs) t := by
  induction h with
  | nil => exact ⟨fun _ => nofun, fun _ => trivial⟩
  | @inside l x zs start ps _ hin _ _ ih =>
      have hv : (l, x) ∈ lexer.visits xs := hsuffix.subset List.mem_cons_self
      rw [ih (suffix_next hsuffix) (end_next hend) huncovered, forall_tokensFrom_cons]
      refine ⟨fun h => ⟨fun t htoken hout => ?_, h⟩, And.right⟩
      rw [((hvisits _ hv).token htoken).1] at hout
      exact absurd hout hin
  | @definition l x zs start t m ps _ _ _ hm hstart _ _ ih =>
      have hv : (l, x) ∈ lexer.visits xs := hsuffix.subset List.mem_cons_self
      rw [ih (suffix_next hsuffix) (end_next hend) huncovered, forall_tokensFrom_cons]
      refine ⟨fun h => ⟨fun t htoken hout => ?_, h⟩, And.right⟩
      rw [((hvisits _ hv).token htoken).1] at hout
      exact (hout.not_start hplaced hm hstart).elim
  | @kept l x zs start ps hle hout hname rest ih =>
      have hv : (l, x) ∈ lexer.visits xs := hsuffix.subset List.mem_cons_self
      have hrest := ih (suffix_next hsuffix) (end_next hend)
        fun p hp => huncovered p (List.mem_cons_of_mem _ hp)
      rw [forall_tokensFrom_cons, ← hrest]
      show (_ → ¬ x.RunsOn (piecesText ps)) ∧ Seamless _ ↔ _
      constructor
      · intro hfacts
        obtain ⟨hstop, hseamless⟩ := hfacts
        refine ⟨fun t htoken _ _ => ?_, hseamless⟩
        rw [← rest.runsOn_iff hvisits hplaced hends hle hsuffix hend htoken]
        exact hstop trivial
      · intro hfacts
        obtain ⟨hstop, hseamless⟩ := hfacts
        refine ⟨fun _ => ?_, hseamless⟩
        cases htoken : visitToken (l, x) with
        | none =>
            have hends' := (Spliced.kept hle hout hname rest).commentsEnd hvisits hplaced hends
              hsuffix hend
            exact hends'.1 (Option.map_eq_none_iff.mp htoken)
        | some t =>
            have hindex : t.index = l.index := ((hvisits _ hv).token htoken).1
            rw [rest.runsOn_iff hvisits hplaced hends hle hsuffix hend htoken]
            exact hstop t htoken (by rwa [hindex]) (hname t htoken)
  | @name l x zs start t m ps _ _ htoken _ hname _ ih =>
      have hrest := ih (suffix_next hsuffix) (end_next hend)
        fun p hp => huncovered p (List.mem_append_right _ hp)
      rw [forall_tokensFrom_cons, ← hrest]
      constructor
      · intro h
        rw [List.map_append] at h
        refine ⟨fun t' htoken' _ hnone => ?_, h.behind⟩
        obtain rfl := Option.some.inj (htoken.symm.trans htoken')
        rw [hname] at hnone
        cases hnone
      · exact fun h => stops_content hends (namedMacro_some hname).1 h.2
  | @skipped l x zs start ps hle hnext rest ih =>
      have hv : (l, x) ∈ lexer.visits xs := hsuffix.subset List.mem_cons_self
      have hrest := ih (suffix_next hsuffix) (end_next hend)
        fun p hp => huncovered p (List.mem_append_right _ hp)
      rw [forall_tokensFrom_cons, ← hrest]
      constructor
      · intro h
        rw [List.map_append] at h
        refine ⟨fun t htoken _ _ => ?_, h.behind⟩
        intro hfacts
        obtain ⟨d, -, hgo⟩ := hfacts
        have htext := (hvisits _ hv).text_of_eol htoken (endsLineNext_type hnext htoken)
        rw [(hvisits _ hv).first htoken, htext, List.headD_cons,
          continues_single (by decide) (by simp) d] at hgo
        cases hgo
      · intro h
        refine rest.stops_uncovered hvisits hplaced hends hle hsuffix hend hnext ?_ h.2
        intro p hp _
        exact huncovered p (List.mem_append_left _ hp) (piecesAt_kind hp)

end Pieces

end Assembler
