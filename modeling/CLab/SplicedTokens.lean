import CLab.SplicedSeams

/-!
# The tokens of the expanded text

What the lexer finds in the text of some pieces.  Where no piece runs on it
finds the pieces again; where it finds their tokens, and none in the text that
a use of a macro has uncovered, no piece runs on (`pieces_seamless`).
-/

namespace Assembler

/-- The types and strings of tokens, without the ends of lines. -/
def withoutEol (kinds : List (TokenType × CString)) : List (TokenType × CString) :=
  kinds.filter fun k => k.1 ≠ .eol

/-- The tokens that pieces should leave. -/
def visibleKinds (ps : List Piece) : List (TokenType × CString) :=
  (ps.filter fun p => p.kind ≠ .uncovered).filterMap fun p => p.lexeme.kind

@[simp] theorem withoutEol_append (ks ks' : List (TokenType × CString)) :
    withoutEol (ks ++ ks') = withoutEol ks ++ withoutEol ks' := List.filter_append _ _

@[simp] theorem visibleKinds_append (ps qs : List Piece) :
    visibleKinds (ps ++ qs) = visibleKinds ps ++ visibleKinds qs := by
  simp [visibleKinds]

/-- The piece is a lexeme that was read somewhere; it has no lexical error
unless it has been uncovered, and what has been uncovered was covered. -/
structure Piece.Sound (covered : Nat → Prop) (p : Piece) : Prop where
  read : ∃ c cs, c ≠ 0 ∧ nextLexeme c cs = p.lexeme
  clean : p.kind ≠ .uncovered → p.lexeme.Clean
  place : p.kind = .uncovered → covered p.index

/-- A piece has a place for every character. -/
theorem Piece.places_length (p : Piece) : p.places.length = p.lexeme.text.length := by
  rw [Piece.places, List.length_map, List.length_range]

theorem piecesPlaces_length (ps : List Piece) :
    (piecesPlaces ps).length = (piecesText ps).length := by
  induction ps with
  | nil => rfl
  | cons p ps ih => simp [Piece.places_length, ih]

/-- The place of a character of the piece. -/
theorem Piece.places_getElem? (p : Piece) {k : Nat} (hk : k < p.lexeme.text.length) :
    p.places[k]? = some (p.placeOf k) := by
  simp [Piece.places, hk]

theorem Piece.placeOf_index (p : Piece) (k : Nat) : (p.placeOf k).index = p.index + k := by
  unfold Piece.placeOf
  split <;> rfl

/-- The type and the string of a lexeme with a token. -/
theorem kind_of_typed {x : Lexeme} {type : TokenType} (htype : x.type = some type)
    (heof : type ≠ .eoft) : x.kind = some (type, stringCreateFromCstr x.text) := by
  rw [Lexeme.kind, htype, Option.map_some, if_neg heof]

/-- A lexeme that runs on is read as a token of another string. -/
theorem kind_ne_of_runsOn {x : Lexeme} {rest : List UInt8} (hclean : x.Clean)
    (hnoNul : 0 ∉ x.text ++ rest) (htype : x.type ≠ none) (hgo : x.RunsOn rest) {c : UInt8}
    {t : List UInt8} (htext : x.text = c :: t)
    (ks ks' : List (TokenType × CString)) :
    withoutEol ((nextLexeme c (t ++ rest)).kind.toList ++ ks) ≠
      withoutEol (x.kind.toList ++ ks') := by
  obtain ⟨c', t', htext', hlonger⟩ := hclean.longer hgo
  obtain ⟨rfl, rfl⟩ := List.cons.inj (htext.symm.trans htext')
  obtain ⟨d, hd, hgo⟩ := hgo
  rw [htext, List.headD_cons] at hgo
  have h0 : c ≠ 0 := by
    intro heq
    obtain rfl := heq
    exact hnoNul (by rw [htext]; simp)
  -- neither is an end of line or of file
  have hchar : c ≠ '\n'.toUInt8 ∧ c ≠ eofChar := by
    constructor <;> rintro rfl
    · rw [continues_single h0 (by simp) d] at hgo
      cases hgo
    · rw [continues_single h0 (by simp) d] at hgo
      cases hgo
  have hplain : ∀ cs type, (nextLexeme c cs).type = some type → type ≠ .eol ∧ type ≠ .eoft := by
    intro cs type h
    constructor <;> rintro rfl
    · exact hchar.1 (nextLexeme_eol h)
    · obtain ⟨t', ht', -⟩ := nextLexeme_text c cs
      have heof := nextLexeme_eoft h
      rw [ht'] at heof
      exact hchar.2 (List.cons.inj heof).1
  obtain ⟨c', cs, -, hread, -⟩ := hclean
  obtain ⟨t', ht', -⟩ := nextLexeme_text c' cs
  rw [hread] at ht'
  obtain rfl := (List.cons.inj (htext.symm.trans ht')).1
  have hsame : (nextLexeme c (t ++ rest)).type ≠ none := by
    rw [Ne, nextLexeme_untyped_iff, ← nextLexeme_untyped_iff cs, hread]
    exact htype
  obtain ⟨type, hx⟩ := Option.ne_none_iff_exists'.mp htype
  obtain ⟨type', hy⟩ := Option.ne_none_iff_exists'.mp hsame
  obtain ⟨heol, heof⟩ := hplain cs type (by rw [hread]; exact hx)
  obtain ⟨heol', heof'⟩ := hplain _ type' hy
  rw [kind_of_typed hx heof, kind_of_typed hy heof', withoutEol, withoutEol]
  simp only [Option.toList_some, List.singleton_append, List.filter_cons, ne_eq, heol, heol',
    not_false_eq_true, decide_true, if_true]
  intro hkinds
  have hstring := congrArg CString.data (Prod.mk.inj (List.cons.inj hkinds).1).2
  obtain ⟨u, hu, hfront⟩ := nextLexeme_text c (t ++ rest)
  have hfrontNul : 0 ∉ (nextLexeme c (t ++ rest)).text := by
    intro hzero
    rw [hu] at hzero
    apply hnoNul
    rw [htext, List.cons_append]
    exact (List.prefix_cons_inj c |>.mpr hfront).subset hzero
  rw [fromCstr_noNul hfrontNul,
    fromCstr_noNul fun h => hnoNul (List.mem_append_left _ h)] at hstring
  rw [hstring] at hlonger
  exact Nat.lt_irrefl _ hlonger

/-- The first piece leaves its own token. -/
theorem visibleKinds_cons {p : Piece} (h : p.kind = .uncovered → p.lexeme.type = none)
    (ps : List Piece) : visibleKinds (p :: ps) = p.lexeme.kind.toList ++ visibleKinds ps := by
  by_cases hkind : p.kind = .uncovered
  · have hnone : p.lexeme.kind = none := by rw [Lexeme.kind, h hkind]; rfl
    simp [visibleKinds, hkind, hnone]
  · cases hlexeme : p.lexeme.kind <;> simp [visibleKinds, hkind, hlexeme]

/-- Where nothing with a token has been uncovered all tokens are visible. -/
theorem visibleKinds_eq {ps : List Piece}
    (h : ∀ p ∈ ps, p.kind = .uncovered → p.lexeme.type = none) :
    visibleKinds ps = (ps.map Piece.lexeme).filterMap Lexeme.kind := by
  induction ps with
  | nil => rfl
  | cons p ps ih =>
      obtain ⟨hp, hps⟩ := List.forall_mem_cons.mp h
      rw [visibleKinds_cons hp, ih hps, List.map_cons, List.filterMap_cons]
      cases p.lexeme.kind <;> rfl

/-- What the pieces in front leave does not matter for those behind. -/
theorem withoutEol_cancel {k : Option (TokenType × CString)} {ks ks' : List (TokenType × CString)}
    (h : withoutEol (k.toList ++ ks) = withoutEol (k.toList ++ ks')) :
    withoutEol ks = withoutEol ks' := by
  rw [withoutEol_append, withoutEol_append] at h
  exact List.append_cancel_left h

/-- **Text without seams, from its tokens.**  Where the lexer finds the tokens
of the pieces in their text, and no token in text that has been uncovered, no
piece runs on, and none that has been uncovered has a token. -/
theorem pieces_seamless {covered : Nat → Prop} {ps : List Piece} {ys : List Lexeme}
    (hsound : ∀ p ∈ ps, p.Sound covered) (hends : CommentsEnd (ps.map Piece.lexeme))
    (hnoNul : 0 ∉ piecesText ps) (hlex : Lexes (piecesText ps) ys)
    (hkinds : withoutEol (ys.filterMap Lexeme.kind) = withoutEol (visibleKinds ps))
    (hcovered : ∀ before y after, ys = before ++ y :: after → y.type ≠ none →
      ∀ place, (piecesPlaces ps)[(lexemesText before).length]? = some place →
        ¬ covered place.index) :
    Seamless (ps.map Piece.lexeme) ∧
      ∀ p ∈ ps, p.kind = .uncovered → p.lexeme.type = none := by
  induction ps generalizing ys with
  | nil => exact ⟨trivial, nofun⟩
  | cons p ps ih =>
      have hp := hsound p List.mem_cons_self
      obtain ⟨c, cs, h0, hread⟩ := hp.read
      obtain ⟨t, htext, -⟩ := nextLexeme_text c cs
      rw [hread] at htext
      have hsplit : piecesText (p :: ps) = c :: (t ++ piecesText ps) := by
        rw [piecesText_cons, htext]
        rfl
      rw [hsplit] at hlex
      cases hlex with
      | @cons _ _ rest y ys hy hrest hlex =>
      -- the first character decides whether there is a token
      have hsame : y.type = none ↔ p.lexeme.type = none := by
        rw [← hy, ← hread, nextLexeme_untyped_iff, nextLexeme_untyped_iff]
      have hfirst : (piecesPlaces (p :: ps))[0]? = some (p.placeOf 0) := by
        have hpos : 0 < p.lexeme.text.length := by rw [htext]; exact Nat.succ_pos _
        rw [piecesPlaces_cons, List.getElem?_append_left (by rw [p.places_length]; exact hpos),
          p.places_getElem? hpos]
      have huncovered : p.kind = .uncovered → p.lexeme.type = none := by
        intro hkind
        by_contra htype
        apply hcovered [] y ys rfl (fun h => htype (hsame.mp h)) _ hfirst
        rw [p.placeOf_index]
        exact hp.place hkind
      have hclean : p.lexeme.Clean := by
        by_cases hkind : p.kind = .uncovered
        · exact ⟨c, cs, h0, hread, Or.inr (huncovered hkind)⟩
        · exact hp.clean hkind
      have hvisible : visibleKinds (p :: ps) = _ := visibleKinds_cons huncovered ps
      have hcons : (y :: ys).filterMap Lexeme.kind = y.kind.toList ++ ys.filterMap Lexeme.kind := by
        cases hkind : y.kind <;> simp [hkind]
      rw [hcons, hvisible] at hkinds
      have hstop : ¬ p.lexeme.RunsOn (piecesText ps) := by
        intro hgo
        by_cases htype : p.lexeme.type = none
        · exact hends.1 htype hgo
        · rw [← hy] at hkinds
          exact kind_ne_of_runsOn hclean hnoNul htype hgo htext _ _ hkinds
      obtain ⟨c', t', htext', hagain⟩ := hclean.again
      obtain ⟨rfl, rfl⟩ := List.cons.inj (htext.symm.trans htext')
      obtain rfl : y = p.lexeme := hy.symm.trans (hagain _ hstop)
      obtain rfl : piecesText ps = rest := by
        rw [htext, List.cons_append] at hrest
        exact List.append_cancel_left (List.cons.inj hrest).2
      obtain ⟨hseamless, hrest⟩ := ih (fun q hq => hsound q (List.mem_cons_of_mem _ hq)) hends.2
        (fun h => hnoNul (List.mem_append_right _ h)) hlex (withoutEol_cancel hkinds) (by
          intro before z after hys hz i hi
          apply hcovered (p.lexeme :: before) z after (by rw [hys]; rfl) hz i
          rw [lexemesText_cons, List.length_append, piecesPlaces_cons, ← p.places_length,
            List.getElem?_append_right (Nat.le_add_right _ _), Nat.add_sub_cancel_left]
          exact hi)
      exact ⟨⟨fun _ => hstop, hseamless⟩, List.forall_mem_cons.mpr ⟨huncovered, hrest⟩⟩

/-! ## What the pieces leave -/

instance (macroList : List Macro) (i : Nat) : Decidable (Outside macroList i) :=
  inferInstanceAs (Decidable (∀ m ∈ macroList, ¬ (m.startIndex ≤ i ∧ i ≤ m.endIndex)))

/-- The tokens that a token outside the definitions is replaced by. -/
def replacedBy (macroList : List Macro) (t : Token) : List Token :=
  match namedMacro macroList t with
  | some m => processedTokens m.content
  | none => [t]

/-- The tokens without those of the definitions. -/
def outsideTokens (macroList : List Macro) (tokens : List Token) : List Token :=
  tokens.filter fun t => Outside macroList t.index

/-- What the tokens should leave when the macros have been expanded. -/
def expandedKinds (macroList : List Macro) (tokens : List Token) :
    List (TokenType × CString) :=
  withoutEol (((outsideTokens macroList tokens).flatMap (replacedBy macroList)).map Token.kind)

/-- Two runs of tokens are expanded one behind the other. -/
theorem expandedKinds_append (macroList : List Macro) (ts ts' : List Token) :
    expandedKinds macroList (ts ++ ts') =
      expandedKinds macroList ts ++ expandedKinds macroList ts' := by
  simp [expandedKinds, outsideTokens]

/-- The first lexeme gives its token, if it has one. -/
theorem tokensFrom_cons (l : Lexer) (x : Lexeme) (zs : List Lexeme) :
    tokensFrom l (x :: zs) = (visitToken (l, x)).toList ++ tokensFrom (l.take x) zs := by
  cases htoken : visitToken (l, x) with
  | none => exact tokensFrom_untyped htoken zs
  | some t => exact tokensFrom_typed htoken zs

/-- A token keeps the type and the string of its lexeme. -/
theorem visitToken_kind (v : Lexer × Lexeme) : (visitToken v).map Token.kind = v.2.kind := by
  rw [visitToken, Option.map_map]
  rfl

/-- The tokens of a content are those of its lexemes. -/
theorem processedTokens_content (content : CString) :
    (processedTokens content).map Token.kind =
      (lexemesOf content.data.length content.data).filterMap Lexeme.kind := by
  obtain ⟨ys, hlex, hkinds⟩ := processedTokens_lexes content
  rw [hkinds, hlex.unique (lexes_lexemesOf (Nat.le_refl _))]

theorem visibleKinds_content (tokens : List Token) (m : Macro) :
    visibleKinds (contentPieces tokens m) = (processedTokens m.content).map Token.kind := by
  have hkind : ∀ p ∈ contentPieces tokens m, p.kind = .uncovered → p.lexeme.type = none := by
    intro p hp h
    rw [piecesAt_kind hp] at h
    cases h
  rw [visibleKinds_eq hkind, contentPieces_lexemes, processedTokens_content]

/-- What comes out of a comment should leave none. -/
theorem visibleKinds_uncovered (i : Nat) (x : Lexeme) :
    visibleKinds (uncoveredPieces i x) = [] := by
  rw [visibleKinds, List.filter_eq_nil_iff.mpr fun p hp => ?_]
  · rfl
  · rw [piecesAt_kind hp]
    decide

section Spliced

variable {source : CString} {macroList : List Macro} {tokens : List Token} {lexer : Lexer}
  {xs : List Lexeme}
  (hvisits : ∀ v ∈ lexer.visits xs, LexerVisit source.data v)
  (hplaced : Placed macroList (lexer.visits xs))

include hvisits hplaced

/-- **The tokens of the pieces** are those of the source, without the
definitions and with the contents in place of the names. -/
theorem Spliced.kinds {zs : List Lexeme} {l : Lexer} {start : Nat} {skips : Bool}
    {ps : List Piece} (h : Spliced macroList tokens l zs start skips ps)
    (hsuffix : l.visits zs <:+ lexer.visits xs) :
    withoutEol (visibleKinds ps) = expandedKinds macroList (tokensFrom l zs) := by
  have hinside : ∀ {l : Lexer} {x : Lexeme}, (l, x) ∈ lexer.visits xs →
      ¬ Outside macroList l.index → expandedKinds macroList (visitToken (l, x)).toList = [] := by
    intro l x hv hin
    cases htoken : visitToken (l, x) with
    | none => rfl
    | some t =>
        have hindex : t.index = l.index := ((hvisits _ hv).token htoken).1
        have hnone : outsideTokens macroList [t] = [] := by
          simp [outsideTokens, hindex, hin]
        rw [Option.toList_some, expandedKinds, hnone]
        rfl
  induction h with
  | nil => rfl
  | @inside l x zs start ps _ hin _ _ ih =>
      rw [tokensFrom_cons, expandedKinds_append, hinside (hsuffix.subset List.mem_cons_self) hin,
        List.nil_append]
      exact ih (suffix_next hsuffix)
  | @definition l x zs start t m ps _ _ _ hm hstart _ _ ih =>
      have hin : ¬ Outside macroList l.index := fun hout => hout.not_start hplaced hm hstart
      rw [tokensFrom_cons, expandedKinds_append, hinside (hsuffix.subset List.mem_cons_self) hin,
        List.nil_append]
      exact ih (suffix_next hsuffix)
  | @kept l x zs start ps _ hout hname _ ih =>
      have hv : (l, x) ∈ lexer.visits xs := hsuffix.subset List.mem_cons_self
      have hone : visibleKinds [⟨x, l.index, .copied⟩] = x.kind.toList := by
        cases hkind : x.kind <;> simp [visibleKinds, hkind]
      rw [tokensFrom_cons, expandedKinds_append, ← ih (suffix_next hsuffix),
        ← List.singleton_append, visibleKinds_append, withoutEol_append, hone,
        ← visitToken_kind (l, x)]
      cases htoken : visitToken (l, x) with
      | none => rfl
      | some t =>
          have hindex : t.index = l.index := ((hvisits _ hv).token htoken).1
          simp [expandedKinds, outsideTokens, hindex, hout, replacedBy, hname t htoken]
  | @name l x zs start t m ps _ hout htoken _ hname _ ih =>
      have hv : (l, x) ∈ lexer.visits xs := hsuffix.subset List.mem_cons_self
      have hindex : t.index = l.index := ((hvisits _ hv).token htoken).1
      have hone : expandedKinds macroList [t] = withoutEol ((processedTokens m.content).map
          Token.kind) := by
        simp [expandedKinds, outsideTokens, hindex, hout, replacedBy, hname]
      rw [tokensFrom_cons, expandedKinds_append, ← ih (suffix_next hsuffix), visibleKinds_append,
        withoutEol_append, htoken, Option.toList_some, hone, visibleKinds_content]
  | @skipped l x zs start ps _ hnext _ ih =>
      have hv : (l, x) ∈ lexer.visits xs := hsuffix.subset List.mem_cons_self
      have hnone : expandedKinds macroList (visitToken (l, x)).toList = [] := by
        cases htoken : visitToken (l, x) with
        | none => rfl
        | some t =>
            have heol := endsLineNext_type hnext htoken
            have hname : namedMacro macroList t = none :=
              hplaced.not_named hv htoken (by rw [heol]; decide)
            by_cases hout : Outside macroList t.index <;>
              simp [expandedKinds, outsideTokens, hout, replacedBy, hname, withoutEol, Token.kind,
                heol]
      rw [tokensFrom_cons, expandedKinds_append, hnone, ← ih (suffix_next hsuffix),
        visibleKinds_append, visibleKinds_uncovered, List.nil_append, List.nil_append]

/-! ## Where the pieces come from -/

/-- What a piece is to the lexemes of the source: a copy of one of them, a part
of a content, or uncovered in a comment. -/
inductive Piece.Origin (macroList : List Macro) (tokens : List Token)
    (vs : List (Lexer × Lexeme)) (p : Piece) : Prop
  | copied {v} (hv : v ∈ vs) (hout : Outside macroList v.1.index) (hlexeme : v.2 = p.lexeme)
      (hindex : v.1.index = p.index) (hkind : p.kind = .copied)
  | content {m} (hm : m ∈ macroList) (hp : p ∈ contentPieces tokens m)
  | uncovered {v} (hv : v ∈ vs) (hcomment : v.2.IsComment)
      (hlexeme : p.lexeme ∈ lexemesOf v.2.text.length v.2.text.tail) (hbegin : v.1.index < p.index)
      (hend : p.index + p.lexeme.text.length ≤ v.1.index + v.2.text.length)
      (hkind : p.kind = .uncovered)

omit hvisits hplaced in
/-- More lexemes are no fewer origins. -/
theorem Piece.Origin.mono {vs ws : List (Lexer × Lexeme)} {p : Piece}
    (h : p.Origin macroList tokens vs) (hsub : vs ⊆ ws) : p.Origin macroList tokens ws := by
  cases h with
  | copied hv hout hlexeme hindex hkind => exact .copied (hsub hv) hout hlexeme hindex hkind
  | content hm hp => exact .content hm hp
  | uncovered hv hcomment hlexeme hbegin hend hkind =>
      exact .uncovered (hsub hv) hcomment hlexeme hbegin hend hkind

omit hplaced in
/-- **Every piece has an origin.** -/
theorem Spliced.origin {zs : List Lexeme} {l : Lexer} {start : Nat} {skips : Bool}
    {ps : List Piece} (h : Spliced macroList tokens l zs start skips ps)
    (hsuffix : l.visits zs <:+ lexer.visits xs) :
    ∀ p ∈ ps, p.Origin macroList tokens (l.visits zs) := by
  induction h with
  | nil => exact nofun
  | inside _ _ _ _ ih =>
      exact fun p hp => (ih (suffix_next hsuffix) p hp).mono (List.subset_cons_self _ _)
  | definition _ _ _ _ _ _ _ ih =>
      exact fun p hp => (ih (suffix_next hsuffix) p hp).mono (List.subset_cons_self _ _)
  | kept _ hout _ _ ih =>
      intro p hp
      rcases List.mem_cons.mp hp with rfl | hp
      · exact .copied List.mem_cons_self hout rfl rfl rfl
      · exact (ih (suffix_next hsuffix) p hp).mono (List.subset_cons_self _ _)
  | name _ _ _ _ hname _ ih =>
      intro p hp
      rcases List.mem_append.mp hp with hp | hp
      · exact .content (namedMacro_some hname).1 hp
      · exact (ih (suffix_next hsuffix) p hp).mono (List.subset_cons_self _ _)
  | @skipped l x zs start ps _ hnext _ ih =>
      intro p hp
      rcases List.mem_append.mp hp with hp | hp
      · have hlexeme : p.lexeme ∈ lexemesOf x.text.length x.text.tail := by
          rw [← uncoveredPieces_lexemes l.index x]
          exact List.mem_map_of_mem hp
        rcases comment_of_endsLine hvisits hsuffix hnext with htail | hcomment
        · rw [htail, lexemesOf_nil] at hlexeme
          cases hlexeme
        · obtain ⟨hle, hend⟩ := piecesAt_index hp
          obtain ⟨t, htext⟩ := hcomment.2
          rw [(uncovered_lexes x).text_eq, htext, List.tail_cons] at hend
          refine .uncovered (v := (l, x)) List.mem_cons_self hcomment hlexeme hle ?_
            (piecesAt_kind hp)
          show _ ≤ l.index + x.text.length
          rw [htext, List.length_cons]
          omega
      · exact (ih (suffix_next hsuffix) p hp).mono (List.subset_cons_self _ _)

omit hvisits in
/-- **What is copied.**  A token outside the definitions that is no name and no
end of a line is copied. -/
theorem Spliced.copied {zs : List Lexeme} {l : Lexer} {start : Nat} {skips : Bool}
    {ps : List Piece} (h : Spliced macroList tokens l zs start skips ps) {v : Lexer × Lexeme}
    (hv : v ∈ l.visits zs) (hout : Outside macroList v.1.index) {t : Token}
    (htoken : visitToken v = some t) (heol : t.type ≠ .eol)
    (hname : namedMacro macroList t = none) : ⟨v.2, v.1.index, .copied⟩ ∈ ps := by
  induction h with
  | nil => cases hv
  | inside _ hin _ _ ih =>
      rcases List.mem_cons.mp hv with rfl | hv
      · exact absurd hout hin
      · exact ih hv
  | definition _ _ _ hm hstart _ _ ih =>
      rcases List.mem_cons.mp hv with rfl | hv
      · exact (hout.not_start hplaced hm hstart).elim
      · exact ih hv
  | kept _ _ _ _ ih =>
      rcases List.mem_cons.mp hv with rfl | hv
      · exact List.mem_cons_self
      · exact List.mem_cons_of_mem _ (ih hv)
  | name _ _ htoken' _ hname' _ ih =>
      rcases List.mem_cons.mp hv with rfl | hv
      · obtain rfl := Option.some.inj (htoken.symm.trans htoken')
        rw [hname] at hname'
        cases hname'
      · exact List.mem_append_right _ (ih hv)
  | skipped _ hnext _ ih =>
      rcases List.mem_cons.mp hv with rfl | hv
      · exact absurd (endsLineNext_type hnext htoken) heol
      · exact List.mem_append_right _ (ih hv)

/-! ## What is uncovered -/

omit hvisits hplaced in
/-- A visit that stands right behind another. -/
theorem visits_next {l : Lexer} {zs : List Lexeme} {before after : List (Lexer × Lexeme)}
    {v w : Lexer × Lexeme} (h : l.visits zs = before ++ v :: w :: after) :
    w.1.index = v.1.index + v.2.text.length := by
  induction zs generalizing l before with
  | nil =>
      have hlength := congrArg List.length h
      simp [Lexer.visits] at hlength
  | cons x zs ih =>
      cases before with
      | cons b before => exact ih (List.cons.inj h).2
      | nil =>
          obtain ⟨rfl, hrest⟩ := List.cons.inj h
          cases zs with
          | nil => cases hrest
          | cons y zs =>
              obtain ⟨rfl, -⟩ := List.cons.inj hrest
              exact take_index l x

/-- A name at the end of its line, and the lexeme right behind it. -/
structure NameThen (macroList : List Macro) (vs : List (Lexer × Lexeme))
    (v w : Lexer × Lexeme) : Prop where
  split : ∃ before after, vs = before ++ v :: w :: after ∧ endsLineNext (w :: after) = true
  outside : Outside macroList v.1.index
  name : ∃ t m, visitToken v = some t ∧ t.type = .identifier ∧ namedMacro macroList t = some m

omit hvisits hplaced in
/-- One more lexeme in front changes nothing. -/
theorem NameThen.behind {vs : List (Lexer × Lexeme)} {u v w : Lexer × Lexeme}
    (h : NameThen macroList vs v w) : NameThen macroList (u :: vs) v w := by
  obtain ⟨before, after, hsplit, hnext⟩ := h.split
  exact ⟨⟨u :: before, after, by rw [hsplit]; rfl, hnext⟩, h.outside, h.name⟩

omit hvisits hplaced in
/-- What is uncovered stands behind a name, or where the first character is
passed over. -/
theorem Spliced.uncovered_from {zs : List Lexeme} {l : Lexer} {start : Nat} {skips : Bool}
    {ps : List Piece} (h : Spliced macroList tokens l zs start skips ps) {p : Piece} (hp : p ∈ ps)
    (hkind : p.kind = .uncovered) :
    (∃ v w, NameThen macroList (l.visits zs) v w ∧
        p.lexeme ∈ lexemesOf w.2.text.length w.2.text.tail) ∨
      skips = true ∧ ∃ x zs', zs = x :: zs' ∧
        p.lexeme ∈ lexemesOf x.text.length x.text.tail := by
  have hbehind : ∀ {l : Lexer} {x : Lexeme} {zs : List Lexeme},
      (∃ v w, NameThen macroList ((l.take x).visits zs) v w ∧
        p.lexeme ∈ lexemesOf w.2.text.length w.2.text.tail) →
      ∃ v w, NameThen macroList (l.visits (x :: zs)) v w ∧
        p.lexeme ∈ lexemesOf w.2.text.length w.2.text.tail :=
    fun ⟨v, w, h, hlexeme⟩ => ⟨v, w, h.behind, hlexeme⟩
  induction h with
  | nil => cases hp
  | inside _ _ _ _ ih =>
      exact Or.inl (hbehind ((ih hp).resolve_right fun h => nomatch h.1))
  | definition _ _ _ _ _ _ _ ih =>
      exact Or.inl (hbehind ((ih hp).resolve_right fun h => nomatch h.1))
  | kept _ _ _ _ ih =>
      rcases List.mem_cons.mp hp with rfl | hp
      · cases hkind
      · exact Or.inl (hbehind ((ih hp).resolve_right fun h => nomatch h.1))
  | @name l x zs start t m ps _ hout htoken htype hname _ ih =>
      rcases List.mem_append.mp hp with hp | hp
      · rw [piecesAt_kind hp] at hkind
        cases hkind
      · rcases ih hp with h | ⟨hnext, y, zs, rfl, hlexeme⟩
        · exact Or.inl (hbehind h)
        · refine Or.inl ⟨(l, x), (l.take x, y), ⟨?_, hout, t, m, htoken, htype, hname⟩, hlexeme⟩
          exact ⟨[], _, rfl, hnext⟩
  | @skipped l x zs start ps _ _ _ ih =>
      rcases List.mem_append.mp hp with hp | hp
      · refine Or.inr ⟨rfl, x, zs, rfl, ?_⟩
        rw [← uncoveredPieces_lexemes l.index x]
        exact List.mem_map_of_mem hp
      · exact Or.inl (hbehind ((ih hp).resolve_right fun h => nomatch h.1))

omit hvisits hplaced in
/-- The name is the first lexeme or one behind it. -/
theorem NameThen.cases_cons {l : Lexer} {x : Lexeme} {zs : List Lexeme} {v w : Lexer × Lexeme}
    (h : NameThen macroList (l.visits (x :: zs)) v w) :
    (v = (l, x) ∧ ∃ y zs', zs = y :: zs' ∧ w = (l.take x, y) ∧
        endsLineNext ((l.take x).visits zs) = true) ∨
      NameThen macroList ((l.take x).visits zs) v w := by
  obtain ⟨before, after, hsplit, hends⟩ := h.split
  cases before with
  | nil =>
      obtain ⟨rfl, hrest⟩ := List.cons.inj hsplit
      cases zs with
      | nil => cases hrest
      | cons y zs =>
          have hends' : endsLineNext ((l.take x).visits (y :: zs)) = true := hrest.symm ▸ hends
          obtain ⟨rfl, -⟩ := List.cons.inj hrest
          exact Or.inl ⟨rfl, y, zs, rfl, rfl, hends'⟩
  | cons b before =>
      exact Or.inr ⟨⟨before, after, (List.cons.inj hsplit).2, hends⟩, h.outside, h.name⟩

omit hvisits in
/-- The characters right behind a name at the end of its line are uncovered. -/
theorem Spliced.uncovered_behind {zs : List Lexeme} {l : Lexer} {start : Nat} {skips : Bool}
    {ps : List Piece} (h : Spliced macroList tokens l zs start skips ps) {v w : Lexer × Lexeme}
    (hthen : NameThen macroList (l.visits zs) v w) {y : Lexeme}
    (hy : y ∈ lexemesOf w.2.text.length w.2.text.tail) :
    ∃ p ∈ ps, p.kind = .uncovered ∧ p.lexeme = y := by
  induction h with
  | nil =>
      obtain ⟨before, after, hsplit, -⟩ := hthen.split
      have hlength := congrArg List.length hsplit
      simp [Lexer.visits] at hlength
  | inside _ hin _ _ ih =>
      rcases hthen.cases_cons with ⟨rfl, -⟩ | hthen'
      · exact absurd hthen.outside hin
      · exact ih hthen'
  | definition _ _ _ hm hstart _ _ ih =>
      rcases hthen.cases_cons with ⟨rfl, -⟩ | hthen'
      · exact (hthen.outside.not_start hplaced hm hstart).elim
      · exact ih hthen'
  | kept _ _ hname _ ih =>
      rcases hthen.cases_cons with ⟨rfl, -⟩ | hthen'
      · obtain ⟨t, m, htoken, -, hsome⟩ := hthen.name
        rw [hname t htoken] at hsome
        cases hsome
      · obtain ⟨p, hp, h⟩ := ih hthen'
        exact ⟨p, List.mem_cons_of_mem _ hp, h⟩
  | @name l x zs start t m ps _ _ _ _ _ rest ih =>
      rcases hthen.cases_cons with ⟨rfl, z, zs', rfl, rfl, hends⟩ | hthen'
      · rw [hends] at rest
        cases rest with
        | skipped _ _ rest =>
            rw [← uncoveredPieces_lexemes (l.take x).index z] at hy
            obtain ⟨p, hp, hlexeme⟩ := List.mem_map.mp hy
            refine ⟨p, ?_, piecesAt_kind hp, hlexeme⟩
            exact List.mem_append_right _ (List.mem_append_left _ hp)
      · obtain ⟨p, hp, h⟩ := ih hthen'
        exact ⟨p, List.mem_append_right _ hp, h⟩
  | skipped _ hends _ ih =>
      rcases hthen.cases_cons with ⟨rfl, -⟩ | hthen'
      · obtain ⟨t, m, htoken, htype, -⟩ := hthen.name
        have heol := endsLineNext_type hends htoken
        rw [htype] at heol
        cases heol
      · obtain ⟨p, hp, h⟩ := ih hthen'
        exact ⟨p, List.mem_append_right _ hp, h⟩

end Spliced

end Assembler
