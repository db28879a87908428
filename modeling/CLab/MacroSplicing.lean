import CLab.RecordedMacros
import CLab.SplicedTokens

/-!
# What the expansion of the macros gives

The tokens of the expanded text are those of the source without the definitions
and with the contents in place of the names, no text of a comment becomes a
token, and the end of the file is kept, exactly when the lexer gets started, the
last end of file is in no definition, no name is followed by a comment that
leaves a token without its first character, and no token that stays is continued
by what comes to stand behind it: `LexerInput.macrosSpliced_iff`.
-/

namespace Assembler

/-! ## The statement -/

/-- The text that `preprocessor_expand_macros` writes, with its places. -/
def tracedExpansion (preprocessor : Preprocessor) (source : CString) : TracedExpansion :=
  tracedLoop preprocessor.macroList preprocessor.tokens source
    { expansion :=
        { index := 0
          currentToken := preprocessor.tokens
          processedSource := preprocessor.processedSource }
      places := [] }

/-- The macros of a source have been expanded: the tokens of the new text are
the expected ones, none of them has a character of a comment of the source, and
one of them is the last end of file of the source. -/
structure MacrosSpliced (source : CString) (tokens : List Token) (macroList : List Macro)
    (processedSource : CString) (places : List Place) : Prop where
  kinds : withoutEol ((processedTokens processedSource).map Token.kind) =
    expandedKinds macroList tokens
  comments : ∀ t ∈ processedTokens processedSource, ∀ k < spanLength t, ∃ place,
    places[t.index + k]? = some place ∧ ¬ InComment source.data tokens place.index
  endOfFile : ∀ t, (tokens.filter fun t => t.type = .eoft).getLast? = some t →
    ∃ u ∈ processedTokens processedSource, u.type = .eoft ∧
      places[u.index]? = some (.copied t.index)

/-- The text of a comment from a place on. -/
def commentText (source : CString) (i : Nat) : CString :=
  stringCreateFromCstr
    ((source.data.drop i).takeWhile fun d => d != eofChar && d != '\n'.toUInt8)

/-- A name outside the definitions is the last token of its line, and a comment
begins right behind it. -/
structure NameThenComment (macroList : List Macro) (source : CString) (tokens : List Token)
    (t : Token) : Prop where
  outside : Outside macroList t.index
  name : namedMacro macroList t ≠ none
  line : ∃ before newline after, tokens = before ++ t :: newline :: after ∧ newline.type = .eol
  comment : source.data[t.index + spanLength t]? = some ';'.toUInt8

/-- Where the expansion goes right. -/
structure SplicesCleanly (input : LexerInput) (macroList : List Macro) : Prop where
  begun : input.lexer.currentChar = 0 → input.source.data = []
  ending : ∀ t, (input.tokens.filter fun t => t.type = .eoft).getLast? = some t →
    Outside macroList t.index
  comments : ∀ t, NameThenComment macroList input.source input.tokens t →
    processedTokens (commentText input.source (t.index + spanLength t + 1)) = []
  seams : ∀ t ∈ input.tokens, Outside macroList t.index → namedMacro macroList t = none →
    ¬ Continued macroList input.source input.tokens t

/-! ## Comments -/

section Comments

variable {source : CString} {lexer : Lexer} {xs : List Lexeme}
  (hvisits : ∀ v ∈ lexer.visits xs, LexerVisit source.data v)

include hvisits

/-- Behind its first character a comment has no line end. -/
theorem comment_tail {v : Lexer × Lexeme} (hv : v ∈ lexer.visits xs) (hcomment : v.2.IsComment) :
    v.2.text.tail = (source.data.drop (v.1.index + 1)).takeWhile
      fun d => d != eofChar && d != '\n'.toUInt8 := by
  obtain ⟨c, cs, hdrop, hread⟩ := (hvisits v hv).ahead
  obtain ⟨t, htext⟩ := hcomment.2
  obtain ⟨t', htext', -⟩ := nextLexeme_text c cs
  rw [hread, htext] at htext'
  obtain rfl := (List.cons.inj htext').1
  rw [nextLexeme_semicolon] at hread
  rw [← List.drop_drop, hdrop, List.drop_one, List.tail_cons, ← hread, List.tail_cons]

/-- The characters of a comment are in a comment. -/
theorem inComment_of_visit {v : Lexer × Lexeme} (hv : v ∈ lexer.visits xs)
    (hcomment : v.2.IsComment) {i : Nat}
    (hi : v.1.index ≤ i ∧ i < v.1.index + v.2.text.length) :
    InComment source.data (tokensFrom lexer xs) i := by
  obtain ⟨htype, t, htext⟩ := hcomment
  have hvisit := hvisits v hv
  have hpos := hvisit.text_pos
  have htail := comment_tail hvisits hv ⟨htype, t, htext⟩
  rw [htext, List.tail_cons] at htail
  refine ⟨v.1.index, hi.1, ?_, ?_, ?_⟩
  · have hget := hvisit.getElem? hpos
    rw [htext] at hget
    exact hget
  · exact not_inSpan_of_untyped hvisits hv htype ⟨Nat.le_refl _, by omega⟩
  · intro j hj hji
    obtain ⟨k, rfl⟩ := Nat.exists_eq_add_of_le hj
    rw [hvisit.getElem? (by omega), htext]
    cases k with
    | zero =>
        rw [List.getElem?_cons_zero]
        exact ⟨by decide, by decide⟩
    | succ k =>
        rw [htext, List.length_cons] at hi
        have hk : k < t.length := by omega
        have hall : ∀ d ∈ t, (d != eofChar && d != '\n'.toUInt8) = true := by
          intro d hd
          rw [htail] at hd
          have hchar := List.mem_takeWhile_imp hd
          exact hchar
        have hchar := hall _ (List.getElem_mem hk)
        rw [List.getElem?_cons_succ, List.getElem?_eq_getElem hk]
        simp only [Bool.and_eq_true, bne_iff_ne, ne_eq] at hchar
        exact ⟨fun h => hchar.2 (Option.some.inj h), fun h => hchar.1 (Option.some.inj h)⟩

/-- A character in a comment is in no token. -/
theorem not_inSpan_of_inComment (hcover : (lexemesText xs) = source.data)
    (hstart : lexer.index = 0) {i : Nat}
    (h : InComment source.data (tokensFrom lexer xs) i) : ¬ InSpan (tokensFrom lexer xs) i := by
  obtain ⟨start, hle, hchar, hout, hline⟩ := h
  have hlt : start < source.data.length := (List.getElem?_eq_some_iff.mp hchar).1
  obtain ⟨v, hv, hin⟩ := visits_cover lexer xs (i := start) (by omega)
    (by rw [hstart, hcover]; omega)
  have hvisit := hvisits v hv
  have htype : v.2.type = none := by
    by_contra htype
    obtain ⟨type, htype⟩ := Option.ne_none_iff_exists'.mp htype
    have htoken : visitToken v = some (v.2.tokenAt v.1 type) := by
      rw [visitToken, htype, Option.map_some]
    obtain ⟨hindex, hspan, -⟩ := hvisit.token htoken
    refine hout ⟨_, List.mem_filterMap.mpr ⟨v, hv, htoken⟩, ?_⟩
    rw [hindex, hspan]
    exact hin
  intro hfacts
  obtain ⟨t, ht, hti⟩ := hfacts
  obtain ⟨w, hw, htoken⟩ := List.mem_filterMap.mp ht
  obtain ⟨hindex, hspan, -⟩ := (hvisits w hw).token htoken
  rw [hindex, hspan] at hti
  -- the comment goes on up to the character
  have hbeyond : i < v.1.index + v.2.text.length := by
    by_contra hge
    have hend := (hvisits w hw).end_le
    have hlt : v.1.index + v.2.text.length < source.data.length := by omega
    rcases hvisit.untyped htype with hcomment | ⟨c, -, htext, hsingle⟩
    · obtain ⟨hnewline, heof⟩ := hline (v.1.index + v.2.text.length) (by omega) (by omega)
      have hget := List.getElem?_eq_getElem hlt
      rcases hvisit.behind_comment hcomment hget with h | h
      · rw [hget, h] at hnewline
        exact hnewline rfl
      · rw [hget, h] at heof
        exact heof rfl
    · rw [htext, List.length_singleton] at hin
      obtain rfl : start = v.1.index + 0 := by omega
      rw [hvisit.getElem? hvisit.text_pos, htext] at hchar
      obtain rfl : c = ';'.toUInt8 := Option.some.inj hchar
      exact absurd (hsingle ' '.toUInt8) (by decide)
  obtain rfl := visits_disjoint hv hw ⟨by omega, hbeyond⟩ hti
  rw [visitToken, htype] at htoken
  cases htoken

/-- The lexemes behind the first character of a comment have a token if its
text has one. -/
theorem comment_silent_iff {v : Lexer × Lexeme} (hv : v ∈ lexer.visits xs)
    (hcomment : v.2.IsComment) :
    (∀ y ∈ lexemesOf v.2.text.length v.2.text.tail, y.type = none) ↔
      processedTokens (commentText source (v.1.index + 1)) = [] := by
  have htail := comment_tail hvisits hv hcomment
  have hnoNul : 0 ∉ v.2.text.tail := fun h =>
    (hvisits v hv).text_noNul (List.mem_of_mem_tail h)
  have hdata : (commentText source (v.1.index + 1)).data = v.2.text.tail := by
    rw [commentText, ← htail, fromCstr_noNul hnoNul]
  have hlex : Lexes v.2.text.tail (lexemesOf v.2.text.length v.2.text.tail) :=
    lexes_lexemesOf (by rw [List.length_tail]; omega)
  have hkinds := processedTokens_content (commentText source (v.1.index + 1))
  rw [hdata, (lexes_lexemesOf (Nat.le_refl _)).unique hlex] at hkinds
  rw [← List.map_eq_nil_iff (f := Token.kind), hkinds, List.filterMap_eq_nil_iff]
  simp only [Lexeme.kind, Option.map_eq_none_iff]

/-- The two lexemes of a name at the end of its line and of what is behind it,
from the tokens. -/
theorem NameThenComment.nameThen {macroList : List Macro} {t : Token}
    (hplaced : Placed macroList (lexer.visits xs))
    (h : NameThenComment macroList source (tokensFrom lexer xs) t) :
    ∃ v w, NameThen macroList (lexer.visits xs) v w ∧ w ∈ lexer.visits xs ∧ w.2.IsComment ∧
      w.1.index = t.index + spanLength t := by
  obtain ⟨before, newline, after, hsplit, heol⟩ := h.line
  obtain ⟨front, back, hvs, -, hback⟩ := List.filterMap_eq_append_iff.mp hsplit
  obtain ⟨between, v, rest, rfl, -, htoken, hrest⟩ := List.filterMap_eq_cons_iff.mp hback
  obtain ⟨w, rest, rfl⟩ : ∃ w rest', rest = w :: rest' := by
    cases rest with
    | nil => cases hrest
    | cons w rest => exact ⟨w, rest, rfl⟩
  rw [← List.append_assoc] at hvs
  have hv : v ∈ lexer.visits xs := by rw [hvs]; simp
  have hw : w ∈ lexer.visits xs := by rw [hvs]; simp
  obtain ⟨hindex, hspan, -⟩ := (hvisits v hv).token htoken
  have hnext : w.1.index = t.index + spanLength t := by
    rw [visits_next hvs, hindex, hspan]
  obtain ⟨m, hname⟩ := Option.ne_none_iff_exists'.mp h.name
  obtain ⟨hm, hstring⟩ := namedMacro_some hname
  refine ⟨v, w, ⟨⟨_, rest, hvs, ?_⟩, ?_, t, m, htoken, ?_, hname⟩, hw, ?_, hnext⟩
  · rw [endsLineNext, hrest]
    exact decide_eq_true heol
  · rw [← hindex]
    exact h.outside
  · exact hplaced.named m hm v hv t htoken hstring
  · obtain ⟨c, cs, hdrop, hread⟩ := (hvisits w hw).ahead
    have hc : source.data[w.1.index]? = some c := by
      rw [← Nat.add_zero w.1.index, ← List.getElem?_drop, hdrop]
      rfl
    rw [hnext, h.comment] at hc
    obtain rfl := Option.some.inj hc
    rw [← hread, nextLexeme_semicolon]
    exact ⟨rfl, _, rfl⟩

/-- A lexeme that a name at the end of its line uncovers is in a comment. -/
theorem NameThen.nameThenComment {macroList : List Macro} {v w : Lexer × Lexeme}
    (h : NameThen macroList (lexer.visits xs) v w) (htail : w.2.text.tail ≠ []) :
    ∃ t, NameThenComment macroList source (tokensFrom lexer xs) t ∧ w ∈ lexer.visits xs ∧
      w.2.IsComment ∧ w.1.index = t.index + spanLength t := by
  obtain ⟨before, after, hvs, hnext⟩ := h.split
  obtain ⟨t, m, htoken, -, hname⟩ := h.name
  have hv : v ∈ lexer.visits xs := by rw [hvs]; simp
  have hw : w ∈ lexer.visits xs := by rw [hvs]; simp
  obtain ⟨hindex, hspan, -⟩ := (hvisits v hv).token htoken
  have hplace : w.1.index = t.index + spanLength t := by
    rw [visits_next hvs, hindex, hspan]
  have hcomment : w.2.IsComment := by
    cases hwtoken : visitToken w with
    | none =>
        rcases (hvisits w hw).untyped (Option.map_eq_none_iff.mp hwtoken) with
          hcomment | ⟨c, -, htext, -⟩
        · exact hcomment
        · rw [htext] at htail
          exact absurd rfl htail
    | some u =>
        rw [endsLineNext, List.filterMap_cons_some hwtoken] at hnext
        have heol : u.type = .eol := of_decide_eq_true hnext
        rw [(hvisits w hw).text_of_eol hwtoken heol] at htail
        exact absurd rfl htail
  have hnamed : namedMacro macroList t ≠ none := by
    rw [hname]
    exact Option.some_ne_none _
  refine ⟨t, ⟨by rw [hindex]; exact h.outside, hnamed, ?_, ?_⟩, hw, hcomment, hplace⟩
  · cases hbehind : (w :: after).filterMap visitToken with
    | nil =>
        rw [endsLineNext, hbehind] at hnext
        cases hnext
    | cons newline rest =>
        refine ⟨before.filterMap visitToken, newline, rest, ?_, ?_⟩
        · rw [tokensFrom, hvs, List.filterMap_append, List.filterMap_cons_some htoken, hbehind]
        · rw [endsLineNext, hbehind] at hnext
          exact of_decide_eq_true hnext
  · obtain ⟨s, htext⟩ := hcomment.2
    have hget := (hvisits w hw).getElem? (hvisits w hw).text_pos
    rw [Nat.add_zero, hplace, htext] at hget
    exact hget

/-- No token has been uncovered exactly when the comments right behind names
leave none. -/
theorem Spliced.uncovered_iff {macroList : List Macro}
    (hplaced : Placed macroList (lexer.visits xs)) {ps : List Piece}
    (h : Spliced macroList (tokensFrom lexer xs) lexer xs 0 false ps) :
    (∀ p ∈ ps, p.kind = .uncovered → p.lexeme.type = none) ↔
      ∀ t, NameThenComment macroList source (tokensFrom lexer xs) t →
        processedTokens (commentText source (t.index + spanLength t + 1)) = [] := by
  constructor
  · intro huncovered t ht
    obtain ⟨v, w, hthen, hw, hcomment, hplace⟩ := ht.nameThen hvisits hplaced
    rw [← hplace, ← comment_silent_iff hvisits hw hcomment]
    intro y hy
    obtain ⟨p, hp, hunc, rfl⟩ := h.uncovered_behind hplaced hthen hy
    exact huncovered p hp hunc
  · intro hcomments p hp hunc
    rcases h.uncovered_from hp hunc with ⟨v, w, hthen, hlexeme⟩ | ⟨hskips, -⟩
    · have htail : w.2.text.tail ≠ [] := by
        intro htail
        rw [htail, lexemesOf_nil] at hlexeme
        cases hlexeme
      obtain ⟨t, ht, hw, hcomment, hplace⟩ := hthen.nameThenComment hvisits htail
      have hsilent := hcomments t ht
      rw [← hplace, ← comment_silent_iff hvisits hw hcomment] at hsilent
      exact hsilent _ hlexeme
    · cases hskips

end Comments

/-! ## The tokens of the new text -/

/-- The lexer over the new text. -/
theorem processedTokens_run (text : CString) : ∃ lexer ys, lexer.index = 0 ∧ Lexes text.data ys ∧
    (∀ v ∈ lexer.visits ys, LexerVisit text.data v) ∧
    processedTokens text = tokensFrom lexer ys := by
  have hstart := (LexerInput.string "from_string.am" text).atStart
  have hdata : (LexerInput.string "from_string.am" text).source.data = text.data :=
    stringAppend_data _ _
  obtain ⟨ys, hlex, heq⟩ := lexerAnalyze_eq
    (show (LexerInput.string "from_string.am" text).lexer.Synced from rfl)
  refine ⟨_, ys, hstart.index, ?_, ?_, ?_⟩
  · rw [hstart.rest_eq] at hlex
    exact hdata ▸ hlex
  · intro v hv
    exact hdata ▸ visits_lexerVisit hlex v hv
  · have htokens : processedTokens text =
        (lexerAnalyze (LexerInput.string "from_string.am" text).lexer).tokenList := rfl
    rw [htokens, heq, takeAll_tokenList, hstart.tokenList, List.nil_append,
      placeTokens_eq_visits]
    rfl

/-- A token and the lexeme it is the token of. -/
theorem mem_tokensFrom {text : CString} {lexer : Lexer} {ys : List Lexeme}
    (hstart : lexer.index = 0) (hvisits : ∀ v ∈ lexer.visits ys, LexerVisit text.data v)
    {t : Token} (ht : t ∈ tokensFrom lexer ys) :
    ∃ before y after, ys = before ++ y :: after ∧ y.type = some t.type ∧
      t.index = (lexemesText before).length ∧ spanLength t = y.text.length ∧
      0 < y.text.length := by
  obtain ⟨v, hv, htoken⟩ := List.mem_filterMap.mp ht
  obtain ⟨hindex, hspan, -⟩ := (hvisits v hv).token htoken
  obtain ⟨before, after, hsplit, hlexer⟩ := mem_visits hv
  obtain ⟨type, htype, rfl⟩ := Option.map_eq_some_iff.mp htoken
  refine ⟨before, v.2, after, hsplit, htype, ?_, hspan, (hvisits v hv).text_pos⟩
  rw [hindex, hlexer, takeAll_index, hstart, Nat.zero_add]

/-- The token of a lexeme. -/
theorem tokensFrom_mem {lexer : Lexer} (hstart : lexer.index = 0) (before : List Lexeme)
    {y : Lexeme} {type : TokenType} (htype : y.type = some type) (after : List Lexeme) :
    ∃ t ∈ tokensFrom lexer (before ++ y :: after), t.type = type ∧
      t.index = (lexemesText before).length := by
  refine ⟨y.tokenAt (lexer.takeAll before) type, ?_, rfl, ?_⟩
  · refine List.mem_filterMap.mpr ⟨_, visits_mem before y after, ?_⟩
    rw [visitToken, htype, Option.map_some]
  · show (lexer.takeAll before).index = _
    rw [takeAll_index, hstart, Nat.zero_add]

/-- The place of a character of a piece. -/
theorem piecesPlaces_at (before : List Piece) (p : Piece) (after : List Piece) {k : Nat}
    (hk : k < p.lexeme.text.length) :
    (piecesPlaces (before ++ p :: after))[(piecesText before).length + k]? =
      some (p.placeOf k) := by
  rw [piecesPlaces_append, ← piecesPlaces_length, List.getElem?_append_right (Nat.le_add_right _ _),
    Nat.add_sub_cancel_left, piecesPlaces_cons,
    List.getElem?_append_left (by rw [p.places_length]; exact hk), p.places_getElem? hk]

theorem piecesText_eq (ps : List Piece) : lexemesText (ps.map Piece.lexeme) = piecesText ps := rfl

/-- A place of the text belongs to a piece. -/
theorem piece_of_place {ps : List Piece} {place : Place} (h : place ∈ piecesPlaces ps) :
    ∃ p ∈ ps, ∃ k < p.lexeme.text.length, p.placeOf k = place := by
  obtain ⟨p, hp, hplace⟩ := List.mem_flatMap.mp h
  obtain ⟨k, hk, hplace⟩ := List.mem_map.mp hplace
  exact ⟨p, hp, k, List.mem_range.mp hk, hplace⟩

section Run

variable {lexer : Lexer} {xs : List Lexeme} (hrun : CleanRun lexer xs) {macroList : List Macro}
  (hplaced : Placed macroList (lexer.visits xs))
  (hrecorded : ∀ m ∈ macroList, m.Recorded lexer.sourceCode (tokensFrom lexer xs))
  {ps : List Piece} (hspliced : Spliced macroList (tokensFrom lexer xs) lexer xs 0 false ps)

include hrun hrecorded hspliced

/-- A piece that has not been uncovered is a lexeme of the source. -/
theorem Spliced.piece_visit {p : Piece} (hp : p ∈ ps) (hkind : p.kind ≠ .uncovered) :
    ∃ v ∈ lexer.visits xs, v.2 = p.lexeme ∧ v.1.index = p.index := by
  cases hspliced.origin hrun.visits List.suffix_rfl p hp with
  | copied hv _ hlexeme hindex _ => exact ⟨_, hv, hlexeme, hindex⟩
  | content hm hp => exact hrun.content_visit (hrecorded _ hm) hp
  | uncovered _ _ _ _ _ hkind' => exact absurd hkind' hkind

/-- Every piece was read somewhere. -/
theorem Spliced.sound :
    ∀ p ∈ ps, p.Sound (InComment lexer.sourceCode.data (tokensFrom lexer xs)) := by
  intro p hp
  by_cases hkind : p.kind = .uncovered
  · cases hspliced.origin hrun.visits List.suffix_rfl p hp with
    | copied _ _ _ _ hkind' =>
        rw [hkind] at hkind'
        cases hkind'
    | content _ hp =>
        rw [piecesAt_kind hp] at hkind
        cases hkind
    | @uncovered v hv hcomment hlexeme hbegin hend _ =>
        have hlex := uncovered_lexes v.2
        have hnoNul : 0 ∉ v.2.text.tail := fun h =>
          (hrun.visits v hv).text_noNul (List.mem_of_mem_tail h)
        have hpos := hlex.text_pos p.lexeme hlexeme
        refine ⟨hlex.read hnoNul p.lexeme hlexeme, fun h => absurd hkind h, fun _ => ?_⟩
        exact inComment_of_visit hrun.visits hv hcomment ⟨by omega, by omega⟩
  · obtain ⟨v, hv, hlexeme, -⟩ := hspliced.piece_visit hrun hrecorded hp hkind
    have hclean := hrun.visit_clean v hv
    rw [hlexeme] at hclean
    obtain ⟨c, cs, h0, hread, -⟩ := id hclean
    exact ⟨⟨c, cs, h0, hread⟩, fun _ => hclean, fun h => absurd h hkind⟩

include hplaced

/-- Where no token has been uncovered and no piece runs on, the lexer finds the
pieces. -/
theorem Spliced.lexes (huncovered : ∀ p ∈ ps, p.kind = .uncovered → p.lexeme.type = none)
    (hseams : ∀ t ∈ tokensFrom lexer xs, Outside macroList t.index →
      namedMacro macroList t = none →
      ¬ Continued macroList lexer.sourceCode (tokensFrom lexer xs) t) :
    Lexes (piecesText ps) (ps.map Piece.lexeme) := by
  have hseamless := (hspliced.seamless_iff hrun.visits hplaced
    (fun m hm => hrun.endsLine (hrecorded m hm)) List.suffix_rfl hrun.end_eq huncovered).mpr hseams
  refine hseamless.lexes fun y hy => ?_
  obtain ⟨p, hp, rfl⟩ := List.mem_map.mp hy
  have hsound := hspliced.sound hrun hrecorded p hp
  by_cases hkind : p.kind = .uncovered
  · obtain ⟨c, cs, h0, hread⟩ := hsound.read
    exact ⟨c, cs, h0, hread, Or.inr (huncovered p hp hkind)⟩
  · exact hsound.clean hkind

variable {text : CString} (htext : text.data = piecesText ps)

include htext

/-- **The expansion goes right** where nothing goes wrong at its seams. -/
theorem Spliced.macrosSpliced
    (hending : ∀ t, ((tokensFrom lexer xs).filter fun t => t.type = .eoft).getLast? = some t →
      Outside macroList t.index)
    (hcomments : ∀ t, NameThenComment macroList lexer.sourceCode (tokensFrom lexer xs) t →
      processedTokens (commentText lexer.sourceCode (t.index + spanLength t + 1)) = [])
    (hseams : ∀ t ∈ tokensFrom lexer xs, Outside macroList t.index →
      namedMacro macroList t = none →
      ¬ Continued macroList lexer.sourceCode (tokensFrom lexer xs) t) :
    MacrosSpliced lexer.sourceCode (tokensFrom lexer xs) macroList text (piecesPlaces ps) := by
  have huncovered := (hspliced.uncovered_iff hrun.visits hplaced).mpr hcomments
  have hlex := hspliced.lexes hrun hplaced hrecorded huncovered hseams
  obtain ⟨out, ys, hstart, hys, hvisits, htokens⟩ := processedTokens_run text
  rw [htext] at hys
  obtain rfl := hlex.unique hys
  refine ⟨?_, ?_, ?_⟩
  · rw [htokens, tokensFrom, ← placeTokens_eq_visits, placeTokens_kind,
      ← visibleKinds_eq huncovered]
    exact hspliced.kinds hrun.visits hplaced List.suffix_rfl
  · intro t ht k hk
    rw [htokens] at ht
    obtain ⟨before, y, after, hsplit, htype, hindex, hspan, -⟩ :=
      mem_tokensFrom hstart hvisits ht
    obtain ⟨before, rest, rfl, rfl, hrest⟩ := List.map_eq_append_iff.mp hsplit
    obtain ⟨p, after, rfl, rfl, rfl⟩ := List.map_eq_cons_iff.mp hrest
    rw [hspan] at hk
    rw [hindex, piecesText_eq]
    refine ⟨_, piecesPlaces_at before p after hk, fun hcomment => ?_⟩
    have hkind : p.kind ≠ .uncovered := by
      intro hkind
      rw [huncovered p (by simp) hkind] at htype
      cases htype
    -- the piece is a token of the source
    obtain ⟨v, hv, hlexeme, hvindex⟩ := hspliced.piece_visit hrun hrecorded (by simp) hkind
    have htoken : visitToken v = some (v.2.tokenAt v.1 t.type) := by
      rw [visitToken, hlexeme, htype, Option.map_some]
    obtain ⟨htindex, htspan, -⟩ := (hrun.visits v hv).token htoken
    refine not_inSpan_of_inComment hrun.visits hrun.lexes.text_eq hrun.start hcomment
      ⟨_, List.mem_filterMap.mpr ⟨v, hv, htoken⟩, ?_⟩
    rw [htindex, htspan, hlexeme, hvindex, p.placeOf_index]
    omega
  · intro t ht
    have hout := hending t ht
    obtain ⟨hmem, heof⟩ := List.mem_filter.mp (List.mem_of_getLast? ht)
    have heof : t.type = .eoft := of_decide_eq_true heof
    obtain ⟨v, hv, htoken⟩ := List.mem_filterMap.mp hmem
    obtain ⟨hindex, -⟩ := (hrun.visits v hv).token htoken
    have hname : namedMacro macroList t = none :=
      hplaced.not_named hv htoken (by rw [heof]; decide)
    rw [hindex] at hout
    have hp := hspliced.copied hplaced hv hout htoken (by rw [heof]; decide) hname
    obtain ⟨before, after, rfl⟩ := List.append_of_mem hp
    have htype : v.2.type = some .eoft := by
      obtain ⟨type, htype, rfl⟩ := Option.map_eq_some_iff.mp htoken
      rw [htype]
      exact congrArg some heof
    rw [htokens, List.map_append, List.map_cons]
    obtain ⟨u, hu, hutype, huindex⟩ := tokensFrom_mem hstart (before.map Piece.lexeme) htype
      (after.map Piece.lexeme)
    refine ⟨u, hu, hutype, ?_⟩
    have hplace := piecesPlaces_at before ⟨v.2, v.1.index, .copied⟩ after
      (k := 0) (hrun.visits v hv).text_pos
    rw [huindex, piecesText_eq, hindex]
    exact hplace

/-- **Nothing goes wrong at the seams** where the expansion goes right. -/
theorem Spliced.seams
    (h : MacrosSpliced lexer.sourceCode (tokensFrom lexer xs) macroList text (piecesPlaces ps)) :
    Seamless (ps.map Piece.lexeme) ∧
      ∀ p ∈ ps, p.kind = .uncovered → p.lexeme.type = none := by
  have hends : ∀ m ∈ macroList, m.EndsLine := fun m hm => hrun.endsLine (hrecorded m hm)
  obtain ⟨out, ys, hstart, hys, hvisits, htokens⟩ := processedTokens_run text
  rw [htext] at hys
  refine pieces_seamless (hspliced.sound hrun hrecorded)
    (hspliced.commentsEnd hrun.visits hplaced hends List.suffix_rfl hrun.end_eq) ?_ hys ?_ ?_
  · rw [← htext]
    exact text.noNul
  · have hkinds := h.kinds
    rw [htokens, tokensFrom, ← placeTokens_eq_visits, placeTokens_kind] at hkinds
    rw [hkinds, hspliced.kinds hrun.visits hplaced List.suffix_rfl]
  · intro before y after heq htype place hplace
    obtain rfl := heq
    obtain ⟨type, htype⟩ := Option.ne_none_iff_exists'.mp htype
    obtain ⟨t, ht, -, hindex⟩ := tokensFrom_mem hstart before htype after
    obtain ⟨before', y', after', -, -, -, hspan, hpos⟩ := mem_tokensFrom hstart hvisits ht
    rw [← htokens] at ht
    obtain ⟨place', hplace', hout⟩ := h.comments t ht 0 (by rw [hspan]; exact hpos)
    rw [Nat.add_zero, hindex, hplace] at hplace'
    obtain rfl := Option.some.inj hplace'
    exact hout

omit hplaced hrecorded htext in
/-- **The last end of file is in no definition** where it is kept. -/
theorem Spliced.ending
    (h : MacrosSpliced lexer.sourceCode (tokensFrom lexer xs) macroList text (piecesPlaces ps))
    {t : Token} (ht : ((tokensFrom lexer xs).filter fun t => t.type = .eoft).getLast? = some t) :
    Outside macroList t.index := by
  obtain ⟨u, -, -, hplace⟩ := h.endOfFile t ht
  obtain ⟨p, hp, k, hk, hplace⟩ := piece_of_place (List.mem_of_getElem? hplace)
  have hindex := congrArg Place.index hplace
  rw [p.placeOf_index] at hindex
  obtain ⟨hmem, -⟩ := List.mem_filter.mp (List.mem_of_getLast? ht)
  obtain ⟨w, hw, htoken⟩ := List.mem_filterMap.mp hmem
  obtain ⟨hwindex, -⟩ := (hrun.visits w hw).token htoken
  have hindex' : p.index + k = w.1.index := hindex.trans hwindex
  have hpos := (hrun.visits w hw).text_pos
  cases hspliced.origin hrun.visits List.suffix_rfl p hp with
  | @copied v hv hout hlexeme hvindex _ =>
      rw [← hlexeme] at hk
      obtain rfl := visits_disjoint hv hw (i := w.1.index) (by omega) (by omega)
      rwa [hwindex]
  | content _ hp =>
      rw [Piece.placeOf, if_pos (piecesAt_kind hp)] at hplace
      cases hplace
  | @uncovered v hv hcomment _ hbegin hend _ =>
      obtain rfl := visits_disjoint hv hw (i := w.1.index) (by omega) (by omega)
      rw [visitToken, hcomment.1] at htoken
      cases htoken

end Run

/-! ## Any source -/

/-- A run without errors that gets started goes over the whole source. -/
theorem LexerInput.exists_cleanRun (input : LexerInput) (hclean : input.errors = [])
    (hbegun : input.lexer.currentChar = 0 → input.source.data = []) :
    ∃ xs, CleanRun input.lexer xs ∧ input.tokens = tokensFrom input.lexer xs := by
  rcases input.synced_or_nothing with hs | ⟨-, hchar⟩
  · obtain ⟨xs, hlex, heq⟩ := lexerAnalyze_eq hs
    rw [input.atStart.rest_eq] at hlex
    refine ⟨xs, ⟨input.atStart.index, hlex, fun x hx => ?_⟩, ?_⟩
    · rw [LexerInput.errors, heq, takeAll_errorList, input.atStart.errorList,
        List.nil_append] at hclean
      obtain ⟨before, after, rfl⟩ := List.append_of_mem hx
      have herror := List.filterMap_eq_nil_iff.mp hclean _ (visits_mem before x after)
      exact Option.map_eq_none_iff.mp herror
    · rw [LexerInput.tokens, heq, takeAll_tokenList, input.atStart.tokenList, List.nil_append,
        placeTokens_eq_visits]
      rfl
  · have hexit : lexerAnalyze input.lexer = input.lexer :=
      While.loop_exit (by rw [hchar]; rfl)
    refine ⟨[], ⟨input.atStart.index, ?_, fun _ hx => absurd hx List.not_mem_nil⟩, ?_⟩
    · show Lexes input.source.data []
      rw [hbegun hchar]
      exact Lexes.nil
    · rw [LexerInput.tokens, hexit]
      exact input.atStart.tokenList

/-- The lexer does not get started: it finds no token in front of the end of the
file. -/
theorem LexerInput.not_begun (input : LexerInput) (hchar : input.lexer.currentChar = 0)
    (hsource : input.source.data ≠ []) : input.tokens = [] ∧ input.source.data = [eofChar] := by
  rcases input.synced_or_nothing with hs | ⟨htext, -⟩
  · have hrest := hs.currentChar_eq_zero.mp hchar
    rw [input.atStart.rest_eq] at hrest
    exact absurd hrest hsource
  · have hexit : lexerAnalyze input.lexer = input.lexer :=
      While.loop_exit (by rw [hchar]; rfl)
    refine ⟨?_, ?_⟩
    · rw [LexerInput.tokens, hexit]
      exact input.atStart.tokenList
    · rcases input.source_data with hdata | hdata
      · exact absurd (hdata.trans htext) hsource
      · rw [hdata, htext]
        rfl

/-- What the macro list and the text of a source are made from. -/
theorem LexerInput.generated (input : LexerInput) (filePath : String) {generated : Preprocessor}
    (hgen : preprocessorGenerateMacroList
      (preprocessorInitialize (lexerAnalyze input.lexer) filePath) input.source = .ok generated) :
    (∀ m ∈ generated.macroList, m.Recorded input.source input.tokens) ∧
      generated.processedSource = stringCreate := by
  refine ⟨fun m hm => ?_, generateMacroListFrom_processedSource hgen⟩
  exact (generateMacroListFrom_recorded hgen m hm).resolve_left List.not_mem_nil

/-- **Macro expansion proper.**  For a source without lexical errors whose
recorded definitions lie apart, the second pass, begun at the first token, gives
the tokens of the source without the definitions and with the contents in place
of the names, makes no token from a comment and keeps the last end of file,
exactly when it splices cleanly. -/
theorem LexerInput.macrosSpliced_iff (input : LexerInput) (filePath : String)
    {generated : Preprocessor} (hclean : input.errors = [])
    (hgen : preprocessorGenerateMacroList
      (preprocessorInitialize (lexerAnalyze input.lexer) filePath) input.source = .ok generated)
    (hdisjoint : generated.macroList.Pairwise Macro.Apart) :
    MacrosSpliced input.source input.tokens generated.macroList
        (preprocessorExpandMacros { generated with tokens := input.tokens }
          input.source).processedSource
        (tracedExpansion { generated with tokens := input.tokens } input.source).places ↔
      SplicesCleanly input generated.macroList := by
  obtain ⟨hrecorded, hprocessed⟩ := input.generated filePath hgen
  by_cases hbegun : input.lexer.currentChar = 0 → input.source.data = []
  · obtain ⟨xs, hrun, htokens⟩ := input.exists_cleanRun hclean hbegun
    rw [htokens] at hrecorded ⊢
    have hplaced : Placed generated.macroList (input.lexer.visits xs) :=
      hrun.placed hrecorded hdisjoint
    obtain ⟨ps, hspliced⟩ := exists_spliced hrun.visits hplaced (tokensFrom input.lexer xs)
    -- the loop writes the pieces
    have hfinishes := hspliced.finishes hrun.visits hplaced hrun.start hrun.lexes.text_eq
    obtain ⟨hdata, hplaces⟩ := hfinishes
      ⟨⟨0, tokensFrom input.lexer xs, generated.processedSource⟩, []⟩ rfl rfl
    rw [tracedLoop_expansion, hprocessed] at hdata
    have htext : (preprocessorExpandMacros { generated with tokens := tokensFrom input.lexer xs }
        input.source).processedSource.data = piecesText ps := by
      simp only [preprocessorExpandMacros, hprocessed]
      exact hdata
    have hplaces' : (tracedExpansion { generated with tokens := tokensFrom input.lexer xs }
        input.source).places = piecesPlaces ps := hplaces
    rw [hplaces']
    constructor
    · intro h
      obtain ⟨hseamless, huncovered⟩ := hspliced.seams hrun hplaced hrecorded htext h
      refine ⟨hbegun, ?_, ?_, ?_⟩
      · rw [htokens]
        exact fun t ht => hspliced.ending hrun h ht
      · rw [htokens]
        exact (hspliced.uncovered_iff hrun.visits hplaced).mp huncovered
      · rw [htokens]
        exact (hspliced.seamless_iff hrun.visits hplaced
          (fun m hm => hrun.endsLine (hrecorded m hm)) List.suffix_rfl hrun.end_eq
          huncovered).mp hseamless
    · intro hfacts
      obtain ⟨-, hending, hcomments, hseams⟩ := hfacts
      rw [htokens] at hending hcomments hseams
      exact hspliced.macrosSpliced hrun hplaced hrecorded htext hending hcomments hseams
  · push Not at hbegun
    obtain ⟨htokens, hsource⟩ := input.not_begun hbegun.1 hbegun.2
    refine ⟨fun h => ?_, fun h => absurd (h.begun hbegun.1) hbegun.2⟩
    have hnone : generated.macroList = [] := by
      refine List.eq_nil_iff_forall_not_mem.mpr fun m hm => ?_
      obtain ⟨before, opener, name, newline, middle, last, endmacr, closer, after, hsplit, -⟩ :=
        hrecorded m hm
      rw [htokens] at hsplit
      simp at hsplit
    have hcopy : (preprocessorExpandMacros { generated with tokens := input.tokens }
        input.source).processedSource = input.source := by
      simp only [preprocessorExpandMacros, hnone, hprocessed]
      exact expandLoop_no_macros input.tokenSlice
    have hkinds := h.kinds
    rw [hcopy, htokens] at hkinds
    obtain ⟨ys, hlex, hys⟩ := processedTokens_lexes input.source
    rw [hsource] at hlex
    have hend : Lexes [eofChar] [⟨[eofChar], some .eoft, none⟩] :=
      Lexes.cons (nextLexeme_eofChar []) rfl Lexes.nil
    rw [hys, hlex.unique hend] at hkinds
    cases hkinds

instance : DecidableRel Macro.Apart := fun m m' =>
  inferInstanceAs (Decidable (m.endIndex < m'.startIndex ∨ m'.endIndex < m.startIndex))

/-- The macro list of a file, with what can be computed from it. -/
theorem exists_generated (input : LexerInput) (filePath : String) (test : Preprocessor → Bool)
    (h : (preprocessorGenerateMacroList
      (preprocessorInitialize (lexerAnalyze input.lexer) filePath) input.source).toOption.any
        test = true) :
    ∃ generated, preprocessorGenerateMacroList
        (preprocessorInitialize (lexerAnalyze input.lexer) filePath) input.source =
          .ok generated ∧ test generated = true := by
  cases hgen : preprocessorGenerateMacroList
      (preprocessorInitialize (lexerAnalyze input.lexer) filePath) input.source with
  | error fault =>
      rw [hgen] at h
      cases h
  | ok generated =>
      rw [hgen] at h
      exact ⟨generated, rfl, h⟩

/-- A file with a definition and two uses of it. -/
def splicedSample : LexerInput :=
  .file "sample" (bytes "macr M\n inc r1\nendmacr\nA: M\nM\n")

/-- The theorem at a file whose macros are expanded. -/
theorem LexerInput.macrosSpliced_sample : ∃ generated, preprocessorGenerateMacroList
      (preprocessorInitialize (lexerAnalyze splicedSample.lexer) "sample") splicedSample.source =
        .ok generated ∧
    MacrosSpliced splicedSample.source splicedSample.tokens generated.macroList
      (preprocessorExpandMacros { generated with tokens := splicedSample.tokens }
        splicedSample.source).processedSource
      (tracedExpansion { generated with tokens := splicedSample.tokens }
        splicedSample.source).places ∧
    SplicesCleanly splicedSample generated.macroList := by
  have hclean : splicedSample.errors = [] := by decide +kernel
  have hcomment : ';'.toUInt8 ∉ splicedSample.source.data := by decide +kernel
  obtain ⟨generated, hgen, htest⟩ := exists_generated splicedSample "sample" (fun g =>
      decide (g.macroList.Pairwise Macro.Apart) &&
      decide (withoutEol ((processedTokens (preprocessorExpandMacros
        { g with tokens := splicedSample.tokens } splicedSample.source).processedSource).map
          Token.kind) = expandedKinds g.macroList splicedSample.tokens) &&
      ((splicedSample.tokens.filter fun t => t.type = .eoft).getLast?.all fun t =>
        (processedTokens (preprocessorExpandMacros { g with tokens := splicedSample.tokens }
          splicedSample.source).processedSource).any fun u => u.type = .eoft &&
            (tracedExpansion { g with tokens := splicedSample.tokens }
              splicedSample.source).places[u.index]? = some (.copied t.index)) &&
      (processedTokens (preprocessorExpandMacros { g with tokens := splicedSample.tokens }
        splicedSample.source).processedSource).all fun t =>
          (List.range (spanLength t)).all fun k =>
            (tracedExpansion { g with tokens := splicedSample.tokens }
              splicedSample.source).places[t.index + k]?.isSome)
    (by decide +kernel)
  simp only [Bool.and_eq_true, decide_eq_true_eq] at htest
  obtain ⟨⟨⟨hdisjoint, hkinds⟩, hend⟩, hplaces⟩ := htest
  have hspliced : MacrosSpliced splicedSample.source splicedSample.tokens generated.macroList
      (preprocessorExpandMacros { generated with tokens := splicedSample.tokens }
        splicedSample.source).processedSource
      (tracedExpansion { generated with tokens := splicedSample.tokens }
        splicedSample.source).places := by
    refine ⟨hkinds, fun t ht k hk => ?_, fun t ht => ?_⟩
    · have hsome := List.all_eq_true.mp (List.all_eq_true.mp hplaces t ht) k (List.mem_range.mpr hk)
      obtain ⟨place, hplace⟩ := Option.isSome_iff_exists.mp hsome
      refine ⟨place, hplace, ?_⟩
      intro hfacts
      obtain ⟨start, -, hchar, -⟩ := hfacts
      exact hcomment (List.mem_of_getElem? hchar)
    · rw [ht, Option.all_some] at hend
      simp only [List.any_eq_true, Bool.and_eq_true, decide_eq_true_eq] at hend
      exact hend
  exact ⟨generated, hgen, hspliced, (LexerInput.macrosSpliced_iff splicedSample "sample" hclean
    hgen hdisjoint).mp hspliced⟩

/-- A file in which a comment follows a name without a space. -/
def uncoveredSample : LexerInput :=
  .file "sample" (bytes "macr M\nstop\nendmacr\nM;rts\n")

/-- A name with a comment right behind it: the text of the comment becomes a
token. -/
theorem macrosSpliced_uncovers_comment : uncoveredSample.errors = [] ∧
    ∃ generated, preprocessorGenerateMacroList
        (preprocessorInitialize (lexerAnalyze uncoveredSample.lexer) "sample")
        uncoveredSample.source = .ok generated ∧
      generated.errorHandler.errorList = [] ∧ generated.macroList.Pairwise Macro.Apart ∧
      ¬ MacrosSpliced uncoveredSample.source uncoveredSample.tokens generated.macroList
        (preprocessorExpandMacros { generated with tokens := uncoveredSample.tokens }
          uncoveredSample.source).processedSource
        (tracedExpansion { generated with tokens := uncoveredSample.tokens }
          uncoveredSample.source).places := by
  obtain ⟨generated, hgen, htest⟩ := exists_generated uncoveredSample "sample" (fun g =>
      g.errorHandler.errorList.isEmpty && decide (g.macroList.Pairwise Macro.Apart) &&
      decide (withoutEol ((processedTokens (preprocessorExpandMacros
        { g with tokens := uncoveredSample.tokens } uncoveredSample.source).processedSource).map
          Token.kind) ≠ expandedKinds g.macroList uncoveredSample.tokens))
    (by decide +kernel)
  simp only [Bool.and_eq_true, decide_eq_true_eq, List.isEmpty_iff] at htest
  obtain ⟨⟨hnoErrors, hdisjoint⟩, hkinds⟩ := htest
  exact ⟨by decide +kernel, generated, hgen, hnoErrors, hdisjoint, fun h => hkinds h.kinds⟩

end Assembler
