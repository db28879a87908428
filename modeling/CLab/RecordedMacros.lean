import CLab.SplicedSeams

/-!
# What the recorded macros say about the source

Every macro of the list stands in the tokens (`Macro.Recorded`).  In a source
without lexical errors its definition therefore begins with a `macr`, ends with
a single character and is named by an identifier (`CleanRun.placed`), and its
content consists of whole lexemes (`CleanRun.endsLine`).
-/

namespace Assembler

/-- The macro was read off the tokens. -/
def Macro.Recorded (source : CString) (tokens : List Token) (m : Macro) : Prop :=
  ∃ before opener name newline middle last endmacr closer after,
    tokens = before ++ opener :: name :: newline ::
      (middle ++ last :: endmacr :: closer :: after) ∧
    opener.type = .macr ∧ name.type = .identifier ∧ newline.type = .eol ∧ last.type = .eol ∧
    (closer.type = .eol ∨ closer.type = .eoft) ∧
    m = { identifier := name
          content := stringSubstring source (newline.index + 1) last.index
          startIndex := opener.index
          endIndex := closer.index }

/-- A token in front does not matter. -/
theorem Macro.Recorded.cons {source : CString} {tokens : List Token} {m : Macro}
    (h : m.Recorded source tokens) (t : Token) : m.Recorded source (t :: tokens) := by
  obtain ⟨before, opener, name, newline, middle, last, endmacr, closer, after, hsplit, h⟩ := h
  exact ⟨t :: before, opener, name, newline, middle, last, endmacr, closer, after,
    by rw [hsplit]; rfl, h⟩

/-- The reading of a definition records at most the macro that stands there. -/
theorem preprocessorCreateMacro_recorded {preprocessor preprocessor' : Preprocessor}
    {source : CString} (h : preprocessorCreateMacro preprocessor source = .ok preprocessor') :
    preprocessor'.macroList = preprocessor.macroList ∨
      ∃ m, m.Recorded source preprocessor.tokens ∧
        preprocessor'.macroList = preprocessor.macroList ++ [m] := by
  unfold preprocessorCreateMacro at h
  split at h
  · cases h
  rename_i opener rest htokens
  split at h
  · exact Or.inl (by rw [← Except.ok.inj h]; rfl)
  rename_i hopener
  split at h
  · cases h
  rename_i name rest
  split at h
  · exact Or.inl (by rw [← Except.ok.inj h]; rfl)
  rename_i hname
  split at h
  · exact Or.inl (by rw [← Except.ok.inj h]; rfl)
  split at h
  · cases h
  rename_i newline rest
  split at h
  · exact Or.inl (by rw [← Except.ok.inj h]; rfl)
  rename_i hnewline
  split at h
  · exact Or.inl (by rw [← Except.ok.inj h]; rfl)
  rename_i last closer hfind
  obtain ⟨middle, endmacr, after, rfl, hlast, -, hcloser⟩ := findEndmacr_eq_some hfind
  refine Or.inr ⟨_, ?_, by rw [← Except.ok.inj h]; rfl⟩
  exact ⟨[], opener, name, newline, middle, last, endmacr, closer, after, htokens,
    not_not.mp hopener, not_not.mp hname, not_not.mp hnewline, hlast, hcloser, rfl⟩

/-- Every macro that is recorded stands in the tokens. -/
theorem generateMacroListFrom_recorded {preprocessor generated : Preprocessor} {source : CString}
    {tokens : List Token} (h : generateMacroListFrom preprocessor source tokens = .ok generated) :
    ∀ m ∈ generated.macroList, m ∈ preprocessor.macroList ∨ m.Recorded source tokens := by
  induction tokens generalizing preprocessor with
  | nil =>
      obtain rfl := Except.ok.inj h
      exact fun m hm => Or.inl hm
  | cons t rest ih =>
      by_cases ht : t.type = .macr
      · rw [generateMacroListFrom_macr ht] at h
        obtain ⟨created, hcreate, hrest⟩ := exists_of_bind_eq_ok h
        intro m hm
        rcases ih hrest m hm with hm | hm
        · rcases preprocessorCreateMacro_recorded hcreate with hlist | ⟨m', hm', hlist⟩
          · rw [hlist] at hm
            exact Or.inl hm
          · rw [hlist] at hm
            rcases List.mem_append.mp hm with hm | hm
            · exact Or.inl hm
            · obtain rfl := List.mem_singleton.mp hm
              exact Or.inr hm'
        · exact Or.inr (hm.cons t)
      · rw [generateMacroListFrom] at h
        split at h
        · obtain rfl := Except.ok.inj h
          exact fun m hm => Or.inl hm
        · exact fun m hm => (ih h m hm).imp_right fun h => h.cons t

/-- The place of a content is behind its name line. -/
theorem contentStart_eq {tokens before rest : List Token} {opener name newline : Token} {m : Macro}
    (hsplit : tokens = before ++ opener :: name :: newline :: rest)
    (hordered : tokens.Pairwise fun t u => t.index < u.index) (hname : m.identifier = name) :
    contentStart tokens m = newline.index + 1 := by
  subst hsplit
  obtain ⟨-, hbehind, hfront⟩ := List.pairwise_append.mp hordered
  obtain ⟨hopener, hrest⟩ := List.pairwise_cons.mp hbehind
  have hnewline := (List.pairwise_cons.mp hrest).1 newline List.mem_cons_self
  have hnone : before.find? (fun t => decide (m.identifier.index < t.index)) = none := by
    refine List.find?_eq_none.mpr fun t ht => ?_
    have hlt := hfront t ht name (by simp)
    rw [hname, decide_eq_true_eq]
    omega
  have hfirst : ¬ m.identifier.index < opener.index := by
    have hlt := hopener name (by simp)
    rw [hname]
    omega
  have hfind : (before ++ opener :: name :: newline :: rest).find?
      (fun t => decide (m.identifier.index < t.index)) = some newline := by
    rw [List.find?_append, hnone, Option.none_or, List.find?_cons_of_neg (by simpa using hfirst),
      List.find?_cons_of_neg (by simp [hname]),
      List.find?_cons_of_pos (by simpa [hname] using hnewline)]
  rw [contentStart, hfind]

/-- A run of the lexer over the whole of its text, without an error. -/
structure CleanRun (lexer : Lexer) (xs : List Lexeme) : Prop where
  start : lexer.index = 0
  lexes : Lexes lexer.sourceCode.data xs
  clean : ∀ x ∈ xs, x.error = none

namespace CleanRun

variable {lexer : Lexer} {xs : List Lexeme} (h : CleanRun lexer xs)

include h

/-- The whole source lies ahead of the lexer. -/
theorem rest_eq : lexer.rest = lexer.sourceCode.data := by
  rw [Lexer.rest, h.start, List.drop_zero]

/-- Its visits are at lexemes of the source. -/
theorem visits : ∀ v ∈ lexer.visits xs, LexerVisit lexer.sourceCode.data v :=
  visits_lexerVisit (h.rest_eq.symm ▸ h.lexes)

theorem end_eq : lexer.index + (lexemesText xs).length = lexer.sourceCode.data.length := by
  rw [h.start, h.lexes.text_eq, Nat.zero_add]

/-- No lexeme has an error. -/
theorem lexeme_clean : ∀ x ∈ xs, x.Clean := by
  intro x hx
  obtain ⟨c, cs, h0, hread⟩ := h.lexes.read lexer.sourceCode.noNul x hx
  exact ⟨c, cs, h0, hread, Or.inl (h.clean x hx)⟩

theorem visit_clean : ∀ v ∈ lexer.visits xs, v.2.Clean := by
  intro v hv
  obtain ⟨ys, zs, hsplit, -⟩ := mem_visits hv
  exact h.lexeme_clean v.2 (by rw [hsplit]; simp)

/-- Tokens in order are in order in the text. -/
theorem ordered : (tokensFrom lexer xs).Pairwise fun t u => t.index < u.index := by
  refine List.pairwise_filterMap.mpr ((visits_ordered lexer xs).imp_of_mem ?_)
  intro v w hv hw hvw t ht u hu
  obtain ⟨hti, -⟩ := (h.visits v hv).token ht
  obtain ⟨hui, -⟩ := (h.visits w hw).token hu
  have hpos := (h.visits v hv).text_pos
  omega

/-- A visit with the token of a word determines the word. -/
theorem type_of_string {v w : Lexer × Lexeme} (hv : v ∈ lexer.visits xs)
    (hw : w ∈ lexer.visits xs) {t u : Token} (ht : visitToken v = some t)
    (hu : visitToken w = some u) (heof : t.type ≠ .eoft) (hstring : t.string = u.string) :
    u.type = t.type := by
  have htext : v.2.text = t.string.data := (((h.visits v hv).token ht).2.2.1 heof).symm
  have heof' : u.type ≠ .eoft := by
    intro hu'
    obtain ⟨type, -, rfl⟩ := Option.map_eq_some_iff.mp hu
    have hempty : (w.2.tokenAt w.1 type).string = stringCreate := if_pos hu'
    have hpos := (h.visits v hv).text_pos
    rw [htext, hstring, hempty] at hpos
    exact Nat.lt_irrefl 0 hpos
  have htext' : w.2.text = u.string.data := (((h.visits w hw).token hu).2.2.1 heof').symm
  obtain ⟨c, s, hs, hagain⟩ := (h.visit_clean v hv).again
  obtain ⟨c', s', hs', hagain'⟩ := (h.visit_clean w hw).again
  have hsame : c :: s = c' :: s' := by rw [← hs, ← hs', htext, htext', hstring]
  obtain ⟨rfl, rfl⟩ := List.cons.inj hsame
  have hend : ∀ x : Lexeme, ¬ x.RunsOn [] := fun x ⟨d, hd, _⟩ => nomatch hd
  have hlexeme : v.2 = w.2 := (hagain [] (hend _)).symm.trans (hagain' [] (hend _))
  obtain ⟨type, htype, rfl⟩ := Option.map_eq_some_iff.mp ht
  obtain ⟨type', htype', rfl⟩ := Option.map_eq_some_iff.mp hu
  rw [hlexeme, htype'] at htype
  exact Option.some.inj htype

/-- The end of a line or of the file is a single character. -/
theorem line_end {v : Lexer × Lexeme} (hv : v ∈ lexer.visits xs) {t : Token}
    (ht : visitToken v = some t) (htype : t.type = .eol ∨ t.type = .eoft) :
    v.2.text.length = 1 := by
  rcases htype with heol | heof
  · rw [(h.visits v hv).text_of_eol ht heol]
    rfl
  · rw [((h.visits v hv).token ht).2.2.2 heof]
    rfl

/-- **Recorded definitions stand in the text.** -/
theorem placed {macroList : List Macro}
    (hrecorded : ∀ m ∈ macroList, m.Recorded lexer.sourceCode (tokensFrom lexer xs))
    (hapart : macroList.Pairwise Macro.Apart) : Placed macroList (lexer.visits xs) := by
  refine ⟨?_, ?_, ?_, ?_, hapart⟩
  · intro m hm
    obtain ⟨before, opener, name, newline, middle, last, endmacr, closer, after, hsplit, hopener,
      -, -, -, -, rfl⟩ := hrecorded m hm
    have hmem : opener ∈ tokensFrom lexer xs := by rw [hsplit]; simp
    obtain ⟨v, hv, htoken⟩ := List.mem_filterMap.mp hmem
    exact ⟨v, hv, opener, htoken, hopener, ((h.visits v hv).token htoken).1.symm⟩
  · intro m hm
    obtain ⟨before, opener, name, newline, middle, last, endmacr, closer, after, hsplit, -, -, -,
      -, hcloser, rfl⟩ := hrecorded m hm
    have hmem : closer ∈ tokensFrom lexer xs := by rw [hsplit]; simp
    obtain ⟨v, hv, htoken⟩ := List.mem_filterMap.mp hmem
    exact ⟨v, hv, ((h.visits v hv).token htoken).1.symm, h.line_end hv htoken hcloser⟩
  · intro m hm
    obtain ⟨before, opener, name, newline, middle, last, endmacr, closer, after, hsplit, -, -, -,
      -, -, rfl⟩ := hrecorded m hm
    have hordered := h.ordered
    rw [hsplit] at hordered
    exact (List.pairwise_cons.mp (List.pairwise_append.mp hordered).2.1).1 closer (by simp)
  · intro m hm v hv t htoken hstring
    obtain ⟨before, opener, name, newline, middle, last, endmacr, closer, after, hsplit, -, hname,
      -, -, -, rfl⟩ := hrecorded m hm
    have hmem : name ∈ tokensFrom lexer xs := by rw [hsplit]; simp
    obtain ⟨w, hw, hwtoken⟩ := List.mem_filterMap.mp hmem
    rw [← hname]
    exact h.type_of_string hw hv hwtoken htoken (by rw [hname]; decide) hstring

/-- The lexemes of a content, among those of the source. -/
theorem content_split {m : Macro} (hm : m.Recorded lexer.sourceCode (tokensFrom lexer xs)) :
    ∃ ys us ws, xs = ys ++ newlineLexeme :: (us ++ newlineLexeme :: ws) ∧
      Lexes m.content.data (us ++ [newlineLexeme]) ∧
      contentStart (tokensFrom lexer xs) m = (lexemesText ys).length + 1 := by
  obtain ⟨before, opener, name, newline, middle, last, endmacr, closer, after, hsplit, -, -,
    hnewline, hlast, -, rfl⟩ := hm
  rw [contentStart_eq hsplit h.ordered rfl]
  rw [tokensFrom, ← placeTokens_eq_visits] at hsplit
  have hsplit' : placeTokens lexer xs = (before ++ [opener, name]) ++ newline ::
      (middle ++ last :: endmacr :: closer :: after) := by
    rw [hsplit]
    simp
  -- the ends of the name line and of the content are lexemes
  obtain ⟨ys, x, zs, rfl, hx, hnewlineAt, -, hbehind⟩ := placeTokens_split hsplit'
  obtain ⟨us, y, ws, rfl, hy, hlastAt, -, -⟩ := placeTokens_split hbehind
  rw [hnewline] at hx
  rw [hlast] at hy
  obtain ⟨rest, hrest, hlex⟩ := h.lexes.drop
  cases hlex with
  | @cons c cs behind _ _ hread hline hlex =>
  obtain rfl : x = newlineLexeme := by
    rw [← hread] at hx ⊢
    rw [nextLexeme_eol hx]
    exact nextLexeme_newline cs
  obtain ⟨rest', hrest', hlex'⟩ := hlex.drop
  cases hlex' with
  | @cons c' cs' behind' _ _ hread' hline' hlex' =>
  obtain rfl : y = newlineLexeme := by
    rw [← hread'] at hy ⊢
    rw [nextLexeme_eol hy]
    exact nextLexeme_newline cs'
  have htext : lexer.sourceCode.data = lexemesText ys ++ ('\n'.toUInt8 ::
      (lexemesText us ++ '\n'.toUInt8 :: behind')) := by
    rw [hrest, hline, hrest', hline']
    rfl
  have hnewlineIndex : newline.index = (lexemesText ys).length := by
    rw [hnewlineAt]
    exact (takeAll_index _ _).trans (by rw [h.start, Nat.zero_add])
  have hlastIndex : last.index = (lexemesText ys).length + 1 + (lexemesText us).length := by
    rw [hlastAt]
    apply (takeAll_index _ _).trans
    rw [takeAll_index, h.start, lexemesText_append, List.length_append, Nat.zero_add]
    rfl
  have hlength : (lexemesText ys).length + 1 + (lexemesText us).length + 1 -
      ((lexemesText ys).length + 1) = (lexemesText us).length + 1 := by omega
  have hcontent : (stringSubstring lexer.sourceCode (newline.index + 1) last.index).data =
      lexemesText us ++ ['\n'.toUInt8] := by
    show (lexer.sourceCode.data.drop (newline.index + 1)).take
      (last.index + 1 - (newline.index + 1)) = _
    rw [htext, hnewlineIndex, hlastIndex, ← List.drop_drop, List.drop_left, List.drop_one,
      List.tail_cons, hlength, List.take_length_add_append]
    rfl
  have hbody : Lexes (lexemesText us ++ '\n'.toUInt8 :: behind') (us ++ newlineLexeme :: ws) := by
    rw [hrest', hline'] at hlex
    exact hlex
  have hend : Lexes ['\n'.toUInt8] [newlineLexeme] :=
    Lexes.cons (nextLexeme_newline []) rfl Lexes.nil
  refine ⟨ys, us, ws, rfl, ?_, by rw [hnewlineIndex]⟩
  show Lexes (stringSubstring lexer.sourceCode (newline.index + 1) last.index).data _
  rw [hcontent]
  exact hbody.change_tail hend

/-- **Contents are whole lexemes.** -/
theorem endsLine {m : Macro} (hm : m.Recorded lexer.sourceCode (tokensFrom lexer xs)) :
    m.EndsLine := by
  obtain ⟨ys, us, ws, rfl, hlex, -⟩ := h.content_split hm
  exact ⟨us, hlex, fun z hz => h.lexeme_clean z (by simp [hz])⟩

/-- **Contents stand in the source**, lexeme by lexeme. -/
theorem content_visit {m : Macro} (hm : m.Recorded lexer.sourceCode (tokensFrom lexer xs))
    {p : Piece} (hp : p ∈ contentPieces (tokensFrom lexer xs) m) :
    ∃ v ∈ lexer.visits xs, v.2 = p.lexeme ∧ v.1.index = p.index := by
  obtain ⟨ys, us, ws, hsplit, hlex, hstart⟩ := h.content_split hm
  obtain ⟨before, y, after, hbody, rfl⟩ := mem_piecesAt hp
  rw [← hlex.unique (lexes_lexemesOf (Nat.le_refl _))] at hbody
  have hlexemes : xs = (ys ++ newlineLexeme :: before) ++ y :: (after ++ ws) := by
    calc xs = ys ++ newlineLexeme :: ((us ++ [newlineLexeme]) ++ ws) := by rw [hsplit]; simp
      _ = (ys ++ newlineLexeme :: before) ++ y :: (after ++ ws) := by rw [hbody]; simp
  refine ⟨(lexer.takeAll (ys ++ newlineLexeme :: before), y), ?_, rfl, ?_⟩
  · rw [hlexemes]
    exact visits_mem _ _ _
  · show (lexer.takeAll (ys ++ newlineLexeme :: before)).index = _
    rw [takeAll_index, h.start, hstart, lexemesText_append, lexemesText_cons, List.length_append,
      List.length_append, Nat.zero_add, Nat.add_assoc]
    rfl

end CleanRun

end Assembler
