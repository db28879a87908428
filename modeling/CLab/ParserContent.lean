import CLab.ParserBlocks

/-!
# The parser reads exactly its grammar

The main loop.  A run that records no error has read a derivation of the
grammar (`contentLoop_sound`), and a derivation is read without an error and
gives the lists of its blocks (`Program.parses`).
-/

namespace Assembler

namespace LineReader

variable {α : Type} {Line : Ending → List Token → α → List Token → Prop}
  {accepts : TokenType → Bool} {round : TranslationUnit × List α → TranslationUnit × List α}
  (reader : LineReader Line accepts round)

include reader

/-- A list loop grows as its rounds do. -/
theorem loop_grows (s : TranslationUnit × List α) : Grows s.1 (listLoop accepts round s).1 := by
  rcases reader.loop_cases s with hfailed | ⟨_, _, _, hlines, _, hloop⟩
  · exact hfailed.grows
  · rw [hloop]
    exact grows_setTokens (reader.lines_suffix hlines)

/-- A list that begins with a line has one, or an error is recorded. -/
theorem loop_cases_cons {unit : TranslationUnit} {token : Token} {rest : List Token}
    (htokens : unit.tokens = token :: rest) (haccepts : accepts token.type = true) :
    Failed (unit.setTokens rest) (listLoop accepts round (unit, [])).1 ∨
    ∃ ending nodes rest', nodes ≠ [] ∧ Lines Line ending (token :: rest) nodes rest' ∧
      listLoop accepts round (unit, []) = (unit.setTokens rest', nodes) := by
  have hgo : listGoesOn accepts unit = true := by simp [listGoesOn, htokens, haccepts]
  rw [reader.loop_step hgo]
  rcases reader.cases [] htokens haccepts with hfailed | ⟨ending, node, middle, hline, hround⟩
  · exact Or.inl (hfailed.trans (reader.loop_grows _))
  · rw [hround]
    rcases reader.loop_cases (unit.setTokens middle, [] ++ [node]) with
      hfailed | ⟨ending', nodes, rest', hlines, -, hloop⟩
    · have hgrows : Grows (unit.setTokens rest) (unit.setTokens middle) :=
        grows_setTokens (reader.behind hline).of_cons
      exact Or.inl (hgrows.failed hfailed)
    · by_cases hclosed : ending = .closed
      · subst hclosed
        exact Or.inr ⟨ending', node :: nodes, rest', List.cons_ne_nil _ _, .cons hline hlines,
          hloop⟩
      · have hatEnd := reader.atEnd hclosed hline
        obtain ⟨rfl, rfl, rfl⟩ := reader.lines_atEnd hlines hatEnd
        exact Or.inr ⟨ending, [node], rest', List.cons_ne_nil _ _, .last hclosed hline,
          hloop⟩

/-- The same behind some blank lines. -/
theorem loop_cases_skipEol {tokens rest : List Token} {first : Token}
    (hskip : skipEol tokens = first :: rest) (haccepts : accepts first.type = true)
    (unit : TranslationUnit) :
    Failed (unit.setTokens tokens) (listLoop accepts round (unit.setTokens (first :: rest), [])).1 ∨
    ∃ ending nodes rest', nodes ≠ [] ∧ Lines Line ending tokens nodes rest' ∧
      listLoop accepts round (unit.setTokens (first :: rest), []) =
        (unit.setTokens rest', nodes) := by
  have hsuffix := skipEol_suffix tokens
  rw [hskip] at hsuffix
  have htokens : (unit.setTokens (first :: rest)).tokens = first :: rest := rfl
  rcases reader.loop_cases_cons htokens haccepts with
    hfailed | ⟨ending, nodes, rest', hnodes, hlines, hloop⟩
  · have hgrows : Grows (unit.setTokens tokens) (unit.setTokens rest) :=
      grows_setTokens ((List.suffix_cons _ _).trans hsuffix)
    exact Or.inl (hgrows.failed hfailed)
  · rw [← hskip] at hlines
    exact Or.inr ⟨ending, nodes, rest', hnodes, lines_of_skipEol hlines, hloop⟩

end LineReader

/-! ## What one round does -/

/-- Whatever program the second list begins, the first list begins one. -/
def Reads (tokens rest : List Token) : Prop :=
  ∀ {ending blocks}, Program ending rest blocks → ∃ ending' blocks', Program ending' tokens blocks'

/-- The lines of a block are tokens the parser has read. -/
theorem BlockLines.reads {ending : Ending} {tokens rest : List Token} {block : Block}
    (h : BlockLines ending tokens block rest) : Reads tokens rest := by
  intro ending' blocks hrest
  by_cases hclosed : ending = .closed
  · subst hclosed
    exact ⟨_, _, .block h hrest⟩
  · exact ⟨_, _, .lastBlock hclosed h⟩

/-- A line up to its end. -/
theorem endOfLine_split (tokens : List Token) :
    ∃ line after, tokens = line ++ after ∧ (∀ t ∈ line, t.type ≠ .eol ∧ t.type ≠ .eoft) ∧
      LineEnd after (endOfLine tokens) := by
  induction tokens with
  | nil => exact ⟨[], [], rfl, by simp, .null⟩
  | cons token rest ih =>
      by_cases heol : token.type = .eol
      · refine ⟨[], token :: rest, rfl, by simp, ?_⟩
        rw [endOfLine, if_pos heol]
        exact .eol heol
      by_cases heof : token.type = .eoft
      · refine ⟨[], token :: rest, rfl, by simp, ?_⟩
        rw [endOfLine, if_neg heol, if_pos heof]
        exact .eoft heof
      obtain ⟨line, after, hsplit, hline, hend⟩ := ih
      refine ⟨token :: line, after, by rw [hsplit]; rfl, ?_, ?_⟩
      · intro t ht
        rcases List.mem_cons.mp ht with rfl | ht
        · exact ⟨heol, heof⟩
        · exact hline t ht
      · rw [endOfLine_cons ⟨heol, heof⟩]
        exact hend

/-- Behind a label with its colon: a block, the end of the list, or an error. -/
theorem parseStatementBody_cases {token colon : Token} (hlabelled : LabelColon token colon)
    (unit : TranslationUnit) (rest : List Token) (label : LabelNode) :
    Failed (unit.setTokens (colon :: rest))
      (parseStatementBody (unit.setTokens (skipEol rest)) label true).1 ∨
    ∃ rest', rest' <:+ colon :: rest ∧
      (parseStatementBody (unit.setTokens (skipEol rest)) label true).1 = unit.setTokens rest' ∧
      Reads (token :: colon :: rest) rest' := by
  cases hstatement : skipEol rest with
  | nil =>
      -- a label with nothing behind it is dropped at the end of the list
      refine Or.inr ⟨[], List.nil_suffix, rfl, ?_⟩
      intro _ _ _
      exact ⟨_, _, .labelCut hlabelled (by simpa [skipEol] using hstatement)⟩
  | cons first rest' =>
      have hgrows : Grows (unit.setTokens (colon :: rest)) (unit.setTokens rest) :=
        grows_setTokens (List.suffix_cons _ _)
      by_cases hop : isInstructionToken first.type = true
      · simp only [parseStatementBody, setTokens_tokens, hop, if_true, Bool.true_eq_false,
          if_false, parserParseInstructionList_eq]
        rcases instructionReader.loop_cases_skipEol hstatement hop unit with
          hfailed | ⟨ending, nodes, rest'', hnodes, hlines, hloop⟩
        · exact Or.inl (hgrows.failed hfailed)
        · rw [hloop]
          have hblock := BlockLines.instructions hlabelled hlines hnodes
          exact Or.inr ⟨rest'', hblock.behind.of_cons, rfl, hblock.reads⟩
      by_cases hdirective : isGuidanceToken first.type = true
      · simp only [parseStatementBody, setTokens_tokens, hop, Bool.false_eq_true, if_false,
          hdirective, if_true, parserParseGuidanceList_eq]
        rcases guidanceReader.loop_cases_skipEol hstatement hdirective unit with
          hfailed | ⟨ending, nodes, rest'', hnodes, hlines, hloop⟩
        · exact Or.inl (hgrows.failed hfailed)
        · rw [hloop]
          have hblock := BlockLines.labelled hlabelled hlines hnodes
          exact Or.inr ⟨rest'', hblock.behind.of_cons, rfl, hblock.reads⟩
      · apply Or.inl
        have hskip : skipEol rest <:+ rest := skipEol_suffix rest
        rw [hstatement] at hskip
        have hgrows' : Grows (unit.setTokens (colon :: rest)) (unit.setTokens (first :: rest')) :=
          hgrows.trans (grows_setTokens hskip)
        simp only [parseStatementBody, setTokens_tokens, hop, Bool.false_eq_true, if_false,
          hdirective]
        exact hgrows'.failed (failed_reportError _ _ _)

/-- A labelled statement fails or reads up to the next line. -/
theorem parseLabeledStatement_cases {unit : TranslationUnit} {token : Token}
    {rest : List Token} (htokens : unit.tokens = token :: rest)
    (hstart : token.type = .identifier ∨ isGuidanceToken token.type = true) :
    Failed (unit.setTokens rest) (parseLabeledStatement unit).1 ∨
    ∃ rest', rest' <:+ rest ∧ (parseLabeledStatement unit).1 = unit.setTokens rest' ∧
      Reads (token :: rest) rest' := by
  rcases hstart with hlabel | hdirective
  · cases rest with
    | nil =>
        apply Or.inl
        simp only [parseLabeledStatement, htokens, hlabel, ne_eq, not_true_eq_false, if_false]
        exact failed_reportError _ _ _
    | cons colon rest =>
        by_cases hlabelled : LabelColon token colon
        · have hbody := parseLabeledStatement_label hlabelled unit rest
          rw [setTokens_eq_self htokens] at hbody
          rw [hbody]
          exact parseStatementBody_cases hlabelled unit rest _
        · have hwrong : ∃ message, (parseLabeledStatement unit).1 =
              (unit.setTokens (colon :: rest)).reportError message colon := by
            rw [parseLabeledStatement, htokens]
            simp only [hlabel, ne_eq, not_true_eq_false, if_false]
            split_ifs with hcolon hadjacent
            · exact absurd ⟨hlabel, hcolon, hadjacent⟩ hlabelled
            · exact ⟨_, rfl⟩
            · exact ⟨_, rfl⟩
          obtain ⟨message, hwrong⟩ := hwrong
          rw [hwrong]
          exact Or.inl (failed_reportError _ _ _)
  · have hlabel : token.type ≠ .identifier := by
      intro h
      rw [h] at hdirective
      exact absurd hdirective (by decide)
    have hparse : (parseLabeledStatement unit).1 =
        (listLoop isGuidanceToken guidanceListRound (unit, [])).1 := by
      simp [parseLabeledStatement, htokens, hlabel, parseStatementBody,
        isGuidanceToken_not_instruction hdirective, hdirective, parserParseGuidanceList_eq]
    rw [hparse]
    rcases guidanceReader.loop_cases_cons htokens hdirective with
      hfailed | ⟨ending, nodes, rest', hnodes, hlines, hloop⟩
    · exact Or.inl hfailed
    · refine Or.inr ⟨rest', ?_, by rw [hloop], (BlockLines.unlabelled hlines hnodes).reads⟩
      exact (guidanceReader.lines_behind hlines hnodes).of_cons

@[simp] theorem appendLabel_tokens (unit : TranslationUnit) (label : LabelNode) :
    (unit.appendLabel label).tokens = unit.tokens := by
  unfold TranslationUnit.appendLabel
  split_ifs <;> rfl

@[simp] theorem appendLabel_errorCount (unit : TranslationUnit) (label : LabelNode) :
    (unit.appendLabel label).errorCount = unit.errorCount := by
  unfold TranslationUnit.appendLabel
  split_ifs <;> rfl

/-- What a round of the main loop leaves behind its first token: an error, or
less to read. -/
def RoundRead (unit : TranslationUnit) (token : Token) (rest : List Token)
    (unit' : TranslationUnit) : Prop :=
  Failed (unit.setTokens rest) unit' ∨
    unit'.errorCount = unit.errorCount ∧ unit'.tokens <:+ rest ∧
      Reads (token :: rest) unit'.tokens

/-- A round at a statement with a label is the statement's routine. -/
theorem contentRound_statement {unit : TranslationUnit} {token : Token} {rest : List Token}
    (hstart : token.type = .identifier ∨ isGuidanceToken token.type = true) :
    contentRound (unit.setTokens (token :: rest)) = .ok
      ((parseLabeledStatement (unit.setTokens (token :: rest))).1.appendLabel
        (parseLabeledStatement (unit.setTokens (token :: rest))).2) := by
  have hstart' : token.type = .identifier ∨ token.type = .dataIns ∨
      token.type = .stringIns := by
    simpa [isGuidanceToken] using hstart
  have hne : token.type ≠ .eol ∧ token.type ≠ .externIns ∧ token.type ≠ .entryIns := by
    rcases hstart' with h | h | h <;> simp [h]
  simp only [contentRound, setTokens_tokens, hne.1, hne.2.1, hne.2.2, if_false, if_pos hstart']

section Round

variable {unit : TranslationUnit} {token : Token} {rest : List Token}
  (htokens : unit.tokens = token :: rest)

include htokens

/-- A round on `.extern` returns, and has read a line. -/
theorem contentRound_external (hexternIns : token.type = .externIns) :
    ∃ unit', contentRound unit = .ok unit' ∧ RoundRead unit token rest unit' := by
  have hround : ∃ unit', contentRound unit = .ok unit' ∧
      unit'.errorCount = (parserParseExternal unit).1.errorCount ∧
      unit'.tokens = (parserParseExternal unit).1.tokens := by
    refine ⟨{ (parserParseExternal unit).1 with
      externalList := (parserParseExternal unit).1.externalList ++
        [(parserParseExternal unit).2] }, ?_, rfl, rfl⟩
    simp only [contentRound, htokens, hexternIns, reduceCtorEq, if_false, if_true]
  obtain ⟨unit', hround, hcount, hcursor⟩ := hround
  refine ⟨unit', hround, ?_⟩
  rcases parserParseExternal_cases htokens hexternIns with
    hfailed | ⟨label, after, rest', rfl, hlabel, hend⟩
  · exact Or.inl ⟨hcount ▸ hfailed.errors, hcursor ▸ hfailed.tokens⟩
  · have hparse := parserParseExternal_parses hexternIns hlabel hend unit
    rw [setTokens_eq_self htokens] at hparse
    rw [hparse] at hcount hcursor
    refine Or.inr ⟨hcount, ?_, ?_⟩
    · rw [hcursor]
      exact hend.suffix.trans (List.suffix_cons _ _)
    · rw [hcursor]
      intro ending blocks hrest
      exact ⟨_, _, .external hexternIns hlabel hend hrest⟩

/-- So does one on `.entry`, unless the list ends there. -/
theorem contentRound_entry (hentry : token.type = .entryIns) :
    (rest = [] ∧ contentRound unit = .error .nullDereference) ∨
    ∃ unit', contentRound unit = .ok unit' ∧ RoundRead unit token rest unit' := by
  have hround : ∀ unit' node, parserParseEntry unit = .ok (unit', node) →
      contentRound unit = .ok { unit' with entryList := unit'.entryList ++ [node] } := by
    intro unit' node hparse
    simp [contentRound, htokens, hentry, hparse, bind, Except.bind]
  rcases parserParseEntry_cases htokens hentry with
    ⟨hnull, hfault⟩ | ⟨unit', node, hparse, hfailed⟩ | ⟨label, after, rest', rfl, hlabel, hend⟩
  · refine Or.inl ⟨hnull, ?_⟩
    simp [contentRound, htokens, hentry, hfault, bind, Except.bind]
  · exact Or.inr ⟨_, hround _ _ hparse, Or.inl ⟨hfailed.errors, hfailed.tokens⟩⟩
  · have hparse := parserParseEntry_parses hentry hlabel hend unit
    rw [setTokens_eq_self htokens] at hparse
    refine Or.inr ⟨_, hround _ _ hparse, Or.inr ⟨rfl, ?_, ?_⟩⟩
    · exact hend.suffix.trans (List.suffix_cons _ _)
    · intro ending blocks hrest
      exact ⟨_, _, .entry hentry hlabel hend hrest⟩

/-- A round on a statement returns, and has read a line. -/
theorem contentRound_labelled
    (hstart : token.type = .identifier ∨ isGuidanceToken token.type = true) :
    ∃ unit', contentRound unit = .ok unit' ∧ RoundRead unit token rest unit' := by
  have hround : contentRound unit = .ok
      ((parseLabeledStatement unit).1.appendLabel (parseLabeledStatement unit).2) := by
    rw [← setTokens_eq_self htokens]
    exact contentRound_statement hstart
  refine ⟨_, hround, ?_⟩
  rcases parseLabeledStatement_cases htokens hstart with
    hfailed | ⟨rest', hsuffix, hparse, hreads⟩
  · refine Or.inl ⟨?_, ?_⟩
    · rw [appendLabel_errorCount]
      exact hfailed.errors
    · rw [appendLabel_tokens]
      exact hfailed.tokens
  · rw [hparse]
    refine Or.inr ⟨appendLabel_errorCount _ _, ?_, ?_⟩ <;> rw [appendLabel_tokens]
    · exact hsuffix
    · exact hreads

/-- The line of a definition of a macro is skipped. -/
theorem contentRound_skipped (hmacr : token.type = .macr ∨ token.type = .endmacr) :
    ∃ unit', contentRound unit = .ok unit' ∧ RoundRead unit token rest unit' := by
  have hround : contentRound unit = .ok (parserMoveToEndOfLine unit) := by
    rw [contentRound, htokens]
    rcases hmacr with h | h <;> simp [h]
  have hskip : endOfLine unit.tokens = endOfLine rest := by
    rw [htokens, endOfLine_cons (by rcases hmacr with h | h <;> simp [h])]
  refine ⟨_, hround, Or.inr ⟨rfl, ?_, ?_⟩⟩
  · show endOfLine unit.tokens <:+ rest
    rw [hskip]
    exact endOfLine_suffix _
  · show Reads (token :: rest) (endOfLine unit.tokens)
    rw [hskip]
    obtain ⟨line, after, hsplit, hline, hend⟩ := endOfLine_split rest
    intro ending blocks hrest
    have hprogram := Program.skipped hmacr hline hend hrest
    rw [← hsplit] at hprogram
    exact ⟨_, _, hprogram⟩

/-- A round faults on a last `.entry` only. -/
theorem contentRound_cases (heof : token.type ≠ .eoft) :
    (token.type = .entryIns ∧ rest = [] ∧ contentRound unit = .error .nullDereference) ∨
    ∃ unit', contentRound unit = .ok unit' ∧ RoundRead unit token rest unit' := by
  by_cases heol : token.type = .eol
  · refine Or.inr ⟨unit.setTokens rest, by simp [contentRound, htokens, heol],
      Or.inr ⟨rfl, List.suffix_refl _, ?_⟩⟩
    intro ending blocks hrest
    exact ⟨_, _, .blank heol hrest⟩
  by_cases hexternIns : token.type = .externIns
  · exact Or.inr (contentRound_external htokens hexternIns)
  by_cases hentry : token.type = .entryIns
  · rcases contentRound_entry htokens hentry with ⟨hnull, hfault⟩ | hread
    · exact Or.inl ⟨hentry, hnull, hfault⟩
    · exact Or.inr hread
  by_cases hstart : token.type = .identifier ∨ isGuidanceToken token.type = true
  · exact Or.inr (contentRound_labelled htokens hstart)
  by_cases hmacr : token.type = .macr ∨ token.type = .endmacr
  · exact Or.inr (contentRound_skipped htokens hmacr)
  · have hother : ¬ (token.type = .identifier ∨ token.type = .dataIns ∨
        token.type = .stringIns) := by
      intro h
      exact hstart (by simpa [isGuidanceToken] using h)
    refine Or.inr ⟨unit.reportError
      "Unexpected token: expected label, .extern, or .entry" token, ?_, Or.inl ⟨?_, ?_⟩⟩
    · simp only [contentRound, htokens, heol, hexternIns, hentry, if_false, if_neg hother,
        if_neg hmacr]
    · rw [reportError_errorCount]
      exact Nat.lt_succ_self _
    · rw [reportError_tokens, htokens, endOfLine_cons ⟨heol, heof⟩]
      exact endOfLine_suffix _

end Round

/-- What a round has read lies behind its first token. -/
theorem RoundRead.grows {unit unit' : TranslationUnit} {token : Token} {rest : List Token}
    (h : RoundRead unit token rest unit') : Grows (unit.setTokens rest) unit' := by
  rcases h with hfailed | ⟨hcount, hsuffix, -⟩
  · exact hfailed.grows
  · exact ⟨hcount.ge, hsuffix⟩

/-! ## The main loop -/

/-- The loop over the whole unit. -/
def contentLoop (run : Except Fault TranslationUnit) : Except Fault TranslationUnit :=
  While.loop contentGoesOn (fun run => run.bind contentRound) contentRemaining run

/-- Where the loop goes on there is a token, and it is not the end of the file. -/
theorem contentGoesOn_ok {run : Except Fault TranslationUnit} (h : contentGoesOn run = true) :
    ∃ unit token rest, run = .ok unit ∧ unit.tokens = token :: rest ∧ token.type ≠ .eoft := by
  cases run with
  | error fault => exact absurd h (by simp [contentGoesOn])
  | ok unit =>
      cases htokens : unit.tokens with
      | nil => exact absurd h (by simp [contentGoesOn, htokens])
      | cons token rest =>
          exact ⟨unit, token, rest, rfl, htokens, by simpa [contentGoesOn, htokens] using h⟩

/-- Where it stops the tokens are at their end. -/
theorem contentGoesOn_atEnd {unit : TranslationUnit} (h : contentGoesOn (.ok unit) = false) :
    AtEnd unit.tokens := by
  cases htokens : unit.tokens with
  | nil => exact Or.inl rfl
  | cons token rest =>
      exact Or.inr ⟨token, rest, rfl, by simpa [contentGoesOn, htokens] using h⟩

/-- Every round leaves fewer tokens. -/
theorem contentRound_remaining {run : Except Fault TranslationUnit}
    (h : contentGoesOn run = true) :
    contentRemaining (run.bind contentRound) < contentRemaining run := by
  obtain ⟨unit, token, rest, rfl, htokens, heof⟩ := contentGoesOn_ok h
  have hlength : contentRemaining (.ok unit) = rest.length + 1 := by
    simp [contentRemaining, htokens]
  rw [hlength]
  show contentRemaining (contentRound unit) < rest.length + 1
  rcases contentRound_cases htokens heof with ⟨-, -, hfault⟩ | ⟨unit', hround, hread⟩
  · rw [hfault]
    exact Nat.succ_pos _
  · rw [hround]
    exact Nat.lt_succ_of_le hread.grows.tokens.length_le

/-- One round can be taken off the loop. -/
theorem contentLoop_step {unit : TranslationUnit} {token : Token} {rest : List Token}
    (htokens : unit.tokens = token :: rest) (heof : token.type ≠ .eoft) :
    contentLoop (.ok unit) = contentLoop (contentRound unit) := by
  have hgo : contentGoesOn (.ok unit) = true := by simp [contentGoesOn, htokens, heof]
  exact While.loop_step (fun _ => True) (fun _ _ _ => trivial)
    (fun _ hg _ => contentRound_remaining hg) trivial hgo

/-- At the end the loop changes nothing. -/
theorem contentLoop_atEnd {unit : TranslationUnit} (h : AtEnd unit.tokens) :
    contentLoop (.ok unit) = .ok unit := by
  apply While.loop_exit
  rcases h with h | ⟨eof, rest, h, heof⟩
  · simp [contentGoesOn, h]
  · simp [contentGoesOn, h, heof]

/-- A relation between the state the main loop starts in and the one it ends in
follows from what a round does. -/
theorem contentLoop_induction
    (rel : TranslationUnit → Except Fault TranslationUnit → Prop)
    (hexit : ∀ unit, AtEnd unit.tokens → rel unit (.ok unit))
    (hfault : ∀ unit token, unit.tokens = [token] → token.type = .entryIns →
      rel unit (.error .nullDereference))
    (hround : ∀ unit token rest unit' run, unit.tokens = token :: rest → token.type ≠ .eoft →
      RoundRead unit token rest unit' → rel unit' run → rel unit run)
    (unit : TranslationUnit) : rel unit (contentLoop (.ok unit)) := by
  let rel' : Except Fault TranslationUnit → Except Fault TranslationUnit → Prop :=
    fun run run' => (∀ fault, run = .error fault → run' = .error fault) ∧
      ∀ unit, run = .ok unit → rel unit run'
  have hloop : rel' (.ok unit) (contentLoop (.ok unit)) := by
    refine While.loop_induction (fun _ => True) (fun _ _ _ => trivial)
      (fun _ hg _ => contentRound_remaining hg) rel' ?_ ?_ trivial
    · intro run hg _
      refine ⟨fun _ h => h, ?_⟩
      intro unit hunit
      subst hunit
      exact hexit unit (contentGoesOn_atEnd hg)
    · intro run run' hg _ hrest
      obtain ⟨unit, token, rest, rfl, htokens, heof⟩ := contentGoesOn_ok hg
      refine ⟨by simp, ?_⟩
      intro unit₀ hunit
      obtain rfl := Except.ok.inj hunit
      rcases contentRound_cases htokens heof with ⟨hentry, rfl, hnull⟩ | ⟨unit', hok, hread⟩
      · rw [hrest.1 _ hnull]
        exact hfault unit token htokens hentry
      · exact hround unit token rest unit' run' htokens heof hread (hrest.2 unit' hok)
  exact hloop.2 unit rfl

/-- **A run that records no error has read a program.** -/
theorem contentLoop_sound {unit unit' : TranslationUnit}
    (hloop : contentLoop (.ok unit) = .ok unit') :
    unit.errorCount ≤ unit'.errorCount ∧
      (unit'.errorCount = unit.errorCount →
        ∃ ending blocks, Program ending unit.tokens blocks) := by
  revert hloop
  refine contentLoop_induction (fun unit run => run = .ok unit' →
    unit.errorCount ≤ unit'.errorCount ∧ (unit'.errorCount = unit.errorCount →
      ∃ ending blocks, Program ending unit.tokens blocks)) ?_ ?_ ?_ unit
  · intro unit hend hrun
    obtain rfl := Except.ok.inj hrun
    obtain ⟨ending, hprogram⟩ := exists_program_atEnd hend
    exact ⟨Nat.le_refl _, fun _ => ⟨ending, [], hprogram⟩⟩
  · intro unit token _ _ hrun
    exact absurd hrun (by simp)
  · intro unit token rest middle run htokens _ hread hrest hrun
    obtain ⟨hle, hprogram⟩ := hrest hrun
    have hgrows := hread.grows.errors
    rw [setTokens_errorCount] at hgrows
    refine ⟨Nat.le_trans hgrows hle, ?_⟩
    intro hcount
    rcases hread with hfailed | ⟨hmiddle, -, hreads⟩
    · have hlt := hfailed.errors
      rw [setTokens_errorCount] at hlt
      omega
    · rw [htokens]
      obtain ⟨ending, blocks, hrest⟩ := hprogram (hcount.trans hmiddle.symm)
      exact hreads hrest

/-- The last token is the end of the file. -/
def EndsFile (tokens : List Token) : Prop :=
  ∃ before eof, tokens = before ++ [eof] ∧ eof.type = .eoft

/-- What is left of a file ends as the file does. -/
theorem EndsFile.of_suffix {tokens rest : List Token} (h : EndsFile tokens)
    (hsuffix : rest <:+ tokens) (hrest : rest ≠ []) : EndsFile rest := by
  obtain ⟨before, eof, rfl, heof⟩ := h
  rcases List.suffix_concat_iff.mp hsuffix with hnil | ⟨before', hsplit, -⟩
  · exact absurd hnil hrest
  · exact ⟨before', eof, hsplit, heof⟩

theorem EndsFile.of_cons {t : Token} {rest : List Token} (h : EndsFile (t :: rest))
    (ht : t.type ≠ .eoft) : EndsFile rest := by
  obtain ⟨before, eof, hsplit, heof⟩ := h
  cases before with
  | nil =>
      obtain ⟨rfl, -⟩ := List.cons.inj hsplit
      exact absurd heof ht
  | cons b before => exact ⟨before, eof, (List.cons.inj hsplit).2, heof⟩

/-- A list that ends a file is not empty. -/
theorem EndsFile.ne_nil {tokens : List Token} (h : EndsFile tokens) : tokens ≠ [] := by
  obtain ⟨before, eof, rfl, -⟩ := h
  simp

/-- **The parser returns**: the only fault of the parser needs a list that ends
in `.entry`. -/
theorem contentLoop_total {unit : TranslationUnit} (h : EndsFile unit.tokens) :
    ∃ unit', contentLoop (.ok unit) = .ok unit' := by
  have hrun : (unit.tokens = [] ∨ EndsFile unit.tokens) →
      ∃ unit', contentLoop (.ok unit) = .ok unit' := by
    refine contentLoop_induction (fun unit run => (unit.tokens = [] ∨ EndsFile unit.tokens) →
      ∃ unit', run = .ok unit') ?_ ?_ ?_ unit
    · intro unit _ _
      exact ⟨unit, rfl⟩
    · intro unit token htokens hentry hend
      rw [htokens] at hend
      rcases hend with hnil | hend
      · exact absurd hnil (List.cons_ne_nil _ _)
      · exact absurd rfl (hend.of_cons (by simp [hentry])).ne_nil
    · intro unit token rest unit' run htokens _ hread hrest hend
      apply hrest
      by_cases hnil : unit'.tokens = []
      · exact Or.inl hnil
      · have hsuffix : unit'.tokens <:+ unit.tokens := by
          rw [htokens]
          exact hread.grows.tokens.trans (List.suffix_cons _ _)
        rcases hend with hempty | hend
        · rw [htokens] at hempty
          exact absurd hempty (List.cons_ne_nil _ _)
        · exact Or.inr (hend.of_suffix hsuffix hnil)
  exact hrun (Or.inr h)

/-! ## The lists of a program are built -/

/-- Without blocks nothing is added. -/
theorem withBlocks_nil (unit : TranslationUnit) (tokens : List Token) :
    unit.withBlocks [] tokens = unit.setTokens tokens := by
  simp [TranslationUnit.withBlocks, TranslationUnit.setTokens]

/-- Blocks can be added in two batches. -/
theorem withBlocks_withBlocks (unit : TranslationUnit) (blocks blocks' : List Block)
    (tokens tokens' : List Token) :
    (unit.withBlocks blocks tokens).withBlocks blocks' tokens' =
      unit.withBlocks (blocks ++ blocks') tokens' := by
  simp [TranslationUnit.withBlocks, List.filterMap_append]

/-- The tokens can be set behind the blocks. -/
theorem withBlocks_setTokens (unit : TranslationUnit) (blocks : List Block)
    (tokens tokens' : List Token) :
    (unit.withBlocks blocks tokens).setTokens tokens' = unit.withBlocks blocks tokens' := rfl

/-- A skipped line adds nothing. -/
theorem withBlocks_skipped (unit : TranslationUnit) (blocks : List Block)
    (tokens : List Token) :
    unit.withBlocks (.skipped :: blocks) tokens = unit.withBlocks blocks tokens := rfl

/-- An external is added at the end of its list. -/
theorem withBlocks_external (unit : TranslationUnit) (label : Token) (tokens : List Token) :
    unit.withBlocks [.external label] tokens =
      { unit.setTokens tokens with
        externalList := unit.externalList ++
          [{ externalLabel := some label, hasParserError := false }] } := by
  simp [TranslationUnit.withBlocks, TranslationUnit.setTokens, Block.externalNode,
    Block.entryNode, Block.instructionLabel, Block.guidanceLabel]

theorem withBlocks_entry (unit : TranslationUnit) (label : Token) (tokens : List Token) :
    unit.withBlocks [.entry label] tokens =
      { unit.setTokens tokens with
        entryList := unit.entryList ++
          [{ entryLabel := some label, hasParserError := false }] } := by
  simp [TranslationUnit.withBlocks, TranslationUnit.setTokens, Block.externalNode,
    Block.entryNode, Block.instructionLabel, Block.guidanceLabel]

/-- A label with instructions is added to the instruction labels. -/
theorem appendLabel_instructions (unit : TranslationUnit) (tokens : List Token) (label : Token)
    {nodes : List InstructionNode} (hnodes : nodes ≠ []) :
    (unit.setTokens tokens).appendLabel
        { LabelNode.zero with label := some label, instructionList := nodes } =
      unit.withBlocks [.instructions label nodes] tokens := by
  simp [TranslationUnit.appendLabel, hnodes, TranslationUnit.withBlocks,
    TranslationUnit.setTokens, Block.externalNode, Block.entryNode, Block.instructionLabel,
    Block.guidanceLabel]

theorem appendLabel_guidance (unit : TranslationUnit) (tokens : List Token)
    (label : Option Token) {nodes : List GuidanceNode} (hnodes : nodes ≠ []) :
    (unit.setTokens tokens).appendLabel
        { LabelNode.zero with label := label, guidanceList := nodes } =
      unit.withBlocks [.guidance label nodes] tokens := by
  simp [TranslationUnit.appendLabel, LabelNode.zero, hnodes, TranslationUnit.withBlocks,
    TranslationUnit.setTokens, Block.externalNode, Block.entryNode, Block.instructionLabel,
    Block.guidanceLabel]

/-- **A block of a program is one round**, which takes the directives behind it
with it. -/
theorem BlockLines.round {ending : Ending} {token : Token} {tokens rest : List Token}
    {block : Block} (h : BlockLines ending (token :: tokens) block rest)
    (hne : token.type ≠ .eol) {ending' : Ending} {blocks : List Block}
    (hrest : Program ending' rest blocks) (unit : TranslationUnit) :
    ∃ ending'' tokens' block' blocks',
      contentRound (unit.setTokens (token :: tokens)) = .ok (unit.withBlocks [block'] tokens') ∧
      Program ending'' tokens' blocks' ∧
      mergeBlocks (block :: blocks) = block' :: mergeBlocks blocks' ∧ tokens' <:+ tokens := by
  have hsuffix := h.behind.of_cons
  cases h with
  | instructions hlabel hlines hnodes =>
      rename_i colon tokens nodes
      refine ⟨ending', Assembler.skipEol rest, .instructions token nodes, blocks, ?_,
        hrest.skipEol, mergeBlocks_cons (by simp) _, (skipEol_suffix rest).trans hsuffix⟩
      rw [contentRound_statement (Or.inl hlabel.labelType), parseLabeledStatement_label hlabel,
        parseStatementBody_instructions hlines hnodes, hrest.instruction_loop]
      rw [appendLabel_instructions unit _ token hnodes]
  | labelled hlabel hlines hnodes =>
      rename_i colon tokens nodes
      obtain ⟨ending'', tokens', blocks', hloop, hprogram, hmerge, hguidance⟩ :=
        hrest.readsGuidance unit nodes
      have hmore : nodes ++ leadingGuidance (mergeBlocks blocks) ≠ [] := by simp [hnodes]
      refine ⟨ending'', tokens',
        .guidance (some token) (nodes ++ leadingGuidance (mergeBlocks blocks)),
        blocks', ?_, hprogram, ?_, hguidance.trans hsuffix⟩
      · rw [contentRound_statement (Or.inl hlabel.labelType), parseLabeledStatement_label hlabel,
          parseStatementBody_guidance hlines hnodes, hloop, appendLabel_guidance unit _ _ hmore]
      · rw [mergeBlocks_guidance, hmerge]
  | unlabelled hlines hnodes =>
      rename_i nodes
      obtain ⟨ending'', tokens', blocks', hloop, hprogram, hmerge, hguidance⟩ :=
        hrest.readsGuidance unit nodes
      have hmore : nodes ++ leadingGuidance (mergeBlocks blocks) ≠ [] := by simp [hnodes]
      have hskip : Assembler.skipEol (token :: tokens) = token :: tokens := skipEol_of_ne hne
      have hdirective : isGuidanceToken token.type = true := by
        obtain ⟨-, token', rest', heq, haccepts⟩ := guidanceReader.lines_skipEol hlines hnodes
        rw [hskip] at heq
        rwa [(List.cons.inj heq).1]
      have hlabel : token.type ≠ .identifier := by
        intro hlabel
        rw [hlabel] at hdirective
        exact absurd hdirective (by decide)
      have hbody := parseStatementBody_guidance hlines hnodes unit .zero false
      rw [hskip, hloop] at hbody
      refine ⟨ending'', tokens', .guidance none (nodes ++ leadingGuidance (mergeBlocks blocks)),
        blocks', ?_, hprogram, ?_, hguidance.trans hsuffix⟩
      · rw [contentRound_statement (Or.inr hdirective)]
        have hparse : parseLabeledStatement (unit.setTokens (token :: tokens)) =
            parseStatementBody (unit.setTokens (token :: tokens)) .zero false := by
          simp [parseLabeledStatement, hlabel]
        rw [hparse, hbody, ← appendLabel_guidance unit _ none hmore]
        rfl
      · rw [mergeBlocks_guidance, hmerge]

/-- A line break in front changes nothing. -/
theorem contentLoop_skipEol (unit : TranslationUnit) (tokens : List Token) :
    contentLoop (.ok (unit.setTokens tokens)) =
      contentLoop (.ok (unit.setTokens (skipEol tokens))) := by
  induction tokens with
  | nil => rfl
  | cons token tokens ih =>
      by_cases heol : token.type = .eol
      · have hround : contentRound (unit.setTokens (token :: tokens)) =
            .ok (unit.setTokens tokens) := by
          simp [contentRound, heol]
        rw [skipEol_eol heol, contentLoop_step rfl (by simp [heol]), hround, ih]
      · rw [skipEol_of_ne heol]

/-- Behind skipped line breaks there is none. -/
theorem skipEol_head {tokens rest : List Token} {token : Token}
    (h : skipEol tokens = token :: rest) : token.type ≠ .eol := by
  induction tokens with
  | nil => exact absurd h (by simp [skipEol])
  | cons first tokens ih =>
      by_cases heol : first.type = .eol
      · rw [skipEol_eol heol] at h
        exact ih h
      · rw [skipEol_of_ne heol] at h
        rwa [← (List.cons.inj h).1]

/-- A round at the first statement of a program reads one block of it, or a
label that is cut off. -/
theorem Program.round {ending : Ending} {token : Token} {rest : List Token}
    {blocks : List Block} (h : Program ending (token :: rest) blocks)
    (heol : token.type ≠ .eol) (heof : token.type ≠ .eoft) (unit : TranslationUnit) :
    ∃ ending' tokens' read blocks',
      contentRound (unit.setTokens (token :: rest)) = .ok (unit.withBlocks read tokens') ∧
      Program ending' tokens' blocks' ∧ mergeBlocks blocks = read ++ mergeBlocks blocks' ∧
      tokens' <:+ rest := by
  generalize htokens : token :: rest = tokens at h
  cases h with
  | eoft htype => exact absurd ((List.cons.inj htokens).1 ▸ htype) heof
  | null => exact absurd htokens (List.cons_ne_nil _ _)
  | blank htype _ => exact absurd ((List.cons.inj htokens).1 ▸ htype) heol
  | @skipped _ _ line after rest' blocks htoken hline hend tail =>
      obtain ⟨rfl, rfl⟩ := List.cons.inj htokens
      have hskip : endOfLine (line ++ after) = rest' := by
        clear htokens tail
        induction line with
        | nil => exact hend.endOfLine
        | cons t line ih =>
            rw [List.cons_append, endOfLine_cons (hline t (by simp))]
            exact ih (fun u hu => hline u (by simp [hu]))
      refine ⟨ending, rest', [.skipped], blocks, ?_, tail, rfl, ?_⟩
      · rw [withBlocks_skipped, withBlocks_nil, ← hskip, ← endOfLine_cons ⟨heol, heof⟩]
        rcases htoken with htoken | htoken <;>
          simp [contentRound, htoken, parserMoveToEndOfLine]
      · exact hend.suffix.trans (List.suffix_append _ _)
  | @external _ _ label after rest' blocks hdirective hlabel hend tail =>
      obtain ⟨rfl, rfl⟩ := List.cons.inj htokens
      refine ⟨ending, rest', [.external label], blocks, ?_, tail, rfl, ?_⟩
      · rw [withBlocks_external]
        simp only [contentRound, setTokens_tokens, hdirective, reduceCtorEq, if_false, if_true,
          parserParseExternal_parses hdirective hlabel hend]
        rfl
      · exact hend.suffix.trans (List.suffix_cons _ _)
  | @entry _ _ label after rest' blocks hdirective hlabel hend tail =>
      obtain ⟨rfl, rfl⟩ := List.cons.inj htokens
      refine ⟨ending, rest', [.entry label], blocks, ?_, tail, rfl, ?_⟩
      · rw [withBlocks_entry]
        simp only [contentRound, setTokens_tokens, hdirective, reduceCtorEq, if_false, if_true,
          parserParseEntry_parses hdirective hlabel hend]
        rfl
      · exact hend.suffix.trans (List.suffix_cons _ _)
  | block hblock tail =>
      subst htokens
      obtain ⟨ending', tokens', block', blocks', hround, hprogram, hmerge, hsuffix⟩ :=
        hblock.round heol tail unit
      exact ⟨ending', tokens', [block'], blocks', hround, hprogram, hmerge, hsuffix⟩
  | lastBlock hending hblock =>
      subst htokens
      obtain ⟨_, tail⟩ := exists_program_atEnd (hblock.atEnd hending)
      obtain ⟨ending', tokens', block', blocks', hround, hprogram, hmerge, hsuffix⟩ :=
        hblock.round heol tail unit
      exact ⟨ending', tokens', [block'], blocks', hround, hprogram, hmerge, hsuffix⟩
  | @labelCut _ colon blanks hlabel hblanks =>
      obtain ⟨rfl, rfl⟩ := List.cons.inj htokens
      have hskip : Assembler.skipEol blanks = [] := by
        simpa [Assembler.skipEol] using hblanks
      refine ⟨.cut, [], [], [], ?_, .null, rfl, List.nil_suffix⟩
      rw [contentRound_statement (Or.inl hlabel.labelType), parseLabeledStatement_label hlabel,
        hskip, withBlocks_nil]
      rfl

/-- Without tokens a program has no blocks. -/
theorem Program.nil_blocks {ending : Ending} {blocks : List Block}
    (h : Program ending [] blocks) : blocks = [] := by
  have hblock : ∀ {ending rest block}, ¬ BlockLines ending [] block rest := by
    intro ending rest block hblock
    obtain ⟨_, _, hnil, -⟩ := hblock.behind
    exact List.cons_ne_nil _ _ hnil.symm
  generalize htokens : ([] : List Token) = tokens at h
  cases h with
  | null => rfl
  | block h _ => exact absurd (htokens ▸ h) hblock
  | lastBlock _ h => exact absurd (htokens ▸ h) hblock
  | _ => exact absurd htokens.symm (List.cons_ne_nil _ _)

/-- At the end of a file it has none either. -/
theorem Program.eoft_blocks {ending : Ending} {eof : Token} {rest : List Token}
    {blocks : List Block} (h : Program ending (eof :: rest) blocks) (heof : eof.type = .eoft) :
    ending = .closed ∧ blocks = [] := by
  have hblock : ∀ {ending rest' block}, ¬ BlockLines ending (eof :: rest) block rest' := by
    intro ending rest' block hblock
    cases hblock with
    | instructions hlabel _ _ => exact absurd (hlabel.labelType.symm.trans heof) (by decide)
    | labelled hlabel _ _ => exact absurd (hlabel.labelType.symm.trans heof) (by decide)
    | unlabelled hlines hnodes =>
        exact hnodes (guidanceReader.lines_atEnd hlines (Or.inr ⟨_, _, rfl, heof⟩)).2.1
  generalize htokens : eof :: rest = tokens at h
  cases h with
  | eoft => exact ⟨rfl, rfl⟩
  | null => exact absurd htokens (List.cons_ne_nil _ _)
  | blank htype _ =>
      rw [← (List.cons.inj htokens).1, heof] at htype
      exact absurd htype (by decide)
  | skipped htype _ _ _ =>
      rw [← (List.cons.inj htokens).1, heof] at htype
      exact absurd htype (by decide)
  | external htype _ _ _ =>
      rw [← (List.cons.inj htokens).1, heof] at htype
      exact absurd htype (by decide)
  | entry htype _ _ _ =>
      rw [← (List.cons.inj htokens).1, heof] at htype
      exact absurd htype (by decide)
  | block h _ => exact absurd (htokens ▸ h) hblock
  | lastBlock _ h => exact absurd (htokens ▸ h) hblock
  | labelCut hlabel _ =>
      have htype := hlabel.labelType
      rw [← (List.cons.inj htokens).1, heof] at htype
      exact absurd htype (by decide)

/-- What the main loop makes of the tokens of a program. -/
def Builds (unit : TranslationUnit) (tokens : List Token) (blocks : List Block) : Prop :=
  ∃ tokens', AtEnd tokens' ∧ contentLoop (.ok (unit.setTokens tokens)) =
    .ok (unit.withBlocks (mergeBlocks blocks) tokens')

/-- At the end of the tokens the parser builds nothing. -/
theorem builds_atEnd {unit : TranslationUnit} {tokens : List Token} (h : AtEnd tokens) :
    Builds unit tokens [] :=
  ⟨tokens, h, by rw [contentLoop_atEnd h]; exact congrArg _ (withBlocks_nil unit tokens).symm⟩

/-- **A program is read without an error**, and its blocks are the new
statements of the unit. -/
theorem Program.parses {ending : Ending} {tokens : List Token} {blocks : List Block}
    (h : Program ending tokens blocks) (unit : TranslationUnit) :
    Builds unit tokens blocks := by
  induction hn : tokens.length using Nat.strong_induction_on
    generalizing ending tokens blocks unit with
  | h n ih =>
      subst hn
      have hskipped := h.skipEol
      have hlength := (skipEol_suffix tokens).length_le
      suffices hbuilds : Builds unit (Assembler.skipEol tokens) blocks by
        obtain ⟨tokens', hend, hloop⟩ := hbuilds
        exact ⟨tokens', hend, by rw [contentLoop_skipEol, hloop]⟩
      cases htokens : Assembler.skipEol tokens with
      | nil =>
          rw [htokens] at hskipped
          rw [hskipped.nil_blocks]
          exact builds_atEnd (Or.inl rfl)
      | cons token rest =>
          rw [htokens] at hskipped hlength
          by_cases heof : token.type = .eoft
          · rw [(hskipped.eoft_blocks heof).2]
            exact builds_atEnd (Or.inr ⟨token, rest, rfl, heof⟩)
          obtain ⟨ending', rest', read, blocks', hround, hprogram, hmerge, hsuffix⟩ :=
            hskipped.round (skipEol_head htokens) heof unit
          have hlt : rest'.length < tokens.length :=
            Nat.lt_of_lt_of_le (Nat.lt_succ_of_le hsuffix.length_le) hlength
          obtain ⟨tokens', hend, hloop⟩ :=
            ih rest'.length hlt hprogram (unit.withBlocks read rest') rfl
          refine ⟨tokens', hend, ?_⟩
          rw [contentLoop_step rfl heof, hround, hmerge]
          rwa [withBlocks_setTokens, withBlocks_withBlocks] at hloop

end Assembler
