import CLab.ParserSteps

/-!
# What the parser does with the blocks of a program

`.entry` and `.extern` lines, the lines behind a label, and how far the loops
for lists of lines run into the program behind a block: a run of directives
takes the unlabelled directives that follow (`Program.readsGuidance`), a run of
instructions only the blank lines (`Program.instruction_loop`).
-/

namespace Assembler

/-! ## `.entry` and `.extern` -/

/-- At a line end a directive is finished without an error. -/
theorem finishDirective_lineEnd {after rest : List Token} (h : LineEnd after rest)
    (unit : TranslationUnit) (message : String) :
    finishDirective (unit.setTokens after) message = (unit.setTokens rest, false) := by
  cases h with
  | eol heol => simp [finishDirective, heol]
  | eoft heoft => simp [finishDirective, heoft]
  | null => rfl

theorem finishDirective_cases (unit : TranslationUnit) (message : String) :
    Failed unit (finishDirective unit message).1 ∨
    ∃ rest, LineEnd unit.tokens rest ∧
      finishDirective unit message = (unit.setTokens rest, false) := by
  by_cases hend : atLineEnd unit.tokens = true
  · obtain ⟨rest, hend⟩ := exists_lineEnd hend
    have hfinish := finishDirective_lineEnd hend unit message
    rw [setTokens_eq_self rfl] at hfinish
    exact Or.inr ⟨rest, hend, hfinish⟩
  · apply Or.inl
    unfold finishDirective
    cases htokens : unit.tokens with
    | nil => exact absurd (by rw [htokens]; rfl) hend
    | cons next rest =>
        have hnext : next.type ≠ .eol ∧ next.type ≠ .eoft := by
          simpa [atLineEnd, htokens] using hend
        simp only [if_pos hnext]
        exact failed_reportError _ _ _

/-- An external of the grammar is read as one. -/
theorem parserParseExternal_parses {directive label : Token} {after rest : List Token}
    (hdirective : directive.type = .externIns) (hlabel : label.type = .identifier)
    (hend : LineEnd after rest) (unit : TranslationUnit) :
    parserParseExternal (unit.setTokens (directive :: label :: after)) =
      (unit.setTokens rest, { externalLabel := some label, hasParserError := false }) := by
  simp [parserParseExternal, hdirective, hlabel, finishDirective_lineEnd hend]

theorem parserParseEntry_parses {directive label : Token} {after rest : List Token}
    (hdirective : directive.type = .entryIns) (hlabel : label.type = .identifier)
    (hend : LineEnd after rest) (unit : TranslationUnit) :
    parserParseEntry (unit.setTokens (directive :: label :: after)) =
      .ok (unit.setTokens rest, { entryLabel := some label, hasParserError := false }) := by
  simp [parserParseEntry, hdirective, hlabel, finishDirective_lineEnd hend]

/-- A `.extern` line fails or is one of the grammar. -/
theorem parserParseExternal_cases {unit : TranslationUnit} {directive : Token}
    {rest : List Token} (htokens : unit.tokens = directive :: rest)
    (hdirective : directive.type = .externIns) :
    Failed (unit.setTokens rest) (parserParseExternal unit).1 ∨
    ∃ label after rest', rest = label :: after ∧ label.type = .identifier ∧
      LineEnd after rest' := by
  cases rest with
  | nil =>
      apply Or.inl
      simp only [parserParseExternal, htokens, hdirective, ne_eq, not_true_eq_false, if_false]
      exact failed_reportError _ _ _
  | cons label after =>
      by_cases hlabel : label.type = .identifier
      · rcases finishDirective_cases (unit.setTokens after)
          "Unexpected tokens after .extern identifier" with hfailed | ⟨rest', hend, -⟩
        · apply Or.inl
          have hgrows : Grows (unit.setTokens (label :: after)) (unit.setTokens after) :=
            grows_setTokens (List.suffix_cons _ _)
          simp only [parserParseExternal, htokens, hdirective, hlabel, ne_eq,
            not_true_eq_false, if_false]
          exact hgrows.failed hfailed
        · exact Or.inr ⟨label, after, rest', rfl, hlabel, hend⟩
      · apply Or.inl
        simp only [parserParseExternal, htokens, hdirective, hlabel, ne_eq, not_true_eq_false,
          if_false, not_false_eq_true, if_true]
        exact failed_reportError _ _ _

/-- `.entry` differs from `.extern` at the end of the list only. -/
theorem parserParseEntry_cases {unit : TranslationUnit} {directive : Token}
    {rest : List Token} (htokens : unit.tokens = directive :: rest)
    (hdirective : directive.type = .entryIns) :
    (rest = [] ∧ parserParseEntry unit = .error .nullDereference) ∨
    (∃ unit' node, parserParseEntry unit = .ok (unit', node) ∧
      Failed (unit.setTokens rest) unit') ∨
    ∃ label after rest', rest = label :: after ∧ label.type = .identifier ∧
      LineEnd after rest' := by
  cases rest with
  | nil =>
      refine Or.inl ⟨rfl, ?_⟩
      simp [parserParseEntry, htokens, hdirective]
  | cons label after =>
      apply Or.inr
      by_cases hlabel : label.type = .identifier
      · rcases finishDirective_cases (unit.setTokens after)
          "Unexpected tokens after .entry identifier" with hfailed | ⟨rest', hend, -⟩
        · have hgrows : Grows (unit.setTokens (label :: after)) (unit.setTokens after) :=
            grows_setTokens (List.suffix_cons _ _)
          have hparse : ∃ node, parserParseEntry unit = .ok ((finishDirective
              (unit.setTokens after) "Unexpected tokens after .entry identifier").1, node) := by
            simp [parserParseEntry, htokens, hdirective, hlabel]
          obtain ⟨node, hparse⟩ := hparse
          exact Or.inl ⟨_, node, hparse, hgrows.failed hfailed⟩
        · exact Or.inr ⟨label, after, rest', rfl, hlabel, hend⟩
      · have hparse : ∃ node, parserParseEntry unit =
            .ok ((unit.setTokens (label :: after)).reportError
              "Expected identifier after .entry directive" label, node) := by
          simp [parserParseEntry, htokens, hdirective, hlabel]
        obtain ⟨node, hparse⟩ := hparse
        exact Or.inl ⟨_, node, hparse, failed_reportError _ _ _⟩

/-! ## Blocks -/

/-- Skipping line breaks stays inside the list. -/
theorem skipEol_suffix (tokens : List Token) : skipEol tokens <:+ tokens :=
  List.dropWhile_suffix _

/-- What is no line break is not skipped. -/
theorem skipEol_of_ne {token : Token} {rest : List Token} (h : token.type ≠ .eol) :
    skipEol (token :: rest) = token :: rest := by
  simp [skipEol, h]

theorem skipEol_eol {token : Token} {rest : List Token} (h : token.type = .eol) :
    skipEol (token :: rest) = skipEol rest := by
  simp [skipEol, h]

namespace LineReader

variable {α : Type} {Line : Ending → List Token → α → List Token → Prop}
  {accepts : TokenType → Bool} {round : TranslationUnit × List α → TranslationUnit × List α}
  (reader : LineReader Line accepts round)

include reader

/-- A token that starts a line of the block ends none. -/
theorem accepts_ne {type : TokenType} (h : accepts type = true) :
    type ≠ .eol ∧ type ≠ .eoft := by
  constructor <;> intro heq <;> rw [heq] at h
  · rw [reader.accepts_eol] at h
    exact Bool.false_ne_true h
  · rw [reader.accepts_eoft] at h
    exact Bool.false_ne_true h

/-- Behind the blank lines in front of some lines stands the first of them. -/
theorem lines_skipEol {ending : Ending} {tokens rest : List Token} {nodes : List α}
    (h : Lines Line ending tokens nodes rest) (hnodes : nodes ≠ []) :
    Lines Line ending (skipEol tokens) nodes rest ∧
      ∃ token rest', skipEol tokens = token :: rest' ∧ accepts token.type = true := by
  induction h with
  | nil => exact absurd rfl hnodes
  | blank heol _ ih =>
      rw [skipEol_eol heol]
      exact ih hnodes
  | cons hline tail _ =>
      obtain ⟨token, rest', rfl, haccepts⟩ := reader.starts hline
      rw [skipEol_of_ne (reader.accepts_ne haccepts).1]
      exact ⟨.cons hline tail, token, rest', rfl, haccepts⟩
  | last hending hline =>
      obtain ⟨token, rest', rfl, haccepts⟩ := reader.starts hline
      rw [skipEol_of_ne (reader.accepts_ne haccepts).1]
      exact ⟨.last hending hline, token, rest', rfl, haccepts⟩

omit reader in
/-- Lines behind some blank lines are lines. -/
theorem lines_of_skipEol {ending : Ending} {tokens rest : List Token} {nodes : List α}
    (h : Lines Line ending (skipEol tokens) nodes rest) :
    Lines Line ending tokens nodes rest := by
  induction tokens with
  | nil => exact h
  | cons token tokens ih =>
      by_cases heol : token.type = .eol
      · rw [skipEol_eol heol] at h
        exact .blank heol (ih h)
      · rwa [skipEol_of_ne heol] at h

/-- Lines that are there take up tokens. -/
theorem lines_behind {ending : Ending} {tokens rest : List Token} {nodes : List α}
    (h : Lines Line ending tokens nodes rest) (hnodes : nodes ≠ []) : Behind tokens rest := by
  induction h with
  | nil => exact absurd rfl hnodes
  | blank _ _ ih => exact behind_cons (ih hnodes).suffix
  | cons hline tail _ => exact (reader.behind hline).trans (reader.lines_suffix tail)
  | last _ hline => exact reader.behind hline

/-- Behind lines with an open ending there is nothing left. -/
theorem lines_atEnd_rest {ending : Ending} {tokens rest : List Token} {nodes : List α}
    (h : Lines Line ending tokens nodes rest) (hending : ending ≠ .closed) : AtEnd rest := by
  induction h with
  | nil => exact absurd rfl hending
  | blank _ _ ih => exact ih hending
  | cons _ _ ih => exact ih hending
  | last _ hline => exact reader.atEnd hending hline

omit reader in
/-- The loop stops where its condition fails. -/
theorem loop_exit {s : TranslationUnit × List α} (hs : listGoesOn accepts s.1 = false) :
    listLoop accepts round s = s :=
  While.loop_exit hs

end LineReader

/-- A block takes up tokens. -/
theorem BlockLines.behind {ending : Ending} {tokens rest : List Token} {block : Block}
    (h : BlockLines ending tokens block rest) : Behind tokens rest := by
  cases h with
  | instructions _ hlines hnodes =>
      exact behind_cons ((instructionReader.lines_suffix hlines).trans (List.suffix_cons _ _))
  | labelled _ hlines hnodes =>
      exact behind_cons ((guidanceReader.lines_suffix hlines).trans (List.suffix_cons _ _))
  | unlabelled hlines hnodes => exact guidanceReader.lines_behind hlines hnodes

/-- Behind a block with an open ending there is nothing left. -/
theorem BlockLines.atEnd {ending : Ending} {tokens rest : List Token} {block : Block}
    (h : BlockLines ending tokens block rest) (hending : ending ≠ .closed) : AtEnd rest := by
  cases h with
  | instructions _ hlines _ => exact instructionReader.lines_atEnd_rest hlines hending
  | labelled _ hlines _ => exact guidanceReader.lines_atEnd_rest hlines hending
  | unlabelled hlines _ => exact guidanceReader.lines_atEnd_rest hlines hending

/-- Line breaks in front of a block can be skipped. -/
theorem BlockLines.skipEol {ending : Ending} {tokens rest : List Token} {block : Block}
    (h : BlockLines ending tokens block rest) :
    BlockLines ending (skipEol tokens) block rest := by
  cases h with
  | instructions hcolon hlines hnodes =>
      rw [skipEol_of_ne (by simp [hcolon.labelType])]
      exact .instructions hcolon hlines hnodes
  | labelled hcolon hlines hnodes =>
      rw [skipEol_of_ne (by simp [hcolon.labelType])]
      exact .labelled hcolon hlines hnodes
  | unlabelled hlines hnodes =>
      exact .unlabelled (guidanceReader.lines_skipEol hlines hnodes).1 hnodes

/-- At the end nothing is left to read. -/
theorem exists_program_atEnd {tokens : List Token} (h : AtEnd tokens) :
    ∃ ending, Program ending tokens [] := by
  obtain rfl | ⟨eof, rest, rfl, heof⟩ := h
  · exact ⟨_, .null⟩
  · exact ⟨_, .eoft heof⟩

/-- What a label with its colon is followed by. -/
theorem parseLabeledStatement_label {label colon : Token} (h : LabelColon label colon)
    (unit : TranslationUnit) (tokens : List Token) :
    parseLabeledStatement (unit.setTokens (label :: colon :: tokens)) =
      parseStatementBody (unit.setTokens (skipEol tokens))
        { LabelNode.zero with label := some label } true := by
  simp [parseLabeledStatement, h.labelType, h.colonType, h.adjacent]

/-- A directive is no mnemonic. -/
theorem isGuidanceToken_not_instruction {type : TokenType} (h : isGuidanceToken type = true) :
    isInstructionToken type = false := by
  simp only [isGuidanceToken, Bool.or_eq_true, decide_eq_true_eq] at h
  rcases h with rfl | rfl <;> rfl

/-- The statements behind a label, up to where the lines of a block end. -/
theorem parseStatementBody_instructions {ending : Ending} {tokens rest : List Token}
    {nodes : List InstructionNode} (hlines : Lines Instruction ending tokens nodes rest)
    (hnodes : nodes ≠ []) (unit : TranslationUnit) (label : LabelNode) :
    parseStatementBody (unit.setTokens (skipEol tokens)) label true =
      ((listLoop isInstructionToken instructionListRound (unit.setTokens rest, nodes)).1,
        { label with instructionList :=
            (listLoop isInstructionToken instructionListRound
              (unit.setTokens rest, nodes)).2 }) := by
  obtain ⟨hskip, token, rest', htokens, hop⟩ := instructionReader.lines_skipEol hlines hnodes
  have hloop := instructionReader.loop_lines hskip unit []
  rw [List.nil_append] at hloop
  rw [← hloop, htokens]
  simp [parseStatementBody, hop, parserParseInstructionList_eq]

/-- A body of directives is read by their loop. -/
theorem parseStatementBody_guidance {ending : Ending} {tokens rest : List Token}
    {nodes : List GuidanceNode} (hlines : Lines GuidanceLine ending tokens nodes rest)
    (hnodes : nodes ≠ []) (unit : TranslationUnit) (label : LabelNode) (found : Bool) :
    parseStatementBody (unit.setTokens (skipEol tokens)) label found =
      ((listLoop isGuidanceToken guidanceListRound (unit.setTokens rest, nodes)).1,
        { label with guidanceList :=
            (listLoop isGuidanceToken guidanceListRound (unit.setTokens rest, nodes)).2 }) := by
  obtain ⟨hskip, token, rest', htokens, hdirective⟩ := guidanceReader.lines_skipEol hlines hnodes
  have hloop := guidanceReader.loop_lines hskip unit []
  rw [List.nil_append] at hloop
  rw [← hloop, htokens]
  simp [parseStatementBody, isGuidanceToken_not_instruction hdirective, hdirective,
    parserParseGuidanceList_eq]

/-! ## Runs of directives -/

/-- The directives a list of merged blocks goes on with. -/
def leadingGuidance : List Block → List GuidanceNode
  | .guidance none nodes :: _ => nodes
  | _ => []

/-- The blocks behind those directives. -/
def behindGuidance : List Block → List Block
  | .guidance none _ :: rest => rest
  | blocks => blocks

/-- Directives are joined with those that come next. -/
theorem mergeBlocks_guidance (label : Option Token) (nodes : List GuidanceNode)
    (blocks : List Block) :
    mergeBlocks (.guidance label nodes :: blocks) =
      .guidance label (nodes ++ leadingGuidance (mergeBlocks blocks)) ::
        behindGuidance (mergeBlocks blocks) := by
  show joinBlock _ (mergeBlocks blocks) = _
  cases mergeBlocks blocks with
  | nil => simp [joinBlock, leadingGuidance, behindGuidance]
  | cons block rest =>
      cases block with
      | guidance label' nodes' =>
          cases label' <;> simp [joinBlock, leadingGuidance, behindGuidance]
      | _ => simp [joinBlock, leadingGuidance, behindGuidance]

/-- A block that is not a run of directives without a label stays as it is. -/
theorem mergeBlocks_cons {block : Block} (h : ∀ label nodes, block ≠ .guidance label nodes)
    (blocks : List Block) : mergeBlocks (block :: blocks) = block :: mergeBlocks blocks := by
  cases block with
  | guidance label nodes => exact absurd rfl (h label nodes)
  | _ => rfl

/-- The loop of directives from a point of a program with the given blocks: it
reads the directives the program goes on with, and stops in front of a program
with the other blocks. -/
def ReadsGuidance (unit : TranslationUnit) (nodes : List GuidanceNode) (tokens : List Token)
    (blocks : List Block) : Prop :=
  ∃ ending tokens' blocks', listLoop isGuidanceToken guidanceListRound
      (unit.setTokens tokens, nodes) =
        (unit.setTokens tokens', nodes ++ leadingGuidance (mergeBlocks blocks)) ∧
    Program ending tokens' blocks' ∧
    mergeBlocks blocks' = behindGuidance (mergeBlocks blocks) ∧
    tokens' <:+ tokens

/-- In front of anything that is no directive the loop stops at once. -/
theorem readsGuidance_stop {ending : Ending} {tokens : List Token} {blocks : List Block}
    (h : Program ending tokens blocks) {unit : TranslationUnit} {nodes : List GuidanceNode}
    (hgo : listGoesOn isGuidanceToken (unit.setTokens tokens) = false)
    (hleading : leadingGuidance (mergeBlocks blocks) = [])
    (hbehind : behindGuidance (mergeBlocks blocks) = mergeBlocks blocks) :
    ReadsGuidance unit nodes tokens blocks := by
  refine ⟨ending, tokens, blocks, ?_, h, hbehind.symm, List.suffix_refl _⟩
  rw [LineReader.loop_exit hgo, hleading, List.append_nil]

/-- A list loop stops at a token it does not accept. -/
theorem listGoesOn_false {accepts : TokenType → Bool} {unit : TranslationUnit} {token : Token}
    {rest : List Token} (heol : token.type ≠ .eol) (haccepts : accepts token.type = false) :
    listGoesOn accepts (unit.setTokens (token :: rest)) = false := by
  simp [listGoesOn, heol, haccepts]

/-- **A run of directives goes on as far as it can.** -/
theorem Program.readsGuidance {ending : Ending} {tokens : List Token} {blocks : List Block}
    (h : Program ending tokens blocks) (unit : TranslationUnit) (nodes : List GuidanceNode) :
    ReadsGuidance unit nodes tokens blocks := by
  have hlabel : ∀ {label colon : Token} {rest : List Token}, LabelColon label colon →
      listGoesOn isGuidanceToken (unit.setTokens (label :: rest)) = false := by
    intro label colon rest hlabel
    exact listGoesOn_false (by simp [hlabel.labelType])
      (by simp [hlabel.labelType, isGuidanceToken])
  induction h generalizing nodes with
  | eoft heof =>
      exact readsGuidance_stop (.eoft heof)
        (listGoesOn_false (by simp [heof]) (by simp [heof, isGuidanceToken])) rfl rfl
  | null => exact readsGuidance_stop .null rfl rfl rfl
  | labelCut hcolon hblanks =>
      exact readsGuidance_stop (.labelCut hcolon hblanks) (hlabel hcolon) rfl rfl
  | blank heol _ ih =>
      obtain ⟨ending', tokens', blocks', hloop, hprogram, hmerge, hsuffix⟩ := ih nodes
      refine ⟨ending', tokens', blocks', ?_, hprogram, hmerge,
        hsuffix.trans (List.suffix_cons _ _)⟩
      rw [guidanceReader.loop_step (by simp [listGoesOn, heol]),
        guidanceReader.blank unit _ nodes heol, hloop]
  | skipped htoken hline hend tail _ =>
      refine readsGuidance_stop (.skipped htoken hline hend tail) (listGoesOn_false ?_ ?_) rfl rfl
      · rcases htoken with htoken | htoken <;> simp [htoken]
      · rcases htoken with htoken | htoken <;> simp [htoken, isGuidanceToken]
  | external hdirective htype hend tail _ =>
      exact readsGuidance_stop (.external hdirective htype hend tail)
        (listGoesOn_false (by simp [hdirective]) (by simp [hdirective, isGuidanceToken])) rfl rfl
  | entry hdirective htype hend tail _ =>
      exact readsGuidance_stop (.entry hdirective htype hend tail)
        (listGoesOn_false (by simp [hdirective]) (by simp [hdirective, isGuidanceToken])) rfl rfl
  | block hblock tail ih =>
      cases hblock with
      | instructions hcolon hlines hnodes =>
          exact readsGuidance_stop (.block (.instructions hcolon hlines hnodes) tail)
            (hlabel hcolon) rfl rfl
      | labelled hcolon hlines hnodes =>
          refine readsGuidance_stop (.block (.labelled hcolon hlines hnodes) tail)
            (hlabel hcolon) ?_ ?_
          · rw [mergeBlocks_guidance]
            rfl
          · rw [mergeBlocks_guidance]
            rfl
      | unlabelled hlines hnodes =>
          obtain ⟨ending', tokens', blocks', hloop, hprogram, hmerge, hsuffix⟩ := ih (nodes ++ _)
          refine ⟨ending', tokens', blocks', ?_, hprogram, ?_, ?_⟩
          · rw [guidanceReader.loop_lines hlines, hloop, mergeBlocks_guidance]
            simp [leadingGuidance]
          · rw [hmerge, mergeBlocks_guidance]
            rfl
          · exact hsuffix.trans (guidanceReader.lines_suffix hlines)
  | lastBlock hending hblock =>
      cases hblock with
      | instructions hcolon hlines hnodes =>
          exact readsGuidance_stop (.lastBlock hending (.instructions hcolon hlines hnodes))
            (hlabel hcolon) rfl rfl
      | labelled hcolon hlines hnodes =>
          exact readsGuidance_stop (.lastBlock hending (.labelled hcolon hlines hnodes))
            (hlabel hcolon) rfl rfl
      | unlabelled hlines hnodes =>
          have hatEnd := guidanceReader.lines_atEnd_rest hlines hending
          obtain ⟨ending', hprogram⟩ := exists_program_atEnd hatEnd
          refine ⟨ending', _, [], ?_, hprogram, rfl, guidanceReader.lines_suffix hlines⟩
          rw [guidanceReader.loop_lines hlines,
            LineReader.loop_exit (guidanceReader.stops_atEnd hatEnd)]
          rfl

/-- The blank lines a program begins with can be skipped. -/
theorem Program.skipEol {ending : Ending} {tokens : List Token} {blocks : List Block}
    (h : Program ending tokens blocks) : Program ending (skipEol tokens) blocks := by
  induction h with
  | eoft heof =>
      rw [skipEol_of_ne (by simp [heof])]
      exact .eoft heof
  | null => exact .null
  | labelCut hcolon hblanks =>
      rw [skipEol_of_ne (by simp [hcolon.labelType])]
      exact .labelCut hcolon hblanks
  | blank heol _ ih =>
      rw [skipEol_eol heol]
      exact ih
  | skipped htoken hline hend tail _ =>
      rw [skipEol_of_ne (by rcases htoken with htoken | htoken <;> simp [htoken])]
      exact .skipped htoken hline hend tail
  | external hdirective htype hend tail _ =>
      rw [skipEol_of_ne (by simp [hdirective])]
      exact .external hdirective htype hend tail
  | entry hdirective htype hend tail _ =>
      rw [skipEol_of_ne (by simp [hdirective])]
      exact .entry hdirective htype hend tail
  | block hblock tail _ => exact .block hblock.skipEol tail
  | lastBlock hending hblock => exact .lastBlock hending hblock.skipEol

/-- What a statement of a program begins with. -/
def startsStatement (type : TokenType) : Bool :=
  type = .macr || type = .endmacr || type = .externIns || type = .entryIns ||
    type = .identifier || isGuidanceToken type

/-- What starts a statement is no mnemonic. -/
theorem startsStatement_not_instruction {type : TokenType} (h : startsStatement type = true) :
    isInstructionToken type = false := by
  cases type <;> first | rfl | exact absurd h (by decide)

/-- Behind its blank lines a program begins with a statement, or ends. -/
theorem Program.starts {ending : Ending} {tokens : List Token} {blocks : List Block}
    (h : Program ending tokens blocks) : AtEnd (Assembler.skipEol tokens) ∨
      ∃ token rest, Assembler.skipEol tokens = token :: rest ∧
        startsStatement token.type = true := by
  have hblock : ∀ {ending tokens rest block}, BlockLines ending tokens block rest →
      ∃ token rest, Assembler.skipEol tokens = token :: rest ∧
        startsStatement token.type = true := by
    intro ending tokens rest block hblock
    cases hblock with
    | instructions hcolon _ _ =>
        exact ⟨_, _, skipEol_of_ne (by simp [hcolon.labelType]),
          by simp [startsStatement, hcolon.labelType]⟩
    | labelled hcolon _ _ =>
        exact ⟨_, _, skipEol_of_ne (by simp [hcolon.labelType]),
          by simp [startsStatement, hcolon.labelType]⟩
    | unlabelled hlines hnodes =>
        obtain ⟨-, token, rest', heq, haccepts⟩ := guidanceReader.lines_skipEol hlines hnodes
        exact ⟨token, rest', heq, by simp [startsStatement, haccepts]⟩
  induction h with
  | eoft heof => exact Or.inl (Or.inr ⟨_, _, skipEol_of_ne (by simp [heof]), heof⟩)
  | null => exact Or.inl (Or.inl rfl)
  | labelCut hcolon _ =>
      exact Or.inr ⟨_, _, skipEol_of_ne (by simp [hcolon.labelType]),
        by simp [startsStatement, hcolon.labelType]⟩
  | blank heol _ ih =>
      rw [skipEol_eol heol]
      exact ih
  | skipped htoken _ _ _ =>
      refine Or.inr ⟨_, _, skipEol_of_ne ?_, ?_⟩
      · rcases htoken with htoken | htoken <;> simp [htoken]
      · rcases htoken with htoken | htoken <;> simp [startsStatement, htoken]
  | external hdirective _ _ _ =>
      exact Or.inr ⟨_, _, skipEol_of_ne (by simp [hdirective]),
        by simp [startsStatement, hdirective]⟩
  | entry hdirective _ _ _ =>
      exact Or.inr ⟨_, _, skipEol_of_ne (by simp [hdirective]),
        by simp [startsStatement, hdirective]⟩
  | block h _ _ => exact Or.inr (hblock h)
  | lastBlock _ h => exact Or.inr (hblock h)

/-- A loop of lines skips the blank lines in front of it. -/
theorem LineReader.loop_skipEol {α : Type} {Line : Ending → List Token → α → List Token → Prop}
    {accepts : TokenType → Bool} {round : TranslationUnit × List α → TranslationUnit × List α}
    (reader : LineReader Line accepts round) (unit : TranslationUnit) (nodes : List α)
    (tokens : List Token) :
    listLoop accepts round (unit.setTokens tokens, nodes) =
      listLoop accepts round (unit.setTokens (skipEol tokens), nodes) := by
  have hblank : Lines Line .closed tokens [] (skipEol tokens) :=
    LineReader.lines_of_skipEol (.nil _)
  rw [reader.loop_lines hblank, List.append_nil]

/-- A run of instructions ends where its block does. -/
theorem Program.instruction_loop {ending : Ending} {tokens : List Token} {blocks : List Block}
    (h : Program ending tokens blocks) (unit : TranslationUnit) (nodes : List InstructionNode) :
    listLoop isInstructionToken instructionListRound (unit.setTokens tokens, nodes) =
      (unit.setTokens (Assembler.skipEol tokens), nodes) := by
  rw [instructionReader.loop_skipEol]
  apply LineReader.loop_exit
  rcases h.starts with hend | ⟨token, rest, heq, hstart⟩
  · exact instructionReader.stops_atEnd hend
  · have hne : token.type ≠ .eol := by
      intro heol
      rw [heol] at hstart
      exact absurd hstart (by decide)
    rw [heq]
    exact listGoesOn_false hne (startsStatement_not_instruction hstart)

end Assembler
