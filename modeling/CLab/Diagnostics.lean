import CLab.Analysis

/-!
# The tokens that errors are reported at

Every error of the parser, on every path through its routines, is reported at a
token of the file: the default token that stands for the end of the list is never
used on a list that ends with the end of the file, because no routine goes past
it.  Every error of the analyzer is at a name, a number, a register or an
operation of the file.
-/

namespace Assembler

/-! ## Errors at tokens -/

/-- The error is one of that stage, at a token of the list. -/
def AtToken (source : ErrorSource) (tokens : List Token) (node : ErrorNode) : Prop :=
  ∃ token ∈ tokens, ∃ message, node = .tokenError source ⟨token, message⟩

/-- The handler has got more errors, all of them at tokens of the list. -/
structure Blames (source : ErrorSource) (tokens : List Token) (handler handler' : ErrorHandler) :
    Prop where
  string : handler'.string = handler.string
  filePath : handler'.filePath = handler.filePath
  errors : ∃ added, handler'.errorList = handler.errorList ++ added ∧
    ∀ node ∈ added, AtToken source tokens node

namespace Blames

variable {source : ErrorSource} {tokens : List Token} {handler handler' handler'' : ErrorHandler}

/-- A stage that does nothing adds nothing. -/
theorem refl (handler : ErrorHandler) : Blames source tokens handler handler :=
  ⟨rfl, rfl, [], (List.append_nil _).symm, fun _ h => absurd h List.not_mem_nil⟩

/-- What two stages add between them is what the first and then the second adds. -/
theorem trans (h : Blames source tokens handler handler')
    (h' : Blames source tokens handler' handler'') : Blames source tokens handler handler'' := by
  obtain ⟨added, herrors, hadded⟩ := h.errors
  obtain ⟨added', herrors', hadded'⟩ := h'.errors
  refine ⟨h'.string.trans h.string, h'.filePath.trans h.filePath, added ++ added', ?_, ?_⟩
  · rw [herrors', herrors, List.append_assoc]
  · intro node hnode
    rcases List.mem_append.mp hnode with hnode | hnode
    · exact hadded node hnode
    · exact hadded' node hnode

/-- An error at one of the tokens may be added. -/
theorem add {token : Token} (htoken : token ∈ tokens) (handler : ErrorHandler)
    (message : String) : Blames source tokens handler
      (errorHandlerAddTokenError handler source { token := token, message := message }) := by
  refine ⟨rfl, rfl, [_], rfl, ?_⟩
  intro node hnode
  rw [List.mem_singleton.mp hnode]
  exact ⟨token, htoken, message, rfl⟩

/-- A handler without errors has errors at tokens only. -/
theorem of_empty (h : Blames source tokens handler handler') (hempty : handler.errorList = []) :
    ∀ node ∈ handler'.errorList, AtToken source tokens node := by
  obtain ⟨added, herrors, hadded⟩ := h.errors
  rw [herrors, hempty, List.nil_append]
  exact hadded

end Blames

/-! ## The cursor of the parser -/

/-- What is left to read: tokens of the file up to its end. -/
structure Cursor (source tokens : List Token) : Prop where
  endsFile : EndsFile tokens
  subset : tokens ⊆ source

namespace Cursor

variable {source rest : List Token} {token : Token}

/-- The token under the cursor is one of the list. -/
theorem head (h : Cursor source (token :: rest)) : token ∈ source :=
  h.subset List.mem_cons_self

/-- In front of the end of the file the cursor can be moved on. -/
theorem tail (h : Cursor source (token :: rest)) (htype : token.type ≠ .eoft) :
    Cursor source rest :=
  ⟨h.endsFile.of_cons htype, fun _ ht => h.subset (List.mem_cons_of_mem _ ht)⟩

/-- The cursor never runs off the list. -/
theorem not_nil (h : Cursor source []) : False :=
  h.endsFile.ne_nil rfl

/-- It stays on the list when the rest of a line is skipped. -/
theorem endOfLine {tokens : List Token} (h : Cursor source tokens) :
    Cursor source (endOfLine tokens) := by
  induction tokens with
  | nil => exact h
  | cons token rest ih =>
      rw [Assembler.endOfLine]
      split_ifs with heol heof
      · exact h.tail (by rw [heol]; decide)
      · exact h
      · exact ih (h.tail heof)

theorem skipEol {tokens : List Token} (h : Cursor source tokens) :
    Cursor source (skipEol tokens) := by
  induction tokens with
  | nil => exact h
  | cons token rest ih =>
      by_cases heol : token.type = .eol
      · have hskip : Assembler.skipEol (token :: rest) = Assembler.skipEol rest := by
          simp [Assembler.skipEol, heol]
        rw [hskip]
        exact ih (h.tail (by rw [heol]; decide))
      · have hstays : Assembler.skipEol (token :: rest) = token :: rest := by
          simp [Assembler.skipEol, heol]
        rwa [hstays]

end Cursor

/-- What a routine leaves: a cursor on the file, and errors at its tokens. -/
structure ReadsOn (source : List Token) (handler : ErrorHandler) (unit : TranslationUnit) :
    Prop where
  cursor : Cursor source unit.tokens
  blames : Blames .parser source handler unit.errorHandler

section Source

variable {source : List Token} {unit : TranslationUnit} {token : Token} {rest : List Token}

/-- Moving the cursor reports nothing. -/
theorem Cursor.readsOn {tokens : List Token} (h : Cursor source tokens) :
    ReadsOn source unit.errorHandler (unit.setTokens tokens) :=
  ⟨h, .refl _⟩

/-- A part of the parser behind another one. -/
theorem ReadsOn.trans {handler : ErrorHandler} {unit' : TranslationUnit}
    (h : ReadsOn source handler unit) (h' : ReadsOn source unit.errorHandler unit') :
    ReadsOn source handler unit' :=
  ⟨h'.cursor, h.blames.trans h'.blames⟩

/-- An error that leaves the cursor where it is. -/
theorem Cursor.addsError {tokens : List Token} (h : Cursor source tokens)
    (htoken : token ∈ source) (message : String) :
    ReadsOn source unit.errorHandler ((unit.setTokens tokens).addError message token) :=
  ⟨h, .add htoken _ message⟩

/-- An error behind which the rest of the line is skipped. -/
theorem Cursor.reports {tokens : List Token} (h : Cursor source tokens)
    (htoken : token ∈ source) (message : String) :
    ReadsOn source unit.errorHandler ((unit.setTokens tokens).reportError message token) :=
  ⟨h.endOfLine, .add htoken _ message⟩

/-- Every error of an operand is at the token under the cursor. -/
theorem parseOperand_readsOn {tokens : List Token} (h : Cursor source tokens) :
    ReadsOn source unit.errorHandler (parseOperand (unit.setTokens tokens)).1 := by
  cases tokens with
  | nil => exact absurd h Cursor.not_nil
  | cons current rest =>
      unfold parseOperand
      simp only [setTokens_tokens, setTokens_setTokens]
      split_ifs with hhashtag hstar hoperand
      · cases rest with
        | nil => exact h.reports h.head _
        | cons next rest =>
            have hnext := h.tail (by rw [hhashtag]; decide)
            simp only
            split_ifs with hnumber
            · exact h.reports h.head _
            · refine (hnext.tail ?_).readsOn
              rw [not_not.mp hnumber]
              decide
      · cases rest with
        | nil => exact h.reports h.head _
        | cons next rest =>
            have hnext := h.tail (by rw [hstar]; decide)
            simp only
            split_ifs with htype
            · refine (hnext.tail ?_).readsOn
              rcases htype with htype | htype <;> (rw [htype]; decide)
            · exact h.reports hnext.head _
      · refine (h.tail ?_).readsOn
        rcases hoperand with htype | htype <;> (rw [htype]; decide)
      · exact h.reports h.head _

/-- So is every error behind the comma. -/
theorem parseSecondOperand_readsOn {tokens : List Token} (h : Cursor source tokens)
    (instruction : InstructionNode) : ReadsOn source unit.errorHandler
      (parseSecondOperand (unit.setTokens tokens) instruction).1 := by
  have hoperand := @parseOperand_readsOn source unit tokens h
  unfold parseSecondOperand
  cases hparse : parseOperand (unit.setTokens tokens) with
  | mk unit' read =>
      rw [hparse] at hoperand
      simp only
      split_ifs with herror hend
      · exact hoperand
      · exact hoperand
      · have hcursor := hoperand.cursor
        cases htokens : unit'.tokens with
        | nil => exact absurd (htokens ▸ hcursor) Cursor.not_nil
        | cons next rest =>
            rw [htokens] at hcursor
            have hreport := @Cursor.reports source unit' next _ hcursor hcursor.head
              "Expected end of line after instruction"
            rw [setTokens_eq_self htokens] at hreport
            have hcurrent : unit'.currentOrDefault = next := by
              rw [TranslationUnit.currentOrDefault, htokens]
              rfl
            rw [hcurrent]
            exact hoperand.trans hreport

theorem parseFirstOperand_readsOn {tokens : List Token} (h : Cursor source tokens)
    (instruction : InstructionNode) : ReadsOn source unit.errorHandler
      (parseFirstOperand (unit.setTokens tokens) instruction).1 := by
  have hoperand := @parseOperand_readsOn source unit tokens h
  unfold parseFirstOperand
  cases hparse : parseOperand (unit.setTokens tokens) with
  | mk unit' read =>
      rw [hparse] at hoperand
      have hcursor := hoperand.cursor
      simp only
      split_ifs with herror
      · exact hoperand
      · cases htokens : unit'.tokens with
        | nil => exact hoperand
        | cons next rest =>
            rw [htokens] at hcursor
            simp only
            split_ifs with hend hcomma
            · exact hoperand
            · have hreport := @Cursor.reports source unit' next _ hcursor hcursor.head
                "Expected comma between operands"
              rw [setTokens_eq_self htokens] at hreport
              exact hoperand.trans hreport
            · have hrest := hcursor.tail fun heof => hend (Or.inr heof)
              exact hoperand.trans (parseSecondOperand_readsOn hrest _)

/-- An instruction blames tokens of its line. -/
theorem parserParseInstruction_readsOn {tokens : List Token} (h : Cursor source tokens) :
    ReadsOn source unit.errorHandler (parserParseInstruction (unit.setTokens tokens)).1 := by
  cases tokens with
  | nil => exact absurd h Cursor.not_nil
  | cons operation rest =>
      unfold parserParseInstruction
      simp only [setTokens_tokens, setTokens_setTokens]
      split_ifs with htype hend
      · exact h.reports h.head _
      · exact (h.tail (isInstructionToken_ne (by simpa using htype)).2).readsOn
      · exact parseFirstOperand_readsOn
          (h.tail (isInstructionToken_ne (by simpa using htype)).2) _

/-- What follows the numbers is blamed if it is no end of line. -/
theorem finishDataDirective_readsOn {tokens : List Token} (h : Cursor source tokens)
    (node : DataNode) : ReadsOn source unit.errorHandler
      (finishDataDirective (unit.setTokens tokens) node).1 := by
  cases tokens with
  | nil => exact absurd h Cursor.not_nil
  | cons next rest =>
      unfold finishDataDirective
      split_ifs
      · exact h.addsError h.head _
      · exact h.readsOn

/-- The loop over the numbers, at each of them. -/
theorem parseDataNumbers_readsOn {tokens : List Token} (h : Cursor source tokens)
    (node : DataNode) :
    ReadsOn source unit.errorHandler (parseDataNumbers unit node tokens).1 := by
  induction hlength : tokens.length using Nat.strong_induction_on generalizing node tokens with
  | h n ih =>
      cases tokens with
      | nil => exact absurd h Cursor.not_nil
      | cons token rest =>
          unfold parseDataNumbers
          split_ifs with heof hnumber
          · exact finishDataDirective_readsOn h _
          · have hrest := h.tail heof
            cases rest with
            | nil => exact absurd hrest Cursor.not_nil
            | cons next rest =>
                simp only
                split_ifs with hcomma heol hend
                · have hnext := hrest.tail (by rw [hcomma]; decide)
                  refine ih rest.length ?_ hnext _ rfl
                  rw [← hlength]
                  simp only [List.length_cons]
                  omega
                · exact finishDataDirective_readsOn (hrest.tail (by rw [heol]; decide)) _
                · exact hrest.reports hrest.head _
                · exact finishDataDirective_readsOn hrest _
          · exact h.reports h.head _

/-- A `.data` line blames tokens of its own. -/
theorem parseDataDirectiveGuidance_readsOn {tokens : List Token} (h : Cursor source tokens) :
    ReadsOn source unit.errorHandler (parseDataDirectiveGuidance (unit.setTokens tokens)).1 := by
  cases tokens with
  | nil => exact absurd h Cursor.not_nil
  | cons token rest =>
      unfold parseDataDirectiveGuidance
      simp only [setTokens_tokens]
      split_ifs with htype
      · exact h.reports h.head _
      · have hrest := h.tail (by rw [not_not.mp htype]; decide)
        exact @parseDataNumbers_readsOn source (unit.setTokens (token :: rest)) _ hrest _

/-- A `.string` line blames tokens of its own. -/
theorem parseStringDirectiveGuidance_readsOn {tokens : List Token} (h : Cursor source tokens) :
    ReadsOn source unit.errorHandler
      (parseStringDirectiveGuidance (unit.setTokens tokens)).1 := by
  cases tokens with
  | nil => exact absurd h Cursor.not_nil
  | cons token rest =>
      unfold parseStringDirectiveGuidance
      simp only [setTokens_tokens, setTokens_setTokens]
      split_ifs with htype
      · exact h.reports h.head _
      · have hrest := h.tail (by rw [not_not.mp htype]; decide)
        cases rest with
        | nil => exact absurd hrest Cursor.not_nil
        | cons string rest =>
            simp only
            split_ifs with hstring
            · exact hrest.reports hrest.head _
            · have hbehind := hrest.tail (by rw [not_not.mp hstring]; decide)
              cases rest with
              | nil => exact absurd hbehind Cursor.not_nil
              | cons next rest =>
                  simp only
                  split_ifs with hend heol
                  · exact hbehind.reports hbehind.head _
                  · exact (hbehind.tail (by rw [heol]; decide)).readsOn
                  · exact hbehind.readsOn

/-! ## Lists of lines -/

/-- One round of the loop over directives. -/
theorem guidanceListRound_readsOn {tokens : List Token} (h : Cursor source tokens)
    (nodes : List GuidanceNode) : ReadsOn source unit.errorHandler
      (guidanceListRound (unit.setTokens tokens, nodes)).1 := by
  cases tokens with
  | nil => exact absurd h Cursor.not_nil
  | cons token rest =>
      unfold guidanceListRound
      simp only [setTokens_tokens, setTokens_setTokens]
      split_ifs with heol hdata
      · exact (h.tail (by rw [heol]; decide)).readsOn
      · exact parseDataDirectiveGuidance_readsOn h
      · exact parseStringDirectiveGuidance_readsOn h

theorem instructionListRound_readsOn {tokens : List Token} (h : Cursor source tokens)
    (nodes : List InstructionNode) : ReadsOn source unit.errorHandler
      (instructionListRound (unit.setTokens tokens, nodes)).1 := by
  cases tokens with
  | nil => exact absurd h Cursor.not_nil
  | cons token rest =>
      unfold instructionListRound
      simp only [setTokens_tokens, setTokens_setTokens]
      split_ifs with heol
      · exact (h.tail (by rw [heol]; decide)).readsOn
      · exact parserParseInstruction_readsOn h

/-- A loop does what its rounds do. -/
theorem listLoop_readsOn {α : Type} {Line : Ending → List Token → α → List Token → Prop}
    {accepts : TokenType → Bool}
    {round : TranslationUnit × List α → TranslationUnit × List α}
    (reader : LineReader Line accepts round)
    (hround : ∀ (unit : TranslationUnit) (tokens : List Token) (nodes : List α),
      Cursor source tokens →
        ReadsOn source unit.errorHandler (round (unit.setTokens tokens, nodes)).1)
    {tokens : List Token} (h : Cursor source tokens) (nodes : List α) :
    ReadsOn source unit.errorHandler (listLoop accepts round (unit.setTokens tokens, nodes)).1 := by
  refine (While.loop_rule (fun s : TranslationUnit × List α =>
    ReadsOn source unit.errorHandler s.1) ?_ (fun _ hgo _ => reader.round_length hgo)
    h.readsOn).1
  intro s _ hs
  have hnext := hround s.1 s.1.tokens s.2 hs.cursor
  rw [setTokens_eq_self rfl] at hnext
  exact hs.trans hnext

/-- Directives up to the next line of another kind. -/
theorem parserParseGuidanceList_readsOn {tokens : List Token} (h : Cursor source tokens) :
    ReadsOn source unit.errorHandler (parserParseGuidanceList (unit.setTokens tokens)).1 := by
  rw [parserParseGuidanceList_eq]
  exact listLoop_readsOn guidanceReader (fun _ _ nodes h => guidanceListRound_readsOn h nodes) h []

/-- Instructions up to the next line of another kind. -/
theorem parserParseInstructionList_readsOn {tokens : List Token} (h : Cursor source tokens) :
    ReadsOn source unit.errorHandler (parserParseInstructionList (unit.setTokens tokens)).1 := by
  rw [parserParseInstructionList_eq]
  exact listLoop_readsOn instructionReader
    (fun _ _ nodes h => instructionListRound_readsOn h nodes) h []

/-! ## The other statements -/

/-- Behind the name of a directive only the end of the line may stand. -/
theorem finishDirective_readsOn {tokens : List Token} (h : Cursor source tokens)
    (message : String) : ReadsOn source unit.errorHandler
      (finishDirective (unit.setTokens tokens) message).1 := by
  cases tokens with
  | nil => exact absurd h Cursor.not_nil
  | cons next rest =>
      unfold finishDirective
      simp only [setTokens_tokens, setTokens_setTokens]
      split_ifs with hend heol
      · exact h.reports h.head _
      · exact (h.tail (by rw [heol]; decide)).readsOn
      · exact h.readsOn

/-- An `.entry` line that is read blames tokens of its own. -/
theorem parserParseEntry_readsOn {tokens : List Token} (h : Cursor source tokens)
    {read : TranslationUnit × EntryNode}
    (hparse : parserParseEntry (unit.setTokens tokens) = .ok read) :
    ReadsOn source unit.errorHandler read.1 := by
  cases tokens with
  | nil => exact absurd h Cursor.not_nil
  | cons token rest =>
      unfold parserParseEntry at hparse
      simp only [setTokens_tokens, setTokens_setTokens] at hparse
      split_ifs at hparse with htype
      · rw [← Except.ok.inj hparse]
        exact h.reports h.head _
      · have hrest := h.tail (by rw [not_not.mp htype]; decide)
        cases rest with
        | nil => exact absurd hrest Cursor.not_nil
        | cons label rest =>
            simp only at hparse
            split_ifs at hparse with hlabel
            · rw [← Except.ok.inj hparse]
              exact hrest.reports hrest.head _
            · rw [← Except.ok.inj hparse]
              exact finishDirective_readsOn (hrest.tail (by rw [not_not.mp hlabel]; decide)) _

/-- An `.extern` line, whose errors fall back on a token where there is none, has one each
time. -/
theorem parserParseExternal_readsOn {tokens : List Token} (h : Cursor source tokens) :
    ReadsOn source unit.errorHandler (parserParseExternal (unit.setTokens tokens)).1 := by
  cases tokens with
  | nil => exact absurd h Cursor.not_nil
  | cons token rest =>
      unfold parserParseExternal
      simp only [setTokens_tokens, setTokens_setTokens]
      split_ifs with htype
      · exact h.reports h.head _
      · have hrest := h.tail (by rw [not_not.mp htype]; decide)
        cases rest with
        | nil => exact absurd hrest Cursor.not_nil
        | cons label rest =>
            simp only
            split_ifs with hlabel
            · exact hrest.reports hrest.head _
            · exact finishDirective_readsOn (hrest.tail (by rw [not_not.mp hlabel]; decide)) _

/-- What stands behind a label, or in place of one. -/
theorem parseStatementBody_readsOn {tokens : List Token} (h : Cursor source tokens)
    (label : LabelNode) (labelIdentifierFound : Bool) : ReadsOn source unit.errorHandler
      (parseStatementBody (unit.setTokens tokens) label labelIdentifierFound).1 := by
  cases tokens with
  | nil => exact absurd h Cursor.not_nil
  | cons token rest =>
      unfold parseStatementBody
      simp only [setTokens_tokens]
      split_ifs
      · exact h.reports h.head _
      · exact parserParseInstructionList_readsOn h
      · exact parserParseGuidanceList_readsOn h
      · exact h.reports h.head _

/-- A statement with its label. -/
theorem parseLabeledStatement_readsOn {tokens : List Token} (h : Cursor source tokens) :
    ReadsOn source unit.errorHandler (parseLabeledStatement (unit.setTokens tokens)).1 := by
  cases tokens with
  | nil => exact absurd h Cursor.not_nil
  | cons token rest =>
      unfold parseLabeledStatement
      simp only [setTokens_tokens, setTokens_setTokens]
      split_ifs with htype
      · exact parseStatementBody_readsOn h _ _
      · have hrest := h.tail (by rw [not_not.mp htype]; decide)
        cases rest with
        | nil => exact absurd hrest Cursor.not_nil
        | cons colon rest =>
            simp only
            split_ifs with hcolon hbehind
            · exact hrest.reports hrest.head _
            · exact hrest.reports hrest.head _
            · have hbody := hrest.tail (by rw [not_not.mp hcolon]; decide)
              exact parseStatementBody_readsOn hbody.skipEol _ _

/-! ## The translation unit -/

/-- One round of the main loop. -/
theorem contentRound_readsOn {tokens : List Token} (h : Cursor source tokens)
    (heof : ¬ AtEnd tokens) {unit' : TranslationUnit}
    (hround : contentRound (unit.setTokens tokens) = .ok unit') :
    ReadsOn source unit.errorHandler unit' := by
  cases tokens with
  | nil => exact absurd h Cursor.not_nil
  | cons token rest =>
      have htype : token.type ≠ .eoft := fun htype => heof (Or.inr ⟨token, rest, rfl, htype⟩)
      unfold contentRound at hround
      simp only [setTokens_tokens, setTokens_setTokens] at hround
      split_ifs at hround with heol hextern hentry hlabelled hmacro
      · rw [← Except.ok.inj hround]
        exact (h.tail htype).readsOn
      · rw [← Except.ok.inj hround]
        have hread := @parserParseExternal_readsOn source unit _ h
        exact ⟨hread.cursor, hread.blames⟩
      · obtain ⟨read, hparse, hread⟩ := exists_of_bind_eq_ok hround
        rw [← Except.ok.inj hread]
        have hentries := parserParseEntry_readsOn h hparse
        exact ⟨hentries.cursor, hentries.blames⟩
      · rw [← Except.ok.inj hround]
        have hread := @parseLabeledStatement_readsOn source unit _ h
        unfold TranslationUnit.appendLabel
        split_ifs
        · exact ⟨hread.cursor, hread.blames⟩
        · exact ⟨hread.cursor, hread.blames⟩
        · exact hread
      · rw [← Except.ok.inj hround]
        exact h.endOfLine.readsOn
      · rw [← Except.ok.inj hround]
        exact h.reports h.head _

/-- **The errors of the parser** are at tokens of the file. -/
theorem parseTranslationUnitContent_blames {lexer : Lexer} (hends : EndsFile lexer.tokenList)
    {unit : TranslationUnit}
    (hparse : parseTranslationUnitContent (parserInitializeTranslationUnit lexer) = .ok unit) :
    Blames .parser lexer.tokenList (errorHandlerInitialize lexer.sourceCode lexer.filePath)
      unit.errorHandler := by
  have hstart : ReadsOn lexer.tokenList
      (errorHandlerInitialize lexer.sourceCode lexer.filePath)
      (parserInitializeTranslationUnit lexer) := ⟨⟨hends, List.Subset.refl _⟩, .refl _⟩
  have hloop := (While.loop_rule (fun run : Except Fault TranslationUnit =>
      ∀ unit, run = .ok unit → ReadsOn lexer.tokenList
        (errorHandlerInitialize lexer.sourceCode lexer.filePath) unit)
    ?_ (fun _ hgo _ => contentRound_remaining hgo)
    (show ∀ unit, Except.ok (parserInitializeTranslationUnit lexer) = .ok unit → _ from
      fun unit hunit => Except.ok.inj hunit ▸ hstart)).1
  · exact (hloop unit hparse).blames
  · intro run hgo hrun unit hround
    obtain ⟨middle, token, rest, rfl, htokens, heof⟩ := contentGoesOn_ok hgo
    have hmiddle := hrun middle rfl
    have hnot : ¬ AtEnd middle.tokens := by
      intro hend
      rcases hend with hnil | ⟨eof, rest', heq, htype⟩
      · rw [htokens] at hnil
        cases hnil
      · rw [htokens] at heq
        exact heof ((List.cons.inj heq).1 ▸ htype)
    have hnext := @contentRound_readsOn lexer.tokenList middle _ hmiddle.cursor hnot unit
    rw [setTokens_eq_self rfl] at hnext
    exact hmiddle.trans (hnext hround)

end Source

/-! ## The errors of the analyzer -/

/-- Neither a string literal nor the end of a line or of the file, and no
malformed token. -/
def InsideLine (token : Token) : Prop :=
  token.type ≠ .string ∧ token.type ≠ .eol ∧ token.type ≠ .eoft ∧ token.type ≠ .error

instance (token : Token) : Decidable (InsideLine token) :=
  inferInstanceAs (Decidable (_ ∧ _))

/-- The tokens of a file that are inside of a line. -/
def lineTokens (tokens : List Token) : List Token :=
  tokens.filter (fun token => InsideLine token)

/-- The tokens of the list that lie inside a line. -/
theorem mem_lineTokens {tokens : List Token} {token : Token} :
    token ∈ lineTokens tokens ↔ token ∈ tokens ∧ InsideLine token := by
  rw [lineTokens, List.mem_filter, decide_eq_true_eq]

section Analyzer

variable {source tokens : List Token} {analyzer analyzer' : SemanticAnalyzer}

/-- The analyzer has reported errors at tokens of the list at most. -/
abbrev AnalyzerBlames (tokens : List Token) (analyzer analyzer' : SemanticAnalyzer) : Prop :=
  Blames .semanticAnalyzer tokens analyzer.errorHandler analyzer'.errorHandler

/-- A report without a token goes to the error output. -/
theorem reportError_blames {token : Option Token} (htoken : ∀ t, token = some t → t ∈ tokens)
    (message : String) : AnalyzerBlames tokens analyzer (analyzer.reportError message token) := by
  cases token with
  | none => exact .refl _
  | some token => exact .add (htoken token rfl) _ message

/-- A check of the analyzer blames the token it is given. -/
theorem reportIf_blames {token : Option Token} (htoken : ∀ t, token = some t → t ∈ tokens)
    (wrong : Bool) (message : String) :
    AnalyzerBlames tokens analyzer (analyzer.reportIf wrong message token) := by
  cases wrong with
  | false => exact .refl _
  | true => exact reportError_blames htoken message

/-- A token that is there is one of the list. -/
theorem some_mem {token : Token} (htoken : token ∈ tokens) :
    ∀ t, some token = some t → t ∈ tokens := by
  intro t ht
  rwa [← Option.some.inj ht]

/-- The checks of an operand blame the operand. -/
theorem validateOperand_blames {operand : Option Token}
    (hoperand : ∀ t, operand = some t → t ∈ tokens) (deref : Bool) :
    AnalyzerBlames tokens analyzer (validateOperand analyzer operand deref).1 := by
  cases operand with
  | none => exact .refl _
  | some token =>
      have hmode : AnalyzerBlames tokens analyzer
          (validateAndDetermineAddressingMode analyzer token deref).1 := by
        unfold validateAndDetermineAddressingMode
        split
        · exact (reportIf_blames hoperand _ _).trans (reportIf_blames hoperand _ _)
        · exact reportIf_blames hoperand _ _
        · exact .refl _
        · exact reportError_blames hoperand _
      rw [validateOperand]
      simp only
      split_ifs
      · exact hmode.trans (reportIf_blames hoperand _ _)
      · exact hmode

/-- The checks of an operation blame it or one of its operands. -/
theorem validateOperation_blames {operation : Token} {first second : Option Token}
    (hoperation : operation ∈ tokens) (hfirst : ∀ t, first = some t → t ∈ tokens)
    (hsecond : ∀ t, second = some t → t ∈ tokens) (firstAM secondAM : AddressingMode) :
    AnalyzerBlames tokens analyzer
      (validateOperation analyzer operation first second firstAM secondAM) := by
  unfold validateOperation
  split
  · exact reportIf_blames (some_mem hoperation) _ _
  · exact reportIf_blames (some_mem hoperation) _ _
  · exact reportIf_blames (some_mem hoperation) _ _
  · exact reportIf_blames (some_mem hoperation) _ _
  · exact reportIf_blames hfirst _ _
  · exact reportIf_blames hfirst _ _
  · exact reportIf_blames hfirst _ _
  · exact reportIf_blames hfirst _ _
  · exact (reportIf_blames hfirst _ _).trans (reportIf_blames hsecond _ _)
  · exact reportIf_blames hfirst _ _
  · exact reportIf_blames hfirst _ _
  · exact reportIf_blames hfirst _ _
  · exact reportIf_blames hfirst _ _
  · exact .refl _
  · exact .refl _
  · exact .refl _
  · exact reportError_blames (some_mem hoperation) _

/-- An operand lies inside its line. -/
theorem OperandFormed.insideLine {operand : Token} {deref : Bool}
    (h : OperandFormed source operand deref) : operand ∈ lineTokens source := by
  refine mem_lineTokens.mpr ⟨h.mem, ?_⟩
  rcases h.type with ⟨htype, -⟩ | htype | htype <;> (rw [InsideLine, htype]; decide)

theorem NameFormed.insideLine {name : Token} (h : NameFormed source name) :
    name ∈ lineTokens source := by
  refine mem_lineTokens.mpr ⟨h.mem, ?_⟩
  rw [InsideLine, h.type]
  decide

/-- All checks of an instruction. -/
theorem analyzeInstruction_blames {node : InstructionNode} (h : InstructionFormed source node) :
    AnalyzerBlames (lineTokens source) analyzer
      (semanticAnalyzerAnalyzeInstruction analyzer node) := by
  obtain ⟨operation, hmem, hoperation, htype⟩ := h.operation
  have hinside : operation ∈ lineTokens source := by
    refine mem_lineTokens.mpr ⟨hmem, ?_, ?_, ?_, ?_⟩ <;>
      (intro heq; rw [heq] at htype; exact absurd htype (by decide))
  have hfirst : ∀ t, node.firstOperand = some t → t ∈ lineTokens source :=
    fun t ht => (h.first t ht).insideLine
  have hsecond : ∀ t, node.secondOperand = some t → t ∈ lineTokens source :=
    fun t ht => (h.second t ht).insideLine
  rw [semanticAnalyzerAnalyzeInstruction, hoperation]
  simp only
  generalize (if node.firstOperand.isSome then (1 : Int) else 0) +
    (if node.secondOperand.isSome then 1 else 0) = count
  split_ifs
  · exact reportError_blames (some_mem hinside) _
  · exact ((validateOperand_blames hfirst _).trans (validateOperand_blames hsecond _)).trans
      (validateOperation_blames hinside hfirst hsecond _ _)

/-- The numbers of a `.data` line are blamed one by one. -/
theorem analyzeDataNumbers_blames {numbers : List (Option Token)}
    (hnumbers : ∀ t, some t ∈ numbers → t ∈ tokens)
    (hrun : analyzeDataNumbers analyzer numbers = .ok analyzer') :
    AnalyzerBlames tokens analyzer analyzer' := by
  induction numbers generalizing analyzer with
  | nil =>
      rw [← Except.ok.inj hrun]
      exact .refl _
  | cons number numbers ih =>
      cases number with
      | none => cases hrun
      | some token =>
          have hfirst := hnumbers token List.mem_cons_self
          exact (reportIf_blames (some_mem hfirst) _ _).trans
            (ih (fun t ht => hnumbers t (List.mem_cons_of_mem _ ht)) hrun)

/-- A `.string` line is never blamed. -/
theorem analyzeGuidanceNode_blames {node : GuidanceNode} (h : GuidanceFormed source node)
    (hrun : analyzeGuidanceNode analyzer node = .ok analyzer') :
    AnalyzerBlames (lineTokens source) analyzer analyzer' := by
  cases node with
  | dataNode node =>
      refine analyzeDataNumbers_blames ?_ hrun
      intro t ht
      obtain ⟨token, hmem, heq, htype⟩ := h.2.1 _ ht
      obtain rfl := Option.some.inj heq
      refine mem_lineTokens.mpr ⟨hmem, ?_⟩
      rw [InsideLine, htype]
      decide
  | stringNode node =>
      rw [← Except.ok.inj hrun]
      exact .refl _

/-- Checks one after the other report what each of them reports. -/
theorem foldlM_blames {α : Type} {f : SemanticAnalyzer → α → Except Fault SemanticAnalyzer}
    {xs : List α} (hstep : ∀ {analyzer analyzer' : SemanticAnalyzer}, ∀ x ∈ xs,
      f analyzer x = .ok analyzer' → AnalyzerBlames tokens analyzer analyzer')
    (hrun : xs.foldlM f analyzer = .ok analyzer') : AnalyzerBlames tokens analyzer analyzer' := by
  induction xs generalizing analyzer with
  | nil =>
      rw [← Except.ok.inj hrun]
      exact .refl _
  | cons x xs ih =>
      rw [List.foldlM_cons] at hrun
      obtain ⟨middle, hfirst, hrest⟩ := exists_of_bind_eq_ok hrun
      exact (hstep x List.mem_cons_self hfirst).trans
        (ih (fun y hy => hstep y (List.mem_cons_of_mem _ hy)) hrest)

/-- The instructions of a label, one after the other. -/
theorem foldl_instructions_blames {nodes : List InstructionNode}
    (h : ∀ node ∈ nodes, InstructionFormed source node) :
    AnalyzerBlames (lineTokens source) analyzer
      (nodes.foldl semanticAnalyzerAnalyzeInstruction analyzer) := by
  induction nodes generalizing analyzer with
  | nil => exact .refl _
  | cons node nodes ih =>
      exact (analyzeInstruction_blames (h node List.mem_cons_self)).trans
        (ih (fun node hnode => h node (List.mem_cons_of_mem _ hnode)))

/-- All labels with what stands under them. -/
theorem validateLabelList_blames {labels : List LabelNode}
    (h : ∀ node ∈ labels, (node.instructionList ≠ [] → node.label ≠ none) ∧
      (∀ instruction ∈ node.instructionList, InstructionFormed source instruction) ∧
      ∀ directive ∈ node.guidanceList, GuidanceFormed source directive)
    (hrun : validateLabelList analyzer labels = .ok analyzer') :
    AnalyzerBlames (lineTokens source) analyzer analyzer' := by
  refine foldlM_blames ?_ hrun
  intro analyzer analyzer' node hnode hlabel
  obtain ⟨-, hinstructions, hguidance⟩ := h node hnode
  rw [semanticAnalyzerAnalyzeLabel] at hlabel
  have hbody := foldlM_blames (fun directive hdirective hdone =>
    analyzeGuidanceNode_blames (hguidance directive hdirective) hdone) hlabel
  refine Blames.trans ?_ ((foldl_instructions_blames hinstructions).trans hbody)
  split
  · rename_i first rest hlist _
    exact reportError_blames (fun t ht =>
      ((hinstructions first (hlist ▸ List.mem_cons_self)).first t ht).insideLine) _
  · exact .refl _

/-- Entering a name in the table reports nothing. -/
theorem insertIdentifier_errorHandler (analyzer : SemanticAnalyzer) (cell : IdentifierCell) :
    (semanticAnalyzerInsertIdentifier analyzer cell).1.errorHandler = analyzer.errorHandler := by
  unfold semanticAnalyzerInsertIdentifier
  split_ifs
  · rfl
  · split <;> rfl

/-- A name that is known already is blamed at its second label. -/
theorem declareLabel_blames {label : Token} (hlabel : label ∈ tokens) (value : IdentifierValue) :
    AnalyzerBlames tokens analyzer (declareLabel analyzer label value) := by
  have hreport := @reportIf_blames tokens (semanticAnalyzerInsertIdentifier analyzer
    { key := label.string, value := value, type := .label, hasEntry := false }).1 _
    (some_mem hlabel)
  unfold declareLabel
  rw [AnalyzerBlames, ← insertIdentifier_errorHandler analyzer]
  exact hreport _ _

theorem declareExternal_blames {label : Token} (hlabel : label ∈ tokens)
    (value : IdentifierValue) :
    AnalyzerBlames tokens analyzer (declareExternal analyzer label value) := by
  unfold declareExternal
  split
  · rw [AnalyzerBlames, insertIdentifier_errorHandler]
    exact .refl _
  · split_ifs
    · exact reportError_blames (some_mem hlabel) _
    · exact reportError_blames (some_mem hlabel) _

/-- An entry that is no label is blamed at its own line. -/
theorem checkEntry_blames {label : Token} (hlabel : label ∈ tokens) :
    AnalyzerBlames tokens analyzer (checkEntry analyzer label) := by
  unfold checkEntry
  split
  · exact reportError_blames (some_mem hlabel) _
  · exact reportIf_blames (some_mem hlabel) _ _

/-- The labels of the instructions are declared in turn. -/
theorem validateInstructionLabels_blames {labels : List LabelNode} {index : Nat}
    (h : ∀ node ∈ labels, ∀ t, node.label = some t → t ∈ tokens)
    (hrun : validateInstructionLabels analyzer index labels = .ok analyzer') :
    AnalyzerBlames tokens analyzer analyzer' := by
  induction labels generalizing analyzer index with
  | nil =>
      rw [← Except.ok.inj hrun]
      exact .refl _
  | cons node labels ih =>
      rw [validateInstructionLabels] at hrun
      cases hlabel : node.label with
      | none =>
          rw [hlabel] at hrun
          cases hrun
      | some label =>
          rw [hlabel] at hrun
          exact (declareLabel_blames (h node List.mem_cons_self label hlabel) _).trans
            (ih (fun node hnode => h node (List.mem_cons_of_mem _ hnode)) hrun)

theorem validateGuidanceLabels_blames {labels : List LabelNode} (index : Nat)
    (h : ∀ node ∈ labels, ∀ t, node.label = some t → t ∈ tokens) :
    AnalyzerBlames tokens analyzer (validateGuidanceLabels analyzer index labels) := by
  induction labels generalizing analyzer index with
  | nil => exact .refl _
  | cons node labels ih =>
      rw [validateGuidanceLabels]
      cases hlabel : node.label with
      | none => exact ih _ (fun node hnode => h node (List.mem_cons_of_mem _ hnode))
      | some label =>
          exact (declareLabel_blames (h node List.mem_cons_self label hlabel) _).trans
            (ih _ (fun node hnode => h node (List.mem_cons_of_mem _ hnode)))

theorem validateExternalDeclarations_blames {externals : List ExternalNode} {index : Nat}
    (h : ∀ node ∈ externals, ∀ t, node.externalLabel = some t → t ∈ tokens)
    (hrun : validateExternalDeclarations analyzer index externals = .ok analyzer') :
    AnalyzerBlames tokens analyzer analyzer' := by
  induction externals generalizing analyzer index with
  | nil =>
      rw [← Except.ok.inj hrun]
      exact .refl _
  | cons node externals ih =>
      rw [validateExternalDeclarations] at hrun
      cases hlabel : node.externalLabel with
      | none =>
          rw [hlabel] at hrun
          cases hrun
      | some label =>
          rw [hlabel] at hrun
          exact (declareExternal_blames (h node List.mem_cons_self label hlabel) _).trans
            (ih (fun node hnode => h node (List.mem_cons_of_mem _ hnode)) hrun)

/-- The entries come last. -/
theorem validateEntryDeclarations_blames {entries : List EntryNode}
    (h : ∀ node ∈ entries, ∀ t, node.entryLabel = some t → t ∈ tokens)
    (hrun : validateEntryDeclarations analyzer entries = .ok analyzer') :
    AnalyzerBlames tokens analyzer analyzer' := by
  induction entries generalizing analyzer with
  | nil =>
      rw [← Except.ok.inj hrun]
      exact .refl _
  | cons node entries ih =>
      rw [validateEntryDeclarations] at hrun
      cases hlabel : node.entryLabel with
      | none =>
          rw [hlabel] at hrun
          cases hrun
      | some label =>
          rw [hlabel] at hrun
          exact (checkEntry_blames (h node List.mem_cons_self label hlabel)).trans
            (ih (fun node hnode => h node (List.mem_cons_of_mem _ hnode)) hrun)

/-- **The errors of the analyzer** are at tokens inside of the lines. -/
theorem analyzeTranslationUnit_blames {unit : TranslationUnit} (h : UnitFormed source unit)
    (hrun : semanticAnalyzerAnalyzeTranslationUnit analyzer unit = .ok analyzer') :
    AnalyzerBlames (lineTokens source) analyzer analyzer' := by
  obtain ⟨declared, hdeclared, hrest⟩ := exists_of_bind_eq_ok hrun
  obtain ⟨instructed, hinstructed, hguided⟩ := exists_of_bind_eq_ok hrest
  obtain ⟨labelled, hlabelled, hdeclared⟩ := exists_of_bind_eq_ok hdeclared
  obtain ⟨external, hexternal, hentered⟩ := exists_of_bind_eq_ok hdeclared
  have hlabels := h.label
  have hinstructionNames : ∀ node ∈ unit.instructionLabelList, ∀ t, node.label = some t →
      t ∈ lineTokens source := by
    intro node hnode t ht
    obtain ⟨name, hname, hformed⟩ := h.instructionNames node hnode
    obtain rfl := Option.some.inj (ht.symm.trans hname)
    exact hformed.insideLine
  have hexternals : ∀ node ∈ unit.externalList, ∀ t, node.externalLabel = some t →
      t ∈ lineTokens source := by
    intro node hnode t ht
    obtain ⟨-, name, hname, hformed⟩ := h.externals node hnode
    obtain rfl := Option.some.inj (ht.symm.trans hname)
    exact hformed.insideLine
  have hentries : ∀ node ∈ unit.entryList, ∀ t, node.entryLabel = some t →
      t ∈ lineTokens source := by
    intro node hnode t ht
    obtain ⟨-, name, hname, hformed⟩ := h.entries node hnode
    obtain rfl := Option.some.inj (ht.symm.trans hname)
    exact hformed.insideLine
  have hdeclares := (validateInstructionLabels_blames hinstructionNames hlabelled).trans
    (validateGuidanceLabels_blames 0 fun node hnode t ht =>
      (h.guidanceNames node hnode t ht).insideLine)
  have henters := (hdeclares.trans (validateExternalDeclarations_blames hexternals hexternal)).trans
    (validateEntryDeclarations_blames hentries hentered)
  have hinstructs := validateLabelList_blames
    (fun node hnode => hlabels node (List.mem_append_left _ hnode)) hinstructed
  have hguides := validateLabelList_blames
    (fun node hnode => hlabels node (List.mem_append_right _ hnode)) hguided
  exact (henters.trans hinstructs).trans hguides

end Analyzer

end Assembler
