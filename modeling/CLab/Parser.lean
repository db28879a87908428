import CLab.Lexer
import CLab.Nodes

/-!
# The parser

`parser.c`: recursive descent over the tokens of the lexer.  Every routine
takes the translation unit, whose `tokens` are the cursor, and returns it
changed together with the node it has read.
-/

namespace Assembler

/-- A new unit: empty lists, and the tokens of the lexer. -/
def parserInitializeTranslationUnit (lexer : Lexer) : TranslationUnit where
  externalList := []
  entryList := []
  instructionLabelList := []
  guidanceLabelList := []
  errorHandler := errorHandlerInitialize lexer.sourceCode lexer.filePath
  tokens := lexer.tokenList

/-! ## The cursor and the errors -/

/-- The parser goes on with other tokens. -/
def TranslationUnit.setTokens (unit : TranslationUnit) (tokens : List Token) :
    TranslationUnit :=
  { unit with tokens := tokens }

/-- An error of the parser, filed under its own kind. -/
def TranslationUnit.addError (unit : TranslationUnit) (message : String) (token : Token) :
    TranslationUnit :=
  { unit with
    errorHandler := errorHandlerAddTokenError unit.errorHandler .parser
      { token := token, message := message } }

/-- The token at the cursor, or the default token at the end of the list. -/
def TranslationUnit.currentOrDefault (unit : TranslationUnit) : Token :=
  unit.tokens.headD defaultToken

/-- The cursor at the end of its line: behind the end of line, or on the end of
the file. -/
def endOfLine : List Token → List Token
  | [] => []
  | token :: rest =>
      if token.type = .eol then rest
      else if token.type = .eoft then token :: rest
      else endOfLine rest

/-- `parser_move_to_end_of_line`. -/
def parserMoveToEndOfLine (unit : TranslationUnit) : TranslationUnit :=
  unit.setTokens (endOfLine unit.tokens)

/-- An error, and the rest of the line skipped. -/
def TranslationUnit.reportError (unit : TranslationUnit) (message : String) (token : Token) :
    TranslationUnit :=
  parserMoveToEndOfLine (unit.addError message token)

/-- The end of a line, of the file or of the list. -/
def atLineEnd : List Token → Bool
  | [] => true
  | token :: _ => token.type = .eol || token.type = .eoft

/-! ## Directives -/

/-- Behind the numbers of a `.data` directive. -/
def finishDataDirective (unit : TranslationUnit) (node : DataNode) :
    TranslationUnit × DataNode :=
  if node.dataNumbers = [] then
    (unit.addError "No numbers found in .data directive" unit.currentOrDefault,
      { node with hasParserError := true })
  else (unit, node)

/-- The loop of `parse_data_directive_guidance`, from the given tokens on. -/
def parseDataNumbers (unit : TranslationUnit) (node : DataNode) :
    List Token → TranslationUnit × DataNode
  | [] => finishDataDirective (unit.setTokens []) node
  | token :: rest =>
      if token.type = .eoft then
        finishDataDirective (unit.setTokens (token :: rest)) node
      else if token.type = .number then
        let node' : DataNode := { node with dataNumbers := node.dataNumbers ++ [some token] }
        match rest with
        | [] => finishDataDirective (unit.setTokens []) node'
        | next :: rest' =>
          if next.type = .comma then parseDataNumbers unit node' rest'
          else if next.type = .eol then finishDataDirective (unit.setTokens rest') node'
          else if next.type ≠ .eoft then
            ((unit.setTokens (next :: rest')).reportError
              "Expected comma or end of line after number in .data directive" next,
              { node' with hasParserError := true })
          else finishDataDirective (unit.setTokens (next :: rest')) node'
      else
        ((unit.setTokens (token :: rest)).reportError
          "Expected number in .data directive" token,
          { node with hasParserError := true })

/-- `parse_data_directive_guidance`. -/
def parseDataDirectiveGuidance (unit : TranslationUnit) : TranslationUnit × DataNode :=
  match unit.tokens with
  | [] =>
    (unit.addError "Expected .data directive, but got null pointer" defaultToken,
      { dataNumbers := [], hasParserError := true })
  | token :: rest =>
    if token.type ≠ .dataIns then
      (unit.reportError "Expected .data directive" token,
        { dataNumbers := [], hasParserError := false })
    else parseDataNumbers unit { dataNumbers := [], hasParserError := false } rest

/-- `parse_string_directive_guidance`. -/
def parseStringDirectiveGuidance (unit : TranslationUnit) : TranslationUnit × StringNode :=
  match unit.tokens with
  | [] =>
    (unit.addError "Expected .string directive, but got null pointer" defaultToken,
      { stringLabel := none, hasParserError := false })
  | token :: rest =>
    if token.type ≠ .stringIns then
      (unit.reportError "Expected .string directive" token,
        { stringLabel := none, hasParserError := true })
    else match rest with
    | [] =>
      ((unit.setTokens []).reportError "Expected string after .string directive" defaultToken,
        { stringLabel := none, hasParserError := true })
    | string :: rest' =>
      if string.type ≠ .string then
        ((unit.setTokens (string :: rest')).reportError
          "Expected string after .string directive" string,
          { stringLabel := none, hasParserError := true })
      else match rest' with
      | [] => (unit.setTokens [], { stringLabel := some string, hasParserError := false })
      | next :: rest'' =>
        if next.type ≠ .eol ∧ next.type ≠ .eoft then
          ((unit.setTokens (next :: rest'')).reportError
            "Unexpected tokens after string in .string directive" next,
            { stringLabel := some string, hasParserError := true })
        else
          (unit.setTokens (if next.type = .eol then rest'' else next :: rest''),
            { stringLabel := some string, hasParserError := false })

/-- The two directives that have memory. -/
def isGuidanceToken (type : TokenType) : Bool :=
  type = .dataIns || type = .stringIns

/-- One round of `parser_parse_guidance_list`: a blank line or a directive. -/
def guidanceListRound (s : TranslationUnit × List GuidanceNode) :
    TranslationUnit × List GuidanceNode :=
  match s.1.tokens with
  | [] => s
  | token :: rest =>
    if token.type = .eol then (s.1.setTokens rest, s.2)
    else if token.type = .dataIns then
      let (unit, node) := parseDataDirectiveGuidance s.1
      (unit, s.2 ++ [.dataNode node])
    else
      let (unit, node) := parseStringDirectiveGuidance s.1
      (unit, s.2 ++ [.stringNode node])

/-- The loops of the lists go on over blank lines and over what `accepts`. -/
def listGoesOn (accepts : TokenType → Bool) (unit : TranslationUnit) : Bool :=
  match unit.tokens with
  | [] => false
  | token :: _ => token.type = .eol || accepts token.type

/-- The directives of a label.  The source finds the last node through the address of
`newNode`, a variable of the round before, whose lifetime has ended: what follows
is left open by the language, and on a build that keeps the variable where it was
it is an append. -/
def parserParseGuidanceList (unit : TranslationUnit) : TranslationUnit × List GuidanceNode :=
  While.loop (fun s => listGoesOn isGuidanceToken s.1) guidanceListRound
    (fun s => s.1.tokens.length) (unit, [])

/-! ## Instructions -/

/-- The sixteen mnemonics. -/
def isInstructionToken (type : TokenType) : Bool :=
  match type with
  | .mov | .cmp | .add | .sub | .lea | .clr | .not | .inc | .dec | .jmp | .bne | .red | .prn
  | .jsr | .rts | .stop => true
  | _ => false

/-- The operand at the cursor, and whether an error occurred.  At the end of
the list an error is returned but none is reported. -/
def parseOperand (unit : TranslationUnit) : TranslationUnit × InstructionOperand × Bool :=
  match unit.tokens with
  | [] => (unit, { operand := none, isDereferenced := false }, true)
  | current :: rest =>
    if current.type = .hashtag then
      match rest with
      | [] =>
        (unit.reportError "Expected number after '#'" current,
          { operand := none, isDereferenced := false }, true)
      | next :: rest' =>
        if next.type ≠ .number then
          (unit.reportError "Expected number after '#'" current,
            { operand := none, isDereferenced := false }, true)
        else
          (unit.setTokens rest', { operand := some next, isDereferenced := false }, false)
    else if current.type = .star then
      match rest with
      | [] =>
        (unit.reportError "Expected operand after '*'" current,
          { operand := none, isDereferenced := true }, true)
      | next :: rest' =>
        if next.type = .register ∨ next.type = .identifier then
          (unit.setTokens rest', { operand := some next, isDereferenced := true }, false)
        else
          (unit.reportError "Expected register or identifier" next,
            { operand := none, isDereferenced := true }, true)
    else if current.type = .register ∨ current.type = .identifier then
      (unit.setTokens rest, { operand := some current, isDereferenced := false }, false)
    else
      (unit.reportError "Expected register or identifier" current,
        { operand := none, isDereferenced := false }, true)

/-- The second operand, behind the comma. -/
def parseSecondOperand (unit : TranslationUnit) (instruction : InstructionNode) :
    TranslationUnit × InstructionNode :=
  let (unit', secondOperand, errorInOperand) := parseOperand unit
  if errorInOperand then (unit', { instruction with hasParserError := true })
  else
    let instruction' : InstructionNode :=
      { instruction with
        secondOperand := secondOperand.operand
        isSecondOperandDerefrenced := secondOperand.isDereferenced }
    if atLineEnd unit'.tokens then (unit', instruction')
    else
      (unit'.reportError "Expected end of line after instruction" unit'.currentOrDefault,
        { instruction' with hasParserError := true })

/-- The first operand, behind the operation. -/
def parseFirstOperand (unit : TranslationUnit) (instruction : InstructionNode) :
    TranslationUnit × InstructionNode :=
  let (unit', firstOperand, errorInOperand) := parseOperand unit
  if errorInOperand then (unit', { instruction with hasParserError := true })
  else
    let instruction' : InstructionNode :=
      { instruction with
        firstOperand := firstOperand.operand
        isFirstOperandDerefrenced := firstOperand.isDereferenced }
    match unit'.tokens with
    | [] => (unit', instruction')
    | next :: rest =>
      if next.type = .eol ∨ next.type = .eoft then (unit', instruction')
      else if next.type ≠ .comma then
        (unit'.reportError "Expected comma between operands" next,
          { instruction' with hasParserError := true })
      else parseSecondOperand (unit'.setTokens rest) instruction'

/-- The end of line behind an instruction is left to the caller. -/
def parserParseInstruction (unit : TranslationUnit) : TranslationUnit × InstructionNode :=
  match unit.tokens with
  | [] =>
    (unit.reportError "Expected an instruction" defaultToken,
      { InstructionNode.zero with hasParserError := true })
  | token :: rest =>
    if isInstructionToken token.type = false then
      (unit.reportError "Expected an instruction" token,
        { InstructionNode.zero with hasParserError := true })
    else
      let instruction : InstructionNode := { InstructionNode.zero with operation := some token }
      if atLineEnd rest then (unit.setTokens rest, instruction)
      else parseFirstOperand (unit.setTokens rest) instruction

/-- One round of `parser_parse_instruction_list`: a blank line or an
instruction. -/
def instructionListRound (s : TranslationUnit × List InstructionNode) :
    TranslationUnit × List InstructionNode :=
  match s.1.tokens with
  | [] => s
  | token :: rest =>
    if token.type = .eol then (s.1.setTokens rest, s.2)
    else
      let (unit, node) := parserParseInstruction s.1
      (unit, s.2 ++ [node])

/-- The instructions of a label, appended as in `parserParseGuidanceList`: here too
through the address of a variable of the round before. -/
def parserParseInstructionList (unit : TranslationUnit) :
    TranslationUnit × List InstructionNode :=
  While.loop (fun s => listGoesOn isInstructionToken s.1) instructionListRound
    (fun s => s.1.tokens.length) (unit, [])

/-! ## `.entry` and `.extern` -/

/-- Behind the identifier of `.entry` or `.extern`: the end of the line, or an
error. -/
def finishDirective (unit : TranslationUnit) (message : String) : TranslationUnit × Bool :=
  match unit.tokens with
  | [] => (unit, false)
  | next :: rest =>
    if next.type ≠ .eol ∧ next.type ≠ .eoft then (unit.reportError message next, true)
    else (if next.type = .eol then unit.setTokens rest else unit, false)

/-- The two error paths read the token at the cursor even at the end of the
list, where there is none. -/
def parserParseEntry (unit : TranslationUnit) : Except Fault (TranslationUnit × EntryNode) :=
  match unit.tokens with
  | [] => .error .nullDereference
  | token :: rest =>
    if token.type ≠ .entryIns then
      .ok (unit.reportError "Expected .entry directive" token,
        { entryLabel := none, hasParserError := true })
    else match rest with
    | [] => .error .nullDereference
    | label :: rest' =>
      if label.type ≠ .identifier then
        .ok ((unit.setTokens (label :: rest')).reportError
          "Expected identifier after .entry directive" label,
          { entryLabel := none, hasParserError := true })
      else
        let (unit', hasParserError) := finishDirective (unit.setTokens rest')
          "Unexpected tokens after .entry identifier"
        .ok (unit', { entryLabel := some label, hasParserError := hasParserError })

/-- `parser_parse_external`. -/
def parserParseExternal (unit : TranslationUnit) : TranslationUnit × ExternalNode :=
  match unit.tokens with
  | [] =>
    (unit.reportError "Expected .extern directive" defaultToken,
      { externalLabel := none, hasParserError := true })
  | token :: rest =>
    if token.type ≠ .externIns then
      (unit.reportError "Expected .extern directive" token,
        { externalLabel := none, hasParserError := true })
    else match rest with
    | [] =>
      ((unit.setTokens []).reportError "Expected identifier after .extern directive" defaultToken,
        { externalLabel := none, hasParserError := true })
    | label :: rest' =>
      if label.type ≠ .identifier then
        ((unit.setTokens (label :: rest')).reportError
          "Expected identifier after .extern directive" label,
          { externalLabel := none, hasParserError := true })
      else
        let (unit', hasParserError) := finishDirective (unit.setTokens rest')
          "Unexpected tokens after .extern identifier"
        (unit', { externalLabel := some label, hasParserError := hasParserError })

/-! ## Labelled statements -/

/-- The loop over the line breaks in front of a body. -/
def skipEol (tokens : List Token) : List Token :=
  tokens.dropWhile (fun token => token.type = .eol)

/-- The instructions or directives behind a label, if there is one. -/
def parseStatementBody (unit : TranslationUnit) (label : LabelNode)
    (labelIdentifierFound : Bool) : TranslationUnit × LabelNode :=
  match unit.tokens with
  | [] => (unit, label)
  | token :: _ =>
    if isInstructionToken token.type then
      if labelIdentifierFound = false then
        (unit.reportError
          ("An instruction was found here but no label identifier, " ++
            "please add a label identifier") token, label)
      else
        let (unit', instructions) := parserParseInstructionList unit
        (unit', { label with instructionList := instructions })
    else if isGuidanceToken token.type then
      let (unit', guidance) := parserParseGuidanceList unit
      (unit', { label with guidanceList := guidance })
    else (unit.reportError "No instruction/guidance was found here" token, label)

/-- `parse_labeled_statement`. -/
def parseLabeledStatement (unit : TranslationUnit) : TranslationUnit × LabelNode :=
  match unit.tokens with
  | [] => parseStatementBody unit .zero false
  | token :: rest =>
    if token.type ≠ .identifier then parseStatementBody unit .zero false
    else
      let label : LabelNode := { LabelNode.zero with label := some token }
      match rest with
      | [] =>
        ((unit.setTokens []).reportError "No colon found after label identifier" defaultToken,
          label)
      | colon :: rest' =>
        if colon.type ≠ .colon then
          ((unit.setTokens (colon :: rest')).reportError
            "No colon found after label identifier" colon, label)
        else if token.index + stringLength token.string ≠ colon.index then
          ((unit.setTokens (colon :: rest')).reportError
            "The colon should be immediately after the label identifier" colon, label)
        else parseStatementBody (unit.setTokens (skipEol rest')) label true

/-! ## The translation unit -/

/-- A label goes to the list of its statements; one without any is dropped. -/
def TranslationUnit.appendLabel (unit : TranslationUnit) (label : LabelNode) :
    TranslationUnit :=
  if label.instructionList ≠ [] then
    { unit with instructionLabelList := unit.instructionLabelList ++ [label] }
  else if label.guidanceList ≠ [] then
    { unit with guidanceLabelList := unit.guidanceLabelList ++ [label] }
  else unit

/-- One round of `parse_translation_unit_content`. -/
def contentRound (unit : TranslationUnit) : Except Fault TranslationUnit :=
  match unit.tokens with
  | [] => .ok unit
  | token :: rest =>
    if token.type = .eol then .ok (unit.setTokens rest)
    else if token.type = .externIns then
      let (unit', node) := parserParseExternal unit
      .ok { unit' with externalList := unit'.externalList ++ [node] }
    else if token.type = .entryIns then do
      let (unit', node) ← parserParseEntry unit
      .ok { unit' with entryList := unit'.entryList ++ [node] }
    else if token.type = .identifier ∨ token.type = .dataIns ∨ token.type = .stringIns then
      let (unit', label) := parseLabeledStatement unit
      .ok (unit'.appendLabel label)
    else if token.type = .macr ∨ token.type = .endmacr then
      .ok (parserMoveToEndOfLine unit)
    else .ok (unit.reportError "Unexpected token: expected label, .extern, or .entry" token)

/-- The main loop ends at the end of the file or of the list, or with the
program. -/
def contentGoesOn (run : Except Fault TranslationUnit) : Bool :=
  match run with
  | .error _ => false
  | .ok unit => match unit.tokens with
    | [] => false
    | token :: _ => token.type ≠ .eoft

/-- The tokens that are left to the loop. -/
def contentRemaining (run : Except Fault TranslationUnit) : Nat :=
  match run with
  | .error _ => 0
  | .ok unit => unit.tokens.length

/-- The four lists are gathered in the unit itself, which nothing reads before
the loop has ended. -/
def parseTranslationUnitContent (unit : TranslationUnit) : Except Fault TranslationUnit :=
  While.loop contentGoesOn (fun run => run.bind contentRound) contentRemaining
    (.ok { unit with
      externalList := []
      entryList := []
      instructionLabelList := []
      guidanceLabelList := [] })

end Assembler
