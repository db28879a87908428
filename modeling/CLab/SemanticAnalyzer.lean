import CLab.Lexer
import CLab.Nodes
import CLab.Probing
import Mathlib.Algebra.Group.Int.Defs
import Mathlib.Algebra.Group.Nat.Defs

/-!
# The semantic analyzer

`semantic_analyzer.c`: the table of identifiers, a hash table with linear
probing, and the checks of the labels, externals, entries, instructions and
directives of a translation unit.  The pointers `analyzer` and `unit` are never
`NULL` here.
-/

namespace Assembler

/-! ## Numbers in a text -/

/-- `isspace` in the C locale. -/
def isSpace (ch : UInt8) : Bool :=
  ch == 32 || (9 ≤ ch && ch ≤ 13)

/-- The number that the digits at the front of a text write. -/
def digitsValue (text : List UInt8) : Nat :=
  (text.takeWhile isDigit).foldl (fun value ch => 10 * value + (ch.toNat - 48)) 0

/-- `strtol` in base ten, with a `long` of 64 bits. -/
def strtol (text : List UInt8) : Int :=
  let saturate (value : Int) : Int := max (-(2 ^ 63)) (min (2 ^ 63 - 1) value)
  match text.dropWhile isSpace with
  | [] => 0
  | ch :: rest =>
      if ch = '-'.toUInt8 then saturate (-(digitsValue rest))
      else if ch = '+'.toUInt8 then saturate (digitsValue rest)
      else saturate (digitsValue (ch :: rest))

/-- `atoi` is `strtol` with the result cut to an `int`. -/
def atoi (text : List UInt8) : Int :=
  Int.bmod (strtol text) (2 ^ 32)

/-! ## The table of identifiers -/

/-- How an operand is addressed. -/
inductive AddressingMode
  | immediate
  | direct
  | indirectRegister
  | directRegister
deriving DecidableEq

/-- What a name stands for. -/
inductive IdentifierCellType
  | label
  | external
deriving DecidableEq

/-- The pointer in a cell: a label or an external of the unit, by its place in
its list. -/
inductive IdentifierValue
  | instructionLabel (index : Nat)
  | guidanceLabel (index : Nat)
  | external (index : Nat)
deriving DecidableEq

/-- A cell of the table: a name, what it stands for, and whether it has a line in the
entry file. -/
structure IdentifierCell where
  key : CString
  value : IdentifierValue
  type : IdentifierCellType
  hasEntry : Bool
deriving DecidableEq

/-- A cell whose key is `NULL` is `none`.  `stderr` is what the stage has
printed there. -/
structure SemanticAnalyzer where
  hash : List (Option IdentifierCell)
  errorHandler : ErrorHandler
  stderr : List String

/-- The number of cells. -/
def SemanticAnalyzer.size (analyzer : SemanticAnalyzer) : Nat := analyzer.hash.length

/-- The keys of the cells, in order. -/
def SemanticAnalyzer.keys (analyzer : SemanticAnalyzer) : List (Option CString) :=
  analyzer.hash.map (Option.map IdentifierCell.key)

/-- `compute_string_hash`, in 64 bits that wrap. -/
def computeStringHash (str : CString) : UInt64 :=
  str.data.foldl (fun h ch => (h <<< 5) + h + ch.toUInt64) 5381

/-- `(unsigned int) (n / 0.75)` is `4 * n / 3`: the quotient of the doubles is
too close to the exact one to reach the next integer. -/
def semanticAnalyzerInitialize (unit : TranslationUnit) (lexer : Lexer) : SemanticAnalyzer where
  hash := List.replicate
    (4 * (unit.instructionLabelList.length +
      unit.guidanceLabelList.countP (fun node => node.label.isSome) +
      unit.externalList.length) / 3 + 1) none
  errorHandler := errorHandlerInitialize lexer.sourceCode lexer.filePath
  stderr := []

/-- The index of the cell whose pointer is returned. -/
def semanticAnalyzerFindIdentifier (analyzer : SemanticAnalyzer) (key : CString) : Option Nat :=
  if analyzer.size = 0 then none
  else match Probing.probe analyzer.keys key (computeStringHash key).toNat with
    | .empty _ => none
    | .found index => some index
    | .full => none

/-- The cell that is found, read. -/
def SemanticAnalyzer.lookup (analyzer : SemanticAnalyzer) (key : CString) :
    Option IdentifierCell :=
  (semanticAnalyzerFindIdentifier analyzer key).bind
    (fun index => analyzer.hash.getD index none)

/-- `semantic_analyzer_insert_identifier`: a name that is there, or a full table, is
refused. -/
def semanticAnalyzerInsertIdentifier (analyzer : SemanticAnalyzer) (cell : IdentifierCell) :
    SemanticAnalyzer × Bool :=
  if analyzer.size = 0 then (analyzer, false)
  else match Probing.probe analyzer.keys cell.key (computeStringHash cell.key).toNat with
    | .empty index =>
        ({ analyzer with hash := analyzer.hash.set index (some { cell with hasEntry := false }) },
          true)
    | .found _ => (analyzer, false)
    | .full => (analyzer, false)

/-! ## Errors -/

/-- A line on the error stream. -/
def SemanticAnalyzer.print (analyzer : SemanticAnalyzer) (line : String) : SemanticAnalyzer :=
  { analyzer with stderr := analyzer.stderr ++ [line] }

/-- An error of the analyzer, filed under its own kind. -/
def SemanticAnalyzer.addError (analyzer : SemanticAnalyzer) (message : String) (token : Token) :
    SemanticAnalyzer :=
  { analyzer with
    errorHandler := errorHandlerAddTokenError analyzer.errorHandler .semanticAnalyzer
      { token := token, message := message } }

/-- `report_error`: without a token there is a line on the error stream instead. -/
def SemanticAnalyzer.reportError (analyzer : SemanticAnalyzer) (message : String)
    (token : Option Token) : SemanticAnalyzer :=
  match token with
  | none => analyzer.print ("Error: NULL token passed to report_error for message: " ++ message)
  | some token => analyzer.addError message token

/-- A report that is made only if something is wrong. -/
def SemanticAnalyzer.reportIf (analyzer : SemanticAnalyzer) (wrong : Bool) (message : String)
    (token : Option Token) : SemanticAnalyzer :=
  if wrong then analyzer.reportError message token else analyzer

/-! ## Instructions and directives -/

/-- The bounds of a number in a directive. -/
def max15BitSignedInt : Int := 2 ^ 14 - 1
def min15BitSignedInt : Int := -(2 ^ 14)

/-- The bounds of an immediate operand. -/
def max12BitSignedInt : Int := 2 ^ 11 - 1
def min12BitSignedInt : Int := -(2 ^ 11)

/-- Behind a `NULL` token the loop goes on with the same token. -/
def analyzeDataNumbers (analyzer : SemanticAnalyzer) :
    List (Option Token) → Except Fault SemanticAnalyzer
  | [] => .ok analyzer
  | none :: _ => .error .divergence
  | some token :: rest =>
      let value := atoi token.string.data
      analyzeDataNumbers
        (analyzer.reportIf (decide (value > max15BitSignedInt ∨ value < min15BitSignedInt))
          "Integer value is out of the allowed range" (some token)) rest

/-- The numbers of a `.data` line. -/
def semanticAnalyzerAnalyzeDirectiveGuidance (analyzer : SemanticAnalyzer) (node : DataNode) :
    Except Fault SemanticAnalyzer :=
  analyzeDataNumbers analyzer node.dataNumbers

/-- The mode of an operand, and a report on a token that has none. -/
def validateAndDetermineAddressingMode (analyzer : SemanticAnalyzer) (operandToken : Token)
    (isDereferenced : Bool) : SemanticAnalyzer × AddressingMode :=
  match operandToken.type with
  | .number =>
      let value := atoi operandToken.string.data
      ((analyzer.reportIf isDereferenced "A number cannot be dereferenced"
          (some operandToken)).reportIf
          (decide (value > max12BitSignedInt ∨ value < min12BitSignedInt))
          "Integer value is out of the allowed range" (some operandToken),
        .immediate)
  | .identifier =>
      (analyzer.reportIf isDereferenced "A label cannot be dereferenced" (some operandToken),
        .direct)
  | .register => (analyzer, if isDereferenced then .indirectRegister else .directRegister)
  | _ => (analyzer.reportError "Invalid operand syntax" (some operandToken), .immediate)

/-- The type of an operation with no operand count is `-1`. -/
def getExpectedOperandCount (operationType : TokenType) : Int :=
  match operationType with
  | .mov | .cmp | .add | .sub | .lea => 2
  | .clr | .not | .inc | .dec | .jmp | .bne | .jsr | .red | .prn => 1
  | .rts | .stop => 0
  | _ => -1

/-- A name has to be in the table. -/
def validateIdentifier (analyzer : SemanticAnalyzer) (token : Token) : SemanticAnalyzer :=
  analyzer.reportIf (semanticAnalyzerFindIdentifier analyzer token.string).isNone
    "Unknown identifier" (some token)

/-- An operand, if there is one: its addressing mode, and its name in the
table. -/
def validateOperand (analyzer : SemanticAnalyzer) (operand : Option Token)
    (isDereferenced : Bool) : SemanticAnalyzer × AddressingMode :=
  match operand with
  | none => (analyzer, .immediate)
  | some token =>
      let (analyzer', mode) := validateAndDetermineAddressingMode analyzer token isDereferenced
      (if token.type = .identifier then validateIdentifier analyzer' token else analyzer', mode)

/-- What each operation requires of the modes of its operands. -/
def validateOperation (analyzer : SemanticAnalyzer) (operation : Token)
    (source destination : Option Token) (sourceAM destinationAM : AddressingMode) :
    SemanticAnalyzer :=
  match operation.type with
  | .mov | .add | .sub | .cmp =>
      analyzer.reportIf (sourceAM = .immediate ∧ destinationAM = .immediate)
        "Both operands cannot be immediate" (some operation)
  | .not | .clr | .inc | .dec =>
      analyzer.reportIf (sourceAM = .immediate)
        "Operand cannot be immediate for this instruction" source
  | .lea =>
      (analyzer.reportIf (sourceAM ≠ .direct) "LEA source must be a label" source).reportIf
        (destinationAM ≠ .directRegister ∧ destinationAM ≠ .indirectRegister)
        "LEA destination must be a register" destination
  | .jmp | .bne | .jsr =>
      analyzer.reportIf (sourceAM ≠ .direct ∧ sourceAM ≠ .indirectRegister)
        "Invalid addressing mode for jump instruction" source
  | .red => analyzer.reportIf (sourceAM = .immediate) "RED operand cannot be immediate" source
  | .prn => analyzer
  | .rts | .stop => analyzer
  | _ => analyzer.reportError "Unknown operation type" (some operation)

/-- The operands of an instruction, then its operation. -/
def semanticAnalyzerAnalyzeInstruction (analyzer : SemanticAnalyzer) (node : InstructionNode) :
    SemanticAnalyzer :=
  match node.operation with
  | none => analyzer.print
      "Error: Invalid parameters passed to semantic_analyzer_analyze_instruction"
  | some operation =>
      let actualOperandCount : Int :=
        (if node.firstOperand.isSome then 1 else 0) + (if node.secondOperand.isSome then 1 else 0)
      if actualOperandCount ≠ getExpectedOperandCount operation.type then
        analyzer.reportError "Invalid number of operands" (some operation)
      else
        let (analyzer', sourceAM) :=
          validateOperand analyzer node.firstOperand node.isFirstOperandDerefrenced
        let (analyzer'', destinationAM) :=
          validateOperand analyzer' node.secondOperand node.isSecondOperandDerefrenced
        validateOperation analyzer'' operation node.firstOperand node.secondOperand sourceAM
          destinationAM

/-- The check of a directive; a string needs none. -/
def analyzeGuidanceNode (analyzer : SemanticAnalyzer) :
    GuidanceNode → Except Fault SemanticAnalyzer
  | .dataNode node => semanticAnalyzerAnalyzeDirectiveGuidance analyzer node
  | .stringNode _ => .ok analyzer

/-- The check of all that stands under a label. -/
def semanticAnalyzerAnalyzeLabel (analyzer : SemanticAnalyzer) (node : LabelNode) :
    Except Fault SemanticAnalyzer :=
  let named := match node.instructionList, node.label with
    | first :: _, none => analyzer.reportError
        "A label with instructions should have a label identifier" first.firstOperand
    | _, _ => analyzer
  node.guidanceList.foldlM analyzeGuidanceNode
    (node.instructionList.foldl semanticAnalyzerAnalyzeInstruction named)

/-! ## Declarations -/

/-- A label is put in the table, or reported. -/
def declareLabel (analyzer : SemanticAnalyzer) (label : Token) (value : IdentifierValue) :
    SemanticAnalyzer :=
  let (analyzer', inserted) := semanticAnalyzerInsertIdentifier analyzer
    { key := label.string, value := value, type := .label, hasEntry := false }
  analyzer'.reportIf (!inserted) "Duplicate label declaration" (some label)

/-- The loop that enters the instruction labels. -/
def validateInstructionLabels (analyzer : SemanticAnalyzer) (index : Nat) :
    List LabelNode → Except Fault SemanticAnalyzer
  | [] => .ok analyzer
  | node :: rest =>
      match node.label with
      | none => .error .nullDereference
      | some label =>
          validateInstructionLabels (declareLabel analyzer label (.instructionLabel index))
            (index + 1) rest

/-- The loop that enters the guidance labels; one without a name has no cell. -/
def validateGuidanceLabels (analyzer : SemanticAnalyzer) (index : Nat) :
    List LabelNode → SemanticAnalyzer
  | [] => analyzer
  | node :: rest =>
      match node.label with
      | none => validateGuidanceLabels analyzer (index + 1) rest
      | some label =>
          validateGuidanceLabels (declareLabel analyzer label (.guidanceLabel index))
            (index + 1) rest

/-- An external is put in the table, or reported. -/
def declareExternal (analyzer : SemanticAnalyzer) (label : Token) (value : IdentifierValue) :
    SemanticAnalyzer :=
  match analyzer.lookup label.string with
  | none => (semanticAnalyzerInsertIdentifier analyzer
      { key := label.string, value := value, type := .external, hasEntry := false }).1
  | some existing =>
      if existing.type = .label then
        analyzer.reportError "Identifier declared as both label and external" (some label)
      else analyzer.reportError "Duplicate external declaration" (some label)

/-- The loop that enters the externals. -/
def validateExternalDeclarations (analyzer : SemanticAnalyzer) (index : Nat) :
    List ExternalNode → Except Fault SemanticAnalyzer
  | [] => .ok analyzer
  | node :: rest =>
      match node.externalLabel with
      | none => .error .nullDereference
      | some label =>
          validateExternalDeclarations (declareExternal analyzer label (.external index))
            (index + 1) rest

/-- An entry has to be in the table, and not as an external. -/
def checkEntry (analyzer : SemanticAnalyzer) (label : Token) : SemanticAnalyzer :=
  match analyzer.lookup label.string with
  | none => analyzer.reportError "Entry point has no corresponding label declaration" (some label)
  | some existing =>
      analyzer.reportIf (existing.type = .external)
        "Entry point cannot be an external declaration" (some label)

/-- The loop over the entries. -/
def validateEntryDeclarations (analyzer : SemanticAnalyzer) :
    List EntryNode → Except Fault SemanticAnalyzer
  | [] => .ok analyzer
  | node :: rest =>
      match node.entryLabel with
      | none => .error .nullDereference
      | some label => validateEntryDeclarations (checkEntry analyzer label) rest

/-- All names of the unit are entered, and the entries looked up. -/
def semanticAnalyzerAnalyzeDuplicateIdentifiers (analyzer : SemanticAnalyzer)
    (unit : TranslationUnit) : Except Fault SemanticAnalyzer := do
  let labelled ← validateInstructionLabels analyzer 0 unit.instructionLabelList
  let declared ← validateExternalDeclarations
    (validateGuidanceLabels labelled 0 unit.guidanceLabelList) 0 unit.externalList
  validateEntryDeclarations declared unit.entryList

/-- The loop that checks the labels. -/
def validateLabelList (analyzer : SemanticAnalyzer) (labels : List LabelNode) :
    Except Fault SemanticAnalyzer :=
  labels.foldlM semanticAnalyzerAnalyzeLabel analyzer

/-- `semantic_analyzer_analyze_translation_unit`: first the names, then the lines. -/
def semanticAnalyzerAnalyzeTranslationUnit (analyzer : SemanticAnalyzer)
    (unit : TranslationUnit) : Except Fault SemanticAnalyzer := do
  let declared ← semanticAnalyzerAnalyzeDuplicateIdentifiers analyzer unit
  let instructed ← validateLabelList declared unit.instructionLabelList
  validateLabelList instructed unit.guidanceLabelList

end Assembler
