import CLab.Numerals
import CLab.SemanticAnalyzer

/-!
# The code generator

`code_generator.c`: the first pass gives every label a size and a position, the
second writes the words of the object file and the lines of the external file,
and the entries are written from the positions of the first pass.  The bit-field
structures are bit vectors; a pointer to a label in a cell of the table is
followed in the lists of the unit as they are then.
-/

namespace Assembler

/-- The three texts of the generator, its errors, and what it has printed to the error
stream. -/
structure CodeGenerator where
  entryFile : CString
  externalFile : CString
  objectFile : CString
  errorHandler : ErrorHandler
  stderr : List String

/-- A new generator: three empty texts and no error. -/
def codeGeneratorInitialize (lexer : Lexer) : CodeGenerator where
  entryFile := stringCreate
  externalFile := stringCreate
  objectFile := stringCreate
  errorHandler := errorHandlerInitialize lexer.sourceCode lexer.filePath
  stderr := []

/-- An error of the generator, filed under its own kind. -/
def CodeGenerator.addError (generator : CodeGenerator) (message : String) (token : Token) :
    CodeGenerator :=
  { generator with
    errorHandler := errorHandlerAddTokenError generator.errorHandler .outputGenerator
      { token := token, message := message } }

/-- `STARTING_POSITION`, where the program is loaded. -/
def startingPosition : Nat := 100

/-- `MAX_POSITION`, the last address there is. -/
def maxPosition : Nat := 9999

/-! ## Positions -/

/-- `determine_addressing_mode`, from the kind of the token alone. -/
def determineAddressingMode (operandToken : Token) (isDerefrenced : Bool) : AddressingMode :=
  match operandToken.type with
  | .number => .immediate
  | .identifier => .direct
  | .register => if isDerefrenced then .indirectRegister else .directRegister
  | _ => .immediate

/-- The two modes that put a register into the word. -/
def AddressingMode.isRegister : AddressingMode → Bool
  | .indirectRegister | .directRegister => true
  | .immediate | .direct => false

/-- An operand that is not there has the mode it was given at first. -/
def operandMode (operand : Option Token) (isDerefrenced : Bool) : AddressingMode :=
  match operand with
  | none => .immediate
  | some token => determineAddressingMode token isDerefrenced

/-- One word, and one for each operand; two registers share theirs. -/
def instructionSize (node : InstructionNode) : Nat :=
  if (operandMode node.firstOperand node.isFirstOperandDerefrenced).isRegister &&
      (operandMode node.secondOperand node.isSecondOperandDerefrenced).isRegister then 1 + 1
  else 1 + (if node.firstOperand.isSome then 1 else 0) +
    (if node.secondOperand.isSome then 1 else 0)

/-- A string has its quotes, so its length is not below two. -/
def guidanceSize : GuidanceNode → Except Fault Nat
  | .stringNode node => match node.stringLabel with
    | none => .error .nullDereference
    | some label => .ok (stringLength label.string + 1 - 2)
  | .dataNode node => .ok node.dataNumbers.length

/-- `calculate_label_memory_size`, first the instructions and then the directives. -/
def calculateLabelMemorySize (label : LabelNode) : Except Fault Nat :=
  label.guidanceList.foldlM (fun totalSize node => do
      let size ← guidanceSize node
      .ok (totalSize + size))
    (label.instructionList.foldl (fun totalSize node => totalSize + instructionSize node) 0)

/-- What is left of a pass over a list of labels: the labels, the next position,
and whether the pass was given up. -/
structure LabelsUpdated where
  generator : CodeGenerator
  labels : List LabelNode
  position : Nat
  overflow : Bool

/-- The loop over a list of labels, which gives up at the first label behind which the
address is above `MAX_POSITION`.
-/
def updateLabelList (generator : CodeGenerator) (currentPosition : Nat) :
    List LabelNode → Except Fault LabelsUpdated
  | [] => .ok ⟨generator, [], currentPosition, false⟩
  | node :: rest => do
      let size ← calculateLabelMemorySize node
      let node' := { node with size := size, position := currentPosition }
      let currentPosition' := currentPosition + size
      if currentPosition' > maxPosition then
        match node.label with
        | none => .error .nullDereference
        | some label =>
            let generator' := generator.addError
              "Memory overflow: Program exceeds maximum allowed size" label
            .ok ⟨generator', node' :: rest, currentPosition', true⟩
      else do
        let updated ← updateLabelList generator currentPosition' rest
        .ok { updated with labels := node' :: updated.labels }

/-- `code_generator_update_labels`: the instructions come first, then the data. -/
def codeGeneratorUpdateLabels (generator : CodeGenerator) (unit : TranslationUnit) :
    Except Fault (CodeGenerator × TranslationUnit) := do
  let instructions ← updateLabelList generator startingPosition unit.instructionLabelList
  let unit' := { unit with instructionLabelList := instructions.labels }
  if instructions.overflow then .ok (instructions.generator, unit')
  else do
    let guidance ← updateLabelList instructions.generator instructions.position
      unit.guidanceLabelList
    .ok (guidance.generator, { unit' with guidanceLabelList := guidance.labels })

/-! ## `printf` -/

/-- `%0wd` and `%0wu` of a number that is not negative. -/
def formatDecimal (width n : Nat) : List UInt8 := Numerals.padded 10 width n

/-- `%0wo`, which is asked for with five digits. -/
def formatOctal (width n : Nat) : List UInt8 := Numerals.padded 8 width n

/-! ## Entries -/

/-- The label that a cell points to. -/
def TranslationUnit.labelAt (unit : TranslationUnit) : IdentifierValue → Option LabelNode
  | .instructionLabel index => unit.instructionLabelList[index]?
  | .guidanceLabel index => unit.guidanceLabelList[index]?
  | .external _ => none

/-- A line on the error stream. -/
def CodeGenerator.print (generator : CodeGenerator) (line : String) : CodeGenerator :=
  { generator with stderr := generator.stderr ++ [line] }

/-- The cell that is found, with its place. -/
def SemanticAnalyzer.findCell (analyzer : SemanticAnalyzer) (key : CString) :
    Option (Nat × IdentifierCell) :=
  (semanticAnalyzerFindIdentifier analyzer key).bind
    (fun index => (analyzer.hash.getD index none).map (fun cell => (index, cell)))

/-- The line of an entry, and the mark that it has one.  The pointer in the cell
of an external is read as one to a label. -/
def writeEntry (generator : CodeGenerator) (analyzer : SemanticAnalyzer)
    (unit : TranslationUnit) (label : Token) (index : Nat) (cell : IdentifierCell) :
    Except Fault (CodeGenerator × SemanticAnalyzer) :=
  match unit.labelAt cell.value with
  | none => .error .invalidPointer
  | some node =>
      let positionBuffer := bytes " " ++
        formatDecimal 4 (node.position + startingPosition) ++ bytes "\n"
      .ok ({ generator with
            entryFile := stringAppendCstr (stringAppend generator.entryFile label.string)
              positionBuffer },
        { analyzer with hash := analyzer.hash.set index (some { cell with hasEntry := true }) })

/-- The loop over the declared entries; a cell that has its line gets no second one. -/
def generateEntryLines (generator : CodeGenerator) (analyzer : SemanticAnalyzer)
    (unit : TranslationUnit) : List EntryNode → Except Fault (CodeGenerator × SemanticAnalyzer)
  | [] => .ok (generator, analyzer)
  | node :: rest =>
      match node.entryLabel with
      | none =>
          generateEntryLines (generator.print "Error: Invalid entry node token\n") analyzer unit
            rest
      | some label =>
          match analyzer.findCell label.string with
          | none => generateEntryLines (generator.addError "Entry point not defined" label)
              analyzer unit rest
          | some (index, cell) =>
              if cell.hasEntry then generateEntryLines generator analyzer unit rest
              else do
                let (generator', analyzer') ← writeEntry generator analyzer unit label index cell
                generateEntryLines generator' analyzer' unit rest

/-- `generate_entry_file_string`, into an empty text. -/
def generateEntryFileString (generator : CodeGenerator) (analyzer : SemanticAnalyzer)
    (unit : TranslationUnit) : Except Fault (CodeGenerator × SemanticAnalyzer) :=
  generateEntryLines { generator with entryFile := stringCreate } analyzer unit unit.entryList

/-! ## Words -/

/-- The fields of the first word of an instruction. -/
structure InstructionMemory where
  are : BitVec 3
  dst : BitVec 4
  src : BitVec 4
  code : BitVec 4

/-- The register numbers share the low bits of the operand value: `rdst` is
bits 0 to 2 of it, `rsrc` bits 3 to 5. -/
structure InstructionOperandMemory where
  are : BitVec 3
  operandValue : BitVec 12

/-- The store to the field `rdst`. -/
def InstructionOperandMemory.setRdst (memory : InstructionOperandMemory) (rdst : BitVec 3) :
    InstructionOperandMemory :=
  { memory with operandValue := memory.operandValue &&& ~~~7 ||| rdst.setWidth 12 }

/-- The store to the field `rsrc`. -/
def InstructionOperandMemory.setRsrc (memory : InstructionOperandMemory) (rsrc : BitVec 3) :
    InstructionOperandMemory :=
  { memory with
    operandValue :=
      memory.operandValue &&& ~~~((7 : BitVec 12) <<< 3) ||| rsrc.setWidth 12 <<< 3 }

/-- All fields zero. -/
def InstructionMemory.zero : InstructionMemory := { are := 0, dst := 0, src := 0, code := 0 }

/-- The word of an operand before anything is stored. -/
def InstructionOperandMemory.zero : InstructionOperandMemory := { are := 0, operandValue := 0 }

/-- A mode is one bit of four. -/
def AddressingMode.code : AddressingMode → BitVec 4
  | .immediate => 1
  | .direct => 2
  | .indirectRegister => 4
  | .directRegister => 8

/-- `(InstructionCode)(type - TOKEN_MOV)`, stored in four bits. -/
def tokenTypeToInstrCode (type : TokenType) : BitVec 4 :=
  BitVec.ofInt 4 ((type.ctorIdx : Int) - TokenType.mov.ctorIdx)

/-- `IntTo2Complement`, which keeps fifteen bits of either sign. -/
def intTo2Complement (value : BitVec 32) : BitVec 32 :=
  if 0 ≤ value.toInt then value &&& 0x7FFF else ((~~~(-value) &&& 0x7FFF) + 1) &&& 0x7FFF

/-- `InstrMemToBinary`: the fields side by side. -/
def instrMemToBinary (inst : InstructionMemory) : BitVec 32 :=
  (inst.are.setWidth 32 &&& 0x7) ||| ((inst.dst.setWidth 32 &&& 0xF) <<< 3) |||
    ((inst.src.setWidth 32 &&& 0xF) <<< 7) ||| ((inst.code.setWidth 32 &&& 0xF) <<< 11)

/-- `InstrOperandMemToBinary`: the operand above the three bits of the relocation. -/
def instrOperandMemToBinary (inst : InstructionOperandMemory) : BitVec 32 :=
  (inst.are.setWidth 32 &&& 0x7) ||| ((inst.operandValue.setWidth 32 &&& 0xFFF) <<< 3)

/-- More text of the object file. -/
def CodeGenerator.appendObject (generator : CodeGenerator) (text : List UInt8) : CodeGenerator :=
  { generator with objectFile := stringAppendCstr generator.objectFile text }

/-- The generator and the position it writes at. -/
abbrev Output := CodeGenerator × Nat

/-- `write_to_object_file`: an address, a word and a line break. -/
def writeToObjectFile (output : Output) (toWrite : BitVec 32) : Output :=
  ((output.1.appendObject (formatDecimal 4 output.2 ++ bytes " ")).appendObject
      (formatOctal 5 (toWrite &&& 0x7FFF).toNat ++ bytes "\n"),
    output.2 + 1)

/-! ## Instructions -/

/-- `handle_register_mode`.  Storing one of the two fields clears the other. -/
def handleRegisterMode (operand : Token) (operandMemory : InstructionOperandMemory)
    (isDst : Bool) : InstructionOperandMemory :=
  let regNum := BitVec.ofInt 3 (atoi (operand.string.data.drop 1))
  let operandMemory' := { operandMemory with are := 4 }
  if isDst then (operandMemory'.setRdst regNum).setRsrc 0
  else (operandMemory'.setRsrc regNum).setRdst 0

/-- A name that is not in the table leaves the memory as it is. -/
def handleDirectMode (analyzer : SemanticAnalyzer) (unit : TranslationUnit) (output : Output)
    (operand : Token) (operandMemory : InstructionOperandMemory) :
    Except Fault (Output × InstructionOperandMemory) :=
  match analyzer.lookup operand.string with
  | none => .ok (output, operandMemory)
  | some cell =>
      match cell.type with
      | .label =>
          match unit.labelAt cell.value with
          | none => .error .invalidPointer
          | some node => .ok (output, { are := 2, operandValue := BitVec.ofNat 12 node.position })
      | .external =>
          let line := bytes " " ++ formatDecimal 4 (output.2 + 1) ++ bytes "\n"
          .ok (({ output.1 with
              externalFile := stringAppendCstr
                (stringAppend output.1.externalFile operand.string) line }, output.2),
            { are := 1, operandValue := 0 })

/-- `handle_operand`, by the mode. -/
def handleOperand (analyzer : SemanticAnalyzer) (unit : TranslationUnit) (output : Output)
    (operand : Token) (mode : AddressingMode) (operandMemory : InstructionOperandMemory)
    (isDst : Bool) : Except Fault (Output × InstructionOperandMemory) :=
  match mode with
  | .immediate =>
      let temp := BitVec.ofInt 32 (atoi operand.string.data)
      .ok (output, { are := 4, operandValue := (intTo2Complement temp).setWidth 12 })
  | .direct => handleDirectMode analyzer unit output operand operandMemory
  | .directRegister | .indirectRegister =>
      .ok (output, handleRegisterMode operand operandMemory isDst)

/-- `generate_instruction`, the line of a first word. -/
def generateInstruction (output : Output) (instrucitionMemory : InstructionMemory) : Output :=
  writeToObjectFile output (instrMemToBinary instrucitionMemory)

/-- `generate_operand_instruction`, the line of an operand. -/
def generateOperandInstruction (output : Output) (operandMemory : InstructionOperandMemory) :
    Output :=
  writeToObjectFile output (instrOperandMemToBinary operandMemory)

/-- An operand alone in its word. -/
def generateOperand (analyzer : SemanticAnalyzer) (unit : TranslationUnit) (output : Output)
    (operand : Token) (mode : AddressingMode) (isDst : Bool) : Except Fault Output := do
  let (output', operandMemory) ← handleOperand analyzer unit output operand mode .zero isDst
  .ok (generateOperandInstruction output' operandMemory)

/-- A second operand without a first falls through all the cases. -/
def generateInstructionMemory (analyzer : SemanticAnalyzer) (unit : TranslationUnit)
    (output : Output) (node : InstructionNode) : Except Fault Output :=
  match node.firstOperand, node.secondOperand with
  | none, none =>
      match node.operation with
      | none => .error .nullDereference
      | some operation =>
          .ok (generateInstruction output
            { InstructionMemory.zero with
              are := 4
              code := tokenTypeToInstrCode operation.type })
  | some firstOperand, none =>
      let first := determineAddressingMode firstOperand node.isFirstOperandDerefrenced
      match node.operation with
      | none => .error .nullDereference
      | some operation =>
          let output' := generateInstruction output
            { InstructionMemory.zero with
              are := 4
              dst := first.code
              code := tokenTypeToInstrCode operation.type }
          generateOperand analyzer unit output' firstOperand first true
  | some firstOperand, some secondOperand =>
      let first := determineAddressingMode firstOperand node.isFirstOperandDerefrenced
      let second := determineAddressingMode secondOperand node.isSecondOperandDerefrenced
      match node.operation with
      | none => .error .nullDereference
      | some operation =>
          let output' := generateInstruction output
            { are := 4
              dst := second.code
              src := first.code
              code := tokenTypeToInstrCode operation.type }
          if first.isRegister && second.isRegister then
            .ok (generateOperandInstruction output'
              (handleRegisterMode secondOperand
                (handleRegisterMode firstOperand .zero false) true))
          else do
            let output'' ← generateOperand analyzer unit output' firstOperand first false
            generateOperand analyzer unit output'' secondOperand second true
  | none, some _ => .ok output

/-! ## Directives -/

/-- The three places that write a word of the data segment. -/
def writeGuidanceWord (output : Output) (toWrite : BitVec 32) : Output :=
  ((output.1.appendObject (formatDecimal 4 output.2)).appendObject
      (bytes " " ++ formatOctal 5 (toWrite &&& 0x7FFF).toNat ++ bytes "\n"),
    output.2 + 1)

/-- A number of a `.data`. -/
def generateNumber (output : Output) (number : Option Token) : Except Fault Output :=
  match number with
  | none => .error .nullDereference
  | some token =>
      .ok (writeGuidanceWord output
        (intTo2Complement (BitVec.ofInt 32 (atoi token.string.data))))

/-- A character of a `.string`. -/
def generateCharacter (string : CString) (output : Output) (index : Nat) : Output :=
  writeGuidanceWord output
    (intTo2Complement (BitVec.ofInt 32 (charToInt (stringCharAt string index))))

/-- The characters from index one to the one in front of the last, and a zero. -/
def generateString (output : Output) (string : CString) : Output :=
  writeGuidanceWord
    ((List.range' 1 (stringLength string - 1 - 1)).foldl (generateCharacter string) output) 0

/-- The words of a directive. -/
def generateGuidance (output : Output) : GuidanceNode → Except Fault Output
  | .dataNode node => node.dataNumbers.foldlM generateNumber output
  | .stringNode node => match node.stringLabel with
    | none => .error .nullDereference
    | some label => .ok (generateString output label.string)

/-! ## The object file -/

/-- All instructions under a label. -/
def generateInstructionLabel (analyzer : SemanticAnalyzer) (unit : TranslationUnit)
    (output : Output) (label : LabelNode) : Except Fault Output :=
  label.instructionList.foldlM (generateInstructionMemory analyzer unit) output

/-- All directives under a label. -/
def generateGuidanceLabel (output : Output) (label : LabelNode) : Except Fault Output :=
  label.guidanceList.foldlM generateGuidance output

/-- The generator, and the two numbers of lines. -/
structure ObjectGenerated where
  generator : CodeGenerator
  instructionLines : Nat
  guidanceLines : Nat

/-- `generate_object_and_external_files`: the instructions, then the data behind them. -/
def generateObjectAndExternalFiles (generator : CodeGenerator) (analyzer : SemanticAnalyzer)
    (unit : TranslationUnit) : Except Fault ObjectGenerated := do
  let instructions ← unit.instructionLabelList.foldlM (generateInstructionLabel analyzer unit)
    (generator, startingPosition)
  let instructionLines := instructions.2 - startingPosition
  let guidance ← unit.guidanceLabelList.foldlM generateGuidanceLabel instructions
  .ok
    { generator := guidance.1
      instructionLines := instructionLines
      guidanceLines := guidance.2 - instructionLines - startingPosition }

end Assembler
