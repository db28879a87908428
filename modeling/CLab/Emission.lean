import CLab.Analysis
import CLab.ObjectImage

/-!
# What the generator writes

Every routine of the second pass appends words to the object file and lines to
the external file, and moves the position along (`Emitted`).  The words of an
instruction are one for each slot of it: the operation, an operand alone, or
two registers that share a word.
-/

namespace Assembler

/-! ## Output -/

/-- A word that is written, and the external symbol it refers to. -/
structure Emission where
  word : Word
  reference : Option CString

/-- The references of words that are written from a position on. -/
def references (position : Nat) : List Emission → List SymbolAddress
  | [] => []
  | emission :: rest =>
      (emission.reference.map (fun name => ⟨name, position⟩)).toList ++
        references (position + 1) rest

/-- The references of two runs of words are those of each, at its place. -/
theorem references_append (position : Nat) (emissions emissions' : List Emission) :
    references position (emissions ++ emissions') =
      references position emissions ++ references (position + emissions.length) emissions' := by
  induction emissions generalizing position with
  | nil => rfl
  | cons emission rest ih =>
      rw [List.cons_append, references, ih, references, List.length_cons, List.append_assoc]
      congr 3
      omega

/-- What was written between two outputs.  The line of a reference gives the
address behind its word. -/
structure Emitted (before after : Output) (emissions : List Emission) : Prop where
  object : after.1.objectFile.data = before.1.objectFile.data ++
    objectText (placeWords before.2 (emissions.map Emission.word))
  external : after.1.externalFile.data = before.1.externalFile.data ++
    symbolText (references (before.2 + 1) emissions)
  position : after.2 = before.2 + emissions.length
  entryFile : after.1.entryFile = before.1.entryFile
  errorHandler : after.1.errorHandler = before.1.errorHandler
  stderr : after.1.stderr = before.1.stderr

/-- Nothing is written by doing nothing. -/
theorem Emitted.refl (output : Output) : Emitted output output [] where
  object := by simp [objectText, Numerals.unlines]
  external := by simp [references, symbolText, Numerals.unlines]
  position := rfl
  entryFile := rfl
  errorHandler := rfl
  stderr := rfl

/-- What two steps write is written one behind the other. -/
theorem Emitted.trans {before middle after : Output} {emissions emissions' : List Emission}
    (h : Emitted before middle emissions) (h' : Emitted middle after emissions') :
    Emitted before after (emissions ++ emissions') where
  object := by
    rw [h'.object, h.object, h.position, List.map_append, placeWords_append, objectText_append,
      List.append_assoc, List.length_map]
  external := by
    rw [h'.external, h.external, h.position, references_append, symbolText_append,
      List.append_assoc, Nat.add_right_comm]
  position := by
    rw [h'.position, h.position, List.length_append]
    omega
  entryFile := h'.entryFile.trans h.entryFile
  errorHandler := h'.errorHandler.trans h.errorHandler
  stderr := h'.stderr.trans h.stderr

/-- A word without a reference. -/
def plain (word : Word) : Emission := ⟨word, none⟩

/-- Plain words refer to nothing. -/
theorem references_plain (position : Nat) (words : List Word) :
    references position (words.map plain) = [] := by
  induction words generalizing position with
  | nil => rfl
  | cons word rest ih =>
      rw [List.map_cons, references, ih]
      rfl

/-- The digits of a number hold no zero byte. -/
theorem cstrText_decimal (width n : Nat) :
    cstrText (formatDecimal width n) = formatDecimal width n :=
  cstrText_of_noNul (fun h => (formatDecimal_digit h).2.2 rfl)

/-- A position, and a blank behind it. -/
theorem cstrText_decimal_blank (width n : Nat) :
    cstrText (formatDecimal width n ++ bytes " ") = formatDecimal width n ++ [blank] := by
  apply cstrText_of_noNul
  intro h
  rcases List.mem_append.mp h with h | h
  · exact (formatDecimal_digit h).2.2 rfl
  · exact absurd h (by decide)

theorem cstrText_octal_newline (width n : Nat) :
    cstrText (formatOctal width n ++ bytes "\n") = formatOctal width n ++ [newline] := by
  apply cstrText_of_noNul
  intro h
  rcases List.mem_append.mp h with h | h
  · exact (formatOctal_digit h).2.2 rfl
  · exact absurd h (by decide)

theorem cstrText_blank_octal (width n : Nat) :
    cstrText (bytes " " ++ formatOctal width n ++ bytes "\n") =
      blank :: formatOctal width n ++ [newline] := by
  have hrest := cstrText_octal_newline width n
  rw [cstrText] at hrest ⊢
  rw [List.append_assoc]
  exact congrArg (List.cons blank) hrest

theorem cstrText_blank_decimal (width n : Nat) :
    cstrText (bytes " " ++ formatDecimal width n ++ bytes "\n") =
      blank :: formatDecimal width n ++ [newline] := by
  apply cstrText_of_noNul
  intro h
  rcases List.mem_append.mp h with h | h
  · rcases List.mem_append.mp h with h | h
    · exact absurd h (by decide)
    · exact (formatDecimal_digit h).2.2 rfl
  · exact absurd h (by decide)

/-- The line of one word. -/
theorem objectText_single (position : Nat) (word : Word) :
    objectText (placeWords position [word]) =
      formatDecimal 4 position ++ blank :: formatOctal 5 word.toNat ++ [newline] := by
  simp [placeWords, objectText, Numerals.unlines, objectLine]

/-- `write_to_object_file` writes one word. -/
theorem writeToObjectFile_emitted (output : Output) (toWrite : BitVec 32) :
    Emitted output (writeToObjectFile output toWrite) [plain (wordOf toWrite)] where
  object := by
    simp only [writeToObjectFile, CodeGenerator.appendObject, stringAppendCstr_data,
      cstrText_decimal_blank, cstrText_octal_newline, toNat_and_mask, List.map_cons, List.map_nil,
      plain, objectText_single]
    simp
  external := by
    simp [writeToObjectFile, CodeGenerator.appendObject, references, plain, symbolText,
      Numerals.unlines]
  position := rfl
  entryFile := rfl
  errorHandler := rfl
  stderr := rfl

/-- A word of the data segment is written the same way. -/
theorem writeGuidanceWord_emitted (output : Output) (toWrite : BitVec 32) :
    Emitted output (writeGuidanceWord output toWrite) [plain (wordOf toWrite)] where
  object := by
    simp only [writeGuidanceWord, CodeGenerator.appendObject, stringAppendCstr_data,
      cstrText_decimal, cstrText_blank_octal, toNat_and_mask, List.map_cons, List.map_nil,
      plain, objectText_single]
    simp
  external := by
    simp [writeGuidanceWord, CodeGenerator.appendObject, references, plain, symbolText,
      Numerals.unlines]
  position := rfl
  entryFile := rfl
  errorHandler := rfl
  stderr := rfl

/-- **A pass over a list** writes what its members write, in their order. -/
theorem foldlM_emitted {α : Type} {f : Output → α → Except Fault Output}
    {emissions : α → List Emission} {xs : List α}
    (hstep : ∀ output, ∀ x ∈ xs, ∃ output', f output x = .ok output' ∧
      Emitted output output' (emissions x)) (output : Output) :
    ∃ output', xs.foldlM f output = .ok output' ∧
      Emitted output output' (xs.flatMap emissions) := by
  induction xs generalizing output with
  | nil => exact ⟨output, rfl, Emitted.refl output⟩
  | cons x xs ih =>
      obtain ⟨middle, hfirst, hemitted⟩ := hstep output x (by simp)
      obtain ⟨output', hrest, hemitted'⟩ := ih (fun o y hy => hstep o y (by simp [hy])) middle
      refine ⟨output', ?_, ?_⟩
      · rw [List.foldlM_cons, hfirst]
        exact hrest
      · rw [List.flatMap_cons]
        exact hemitted.trans hemitted'

/-! ## Instructions -/

/-- What a word of an instruction is for. -/
inductive Slot
  | operation (node : InstructionNode)
  | operand (operand : Token) (isDerefrenced isDst : Bool)
  | registers (source destination : Token)

/-- Two registers share a word. -/
def instructionSlots (node : InstructionNode) : List Slot :=
  match node.firstOperand, node.secondOperand with
  | none, none => [.operation node]
  | some firstOperand, none =>
      [.operation node, .operand firstOperand node.isFirstOperandDerefrenced true]
  | some firstOperand, some secondOperand =>
      if firstOperand.type = .register ∧ secondOperand.type = .register then
        [.operation node, .registers firstOperand secondOperand]
      else
        [.operation node, .operand firstOperand node.isFirstOperandDerefrenced false,
          .operand secondOperand node.isSecondOperandDerefrenced true]
  | none, some _ => []

/-- The position of the label that a cell points to. -/
def TranslationUnit.positionAt (unit : TranslationUnit) (value : IdentifierValue) : Nat :=
  (unit.labelAt value).elim 0 LabelNode.position

/-- The word of an identifier: zero where the name is in no table. -/
def directMemory (analyzer : SemanticAnalyzer) (unit : TranslationUnit) (name : CString) :
    InstructionOperandMemory :=
  match analyzer.lookup name with
  | none => .zero
  | some cell => match cell.type with
    | .label => { are := 2, operandValue := BitVec.ofNat 12 (unit.positionAt cell.value) }
    | .external => { are := 1, operandValue := 0 }

/-- The word of an operand, by its mode. -/
def operandMemory (analyzer : SemanticAnalyzer) (unit : TranslationUnit) (operand : Token)
    (mode : AddressingMode) (isDst : Bool) : InstructionOperandMemory :=
  match mode with
  | .immediate =>
      { are := 4
        operandValue :=
          (intTo2Complement (BitVec.ofInt 32 (atoi operand.string.data))).setWidth 12 }
  | .direct => directMemory analyzer unit operand.string
  | .directRegister | .indirectRegister => handleRegisterMode operand .zero isDst

/-- The first word of an instruction. -/
def operationMemory (node : InstructionNode) : InstructionMemory :=
  let code := (node.operation.map (fun operation => tokenTypeToInstrCode operation.type)).getD 0
  match node.firstOperand, node.secondOperand with
  | some firstOperand, none =>
      { InstructionMemory.zero with
        are := 4
        dst := (determineAddressingMode firstOperand node.isFirstOperandDerefrenced).code
        code := code }
  | some firstOperand, some secondOperand =>
      { are := 4
        dst := (determineAddressingMode secondOperand node.isSecondOperandDerefrenced).code
        src := (determineAddressingMode firstOperand node.isFirstOperandDerefrenced).code
        code := code }
  | none, _ => { InstructionMemory.zero with are := 4, code := code }

/-- The word that goes into a slot. -/
def slotWord (analyzer : SemanticAnalyzer) (unit : TranslationUnit) : Slot → Word
  | .operation node => wordOf (instrMemToBinary (operationMemory node))
  | .operand operand isDerefrenced isDst =>
      wordOf (instrOperandMemToBinary (operandMemory analyzer unit operand
        (determineAddressingMode operand isDerefrenced) isDst))
  | .registers source destination =>
      wordOf (instrOperandMemToBinary
        (handleRegisterMode destination (handleRegisterMode source .zero false) true))

/-- The name of an external is what its operand's word refers to. -/
def operandReference (analyzer : SemanticAnalyzer) (operand : Token) : Option CString :=
  if operand.type = .identifier ∧
      (analyzer.lookup operand.string).map IdentifierCell.type = some .external then
    some operand.string
  else none

/-- The external that the word of a slot refers to. -/
def slotReference (analyzer : SemanticAnalyzer) : Slot → Option CString
  | .operand operand _ _ => operandReference analyzer operand
  | .operation _ | .registers _ _ => none

/-- The word of a slot with its reference. -/
def slotEmission (analyzer : SemanticAnalyzer) (unit : TranslationUnit) (slot : Slot) : Emission :=
  ⟨slotWord analyzer unit slot, slotReference analyzer slot⟩

/-- Every cell of a label in the table points to a label of the unit. -/
def PointersValid (analyzer : SemanticAnalyzer) (unit : TranslationUnit) : Prop :=
  ∀ name cell, analyzer.lookup name = some cell → cell.type = .label →
    unit.labelAt cell.value ≠ none

/-- The direct mode is that of identifiers. -/
theorem determineAddressingMode_direct {operand : Token} {isDerefrenced : Bool} :
    determineAddressingMode operand isDerefrenced = .direct ↔ operand.type = .identifier := by
  unfold determineAddressingMode
  cases operand.type <;> cases isDerefrenced <;> simp

theorem determineAddressingMode_isRegister {operand : Token} {isDerefrenced : Bool} :
    (determineAddressingMode operand isDerefrenced).isRegister = true ↔
      operand.type = .register := by
  unfold determineAddressingMode
  cases operand.type <;> cases isDerefrenced <;> simp [AddressingMode.isRegister]

/-- The line of an external, written in front of its word. -/
def refer (output : Output) : Option CString → Output
  | none => output
  | some name =>
      ({ output.1 with
          externalFile := stringAppendCstr (stringAppend output.1.externalFile name)
            (bytes " " ++ formatDecimal 4 (output.2 + 1) ++ bytes "\n") }, output.2)

/-- A word is written with its reference in front of it. -/
theorem refer_emitted (output : Output) (memory : InstructionOperandMemory)
    (reference : Option CString) :
    Emitted output (generateOperandInstruction (refer output reference) memory)
      [⟨wordOf (instrOperandMemToBinary memory), reference⟩] := by
  cases reference with
  | none => exact writeToObjectFile_emitted output _
  | some name =>
      have hword := writeToObjectFile_emitted (refer output (some name))
        (instrOperandMemToBinary memory)
      refine ⟨hword.object, ?_, hword.position, hword.entryFile, hword.errorHandler,
        hword.stderr⟩
      rw [generateOperandInstruction, hword.external]
      simp only [refer, stringAppendCstr_data, stringAppend_data, cstrText_blank_decimal]
      simp [references, plain, symbolText, symbolLine, Numerals.unlines]

section Instructions

variable {analyzer : SemanticAnalyzer} {unit : TranslationUnit}
  (hvalid : PointersValid analyzer unit)

include hvalid

/-- A name gives the word of its cell. -/
theorem handleDirectMode_run (output : Output) {operand : Token}
    (hdirect : operand.type = .identifier) :
    handleDirectMode analyzer unit output operand .zero =
      .ok (refer output (operandReference analyzer operand),
        directMemory analyzer unit operand.string) := by
  rw [handleDirectMode, operandReference, directMemory]
  cases hlookup : analyzer.lookup operand.string with
  | none => simp [refer]
  | some cell =>
      cases htype : cell.type with
      | external => simp [htype, hdirect, refer]
      | label =>
          obtain ⟨node, hnode⟩ := Option.ne_none_iff_exists'.mp
            (hvalid operand.string cell hlookup htype)
          simp [htype, hnode, refer, TranslationUnit.positionAt]

/-- An operand gives the word of its mode. -/
theorem handleOperand_run (output : Output) (operand : Token) (isDerefrenced isDst : Bool) :
    handleOperand analyzer unit output operand (determineAddressingMode operand isDerefrenced)
        .zero isDst =
      .ok (refer output (operandReference analyzer operand),
        operandMemory analyzer unit operand (determineAddressingMode operand isDerefrenced)
          isDst) := by
  by_cases hdirect : operand.type = .identifier
  · rw [determineAddressingMode_direct.mpr hdirect]
    exact handleDirectMode_run hvalid output hdirect
  · have hreference : operandReference analyzer operand = none := by
      rw [operandReference, if_neg (fun h => hdirect h.1)]
    have hmode : determineAddressingMode operand isDerefrenced ≠ .direct :=
      mt determineAddressingMode_direct.mp hdirect
    rw [hreference]
    cases hcase : determineAddressingMode operand isDerefrenced with
    | direct => exact absurd hcase hmode
    | immediate | directRegister | indirectRegister => rfl

/-- An operand writes the word of its slot. -/
theorem generateOperand_emitted (output : Output) (operand : Token)
    (isDerefrenced isDst : Bool) :
    ∃ output', generateOperand analyzer unit output operand
        (determineAddressingMode operand isDerefrenced) isDst = .ok output' ∧
      Emitted output output'
        [slotEmission analyzer unit (.operand operand isDerefrenced isDst)] := by
  refine ⟨_, ?_, refer_emitted output _ _⟩
  simp only [generateOperand, handleOperand_run hvalid, bind, Except.bind, slotReference]

/-- **An instruction** with an operation writes a word for each of its slots. -/
theorem generateInstructionMemory_emitted {node : InstructionNode}
    (hoperation : node.operation ≠ none) (output : Output) :
    ∃ output', generateInstructionMemory analyzer unit output node = .ok output' ∧
      Emitted output output' ((instructionSlots node).map (slotEmission analyzer unit)) := by
  obtain ⟨operation, hoperation⟩ := Option.ne_none_iff_exists'.mp hoperation
  have hhead : ∀ memory : InstructionMemory, operationMemory node = memory →
      Emitted output (generateInstruction output memory)
        [slotEmission analyzer unit (.operation node)] := by
    intro memory hmemory
    have hword := writeToObjectFile_emitted output (instrMemToBinary memory)
    rwa [← hmemory] at hword ⊢
  unfold generateInstructionMemory instructionSlots
  unfold operationMemory at hhead
  cases hfirst : node.firstOperand with
  | none =>
      cases hsecond : node.secondOperand with
      | none =>
          rw [hoperation]
          exact ⟨_, rfl, hhead _ (by simp [hfirst, hoperation])⟩
      | some secondOperand => exact ⟨output, rfl, Emitted.refl output⟩
  | some firstOperand =>
      cases hsecond : node.secondOperand with
      | none =>
          rw [hoperation]
          obtain ⟨output', hrun, hemitted⟩ := generateOperand_emitted hvalid
            (generateInstruction output
              { InstructionMemory.zero with
                are := 4
                dst := (determineAddressingMode firstOperand node.isFirstOperandDerefrenced).code
                code := tokenTypeToInstrCode operation.type })
            firstOperand node.isFirstOperandDerefrenced true
          exact ⟨output', hrun,
            (hhead _ (by simp [hfirst, hsecond, hoperation])).trans hemitted⟩
      | some secondOperand =>
          rw [hoperation]
          have hword := hhead
            { are := 4
              dst := (determineAddressingMode secondOperand
                node.isSecondOperandDerefrenced).code
              src := (determineAddressingMode firstOperand node.isFirstOperandDerefrenced).code
              code := tokenTypeToInstrCode operation.type }
            (by simp [hfirst, hsecond, hoperation])
          simp only [Bool.and_eq_true, determineAddressingMode_isRegister]
          by_cases hboth : firstOperand.type = .register ∧ secondOperand.type = .register
          · rw [if_pos hboth, if_pos hboth]
            exact ⟨_, rfl, hword.trans (refer_emitted _ _ none)⟩
          · rw [if_neg hboth, if_neg hboth]
            obtain ⟨middle, hfirstRun, hfirstEmitted⟩ := generateOperand_emitted hvalid
              (generateInstruction output _) firstOperand node.isFirstOperandDerefrenced false
            obtain ⟨output', hsecondRun, hsecondEmitted⟩ := generateOperand_emitted hvalid
              middle secondOperand node.isSecondOperandDerefrenced true
            refine ⟨output', ?_, hword.trans (hfirstEmitted.trans hsecondEmitted)⟩
            simp only [hfirstRun, bind, Except.bind]
            exact hsecondRun

/-- The instructions under a label write the words of their slots. -/
theorem generateInstructionLabel_emitted {label : LabelNode}
    (hoperations : ∀ node ∈ label.instructionList, node.operation ≠ none) (output : Output) :
    ∃ output', generateInstructionLabel analyzer unit output label = .ok output' ∧
      Emitted output output' ((label.instructionList.flatMap instructionSlots).map
        (slotEmission analyzer unit)) := by
  rw [List.map_flatMap]
  exact foldlM_emitted
    (fun output node hnode => generateInstructionMemory_emitted hvalid (hoperations node hnode)
      output) output

end Instructions

/-! ## Directives -/

/-- The fifteen bits of a value. -/
def valueWord (value : Int) : Word := wordOf (BitVec.ofInt 32 value)

/-- The values that a directive puts in the data segment: its numbers, or its
characters and a zero. -/
def guidanceValues : GuidanceNode → List Int
  | .dataNode node =>
      node.dataNumbers.map (fun number => number.elim 0 (fun token => atoi token.string.data))
  | .stringNode node => match node.stringLabel with
    | none => []
    | some label =>
        (List.range' 1 (stringLength label.string - 1 - 1)).map
          (fun index => charToInt (stringCharAt label.string index)) ++ [0]

/-- No pointer of a directive is `NULL`. -/
def GuidanceComplete : GuidanceNode → Prop
  | .dataNode node => none ∉ node.dataNumbers
  | .stringNode node => node.stringLabel ≠ none

/-- A number that is written is its low fifteen bits. -/
theorem writeValue_emitted (output : Output) (value : Int) :
    Emitted output (writeGuidanceWord output (intTo2Complement (BitVec.ofInt 32 value)))
      [plain (valueWord value)] := by
  have hword := writeGuidanceWord_emitted output (intTo2Complement (BitVec.ofInt 32 value))
  rwa [wordOf_intTo2Complement] at hword

/-- The characters of a string are written one by one. -/
theorem generateCharacters_emitted (string : CString) (indices : List Nat) (output : Output) :
    Emitted output (indices.foldl (generateCharacter string) output)
      (indices.map (fun index => plain (valueWord (charToInt (stringCharAt string index))))) := by
  induction indices generalizing output with
  | nil => exact Emitted.refl output
  | cons index rest ih =>
      rw [List.foldl_cons, List.map_cons]
      exact (writeValue_emitted output _).trans (ih _)

/-- A directive writes its values. -/
theorem generateGuidance_emitted {node : GuidanceNode} (h : GuidanceComplete node)
    (output : Output) :
    ∃ output', generateGuidance output node = .ok output' ∧
      Emitted output output'
        ((guidanceValues node).map (fun value => plain (valueWord value))) := by
  cases node with
  | dataNode node =>
      rw [guidanceValues, List.map_map, List.map_eq_flatMap]
      refine foldlM_emitted ?_ output
      intro output number hnumber
      cases number with
      | none => exact absurd hnumber h
      | some token => exact ⟨_, rfl, writeValue_emitted output _⟩
  | stringNode node =>
      obtain ⟨label, hlabel⟩ := Option.ne_none_iff_exists'.mp h
      rw [generateGuidance, guidanceValues, hlabel]
      refine ⟨_, rfl, ?_⟩
      rw [List.map_append, List.map_map]
      exact (generateCharacters_emitted label.string _ output).trans
        (writeGuidanceWord_emitted _ 0)

/-- The directives under a label write their values in order. -/
theorem generateGuidanceLabel_emitted {label : LabelNode}
    (hcomplete : ∀ node ∈ label.guidanceList, GuidanceComplete node) (output : Output) :
    ∃ output', generateGuidanceLabel output label = .ok output' ∧
      Emitted output output' ((label.guidanceList.flatMap guidanceValues).map
        (fun value => plain (valueWord value))) := by
  rw [List.map_flatMap]
  exact foldlM_emitted
    (fun output node hnode => generateGuidance_emitted (hcomplete node hnode) output) output

end Assembler
