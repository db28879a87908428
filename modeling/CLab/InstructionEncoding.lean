import CLab.Layout

/-!
# Instructions read back from their words

The first word of an instruction gives back its operation and its two modes, a
word behind it the value or the register of an operand.  Two registers share a
word: writing the destination clears the number of the source, so an
instruction is recovered exactly if that number is zero (`KeepsSource`).
-/

namespace Assembler

/-! ## Nodes of the parser -/

section Built

variable {source : List Token} {unit : TranslationUnit} {node : InstructionNode}

/-- Also an instruction with an error keeps what was read of it. -/
theorem InstructionFormed.failed (h : InstructionFormed source node) :
    InstructionFormed source { node with hasParserError := true } :=
  ⟨h.operation, h.first, h.second, h.ordered⟩

/-- An operand of the parser is a token of the source. -/
theorem parseOperand_formed (hsource : unit.tokens ⊆ source) :
    (parseOperand unit).1.tokens ⊆ source ∧
      ((parseOperand unit).2.2 = false → ∃ operand,
        (parseOperand unit).2.1.operand = some operand ∧
          OperandFormed source operand (parseOperand unit).2.1.isDereferenced) := by
  rcases parseOperand_cases unit with ⟨herr, hfailed | ⟨-, hsame⟩⟩ | hread
  · exact ⟨List.Subset.trans hfailed.tokens.subset hsource, by simp [herr]⟩
  · exact ⟨by rwa [hsame], by simp [herr]⟩
  · obtain ⟨operand, deref, rest, hoperand, hparse⟩ := hread
    rw [hparse]
    exact ⟨List.Subset.trans hoperand.behind.suffix.subset hsource,
      fun _ => ⟨operand, rfl, hoperand.formed hsource⟩⟩

/-- The second operand is well formed. -/
theorem parseSecondOperand_formed (hsource : unit.tokens ⊆ source)
    (hnode : InstructionFormed source node) (hfirst : node.firstOperand ≠ none) :
    (parseSecondOperand unit node).1.tokens ⊆ source ∧
      InstructionFormed source (parseSecondOperand unit node).2 := by
  obtain ⟨htokens, hread⟩ := parseOperand_formed hsource
  rw [parseSecondOperand]
  cases herr : (parseOperand unit).2.2 with
  | true =>
      simp only [herr, if_true]
      exact ⟨htokens, hnode.failed⟩
  | false =>
      obtain ⟨operand, hoperand, hformed⟩ := hread herr
      have hsecond : InstructionFormed source
          { node with
            secondOperand := (parseOperand unit).2.1.operand
            isSecondOperandDerefrenced := (parseOperand unit).2.1.isDereferenced } := by
        refine ⟨hnode.operation, hnode.first, ?_, fun _ => hfirst⟩
        intro t ht
        obtain rfl := Option.some.inj (hoperand.symm.trans ht)
        exact hformed
      simp only [herr, Bool.false_eq_true, if_false]
      split_ifs
      · exact ⟨htokens, hsecond⟩
      · exact ⟨List.Subset.trans (endOfLine_suffix _).subset htokens, hsecond.failed⟩

theorem parseFirstOperand_formed (hsource : unit.tokens ⊆ source)
    (hnode : InstructionFormed source node) :
    (parseFirstOperand unit node).1.tokens ⊆ source ∧
      InstructionFormed source (parseFirstOperand unit node).2 := by
  obtain ⟨htokens, hread⟩ := parseOperand_formed hsource
  rw [parseFirstOperand]
  cases herr : (parseOperand unit).2.2 with
  | true =>
      simp only [herr, if_true]
      exact ⟨htokens, hnode.failed⟩
  | false =>
      obtain ⟨operand, hoperand, hformed⟩ := hread herr
      have hfirst : InstructionFormed source
          { node with
            firstOperand := (parseOperand unit).2.1.operand
            isFirstOperandDerefrenced := (parseOperand unit).2.1.isDereferenced } := by
        refine ⟨hnode.operation, ?_, hnode.second, fun _ => by simp [hoperand]⟩
        intro t ht
        obtain rfl := Option.some.inj (hoperand.symm.trans ht)
        exact hformed
      simp only [herr, Bool.false_eq_true, if_false]
      cases hrest : (parseOperand unit).1.tokens with
      | nil => exact ⟨htokens, hfirst⟩
      | cons next rest =>
          simp only
          split_ifs
          · exact ⟨htokens, hfirst⟩
          · exact ⟨List.Subset.trans (endOfLine_suffix _).subset htokens, hfirst.failed⟩
          · refine parseSecondOperand_formed ?_ hfirst (by simp [hoperand])
            rw [hrest] at htokens
            exact fun _ ht => htokens (List.mem_cons_of_mem _ ht)

/-- Whatever follows its operation, an instruction is well formed. -/
theorem parserParseInstruction_formed {operation : Token} {rest : List Token}
    (htokens : unit.tokens = operation :: rest) (hop : isInstructionToken operation.type = true)
    (hsource : unit.tokens ⊆ source) :
    (parserParseInstruction unit).1.tokens ⊆ source ∧
      InstructionFormed source (parserParseInstruction unit).2 := by
  rw [htokens] at hsource
  have hrest : rest ⊆ source := fun _ ht => hsource (List.mem_cons_of_mem _ ht)
  have hnode : InstructionFormed source
      { InstructionNode.zero with operation := some operation } :=
    ⟨⟨operation, hsource (by simp), rfl, hop⟩, by simp [InstructionNode.zero],
      by simp [InstructionNode.zero], by simp [InstructionNode.zero]⟩
  rw [parserParseInstruction, htokens]
  simp only [hop, Bool.true_eq_false, if_false]
  split_ifs
  · exact ⟨hrest, hnode⟩
  · have htokens' : (unit.setTokens rest).tokens ⊆ source := hrest
    exact parseFirstOperand_formed htokens' hnode

/-- Between two rounds of the list. -/
structure ListFormed (source : List Token) (s : TranslationUnit × List InstructionNode) :
    Prop where
  tokens : s.1.tokens ⊆ source
  nodes : ∀ node ∈ s.2, InstructionFormed source node

/-- Every round adds a well-formed instruction. -/
theorem instructionListRound_formed {s : TranslationUnit × List InstructionNode}
    (hgo : listGoesOn isInstructionToken s.1 = true) (h : ListFormed source s) :
    ListFormed source (instructionListRound s) := by
  have hsource := h.tokens
  rw [listGoesOn] at hgo
  rw [instructionListRound]
  cases htokens : s.1.tokens with
  | nil => simp [htokens] at hgo
  | cons token rest =>
      simp only [htokens, Bool.or_eq_true, decide_eq_true_eq] at hgo
      simp only
      split_ifs with heol
      · rw [htokens] at hsource
        exact ⟨fun _ ht => hsource (List.mem_cons_of_mem _ ht), h.nodes⟩
      · obtain ⟨hrest, hnode⟩ :=
          parserParseInstruction_formed htokens (hgo.resolve_left heol) hsource
        refine ⟨hrest, ?_⟩
        intro node hmem
        rcases List.mem_append.mp hmem with hmem | hmem
        · exact h.nodes node hmem
        · obtain rfl := List.mem_singleton.mp hmem
          exact hnode

/-- **Every instruction that the parser builds is well formed**, with an error
or without. -/
theorem parserParseInstructionList_formed (hsource : unit.tokens ⊆ source) :
    ∀ node ∈ (parserParseInstructionList unit).2, InstructionFormed source node := by
  have hloop : ListFormed source (parserParseInstructionList unit) :=
    While.run_invariant (ListFormed source)
      (fun _ hgo h => instructionListRound_formed hgo h) _ ⟨hsource, by simp⟩
  exact hloop.nodes

end Built

/-! ## Decoding -/

/-- The operations in the order of their codes. -/
def instructionCodes : List TokenType :=
  [.mov, .cmp, .add, .sub, .lea, .clr, .not, .inc, .dec, .jmp, .bne, .red, .prn, .jsr, .rts,
    .stop]

/-- What can be read of an operand: the number behind the sign, or the number
of the register. -/
inductive OperandContent
  | immediate (value : Int)
  | direct
  | indirectRegister (number : Nat)
  | directRegister (number : Nat)
deriving DecidableEq

/-- A single operand is the destination. -/
structure InstructionContent where
  operation : TokenType
  source : Option OperandContent
  destination : Option OperandContent
deriving DecidableEq

/-- One bit for each mode, and none for an operand that is absent. -/
def decodeMode (bits : BitVec 4) : Option (Option AddressingMode) :=
  if bits = 0 then some none
  else if bits = 1 then some (some .immediate)
  else if bits = 2 then some (some .direct)
  else if bits = 4 then some (some .indirectRegister)
  else if bits = 8 then some (some .directRegister)
  else none

/-- What a word says of an operand of a mode. -/
def decodeOperand (mode : AddressingMode) (isDst : Bool) (word : Word) : OperandContent :=
  let number := (if isDst then word.destinationRegister else word.sourceRegister).toNat
  match mode with
  | .immediate => .immediate word.operand.toInt
  | .direct => .direct
  | .indirectRegister => .indirectRegister number
  | .directRegister => .directRegister number

/-- The two operands in the words behind the first: registers are read from
one word. -/
def decodeOperands (source destination : Option AddressingMode) (words : List Word) :
    Option (Option OperandContent × Option OperandContent) :=
  match source, destination, words with
  | none, none, [] => some (none, none)
  | none, some mode, [word] => some (none, some (decodeOperand mode true word))
  | some mode, some mode', [word] =>
      if mode.isRegister && mode'.isRegister then
        some (some (decodeOperand mode false word), some (decodeOperand mode' true word))
      else none
  | some mode, some mode', [word, word'] =>
      if mode.isRegister && mode'.isRegister then none
      else some (some (decodeOperand mode false word), some (decodeOperand mode' true word'))
  | _, _, _ => none

/-- What the words of an instruction say. -/
def decodeInstruction : List Word → Option InstructionContent
  | [] => none
  | head :: words =>
    if head.are ≠ 4 then none
    else do
      let operation ← instructionCodes[head.opcode.toNat]?
      let source ← decodeMode head.sourceMode
      let destination ← decodeMode head.destinationMode
      let operands ← decodeOperands source destination words
      some ⟨operation, operands.1, operands.2⟩

/-- The digit behind the `r`. -/
def registerNumber (operand : Token) : Nat :=
  (operand.string.data.getD 1 0).toNat - '0'.toNat

/-- What the source says of an operand. -/
def operandContent (operand : Token) (isDerefrenced : Bool) : OperandContent :=
  match operand.type with
  | .number => .immediate (atoi operand.string.data)
  | .register =>
      if isDerefrenced then .indirectRegister (registerNumber operand)
      else .directRegister (registerNumber operand)
  | _ => .direct

/-- What a node says; there is no second operand without a first. -/
def InstructionNode.content (node : InstructionNode) : Option InstructionContent := do
  let operation ← node.operation
  let first := node.firstOperand.map (operandContent · node.isFirstOperandDerefrenced)
  let second := node.secondOperand.map (operandContent · node.isSecondOperandDerefrenced)
  match first, second with
  | none, none => some ⟨operation.type, none, none⟩
  | some destination, none => some ⟨operation.type, none, some destination⟩
  | some source, some destination => some ⟨operation.type, some source, some destination⟩
  | none, some _ => none

/-- The words say what the node says. -/
def Recovers (node : InstructionNode) (words : List Word) : Prop :=
  ∃ content, node.content = some content ∧ decodeInstruction words = some content

/-- What was written between two outputs says what the node says. -/
def RecoveredFrom (before after : Output) (node : InstructionNode) : Prop :=
  ∃ text image, after.1.objectFile.data = before.1.objectFile.data ++ text ∧
    readObject text = some image ∧ Recovers node (image.map PlacedWord.word)

/-- A source register that shares its word with the destination is `r0`. -/
def KeepsSource (node : InstructionNode) : Prop :=
  ∀ source ∈ node.firstOperand, ∀ destination ∈ node.secondOperand,
    source.type = .register ∧ destination.type = .register → registerNumber source = 0

instance (node : InstructionNode) : Decidable (KeepsSource node) :=
  inferInstanceAs (Decidable (∀ source ∈ node.firstOperand, ∀ destination ∈ node.secondOperand,
    source.type = .register ∧ destination.type = .register → registerNumber source = 0))

/-! ## Fields -/

/-- The bit of a mode is read back. -/
theorem decodeMode_code (mode : AddressingMode) : decodeMode mode.code = some (some mode) := by
  cases mode <;> rfl

/-- The code of an operation is its place among the operations. -/
theorem instructionCodes_tokenTypeToInstrCode {type : TokenType}
    (h : isInstructionToken type = true) :
    instructionCodes[(tokenTypeToInstrCode type).toNat]? = some type := by
  cases type <;> first | exact absurd h (by decide) | rfl

/-- The digit of a register is the number that `atoi` reads. -/
theorem atoi_registerNumber {operand : Token} (hlexed : LexedToken operand)
    (htype : operand.type = .register) :
    atoi (operand.string.data.drop 1) = registerNumber operand ∧ registerNumber operand < 8 := by
  obtain ⟨n, hn, htext⟩ := hlexed.register htype
  rw [registerNumber, htext]
  interval_cases n <;> decide

/-- Storing the destination and then zero in the source keeps the destination. -/
theorem setRdst_setRsrc (rdst : BitVec 3) (memory : InstructionOperandMemory) :
    ((memory.setRdst rdst).setRsrc 0).operandValue.extractLsb' 0 3 = rdst ∧
      ((memory.setRdst rdst).setRsrc 0).operandValue.extractLsb' 3 3 = 0 := by
  constructor <;> apply BitVec.eq_of_getLsbD_eq <;> intro i hi <;>
    simp only [InstructionOperandMemory.setRdst, InstructionOperandMemory.setRsrc] <;>
    interval_cases i <;> simp

theorem setRsrc_setRdst (rsrc : BitVec 3) (memory : InstructionOperandMemory) :
    ((memory.setRsrc rsrc).setRdst 0).operandValue.extractLsb' 3 3 = rsrc := by
  apply BitVec.eq_of_getLsbD_eq
  intro i hi
  simp only [InstructionOperandMemory.setRdst, InstructionOperandMemory.setRsrc]
  interval_cases i <;> simp

section Register

variable {operand : Token} (hlexed : LexedToken operand) (htype : operand.type = .register)
  (memory : InstructionOperandMemory)

include hlexed htype

/-- The register in the word is that of the operand. -/
theorem toNat_registerNumber :
    (BitVec.ofInt 3 (atoi (operand.string.data.drop 1))).toNat = registerNumber operand := by
  obtain ⟨hatoi, hlt⟩ := atoi_registerNumber hlexed htype
  rw [hatoi, BitVec.ofInt_natCast, BitVec.toNat_ofNat, Nat.mod_eq_of_lt hlt]

/-- A destination is found in its field. -/
theorem handleRegisterMode_destination :
    (wordOf (instrOperandMemToBinary
      (handleRegisterMode operand memory true))).destinationRegister.toNat =
      registerNumber operand := by
  rw [destinationRegister_eq, instrOperandMemToBinary_operand, ← toNat_registerNumber hlexed htype]
  exact congrArg BitVec.toNat (setRdst_setRsrc _ _).1

theorem handleRegisterMode_source :
    (wordOf (instrOperandMemToBinary
      (handleRegisterMode operand memory false))).sourceRegister.toNat =
      registerNumber operand := by
  rw [sourceRegister_eq, instrOperandMemToBinary_operand, ← toNat_registerNumber hlexed htype]
  exact congrArg BitVec.toNat (setRsrc_setRdst _ _)

end Register

/-- The number of a destination clears that of the source. -/
theorem handleRegisterMode_clears (operand : Token) (memory : InstructionOperandMemory) :
    (wordOf (instrOperandMemToBinary
      (handleRegisterMode operand memory true))).sourceRegister = 0 := by
  rw [sourceRegister_eq, instrOperandMemToBinary_operand]
  exact (setRdst_setRsrc _ _).2

/-- The low twelve bits of a value are what is stored of it. -/
theorem setWidth_intTo2Complement (value : Int) :
    (intTo2Complement (BitVec.ofInt 32 value)).setWidth 12 = BitVec.ofInt 12 value := by
  have hlow : (intTo2Complement (BitVec.ofInt 32 value)).setWidth 12 =
      (wordOf (intTo2Complement (BitVec.ofInt 32 value))).setWidth 12 := by
    rw [wordOf, BitVec.setWidth_setWidth_of_le _ (by decide)]
  rw [hlow, wordOf_intTo2Complement, wordOf, BitVec.setWidth_setWidth_of_le _ (by decide),
    setWidth_ofInt (by decide)]

/-- A value of twelve bits is read back with its sign. -/
theorem immediate_toInt {value : Int} (hmin : min12BitSignedInt ≤ value)
    (hmax : value ≤ max12BitSignedInt) :
    ((intTo2Complement (BitVec.ofInt 32 value)).setWidth 12).toInt = value := by
  rw [setWidth_intTo2Complement]
  exact BitVec.toInt_ofInt_eq_self (by decide) hmin (Int.lt_of_le_sub_one hmax)

/-! ## Operands -/

section Words

variable {analyzer : SemanticAnalyzer} {unit : TranslationUnit} {known : CString → Prop}

/-- A register has one of two modes, by its star. -/
theorem determineAddressingMode_register {operand : Token} {isDerefrenced : Bool}
    (htype : operand.type = .register) : determineAddressingMode operand isDerefrenced =
      if isDerefrenced then .indirectRegister else .directRegister := by
  rw [determineAddressingMode, htype]

/-- **An operand alone in its word** is read as it was written. -/
theorem decodeOperand_slotWord {operand : Token} {isDerefrenced : Bool}
    (hlexed : LexedToken operand) (haccepted : OperandAccepted known operand isDerefrenced)
    (isDst : Bool) :
    decodeOperand (determineAddressingMode operand isDerefrenced) isDst
        (slotWord analyzer unit (.operand operand isDerefrenced isDst)) =
      operandContent operand isDerefrenced := by
  rcases haccepted.type with hnumber | hidentifier | hregister
  · obtain ⟨-, hmin, hmax⟩ := haccepted.number hnumber
    have hmode : determineAddressingMode operand isDerefrenced = .immediate := by
      rw [determineAddressingMode, hnumber]
    rw [slotWord, hmode, decodeOperand, operandContent, hnumber]
    simp only [instrOperandMemToBinary_operand, operandMemory, immediate_toInt hmin hmax]
  · rw [determineAddressingMode_direct.mpr hidentifier, operandContent, hidentifier]
    rfl
  · have hsource := handleRegisterMode_source hlexed hregister .zero
    have hdestination := handleRegisterMode_destination hlexed hregister .zero
    rw [slotWord, determineAddressingMode_register hregister, operandContent, hregister]
    cases isDerefrenced <;> cases isDst <;>
      simp [decodeOperand, operandMemory, hsource, hdestination]

section Shared

variable {source destination : Token} (hsource : source.type = .register)
  (hdestination : destination.type = .register)

include hdestination in
/-- The destination of a shared word is read as it was written. -/
theorem decodeOperand_shared (hlexed : LexedToken destination) (isDerefrenced : Bool) :
    decodeOperand (determineAddressingMode destination isDerefrenced) true
        (slotWord analyzer unit (.registers source destination)) =
      operandContent destination isDerefrenced := by
  have hnumber := handleRegisterMode_destination hlexed hdestination
    (handleRegisterMode source .zero false)
  rw [slotWord, determineAddressingMode_register hdestination, operandContent, hdestination]
  cases isDerefrenced <;> simp [decodeOperand, hnumber]

include hsource in
/-- The source of a shared word is read as `r0`. -/
theorem decodeOperand_shared_iff (isDerefrenced : Bool) :
    decodeOperand (determineAddressingMode source isDerefrenced) false
        (slotWord analyzer unit (.registers source destination)) =
      operandContent source isDerefrenced ↔ registerNumber source = 0 := by
  have hcleared := handleRegisterMode_clears destination (handleRegisterMode source .zero false)
  rw [slotWord, determineAddressingMode_register hsource, operandContent, hsource]
  cases isDerefrenced <;> simp [decodeOperand, hcleared, eq_comm]

end Shared

/-! ## Instructions -/

/-- The mode of the source operand, if there is one. -/
def InstructionNode.sourceMode (node : InstructionNode) : Option AddressingMode :=
  match node.firstOperand, node.secondOperand with
  | some source, some _ => some (determineAddressingMode source node.isFirstOperandDerefrenced)
  | _, _ => none

/-- The mode of the destination, if there is one. -/
def InstructionNode.destinationMode (node : InstructionNode) : Option AddressingMode :=
  match node.firstOperand, node.secondOperand with
  | some destination, none =>
      some (determineAddressingMode destination node.isFirstOperandDerefrenced)
  | some _, some destination =>
      some (determineAddressingMode destination node.isSecondOperandDerefrenced)
  | none, _ => none

/-- **The first word** gives back the operation and the two modes. -/
theorem decodeInstruction_operation {node : InstructionNode} {operation : Token}
    (hoperation : node.operation = some operation)
    (htype : isInstructionToken operation.type = true) (words : List Word) :
    decodeInstruction (slotWord analyzer unit (.operation node) :: words) =
      (decodeOperands node.sourceMode node.destinationMode words).map
        (fun operands => ⟨operation.type, operands.1, operands.2⟩) := by
  have hare : (operationMemory node).are = 4 := by
    rw [operationMemory]
    cases node.firstOperand <;> cases node.secondOperand <;> rfl
  have hcode : (operationMemory node).code = tokenTypeToInstrCode operation.type := by
    rw [operationMemory, hoperation]
    cases node.firstOperand <;> cases node.secondOperand <;> rfl
  have hsource : decodeMode (operationMemory node).src = some node.sourceMode := by
    rw [operationMemory, InstructionNode.sourceMode]
    cases node.firstOperand <;> cases node.secondOperand <;>
      first | rfl | exact decodeMode_code _
  have hdestination : decodeMode (operationMemory node).dst = some node.destinationMode := by
    rw [operationMemory, InstructionNode.destinationMode]
    cases node.firstOperand <;> cases node.secondOperand <;>
      first | rfl | exact decodeMode_code _
  simp only [slotWord, decodeInstruction, instrMemToBinary_are, instrMemToBinary_code,
    instrMemToBinary_src, instrMemToBinary_dst, hare, hcode, hsource, hdestination,
    instructionCodes_tokenTypeToInstrCode htype, ne_eq, not_true_eq_false, if_false]
  cases hoperands : decodeOperands node.sourceMode node.destinationMode words <;> simp [hoperands]

/-- **The words of an instruction** say what the node says exactly if no source
register is lost. -/
theorem recovers_slots_iff {source : List Token} {node : InstructionNode}
    (hlexed : ∀ t ∈ source, LexedToken t) (hformed : InstructionFormed source node)
    (haccepted : InstructionAccepted known node) :
    Recovers node ((instructionSlots node).map (slotWord analyzer unit)) ↔ KeepsSource node := by
  obtain ⟨operation, -, hoperation, htype⟩ := hformed.operation
  have hhead : ∀ words, decodeInstruction (slotWord analyzer unit (.operation node) :: words) =
      (decodeOperands node.sourceMode node.destinationMode words).map
        (fun operands => ⟨operation.type, operands.1, operands.2⟩) :=
    decodeInstruction_operation hoperation htype
  rw [Recovers, KeepsSource, instructionSlots, InstructionNode.content, hoperation]
  rw [InstructionNode.sourceMode, InstructionNode.destinationMode] at hhead
  cases hfirst : node.firstOperand with
  | none =>
      cases hsecond : node.secondOperand with
      | none =>
          simp only [hfirst, hsecond] at hhead ⊢
          simp [hhead, decodeOperands]
      | some second => exact absurd hfirst (hformed.ordered (by simp [hsecond]))
  | some first =>
      have hfirstLexed := hlexed first (hformed.first first hfirst).mem
      have hfirstAccepted := haccepted.first first hfirst
      cases hsecond : node.secondOperand with
      | none =>
          simp only [hfirst, hsecond] at hhead ⊢
          simp [hhead, decodeOperands, decodeOperand_slotWord hfirstLexed hfirstAccepted]
      | some second =>
          have hsecondLexed := hlexed second (hformed.second second hsecond).mem
          have hsecondAccepted := haccepted.second second hsecond
          simp only [hfirst, hsecond] at hhead ⊢
          by_cases hboth : first.type = .register ∧ second.type = .register
          · simp [hboth, hhead, decodeOperands, determineAddressingMode_isRegister,
              decodeOperand_shared hboth.2 hsecondLexed, decodeOperand_shared_iff hboth.1]
          · simp [hboth, hhead, decodeOperands, determineAddressingMode_isRegister,
              decodeOperand_slotWord hfirstLexed hfirstAccepted,
              decodeOperand_slotWord hsecondLexed hsecondAccepted]
            exact fun hsource hdestination => absurd ⟨hsource, hdestination⟩ hboth

/-- The words that were written are those of the slots. -/
theorem recoveredFrom_iff {before after : Output} {node : InstructionNode}
    (h : Emitted before after ((instructionSlots node).map (slotEmission analyzer unit))) :
    RecoveredFrom before after node ↔
      Recovers node ((instructionSlots node).map (slotWord analyzer unit)) := by
  have hwords : ((instructionSlots node).map (slotEmission analyzer unit)).map Emission.word =
      (instructionSlots node).map (slotWord analyzer unit) := by
    rw [List.map_map]
    rfl
  have hobject := h.object
  rw [hwords] at hobject
  constructor
  · intro hfacts
    obtain ⟨text, image, htext, himage, hrecovers⟩ := hfacts
    obtain rfl := List.append_cancel_left (htext.symm.trans hobject)
    rw [readObject_objectText] at himage
    obtain rfl := Option.some.inj himage
    rwa [placeWords_word] at hrecovers
  · intro hrecovers
    refine ⟨_, _, hobject, readObject_objectText _, ?_⟩
    rwa [placeWords_word]

end Words

section Parsed

variable {lexer : Lexer} {start : TranslationUnit} {node : InstructionNode}
  (htokens : start.tokens <:+ lexer.tokenList)
  (hnode : node ∈ (parserParseInstructionList start).2)

include htokens hnode

/-- Every instruction of the parser has an operation. -/
theorem parsedInstruction_operation : node.operation ≠ none := by
  obtain ⟨operation, -, hoperation, -⟩ :=
    (parserParseInstructionList_formed (List.IsSuffix.subset htokens) node hnode).operation
  rw [hoperation]
  exact Option.some_ne_none _

/-- An instruction of the parser that the analyzer accepts. -/
theorem parsedInstruction_recovers_iff (hlexer : LexerOutput lexer)
    {analyzer analyzer' : SemanticAnalyzer} {unit : TranslationUnit}
    (hclean : (semanticAnalyzerAnalyzeInstruction analyzer node).errors = analyzer.errors) :
    Recovers node ((instructionSlots node).map (slotWord analyzer' unit)) ↔ KeepsSource node := by
  have hformed := parserParseInstructionList_formed (List.IsSuffix.subset htokens) node hnode
  exact recovers_slots_iff hlexer.lexed hformed (analyzeInstruction_clean hformed hclean)

end Parsed

/-- The instructions behind the label of a text. -/
def sampleInstructions (text : String) : List InstructionNode :=
  let unit := parserInitializeTranslationUnit (sampleLexer text)
  (parserParseInstructionList (unit.setTokens (unit.tokens.drop 2))).2

end Assembler
