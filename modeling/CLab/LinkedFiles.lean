import CLab.Disassembly

/-!
# The files of a linked program

A linked program says all that the second pass writes.  Its words are put together
again from its operations and operands, and the three files that they make are those
of the accepted unit (`Accepted.files_linked`).  No word changes where a program is cut
down to what is legible of it, so two accepted programs have the same files exactly if
the same is legible of them (`Accepted.files_eq_iff`), whatever the reader.
-/

namespace Assembler

/-! ## Operands -/

/-- The mode that an operand is written with. -/
def LinkedOperand.mode : LinkedOperand → AddressingMode
  | .immediate _ => .immediate
  | .label _ | .external _ => .direct
  | .indirectRegister _ => .indirectRegister
  | .directRegister _ => .directRegister

/-- The number of a register in the field of its side. -/
def registerMemory (number : Nat) (isDst : Bool) : InstructionOperandMemory :=
  let memory : InstructionOperandMemory := { InstructionOperandMemory.zero with are := 4 }
  if isDst then memory.setRdst (BitVec.ofNat 3 number)
  else memory.setRsrc (BitVec.ofNat 3 number)

/-- The word of an operand. -/
def LinkedOperand.memory (operand : LinkedOperand) (isDst : Bool) : InstructionOperandMemory :=
  match operand with
  | .immediate value => { are := 4, operandValue := BitVec.ofInt 12 value }
  | .label address => { are := 2, operandValue := BitVec.ofNat 12 address }
  | .external _ => { are := 1, operandValue := 0 }
  | .indirectRegister number | .directRegister number => registerMemory number isDst

/-- The name that is listed with the word. -/
def LinkedOperand.reference : LinkedOperand → Option CString
  | .external name => some name
  | .immediate _ | .label _ | .indirectRegister _ | .directRegister _ => none

/-- The word of an operand with its reference. -/
def LinkedOperand.emission (operand : LinkedOperand) (isDst : Bool) : Emission :=
  ⟨wordOf (instrOperandMemToBinary (operand.memory isDst)), operand.reference⟩

/-- The word of an address has no room for its high bits. -/
@[simp] theorem LinkedOperand.emission_cut (operand : LinkedOperand) (isDst : Bool) :
    operand.cut.emission isDst = operand.emission isDst := by
  cases operand with
  | label address =>
      have hbits : BitVec.ofNat 12 (address % 2 ^ 12) = BitVec.ofNat 12 address := by
        apply BitVec.eq_of_toNat_eq
        simp
      rw [cut, emission, emission, memory, memory, hbits]
      rfl
  | immediate value => rfl
  | external name => rfl
  | indirectRegister number => rfl
  | directRegister number => rfl

/-- A cut address is an address. -/
@[simp] theorem LinkedOperand.mode_cut (operand : LinkedOperand) :
    operand.cut.mode = operand.mode := by
  cases operand <;> rfl

/-- A register that is cleared keeps its mode. -/
@[simp] theorem LinkedOperand.mode_cleared (operand : LinkedOperand) :
    operand.cleared.mode = operand.mode := by
  cases operand <;> rfl

/-- Cutting makes no register of an operand and takes none away. -/
@[simp] theorem LinkedOperand.isRegister_cut (operand : LinkedOperand) :
    operand.cut.isRegister = operand.isRegister := by
  cases operand <;> rfl

@[simp] theorem LinkedOperand.isRegister_cleared (operand : LinkedOperand) :
    operand.cleared.isRegister = operand.isRegister := by
  cases operand <;> rfl

/-! ## Instructions and programs -/

/-- The first word of an instruction. -/
def LinkedInstruction.memory (instruction : LinkedInstruction) : InstructionMemory where
  are := 4
  dst := (instruction.destination.map (fun operand => operand.mode.code)).getD 0
  src := (instruction.source.map (fun operand => operand.mode.code)).getD 0
  code := tokenTypeToInstrCode instruction.operation

/-- The words behind it: of two registers only the destination gets one. -/
def LinkedInstruction.operands (instruction : LinkedInstruction) : List Emission :=
  match instruction.source, instruction.destination with
  | some source, some destination =>
      if source.isRegister && destination.isRegister then [destination.emission true]
      else [source.emission false, destination.emission true]
  | none, some destination => [destination.emission true]
  | _, none => []

/-- All words of an instruction. -/
def LinkedInstruction.emissions (instruction : LinkedInstruction) : List Emission :=
  plain (wordOf (instrMemToBinary instruction.memory)) :: instruction.operands

/-- What is not legible of an instruction is not in its words. -/
theorem LinkedInstruction.emissions_legible (instruction : LinkedInstruction) :
    instruction.legible.emissions = instruction.emissions := by
  obtain ⟨operation, source, destination⟩ := instruction
  cases source with
  | none => cases destination <;> simp [emissions, operands, memory, legible]
  | some source =>
      cases destination with
      | none => simp [emissions, operands, memory, legible]
      | some destination =>
          -- the source is cleared where it has no word, and cut where it has one
          by_cases hboth : source.isRegister = true ∧ destination.isRegister = true
          · simp [emissions, operands, memory, legible, hboth]
          · simp [emissions, operands, memory, legible, hboth]

/-- The words of the instructions of a program. -/
def LinkedProgram.emissions (program : LinkedProgram) : List Emission :=
  program.instructions.flatMap LinkedInstruction.emissions

/-- The object file of a program. -/
def LinkedProgram.objectFile (program : LinkedProgram) : List UInt8 :=
  objectHeader program.emissions.length program.values.length ++
    objectText (placeWords startingPosition (program.emissions.map Emission.word) ++
      placeWords (startingPosition + program.emissions.length) (program.values.map valueWord))

/-- Its external file. -/
def LinkedProgram.externalFile (program : LinkedProgram) : List UInt8 :=
  symbolText (references (startingPosition + 1) program.emissions)

/-- Its entry file. -/
def LinkedProgram.entryFile (program : LinkedProgram) : List UInt8 :=
  symbolText (program.entries.map fun symbol => ⟨symbol.name, symbol.address + startingPosition⟩)

/-- What is not legible of a program is not in its words. -/
theorem LinkedProgram.emissions_legible (program : LinkedProgram) :
    program.legible.emissions = program.emissions := by
  rw [emissions, emissions, legible, List.flatMap_map]
  exact List.flatMap_congr fun instruction _ => instruction.emissions_legible

/-- What is not legible of a program is in none of its files. -/
theorem LinkedProgram.files_legible (program : LinkedProgram) :
    program.legible.objectFile = program.objectFile ∧
      program.legible.externalFile = program.externalFile ∧
      program.legible.entryFile = program.entryFile := by
  refine ⟨?_, ?_, rfl⟩
  · rw [objectFile, objectFile, emissions_legible]
    rfl
  · rw [externalFile, externalFile, emissions_legible]

/-! ## What the second pass writes -/

/-- The number of a register is the one that is stored of it. -/
theorem ofInt_registerNumber {operand : Token} (hlexed : LexedToken operand)
    (htype : operand.type = .register) :
    BitVec.ofInt 3 (atoi (operand.string.data.drop 1)) =
      BitVec.ofNat 3 (registerNumber operand) := by
  obtain ⟨hatoi, -⟩ := atoi_registerNumber hlexed htype
  rw [hatoi, BitVec.ofInt_natCast]

/-- A register alone in its word. -/
theorem handleRegisterMode_zero {operand : Token} (hlexed : LexedToken operand)
    (htype : operand.type = .register) (isDst : Bool) :
    handleRegisterMode operand .zero isDst = registerMemory (registerNumber operand) isDst := by
  rw [handleRegisterMode, ofInt_registerNumber hlexed htype, registerMemory]
  cases isDst
  all_goals
    simp only [InstructionOperandMemory.setRdst, InstructionOperandMemory.setRsrc,
      InstructionOperandMemory.zero, if_true, Bool.false_eq_true, if_false,
      InstructionOperandMemory.mk.injEq, true_and]
    apply BitVec.eq_of_getLsbD_eq
    intro i hi
    interval_cases i <;> simp

/-- **Nothing of a source register is left** in the word that it shares. -/
theorem handleRegisterMode_shared {destination : Token} (hlexed : LexedToken destination)
    (htype : destination.type = .register) (source : Token) :
    handleRegisterMode destination (handleRegisterMode source .zero false) true =
      registerMemory (registerNumber destination) true := by
  rw [handleRegisterMode, ofInt_registerNumber hlexed htype, handleRegisterMode, registerMemory]
  simp only [InstructionOperandMemory.setRdst, InstructionOperandMemory.setRsrc,
    InstructionOperandMemory.zero, if_true, Bool.false_eq_true, if_false,
    InstructionOperandMemory.mk.injEq, true_and]
  apply BitVec.eq_of_getLsbD_eq
  intro i hi
  interval_cases i <;> simp

section Accepted

variable {lexer : Lexer} {unit placed : TranslationUnit} {analyzer : SemanticAnalyzer}
  {generator : CodeGenerator}

/-- The mode of an operand says what it is. -/
theorem linkOperand_mode {token : Token}
    (htype : token.type = .number ∨ token.type = .identifier ∨ token.type = .register)
    (isDerefrenced : Bool) : (placed.linkOperand token isDerefrenced).mode =
      determineAddressingMode token isDerefrenced := by
  rw [TranslationUnit.linkOperand, operandContent, determineAddressingMode]
  rcases htype with htype | htype | htype
  · rw [htype]
    rfl
  · rw [htype]
    by_cases hexternal : token.string ∈ placed.externalNames <;>
      simp [hexternal, LinkedOperand.mode]
  · rw [htype]
    cases isDerefrenced <;> rfl

variable (h : Accepted lexer unit analyzer generator placed)

include h

/-- The word of an operand is the one of its linked form. -/
theorem Accepted.slotEmission_operand {token : Token} {isDerefrenced isDst : Bool}
    (hlexed : LexedToken token) (hslot : .operand token isDerefrenced isDst ∈ placed.slots) :
    slotEmission analyzer placed (.operand token isDerefrenced isDst) =
      (placed.linkOperand token isDerefrenced).emission isDst := by
  have haccepted := h.slot_operand hslot
  have hmode := @linkOperand_mode placed _ haccepted.type isDerefrenced
  rw [slotEmission, slotWord, ← hmode]
  rw [TranslationUnit.linkOperand, operandContent]
  by_cases hidentifier : token.type = .identifier
  · have hname : (Slot.operand token isDerefrenced isDst).identifier = some token.string :=
      Slot.identifier_eq_some.mpr ⟨token, isDerefrenced, isDst, rfl, hidentifier, rfl⟩
    rw [slotReference_identifier analyzer hname, hidentifier]
    rcases h.identifier_cases hslot hname with ⟨label, hlabel, hlabelName⟩ | hexternal
    · obtain ⟨cell, hlookup, htype, -⟩ := h.lookup_label hlabel hlabelName
      simp only [if_neg (h.name_disjoint hlabel hlabelName), h.positionOf hlabel hlabelName]
      rw [LinkedOperand.mode, operandMemory, h.directMemory_label hlabel hlabelName, hlookup,
        Option.map_some, htype]
      rfl
    · obtain ⟨cell, hlookup, htype⟩ := h.lookup_external hexternal
      simp only [if_pos hexternal]
      rw [LinkedOperand.mode, operandMemory, h.directMemory_external hexternal, hlookup,
        Option.map_some, htype]
      rfl
  · have hname : (Slot.operand token isDerefrenced isDst).identifier = none := by
      rw [Slot.identifier, if_neg hidentifier]
    rw [slotReference_none analyzer hname]
    rcases haccepted.type with hnumber | habsurd | hregister
    · rw [hnumber]
      simp only [LinkedOperand.mode, operandMemory, setWidth_intTo2Complement]
      rfl
    · exact absurd habsurd hidentifier
    · rw [hregister]
      cases isDerefrenced <;>
        simp [LinkedOperand.mode, operandMemory, handleRegisterMode_zero hlexed hregister,
          LinkedOperand.emission, LinkedOperand.memory, LinkedOperand.reference]

omit h in
/-- Two registers are written like the destination alone. -/
theorem slotEmission_registers {source destination : Token} (hlexed : LexedToken destination)
    (htype : destination.type = .register) (isDerefrenced : Bool) :
    slotEmission analyzer placed (.registers source destination) =
      (placed.linkOperand destination isDerefrenced).emission true := by
  rw [slotEmission, slotWord, slotReference, handleRegisterMode_shared hlexed htype,
    TranslationUnit.linkOperand, operandContent, htype]
  cases isDerefrenced <;> rfl

/-- **The words of an instruction are those of its linked form.** -/
theorem Accepted.emissions_instruction {node : InstructionNode} {linked : LinkedInstruction}
    (hformed : InstructionFormed lexer.tokenList node)
    (hslots : instructionSlots node ⊆ placed.slots)
    (hlinked : placed.linkInstruction node = some linked) :
    (instructionSlots node).map (slotEmission analyzer placed) = linked.emissions := by
  obtain ⟨operation, -, hoperation, -⟩ := hformed.operation
  have hplain : slotEmission analyzer placed (.operation node) =
      plain (wordOf (instrMemToBinary (operationMemory node))) := rfl
  rw [TranslationUnit.linkInstruction, hoperation] at hlinked
  rw [operationMemory, hoperation] at hplain
  rw [instructionSlots] at hslots ⊢
  cases hfirst : node.firstOperand with
  | none =>
      cases hsecond : node.secondOperand with
      | some second => exact absurd hfirst (hformed.ordered (by simp [hsecond]))
      | none =>
          simp only [hfirst, hsecond] at hlinked hplain ⊢
          obtain rfl := Option.some.inj hlinked
          rw [List.map_singleton, hplain]
          rfl
  | some first =>
      have hfirstLexed := h.lexed.lexed first (hformed.first first hfirst).mem
      cases hsecond : node.secondOperand with
      | none =>
          simp only [hfirst, hsecond] at hlinked hplain hslots ⊢
          obtain rfl := Option.some.inj hlinked
          have hslot : .operand first node.isFirstOperandDerefrenced true ∈ placed.slots :=
            hslots (by simp)
          have hmode := @linkOperand_mode placed _ (h.slot_operand hslot).type
            node.isFirstOperandDerefrenced
          have hword := h.slotEmission_operand hfirstLexed hslot
          simp [hplain, hword, ← hmode, LinkedInstruction.emissions, LinkedInstruction.memory,
            LinkedInstruction.operands, InstructionMemory.zero]
      | some second =>
          have hsecondLexed := h.lexed.lexed second (hformed.second second hsecond).mem
          simp only [hfirst, hsecond] at hlinked hplain hslots ⊢
          obtain rfl := Option.some.inj hlinked
          by_cases hboth : first.type = .register ∧ second.type = .register
          · have hword := @slotEmission_registers placed analyzer first second hsecondLexed
              hboth.2 node.isSecondOperandDerefrenced
            have hmode := @linkOperand_mode placed _ (Or.inr (Or.inr hboth.1))
              node.isFirstOperandDerefrenced
            have hmode' := @linkOperand_mode placed _ (Or.inr (Or.inr hboth.2))
              node.isSecondOperandDerefrenced
            have hsource := (@linkOperand_isRegister placed first
              node.isFirstOperandDerefrenced).mpr hboth.1
            have hdestination := (@linkOperand_isRegister placed second
              node.isSecondOperandDerefrenced).mpr hboth.2
            simp [hboth, hplain, hword, ← hmode, ← hmode', hsource, hdestination,
              LinkedInstruction.emissions, LinkedInstruction.memory, LinkedInstruction.operands]
          · rw [if_neg hboth] at hslots ⊢
            have hslot : .operand first node.isFirstOperandDerefrenced false ∈ placed.slots :=
              hslots (by simp)
            have hslot' : .operand second node.isSecondOperandDerefrenced true ∈ placed.slots :=
              hslots (by simp)
            have hmode := @linkOperand_mode placed _ (h.slot_operand hslot).type
              node.isFirstOperandDerefrenced
            have hmode' := @linkOperand_mode placed _ (h.slot_operand hslot').type
              node.isSecondOperandDerefrenced
            have hword := h.slotEmission_operand hfirstLexed hslot
            have hword' := h.slotEmission_operand hsecondLexed hslot'
            have hkinds : ¬ ((placed.linkOperand first
                node.isFirstOperandDerefrenced).isRegister = true ∧
                (placed.linkOperand second
                  node.isSecondOperandDerefrenced).isRegister = true) := by
              rwa [linkOperand_isRegister, linkOperand_isRegister]
            simp [hplain, hword, hword', ← hmode, ← hmode', hkinds,
              LinkedInstruction.emissions, LinkedInstruction.memory, LinkedInstruction.operands]

/-- The words of some instructions, one behind the other. -/
theorem Accepted.emissions_instructions {nodes : List InstructionNode}
    {linked : List LinkedInstruction} (hnodes : nodes ⊆ placed.instructions)
    (hlinked : nodes.mapM placed.linkInstruction = some linked) :
    (nodes.flatMap instructionSlots).map (slotEmission analyzer placed) =
      linked.flatMap LinkedInstruction.emissions := by
  induction nodes generalizing linked with
  | nil =>
      obtain rfl := Option.some.inj hlinked
      rfl
  | cons node rest ih =>
      have hnode : node ∈ placed.instructions := hnodes List.mem_cons_self
      have hslots : instructionSlots node ⊆ placed.slots := by
        intro slot hslot
        rw [← instructions_slots]
        exact List.mem_flatMap.mpr ⟨node, hnode, hslot⟩
      rw [List.mapM_cons] at hlinked
      obtain ⟨first, hfirst, hlinked⟩ := Option.bind_eq_some_iff.mp hlinked
      obtain ⟨others, hothers, hlinked⟩ := Option.bind_eq_some_iff.mp hlinked
      obtain rfl := Option.some.inj hlinked
      rw [List.flatMap_cons, List.flatMap_cons, List.map_append,
        h.emissions_instruction (h.instructions_formed node hnode) hslots hfirst,
        ih (fun _ hmem => hnodes (List.mem_cons_of_mem _ hmem)) hothers]

/-- **The second pass assembles the linked program.** -/
theorem Accepted.files_linked {program : LinkedProgram}
    (hprogram : placed.linkedProgram = some program) :
    objectFileText analyzer placed = program.objectFile ∧
      symbolText (externalSymbols analyzer placed) = program.externalFile ∧
      symbolText (entrySymbols placed) = program.entryFile := by
  rw [TranslationUnit.linkedProgram] at hprogram
  obtain ⟨linked, hlinked, hprogram⟩ := Option.bind_eq_some_iff.mp hprogram
  obtain rfl := Option.some.inj hprogram
  have hemissions := h.emissions_instructions (List.Subset.refl _) hlinked
  rw [instructions_slots] at hemissions
  have hwords : placed.slots.map (slotWord analyzer placed) =
      (linked.flatMap LinkedInstruction.emissions).map Emission.word := by
    rw [← hemissions, List.map_map]
    rfl
  have hlength : placed.slots.length =
      (linked.flatMap LinkedInstruction.emissions).length := by
    rw [← hemissions, List.length_map]
  refine ⟨?_, ?_, ?_⟩
  · rw [objectFileText, objectImage, hwords, hlength, h.values_eq]
    rfl
  · rw [externalSymbols, hemissions]
    rfl
  · rw [LinkedProgram.entryFile, List.map_map]
    rfl

end Accepted

/-- **Two accepted programs have the same three files exactly if the same is legible
of them.** -/
theorem Accepted.files_eq_iff {lexer lexer' : Lexer} {unit unit' placed placed' : TranslationUnit}
    {analyzer analyzer' : SemanticAnalyzer} {generator generator' : CodeGenerator}
    (h : Accepted lexer unit analyzer generator placed)
    (h' : Accepted lexer' unit' analyzer' generator' placed') : ∃ program program',
    placed.linkedProgram = some program ∧ placed'.linkedProgram = some program' ∧
      ((objectFileText analyzer placed = objectFileText analyzer' placed' ∧
        symbolText (externalSymbols analyzer placed) =
          symbolText (externalSymbols analyzer' placed') ∧
        symbolText (entrySymbols placed) = symbolText (entrySymbols placed')) ↔
        program.legible = program'.legible) := by
  obtain ⟨program, hprogram, hread⟩ := h.readProgram_legible
  obtain ⟨program', hprogram', hread'⟩ := h'.readProgram_legible
  refine ⟨program, program', hprogram, hprogram', ?_, ?_⟩
  · intro ⟨hobject, hexternal, hentry⟩
    rw [hobject, hexternal, hentry, hread'] at hread
    exact (Option.some.inj hread).symm
  · intro hlegible
    obtain ⟨hobject, hexternal, hentry⟩ := h.files_linked hprogram
    obtain ⟨hobject', hexternal', hentry'⟩ := h'.files_linked hprogram'
    obtain ⟨hsame, hsame', hsame''⟩ := program.files_legible
    obtain ⟨hother, hother', hother''⟩ := program'.files_legible
    rw [hobject, hexternal, hentry, hobject', hexternal', hentry', ← hsame, ← hsame', ← hsame'',
      ← hother, ← hother', ← hother'', hlegible]
    exact ⟨rfl, rfl, rfl⟩

end Assembler
