import CLab.DataSegment
import CLab.DriverOutcome
import CLab.ExternalFile
import CLab.InstructionEncoding
import CLab.PrefixCode

/-!
# A program read back from its files

The first word of an instruction says how many words are behind it, so the words
of the object file are taken apart into the instructions of the program, and what
is behind them is its data.  An operand in the memory is found by its address, or
by the line that the external file has for its word.  What is read is the program
but for the source registers that share a word and the high bits of addresses
(`readProgram_legible`), so it is the program exactly if none of these is used
(`readProgram_iff`).
-/

namespace Assembler

/-! ## The three texts -/

/-- A text that can be the name of a symbol. -/
def readName (text : List UInt8) : Option CString :=
  if h : 0 ∉ text then some ⟨text, h⟩ else none

/-- A name, a blank and an address. -/
def readSymbolLine (line : List UInt8) : Option SymbolAddress := do
  let name ← readName (line.takeWhile (· ≠ blank))
  let address ← Numerals.read 10 ((line.dropWhile (· ≠ blank)).drop 1)
  some ⟨name, address⟩

/-- A file of symbols, line by line. -/
def readSymbols (text : List UInt8) : Option (List SymbolAddress) :=
  (Numerals.textLines newline text).mapM readSymbolLine

/-- The two counts of the first line, which begins with a blank. -/
def readHeader (line : List UInt8) : Option (Nat × Nat) := do
  let counts := line.drop 1
  let instructionLines ← Numerals.read 10 (counts.takeWhile (· ≠ blank))
  let guidanceLines ← Numerals.read 10 ((counts.dropWhile (· ≠ blank)).drop 1)
  some (instructionLines, guidanceLines)

/-- The words of the instructions and those of the data. -/
def readObjectFile (text : List UInt8) : Option (List PlacedWord × List PlacedWord) :=
  match Numerals.textLines newline text with
  | [] => none
  | header :: lines => do
      let counts ← readHeader header
      let image ← lines.mapM readObjectLine
      if image.length = counts.1 + counts.2 then
        some (image.take counts.1, image.drop counts.1)
      else none

/-- A name that ends at the first blank. -/
structure BareName (name : CString) : Prop where
  blank : blank ∉ name.data
  newline : newline ∉ name.data

/-- A line of a symbol is read back. -/
theorem readSymbolLine_symbolLine {symbol : SymbolAddress} (h : BareName symbol.name) :
    readSymbolLine (symbolLine symbol) = some symbol := by
  obtain ⟨hfront, hback⟩ := split_at_blank h.blank (formatDecimal 4 symbol.address)
  have haddress : Numerals.read 10 (formatDecimal 4 symbol.address) = some symbol.address :=
    Numerals.read_padded (by decide) (by decide) (by decide) _
  have hname : readName symbol.name.data = some symbol.name := by
    rw [readName, dif_pos symbol.name.noNul]
  rw [readSymbolLine, symbolLine, hfront, hback, List.drop_succ_cons, List.drop_zero, haddress,
    hname]
  rfl

/-- Lines that are read back one by one. -/
theorem mapM_written {α β : Type} {write : α → β} {read : β → Option α} {items : List α}
    (h : ∀ item ∈ items, read (write item) = some item) :
    (items.map write).mapM read = some items := by
  induction items with
  | nil => rfl
  | cons item rest ih =>
      have hrest : ∀ item ∈ rest, read (write item) = some item :=
        fun item hmem => h item (List.mem_cons_of_mem _ hmem)
      rw [List.map_cons, List.mapM_cons, h item List.mem_cons_self, ih hrest]
      rfl

/-- **The lines of symbols are read as they were written.** -/
theorem readSymbols_symbolText {symbols : List SymbolAddress}
    (h : ∀ symbol ∈ symbols, BareName symbol.name) :
    readSymbols (symbolText symbols) = some symbols := by
  have hlines : Numerals.textLines newline (symbolText symbols) = symbols.map symbolLine := by
    apply Numerals.textLines_unlines
    intro line hline hmem
    obtain ⟨symbol, hsymbol, rfl⟩ := List.mem_map.mp hline
    rcases List.mem_append.mp hmem with hmem | hmem
    · exact (h symbol hsymbol).newline hmem
    · rcases List.mem_cons.mp hmem with hmem | hmem
      · exact absurd hmem (by decide)
      · exact (formatDecimal_digit hmem).2.1 rfl
  rw [readSymbols, hlines]
  exact mapM_written fun symbol hsymbol => readSymbolLine_symbolLine (h symbol hsymbol)

/-- The first line without its newline. -/
def headerLine (instructionLines guidanceLines : Nat) : List UInt8 :=
  blank :: decimal instructionLines ++ blank :: decimal guidanceLines

theorem readHeader_headerLine (instructionLines guidanceLines : Nat) :
    readHeader (headerLine instructionLines guidanceLines) =
      some (instructionLines, guidanceLines) := by
  obtain ⟨hfront, hback⟩ := split_at_blank (blank_not_mem_formatDecimal 1 instructionLines)
    (decimal guidanceLines)
  have hread : ∀ n, Numerals.read 10 (formatDecimal 1 n) = some n :=
    Numerals.read_padded (by decide) (by decide) (by decide)
  rw [readHeader, headerLine, List.cons_append, List.drop_succ_cons, List.drop_zero]
  simp only [decimal] at hfront hback ⊢
  rw [hfront, hback, List.drop_succ_cons, List.drop_zero, hread, hread]
  rfl

/-- **The object file is read as it was written.** -/
theorem readObjectFile_objectFileText (analyzer : SemanticAnalyzer) (placed : TranslationUnit) :
    readObjectFile (objectFileText analyzer placed) =
      some (placeWords startingPosition (placed.slots.map (slotWord analyzer placed)),
        placeWords (startingPosition + placed.slots.length) (placed.values.map valueWord)) := by
  have hlines : Numerals.textLines newline (objectFileText analyzer placed) =
      headerLine placed.slots.length placed.values.length ::
        (objectImage analyzer placed).map objectLine := by
    have htext : objectFileText analyzer placed = Numerals.unlines newline
        (headerLine placed.slots.length placed.values.length ::
          (objectImage analyzer placed).map objectLine) := by
      simp [objectFileText, objectHeader, objectText, Numerals.unlines, headerLine, bytes, blank,
        newline]
    rw [htext]
    apply Numerals.textLines_unlines
    intro line hline hmem
    rcases List.mem_cons.mp hline with rfl | hline
    · simp only [headerLine, List.cons_append, List.mem_cons, List.mem_append] at hmem
      rcases hmem with hmem | hmem | hmem | hmem
      · exact absurd hmem (by decide)
      · exact (formatDecimal_digit hmem).2.1 rfl
      · exact absurd hmem (by decide)
      · exact (formatDecimal_digit hmem).2.1 rfl
    · obtain ⟨word, -, rfl⟩ := List.mem_map.mp hline
      exact newline_not_mem_objectLine word hmem
  have himage : ((objectImage analyzer placed).map objectLine).mapM readObjectLine =
      some (objectImage analyzer placed) :=
    mapM_written fun word _ => readObjectLine_objectLine word
  have hcount : (placeWords startingPosition (placed.slots.map (slotWord analyzer placed))).length =
      placed.slots.length := by
    rw [placeWords_length, List.length_map]
  rw [readObjectFile, hlines]
  simp only [readHeader_headerLine, himage, Option.bind_some, bind]
  rw [if_pos (by simp [objectImage]), objectImage, ← hcount, List.take_left', List.drop_left']
  · rfl
  · rfl

/-! ## Instructions -/

/-- An operand with its address, or with the name that is to be found elsewhere. -/
inductive LinkedOperand
  | immediate (value : Int)
  | label (address : Nat)
  | external (name : CString)
  | indirectRegister (number : Nat)
  | directRegister (number : Nat)
deriving DecidableEq

/-- A single operand is the destination. -/
structure LinkedInstruction where
  operation : TokenType
  source : Option LinkedOperand
  destination : Option LinkedOperand
deriving DecidableEq

/-- A program as its files tell it: instructions, values, and the addresses of the entries. -/
structure LinkedProgram where
  instructions : List LinkedInstruction
  values : List Int
  entries : List SymbolAddress
deriving DecidableEq

section Reading

variable (symbols : List SymbolAddress)

/-- A word that refers to an external is found in the external file at the
address behind it. -/
def readDirect (placed : PlacedWord) : Option LinkedOperand :=
  if placed.word.are = 2 then some (.label placed.word.operand.toNat)
  else if placed.word.are = 1 then
    (symbols.find? (fun symbol => symbol.address = placed.address + 1)).map
      (fun symbol => .external symbol.name)
  else none

/-- An operand, from its word. -/
def readOperand (mode : AddressingMode) (isDst : Bool) (placed : PlacedWord) :
    Option LinkedOperand :=
  match decodeOperand mode isDst placed.word with
  | .immediate value => some (.immediate value)
  | .direct => readDirect symbols placed
  | .indirectRegister number => some (.indirectRegister number)
  | .directRegister number => some (.directRegister number)

/-- The operands that two modes announce, and the words behind them. -/
def readOperands (source destination : Option AddressingMode) (words : List PlacedWord) :
    Option ((Option LinkedOperand × Option LinkedOperand) × List PlacedWord) :=
  match source, destination, words with
  | none, none, rest => some ((none, none), rest)
  | none, some mode, word :: rest => do
      let operand ← readOperand symbols mode true word
      some ((none, some operand), rest)
  | some mode, some mode', word :: rest =>
      if mode.isRegister && mode'.isRegister then do
        let operand ← readOperand symbols mode false word
        let operand' ← readOperand symbols mode' true word
        some ((some operand, some operand'), rest)
      else
        match rest with
        | [] => none
        | word' :: rest => do
            let operand ← readOperand symbols mode false word
            let operand' ← readOperand symbols mode' true word'
            some ((some operand, some operand'), rest)
  | _, _, _ => none

/-- An instruction, from its words. -/
def readInstruction : PrefixCode.Reader PlacedWord LinkedInstruction
  | [] => none
  | head :: rest =>
      if head.word.are ≠ 4 then none
      else do
        let operation ← instructionCodes[head.word.opcode.toNat]?
        let source ← decodeMode head.word.sourceMode
        let destination ← decodeMode head.word.destinationMode
        let found ← readOperands symbols source destination rest
        some (⟨operation, found.1.1, found.1.2⟩, found.2)

end Reading

/-- The line of an entry gives its address with the start of the memory added
once more. -/
def readProgram (object external entry : List UInt8) : Option LinkedProgram := do
  let image ← readObjectFile object
  let symbols ← readSymbols external
  let entries ← readSymbols entry
  let instructions ← PrefixCode.readAll (readInstruction symbols) image.1
  some
    { instructions := instructions
      values := image.2.map (fun placed => placed.word.toInt)
      entries := entries.map (fun symbol => ⟨symbol.name, symbol.address - startingPosition⟩) }

/-! ## What a program says -/

section Linking

variable (unit : TranslationUnit)

/-- The operand of the source with the address of its name. -/
def TranslationUnit.linkOperand (operand : Token) (isDerefrenced : Bool) : LinkedOperand :=
  match operandContent operand isDerefrenced with
  | .immediate value => .immediate value
  | .direct =>
      if operand.string ∈ unit.externalNames then .external operand.string
      else .label (unit.positionOf operand.string)
  | .indirectRegister number => .indirectRegister number
  | .directRegister number => .directRegister number

/-- There is no second operand without a first. -/
def TranslationUnit.linkInstruction (node : InstructionNode) : Option LinkedInstruction := do
  let operation ← node.operation
  let first := node.firstOperand.map (unit.linkOperand · node.isFirstOperandDerefrenced)
  let second := node.secondOperand.map (unit.linkOperand · node.isSecondOperandDerefrenced)
  match first, second with
  | none, none => some ⟨operation.type, none, none⟩
  | some destination, none => some ⟨operation.type, none, some destination⟩
  | some source, some destination => some ⟨operation.type, some source, some destination⟩
  | none, some _ => none

/-- All instructions of a unit. -/
def TranslationUnit.instructions : List InstructionNode :=
  unit.instructionLabelList.flatMap LabelNode.instructionList

/-- The instructions of a program with the places of their symbols, its data and
its entries. -/
def TranslationUnit.linkedProgram : Option LinkedProgram := do
  let instructions ← unit.instructions.mapM unit.linkInstruction
  some
    { instructions := instructions
      values := unit.dataValues
      entries := (newNames [] unit.entryNames).map (fun name => ⟨name, unit.positionOf name⟩) }

end Linking

/-! ## What is left of it in the words -/

/-- The two kinds of operands that are registers. -/
def LinkedOperand.isRegister : LinkedOperand → Bool
  | .indirectRegister _ | .directRegister _ => true
  | .immediate _ | .label _ | .external _ => false

/-- The low bits of an address. -/
def LinkedOperand.cut : LinkedOperand → LinkedOperand
  | .label address => .label (address % 2 ^ 12)
  | operand => operand

/-- A register without its number. -/
def LinkedOperand.cleared : LinkedOperand → LinkedOperand
  | .indirectRegister _ => .indirectRegister 0
  | .directRegister _ => .directRegister 0
  | operand => operand

/-- A source register is cleared where it shares its word. -/
def LinkedInstruction.legible (instruction : LinkedInstruction) : LinkedInstruction :=
  { instruction with
    source := instruction.source.map (fun source =>
      if source.isRegister && instruction.destination.any LinkedOperand.isRegister then
        source.cleared
      else source.cut)
    destination := instruction.destination.map LinkedOperand.cut }

/-- What is legible of a program, instruction by instruction. -/
def LinkedProgram.legible (program : LinkedProgram) : LinkedProgram :=
  { program with instructions := program.instructions.map LinkedInstruction.legible }

/-! ## The words of an instruction -/

/-- The line that has the address of a word is the line of its reference. -/
theorem find_references (position : Nat) (before : List Emission) (word : Word)
    (name : CString) (after : List Emission) :
    (references position (before ++ ⟨word, some name⟩ :: after)).find?
        (fun symbol => symbol.address = position + before.length) =
      some ⟨name, position + before.length⟩ := by
  induction before generalizing position with
  | nil => simp [references]
  | cons emission before ih =>
      have hrest := ih (position + 1)
      have hlength : position + (emission :: before).length = position + 1 + before.length := by
        rw [List.length_cons]
        omega
      rw [List.cons_append, references, List.find?_append, hlength, hrest]
      cases emission.reference with
      | none => rfl
      | some name' =>
          have hne : ¬ position = position + 1 + before.length := by omega
          simp [hne]

section Modes

variable {analyzer : SemanticAnalyzer} {unit : TranslationUnit} {symbols : List SymbolAddress}

/-- The first word of an instruction, read from a list of words. -/
theorem readInstruction_operation {node : InstructionNode} {operation : Token}
    (hoperation : node.operation = some operation)
    (htype : isInstructionToken operation.type = true) (address : Nat)
    (words : List PlacedWord) :
    readInstruction symbols (⟨address, slotWord analyzer unit (.operation node)⟩ :: words) =
      (readOperands symbols node.sourceMode node.destinationMode words).map
        (fun found => (⟨operation.type, found.1.1, found.1.2⟩, found.2)) := by
  have hare : (operationMemory node).are = 4 := by
    rw [operationMemory]
    cases node.firstOperand <;> cases node.secondOperand <;> rfl
  have hcode : (operationMemory node).code = tokenTypeToInstrCode operation.type := by
    rw [operationMemory, hoperation]
    cases node.firstOperand <;> cases node.secondOperand <;> rfl
  have hsource : decodeMode (operationMemory node).src = some node.sourceMode := by
    rw [operationMemory, InstructionNode.sourceMode]
    cases node.firstOperand <;> cases node.secondOperand <;>
      first | rfl | exact decodeMode_code _
  have hdestination : decodeMode (operationMemory node).dst = some node.destinationMode := by
    rw [operationMemory, InstructionNode.destinationMode]
    cases node.firstOperand <;> cases node.secondOperand <;>
      first | rfl | exact decodeMode_code _
  simp only [slotWord, readInstruction, instrMemToBinary_are, instrMemToBinary_code,
    instrMemToBinary_src, instrMemToBinary_dst, hare, hcode, hsource, hdestination,
    instructionCodes_tokenTypeToInstrCode htype, ne_eq, not_true_eq_false, if_false]
  cases hread : readOperands symbols node.sourceMode node.destinationMode words <;> simp [hread]

/-- The destination of two registers is read, and the source as `r0`. -/
theorem readOperands_registers {source destination : Token} (hlexed : LexedToken destination)
    (hsource : source.type = .register) (hdestination : destination.type = .register)
    (isDerefrenced isDerefrenced' : Bool) (address : Nat) (rest : List PlacedWord) :
    readOperands symbols (some (determineAddressingMode source isDerefrenced))
        (some (determineAddressingMode destination isDerefrenced'))
        (⟨address, slotWord analyzer unit (.registers source destination)⟩ :: rest) =
      some ((some (unit.linkOperand source isDerefrenced).cleared,
        some (unit.linkOperand destination isDerefrenced')), rest) := by
  have hread := @decodeOperand_shared analyzer unit source destination hdestination hlexed
    isDerefrenced'
  have hcleared := handleRegisterMode_clears destination (handleRegisterMode source .zero false)
  have hboth : (determineAddressingMode source isDerefrenced).isRegister = true ∧
      (determineAddressingMode destination isDerefrenced').isRegister = true :=
    ⟨determineAddressingMode_isRegister.mpr hsource,
      determineAddressingMode_isRegister.mpr hdestination⟩
  have hfirst : readOperand symbols (determineAddressingMode source isDerefrenced) false
      ⟨address, slotWord analyzer unit (.registers source destination)⟩ =
        some (unit.linkOperand source isDerefrenced).cleared := by
    rw [readOperand, TranslationUnit.linkOperand, operandContent, hsource,
      determineAddressingMode_register hsource, slotWord]
    cases isDerefrenced <;> simp [decodeOperand, hcleared, LinkedOperand.cleared]
  have hsecond : readOperand symbols (determineAddressingMode destination isDerefrenced') true
      ⟨address, slotWord analyzer unit (.registers source destination)⟩ =
        some (unit.linkOperand destination isDerefrenced') := by
    rw [readOperand, hread, TranslationUnit.linkOperand, operandContent, hdestination]
    cases isDerefrenced' <;> rfl
  simp only [readOperands, hboth.1, hboth.2, Bool.and_self, if_true, hfirst, hsecond]
  rfl

end Modes

/-- A linked operand is a register if its token is. -/
theorem linkOperand_isRegister {unit : TranslationUnit} {operand : Token}
    {isDerefrenced : Bool} :
    (unit.linkOperand operand isDerefrenced).isRegister = true ↔ operand.type = .register := by
  rw [TranslationUnit.linkOperand, operandContent]
  by_cases hexternal : operand.string ∈ unit.externalNames <;> cases operand.type <;>
    cases isDerefrenced <;> simp [hexternal, LinkedOperand.isRegister]

/-- Only the address of a label can be cut. -/
theorem linkOperand_cut {unit : TranslationUnit} {operand : Token} {isDerefrenced : Bool}
    (hregister : operand.type = .register) :
    (unit.linkOperand operand isDerefrenced).cut = unit.linkOperand operand isDerefrenced := by
  rw [TranslationUnit.linkOperand, operandContent, hregister]
  cases isDerefrenced <;> rfl

section Accepted

variable {lexer : Lexer} {unit placed : TranslationUnit} {analyzer : SemanticAnalyzer}
  {generator : CodeGenerator} (h : Accepted lexer unit analyzer generator placed)

include h

/-- The unit of an accepted program is well formed. -/
theorem Accepted.placed_formed : UnitFormed lexer.tokenList placed := by
  obtain ⟨-, rfl, -⟩ := h.toLaidOut.run
  exact h.formed.placed

/-- An operand alone in its word is read, its address up to the high bits. -/
theorem Accepted.readOperand_slot {token : Token} {isDerefrenced isDst : Bool}
    (hlexed : LexedToken token) {before after : List Slot}
    (hslots : placed.slots = before ++ .operand token isDerefrenced isDst :: after) :
    readOperand (externalSymbols analyzer placed) (determineAddressingMode token isDerefrenced)
        isDst ⟨startingPosition + before.length,
          slotWord analyzer placed (.operand token isDerefrenced isDst)⟩ =
      some (placed.linkOperand token isDerefrenced).cut := by
  have hslot : .operand token isDerefrenced isDst ∈ placed.slots := by
    rw [hslots]
    exact List.mem_append_right _ List.mem_cons_self
  have haccepted := h.slot_operand hslot
  rw [readOperand, decodeOperand_slotWord hlexed haccepted, TranslationUnit.linkOperand,
    operandContent]
  rcases haccepted.type with hnumber | hidentifier | hregister
  · rw [hnumber]
    rfl
  · have hname : (Slot.operand token isDerefrenced isDst).identifier = some token.string :=
      Slot.identifier_eq_some.mpr ⟨token, isDerefrenced, isDst, rfl, hidentifier, rfl⟩
    have hword := slotWord_identifier analyzer placed hname
    rw [hidentifier]
    simp only [readDirect]
    rcases h.identifier_cases hslot hname with ⟨label, hlabel, hlabelName⟩ | hexternal
    · rw [hword, h.directMemory_label hlabel hlabelName, instrOperandMemToBinary_are,
        instrOperandMemToBinary_operand, if_pos rfl, if_neg (h.name_disjoint hlabel hlabelName),
        h.positionOf hlabel hlabelName, BitVec.toNat_ofNat]
      rfl
    · obtain ⟨cell, hlookup, htype⟩ := h.lookup_external hexternal
      have hreference : slotReference analyzer (.operand token isDerefrenced isDst) =
          some token.string := by
        rw [slotReference_identifier analyzer hname, hlookup, Option.map_some, htype, if_pos rfl]
      have hemission : slotEmission analyzer placed (.operand token isDerefrenced isDst) =
          ⟨slotWord analyzer placed (.operand token isDerefrenced isDst),
            some token.string⟩ := by
        rw [slotEmission, hreference]
      have hfind := find_references (startingPosition + 1)
        (before.map (slotEmission analyzer placed))
        (slotWord analyzer placed (.operand token isDerefrenced isDst)) token.string
        (after.map (slotEmission analyzer placed))
      rw [← hemission, ← List.map_cons, ← List.map_append, ← hslots, List.length_map] at hfind
      have haddress : startingPosition + before.length + 1 =
          startingPosition + 1 + before.length := by omega
      rw [hword, h.directMemory_external hexternal, instrOperandMemToBinary_are,
        if_neg (by decide), if_pos rfl, if_pos hexternal, externalSymbols, haddress, hfind]
      rfl
  · rw [hregister]
    cases isDerefrenced <;> rfl

/-- **The words of an instruction are read as what is left of it**, whatever
follows them. -/
theorem Accepted.reads_instruction {node : InstructionNode}
    (hformed : InstructionFormed lexer.tokenList node) {before after : List Slot}
    (hslots : placed.slots = before ++ (instructionSlots node ++ after)) :
    ∃ linked, placed.linkInstruction node = some linked ∧
      PrefixCode.Reads (readInstruction (externalSymbols analyzer placed))
        (placeWords (startingPosition + before.length)
          ((instructionSlots node).map (slotWord analyzer placed))) linked.legible := by
  obtain ⟨operation, -, hoperation, htype⟩ := hformed.operation
  have hhead : ∀ address words, readInstruction (externalSymbols analyzer placed)
      (⟨address, slotWord analyzer placed (.operation node)⟩ :: words) =
        (readOperands (externalSymbols analyzer placed) node.sourceMode node.destinationMode
          words).map (fun found => (⟨operation.type, found.1.1, found.1.2⟩, found.2)) :=
    readInstruction_operation hoperation htype
  rw [InstructionNode.sourceMode, InstructionNode.destinationMode] at hhead
  rw [TranslationUnit.linkInstruction, hoperation]
  rw [instructionSlots] at hslots ⊢
  cases hfirst : node.firstOperand with
  | none =>
      cases hsecond : node.secondOperand with
      | some second => exact absurd hfirst (hformed.ordered (by simp [hsecond]))
      | none =>
          simp only [hfirst, hsecond] at hhead ⊢
          refine ⟨_, rfl, by simp [placeWords], fun rest => ?_⟩
          simp [placeWords, hhead, readOperands, LinkedInstruction.legible]
  | some first =>
      have hfirstLexed := h.lexed.lexed first (hformed.first first hfirst).mem
      cases hsecond : node.secondOperand with
      | none =>
          simp only [hfirst, hsecond] at hhead hslots ⊢
          have hread := @Accepted.readOperand_slot _ _ _ _ _ h first
            node.isFirstOperandDerefrenced true hfirstLexed (before ++ [.operation node]) after
            (by rw [hslots, List.append_assoc]; rfl)
          rw [List.length_append, List.length_singleton, ← Nat.add_assoc] at hread
          refine ⟨_, rfl, by simp [placeWords], fun rest => ?_⟩
          simp [placeWords, hhead, readOperands, hread, LinkedInstruction.legible]
      | some second =>
          have hsecondLexed := h.lexed.lexed second (hformed.second second hsecond).mem
          simp only [hfirst, hsecond] at hhead hslots ⊢
          by_cases hboth : first.type = .register ∧ second.type = .register
          · rw [if_pos hboth] at hslots ⊢
            have hread := @readOperands_registers analyzer placed
              (externalSymbols analyzer placed) _ _ hsecondLexed hboth.1 hboth.2
              node.isFirstOperandDerefrenced node.isSecondOperandDerefrenced
            refine ⟨_, rfl, by simp [placeWords], fun rest => ?_⟩
            have hsource := (@linkOperand_isRegister placed first
              node.isFirstOperandDerefrenced).mpr hboth.1
            have hdestination := (@linkOperand_isRegister placed second
              node.isSecondOperandDerefrenced).mpr hboth.2
            simp [placeWords, hhead, hread, LinkedInstruction.legible, hsource, hdestination,
              linkOperand_cut hboth.2]
          · rw [if_neg hboth] at hslots ⊢
            have hread := @Accepted.readOperand_slot _ _ _ _ _ h first
              node.isFirstOperandDerefrenced false hfirstLexed (before ++ [.operation node])
              (.operand second node.isSecondOperandDerefrenced true :: after)
              (by rw [hslots, List.append_assoc]; rfl)
            have hread' := @Accepted.readOperand_slot _ _ _ _ _ h second
              node.isSecondOperandDerefrenced true hsecondLexed
              (before ++ [.operation node, .operand first node.isFirstOperandDerefrenced false])
              after (by rw [hslots, List.append_assoc]; rfl)
            rw [List.length_append, List.length_singleton, ← Nat.add_assoc] at hread
            rw [List.length_append, List.length_cons, List.length_singleton,
              ← Nat.add_assoc] at hread'
            have hmodes : ¬ ((determineAddressingMode first
                node.isFirstOperandDerefrenced).isRegister = true ∧
                (determineAddressingMode second
                  node.isSecondOperandDerefrenced).isRegister = true) := by
              rwa [determineAddressingMode_isRegister, determineAddressingMode_isRegister]
            have hkinds : ¬ ((placed.linkOperand first
                node.isFirstOperandDerefrenced).isRegister = true ∧
                (placed.linkOperand second
                  node.isSecondOperandDerefrenced).isRegister = true) := by
              rwa [linkOperand_isRegister, linkOperand_isRegister]
            refine ⟨_, rfl, by simp [placeWords], fun rest => ?_⟩
            simp [placeWords, hhead, readOperands, hmodes, hkinds, hread, hread',
              LinkedInstruction.legible]

/-- The words of some instructions, one behind the other. -/
theorem Accepted.reads_instructions {nodes : List InstructionNode}
    (hformed : ∀ node ∈ nodes, InstructionFormed lexer.tokenList node) {before : List Slot}
    (hslots : placed.slots = before ++ nodes.flatMap instructionSlots) :
    ∃ linked, nodes.mapM placed.linkInstruction = some linked ∧
      PrefixCode.readAll (readInstruction (externalSymbols analyzer placed))
        (placeWords (startingPosition + before.length)
          ((nodes.flatMap instructionSlots).map (slotWord analyzer placed))) =
        some (linked.map LinkedInstruction.legible) := by
  induction nodes generalizing before with
  | nil => exact ⟨[], rfl, rfl⟩
  | cons node rest ih =>
      have hothers : ∀ node ∈ rest, InstructionFormed lexer.tokenList node :=
        fun node hmem => hformed node (List.mem_cons_of_mem _ hmem)
      rw [List.flatMap_cons] at hslots ⊢
      obtain ⟨first, hfirst, hreads⟩ :=
        h.reads_instruction (hformed node List.mem_cons_self) hslots
      rw [← List.append_assoc] at hslots
      obtain ⟨linked, hlinked, hread⟩ := ih hothers hslots
      refine ⟨first :: linked, ?_, ?_⟩
      · rw [List.mapM_cons, hfirst, hlinked]
        rfl
      · rw [List.length_append, ← Nat.add_assoc] at hread
        rw [List.map_append, placeWords_append, List.length_map]
        exact hreads.cons hread

/-! ## The whole program -/

theorem Accepted.instructions_formed :
    ∀ node ∈ placed.instructions, InstructionFormed lexer.tokenList node := by
  intro node hnode
  obtain ⟨label, hlabel, hnode⟩ := List.mem_flatMap.mp hnode
  obtain ⟨-, -, hall⟩ := h.placed_formed.instructions label hlabel
  exact hall node hnode

omit h in
/-- The slots of the instructions are those of the unit. -/
theorem instructions_slots (unit : TranslationUnit) :
    unit.instructions.flatMap instructionSlots = unit.slots := by
  rw [TranslationUnit.instructions, List.flatMap_assoc, TranslationUnit.slots]

omit h in
/-- The characters of an identifier. -/
theorem LexedToken.bareName {token : Token} (hlexed : LexedToken token)
    (htype : token.type = .identifier) : BareName token.string := by
  obtain ⟨-, hchars⟩ := hlexed.identifier htype
  constructor
  · intro hmem
    exact absurd (hchars _ hmem) (by decide)
  · intro hmem
    exact absurd (hchars _ hmem) (by decide)

/-- The names in the external file are operands of the program. -/
theorem Accepted.externalSymbols_bare :
    ∀ symbol ∈ externalSymbols analyzer placed, BareName symbol.name := by
  have hname : ∀ {position : Nat} {emissions : List Emission} {symbol : SymbolAddress},
      symbol ∈ references position emissions →
        ∃ emission ∈ emissions, emission.reference = some symbol.name := by
    intro position emissions symbol hmem
    induction emissions generalizing position with
    | nil => exact absurd hmem List.not_mem_nil
    | cons emission rest ih =>
        rw [references] at hmem
        rcases List.mem_append.mp hmem with hmem | hmem
        · rw [Option.mem_toList, Option.map_eq_some_iff] at hmem
          obtain ⟨name, hreference, rfl⟩ := hmem
          exact ⟨emission, List.mem_cons_self, hreference⟩
        · obtain ⟨other, hother, hreference⟩ := ih hmem
          exact ⟨other, List.mem_cons_of_mem _ hother, hreference⟩
  intro symbol hsymbol
  obtain ⟨emission, hemission, hreference⟩ := hname hsymbol
  obtain ⟨slot, hslot, rfl⟩ := List.mem_map.mp hemission
  have hidentifier : slot.identifier = some symbol.name := by
    cases hcase : slot.identifier with
    | none =>
        rw [slotEmission, slotReference_none analyzer hcase] at hreference
        cases hreference
    | some name =>
        rw [slotEmission, slotReference_identifier analyzer hcase] at hreference
        simp only at hreference
        split_ifs at hreference with hexternal
        rw [Option.some.inj hreference]
  obtain ⟨token, isDerefrenced, isDst, rfl, htype, hstring⟩ :=
    Slot.identifier_eq_some.mp hidentifier
  rw [← instructions_slots] at hslot
  obtain ⟨node, hnode, hslot⟩ := List.mem_flatMap.mp hslot
  have hformed := h.instructions_formed node hnode
  rw [← hstring]
  rcases mem_instructionSlots hslot with ⟨hfirst, -⟩ | ⟨hsecond, -⟩
  · exact (h.lexed.lexed token (hformed.first token hfirst).mem).bareName htype
  · exact (h.lexed.lexed token (hformed.second token hsecond).mem).bareName htype

/-- The names of the entries have no blank. -/
theorem Accepted.entrySymbols_bare : ∀ symbol ∈ entrySymbols placed, BareName symbol.name := by
  intro symbol hsymbol
  obtain ⟨name, hname, rfl⟩ := List.mem_map.mp hsymbol
  obtain ⟨node, hnode, hstring⟩ := List.mem_filterMap.mp (newNames_subset _ _ hname)
  obtain ⟨-, token, htoken, hformed⟩ := h.placed_formed.entries node hnode
  rw [htoken] at hstring
  obtain rfl := Option.some.inj hstring
  exact (h.lexed.lexed token hformed.mem).bareName hformed.type

/-- Where the labels are has nothing to do with the data. -/
theorem Accepted.placed_dataValues : placed.dataValues = unit.dataValues := by
  obtain ⟨-, rfl, -⟩ := h.toLaidOut.run
  exact placeLabels_flatMap (fun _ _ _ => rfl) _ _

/-- The values of the data segment are those of the directives. -/
theorem Accepted.values_eq : placed.values = placed.dataValues := by
  rw [h.placed_dataValues, ← h.dataValues_eq]
  obtain ⟨-, rfl, -⟩ := h.toLaidOut.run
  exact placed_values unit

/-- The data is read as it was written. -/
theorem Accepted.values_read :
    (placeWords (startingPosition + placed.slots.length) (placed.values.map valueWord)).map
      (fun word => word.word.toInt) = placed.dataValues := by
  rw [← Function.comp_def BitVec.toInt PlacedWord.word, ← List.map_map, placeWords_word,
    List.map_map, h.values_eq, h.placed_dataValues]
  refine (List.map_congr_left fun value hvalue => ?_).trans (List.map_id _)
  have hbounds := h.dataValues_bounds value hvalue
  exact valueWord_toInt hbounds.1 hbounds.2

/-- **What can be read of a program in its three files.** -/
theorem Accepted.readProgram_legible : ∃ program, placed.linkedProgram = some program ∧
    readProgram (objectFileText analyzer placed) (symbolText (externalSymbols analyzer placed))
      (symbolText (entrySymbols placed)) = some program.legible := by
  have hslots : placed.slots = [] ++ placed.instructions.flatMap instructionSlots := by
    rw [instructions_slots, List.nil_append]
  obtain ⟨linked, hlinked, hread⟩ := h.reads_instructions h.instructions_formed hslots
  rw [List.length_nil, Nat.add_zero, instructions_slots] at hread
  refine ⟨_, by rw [TranslationUnit.linkedProgram, hlinked]; rfl, ?_⟩
  have hentries : (entrySymbols placed).map
      (fun symbol => (⟨symbol.name, symbol.address - startingPosition⟩ : SymbolAddress)) =
        (newNames [] placed.entryNames).map (fun name => ⟨name, placed.positionOf name⟩) := by
    rw [entrySymbols, List.map_map]
    apply List.map_congr_left
    intro name _
    rw [Function.comp_apply, Nat.add_sub_cancel]
  rw [readProgram, readObjectFile_objectFileText,
    readSymbols_symbolText h.externalSymbols_bare, readSymbols_symbolText h.entrySymbols_bare]
  simp only [bind, Option.bind_some, hread, h.values_read, hentries]
  rfl

/-! ## What is lost -/

/-- The place of a label that the slot names has twelve bits. -/
def Slot.Fits (unit : TranslationUnit) (slot : Slot) : Prop :=
  ∀ label ∈ unit.labels, slot.identifier ≠ none ∧ slot.identifier = label.name →
    label.position < 2 ^ 12

/-- An operand is cut without a loss where its reference fits. -/
theorem Accepted.linkOperand_cut_iff {token : Token} {isDerefrenced isDst : Bool}
    (hslot : .operand token isDerefrenced isDst ∈ placed.slots) :
    (placed.linkOperand token isDerefrenced).cut = placed.linkOperand token isDerefrenced ↔
      Slot.Fits placed (.operand token isDerefrenced isDst) := by
  by_cases hidentifier : token.type = .identifier
  · have hname : (Slot.operand token isDerefrenced isDst).identifier = some token.string :=
      Slot.identifier_eq_some.mpr ⟨token, isDerefrenced, isDst, rfl, hidentifier, rfl⟩
    rw [TranslationUnit.linkOperand, operandContent, hidentifier, Slot.Fits, hname]
    rcases h.identifier_cases hslot hname with ⟨label, hlabel, hlabelName⟩ | hexternal
    · have hcut : (LinkedOperand.label label.position).cut = .label label.position ↔
          label.position < 2 ^ 12 := by
        rw [LinkedOperand.cut, LinkedOperand.label.injEq, Nat.mod_eq_iff_lt (by decide)]
      simp only [if_neg (h.name_disjoint hlabel hlabelName), h.positionOf hlabel hlabelName]
      rw [hcut]
      constructor
      · intro hlt other hother hnamed
        rwa [h.label_unique hother hlabel hnamed.2.symm hlabelName]
      · intro hall
        exact hall label hlabel ⟨Option.some_ne_none _, hlabelName.symm⟩
    · simp only [if_pos hexternal]
      apply iff_of_true rfl
      intro label hlabel hnamed
      exact absurd hexternal (h.name_disjoint hlabel hnamed.2.symm)
  · apply iff_of_true
    · rw [TranslationUnit.linkOperand, operandContent]
      rcases (h.slot_operand hslot).type with hnumber | hname | hregister
      · rw [hnumber]
        rfl
      · exact absurd hname hidentifier
      · rw [hregister]
        cases isDerefrenced <;> rfl
    · intro label _ hnamed
      rw [Slot.identifier, if_neg hidentifier] at hnamed
      exact absurd rfl hnamed.1

omit h in
/-- A register is cleared without a loss if it is `r0`. -/
theorem linkOperand_cleared_iff {token : Token} (hregister : token.type = .register)
    (isDerefrenced : Bool) : (placed.linkOperand token isDerefrenced).cleared =
      placed.linkOperand token isDerefrenced ↔ registerNumber token = 0 := by
  rw [TranslationUnit.linkOperand, operandContent, hregister]
  cases isDerefrenced <;> simp [LinkedOperand.cleared, eq_comm]

/-- Nothing of an instruction is lost if its source register and its addresses
are kept. -/
theorem Accepted.legible_iff {node : InstructionNode} (hnode : node ∈ placed.instructions)
    {linked : LinkedInstruction} (hlinked : placed.linkInstruction node = some linked) :
    linked.legible = linked ↔ KeepsSource node ∧
      ∀ slot ∈ instructionSlots node, Slot.Fits placed slot := by
  have hformed := h.instructions_formed node hnode
  obtain ⟨operation, -, hoperation, -⟩ := hformed.operation
  have hslot : ∀ slot ∈ instructionSlots node, slot ∈ placed.slots := by
    intro slot hmem
    rw [← instructions_slots]
    exact List.mem_flatMap.mpr ⟨node, hnode, hmem⟩
  have hplain : Slot.Fits placed (.operation node) :=
    fun label _ hnamed => absurd rfl hnamed.1
  rw [TranslationUnit.linkInstruction, hoperation] at hlinked
  rw [instructionSlots] at hslot ⊢
  rw [KeepsSource]
  cases hfirst : node.firstOperand with
  | none =>
      cases hsecond : node.secondOperand with
      | some second => exact absurd hfirst (hformed.ordered (by simp [hsecond]))
      | none =>
          simp only [hfirst, hsecond] at hlinked ⊢
          obtain rfl := Option.some.inj hlinked
          simp [LinkedInstruction.legible, hplain]
  | some first =>
      cases hsecond : node.secondOperand with
      | none =>
          simp only [hfirst, hsecond] at hlinked hslot ⊢
          obtain rfl := Option.some.inj hlinked
          have hfits := h.linkOperand_cut_iff (hslot (.operand first
            node.isFirstOperandDerefrenced true) (by simp))
          simp [LinkedInstruction.legible, hplain, hfits]
      | some second =>
          simp only [hfirst, hsecond] at hlinked hslot ⊢
          obtain rfl := Option.some.inj hlinked
          by_cases hboth : first.type = .register ∧ second.type = .register
          · have hshared : Slot.Fits placed (.registers first second) :=
              fun label _ hnamed => absurd rfl hnamed.1
            have hsource := (@linkOperand_isRegister placed first
              node.isFirstOperandDerefrenced).mpr hboth.1
            have hdestination := (@linkOperand_isRegister placed second
              node.isSecondOperandDerefrenced).mpr hboth.2
            simp [LinkedInstruction.legible, hboth, hplain, hshared, hsource, hdestination,
              linkOperand_cut hboth.2, linkOperand_cleared_iff hboth.1]
          · rw [if_neg hboth] at hslot ⊢
            have hfits := h.linkOperand_cut_iff (hslot (.operand first
              node.isFirstOperandDerefrenced false) (by simp))
            have hfits' := h.linkOperand_cut_iff (hslot (.operand second
              node.isSecondOperandDerefrenced true) (by simp))
            have hkinds : ¬ ((placed.linkOperand first
                node.isFirstOperandDerefrenced).isRegister = true ∧
                (placed.linkOperand second
                  node.isSecondOperandDerefrenced).isRegister = true) := by
              rwa [linkOperand_isRegister, linkOperand_isRegister]
            simp [LinkedInstruction.legible, hplain, hkinds, hfits, hfits']
            exact fun _ _ hsource hdestination => absurd ⟨hsource, hdestination⟩ hboth

omit h in
/-- What holds of all results holds of all arguments, put in their words. -/
theorem mapM_forall_iff {α β : Type} {f : α → Option β} {P : β → Prop} {Q : α → Prop}
    {xs : List α} {ys : List β} (h : xs.mapM f = some ys)
    (hiff : ∀ x ∈ xs, ∀ y, f x = some y → (P y ↔ Q x)) : (∀ y ∈ ys, P y) ↔ ∀ x ∈ xs, Q x := by
  induction xs generalizing ys with
  | nil =>
      obtain rfl := Option.some.inj h
      simp
  | cons x xs ih =>
      rw [List.mapM_cons] at h
      obtain ⟨y, hy, h⟩ := Option.bind_eq_some_iff.mp h
      obtain ⟨others, hothers, h⟩ := Option.bind_eq_some_iff.mp h
      obtain rfl := Option.some.inj h
      have hrest := ih hothers fun x hx => hiff x (List.mem_cons_of_mem _ hx)
      rw [List.forall_mem_cons, List.forall_mem_cons, hrest, hiff x List.mem_cons_self y hy]

omit h in
/-- A program is legible if all its instructions are. -/
theorem LinkedProgram.legible_iff (program : LinkedProgram) : program.legible = program ↔
    ∀ instruction ∈ program.instructions, instruction.legible = instruction := by
  have hmap : program.instructions.map LinkedInstruction.legible = program.instructions ↔
      ∀ instruction ∈ program.instructions, instruction.legible = instruction := by
    have hid := @List.map_inj_left _ _ program.instructions LinkedInstruction.legible id
    rwa [List.map_id] at hid
  rw [← hmap]
  constructor
  · intro heq
    exact congrArg LinkedProgram.instructions heq
  · intro heq
    rw [LinkedProgram.legible, heq]

omit h in
/-- The references of a unit are those of its instructions. -/
theorem referencesFit_instructions : ReferencesFit placed ↔
    ∀ node ∈ placed.instructions, ∀ slot ∈ instructionSlots node, Slot.Fits placed slot := by
  have hall : ReferencesFit placed ↔ ∀ slot ∈ placed.slots, Slot.Fits placed slot := Iff.rfl
  rw [hall, ← instructions_slots]
  simp only [List.mem_flatMap, forall_exists_index, and_imp]
  exact ⟨fun hfits node hnode slot hslot => hfits slot node hnode hslot,
    fun hfits slot node hnode hslot => hfits node hnode slot hslot⟩

/-- **What is read back from the three files**: the program with some source registers
and the high bits of some addresses gone, and the program itself exactly if no source
register but `r0` shares its word and every address that an operand names has twelve
bits. -/
theorem Accepted.readProgram_iff : ∃ program, placed.linkedProgram = some program ∧
    readProgram (objectFileText analyzer placed) (symbolText (externalSymbols analyzer placed))
        (symbolText (entrySymbols placed)) = some program.legible ∧
      (program.legible = program ↔
        (∀ node ∈ placed.instructions, KeepsSource node) ∧ ReferencesFit placed) := by
  obtain ⟨program, hprogram, hread⟩ := h.readProgram_legible
  refine ⟨program, hprogram, hread, ?_⟩
  rw [LinkedProgram.legible_iff, referencesFit_instructions, ← forall₂_and]
  rw [TranslationUnit.linkedProgram] at hprogram
  obtain ⟨linked, hlinked, hprogram⟩ := Option.bind_eq_some_iff.mp hprogram
  obtain rfl := Option.some.inj hprogram
  exact mapM_forall_iff hlinked fun node hnode instruction hinstruction =>
    h.legible_iff hnode hinstruction

end Accepted

end Assembler
