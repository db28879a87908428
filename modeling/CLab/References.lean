import CLab.Layout
import Mathlib.Data.List.Forall2

/-!
# The words that refer to symbols

An operand that names a label is written with the label's position, cut to
twelve bits, and one that names an external with a zero and a line in the
external file.  So a label is referred to correctly exactly if its position fits
(`slotWord_resolved_iff`).  The line of an external gives the address behind its
word, so the lines agree with the words only where there are none.
-/

namespace Assembler

/-! ## Names in a unit -/

/-- The name of a label, if it has one. -/
def LabelNode.name (label : LabelNode) : Option CString := label.label.map Token.string

/-- The labels of a unit, instructions first. -/
def TranslationUnit.labels (unit : TranslationUnit) : List LabelNode :=
  unit.instructionLabelList ++ unit.guidanceLabelList

/-- The identifier whose word a slot is. -/
def Slot.identifier : Slot → Option CString
  | .operand token _ _ => if token.type = .identifier then some token.string else none
  | .operation _ | .registers _ _ => none

/-- A slot names an identifier where its operand is one. -/
theorem Slot.identifier_eq_some {slot : Slot} {name : CString} :
    slot.identifier = some name ↔ ∃ operand isDerefrenced isDst,
      slot = .operand operand isDerefrenced isDst ∧ operand.type = .identifier ∧
        operand.string = name := by
  cases slot with
  | operation node => simp [Slot.identifier]
  | registers source destination => simp [Slot.identifier]
  | operand operand isDerefrenced isDst =>
      by_cases htype : operand.type = .identifier <;> simp [Slot.identifier, htype]

/-- Members of a list with one name are the same, if the names are distinct. -/
theorem eq_of_nodup_filterMap {α β : Type} {f : α → Option β} {xs : List α}
    (h : (xs.filterMap f).Nodup) {x y : α} (hx : x ∈ xs) (hy : y ∈ xs) {b : β}
    (hfx : f x = some b) (hfy : f y = some b) : x = y := by
  induction xs with
  | nil => simp at hx
  | cons z zs ih =>
      have hmem : ∀ {w : α}, w ∈ zs → f w = some b → b ∈ zs.filterMap f :=
        fun hw hfw => List.mem_filterMap.mpr ⟨_, hw, hfw⟩
      rcases List.mem_cons.mp hx with hxz | hxz
      · rcases List.mem_cons.mp hy with hyz | hyz
        · exact hxz.trans hyz.symm
        · rw [List.filterMap_cons_some (hxz ▸ hfx)] at h
          exact absurd (hmem hyz hfy) (List.nodup_cons.mp h).1
      · rcases List.mem_cons.mp hy with hyz | hyz
        · rw [List.filterMap_cons_some (hyz ▸ hfy)] at h
          exact absurd (hmem hxz hfx) (List.nodup_cons.mp h).1
        · refine ih ?_ hxz hyz
          exact h.sublist (List.Sublist.filterMap f (List.sublist_cons_self z zs))

/-- The names of the labels are those of the list of labels. -/
theorem labelNames_eq (unit : TranslationUnit) :
    unit.labelNames = unit.labels.filterMap LabelNode.name := rfl

theorem placed_labelNames (unit : TranslationUnit) : unit.placed.labelNames = unit.labelNames := by
  have hnames : ∀ (position : Nat) (labels : List LabelNode),
      (placeLabels position labels).filterMap LabelNode.name = labels.filterMap LabelNode.name := by
    intro position labels
    have hmap := placeLabels_map (fun (_ : LabelNode) _ _ => rfl) position labels
      (f := LabelNode.name)
    have hid := congrArg (List.filterMap id) hmap
    rwa [List.filterMap_map, List.filterMap_map] at hid
  rw [labelNames_eq, labelNames_eq, TranslationUnit.labels, TranslationUnit.labels,
    List.filterMap_append, List.filterMap_append]
  exact congrArg₂ _ (hnames _ _) (hnames _ _)

/-- An operand alone in its word is one of the two of its instruction. -/
theorem mem_instructionSlots {node : InstructionNode} {token : Token}
    {isDerefrenced isDst : Bool}
    (h : .operand token isDerefrenced isDst ∈ instructionSlots node) :
    (node.firstOperand = some token ∧ isDerefrenced = node.isFirstOperandDerefrenced) ∨
      (node.secondOperand = some token ∧ isDerefrenced = node.isSecondOperandDerefrenced) := by
  rw [instructionSlots] at h
  cases hfirst : node.firstOperand <;> cases hsecond : node.secondOperand <;>
    rw [hfirst, hsecond] at h
  · simp at h
  · simp at h
  · simp only [List.mem_cons, reduceCtorEq, false_or, Slot.operand.injEq, List.not_mem_nil,
      or_false] at h
    exact Or.inl ⟨by rw [h.1], h.2.1⟩
  · simp only at h
    split_ifs at h
    · simp at h
    · simp only [List.mem_cons, reduceCtorEq, false_or, Slot.operand.injEq, List.not_mem_nil,
        or_false] at h
      rcases h with ⟨rfl, rfl, -⟩ | ⟨rfl, rfl, -⟩
      · exact Or.inl ⟨rfl, rfl⟩
      · exact Or.inr ⟨rfl, rfl⟩

/-- A word of registers is absolute. -/
theorem handleRegisterMode_are (token : Token) (memory : InstructionOperandMemory)
    (isDst : Bool) : (handleRegisterMode token memory isDst).are = 4 := by
  cases isDst <;> rfl

/-- The word of an identifier. -/
theorem slotWord_identifier (analyzer : SemanticAnalyzer) (unit : TranslationUnit) {slot : Slot}
    {name : CString} (hname : slot.identifier = some name) :
    slotWord analyzer unit slot =
      wordOf (instrOperandMemToBinary (directMemory analyzer unit name)) := by
  obtain ⟨token, isDerefrenced, isDst, rfl, htype, rfl⟩ := Slot.identifier_eq_some.mp hname
  rw [slotWord, determineAddressingMode_direct.mpr htype]
  rfl

/-- The words of the other slots are absolute. -/
theorem slotWord_absolute (analyzer : SemanticAnalyzer) (unit : TranslationUnit) {slot : Slot}
    (hname : slot.identifier = none) : (slotWord analyzer unit slot).are = 4 := by
  cases slot with
  | operation node =>
      rw [slotWord, instrMemToBinary_are, operationMemory]
      cases node.firstOperand <;> cases node.secondOperand <;> rfl
  | registers source destination =>
      rw [slotWord, instrOperandMemToBinary_are, handleRegisterMode_are]
  | operand token isDerefrenced isDst =>
      have hmode : determineAddressingMode token isDerefrenced ≠ .direct := by
        intro hdirect
        simp [Slot.identifier, determineAddressingMode_direct.mp hdirect] at hname
      rw [slotWord, instrOperandMemToBinary_are]
      cases hcase : determineAddressingMode token isDerefrenced with
      | direct => exact absurd hcase hmode
      | immediate => rfl
      | directRegister | indirectRegister => exact handleRegisterMode_are _ _ _

/-! ## Symbols of an accepted program -/

section Accepted

variable {lexer : Lexer} {unit placed : TranslationUnit} {analyzer : SemanticAnalyzer}
  {generator : CodeGenerator} (h : Accepted lexer unit analyzer generator placed)

include h

/-- The slots of an accepted program are those of the parsed unit. -/
theorem Accepted.slots_eq : placed.slots = unit.slots := by
  obtain ⟨-, rfl, -⟩ := h.toLaidOut.run
  exact placed_slots unit

/-- A label is found by its name, at its place. -/
theorem Accepted.lookup_label {label : LabelNode} (hlabel : label ∈ placed.labels)
    {name : CString} (hname : label.name = some name) :
    ∃ cell, analyzer.lookup name = some cell ∧ cell.type = .label ∧
      placed.labelAt cell.value = some label := by
  obtain ⟨htable, hnodup, -, -⟩ := h.run
  obtain ⟨-, rfl, -⟩ := h.toLaidOut.run
  have hmem : name ∈ unit.labelNames := by
    rw [← placed_labelNames, labelNames_eq]
    exact List.mem_filterMap.mpr ⟨label, hlabel, hname⟩
  obtain ⟨cell, hcell, htype⟩ := (firstDeclaration_label_iff unit name).mpr hmem
  obtain ⟨node, hnode, hat, hnodeName⟩ := firstDeclaration_labelAt hcell htype
  rw [← htable.lookup] at hcell
  have hdistinct : (unit.placed.labels.filterMap LabelNode.name).Nodup := by
    rw [← labelNames_eq, placed_labelNames]
    exact (List.nodup_append.mp hnodup).1
  have hsame : node = label := eq_of_nodup_filterMap hdistinct hnode hlabel hnodeName hname
  exact ⟨cell, hcell, htype, hsame ▸ hat⟩

/-- An external is found by its name. -/
theorem Accepted.lookup_external {name : CString} (hname : name ∈ placed.externalNames) :
    ∃ cell, analyzer.lookup name = some cell ∧ cell.type = .external := by
  obtain ⟨htable, hnodup, -, -⟩ := h.run
  obtain ⟨-, rfl, -⟩ := h.toLaidOut.run
  have hname' : name ∈ unit.externalNames := hname
  cases hlookup : analyzer.lookup name with
  | none =>
      rw [htable.lookup, firstDeclaration_none, declarations_keys] at hlookup
      exact absurd (List.mem_append_right _ hname') hlookup
  | some cell =>
      refine ⟨cell, rfl, ?_⟩
      cases htype : cell.type with
      | external => rfl
      | label =>
          have hlabel := (firstDeclaration_label_iff unit name).mp
            ⟨cell, htable.lookup name ▸ hlookup, htype⟩
          exact absurd rfl ((List.nodup_append.mp hnodup).2.2 name hlabel name hname')

/-- A name that is found is a label or an external. -/
theorem Accepted.lookup_known {name : CString} (hknown : analyzer.knows name) :
    (∃ label ∈ placed.labels, label.name = some name) ∨ name ∈ placed.externalNames := by
  obtain ⟨htable, -, -, -⟩ := h.run
  obtain ⟨-, rfl, -⟩ := h.toLaidOut.run
  have hlookup : analyzer.lookup name ≠ none :=
    fun hnone => hknown ((find_eq_none_iff htable.placed).mpr hnone)
  rw [htable.lookup, Ne, firstDeclaration_none, not_not, declarations_keys] at hlookup
  rcases List.mem_append.mp hlookup with hmem | hmem
  · rw [← placed_labelNames, labelNames_eq] at hmem
    exact Or.inl (List.mem_filterMap.mp hmem)
  · exact Or.inr hmem

/-- The operands of an accepted program are accepted. -/
theorem Accepted.slot_operand {token : Token} {isDerefrenced isDst : Bool}
    (hslot : .operand token isDerefrenced isDst ∈ placed.slots) :
    OperandAccepted analyzer.knows token isDerefrenced := by
  obtain ⟨-, -, -, haccepted⟩ := h.run
  rw [h.slots_eq] at hslot
  obtain ⟨label, hlabel, hslot⟩ := List.mem_flatMap.mp hslot
  obtain ⟨node, hnode, hslot⟩ := List.mem_flatMap.mp hslot
  have hinstruction := (haccepted label (List.mem_append_left _ hlabel)).1 node hnode
  rcases mem_instructionSlots hslot with ⟨hfirst, rfl⟩ | ⟨hsecond, rfl⟩
  · exact hinstruction.first token hfirst
  · exact hinstruction.second token hsecond

/-- The word of a label holds its position. -/
theorem Accepted.directMemory_label {label : LabelNode} (hlabel : label ∈ placed.labels)
    {name : CString} (hname : label.name = some name) :
    directMemory analyzer placed name =
      { are := 2, operandValue := BitVec.ofNat 12 label.position } := by
  obtain ⟨cell, hlookup, htype, hat⟩ := h.lookup_label hlabel hname
  rw [directMemory, hlookup]
  simp [htype, TranslationUnit.positionAt, hat]

theorem Accepted.directMemory_external {name : CString} (hname : name ∈ placed.externalNames) :
    directMemory analyzer placed name = { are := 1, operandValue := 0 } := by
  obtain ⟨cell, hlookup, htype⟩ := h.lookup_external hname
  rw [directMemory, hlookup]
  simp [htype]

/-- A label is not an external. -/
theorem Accepted.name_disjoint {label : LabelNode} (hlabel : label ∈ placed.labels)
    {name : CString} (hname : label.name = some name) : name ∉ placed.externalNames := by
  intro hexternal
  obtain ⟨cell, hlookup, htype, -⟩ := h.lookup_label hlabel hname
  obtain ⟨cell', hlookup', htype'⟩ := h.lookup_external hexternal
  obtain rfl := Option.some.inj (hlookup.symm.trans hlookup')
  exact absurd (htype.symm.trans htype') (by decide)

/-- An identifier of the program is a label or an external. -/
theorem Accepted.identifier_cases {slot : Slot} (hslot : slot ∈ placed.slots) {name : CString}
    (hname : slot.identifier = some name) :
    (∃ label ∈ placed.labels, label.name = some name) ∨ name ∈ placed.externalNames := by
  obtain ⟨token, isDerefrenced, isDst, rfl, htype, rfl⟩ := Slot.identifier_eq_some.mp hname
  exact h.lookup_known ((h.slot_operand hslot).identifier htype).2

end Accepted

/-! ## Addresses of labels -/

/-- What the word of a slot must hold. -/
structure SlotResolved (unit : TranslationUnit) (slot : Slot) (word : Word) : Prop where
  are : word.are ≠ 0
  label : ∀ name, slot.identifier = some name → ∀ label ∈ unit.labels, label.name = some name →
    word.are = 2 ∧ word.operand.toNat = label.position
  external : ∀ name, slot.identifier = some name → name ∈ unit.externalNames →
    word.are = 1 ∧ word.operand = 0

/-- The words of the instructions hold the right addresses. -/
def ReferencesResolve (unit : TranslationUnit) (result : ObjectGenerated) : Prop :=
  ∃ image, readObject result.generator.objectFile.data = some image ∧
    List.Forall₂ (SlotResolved unit) unit.slots
      ((image.take result.instructionLines).map PlacedWord.word)

/-- Every label that an operand names has a position of twelve bits. -/
def ReferencesFit (unit : TranslationUnit) : Prop :=
  ∀ slot ∈ unit.slots, ∀ label ∈ unit.labels,
    slot.identifier ≠ none ∧ slot.identifier = label.name → label.position < 2 ^ 12

instance (unit : TranslationUnit) : Decidable (ReferencesFit unit) :=
  inferInstanceAs (Decidable (∀ slot ∈ unit.slots, ∀ label ∈ unit.labels,
    slot.identifier ≠ none ∧ slot.identifier = label.name → label.position < 2 ^ 12))

section Addresses

variable {lexer : Lexer} {unit placed : TranslationUnit} {analyzer : SemanticAnalyzer}
  {generator : CodeGenerator} (h : Accepted lexer unit analyzer generator placed)

include h

/-- **A slot is resolved exactly if the position of its label fits.** -/
theorem Accepted.slotWord_resolved_iff {slot : Slot} (hslot : slot ∈ placed.slots) :
    SlotResolved placed slot (slotWord analyzer placed slot) ↔
      ∀ label ∈ placed.labels, slot.identifier ≠ none ∧ slot.identifier = label.name →
        label.position < 2 ^ 12 := by
  constructor
  · intro hresolved label hlabel hnamed
    obtain ⟨name, hname⟩ := Option.ne_none_iff_exists'.mp hnamed.1
    obtain ⟨-, hposition⟩ :=
      hresolved.label name hname label hlabel (hnamed.2.symm.trans hname)
    rw [← hposition]
    exact BitVec.isLt _
  · intro hfits
    cases hname : slot.identifier with
    | none =>
        refine ⟨?_, by simp [hname], by simp [hname]⟩
        rw [slotWord_absolute analyzer placed hname]
        decide
    | some name =>
        have hword := slotWord_identifier analyzer placed hname
        have hlabelWord : ∀ label ∈ placed.labels, label.name = some name →
            (slotWord analyzer placed slot).are = 2 ∧
              (slotWord analyzer placed slot).operand.toNat = label.position := by
          intro label hlabel hlabelName
          have hlt := hfits label hlabel ⟨by simp [hname], hname.trans hlabelName.symm⟩
          rw [hword, h.directMemory_label hlabel hlabelName, instrOperandMemToBinary_are,
            instrOperandMemToBinary_operand, BitVec.toNat_ofNat, Nat.mod_eq_of_lt hlt]
          exact ⟨rfl, rfl⟩
        have hexternalWord : name ∈ placed.externalNames →
            (slotWord analyzer placed slot).are = 1 ∧
              (slotWord analyzer placed slot).operand = 0 := by
          intro hexternal
          rw [hword, h.directMemory_external hexternal, instrOperandMemToBinary_are,
            instrOperandMemToBinary_operand]
          exact ⟨rfl, rfl⟩
        refine ⟨?_, ?_, ?_⟩
        · rcases h.identifier_cases hslot hname with ⟨label, hlabel, hlabelName⟩ | hexternal
          · rw [(hlabelWord label hlabel hlabelName).1]
            decide
          · rw [(hexternalWord hexternal).1]
            decide
        · intro name' hname' label hlabel hlabelName
          obtain rfl := Option.some.inj (hname.symm.trans hname')
          exact hlabelWord label hlabel hlabelName
        · intro name' hname' hexternal
          obtain rfl := Option.some.inj (hname.symm.trans hname')
          exact hexternalWord hexternal

/-- The words of the instructions in the object file. -/
theorem Accepted.instructionWords {result : ObjectGenerated}
    (hrun : generateObjectAndExternalFiles generator analyzer placed = .ok result) :
    ∃ image, readObject result.generator.objectFile.data = some image ∧
      image.take result.instructionLines =
        placeWords startingPosition (placed.slots.map (slotWord analyzer placed)) := by
  obtain ⟨final, hfinal, hread, -⟩ := h.files
  obtain rfl := Except.ok.inj (hrun.symm.trans hfinal)
  exact ⟨_, hread, List.take_left' (by simp)⟩

/-- The words hold the right addresses exactly if every slot is resolved. -/
theorem Accepted.referencesResolve_slots {result : ObjectGenerated}
    (hrun : generateObjectAndExternalFiles generator analyzer placed = .ok result) :
    ReferencesResolve placed result ↔
      ∀ slot ∈ placed.slots, SlotResolved placed slot (slotWord analyzer placed slot) := by
  obtain ⟨image, hread, himage⟩ := h.instructionWords hrun
  have hsame : ReferencesResolve placed result ↔ List.Forall₂ (SlotResolved placed) placed.slots
      ((image.take result.instructionLines).map PlacedWord.word) := by
    constructor
    · intro hresolve
      obtain ⟨image', hread', hall⟩ := hresolve
      obtain rfl := Option.some.inj (hread.symm.trans hread')
      exact hall
    · intro hall
      exact ⟨image, hread, hall⟩
  rw [hsame, himage, placeWords_word, List.forall₂_map_right_iff, List.forall₂_same]

end Addresses

/-- **References to symbols are resolved exactly if the positions of the labels
fit in twelve bits.** -/
theorem generateObjectAndExternalFiles_resolves_iff {lexer : Lexer}
    {unit placed : TranslationUnit} {analyzer : SemanticAnalyzer} {generator : CodeGenerator}
    (h : Accepted lexer unit analyzer generator placed) : ∃ result,
    generateObjectAndExternalFiles generator analyzer placed = .ok result ∧
      (ReferencesResolve placed result ↔ ReferencesFit placed) := by
  obtain ⟨final, hrun, -, -⟩ := h.files
  refine ⟨_, hrun, (h.referencesResolve_slots hrun).trans ?_⟩
  exact forall₂_congr (fun slot hslot => h.slotWord_resolved_iff hslot)

/-- A label, an external and a register. -/
theorem generateObjectAndExternalFiles_resolves_iff_sample :
    ∃ unit analyzer generator placed,
      Accepted (sampleLexer "A: mov r1, X\njmp E\n.extern E\nX: .data 1\n") unit analyzer
        generator placed ∧
      ∃ result, generateObjectAndExternalFiles generator analyzer placed = .ok result ∧
        (ReferencesResolve placed result ↔ ReferencesFit placed) := by
  have haccepts : acceptsWith (fun _ => true)
      (sampleLexer "A: mov r1, X\njmp E\n.extern E\nX: .data 1\n") = true := by decide +kernel
  obtain ⟨unit, analyzer, generator, placed, h, -⟩ := exists_accepted (.file _ _) haccepts
  exact ⟨unit, analyzer, generator, placed, h, generateObjectAndExternalFiles_resolves_iff h⟩

/-- A jump over a string of 4000 characters. -/
def overflowText : CString where
  data := bytes "A: jmp B\nX: .string \"" ++ List.replicate 4000 'a'.toUInt8 ++
    bytes "\"\nB: .data 1\n" ++ [eofChar]
  noNul := by
    rw [List.mem_append, List.mem_append, List.mem_append, List.mem_replicate]
    decide

/-- The lexer behind that text. -/
def overflowLexer : Lexer := lexerAnalyze (lexerInitializeFromString "sample" overflowText)

/-- The lexer on the text, lexeme by lexeme. -/
theorem overflowLexer_eq : overflowLexer =
    (lexerInitializeFromString "sample" overflowText).takeAll
      (lexemesOf 5000 overflowText.data) := by
  have hrest : (lexerInitializeFromString "sample" overflowText).rest = overflowText.data := by
    simp [Lexer.rest, lexerInitializeFromString]
  have hsynced : (lexerInitializeFromString "sample" overflowText).Synced := rfl
  rw [overflowLexer, ← hrest]
  apply lexerAnalyze_lexemesOf hsynced
  rw [hrest, overflowText]
  simp only [List.length_append, List.length_replicate]
  decide

/-- **A label behind more than four thousand words** is referred to by the low
bits of its position. -/
theorem resolves_not_overflow : ∃ unit analyzer generator placed result,
    Accepted overflowLexer unit analyzer generator placed ∧
      generateObjectAndExternalFiles generator analyzer placed = .ok result ∧
      ¬ ReferencesResolve placed result := by
  have haccepts : acceptsWith (fun run => decide (¬ ReferencesFit run.2.2.2)) overflowLexer =
      true := by
    rw [overflowLexer_eq]
    decide +kernel
  obtain ⟨unit, analyzer, generator, placed, h, hcheck⟩ := exists_accepted (.string _ _) haccepts
  obtain ⟨final, hrun, -, -⟩ := h.files
  refine ⟨unit, analyzer, generator, placed, _, h, hrun, ?_⟩
  rw [h.referencesResolve_slots hrun]
  intro hresolved
  apply of_decide_eq_true hcheck
  exact fun slot hslot => (h.slotWord_resolved_iff hslot).mp (hresolved slot hslot)

end Assembler
