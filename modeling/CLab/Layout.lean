import CLab.Emission
import CLab.LexerTokens

/-!
# The layout of the memory

The first pass gives every label the number of words that the second pass
writes for it, and the sum of the sizes in front of it as its position
(`updateLabelList_cases`).  So the second pass is at a label's position when it
comes to the label (`generateObjectAndExternalFiles_layout`).
-/

namespace Assembler

/-! ## Sizes -/

/-- The size of an instruction is the number of its slots. -/
theorem instructionSize_eq {node : InstructionNode}
    (h : node.secondOperand ≠ none → node.firstOperand ≠ none) :
    instructionSize node = (instructionSlots node).length := by
  rw [instructionSize, instructionSlots]
  cases hfirst : node.firstOperand with
  | none =>
      cases hsecond : node.secondOperand with
      | none => rfl
      | some secondOperand => exact absurd hfirst (h (by simp [hsecond]))
  | some firstOperand =>
      cases hsecond : node.secondOperand with
      | none => simp [operandMode, AddressingMode.isRegister]
      | some secondOperand =>
          simp only [operandMode, Bool.and_eq_true, determineAddressingMode_isRegister]
          by_cases hboth : firstOperand.type = .register ∧ secondOperand.type = .register
          · rw [if_pos hboth, if_pos hboth]
            rfl
          · rw [if_neg hboth, if_neg hboth]
            rfl

/-- The strings of directives have their quotes. -/
def GuidanceSized : GuidanceNode → Prop
  | .dataNode _ => True
  | .stringNode node => ∃ label, node.stringLabel = some label ∧ 2 ≤ stringLength label.string

/-- The size of a directive is the number of its values. -/
theorem guidanceSize_eq {node : GuidanceNode} (h : GuidanceSized node) :
    guidanceSize node = .ok (guidanceValues node).length := by
  cases node with
  | dataNode node => simp [guidanceSize, guidanceValues]
  | stringNode node =>
      obtain ⟨label, hlabel, hlength⟩ := h
      rw [guidanceSize, guidanceValues, hlabel]
      simp only [List.length_append, List.length_map, List.length_range', List.length_singleton]
      congr 1
      omega

/-- The words of a label. -/
def labelWords (label : LabelNode) : Nat :=
  (label.instructionList.flatMap instructionSlots).length +
    (label.guidanceList.flatMap guidanceValues).length

/-- What makes the size of a label the number of its words. -/
structure LabelSized (label : LabelNode) : Prop where
  instructions : ∀ node ∈ label.instructionList,
    node.secondOperand ≠ none → node.firstOperand ≠ none
  guidance : ∀ node ∈ label.guidanceList, GuidanceSized node

/-- The sizes of some instructions add up to their slots. -/
theorem foldl_instructionSize {nodes : List InstructionNode}
    (h : ∀ node ∈ nodes, node.secondOperand ≠ none → node.firstOperand ≠ none) (total : Nat) :
    nodes.foldl (fun totalSize node => totalSize + instructionSize node) total =
      total + (nodes.flatMap instructionSlots).length := by
  induction nodes generalizing total with
  | nil => rfl
  | cons node rest ih =>
      rw [List.foldl_cons, ih (fun n hn => h n (by simp [hn])),
        instructionSize_eq (h node (by simp)), List.flatMap_cons, List.length_append, Nat.add_assoc]

theorem foldlM_guidanceSize {nodes : List GuidanceNode} (h : ∀ node ∈ nodes, GuidanceSized node)
    (total : Nat) :
    nodes.foldlM (fun totalSize node => do
      let size ← guidanceSize node
      Except.ok (totalSize + size)) total =
        Except.ok (ε := Fault) (total + (nodes.flatMap guidanceValues).length) := by
  induction nodes generalizing total with
  | nil => rfl
  | cons node rest ih =>
      rw [List.foldlM_cons, guidanceSize_eq (h node (by simp)), List.flatMap_cons,
        List.length_append, ← Nat.add_assoc]
      exact ih (fun n hn => h n (by simp [hn])) _

/-- **The size of a label is the number of its words.** -/
theorem calculateLabelMemorySize_eq {label : LabelNode} (h : LabelSized label) :
    calculateLabelMemorySize label = .ok (labelWords label) := by
  rw [calculateLabelMemorySize, foldl_instructionSize h.instructions, Nat.zero_add]
  exact foldlM_guidanceSize h.guidance _

/-! ## Positions -/

/-- Labels with their sizes, one behind the other from a position on. -/
def placeLabels (position : Nat) : List LabelNode → List LabelNode
  | [] => []
  | label :: rest =>
      { label with size := labelWords label, position := position } ::
        placeLabels (position + labelWords label) rest

/-- The words of a list of labels. -/
def wordsOf (labels : List LabelNode) : Nat := (labels.map labelWords).sum

/-- What does not look at a place is not changed by placing. -/
theorem placeLabels_map {α : Type} {f : LabelNode → α}
    (hf : ∀ (label : LabelNode) (size position : Nat),
      f { label with size := size, position := position } = f label)
    (position : Nat) (labels : List LabelNode) :
    (placeLabels position labels).map f = labels.map f := by
  induction labels generalizing position with
  | nil => rfl
  | cons label rest ih => rw [placeLabels, List.map_cons, List.map_cons, hf, ih]

/-- A placed label is as large as its words, and stands behind those in front of
it. -/
theorem placeLabels_split {position : Nat} {labels before after : List LabelNode}
    {label : LabelNode} (h : placeLabels position labels = before ++ label :: after) :
    label.size = labelWords label ∧ label.position = position + wordsOf before := by
  induction labels generalizing position before with
  | nil => simp [placeLabels] at h
  | cons first rest ih =>
      rw [placeLabels] at h
      cases before with
      | nil =>
          obtain ⟨rfl, -⟩ := List.cons.inj h
          exact ⟨rfl, rfl⟩
      | cons front before =>
          obtain ⟨rfl, hrest⟩ := List.cons.inj h
          obtain ⟨hsize, hposition⟩ := ih hrest
          refine ⟨hsize, hposition.trans ?_⟩
          rw [wordsOf, wordsOf, List.map_cons, List.sum_cons, Nat.add_assoc]
          rfl

/-- Every label gets the size of its words. -/
theorem placeLabels_size (position : Nat) (labels : List LabelNode) :
    (placeLabels position labels).map LabelNode.size = labels.map labelWords := by
  induction labels generalizing position with
  | nil => rfl
  | cons label rest ih => rw [placeLabels, List.map_cons, List.map_cons, ih]

/-- **A pass over a list of labels** is given up with an error, or it places all
of them in the memory. -/
theorem updateLabelList_cases {labels : List LabelNode}
    (hsized : ∀ label ∈ labels, LabelSized label)
    {generator : CodeGenerator} {position : Nat} {updated : LabelsUpdated}
    (h : updateLabelList generator position labels = .ok updated) :
    (updated.overflow = true ∧ updated.generator.errorHandler.errorList ≠ []) ∨
    (updated = ⟨generator, placeLabels position labels, position + wordsOf labels, false⟩ ∧
      (position ≤ maxPosition → position + wordsOf labels ≤ maxPosition)) := by
  induction labels generalizing position updated with
  | nil =>
      obtain rfl := Except.ok.inj h
      exact Or.inr ⟨rfl, id⟩
  | cons label rest ih =>
      have hsize := calculateLabelMemorySize_eq (hsized label (by simp))
      rw [updateLabelList, hsize] at h
      simp only [bind, Except.bind] at h
      by_cases hover : position + labelWords label > maxPosition
      · rw [if_pos hover] at h
        cases hlabel : label.label with
        | none =>
            rw [hlabel] at h
            exact absurd h (by simp)
        | some token =>
            rw [hlabel] at h
            obtain rfl := Except.ok.inj h
            exact Or.inl ⟨rfl, by simp [CodeGenerator.addError]⟩
      · rw [if_neg hover] at h
        cases hrest : updateLabelList generator (position + labelWords label) rest with
        | error fault =>
            rw [hrest] at h
            exact absurd h (by simp)
        | ok middle =>
            rw [hrest] at h
            obtain rfl := Except.ok.inj h
            rcases ih (fun l hl => hsized l (by simp [hl])) hrest with hfailed | ⟨rfl, hfits⟩
            · exact Or.inl hfailed
            · have hsum : position + wordsOf (label :: rest) =
                  position + labelWords label + wordsOf rest := by
                simp [wordsOf, Nat.add_assoc]
              refine Or.inr ⟨?_, fun _ => ?_⟩
              · rw [hsum]
                rfl
              · rw [hsum]
                exact hfits (by omega)

/-- The unit with its labels placed. -/
def TranslationUnit.placed (unit : TranslationUnit) : TranslationUnit :=
  { unit with
    instructionLabelList := placeLabels startingPosition unit.instructionLabelList
    guidanceLabelList := placeLabels (startingPosition + wordsOf unit.instructionLabelList)
      unit.guidanceLabelList }

/-- The first pass without an error places the unit. -/
theorem codeGeneratorUpdateLabels_run {unit placed : TranslationUnit}
    {generator generator' : CodeGenerator}
    (hsized : ∀ label ∈ unit.instructionLabelList ++ unit.guidanceLabelList, LabelSized label)
    (h : codeGeneratorUpdateLabels generator unit = .ok (generator', placed))
    (hclean : generator'.errorHandler.errorList = []) :
    generator' = generator ∧ placed = unit.placed ∧
      startingPosition + wordsOf unit.instructionLabelList + wordsOf unit.guidanceLabelList ≤
        maxPosition := by
  rw [codeGeneratorUpdateLabels] at h
  cases hinstructions : updateLabelList generator startingPosition unit.instructionLabelList with
  | error fault =>
      rw [hinstructions] at h
      exact absurd h (by simp [bind, Except.bind])
  | ok instructions =>
      rw [hinstructions] at h
      simp only [bind, Except.bind] at h
      rcases updateLabelList_cases (fun l hl => hsized l (by simp [hl])) hinstructions with
        ⟨hover, hdirty⟩ | ⟨rfl, hfits⟩
      · rw [if_pos hover] at h
        obtain ⟨rfl, -⟩ := Prod.mk.inj (Except.ok.inj h)
        exact absurd hclean hdirty
      · rw [if_neg (by simp)] at h
        cases hguidance : updateLabelList generator
            (startingPosition + wordsOf unit.instructionLabelList) unit.guidanceLabelList with
        | error fault =>
            rw [hguidance] at h
            exact absurd h (by simp)
        | ok guidance =>
            rw [hguidance] at h
            obtain ⟨rfl, rfl⟩ := Prod.mk.inj (Except.ok.inj h)
            rcases updateLabelList_cases (fun l hl => hsized l (by simp [hl])) hguidance with
              ⟨-, hdirty⟩ | ⟨rfl, hfits'⟩
            · exact absurd hclean hdirty
            · exact ⟨rfl, rfl, hfits' (hfits (by decide))⟩

/-! ## The two passes -/

/-- What the words of the instruction labels are for. -/
def TranslationUnit.slots (unit : TranslationUnit) : List Slot :=
  unit.instructionLabelList.flatMap (fun label => label.instructionList.flatMap instructionSlots)

/-- The values of the data segment. -/
def TranslationUnit.values (unit : TranslationUnit) : List Int :=
  unit.guidanceLabelList.flatMap (fun label => label.guidanceList.flatMap guidanceValues)

/-- Lists of a label are not changed by placing. -/
theorem placeLabels_flatMap {α : Type} {f : LabelNode → List α}
    (hf : ∀ (label : LabelNode) (size position : Nat),
      f { label with size := size, position := position } = f label)
    (position : Nat) (labels : List LabelNode) :
    (placeLabels position labels).flatMap f = labels.flatMap f := by
  rw [List.flatMap_def, placeLabels_map hf, ← List.flatMap_def]

@[simp] theorem placed_slots (unit : TranslationUnit) : unit.placed.slots = unit.slots :=
  placeLabels_flatMap (fun _ _ _ => rfl) _ _

@[simp] theorem placed_values (unit : TranslationUnit) : unit.placed.values = unit.values :=
  placeLabels_flatMap (fun _ _ _ => rfl) _ _

/-- A placed label differs from its original in size and position only. -/
theorem exists_of_mem_placeLabels {position : Nat} {labels : List LabelNode} {label : LabelNode}
    (h : label ∈ placeLabels position labels) :
    ∃ original ∈ labels, ∃ size position',
      label = { original with size := size, position := position' } := by
  induction labels generalizing position with
  | nil => simp [placeLabels] at h
  | cons first rest ih =>
      rcases List.mem_cons.mp h with rfl | h
      · exact ⟨first, by simp, _, _, rfl⟩
      · obtain ⟨original, hmem, horiginal⟩ := ih h
        exact ⟨original, by simp [hmem], horiginal⟩

/-- It is well formed as before. -/
theorem UnitFormed.placed {source : List Token} {unit : TranslationUnit}
    (h : UnitFormed source unit) : UnitFormed source unit.placed := by
  refine ⟨h.externals, h.entries, ?_, ?_, ?_, ?_⟩
  all_goals
    intro label hlabel
    obtain ⟨original, hmem, size, position, rfl⟩ := exists_of_mem_placeLabels hlabel
  · exact h.instructionNames original hmem
  · exact h.instructions original hmem
  · exact h.guidanceNames original hmem
  · exact h.guidance original hmem

/-- The strings of lexed tokens have their quotes. -/
theorem LexedToken.two_le_length {t : Token} (h : LexedToken t) (htype : t.type = .string) :
    2 ≤ stringLength t.string := by
  obtain ⟨body, hbody⟩ := h.string htype
  rw [stringLength, hbody]
  simp

/-- In a lexed unit every label has a size. -/
theorem UnitFormed.sized {source : List Token} {unit : TranslationUnit}
    (h : UnitFormed source unit) (hlexed : ∀ t ∈ source, LexedToken t) :
    ∀ label ∈ unit.instructionLabelList ++ unit.guidanceLabelList, LabelSized label := by
  have hguidance : ∀ node, GuidanceFormed source node → GuidanceSized node := by
    intro node hnode
    cases node with
    | dataNode node => trivial
    | stringNode node =>
        obtain ⟨⟨t, hmem, ht, htype⟩, -⟩ := hnode
        exact ⟨t, ht, (hlexed t hmem).two_le_length htype⟩
  intro label hlabel
  rcases List.mem_append.mp hlabel with hlabel | hlabel
  · obtain ⟨hnone, -, hall⟩ := h.instructions label hlabel
    exact ⟨fun node hnode => (hall node hnode).ordered, by simp [hnone]⟩
  · obtain ⟨hnone, -, hall⟩ := h.guidance label hlabel
    exact ⟨by simp [hnone], fun node hnode => hguidance node (hall node hnode)⟩

theorem UnitFormed.operations {source : List Token} {unit : TranslationUnit}
    (h : UnitFormed source unit) : ∀ label ∈ unit.instructionLabelList,
      ∀ node ∈ label.instructionList, node.operation ≠ none := by
  intro label hlabel node hnode
  obtain ⟨-, -, hall⟩ := h.instructions label hlabel
  obtain ⟨operation, -, hoperation, -⟩ := (hall node hnode).operation
  simp [hoperation]

theorem UnitFormed.complete {source : List Token} {unit : TranslationUnit}
    (h : UnitFormed source unit) : ∀ label ∈ unit.guidanceLabelList,
      ∀ node ∈ label.guidanceList, GuidanceComplete node := by
  intro label hlabel node hnode
  obtain ⟨-, -, hall⟩ := h.guidance label hlabel
  have hformed := hall node hnode
  cases node with
  | dataNode node => exact hformed.data_ne_none
  | stringNode node =>
      obtain ⟨⟨t, -, ht, -⟩, -⟩ := hformed
      exact fun hnone => absurd (ht.symm.trans hnone) (by simp)

/-- The words of instruction labels are those of their slots. -/
theorem UnitFormed.wordsOf_instructions {source : List Token} {unit : TranslationUnit}
    (h : UnitFormed source unit) {labels : List LabelNode}
    (hlabels : labels ⊆ unit.instructionLabelList) : wordsOf labels =
      (labels.flatMap (fun label => label.instructionList.flatMap instructionSlots)).length := by
  rw [List.length_flatMap, wordsOf]
  congr 1
  refine List.map_congr_left (fun label hlabel => ?_)
  rw [labelWords, (h.instructions label (hlabels hlabel)).1]
  rfl

/-- The words of the directives are their values. -/
theorem UnitFormed.wordsOf_guidance {source : List Token} {unit : TranslationUnit}
    (h : UnitFormed source unit) {labels : List LabelNode}
    (hlabels : labels ⊆ unit.guidanceLabelList) : wordsOf labels =
      (labels.flatMap (fun label => label.guidanceList.flatMap guidanceValues)).length := by
  rw [List.length_flatMap, wordsOf]
  congr 1
  refine List.map_congr_left (fun label hlabel => ?_)
  rw [labelWords, (h.guidance label (hlabels hlabel)).1]
  simp

/-- The cells of labels point to labels of that name. -/
theorem labelCells_mem {value : Nat → IdentifierValue} {index : Nat} {labels : List LabelNode}
    {cell : IdentifierCell} (h : cell ∈ labelCells value index labels) :
    ∃ i node, labels[i]? = some node ∧ cell.value = value (index + i) ∧
      node.label.map Token.string = some cell.key := by
  induction labels generalizing index with
  | nil => simp [labelCells] at h
  | cons first rest ih =>
      have hrest : cell ∈ labelCells value (index + 1) rest →
          ∃ i node, (first :: rest)[i]? = some node ∧ cell.value = value (index + i) ∧
            node.label.map Token.string = some cell.key := by
        intro hmem
        obtain ⟨i, node, hnode, hvalue, hkey⟩ := ih hmem
        refine ⟨i + 1, node, by simpa using hnode, ?_, hkey⟩
        rw [hvalue, Nat.add_assoc, Nat.add_comm 1 i]
      rw [labelCells] at h
      cases hlabel : first.label with
      | none =>
          rw [hlabel] at h
          exact hrest h
      | some label =>
          rw [hlabel] at h
          rcases List.mem_cons.mp h with rfl | h
          · exact ⟨0, first, rfl, rfl, by rw [hlabel]; rfl⟩
          · exact hrest h

/-- A label is placed at its own place in the list. -/
theorem placeLabels_getElem? (position : Nat) {i : Nat} {labels : List LabelNode}
    {node : LabelNode} (h : labels[i]? = some node) :
    ∃ node' ∈ placeLabels position labels, (placeLabels position labels)[i]? = some node' ∧
      node'.label = node.label := by
  have hmap := congrArg (fun xs => xs[i]?)
    (placeLabels_map (fun (_ : LabelNode) _ _ => rfl) position labels :
      _ = labels.map LabelNode.label)
  simp only [List.getElem?_map, h, Option.map_some] at hmap
  obtain ⟨node', hnode', hlabel⟩ := Option.map_eq_some_iff.mp hmap
  exact ⟨node', List.mem_of_getElem? hnode', hnode', hlabel⟩

/-- **The cell of a label points to the label of that name**, placed. -/
theorem firstDeclaration_labelAt {unit : TranslationUnit} {name : CString}
    {cell : IdentifierCell} (hfirst : firstDeclaration unit.declarations name = some cell)
    (htype : cell.type = .label) :
    ∃ node ∈ unit.placed.instructionLabelList ++ unit.placed.guidanceLabelList,
      unit.placed.labelAt cell.value = some node ∧
        node.label.map Token.string = some name := by
  have hmem := List.mem_of_find?_eq_some hfirst
  have hkey : cell.key = name := by simpa using List.find?_some hfirst
  rw [TranslationUnit.declarations] at hmem
  rcases List.mem_append.mp hmem with hmem | hmem
  · obtain ⟨i, node, hnode, hvalue, hname⟩ := labelCells_mem hmem
    obtain ⟨node', hmem', hnode', hlabel⟩ := placeLabels_getElem? startingPosition hnode
    refine ⟨node', List.mem_append_left _ hmem', ?_, ?_⟩
    · rw [hvalue, Nat.zero_add]
      exact hnode'
    · rw [hlabel, hname, hkey]
  · rcases List.mem_append.mp hmem with hmem | hmem
    · obtain ⟨i, node, hnode, hvalue, hname⟩ := labelCells_mem hmem
      obtain ⟨node', hmem', hnode', hlabel⟩ :=
        placeLabels_getElem? (startingPosition + wordsOf unit.instructionLabelList) hnode
      refine ⟨node', List.mem_append_right _ hmem', ?_, ?_⟩
      · rw [hvalue, Nat.zero_add]
        exact hnode'
      · rw [hlabel, hname, hkey]
    · exact absurd ((externalCells_cell cell hmem).1.symm.trans htype) (by decide)

/-- The cells of a table of the unit point into the placed unit. -/
theorem Table.pointersValid {analyzer : SemanticAnalyzer} {unit : TranslationUnit}
    (h : Table analyzer unit.declarations) : PointersValid analyzer unit.placed := by
  intro name cell hlookup htype hnone
  rw [h.lookup] at hlookup
  obtain ⟨node, -, hnode, -⟩ := firstDeclaration_labelAt hlookup htype
  exact absurd (hnode.symm.trans hnone) (by simp)

/-- The outputs in front of an instruction label and behind it. -/
def instructionLabelRun (generator : CodeGenerator) (analyzer : SemanticAnalyzer)
    (unit : TranslationUnit) (before : List LabelNode) (label : LabelNode) :
    Except Fault (Output × Output) := do
  let output ← before.foldlM (generateInstructionLabel analyzer unit)
    (generator, startingPosition)
  let output' ← generateInstructionLabel analyzer unit output label
  .ok (output, output')

/-- The outputs in front of a guidance label and behind it. -/
def guidanceLabelRun (generator : CodeGenerator) (analyzer : SemanticAnalyzer)
    (unit : TranslationUnit) (before : List LabelNode) (label : LabelNode) :
    Except Fault (Output × Output) := do
  let instructions ← unit.instructionLabelList.foldlM (generateInstructionLabel analyzer unit)
    (generator, startingPosition)
  let output ← before.foldlM generateGuidanceLabel instructions
  let output' ← generateGuidanceLabel output label
  .ok (output, output')

section Generate

variable {analyzer : SemanticAnalyzer} {unit : TranslationUnit} {source : List Token}
  (hformed : UnitFormed source unit) (hvalid : PointersValid analyzer unit)

include hformed

/-- Some of the guidance labels. -/
theorem guidance_emitted {labels : List LabelNode} (hlabels : labels ⊆ unit.guidanceLabelList)
    (output : Output) :
    ∃ output', labels.foldlM generateGuidanceLabel output = .ok output' ∧
      Emitted output output' ((labels.flatMap
        (fun label => label.guidanceList.flatMap guidanceValues)).map
          (fun value => plain (valueWord value))) := by
  rw [List.map_flatMap]
  exact foldlM_emitted
    (fun output label hlabel => generateGuidanceLabel_emitted (hformed.complete label
      (hlabels hlabel)) output) output

include hvalid

/-- Some of the instruction labels. -/
theorem instructions_emitted {labels : List LabelNode}
    (hlabels : labels ⊆ unit.instructionLabelList) (output : Output) :
    ∃ output', labels.foldlM (generateInstructionLabel analyzer unit) output = .ok output' ∧
      Emitted output output' ((labels.flatMap
        (fun label => label.instructionList.flatMap instructionSlots)).map
          (slotEmission analyzer unit)) := by
  rw [List.map_flatMap]
  exact foldlM_emitted
    (fun output label hlabel => generateInstructionLabel_emitted hvalid (hformed.operations label
      (hlabels hlabel)) output) output

/-- **The second pass** writes the words of the slots and then the values. -/
theorem generateObjectAndExternalFiles_emitted (generator : CodeGenerator) :
    ∃ output, generateObjectAndExternalFiles generator analyzer unit =
        .ok ⟨output.1, unit.slots.length, unit.values.length⟩ ∧
      Emitted (generator, startingPosition) output
        (unit.slots.map (slotEmission analyzer unit) ++
          unit.values.map (fun value => plain (valueWord value))) := by
  obtain ⟨middle, hinstructions, hemitted⟩ := instructions_emitted hformed hvalid
    (List.Subset.refl _) (generator, startingPosition)
  obtain ⟨output, hguidance, hemitted'⟩ := guidance_emitted hformed (List.Subset.refl _) middle
  refine ⟨output, ?_, hemitted.trans hemitted'⟩
  have hmiddle : middle.2 = startingPosition + unit.slots.length := by
    rw [hemitted.position, List.length_map]
    rfl
  have houtput : output.2 = middle.2 + unit.values.length := by
    rw [hemitted'.position, List.length_map]
    rfl
  have hslots : middle.2 - startingPosition = unit.slots.length := by omega
  have hvalues : output.2 - unit.slots.length - startingPosition = unit.values.length := by omega
  simp only [generateObjectAndExternalFiles, hinstructions, hguidance, bind, Except.bind, hslots,
    hvalues]

/-- The files that the second pass leaves, where they were empty. -/
theorem generateObjectAndExternalFiles_files {generator : CodeGenerator}
    (hobject : generator.objectFile.data = []) (hexternal : generator.externalFile.data = []) :
    ∃ final, generateObjectAndExternalFiles generator analyzer unit =
        .ok ⟨final, unit.slots.length, unit.values.length⟩ ∧
      final.objectFile.data =
        objectText (placeWords startingPosition (unit.slots.map (slotWord analyzer unit)) ++
          placeWords (startingPosition + unit.slots.length) (unit.values.map valueWord)) ∧
      final.externalFile.data = symbolText
        (references (startingPosition + 1) (unit.slots.map (slotEmission analyzer unit))) ∧
      final.entryFile = generator.entryFile := by
  obtain ⟨output, hrun, hemitted⟩ :=
    generateObjectAndExternalFiles_emitted hformed hvalid generator
  refine ⟨output.1, hrun, ?_, ?_, hemitted.entryFile⟩
  · rw [hemitted.object, hobject, List.nil_append, List.map_append, List.map_map, List.map_map,
      placeWords_append, List.length_map]
    rfl
  · have hvalues : unit.values.map (fun value => plain (valueWord value)) =
        (unit.values.map valueWord).map plain := by
      rw [List.map_map]
      rfl
    rw [hemitted.external, hexternal, List.nil_append, hvalues, references_append,
      references_plain, List.append_nil]

end Generate

/-! ## From the lexer to the memory -/

/-- A unit that was parsed from the lexer's tokens and placed in the memory, both
without an error. -/
structure LaidOut (lexer : Lexer) (unit : TranslationUnit) (generator : CodeGenerator)
    (placed : TranslationUnit) : Prop where
  lexed : LexerOutput lexer
  parsed : ParsedFrom (parserInitializeTranslationUnit lexer) unit
  updated : codeGeneratorUpdateLabels (codeGeneratorInitialize lexer) unit = .ok (generator, placed)
  fits : generator.errorHandler.errorList = []

section LaidOut

variable {lexer : Lexer} {unit placed : TranslationUnit} {generator : CodeGenerator}
  {analyzer : SemanticAnalyzer}

/-- A unit that is laid out is well formed. -/
theorem LaidOut.formed (h : LaidOut lexer unit generator placed) :
    UnitFormed lexer.tokenList unit :=
  h.parsed.formed

/-- It is placed, and it fits. -/
theorem LaidOut.run (h : LaidOut lexer unit generator placed) :
    generator = codeGeneratorInitialize lexer ∧ placed = unit.placed ∧
      startingPosition + wordsOf unit.instructionLabelList + wordsOf unit.guidanceLabelList ≤
        maxPosition :=
  codeGeneratorUpdateLabels_run (h.formed.sized h.lexed.lexed) h.updated h.fits

/-- The words between two outputs are read from the text between them, at the
given addresses. -/
def Occupies (output output' : Output) (addresses : List Nat) : Prop :=
  ∃ text image, output'.1.objectFile.data = output.1.objectFile.data ++ text ∧
    readObject text = some image ∧ image.map PlacedWord.address = addresses

/-- Words that are written occupy consecutive addresses. -/
theorem Emitted.occupies {output output' : Output} {emissions : List Emission}
    (h : Emitted output output' emissions) :
    Occupies output output' (List.range' output.2 emissions.length) := by
  refine ⟨_, _, h.object, readObject_objectText _, ?_⟩
  rw [placeWords_address, List.length_map]

/-- A placed instruction label is written from its position on. -/
theorem LaidOut.instructionLabelRun (h : LaidOut lexer unit generator placed)
    (hvalid : PointersValid analyzer placed) (start : CodeGenerator) {before after : List LabelNode}
    {label : LabelNode} (hsplit : placed.instructionLabelList = before ++ label :: after) :
    ∃ output output', instructionLabelRun start analyzer placed before label =
        .ok (output, output') ∧
      Emitted output output' ((label.instructionList.flatMap instructionSlots).map
        (slotEmission analyzer placed)) ∧
      output.2 = label.position ∧
      label.size = (label.instructionList.flatMap instructionSlots).length := by
  obtain ⟨-, rfl, -⟩ := h.run
  have hformed := h.formed.placed
  have hlabel : label ∈ unit.placed.instructionLabelList := by simp [hsplit]
  have hbefore : before ⊆ unit.placed.instructionLabelList := by simp [hsplit]
  obtain ⟨output, hrun, hemitted⟩ := instructions_emitted hformed hvalid hbefore
    (start, startingPosition)
  obtain ⟨output', hrun', hemitted'⟩ :=
    generateInstructionLabel_emitted hvalid (hformed.operations label hlabel) output
  obtain ⟨hsize, hposition⟩ := placeLabels_split hsplit
  refine ⟨output, output', ?_, hemitted', ?_, ?_⟩
  · simp only [Assembler.instructionLabelRun, hrun, hrun', bind, Except.bind]
  · rw [hemitted.position, hposition, hformed.wordsOf_instructions hbefore, List.length_map]
  · rw [hsize, labelWords, (hformed.instructions label hlabel).1]
    rfl

/-- A placed guidance label is written from its position on. -/
theorem LaidOut.guidanceLabelRun (h : LaidOut lexer unit generator placed)
    (hvalid : PointersValid analyzer placed) (start : CodeGenerator) {before after : List LabelNode}
    {label : LabelNode} (hsplit : placed.guidanceLabelList = before ++ label :: after) :
    ∃ output output', guidanceLabelRun start analyzer placed before label =
        .ok (output, output') ∧
      Emitted output output' ((label.guidanceList.flatMap guidanceValues).map
        (fun value => plain (valueWord value))) ∧
      output.2 = label.position ∧
      label.size = (label.guidanceList.flatMap guidanceValues).length := by
  obtain ⟨-, rfl, -⟩ := h.run
  have hformed := h.formed.placed
  have hlabel : label ∈ unit.placed.guidanceLabelList := by simp [hsplit]
  have hbefore : before ⊆ unit.placed.guidanceLabelList := by simp [hsplit]
  obtain ⟨middle, hinstructions, hemitted⟩ := instructions_emitted hformed hvalid
    (List.Subset.refl _) (start, startingPosition)
  obtain ⟨output, hrun, hemitted'⟩ := guidance_emitted hformed hbefore middle
  obtain ⟨output', hrun', hemitted''⟩ :=
    generateGuidanceLabel_emitted (hformed.complete label hlabel) output
  obtain ⟨hsize, hposition⟩ := placeLabels_split hsplit
  refine ⟨output, output', ?_, hemitted'', ?_, ?_⟩
  · simp only [Assembler.guidanceLabelRun, hinstructions, hrun, hrun', bind, Except.bind]
  · have hslots := h.formed.wordsOf_instructions (List.Subset.refl _)
    rw [hemitted'.position, hemitted.position, hposition, hformed.wordsOf_guidance hbefore,
      List.length_map, List.length_map, hslots]
    congr 2
    exact congrArg List.length (placed_slots unit)
  · rw [hsize, labelWords, (hformed.guidance label hlabel).1]
    simp

/-- The second pass keeps to the layout of the first.  The words of the object
file stand at consecutive addresses from 100 on; the numbers of lines are the
sums of the sizes; and the words that are written while a label is processed are
as many as its size and begin at its position. -/
def PassesAgree (generator : CodeGenerator) (analyzer : SemanticAnalyzer)
    (placed : TranslationUnit) : Prop :=
  ∃ result, generateObjectAndExternalFiles generator analyzer placed = .ok result ∧
    (∃ image, readObject result.generator.objectFile.data = some image ∧
      image.map PlacedWord.address =
        List.range' 100 (result.instructionLines + result.guidanceLines)) ∧
    result.instructionLines = (placed.instructionLabelList.map LabelNode.size).sum ∧
    result.guidanceLines = (placed.guidanceLabelList.map LabelNode.size).sum ∧
    (∀ before label after, placed.instructionLabelList = before ++ label :: after →
      ∃ output output', instructionLabelRun generator analyzer placed before label =
          .ok (output, output') ∧
        Occupies output output' (List.range' label.position label.size)) ∧
    (∀ before label after, placed.guidanceLabelList = before ++ label :: after →
      ∃ output output', guidanceLabelRun generator analyzer placed before label =
          .ok (output, output') ∧
        Occupies output output' (List.range' label.position label.size))

/-- **The two passes agree on the layout** of every unit that is parsed from the
lexer's tokens and fits in the memory. -/
theorem generateObjectAndExternalFiles_layout (h : LaidOut lexer unit generator placed)
    (hvalid : PointersValid analyzer placed) :
    PassesAgree generator analyzer placed := by
  obtain ⟨hgenerator, hplaced, -⟩ := h.run
  have hformed : UnitFormed lexer.tokenList placed := hplaced ▸ h.formed.placed
  have hinstructionSizes : placed.slots.length =
      (placed.instructionLabelList.map LabelNode.size).sum := by
    rw [hplaced, placed_slots, TranslationUnit.slots,
      ← h.formed.wordsOf_instructions (List.Subset.refl _)]
    exact congrArg List.sum (placeLabels_size _ _).symm
  have hguidanceSizes : placed.values.length =
      (placed.guidanceLabelList.map LabelNode.size).sum := by
    rw [hplaced, placed_values, TranslationUnit.values,
      ← h.formed.wordsOf_guidance (List.Subset.refl _)]
    exact congrArg List.sum (placeLabels_size _ _).symm
  obtain ⟨output, hrun, hemitted⟩ := generateObjectAndExternalFiles_emitted hformed hvalid generator
  refine ⟨_, hrun, ?_, hinstructionSizes, hguidanceSizes, ?_, ?_⟩
  · obtain ⟨text, image, htext, hread, haddresses⟩ := hemitted.occupies
    have hempty : generator.objectFile.data = [] := by rw [hgenerator]; rfl
    rw [hempty, List.nil_append] at htext
    refine ⟨image, by rw [htext, hread], ?_⟩
    rw [haddresses]
    simp [startingPosition]
  · intro before label after hsplit
    obtain ⟨output, output', hlabelRun, hemitted, hposition, hsize⟩ :=
      h.instructionLabelRun hvalid generator hsplit
    refine ⟨output, output', hlabelRun, ?_⟩
    rw [← hposition, hsize, ← List.length_map (f := slotEmission analyzer placed)]
    exact hemitted.occupies
  · intro before label after hsplit
    obtain ⟨output, output', hlabelRun, hemitted, hposition, hsize⟩ :=
      h.guidanceLabelRun hvalid generator hsplit
    refine ⟨output, output', hlabelRun, ?_⟩
    rw [← hposition, hsize, ← List.length_map (f := fun value => plain (valueWord value))]
    exact hemitted.occupies

end LaidOut

/-! ## Accepted programs -/

/-- The stages from the parser to the first pass, as they are called one after the
other. -/
def assembleUnit (lexer : Lexer) :
    Except Fault (TranslationUnit × SemanticAnalyzer × CodeGenerator × TranslationUnit) := do
  let unit ← parseTranslationUnitContent (parserInitializeTranslationUnit lexer)
  let analyzer ← semanticAnalyzerAnalyzeTranslationUnit (semanticAnalyzerInitialize unit lexer) unit
  let (generator, placed) ← codeGeneratorUpdateLabels (codeGeneratorInitialize lexer) unit
  .ok (unit, analyzer, generator, placed)

/-- A unit to which the parser, the analyzer and the first pass add no error. -/
structure Accepted (lexer : Lexer) (unit : TranslationUnit) (analyzer : SemanticAnalyzer)
    (generator : CodeGenerator) (placed : TranslationUnit) : Prop
    extends LaidOut lexer unit generator placed where
  analyzed : semanticAnalyzerAnalyzeTranslationUnit (semanticAnalyzerInitialize unit lexer) unit =
    .ok analyzer
  accepted : analyzer.errorHandler.errorList = []

/-- What the checks of an accepted unit have established. -/
theorem Accepted.run {lexer : Lexer} {unit placed : TranslationUnit}
    {analyzer : SemanticAnalyzer} {generator : CodeGenerator}
    (h : Accepted lexer unit analyzer generator placed) :
    Table analyzer unit.declarations ∧ (unit.labelNames ++ unit.externalNames).Nodup ∧
      (∀ name ∈ unit.entryNames, name ∈ unit.labelNames) ∧
      ∀ node ∈ unit.instructionLabelList ++ unit.guidanceLabelList,
        LabelAccepted analyzer.knows node := by
  obtain ⟨analyzer', hrun, -, htable, hclean⟩ := analyzeTranslationUnit_run h.formed lexer
  obtain rfl := Except.ok.inj (h.analyzed.symm.trans hrun)
  exact ⟨htable, hclean h.accepted⟩

/-- Its pointers are valid. -/
theorem Accepted.pointersValid {lexer : Lexer} {unit placed : TranslationUnit}
    {analyzer : SemanticAnalyzer} {generator : CodeGenerator}
    (h : Accepted lexer unit analyzer generator placed) : PointersValid analyzer placed := by
  obtain ⟨-, rfl, -⟩ := h.toLaidOut.run
  exact h.run.1.pointersValid

/-- The files of an accepted program. -/
theorem Accepted.files {lexer : Lexer} {unit placed : TranslationUnit}
    {analyzer : SemanticAnalyzer} {generator : CodeGenerator}
    (h : Accepted lexer unit analyzer generator placed) : ∃ final,
    generateObjectAndExternalFiles generator analyzer placed =
      .ok ⟨final, placed.slots.length, placed.values.length⟩ ∧
    readObject final.objectFile.data = some
      (placeWords startingPosition (placed.slots.map (slotWord analyzer placed)) ++
        placeWords (startingPosition + placed.slots.length) (placed.values.map valueWord)) ∧
    final.externalFile.data = symbolText
      (references (startingPosition + 1) (placed.slots.map (slotEmission analyzer placed))) := by
  have hvalid := h.pointersValid
  obtain ⟨rfl, rfl, -⟩ := h.toLaidOut.run
  obtain ⟨final, hrun, hobject, hexternal, -⟩ :=
    @generateObjectAndExternalFiles_files _ _ _ h.formed.placed hvalid
      (codeGeneratorInitialize lexer) rfl rfl
  exact ⟨final, hrun, by rw [hobject, readObject_objectText], hexternal⟩

/-- No stage adds an error, and what they leave passes a check. -/
def acceptsWith
    (check : TranslationUnit × SemanticAnalyzer × CodeGenerator × TranslationUnit → Bool)
    (lexer : Lexer) : Bool :=
  match assembleUnit lexer with
  | .error _ => false
  | .ok run => run.1.errorHandler.errorList.isEmpty && run.2.1.errorHandler.errorList.isEmpty &&
      run.2.2.1.errorHandler.errorList.isEmpty && check run

/-- A sample is accepted if the stages say so when they are run. -/
theorem exists_accepted
    {check : TranslationUnit × SemanticAnalyzer × CodeGenerator × TranslationUnit → Bool}
    {lexer : Lexer} (hlexed : LexerOutput lexer) (h : acceptsWith check lexer = true) :
    ∃ unit analyzer generator placed, Accepted lexer unit analyzer generator placed ∧
      check (unit, analyzer, generator, placed) = true := by
  rw [acceptsWith] at h
  cases hrun : assembleUnit lexer with
  | error fault =>
      rw [hrun] at h
      exact absurd h (by simp)
  | ok run =>
      rw [hrun] at h
      simp only [Bool.and_eq_true, List.isEmpty_iff] at h
      obtain ⟨⟨⟨hparsed, haccepted⟩, hfits⟩, hcheck⟩ := h
      obtain ⟨unit, hparse, hrun⟩ := exists_of_bind_eq_ok hrun
      obtain ⟨analyzer, hanalyzed, hrun⟩ := exists_of_bind_eq_ok hrun
      obtain ⟨⟨generator, placed⟩, hupdated, hrun⟩ := exists_of_bind_eq_ok hrun
      obtain rfl := Except.ok.inj hrun
      exact ⟨unit, analyzer, generator, placed,
        ⟨⟨hlexed, ⟨hparse, hparsed⟩, hupdated, hfits⟩, hanalyzed, haccepted⟩, hcheck⟩

/-- The lexer on a file with the text. -/
def sampleLexer (text : String) : Lexer :=
  lexerAnalyze (lexerInitializeFromFile "sample" (bytes text))

/-- The layout of a small program. -/
theorem generateObjectAndExternalFiles_layout_sample :
    ∃ unit analyzer generator placed,
      LaidOut (sampleLexer "A: mov r1, X\nX: .data 1\n") unit generator placed ∧
      PointersValid analyzer placed ∧ PassesAgree generator analyzer placed := by
  have haccepts : acceptsWith (fun _ => true)
      (sampleLexer "A: mov r1, X\nX: .data 1\n") = true := by decide +kernel
  obtain ⟨unit, analyzer, generator, placed, h, -⟩ := exists_accepted (.file _ _) haccepts
  exact ⟨unit, analyzer, generator, placed, h.toLaidOut, h.pointersValid,
    generateObjectAndExternalFiles_layout h.toLaidOut h.pointersValid⟩

end Assembler
