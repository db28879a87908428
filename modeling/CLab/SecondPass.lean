import CLab.EntryFile
import CLab.MemoryOverflow

/-!
# The passes behind the first

`main` calls them whatever the first pass reports, so they are also run on a
unit in which only some labels have been placed (`Relabelled`).  They return on
every such unit of an accepted program, leave its words and the lines of its
symbols, and add no error (`Passed.secondPass`): the marks that the entries
leave in the table change no word.
-/

namespace Assembler

/-! ## Labels with other places -/

/-- The same labels, with other sizes and positions. -/
def Replaced (labels placed : List LabelNode) : Prop :=
  List.Forall₂ (fun label label' => ∃ size position,
    label' = { label with size := size, position := position }) labels placed

/-- Labels are their own replacements. -/
theorem Replaced.refl (labels : List LabelNode) : Replaced labels labels := by
  induction labels with
  | nil => exact .nil
  | cons label rest ih => exact .cons ⟨label.size, label.position, rfl⟩ ih

/-- A replacement differs in its size and its position only. -/
theorem Replaced.mem {labels placed : List LabelNode} (h : Replaced labels placed)
    {label' : LabelNode} (hmem : label' ∈ placed) : ∃ label ∈ labels, ∃ size position,
      label' = { label with size := size, position := position } := by
  induction h with
  | nil => exact absurd hmem List.not_mem_nil
  | @cons label first rest placed hfirst hrest ih =>
      rcases List.mem_cons.mp hmem with rfl | hmem
      · exact ⟨label, List.mem_cons_self, hfirst⟩
      · obtain ⟨original, horiginal, hsame⟩ := ih hmem
        exact ⟨original, List.mem_cons_of_mem _ horiginal, hsame⟩

/-- The labels as the first pass leaves them: it gives no place to a label behind the
one with which the memory ends. -/
def reachLabels (position : Nat) : List LabelNode → List LabelNode
  | [] => []
  | label :: rest =>
      { label with size := labelWords label, position := position } ::
        if position + labelWords label > maxPosition then rest
        else reachLabels (position + labelWords label) rest

/-- The first pass changes nothing else. -/
theorem reachLabels_replaced (position : Nat) (labels : List LabelNode) :
    Replaced labels (reachLabels position labels) := by
  induction labels generalizing position with
  | nil => exact .nil
  | cons label rest ih =>
      rw [reachLabels]
      split
      · exact .cons ⟨_, _, rfl⟩ (Replaced.refl rest)
      · exact .cons ⟨_, _, rfl⟩ (ih _)

/-- Labels that leave the position in the memory are all placed. -/
theorem reachLabels_fits {position : Nat} {labels : List LabelNode}
    (h : position + wordsOf labels ≤ maxPosition) :
    reachLabels position labels = placeLabels position labels := by
  induction labels generalizing position with
  | nil => rfl
  | cons label rest ih =>
      rw [wordsOf_cons, ← Nat.add_assoc] at h
      have hstay : ¬ position + labelWords label > maxPosition := by omega
      rw [reachLabels, if_neg hstay, ih h, placeLabels]

/-- How far the first pass comes in a list. -/
theorem updateLabelList_reaches {generator : CodeGenerator} {position : Nat}
    {labels : List LabelNode} (hsized : ∀ label ∈ labels, LabelSized label)
    (hposition : position ≤ maxPosition) {updated : LabelsUpdated}
    (h : updateLabelList generator position labels = .ok updated) :
    updated.labels = reachLabels position labels ∧
      updated.overflow = decide (position + wordsOf labels > maxPosition) ∧
      (updated.overflow = false → updated.position = position + wordsOf labels) := by
  induction labels generalizing position updated with
  | nil =>
      obtain rfl := Except.ok.inj h
      refine ⟨rfl, (decide_eq_false ?_).symm, fun _ => rfl⟩
      exact Nat.not_lt.mpr hposition
  | cons label rest ih =>
      rw [updateLabelList, calculateLabelMemorySize_eq (hsized label List.mem_cons_self)] at h
      simp only [bind, Except.bind] at h
      rw [reachLabels, wordsOf_cons, ← Nat.add_assoc]
      by_cases hover : position + labelWords label > maxPosition
      · rw [if_pos hover] at h
        rw [if_pos hover]
        cases hlabel : label.label with
        | none =>
            simp only [hlabel] at h
            cases h
        | some token =>
            simp only [hlabel] at h
            obtain rfl := Except.ok.inj h
            refine ⟨rfl, (decide_eq_true ?_).symm, fun hstop => by cases hstop⟩
            exact Nat.lt_of_lt_of_le hover (Nat.le_add_right _ _)
      · rw [if_neg hover] at h
        rw [if_neg hover]
        obtain ⟨others, hothers, h⟩ := exists_of_bind_eq_ok h
        obtain rfl := Except.ok.inj h
        obtain ⟨hlabels, hstops, hends⟩ := ih
          (fun l hl => hsized l (List.mem_cons_of_mem _ hl)) (Nat.le_of_not_lt hover) hothers
        exact ⟨by rw [hlabels], hstops, hends⟩

/-- The same unit, with other places for its labels. -/
structure Relabelled (unit placed : TranslationUnit) : Prop where
  instructions : Replaced unit.instructionLabelList placed.instructionLabelList
  guidance : Replaced unit.guidanceLabelList placed.guidanceLabelList
  entries : placed.entryList = unit.entryList
  externals : placed.externalList = unit.externalList

/-- A unit as the first pass leaves it, which does not come to the directives where
the memory ends in the instructions. -/
def TranslationUnit.reached (unit : TranslationUnit) : TranslationUnit :=
  { unit with
    instructionLabelList := reachLabels startingPosition unit.instructionLabelList
    guidanceLabelList :=
      if startingPosition + wordsOf unit.instructionLabelList > maxPosition then
        unit.guidanceLabelList
      else
        reachLabels (startingPosition + wordsOf unit.instructionLabelList)
          unit.guidanceLabelList }

/-- So the unit it leaves differs in these only. -/
theorem TranslationUnit.reached_relabelled (unit : TranslationUnit) :
    Relabelled unit unit.reached := by
  refine ⟨reachLabels_replaced _ _, ?_, rfl, rfl⟩
  rw [TranslationUnit.reached]
  split
  · exact Replaced.refl _
  · exact reachLabels_replaced _ _

/-- In a program that fits in the memory every label is placed. -/
theorem TranslationUnit.reached_eq_placed {unit : TranslationUnit}
    (h : startingPosition + wordsOf unit.labels ≤ maxPosition) : unit.reached = unit.placed := by
  rw [TranslationUnit.labels, wordsOf_append, ← Nat.add_assoc] at h
  have hinstructions : startingPosition + wordsOf unit.instructionLabelList ≤ maxPosition :=
    Nat.le_of_add_right_le h
  rw [TranslationUnit.reached, reachLabels_fits hinstructions,
    if_neg (Nat.not_lt.mpr hinstructions), reachLabels_fits h]
  rfl

/-- The first pass leaves that unit, with or without an error. -/
theorem codeGeneratorUpdateLabels_reaches {generator generator' : CodeGenerator}
    {unit placed : TranslationUnit} (hsized : ∀ label ∈ unit.labels, LabelSized label)
    (h : codeGeneratorUpdateLabels generator unit = .ok (generator', placed)) :
    placed = unit.reached := by
  obtain ⟨instructions, hinstructions, h⟩ := exists_of_bind_eq_ok h
  obtain ⟨hlabels, hstops, hends⟩ := updateLabelList_reaches
    (fun l hl => hsized l (List.mem_append_left _ hl)) (by decide) hinstructions
  rw [TranslationUnit.reached, ← hlabels]
  by_cases hover : startingPosition + wordsOf unit.instructionLabelList > maxPosition
  · simp only [hstops.trans (decide_eq_true hover), if_true] at h
    rw [if_pos hover]
    exact (Prod.mk.inj (Except.ok.inj h)).2.symm
  · have hgoes := hstops.trans (decide_eq_false hover)
    simp only [hgoes, Bool.false_eq_true, if_false, hends hgoes] at h
    rw [if_neg hover]
    obtain ⟨guidance, hguidance, h⟩ := exists_of_bind_eq_ok h
    obtain ⟨hguidanceLabels, -⟩ := updateLabelList_reaches
      (fun l hl => hsized l (List.mem_append_right _ hl)) (Nat.le_of_not_lt hover) hguidance
    rw [← hguidanceLabels]
    exact (Prod.mk.inj (Except.ok.inj h)).2.symm

section Relabelled

variable {unit placed : TranslationUnit} (h : Relabelled unit placed)

include h

/-- It is well formed as before. -/
theorem Relabelled.formed {source : List Token} (hformed : UnitFormed source unit) :
    UnitFormed source placed := by
  refine ⟨h.externals ▸ hformed.externals, h.entries ▸ hformed.entries, ?_, ?_, ?_, ?_⟩
  · intro label hlabel
    obtain ⟨original, hmem, _, _, rfl⟩ := h.instructions.mem hlabel
    exact hformed.instructionNames original hmem
  · intro label hlabel
    obtain ⟨original, hmem, _, _, rfl⟩ := h.instructions.mem hlabel
    exact hformed.instructions original hmem
  · intro label hlabel
    obtain ⟨original, hmem, _, _, rfl⟩ := h.guidance.mem hlabel
    exact hformed.guidanceNames original hmem
  · intro label hlabel
    obtain ⟨original, hmem, _, _, rfl⟩ := h.guidance.mem hlabel
    exact hformed.guidance original hmem

/-- A pointer to a label stays one, wherever the label is placed. -/
theorem Relabelled.labelAt {value : IdentifierValue} (hvalid : unit.placed.labelAt value ≠ none) :
    placed.labelAt value ≠ none := by
  have hstays : ∀ {labels labels' : List LabelNode} {position index : Nat},
      Replaced labels labels' → (placeLabels position labels)[index]? ≠ none →
        labels'[index]? ≠ none := by
    intro labels labels' position index hreplaced hne
    have hlength : (placeLabels position labels).length = labels'.length := by
      have hsizes := congrArg List.length (placeLabels_size position labels)
      rw [List.length_map, List.length_map] at hsizes
      exact hsizes.trans (List.Forall₂.length_eq hreplaced)
    rw [Ne, List.getElem?_eq_none_iff, Nat.not_le] at hne ⊢
    exact hlength ▸ hne
  cases value with
  | instructionLabel index => exact hstays h.instructions hvalid
  | guidanceLabel index => exact hstays h.guidance hvalid
  | external index => exact hvalid

end Relabelled

/-! ## The entries -/

/-- The position of the label that declared a name first, in a unit whose labels have
other places. -/
def TranslationUnit.declaredPosition (unit placed : TranslationUnit) (name : CString) : Nat :=
  ((firstDeclaration unit.declarations name).bind fun cell => placed.labelAt cell.value).elim 0
    LabelNode.position

/-- The lines for some names, each with the address that is written for it. -/
def declaredEntries (unit placed : TranslationUnit) (names : List CString) : List SymbolAddress :=
  names.map fun name => ⟨name, unit.declaredPosition placed name + startingPosition⟩

/-- The pass over the entries of a unit whose pointers are valid returns, and writes a
line for each new name. -/
theorem generateEntryLines_relabelled {unit placed : TranslationUnit}
    (hvalid : ∀ name cell, firstDeclaration unit.declarations name = some cell →
      cell.type = .label → placed.labelAt cell.value ≠ none)
    {entries : List EntryNode}
    (hentries : ∀ node ∈ entries, ∃ t, node.entryLabel = some t ∧ t.string ∈ unit.labelNames)
    {analyzer : SemanticAnalyzer} {marked : List CString}
    (h : Marked analyzer unit.declarations marked) (generator : CodeGenerator) :
    ∃ entryFile analyzer' marked',
      generateEntryLines generator analyzer placed entries =
        .ok ({ generator with entryFile := entryFile }, analyzer') ∧
      Marked analyzer' unit.declarations marked' ∧
      entryFile.data = generator.entryFile.data ++ symbolText (declaredEntries unit placed
        (newNames marked (entries.filterMap fun node => node.entryLabel.map Token.string))) := by
  induction entries generalizing analyzer marked generator with
  | nil =>
      refine ⟨generator.entryFile, analyzer, marked, rfl, h, ?_⟩
      simp [newNames, declaredEntries, symbolText, Numerals.unlines]
  | cons node rest ih =>
      obtain ⟨t, ht, hname⟩ := hentries node List.mem_cons_self
      have hrest := fun n hn => hentries n (List.mem_cons_of_mem _ hn)
      obtain ⟨declaration, hfirst, htype⟩ := (firstDeclaration_label_iff unit t.string).mpr hname
      have hlookup := h.lookup t.string
      rw [hfirst, Option.map_some] at hlookup
      obtain ⟨index, hcell⟩ := exists_findCell hlookup
      rw [generateEntryLines, ht, List.filterMap_cons_some (by rw [ht]; rfl), newNames]
      simp only [hcell]
      by_cases hmarked : t.string ∈ marked
      · rw [if_pos (decide_eq_true hmarked), if_pos hmarked]
        exact ih hrest h generator
      · rw [if_neg (by simpa using hmarked), if_neg hmarked]
        obtain ⟨label, hat⟩ := Option.ne_none_iff_exists'.mp
          (hvalid t.string declaration hfirst htype)
        obtain ⟨entryFile, analyzer', marked', hrun, hmarks, htext⟩ :=
          ih hrest (h.mark hcell)
            { generator with
              entryFile := stringAppendCstr (stringAppend generator.entryFile t.string)
                (bytes " " ++ formatDecimal 4 (label.position + startingPosition) ++ bytes "\n") }
        have hposition : unit.declaredPosition placed t.string = label.position := by
          rw [TranslationUnit.declaredPosition, hfirst, Option.bind_some, hat]
          rfl
        refine ⟨entryFile, analyzer', marked', ?_, hmarks, ?_⟩
        · simp only [writeEntry, hat, bind, Except.bind]
          exact hrun
        · rw [htext]
          simp only [stringAppendCstr_data, stringAppend_data, cstrText_blank_decimal]
          simp [declaredEntries, hposition, symbolText, symbolLine, Numerals.unlines]

/-- The marks of the entries are no matter to the words. -/
theorem Marked.slotEmission_eq {analyzer analyzer' : SemanticAnalyzer}
    {declared : List IdentifierCell} {marked marked' : List CString}
    (h : Marked analyzer declared marked) (h' : Marked analyzer' declared marked')
    (unit : TranslationUnit) : slotEmission analyzer' unit = slotEmission analyzer unit := by
  have hmemory : directMemory analyzer' unit = directMemory analyzer unit := by
    funext name
    rw [directMemory, directMemory, h.lookup, h'.lookup]
    cases firstDeclaration declared name <;> rfl
  have hreference : operandReference analyzer' = operandReference analyzer := by
    funext operand
    rw [operandReference, operandReference, h.lookup, h'.lookup]
    cases firstDeclaration declared operand.string <;> rfl
  funext slot
  cases slot with
  | operation node => rfl
  | registers source destination => rfl
  | operand operand isDerefrenced isDst =>
      simp only [slotEmission, slotWord, slotReference, operandMemory, hmemory, hreference]

/-! ## Both passes -/

/-- The parser and the analyzer report nothing on the tokens of a lexer. -/
structure Passed (lexer : Lexer) (unit : TranslationUnit) (analyzer : SemanticAnalyzer) :
    Prop where
  lexed : LexerOutput lexer
  parsed : ParsedFrom (parserInitializeTranslationUnit lexer) unit
  analyzed : semanticAnalyzerAnalyzeTranslationUnit (semanticAnalyzerInitialize unit lexer) unit =
    .ok analyzer
  clean : analyzer.errorHandler.errorList = []

section Passed

variable {lexer : Lexer} {unit : TranslationUnit} {analyzer : SemanticAnalyzer}
  (h : Passed lexer unit analyzer)

include h

/-- The table holds the declarations of the unit, and every entry is one of its labels. -/
theorem Passed.table : Marked analyzer unit.declarations [] ∧
    ∀ name ∈ unit.entryNames, name ∈ unit.labelNames := by
  obtain ⟨analyzer', hrun, -, htable, hclean⟩ := analyzeTranslationUnit_run h.parsed.formed lexer
  obtain rfl := Except.ok.inj (h.analyzed.symm.trans hrun)
  exact ⟨htable.marked, (hclean h.clean).2.1⟩

end Passed

/-! ## What is written for a program -/

/-- The place of the label with a name. -/
def TranslationUnit.positionOf (unit : TranslationUnit) (name : CString) : Nat :=
  (unit.labels.find? (fun label => decide (label.name = some name))).elim 0 LabelNode.position

/-- The words of a placed program. -/
def objectImage (analyzer : SemanticAnalyzer) (placed : TranslationUnit) : List PlacedWord :=
  placeWords startingPosition (placed.slots.map (slotWord analyzer placed)) ++
    placeWords (startingPosition + placed.slots.length) (placed.values.map valueWord)

/-- Its external references, each at the address that is written for it. -/
def externalSymbols (analyzer : SemanticAnalyzer) (placed : TranslationUnit) :
    List SymbolAddress :=
  references (startingPosition + 1) (placed.slots.map (slotEmission analyzer placed))

/-- Its entries, each once, at the address that is written for it. -/
def entrySymbols (placed : TranslationUnit) : List SymbolAddress :=
  (newNames [] placed.entryNames).map
    fun name => ⟨name, placed.positionOf name + startingPosition⟩

/-- What the two passes behind a generator leave for the files, on a unit whose labels
have other places. -/
structure Written (analyzer : SemanticAnalyzer) (unit placed : TranslationUnit)
    (before listed : CodeGenerator) (result : ObjectGenerated) : Prop where
  errors : result.generator.errorHandler = before.errorHandler
  instructionLines : result.instructionLines = placed.slots.length
  guidanceLines : result.guidanceLines = placed.values.length
  object : result.generator.objectFile.data = objectText (objectImage analyzer placed)
  external : result.generator.externalFile.data = symbolText (externalSymbols analyzer placed)
  entries : listed.entryFile.data =
    symbolText (declaredEntries unit placed (newNames [] unit.entryNames))
  entryFile : result.generator.entryFile = listed.entryFile

/-- **The passes behind the first return** on every accepted program, however
many of its labels have been placed: they write its words and symbols, and report
nothing. -/
theorem Passed.secondPass {lexer : Lexer} {unit placed : TranslationUnit}
    {analyzer : SemanticAnalyzer} (h : Passed lexer unit analyzer)
    (hplaced : Relabelled unit placed) {generator : CodeGenerator}
    (hobject : generator.objectFile.data = []) (hexternal : generator.externalFile.data = []) :
    ∃ generator' analyzer' result,
      generateEntryFileString generator analyzer placed = .ok (generator', analyzer') ∧
      generateObjectAndExternalFiles generator' analyzer' placed = .ok result ∧
      Written analyzer unit placed generator generator' result := by
  obtain ⟨hmarked, hnames⟩ := h.table
  have hvalid : ∀ name cell, firstDeclaration unit.declarations name = some cell →
      cell.type = .label → placed.labelAt cell.value ≠ none := by
    intro name cell hfirst htype
    obtain ⟨label, -, hat, -⟩ := firstDeclaration_labelAt hfirst htype
    exact hplaced.labelAt (by rw [hat]; simp)
  have hentries : ∀ node ∈ placed.entryList, ∃ t, node.entryLabel = some t ∧
      t.string ∈ unit.labelNames := by
    intro node hnode
    rw [hplaced.entries] at hnode
    obtain ⟨-, t, ht, -⟩ := h.parsed.formed.entries node hnode
    exact ⟨t, ht, hnames t.string (List.mem_filterMap.mpr ⟨node, hnode, by rw [ht]; rfl⟩)⟩
  obtain ⟨entryFile, analyzer', marked', hrun, hmarked', hentryText⟩ :=
    generateEntryLines_relabelled hvalid hentries hmarked
      { generator with entryFile := stringCreate }
  obtain ⟨output, hemittedRun, hemitted⟩ := generateObjectAndExternalFiles_emitted
    (hplaced.formed h.parsed.formed) (hmarked'.pointersValid hvalid)
    { generator with entryFile := entryFile }
  obtain ⟨final, hfinal, htext, hlist, hkept⟩ := @generateObjectAndExternalFiles_files _ _ _
    (hplaced.formed h.parsed.formed) (hmarked'.pointersValid hvalid)
    { generator with entryFile := entryFile } hobject hexternal
  obtain ⟨hsame, -⟩ := ObjectGenerated.mk.inj (Except.ok.inj (hfinal.symm.trans hemittedRun))
  have hemission := hmarked.slotEmission_eq hmarked' placed
  have hword : slotWord analyzer' placed = slotWord analyzer placed := by
    funext slot
    exact congrArg Emission.word (congrFun hemission slot)
  have hentryNames : placed.entryNames = unit.entryNames := by
    rw [TranslationUnit.entryNames, hplaced.entries, TranslationUnit.entryNames]
  refine ⟨_, analyzer', _, hrun, hfinal, ?_, rfl, rfl, ?_, ?_, ?_, hkept⟩
  · rw [hsame]
    exact hemitted.errorHandler
  · rw [htext, hword]
    rfl
  · rw [hlist, hemission]
    rfl
  · have hnew : newNames [] (placed.entryList.filterMap fun node =>
        node.entryLabel.map Token.string) = newNames [] unit.entryNames := by
      rw [← hentryNames]
      rfl
    rw [hentryText, hnew]
    rfl

section Accepted

variable {lexer : Lexer} {unit placed : TranslationUnit} {analyzer : SemanticAnalyzer}
  {generator : CodeGenerator} (h : Accepted lexer unit analyzer generator placed)

include h

/-- An accepted unit has passed. -/
theorem Accepted.passed : Passed lexer unit analyzer :=
  ⟨h.lexed, h.parsed, h.analyzed, h.accepted⟩

/-- The position of a name is that of its label. -/
theorem Accepted.positionOf {label : LabelNode} (hlabel : label ∈ placed.labels) {name : CString}
    (hname : label.name = some name) : placed.positionOf name = label.position := by
  rw [TranslationUnit.positionOf]
  cases hfind : placed.labels.find? (fun label => decide (label.name = some name)) with
  | none =>
      have hnone := List.find?_eq_none.mp hfind label hlabel
      exact absurd (decide_eq_true hname) hnone
  | some found =>
      have hfound : found.name = some name := by simpa using List.find?_some hfind
      rw [h.label_unique (List.mem_of_find?_eq_some hfind) hlabel hfound hname]
      rfl

/-- The entries of an accepted program are at its labels. -/
theorem Accepted.declaredEntries_eq :
    declaredEntries unit placed (newNames [] unit.entryNames) = entrySymbols placed := by
  obtain ⟨-, hnames⟩ := h.passed.table
  obtain ⟨-, hplaced, -⟩ := h.toLaidOut.run
  have hentryNames : placed.entryNames = unit.entryNames := by
    rw [hplaced]
    rfl
  rw [entrySymbols, hentryNames, declaredEntries]
  refine List.map_congr_left fun name hname => ?_
  obtain ⟨cell, hfirst, htype⟩ := (firstDeclaration_label_iff unit name).mpr
    (hnames name (newNames_subset _ _ hname))
  obtain ⟨label, hlabel, hat, hlabelName⟩ := firstDeclaration_labelAt hfirst htype
  rw [← hplaced] at hlabel hat
  rw [TranslationUnit.declaredPosition, hfirst, Option.bind_some, hat,
    h.positionOf hlabel hlabelName]
  rfl

end Accepted

end Assembler
