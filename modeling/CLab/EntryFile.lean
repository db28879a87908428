import CLab.References

/-!
# The entry file

A line is written for the first `.entry` of a name, and the mark in the name's
cell keeps the others from writing one (`generateEntryLines_run`).  The position
of a label already counts from the starting position, which the line adds once
more, so no line has the address of its label's first word.
-/

namespace Assembler

/-! ## Marks in the table -/

/-- A cell that is written over by one with its key leaves the keys as they are. -/
theorem setCell_keys_same {analyzer : SemanticAnalyzer} {index : Nat}
    {cell cell' : IdentifierCell} (hcell : analyzer.hash.getD index none = some cell)
    (hkey : cell'.key = cell.key) : (analyzer.setCell index cell').keys = analyzer.keys := by
  have hslot := keys_getD analyzer index
  rw [hcell, Option.map_some, List.getD_eq_getElem?_getD] at hslot
  rw [setCell_keys, hkey]
  apply List.ext_getElem?
  intro j
  rw [List.getElem?_set]
  split_ifs with hij hlt
  · subst hij
    rw [List.getElem?_eq_getElem hlt] at hslot ⊢
    exact congrArg some hslot.symm
  · subst hij
    exact (List.getElem?_eq_none (Nat.le_of_not_lt hlt)).symm
  · rfl

/-- **Only the name of the cell is looked up differently.** -/
theorem lookup_setCell {analyzer : SemanticAnalyzer} (h : Probing.Placed home analyzer.keys)
    {index : Nat} {cell cell' : IdentifierCell}
    (hcell : analyzer.hash.getD index none = some cell) (hkey : cell'.key = cell.key)
    (name : CString) : (analyzer.setCell index cell').lookup name =
      if name = cell.key then some cell' else analyzer.lookup name := by
  have hkeys := setCell_keys_same hcell hkey
  have hindex : analyzer.keys.getD index none = some cell.key := by
    rw [keys_getD, hcell]
    rfl
  have hlt : index < analyzer.size := by
    by_contra hge
    rw [List.getD_eq_default _ _ (by simpa [SemanticAnalyzer.size] using hge)] at hcell
    exact absurd hcell (by simp)
  have hfind : semanticAnalyzerFindIdentifier (analyzer.setCell index cell') name =
      semanticAnalyzerFindIdentifier analyzer name := by
    apply Option.ext
    intro j
    rw [find_eq_some_iff (hkeys ▸ h), find_eq_some_iff h, hkeys]
  have hat : ∀ j, semanticAnalyzerFindIdentifier analyzer name = some j →
      (index = j ↔ name = cell.key) := by
    intro j hj
    constructor
    · intro hsame
      have hslot := (find_eq_some_iff h).mp hj
      rw [← hsame, hindex] at hslot
      exact (Option.some.inj hslot).symm
    · intro hsame
      rw [hsame, (find_eq_some_iff h).mpr hindex] at hj
      exact Option.some.inj hj
  rw [SemanticAnalyzer.lookup, SemanticAnalyzer.lookup, hfind]
  cases hj : semanticAnalyzerFindIdentifier analyzer name with
  | none =>
      have hne : name ≠ cell.key := by
        intro hsame
        rw [hsame, (find_eq_some_iff h).mpr hindex] at hj
        exact absurd hj (by simp)
      rw [if_neg hne]
      rfl
  | some j =>
      rw [Option.bind_some, Option.bind_some, setCell_getD hlt]
      simp only [hat j hj]

/-- The table of the declarations, in which the names of a list are marked. -/
structure Marked (analyzer : SemanticAnalyzer) (declared : List IdentifierCell)
    (marked : List CString) : Prop where
  placed : Probing.Placed home analyzer.keys
  lookup : ∀ name, analyzer.lookup name = (firstDeclaration declared name).map
    (fun cell => { cell with hasEntry := decide (name ∈ marked) })

/-- After the analysis no name is marked. -/
theorem Table.marked {analyzer : SemanticAnalyzer} {unit : TranslationUnit}
    (h : Table analyzer unit.declarations) : Marked analyzer unit.declarations [] := by
  refine ⟨h.placed, ?_⟩
  intro name
  rw [h.lookup]
  cases hfirst : firstDeclaration unit.declarations name with
  | none => rfl
  | some cell =>
      have hmem := List.mem_of_find?_eq_some hfirst
      have hentry : cell.hasEntry = false := by
        rw [TranslationUnit.declarations] at hmem
        rcases List.mem_append.mp hmem with hmem | hmem
        · exact (labelCells_cell cell hmem).2
        · rcases List.mem_append.mp hmem with hmem | hmem
          · exact (labelCells_cell cell hmem).2
          · exact (externalCells_cell cell hmem).2
      cases cell
      simp_all

/-- A mark keeps the pointers. -/
theorem Marked.pointersValid {analyzer : SemanticAnalyzer} {unit : TranslationUnit}
    {declared : List IdentifierCell} {marked : List CString} (h : Marked analyzer declared marked)
    (hvalid : ∀ name cell, firstDeclaration declared name = some cell → cell.type = .label →
      unit.labelAt cell.value ≠ none) : PointersValid analyzer unit := by
  intro name cell hlookup htype
  rw [h.lookup] at hlookup
  obtain ⟨declaration, hfirst, rfl⟩ := Option.map_eq_some_iff.mp hlookup
  exact hvalid name declaration hfirst htype

/-- The cell of a name is found at its place. -/
theorem findCell_eq_some {analyzer : SemanticAnalyzer} {name : CString} {index : Nat}
    {cell : IdentifierCell} : analyzer.findCell name = some (index, cell) ↔
      semanticAnalyzerFindIdentifier analyzer name = some index ∧
        analyzer.hash.getD index none = some cell := by
  rw [SemanticAnalyzer.findCell, Option.bind_eq_some_iff]
  constructor
  · intro hfound
    obtain ⟨index', hindex, hmap⟩ := hfound
    obtain ⟨cell', hcell, heq⟩ := Option.map_eq_some_iff.mp hmap
    obtain ⟨rfl, rfl⟩ := Prod.mk.inj heq
    exact ⟨hindex, hcell⟩
  · intro hfound
    exact ⟨index, hfound.1, by rw [hfound.2]; rfl⟩

/-- A name that is known has one. -/
theorem exists_findCell {analyzer : SemanticAnalyzer} {name : CString} {cell : IdentifierCell}
    (h : analyzer.lookup name = some cell) :
    ∃ index, analyzer.findCell name = some (index, cell) := by
  obtain ⟨index, hindex, hcell⟩ := Option.bind_eq_some_iff.mp h
  exact ⟨index, findCell_eq_some.mpr ⟨hindex, hcell⟩⟩

/-- A cell that is marked adds its name to the marked ones. -/
theorem Marked.mark {analyzer : SemanticAnalyzer} {declared : List IdentifierCell}
    {marked : List CString} (h : Marked analyzer declared marked) {name : CString} {index : Nat}
    {cell : IdentifierCell} (hfind : analyzer.findCell name = some (index, cell)) :
    Marked (analyzer.setCell index { cell with hasEntry := true }) declared (name :: marked) := by
  obtain ⟨hindex, hcell⟩ := findCell_eq_some.mp hfind
  have hkey : cell.key = name := by
    have hslot := (find_eq_some_iff h.placed).mp hindex
    rw [keys_getD, hcell] at hslot
    exact Option.some.inj hslot
  have hsameKey : ({ cell with hasEntry := true } : IdentifierCell).key = cell.key := rfl
  refine ⟨?_, ?_⟩
  · rw [setCell_keys_same hcell hsameKey]
    exact h.placed
  · intro other
    rw [lookup_setCell h.placed hcell hsameKey]
    by_cases hsame : other = name
    · have hlookup : analyzer.lookup name = some cell := by
        rw [SemanticAnalyzer.lookup, hindex]
        exact hcell
      rw [h.lookup] at hlookup
      obtain ⟨declaration, hfirst, rfl⟩ := Option.map_eq_some_iff.mp hlookup
      subst hsame
      rw [if_pos hkey.symm, hfirst]
      simp
    · rw [if_neg (hkey ▸ hsame), h.lookup]
      congr 1
      funext declaration
      simp [hsame]

/-! ## The lines -/

/-- Names in the order in which they are met first, without those of a list. -/
def newNames (known : List CString) : List CString → List CString
  | [] => []
  | name :: rest =>
      if name ∈ known then newNames known rest else name :: newNames (name :: known) rest

/-- No name is new that is not there. -/
theorem newNames_subset (known names : List CString) : newNames known names ⊆ names := by
  induction names generalizing known with
  | nil => exact List.Subset.refl _
  | cons name rest ih =>
      rw [newNames]
      split_ifs with hknown
      · exact List.Subset.trans (ih known) (List.subset_cons_self name rest)
      · exact List.cons_subset_cons _ (ih _)

/-- What the pass over the entries has written, where some names were marked. -/
structure EntriesWritten (unit : TranslationUnit) (before after : CodeGenerator)
    (symbols : List SymbolAddress) : Prop where
  entryFile : after.entryFile.data = before.entryFile.data ++ symbolText symbols
  objectFile : after.objectFile = before.objectFile
  externalFile : after.externalFile = before.externalFile
  /-- The position of the label, and the starting position once more. -/
  labels : ∀ symbol ∈ symbols, ∃ label ∈ unit.placed.labels, label.name = some symbol.name ∧
    symbol.address = label.position + startingPosition

/-- **The pass over the entries** writes a line for each new name. -/
theorem generateEntryLines_run {unit : TranslationUnit} {entries : List EntryNode}
    (hentries : ∀ node ∈ entries, ∃ t, node.entryLabel = some t ∧ t.string ∈ unit.labelNames)
    {analyzer : SemanticAnalyzer} {marked : List CString}
    (h : Marked analyzer unit.declarations marked) (generator : CodeGenerator) :
    ∃ generator' analyzer' marked' symbols,
      generateEntryLines generator analyzer unit.placed entries = .ok (generator', analyzer') ∧
      Marked analyzer' unit.declarations marked' ∧
      EntriesWritten unit generator generator' symbols ∧
      symbols.map SymbolAddress.name =
        newNames marked (entries.filterMap (fun node => node.entryLabel.map Token.string)) := by
  induction entries generalizing analyzer marked generator with
  | nil =>
      refine ⟨generator, analyzer, marked, [], rfl, h, ⟨?_, rfl, rfl, by simp⟩, rfl⟩
      simp [symbolText, Numerals.unlines]
  | cons node rest ih =>
      obtain ⟨t, ht, hname⟩ := hentries node (by simp)
      have hrest := fun n hn => hentries n (List.mem_cons_of_mem _ hn)
      obtain ⟨declaration, hfirst, htype⟩ := (firstDeclaration_label_iff unit t.string).mpr hname
      have hlookup := h.lookup t.string
      rw [hfirst, Option.map_some] at hlookup
      obtain ⟨index, hcell⟩ := exists_findCell hlookup
      rw [generateEntryLines, ht, List.filterMap_cons_some (by rw [ht]; rfl), newNames]
      simp only [hcell]
      by_cases hmarked : t.string ∈ marked
      · rw [if_pos (decide_eq_true hmarked), if_pos hmarked]
        exact ih hrest h generator
      · rw [if_neg (by simpa using hmarked), if_neg hmarked]
        obtain ⟨label, hlabel, hat, hlabelName⟩ := firstDeclaration_labelAt hfirst htype
        obtain ⟨generator', analyzer', marked', symbols, hrun, hmarks, hwritten, hnames⟩ :=
          ih hrest (h.mark hcell)
            { generator with
              entryFile := stringAppendCstr (stringAppend generator.entryFile t.string)
                (bytes " " ++ formatDecimal 4 (label.position + startingPosition) ++ bytes "\n") }
        refine ⟨generator', analyzer', marked',
          ⟨t.string, label.position + startingPosition⟩ :: symbols, ?_, hmarks,
          ⟨?_, hwritten.objectFile, hwritten.externalFile, ?_⟩, ?_⟩
        · simp only [writeEntry, hat, bind, Except.bind]
          exact hrun
        · rw [hwritten.entryFile]
          simp only [stringAppendCstr_data, stringAppend_data, cstrText_blank_decimal]
          simp [symbolText, symbolLine, Numerals.unlines]
        · intro symbol hsymbol
          rcases List.mem_cons.mp hsymbol with rfl | hsymbol
          · exact ⟨label, hlabel, hlabelName, rfl⟩
          · exact hwritten.labels symbol hsymbol
        · rw [List.map_cons, hnames]

/-! ## The addresses -/

/-- The second pass writes the first word of a label at an address. -/
def FirstWordAt (generator : CodeGenerator) (analyzer : SemanticAnalyzer)
    (unit : TranslationUnit) (label : LabelNode) (address : Nat) : Prop :=
  ∃ before after output output' text image,
    (unit.instructionLabelList = before ++ label :: after ∧
      instructionLabelRun generator analyzer unit before label = .ok (output, output') ∨
    unit.guidanceLabelList = before ++ label :: after ∧
      guidanceLabelRun generator analyzer unit before label = .ok (output, output')) ∧
    output'.1.objectFile.data = output.1.objectFile.data ++ text ∧
    readObject text = some image ∧ image.head?.map PlacedWord.address = some address

/-- The entry file has a line for every name that is declared an entry, in the
order of the first declarations, with the address of the label's first word. -/
def EntriesListed (generator : CodeGenerator) (analyzer : SemanticAnalyzer)
    (unit : TranslationUnit) : Prop :=
  ∃ symbols, generator.entryFile.data = symbolText symbols ∧
    symbols.map SymbolAddress.name = newNames [] unit.entryNames ∧
    ∀ symbol ∈ symbols, ∃ label ∈ unit.labels, label.name = some symbol.name ∧
      FirstWordAt generator analyzer unit label symbol.address

section Accepted

variable {lexer : Lexer} {unit placed : TranslationUnit} {analyzer analyzer' : SemanticAnalyzer}
  {generator start : CodeGenerator}

/-- The first word of a label is written at its position. -/
theorem LaidOut.firstWordAt (h : LaidOut lexer unit generator placed)
    (hvalid : PointersValid analyzer placed) {label : LabelNode} {address : Nat}
    (hfirst : FirstWordAt start analyzer placed label address) : address = label.position := by
  obtain ⟨before, after, output, output', text, image, hrun, htext, hread, haddress⟩ := hfirst
  have hemitted : ∃ emissions, Emitted output output' emissions ∧ output.2 = label.position := by
    rcases hrun with ⟨hsplit, hrun⟩ | ⟨hsplit, hrun⟩
    · obtain ⟨_, _, hrun', hemitted, hposition, -⟩ := h.instructionLabelRun hvalid start hsplit
      obtain ⟨rfl, rfl⟩ := Prod.mk.inj (Except.ok.inj (hrun.symm.trans hrun'))
      exact ⟨_, hemitted, hposition⟩
    · obtain ⟨_, _, hrun', hemitted, hposition, -⟩ := h.guidanceLabelRun hvalid start hsplit
      obtain ⟨rfl, rfl⟩ := Prod.mk.inj (Except.ok.inj (hrun.symm.trans hrun'))
      exact ⟨_, hemitted, hposition⟩
  obtain ⟨emissions, hemitted, hposition⟩ := hemitted
  rw [hemitted.object] at htext
  have himage := hread.symm.trans
    ((congrArg readObject (List.append_cancel_left htext)).symm.trans (readObject_objectText _))
  rw [Option.some.inj himage] at haddress
  cases hwords : emissions.map Emission.word with
  | nil => simp [hwords] at haddress
  | cons word rest =>
      rw [hwords, placeWords] at haddress
      exact (Option.some.inj haddress).symm.trans hposition

/-- A well-formed instruction has a word. -/
theorem InstructionFormed.slots_ne_nil {source : List Token} {node : InstructionNode}
    (h : InstructionFormed source node) : instructionSlots node ≠ [] := by
  have hordered := h.ordered
  rw [instructionSlots]
  cases hfirst : node.firstOperand with
  | none =>
      cases hsecond : node.secondOperand with
      | none => simp
      | some second => exact absurd hfirst (hordered (by simp [hsecond]))
  | some first =>
      cases hsecond : node.secondOperand with
      | none => simp
      | some second =>
          simp only
          split_ifs <;> simp

/-- Every directive has a value. -/
theorem GuidanceFormed.values_ne_nil {source : List Token} {node : GuidanceNode}
    (h : GuidanceFormed source node) : guidanceValues node ≠ [] := by
  cases node with
  | dataNode node => simpa [guidanceValues] using h.1
  | stringNode node =>
      obtain ⟨⟨t, -, ht, -⟩, -⟩ := h
      simp [guidanceValues, ht]

/-- Parts that are not empty make up something. -/
theorem flatMap_ne_nil {α β : Type} {f : α → List β} {xs : List α} (hxs : xs ≠ [])
    (hf : ∀ x ∈ xs, f x ≠ []) : xs.flatMap f ≠ [] := by
  obtain ⟨x, rest, rfl⟩ := List.exists_cons_of_ne_nil hxs
  rw [List.flatMap_cons]
  exact List.append_ne_nil_of_left_ne_nil (hf x (by simp)) _

/-- What is emitted begins at the position. -/
theorem Emitted.firstWord {output output' : Output} {emissions : List Emission}
    (h : Emitted output output' emissions) (hne : emissions ≠ []) :
    ∃ text image, output'.1.objectFile.data = output.1.objectFile.data ++ text ∧
      readObject text = some image ∧ image.head?.map PlacedWord.address = some output.2 := by
  refine ⟨_, _, h.object, readObject_objectText _, ?_⟩
  obtain ⟨emission, rest, rfl⟩ := List.exists_cons_of_ne_nil hne
  rfl

/-- **Every label has a first word**, at its position. -/
theorem LaidOut.firstWordAt_iff (h : LaidOut lexer unit generator placed)
    (hvalid : PointersValid analyzer placed) {label : LabelNode} (hlabel : label ∈ placed.labels)
    {address : Nat} :
    FirstWordAt start analyzer placed label address ↔ address = label.position := by
  refine ⟨h.firstWordAt hvalid, ?_⟩
  intro haddress
  rw [haddress]
  have hformed : UnitFormed lexer.tokenList placed := by
    obtain ⟨-, rfl, -⟩ := h.run
    exact h.formed.placed
  rcases List.mem_append.mp hlabel with hlabel | hlabel
  · obtain ⟨before, after, hsplit⟩ := List.append_of_mem hlabel
    obtain ⟨output, output', hrun, hemitted, hposition, -⟩ :=
      h.instructionLabelRun hvalid start hsplit
    obtain ⟨-, hne, hall⟩ := hformed.instructions label hlabel
    have hwords := flatMap_ne_nil hne (fun node hnode => (hall node hnode).slots_ne_nil)
    rw [← hposition]
    obtain ⟨text, image, hfirst⟩ := hemitted.firstWord (by simpa using hwords)
    exact ⟨before, after, output, output', text, image, Or.inl ⟨hsplit, hrun⟩, hfirst⟩
  · obtain ⟨before, after, hsplit⟩ := List.append_of_mem hlabel
    obtain ⟨output, output', hrun, hemitted, hposition, -⟩ :=
      h.guidanceLabelRun hvalid start hsplit
    obtain ⟨-, hne, hall⟩ := hformed.guidance label hlabel
    have hwords := flatMap_ne_nil hne (fun node hnode => (hall node hnode).values_ne_nil)
    rw [← hposition]
    obtain ⟨text, image, hfirst⟩ := hemitted.firstWord (by simpa using hwords)
    exact ⟨before, after, output, output', text, image, Or.inr ⟨hsplit, hrun⟩, hfirst⟩

/-- The entry file and the two other files, as the stages are called. -/
theorem Accepted.entries (h : Accepted lexer unit analyzer generator placed) :
    ∃ generator' analyzer' symbols,
      generateEntryFileString generator analyzer placed = .ok (generator', analyzer') ∧
      PointersValid analyzer' placed ∧ generator'.entryFile.data = symbolText symbols ∧
      generator'.objectFile.data = [] ∧ generator'.externalFile.data = [] ∧
      symbols.map SymbolAddress.name = newNames [] placed.entryNames ∧
      ∀ symbol ∈ symbols, ∃ label ∈ placed.labels, label.name = some symbol.name ∧
        symbol.address = label.position + startingPosition := by
  obtain ⟨htable, -, hentryNames, -⟩ := h.run
  obtain ⟨rfl, rfl, -⟩ := h.toLaidOut.run
  have hentries : ∀ node ∈ unit.entryList, ∃ t, node.entryLabel = some t ∧
      t.string ∈ unit.labelNames := by
    intro node hnode
    obtain ⟨-, t, ht, -⟩ := h.formed.entries node hnode
    exact ⟨t, ht, hentryNames t.string
      (List.mem_filterMap.mpr ⟨node, hnode, by rw [ht]; rfl⟩)⟩
  obtain ⟨generator', analyzer', marked', symbols, hrun, hmarked, hwritten, hnames⟩ :=
    generateEntryLines_run hentries htable.marked
      { codeGeneratorInitialize lexer with entryFile := stringCreate }
  refine ⟨generator', analyzer', symbols, hrun, ?_, hwritten.entryFile, ?_, ?_, hnames,
    hwritten.labels⟩
  · apply hmarked.pointersValid
    intro name cell hfirst htype hnone
    obtain ⟨node, -, hnode, -⟩ := firstDeclaration_labelAt hfirst htype
    exact absurd (hnode.symm.trans hnone) (by simp)
  · rw [hwritten.objectFile]
    rfl
  · rw [hwritten.externalFile]
    rfl

/-- Labels of one name are the same. -/
theorem Accepted.label_unique (h : Accepted lexer unit analyzer generator placed)
    {label label' : LabelNode} (hlabel : label ∈ placed.labels) (hlabel' : label' ∈ placed.labels)
    {name : CString} (hname : label.name = some name) (hname' : label'.name = some name) :
    label = label' := by
  obtain ⟨cell, hlookup, -, hat⟩ := h.lookup_label hlabel hname
  obtain ⟨cell', hlookup', -, hat'⟩ := h.lookup_label hlabel' hname'
  obtain rfl := Option.some.inj (hlookup.symm.trans hlookup')
  exact Option.some.inj (hat.symm.trans hat')

/-- A line says where its label's first word is only if there is no line. -/
theorem Accepted.entryList_eq_nil (h : Accepted lexer unit analyzer generator placed)
    (hentries : generateEntryFileString generator analyzer placed = .ok (start, analyzer'))
    (hlisted : EntriesListed start analyzer' placed) : placed.entryList = [] := by
  obtain ⟨generator', analyzer'', symbols, hrun, hvalid, htext, -, -, hnames, hwritten⟩ := h.entries
  obtain ⟨rfl, rfl⟩ := Prod.mk.inj (Except.ok.inj (hentries.symm.trans hrun))
  obtain ⟨symbols', htext', hnames', hlisted'⟩ := hlisted
  rw [htext] at htext'
  cases symbols with
  | nil =>
      cases hlist : placed.entryList with
      | nil => rfl
      | cons node rest =>
          obtain ⟨-, rfl, -⟩ := h.toLaidOut.run
          obtain ⟨-, t, ht, -⟩ := h.formed.entries node (by
            have hsame : unit.entryList = node :: rest := hlist
            simp [hsame])
          rw [TranslationUnit.entryNames, hlist,
            List.filterMap_cons_some (by rw [ht]; rfl)] at hnames
          exact absurd hnames (by simp [newNames])
  | cons symbol rest =>
      cases symbols' with
      | nil => exact absurd (hnames.trans hnames'.symm) (by simp)
      | cons symbol' rest' =>
          have hname : symbol.name = symbol'.name :=
            (List.cons.inj (hnames.trans hnames'.symm)).1
          obtain ⟨label, hlabel, hlabelName, haddress⟩ := hwritten symbol (by simp)
          obtain ⟨label', hlabel', hlabelName', hfirst⟩ := hlisted' symbol' (by simp)
          obtain rfl := h.label_unique hlabel hlabel' hlabelName (hname ▸ hlabelName')
          have hposition := (h.toLaidOut.firstWordAt_iff hvalid hlabel).mp hfirst
          have hsame : symbol.address = symbol'.address := by
            cases symbol
            cases symbol'
            simp only at hname
            subst hname
            exact symbolText_address htext'
          rw [haddress, hposition] at hsame
          exact absurd hsame (by simp [startingPosition])

end Accepted

/-- **The entry file agrees with the object file exactly if it is empty**: every
line counts the starting position twice. -/
theorem generateEntryFileString_lists_iff {lexer : Lexer} {unit placed : TranslationUnit}
    {analyzer : SemanticAnalyzer} {generator : CodeGenerator}
    (h : Accepted lexer unit analyzer generator placed) : ∃ generator' analyzer' result,
    generateEntryFileString generator analyzer placed = .ok (generator', analyzer') ∧
      generateObjectAndExternalFiles generator' analyzer' placed = .ok result ∧
      (EntriesListed generator' analyzer' placed ↔ placed.entryList = []) := by
  obtain ⟨generator', analyzer', symbols, hrun, hvalid, htext, hobject, hexternal, hnames, -⟩ :=
    h.entries
  have hformed : UnitFormed lexer.tokenList placed := by
    obtain ⟨-, rfl, -⟩ := h.toLaidOut.run
    exact h.formed.placed
  obtain ⟨final, hgenerated, -⟩ :=
    generateObjectAndExternalFiles_files hformed hvalid hobject hexternal
  refine ⟨generator', analyzer', _, hrun, hgenerated, h.entryList_eq_nil hrun, ?_⟩
  intro hnone
  have hnoNames : newNames [] placed.entryNames = [] := by
    rw [TranslationUnit.entryNames, hnone]
    rfl
  obtain rfl := List.map_eq_nil_iff.mp (hnames.trans hnoNames)
  exact ⟨[], htext, hnoNames.symm, by simp⟩

/-- A label that is an entry. -/
theorem generateEntryFileString_lists_iff_sample :
    ∃ unit analyzer generator placed,
      Accepted (sampleLexer "A: jmp A\n.entry A\n") unit analyzer generator placed ∧
      ∃ generator' analyzer' result,
        generateEntryFileString generator analyzer placed = .ok (generator', analyzer') ∧
          generateObjectAndExternalFiles generator' analyzer' placed = .ok result ∧
          (EntriesListed generator' analyzer' placed ↔ placed.entryList = []) := by
  have haccepts : acceptsWith (fun _ => true) (sampleLexer "A: jmp A\n.entry A\n") = true := by
    decide +kernel
  obtain ⟨unit, analyzer, generator, placed, h, -⟩ := exists_accepted (.file _ _) haccepts
  exact ⟨unit, analyzer, generator, placed, h, generateEntryFileString_lists_iff h⟩

/-- The first word of `A` is written at 100, and its line says 200. -/
theorem not_lists_entry : ∃ unit analyzer generator placed generator' analyzer',
    Accepted (sampleLexer "A: jmp A\n.entry A\n") unit analyzer generator placed ∧
      generateEntryFileString generator analyzer placed = .ok (generator', analyzer') ∧
      ¬ EntriesListed generator' analyzer' placed := by
  have haccepts : acceptsWith (fun run => decide (run.2.2.2.entryList ≠ []))
      (sampleLexer "A: jmp A\n.entry A\n") = true := by decide +kernel
  obtain ⟨unit, analyzer, generator, placed, h, hcheck⟩ := exists_accepted (.file _ _) haccepts
  obtain ⟨generator', analyzer', symbols, hrun, -⟩ := h.entries
  exact ⟨unit, analyzer, generator, placed, generator', analyzer', h, hrun,
    fun hlisted => of_decide_eq_true hcheck (h.entryList_eq_nil hrun hlisted)⟩

end Assembler
