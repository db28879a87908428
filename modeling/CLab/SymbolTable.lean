import CLab.ParsedUnit
import CLab.SemanticAnalyzer

/-!
# The table of identifiers

The declarations of a unit, in the order in which they are entered, are what
the table means: a name is looked up as if the list were searched from its
front (`Table`).  From what one declaration does to the table (`declareLabel_run`,
`declareExternal_run`) follows what the four passes over the unit do to it and to
the list of errors.
-/

namespace Assembler

/-! ## The declarations of a unit -/

/-- The cells of a list of labels. -/
def labelCells (value : Nat → IdentifierValue) (index : Nat) :
    List LabelNode → List IdentifierCell
  | [] => []
  | node :: rest => match node.label with
    | none => labelCells value (index + 1) rest
    | some label =>
        { key := label.string, value := value index, type := .label, hasEntry := false } ::
          labelCells value (index + 1) rest

/-- The cells of a list of externals. -/
def externalCells (index : Nat) : List ExternalNode → List IdentifierCell
  | [] => []
  | node :: rest => match node.externalLabel with
    | none => externalCells (index + 1) rest
    | some label =>
        { key := label.string, value := .external index, type := .external, hasEntry := false } ::
          externalCells (index + 1) rest

/-- Instruction labels, then the guidance labels that have a name, then
externals. -/
def TranslationUnit.declarations (unit : TranslationUnit) : List IdentifierCell :=
  labelCells .instructionLabel 0 unit.instructionLabelList ++
    (labelCells .guidanceLabel 0 unit.guidanceLabelList ++ externalCells 0 unit.externalList)

/-- The names of the labels, instructions first. -/
def TranslationUnit.labelNames (unit : TranslationUnit) : List CString :=
  (unit.instructionLabelList ++ unit.guidanceLabelList).filterMap
    (fun node => node.label.map Token.string)

/-- The names of the externals. -/
def TranslationUnit.externalNames (unit : TranslationUnit) : List CString :=
  unit.externalList.filterMap (fun node => node.externalLabel.map Token.string)

/-- The names of the entries. -/
def TranslationUnit.entryNames (unit : TranslationUnit) : List CString :=
  unit.entryList.filterMap (fun node => node.entryLabel.map Token.string)

/-- The keys of these cells are the names of the labels. -/
theorem labelCells_keys (value : Nat → IdentifierValue) (index : Nat) (labels : List LabelNode) :
    (labelCells value index labels).map IdentifierCell.key =
      labels.filterMap (fun node => node.label.map Token.string) := by
  induction labels generalizing index with
  | nil => rfl
  | cons node rest ih => cases hlabel : node.label <;> simp [labelCells, hlabel, ih]

/-- No cell is marked at first. -/
theorem labelCells_cell {value : Nat → IdentifierValue} {index : Nat} {labels : List LabelNode} :
    ∀ cell ∈ labelCells value index labels, cell.type = .label ∧ cell.hasEntry = false := by
  induction labels generalizing index with
  | nil => simp [labelCells]
  | cons node rest ih =>
      intro cell hcell
      cases hlabel : node.label with
      | none =>
          rw [labelCells, hlabel] at hcell
          exact ih cell hcell
      | some label =>
          rw [labelCells, hlabel] at hcell
          rcases List.mem_cons.mp hcell with rfl | hcell
          · exact ⟨rfl, rfl⟩
          · exact ih cell hcell

theorem externalCells_keys (index : Nat) (externals : List ExternalNode) :
    (externalCells index externals).map IdentifierCell.key =
      externals.filterMap (fun node => node.externalLabel.map Token.string) := by
  induction externals generalizing index with
  | nil => rfl
  | cons node rest ih => cases hlabel : node.externalLabel <;> simp [externalCells, hlabel, ih]

/-- A cell of an external is marked as one and has no entry yet. -/
theorem externalCells_cell {index : Nat} {externals : List ExternalNode} :
    ∀ cell ∈ externalCells index externals, cell.type = .external ∧ cell.hasEntry = false := by
  induction externals generalizing index with
  | nil => simp [externalCells]
  | cons node rest ih =>
      intro cell hcell
      cases hlabel : node.externalLabel with
      | none =>
          rw [externalCells, hlabel] at hcell
          exact ih cell hcell
      | some label =>
          rw [externalCells, hlabel] at hcell
          rcases List.mem_cons.mp hcell with rfl | hcell
          · exact ⟨rfl, rfl⟩
          · exact ih cell hcell

/-- All names that are declared, labels first. -/
theorem declarations_keys (unit : TranslationUnit) :
    unit.declarations.map IdentifierCell.key = unit.labelNames ++ unit.externalNames := by
  simp [TranslationUnit.declarations, TranslationUnit.labelNames, TranslationUnit.externalNames,
    labelCells_keys, externalCells_keys]

/-! ## The table and its declarations -/

/-- The slot a name is hashed to, before it is cut to the size. -/
def home (key : CString) : Nat := (computeStringHash key).toNat

/-- The declaration that a name stands for. -/
def firstDeclaration (declared : List IdentifierCell) (name : CString) : Option IdentifierCell :=
  declared.find? (fun cell => cell.key = name)

/-- There is no first declaration of a name that is not declared. -/
theorem firstDeclaration_none {declared : List IdentifierCell} {name : CString} :
    firstDeclaration declared name = none ↔ name ∉ declared.map IdentifierCell.key := by
  rw [firstDeclaration, List.find?_eq_none]
  simp

/-- The table holds the declarations of the list. -/
structure Table (analyzer : SemanticAnalyzer) (declared : List IdentifierCell) : Prop where
  placed : Probing.Placed home analyzer.keys
  room : Probing.occupied analyzer.keys ≤ declared.length
  lookup : ∀ name, analyzer.lookup name = firstDeclaration declared name

/-- There is a key for every cell. -/
@[simp] theorem keys_length (analyzer : SemanticAnalyzer) :
    analyzer.keys.length = analyzer.size := by
  simp [SemanticAnalyzer.keys, SemanticAnalyzer.size]

theorem keys_getD (analyzer : SemanticAnalyzer) (index : Nat) :
    analyzer.keys.getD index none =
      (analyzer.hash.getD index none).map IdentifierCell.key := by
  rw [SemanticAnalyzer.keys, List.getD_eq_getElem?_getD, List.getD_eq_getElem?_getD,
    List.getElem?_map]
  cases analyzer.hash[index]? <;> rfl

/-- A name is found where its key is. -/
theorem find_eq_some_iff {analyzer : SemanticAnalyzer}
    (h : Probing.Placed home analyzer.keys) {name : CString} {index : Nat} :
    semanticAnalyzerFindIdentifier analyzer name = some index ↔
      analyzer.keys.getD index none = some name := by
  rw [← h.probe_found_iff, semanticAnalyzerFindIdentifier]
  by_cases hsize : analyzer.size = 0
  · have hkeys : analyzer.keys = [] := List.eq_nil_of_length_eq_zero (by simpa using hsize)
    simp [hsize, hkeys, Probing.probe, Probing.walk]
  · rw [if_neg hsize, home]
    cases Probing.probe analyzer.keys name (computeStringHash name).toNat <;> simp

/-- A lookup gives the cell that has the name. -/
theorem lookup_eq_some_iff {analyzer : SemanticAnalyzer}
    (h : Probing.Placed home analyzer.keys) {name : CString} {cell : IdentifierCell} :
    analyzer.lookup name = some cell ↔
      ∃ index, analyzer.hash.getD index none = some cell ∧ cell.key = name := by
  rw [SemanticAnalyzer.lookup, Option.bind_eq_some_iff]
  constructor
  · intro hfound
    obtain ⟨index, hfind, hcell⟩ := hfound
    rw [find_eq_some_iff h, keys_getD, hcell] at hfind
    exact ⟨index, hcell, Option.some.inj hfind⟩
  · intro hslot
    obtain ⟨index, hcell, hkey⟩ := hslot
    refine ⟨index, ?_, hcell⟩
    rw [find_eq_some_iff h, keys_getD, hcell, Option.map_some, hkey]

/-- Nothing is found exactly where nothing can be read. -/
theorem find_eq_none_iff {analyzer : SemanticAnalyzer}
    (h : Probing.Placed home analyzer.keys) {name : CString} :
    semanticAnalyzerFindIdentifier analyzer name = none ↔ analyzer.lookup name = none := by
  rw [SemanticAnalyzer.lookup]
  cases hfind : semanticAnalyzerFindIdentifier analyzer name with
  | none => simp
  | some index =>
      have hslot := (find_eq_some_iff h).mp hfind
      rw [keys_getD] at hslot
      cases hcell : analyzer.hash.getD index none with
      | none => rw [hcell] at hslot; exact absurd hslot (by simp)
      | some cell => simp only [Option.bind_some, hcell, reduceCtorEq]

/-- A name that is known keeps its first declaration. -/
theorem Table.known {analyzer : SemanticAnalyzer} {declared : List IdentifierCell}
    (h : Table analyzer declared) {cell : IdentifierCell}
    (hknown : cell.key ∈ declared.map IdentifierCell.key) :
    Table analyzer (declared ++ [cell]) := by
  refine ⟨h.placed, ?_, ?_⟩
  · rw [List.length_append]
    exact Nat.le_add_right_of_le h.room
  · intro name
    rw [h.lookup, firstDeclaration, firstDeclaration, List.find?_append]
    cases hfirst : declared.find? (fun cell => cell.key = name) with
    | some first => rfl
    | none =>
        have hne : cell.key ≠ name := by
          intro heq
          exact firstDeclaration_none.mp hfirst (heq ▸ hknown)
        simp [hne]

/-- The analyzer with a cell of its table written. -/
def SemanticAnalyzer.setCell (analyzer : SemanticAnalyzer) (index : Nat) (cell : IdentifierCell) :
    SemanticAnalyzer :=
  { analyzer with hash := analyzer.hash.set index (some cell) }

/-- Setting a cell sets its key. -/
theorem setCell_keys (analyzer : SemanticAnalyzer) (index : Nat) (cell : IdentifierCell) :
    (analyzer.setCell index cell).keys = analyzer.keys.set index (some cell.key) := by
  simp [SemanticAnalyzer.keys, SemanticAnalyzer.setCell, List.map_set]

@[simp] theorem setCell_size (analyzer : SemanticAnalyzer) (index : Nat) (cell : IdentifierCell) :
    (analyzer.setCell index cell).size = analyzer.size :=
  List.length_set

theorem setCell_getD {analyzer : SemanticAnalyzer} {index : Nat} (h : index < analyzer.size)
    (cell : IdentifierCell) (j : Nat) : (analyzer.setCell index cell).hash.getD j none =
      if index = j then some cell else analyzer.hash.getD j none := by
  have hlength : index < analyzer.hash.length := h
  rw [SemanticAnalyzer.setCell, List.getD_eq_getElem?_getD, List.getElem?_set,
    List.getD_eq_getElem?_getD]
  split_ifs <;> simp_all

/-- A table of empty cells holds nothing. -/
theorem empty_table {analyzer : SemanticAnalyzer} {n : Nat}
    (h : analyzer.hash = List.replicate n none) :
    Probing.Placed home analyzer.keys ∧ Probing.occupied analyzer.keys = 0 ∧
      ∀ name, analyzer.lookup name = none := by
  have hkeys : analyzer.keys = List.replicate n none := by
    rw [SemanticAnalyzer.keys, h, List.map_replicate]
    rfl
  have hplaced : Probing.Placed home analyzer.keys := by
    rw [hkeys]
    exact Probing.placed_empty n
  refine ⟨hplaced, by rw [hkeys, Probing.occupied_empty], fun name => ?_⟩
  apply Option.eq_none_iff_forall_ne_some.mpr
  intro cell hlookup
  obtain ⟨index, hcell, -⟩ := (lookup_eq_some_iff hplaced).mp hlookup
  rw [h, List.getD_eq_getElem?_getD, List.getElem?_replicate] at hcell
  split_ifs at hcell
  · cases hcell
  · cases hcell

section Put

variable {analyzer : SemanticAnalyzer} (hplaced : Probing.Placed home analyzer.keys)
  {cell : IdentifierCell} {index : Nat}
  (hprobe : Probing.probe analyzer.keys cell.key (home cell.key) = .empty index)

include hplaced hprobe

/-- A name that is put where its probe ended can be found there. -/
theorem setCell_placed : Probing.Placed home (analyzer.setCell index cell).keys := by
  rw [setCell_keys]
  exact hplaced.set hprobe

/-- A name whose probe ends at an empty slot is not known. -/
theorem lookup_of_empty : analyzer.lookup cell.key = none := by
  rw [← find_eq_none_iff hplaced, semanticAnalyzerFindIdentifier]
  rw [home] at hprobe
  rw [hprobe, ite_self]

/-- A new name stands for its cell, and all others for what they stood for. -/
theorem lookup_setCell_new (name : CString) : (analyzer.setCell index cell).lookup name =
    if cell.key = name then some cell else analyzer.lookup name := by
  have hkeysInside := Probing.inside_of_empty hprobe
  have hinside : index < analyzer.size := by rwa [keys_length] at hkeysInside
  have hnone : analyzer.hash.getD index none = none := by
    obtain ⟨-, -, -, hempty⟩ := Probing.stopsAt_of_empty hprobe
    rw [keys_getD] at hempty
    exact Option.map_eq_none_iff.mp hempty
  have hplaced' := setCell_placed hplaced hprobe
  by_cases hname : cell.key = name
  · have hread : (analyzer.setCell index cell).hash.getD index none = some cell := by
      rw [setCell_getD hinside, if_pos rfl]
    rw [if_pos hname, (lookup_eq_some_iff hplaced').mpr ⟨index, hread, hname⟩]
  · rw [if_neg hname]
    apply Option.ext
    intro other
    rw [lookup_eq_some_iff hplaced', lookup_eq_some_iff hplaced]
    refine exists_congr (fun j => and_congr_left (fun hother => ?_))
    rw [setCell_getD hinside]
    by_cases hj : index = j
    · rw [if_pos hj, ← hj, hnone]
      refine ⟨fun heq => ?_, fun heq => absurd heq (by simp)⟩
      exact absurd (Option.some.inj heq ▸ hother) hname
    · rw [if_neg hj]

end Put

/-- The table with a new name holds its declaration too. -/
theorem Table.put {analyzer : SemanticAnalyzer} {declared : List IdentifierCell}
    (h : Table analyzer declared) {cell : IdentifierCell} {index : Nat}
    (hprobe : Probing.probe analyzer.keys cell.key (home cell.key) = .empty index) :
    cell.key ∉ declared.map IdentifierCell.key ∧
      Table (analyzer.setCell index cell) (declared ++ [cell]) := by
  obtain ⟨-, -, -, hempty⟩ := Probing.stopsAt_of_empty hprobe
  have hnew : cell.key ∉ declared.map IdentifierCell.key := by
    rw [← firstDeclaration_none, ← h.lookup, lookup_of_empty h.placed hprobe]
  refine ⟨hnew, setCell_placed h.placed hprobe, ?_, ?_⟩
  · rw [setCell_keys, Probing.occupied_set (Probing.inside_of_empty hprobe) hempty,
      List.length_append]
    exact Nat.add_le_add_right h.room 1
  · intro name
    rw [lookup_setCell_new h.placed hprobe, firstDeclaration, List.find?_append]
    by_cases hname : cell.key = name
    · have hfirst : declared.find? (fun cell => cell.key = name) = none :=
        firstDeclaration_none.mpr (hname ▸ hnew)
      rw [hfirst]
      simp [hname]
    · rw [h.lookup, firstDeclaration]
      simp [hname]

/-- **Insertion**: a known name is turned away and a new one put in the table;
none is turned away for lack of room. -/
theorem Table.insert {analyzer : SemanticAnalyzer} {declared : List IdentifierCell}
    (h : Table analyzer declared) (hroom : declared.length < analyzer.size)
    {cell : IdentifierCell} (hentry : cell.hasEntry = false) :
    (cell.key ∈ declared.map IdentifierCell.key ∧
      semanticAnalyzerInsertIdentifier analyzer cell = (analyzer, false)) ∨
    (cell.key ∉ declared.map IdentifierCell.key ∧ ∃ index,
      semanticAnalyzerInsertIdentifier analyzer cell = (analyzer.setCell index cell, true) ∧
        Table (analyzer.setCell index cell) (declared ++ [cell])) := by
  have hsize : ¬ analyzer.size = 0 := by omega
  have hcell : { cell with hasEntry := false } = cell := by rw [← hentry]
  have hfree : Probing.occupied analyzer.keys < analyzer.keys.length := by
    rw [keys_length]
    exact Nat.lt_of_le_of_lt h.room hroom
  have hnotFull := Probing.probe_of_room hfree cell.key (home cell.key)
  rw [semanticAnalyzerInsertIdentifier, if_neg hsize]
  cases hprobe : Probing.probe analyzer.keys cell.key (computeStringHash cell.key).toNat with
  | full => exact absurd hprobe hnotFull
  | found index =>
      refine Or.inl ⟨?_, rfl⟩
      by_contra hnew
      rw [← firstDeclaration_none, ← h.lookup, ← find_eq_none_iff h.placed,
        semanticAnalyzerFindIdentifier, if_neg hsize, hprobe] at hnew
      exact absurd hnew (by simp)
  | empty index =>
      obtain ⟨hnew, htable⟩ := h.put hprobe
      refine Or.inr ⟨hnew, index, ?_, htable⟩
      simp only [hcell, SemanticAnalyzer.setCell]

/-! ## The passes over the declarations -/

/-- The errors that have been reported. -/
def SemanticAnalyzer.errors (analyzer : SemanticAnalyzer) : List ErrorNode :=
  analyzer.errorHandler.errorList

/-- A report is added at the end. -/
@[simp] theorem reportError_errors (analyzer : SemanticAnalyzer) (message : String)
    (token : Token) : (analyzer.reportError message (some token)).errors =
      analyzer.errors ++ [.tokenError .semanticAnalyzer { token := token, message := message }] :=
  rfl

/-- The names of the new cells are distinct, and none is declared already. -/
def Fresh (declared cells : List IdentifierCell) : Prop :=
  (cells.map IdentifierCell.key).Nodup ∧
    ∀ cell ∈ cells, cell.key ∉ declared.map IdentifierCell.key

/-- Two batches are new if the second is new behind the first. -/
theorem fresh_append {declared cells cells' : List IdentifierCell} :
    Fresh declared (cells ++ cells') ↔ Fresh declared cells ∧ Fresh (declared ++ cells) cells' := by
  simp only [Fresh, List.map_append, List.nodup_append, List.mem_append, not_or]
  constructor
  · intro h
    obtain ⟨⟨hnodup, hnodup', hdisjoint⟩, hnew⟩ := h
    refine ⟨⟨hnodup, fun cell hcell => hnew cell (Or.inl hcell)⟩, hnodup', ?_⟩
    intro cell hcell
    refine ⟨hnew cell (Or.inr hcell), fun hmem => ?_⟩
    exact hdisjoint _ hmem _ (List.mem_map_of_mem hcell) rfl
  · intro h
    obtain ⟨⟨hnodup, hnew⟩, hnodup', hnew'⟩ := h
    refine ⟨⟨hnodup, hnodup', ?_⟩, ?_⟩
    · intro key hkey key' hkey' heq
      obtain ⟨cell, hcell, rfl⟩ := List.mem_map.mp hkey'
      exact (hnew' cell hcell).2 (heq ▸ hkey)
    · intro cell hcell
      rcases hcell with hcell | hcell
      · exact hnew cell hcell
      · exact (hnew' cell hcell).1

/-- What a pass over some declarations does: the table holds them too, and an
error is added exactly if one of the names is not new. -/
structure Run (before after : SemanticAnalyzer) (declared cells : List IdentifierCell) :
    Prop where
  table : Table after (declared ++ cells)
  size : after.size = before.size
  stderr : after.stderr = before.stderr
  errors : before.errors <+: after.errors
  clean : after.errors = before.errors ↔ Fresh declared cells

/-- A pass over nothing does nothing. -/
theorem Run.nil {analyzer : SemanticAnalyzer} {declared : List IdentifierCell}
    (h : Table analyzer declared) : Run analyzer analyzer declared [] :=
  ⟨by rwa [List.append_nil], rfl, rfl, List.prefix_refl _, by simp [Fresh]⟩

/-- Errors that are only added: none at the end means none on the way. -/
theorem prefix_trans_eq_iff {α : Type} {xs ys zs : List α} (h : xs <+: ys) (h' : ys <+: zs) :
    zs = xs ↔ ys = xs ∧ zs = ys := by
  constructor
  · intro heq
    subst heq
    have hsame := h'.eq_of_length_le h.length_le
    exact ⟨hsame, hsame.symm⟩
  · intro heq
    exact heq.2.trans heq.1

/-- Two passes are one over both batches. -/
theorem Run.trans {before middle after : SemanticAnalyzer}
    {declared cells cells' : List IdentifierCell} (h : Run before middle declared cells)
    (h' : Run middle after (declared ++ cells) cells') :
    Run before after declared (cells ++ cells') where
  table := by
    rw [← List.append_assoc]
    exact h'.table
  size := h'.size.trans h.size
  stderr := h'.stderr.trans h.stderr
  errors := h.errors.trans h'.errors
  clean := by rw [fresh_append, ← h.clean, ← h'.clean, prefix_trans_eq_iff h.errors h'.errors]

/-- A known name is reported. -/
theorem Run.reported {analyzer : SemanticAnalyzer} {declared : List IdentifierCell}
    (h : Table analyzer declared) {cell : IdentifierCell}
    (hknown : cell.key ∈ declared.map IdentifierCell.key) (message : String) (token : Token) :
    Run analyzer (analyzer.reportError message (some token)) declared [cell] := by
  have htable := h.known hknown
  refine ⟨⟨htable.placed, htable.room, htable.lookup⟩, rfl, rfl, List.prefix_append _ _, ?_⟩
  constructor
  · intro hsame
    rw [reportError_errors] at hsame
    exact absurd (congrArg List.length hsame) (by simp)
  · intro hfresh
    exact absurd hknown (hfresh.2 _ (List.mem_singleton_self _))

/-- A new name is entered. -/
theorem Run.entered {analyzer : SemanticAnalyzer} {declared : List IdentifierCell}
    {cell : IdentifierCell} {index : Nat}
    (h : Table (analyzer.setCell index cell) (declared ++ [cell]))
    (hnew : cell.key ∉ declared.map IdentifierCell.key) :
    Run analyzer (analyzer.setCell index cell) declared [cell] := by
  refine ⟨h, setCell_size .., rfl, List.prefix_refl _, ?_⟩
  have hfresh : Fresh declared [cell] := by
    refine ⟨by simp, ?_⟩
    intro other hother
    obtain rfl := List.mem_singleton.mp hother
    exact hnew
  exact ⟨fun _ => hfresh, fun _ => rfl⟩

/-- Declaring a label is a pass over its cell. -/
theorem declareLabel_run {analyzer : SemanticAnalyzer} {declared : List IdentifierCell}
    (h : Table analyzer declared) (hroom : declared.length < analyzer.size) (label : Token)
    (value : IdentifierValue) : Run analyzer (declareLabel analyzer label value) declared
      [{ key := label.string, value := value, type := .label, hasEntry := false }] := by
  have hentry : (IdentifierCell.mk label.string value .label false).hasEntry = false := rfl
  rcases h.insert hroom hentry with ⟨hknown, hinsert⟩ | ⟨hnew, index, hinsert, htable⟩
  · rw [declareLabel, hinsert]
    exact Run.reported h hknown _ _
  · rw [declareLabel, hinsert]
    exact Run.entered htable hnew

/-- An external differs from a label in the texts of its errors only. -/
theorem declareExternal_run {analyzer : SemanticAnalyzer} {declared : List IdentifierCell}
    (h : Table analyzer declared) (hroom : declared.length < analyzer.size) (label : Token)
    (value : IdentifierValue) : Run analyzer (declareExternal analyzer label value) declared
      [{ key := label.string, value := value, type := .external, hasEntry := false }] := by
  rw [declareExternal, h.lookup]
  cases hfirst : firstDeclaration declared label.string with
  | none =>
      have hnone := firstDeclaration_none.mp hfirst
      have hentry : (IdentifierCell.mk label.string value .external false).hasEntry = false := rfl
      rcases h.insert hroom hentry with ⟨hknown, -⟩ | ⟨hnew, index, hinsert, htable⟩
      · exact absurd hknown hnone
      · rw [hinsert]
        exact Run.entered htable hnew
  | some existing =>
      have hknown : label.string ∈ declared.map IdentifierCell.key := by
        by_contra hnone
        rw [firstDeclaration_none.mpr hnone] at hfirst
        exact absurd hfirst (by simp)
      simp only
      split_ifs
      · exact Run.reported h hknown _ _
      · exact Run.reported h hknown _ _

/-- The instruction labels are entered in one pass. -/
theorem validateInstructionLabels_run {labels : List LabelNode}
    (hlabels : ∀ node ∈ labels, node.label ≠ none) {analyzer : SemanticAnalyzer}
    {declared : List IdentifierCell} (h : Table analyzer declared) (index : Nat)
    (hroom : declared.length + labels.length ≤ analyzer.size) :
    ∃ analyzer', validateInstructionLabels analyzer index labels = .ok analyzer' ∧
      Run analyzer analyzer' declared (labelCells .instructionLabel index labels) := by
  induction labels generalizing analyzer declared index with
  | nil => exact ⟨analyzer, rfl, Run.nil h⟩
  | cons node rest ih =>
      obtain ⟨label, hlabel⟩ := Option.ne_none_iff_exists'.mp (hlabels node (by simp))
      rw [List.length_cons] at hroom
      have hrun := declareLabel_run h (by omega) label (.instructionLabel index)
      obtain ⟨analyzer', hvalid, hrun'⟩ := ih (fun n hn => hlabels n (by simp [hn])) hrun.table
        (index + 1) (by rw [hrun.size, List.length_append, List.length_singleton]; omega)
      refine ⟨analyzer', ?_, ?_⟩
      · rw [validateInstructionLabels, hlabel]
        exact hvalid
      · rw [labelCells, hlabel]
        exact hrun.trans hrun'

theorem validateGuidanceLabels_run (labels : List LabelNode) {analyzer : SemanticAnalyzer}
    {declared : List IdentifierCell} (h : Table analyzer declared) (index : Nat)
    (hroom : declared.length + labels.countP (fun node => node.label.isSome) ≤ analyzer.size) :
    Run analyzer (validateGuidanceLabels analyzer index labels) declared
      (labelCells .guidanceLabel index labels) := by
  induction labels generalizing analyzer declared index with
  | nil => exact Run.nil h
  | cons node rest ih =>
      cases hlabel : node.label with
      | none =>
          rw [validateGuidanceLabels, labelCells, hlabel]
          apply ih h (index + 1)
          rwa [List.countP_cons_of_neg (by simp [hlabel])] at hroom
      | some label =>
          rw [List.countP_cons_of_pos (by simp [hlabel])] at hroom
          have hrun := declareLabel_run h (by omega) label (.guidanceLabel index)
          rw [validateGuidanceLabels, labelCells, hlabel]
          refine hrun.trans (ih hrun.table (index + 1) ?_)
          rw [hrun.size, List.length_append, List.length_singleton]
          omega

theorem validateExternalDeclarations_run {externals : List ExternalNode}
    (hlabels : ∀ node ∈ externals, node.externalLabel ≠ none) {analyzer : SemanticAnalyzer}
    {declared : List IdentifierCell} (h : Table analyzer declared) (index : Nat)
    (hroom : declared.length + externals.length ≤ analyzer.size) :
    ∃ analyzer', validateExternalDeclarations analyzer index externals = .ok analyzer' ∧
      Run analyzer analyzer' declared (externalCells index externals) := by
  induction externals generalizing analyzer declared index with
  | nil => exact ⟨analyzer, rfl, Run.nil h⟩
  | cons node rest ih =>
      obtain ⟨label, hlabel⟩ := Option.ne_none_iff_exists'.mp (hlabels node (by simp))
      rw [List.length_cons] at hroom
      have hrun := declareExternal_run h (by omega) label (.external index)
      obtain ⟨analyzer', hvalid, hrun'⟩ := ih (fun n hn => hlabels n (by simp [hn])) hrun.table
        (index + 1) (by rw [hrun.size, List.length_append, List.length_singleton]; omega)
      refine ⟨analyzer', ?_, ?_⟩
      · rw [validateExternalDeclarations, hlabel]
        exact hvalid
      · rw [externalCells, hlabel]
        exact hrun.trans hrun'

/-- An entry is checked against the table, which stays as it is. -/
theorem checkEntry_spec {analyzer : SemanticAnalyzer} {declared : List IdentifierCell}
    (h : Table analyzer declared) (label : Token) :
    (checkEntry analyzer label).hash = analyzer.hash ∧
      (checkEntry analyzer label).stderr = analyzer.stderr ∧
      analyzer.errors <+: (checkEntry analyzer label).errors ∧
      ((checkEntry analyzer label).errors = analyzer.errors ↔
        ∃ cell, firstDeclaration declared label.string = some cell ∧ cell.type = .label) := by
  rw [checkEntry, h.lookup]
  cases hfirst : firstDeclaration declared label.string with
  | none => exact ⟨rfl, rfl, List.prefix_append _ _, by simp⟩
  | some existing =>
      simp only [SemanticAnalyzer.reportIf]
      cases htype : existing.type with
      | label => exact ⟨rfl, rfl, List.prefix_refl _, by simp [htype]⟩
      | external => exact ⟨rfl, rfl, List.prefix_append _ _, by simp [htype]⟩

/-- So are all of them. -/
theorem validateEntryDeclarations_run {entries : List EntryNode}
    (hlabels : ∀ node ∈ entries, node.entryLabel ≠ none) {analyzer : SemanticAnalyzer}
    {declared : List IdentifierCell} (h : Table analyzer declared) :
    ∃ analyzer', validateEntryDeclarations analyzer entries = .ok analyzer' ∧
      analyzer'.hash = analyzer.hash ∧ analyzer'.stderr = analyzer.stderr ∧
      analyzer.errors <+: analyzer'.errors ∧
      (analyzer'.errors = analyzer.errors ↔
        ∀ name ∈ entries.filterMap (fun node => node.entryLabel.map Token.string),
          ∃ cell, firstDeclaration declared name = some cell ∧ cell.type = .label) := by
  induction entries generalizing analyzer with
  | nil => exact ⟨analyzer, rfl, rfl, rfl, List.prefix_refl _, by simp⟩
  | cons node rest ih =>
      obtain ⟨label, hlabel⟩ := Option.ne_none_iff_exists'.mp (hlabels node (by simp))
      obtain ⟨hhash, hstderr, hprefix, hclean⟩ := checkEntry_spec h label
      have htable : Table (checkEntry analyzer label) declared := by
        have hkeys : (checkEntry analyzer label).keys = analyzer.keys := by
          rw [SemanticAnalyzer.keys, hhash, SemanticAnalyzer.keys]
        have hplaced : Probing.Placed home (checkEntry analyzer label).keys := hkeys ▸ h.placed
        refine ⟨hplaced, hkeys ▸ h.room, ?_⟩
        intro name
        rw [← h.lookup]
        apply Option.ext
        intro cell
        rw [lookup_eq_some_iff hplaced, lookup_eq_some_iff h.placed, hhash]
      obtain ⟨analyzer', hvalid, hhash', hstderr', hprefix', hclean'⟩ :=
        ih (fun n hn => hlabels n (by simp [hn])) htable
      refine ⟨analyzer', ?_, hhash'.trans hhash, hstderr'.trans hstderr, hprefix.trans hprefix', ?_⟩
      · rw [validateEntryDeclarations, hlabel]
        exact hvalid
      · rw [prefix_trans_eq_iff hprefix hprefix', hclean, hclean', List.filterMap_cons, hlabel]
        simp

/-! ## The whole unit -/

/-- The table has a third more cells than there are names. -/
theorem initialize_size (unit : TranslationUnit) (lexer : Lexer) :
    (semanticAnalyzerInitialize unit lexer).size =
      4 * (unit.instructionLabelList.length +
        unit.guidanceLabelList.countP (fun node => node.label.isSome) +
        unit.externalList.length) / 3 + 1 :=
  List.length_replicate

/-- A new table holds nothing. -/
theorem initialize_table (unit : TranslationUnit) (lexer : Lexer) :
    Table (semanticAnalyzerInitialize unit lexer) [] := by
  obtain ⟨hplaced, hoccupied, hlookup⟩ :=
    empty_table (show (semanticAnalyzerInitialize unit lexer).hash = _ from rfl)
  exact ⟨hplaced, Nat.le_of_eq hoccupied, hlookup⟩

/-- There are as many cells as labels with a name. -/
theorem labelCells_length (value : Nat → IdentifierValue) (index : Nat)
    (labels : List LabelNode) :
    (labelCells value index labels).length = labels.countP (fun node => node.label.isSome) := by
  rw [← List.length_map (f := IdentifierCell.key), labelCells_keys, List.length_filterMap_eq_countP]
  refine List.countP_congr (fun node _ => ?_)
  cases node.label <;> simp

/-- A name stands for a label exactly if a label has it: labels are declared in
front of externals. -/
theorem firstDeclaration_label_iff (unit : TranslationUnit) (name : CString) :
    (∃ cell, firstDeclaration unit.declarations name = some cell ∧ cell.type = .label) ↔
      name ∈ unit.labelNames := by
  rw [TranslationUnit.declarations, ← List.append_assoc, firstDeclaration, List.find?_append]
  have hnames : (labelCells IdentifierValue.instructionLabel 0 unit.instructionLabelList ++
      labelCells IdentifierValue.guidanceLabel 0 unit.guidanceLabelList).map
        IdentifierCell.key = unit.labelNames := by
    simp [TranslationUnit.labelNames, labelCells_keys]
  have htypes : ∀ cell ∈ labelCells IdentifierValue.instructionLabel 0 unit.instructionLabelList ++
      labelCells IdentifierValue.guidanceLabel 0 unit.guidanceLabelList, cell.type = .label := by
    intro cell hcell
    rcases List.mem_append.mp hcell with hcell | hcell
    · exact (labelCells_cell cell hcell).1
    · exact (labelCells_cell cell hcell).1
  rw [← hnames]
  cases hlabel : (labelCells IdentifierValue.instructionLabel 0 unit.instructionLabelList ++
      labelCells IdentifierValue.guidanceLabel 0 unit.guidanceLabelList).find?
        (fun cell => decide (cell.key = name)) with
  | some cell =>
      have hmem := List.mem_of_find?_eq_some hlabel
      have hkey : cell.key = name := by simpa using List.find?_some hlabel
      refine ⟨fun _ => hkey ▸ List.mem_map_of_mem hmem, fun _ => ?_⟩
      exact ⟨cell, rfl, htypes cell hmem⟩
  | none =>
      have hnone := firstDeclaration_none.mp hlabel
      refine ⟨fun h => ?_, fun h => absurd h hnone⟩
      obtain ⟨cell, hcell, htype⟩ := h
      rw [Option.none_or] at hcell
      rw [(externalCells_cell cell (List.mem_of_find?_eq_some hcell)).1] at htype
      exact absurd htype (by decide)

/-- **The table has room**: it is larger than the number of declarations. -/
theorem initialize_room (unit : TranslationUnit) (lexer : Lexer) :
    unit.instructionLabelList.length +
      (labelCells IdentifierValue.guidanceLabel 0 unit.guidanceLabelList).length +
      unit.externalList.length < (semanticAnalyzerInitialize unit lexer).size := by
  rw [initialize_size, labelCells_length]
  omega

/-- A table is what its cells are. -/
theorem Table.of_hash {analyzer analyzer' : SemanticAnalyzer} {declared : List IdentifierCell}
    (h : Table analyzer declared) (hhash : analyzer'.hash = analyzer.hash) :
    Table analyzer' declared := by
  have hkeys : analyzer'.keys = analyzer.keys := by
    rw [SemanticAnalyzer.keys, hhash, SemanticAnalyzer.keys]
  have hplaced : Probing.Placed home analyzer'.keys := hkeys ▸ h.placed
  refine ⟨hplaced, hkeys ▸ h.room, ?_⟩
  intro name
  rw [← h.lookup]
  apply Option.ext
  intro cell
  rw [lookup_eq_some_iff hplaced, lookup_eq_some_iff h.placed, hhash]

section Names

variable {unit : TranslationUnit} {source : List Token} (h : UnitFormed source unit)

include h

/-- Every instruction label of the parser has a name. -/
theorem UnitFormed.instructionLabel_ne_none :
    ∀ node ∈ unit.instructionLabelList, node.label ≠ none := by
  intro node hnode
  obtain ⟨t, ht, -⟩ := h.instructionNames node hnode
  simp [ht]

theorem UnitFormed.externalLabel_ne_none :
    ∀ node ∈ unit.externalList, node.externalLabel ≠ none := by
  intro node hnode
  obtain ⟨-, t, ht, -⟩ := h.externals node hnode
  simp [ht]

theorem UnitFormed.entryLabel_ne_none : ∀ node ∈ unit.entryList, node.entryLabel ≠ none := by
  intro node hnode
  obtain ⟨-, t, ht, -⟩ := h.entries node hnode
  simp [ht]

/-- So there is a cell for every external. -/
theorem UnitFormed.externalCells_length :
    (externalCells 0 unit.externalList).length = unit.externalList.length := by
  rw [← List.length_map (f := IdentifierCell.key), externalCells_keys,
    List.length_filterMap_eq_countP, List.countP_eq_length]
  intro node hnode
  obtain ⟨label, hlabel⟩ := Option.ne_none_iff_exists'.mp (h.externalLabel_ne_none node hnode)
  simp [hlabel]

end Names

/-- All the passes over a unit whose nodes have their names. -/
theorem analyzeDuplicateIdentifiers_run {unit : TranslationUnit} {source : List Token}
    (h : UnitFormed source unit) (lexer : Lexer) :
    ∃ analyzer, semanticAnalyzerAnalyzeDuplicateIdentifiers
        (semanticAnalyzerInitialize unit lexer) unit = .ok analyzer ∧
      Table analyzer unit.declarations ∧
      unit.declarations.length < analyzer.size ∧ analyzer.stderr = [] ∧
      (analyzer.errors = [] ↔ (unit.labelNames ++ unit.externalNames).Nodup ∧
        ∀ name ∈ unit.entryNames, name ∈ unit.labelNames) := by
  have hroom := initialize_room unit lexer
  have hexternalLength := h.externalCells_length
  have hinstructionLength : (labelCells IdentifierValue.instructionLabel 0
      unit.instructionLabelList).length = unit.instructionLabelList.length := by
    rw [labelCells_length, List.countP_eq_length]
    intro node hnode
    exact Option.isSome_iff_ne_none.mpr (h.instructionLabel_ne_none node hnode)
  have hguidanceLength := labelCells_length IdentifierValue.guidanceLabel 0 unit.guidanceLabelList
  obtain ⟨labelled, hlabelled, hrun⟩ := validateInstructionLabels_run h.instructionLabel_ne_none
    (initialize_table unit lexer) 0 (by simp only [List.length_nil]; omega)
  have hrun' := validateGuidanceLabels_run unit.guidanceLabelList hrun.table 0
    (by rw [hrun.size, List.nil_append]; omega)
  obtain ⟨declared, hdeclared, hrun''⟩ := validateExternalDeclarations_run
    h.externalLabel_ne_none hrun'.table 0
    (by
      simp only [hrun'.size, hrun.size, List.nil_append, List.length_append]
      omega)
  obtain ⟨analyzer, hentered, hhash, hstderr, hprefix, hclean⟩ :=
    validateEntryDeclarations_run h.entryLabel_ne_none hrun''.table
  have hall := hrun.trans (hrun'.trans hrun'')
  have htable : Table declared unit.declarations := hall.table
  refine ⟨analyzer, ?_, htable.of_hash hhash, ?_, ?_, ?_⟩
  · simp only [semanticAnalyzerAnalyzeDuplicateIdentifiers, hlabelled, hdeclared, bind,
      Except.bind]
    exact hentered
  · have hanalyzer : analyzer.size = declared.size := by
      rw [SemanticAnalyzer.size, hhash, SemanticAnalyzer.size]
    rw [hanalyzer, hall.size, TranslationUnit.declarations, List.length_append,
      List.length_append, hinstructionLength, hexternalLength]
    omega
  · exact hstderr.trans hall.stderr
  · have hnone : (semanticAnalyzerInitialize unit lexer).errors = [] := rfl
    have hfresh : Fresh [] unit.declarations ↔
        (unit.labelNames ++ unit.externalNames).Nodup := by
      rw [← declarations_keys, Fresh]
      simp
    have hdeclarations : [] ++ unit.declarations = unit.declarations := List.nil_append _
    have hboth := prefix_trans_eq_iff hall.errors hprefix
    rw [hnone] at hboth
    rw [hboth, ← hnone, hall.clean, hclean]
    refine and_congr hfresh (forall_congr' (fun name => imp_congr_right (fun _ => ?_)))
    rw [← firstDeclaration_label_iff]
    simp only [List.nil_append, TranslationUnit.declarations, List.append_assoc]

/-- **Names are resolved soundly and completely.**  The passes over the
declarations add no error exactly if the declared names are distinct and every
entry is a label.  Afterwards a declared name is found in the cell of its first
declaration and no other name is found, and the table still has an empty cell. -/
theorem analyzeDuplicateIdentifiers_resolves {source unit : TranslationUnit}
    (h : ParsedFrom source unit) (lexer : Lexer) :
    ∃ analyzer, semanticAnalyzerAnalyzeDuplicateIdentifiers
        (semanticAnalyzerInitialize unit lexer) unit = .ok analyzer ∧
      (analyzer.errorHandler.errorList = [] ↔
        (unit.labelNames ++ unit.externalNames).Nodup ∧
        ∀ name ∈ unit.entryNames, name ∈ unit.labelNames ∧ name ∉ unit.externalNames) ∧
      (∀ name, (semanticAnalyzerFindIdentifier analyzer name).bind
        (fun index => analyzer.hash.getD index none) =
          unit.declarations.find? (fun cell => cell.key = name)) ∧
      (∀ name, semanticAnalyzerFindIdentifier analyzer name = none ↔
        name ∉ unit.labelNames ++ unit.externalNames) ∧
      analyzer.hash.countP Option.isSome < analyzer.size := by
  obtain ⟨analyzer, hrun, htable, hroom, -, hclean⟩ :=
    analyzeDuplicateIdentifiers_run h.formed lexer
  refine ⟨analyzer, hrun, ?_, htable.lookup, ?_, ?_⟩
  · refine hclean.trans (and_congr_right (fun hnodup => ?_))
    refine forall_congr' (fun name => imp_congr_right (fun _ => ?_))
    refine ⟨fun hlabel => ⟨hlabel, fun hexternal => ?_⟩, fun hboth => hboth.1⟩
    exact (List.nodup_append.mp hnodup).2.2 name hlabel name hexternal rfl
  · intro name
    rw [find_eq_none_iff htable.placed, htable.lookup, firstDeclaration_none, declarations_keys]
  · refine Nat.lt_of_le_of_lt (Nat.le_trans ?_ htable.room) hroom
    have hcount : Probing.occupied analyzer.keys = analyzer.hash.countP Option.isSome := by
      rw [Probing.occupied, SemanticAnalyzer.keys, List.countP_map]
      refine List.countP_congr (fun cell _ => ?_)
      cases cell <;> simp
    rw [hcount]

/-- A run of the parser that is written out. -/
theorem exists_parsedFrom {source : TranslationUnit}
    (h : (parseTranslationUnitContent source).toOption.map (fun u => u.errorHandler.errorList) =
      some source.errorHandler.errorList) : ∃ unit, ParsedFrom source unit := by
  cases hparse : parseTranslationUnitContent source with
  | error fault => rw [hparse] at h; exact absurd h (by simp [Except.toOption])
  | ok unit =>
      rw [hparse] at h
      exact ⟨unit, hparse, Option.some.inj h⟩

/-- A label, an external and an entry. -/
theorem analyzeDuplicateIdentifiers_resolves_sample :
    ∃ unit, ParsedFrom (parserSample "A: stop\n.extern B\n.entry A\n") unit ∧
      ∃ analyzer, semanticAnalyzerAnalyzeDuplicateIdentifiers
          (semanticAnalyzerInitialize unit (lexerInitializeFromFile "sample" [])) unit =
            .ok analyzer ∧
        (analyzer.errorHandler.errorList = [] ↔
          (unit.labelNames ++ unit.externalNames).Nodup ∧
          ∀ name ∈ unit.entryNames, name ∈ unit.labelNames ∧ name ∉ unit.externalNames) ∧
        (∀ name, (semanticAnalyzerFindIdentifier analyzer name).bind
          (fun index => analyzer.hash.getD index none) =
            unit.declarations.find? (fun cell => cell.key = name)) ∧
        (∀ name, semanticAnalyzerFindIdentifier analyzer name = none ↔
          name ∉ unit.labelNames ++ unit.externalNames) ∧
        analyzer.hash.countP Option.isSome < analyzer.size := by
  have hclean : (parseTranslationUnitContent
      (parserSample "A: stop\n.extern B\n.entry A\n")).toOption.map
        (fun u => u.errorHandler.errorList) =
      some (parserSample "A: stop\n.extern B\n.entry A\n").errorHandler.errorList := by
    decide +kernel
  obtain ⟨unit, h⟩ := exists_parsedFrom hclean
  exact ⟨unit, h, analyzeDuplicateIdentifiers_resolves h _⟩

end Assembler
