import CLab.BoundedMap
import CLab.SymbolTable

/-!
# The table of identifiers is a map

A table that is empty at first and only inserted into: for every size and every
sequence of insertions `semantic_analyzer_insert_identifier` answers as a map
of that many keys does, `semantic_analyzer_find_identifier` finds what the map
holds, and the loops of both end, in a full table too.
-/

namespace Assembler

open Probing (Search)

/-! ## Insertions -/

/-- The analyzer with a table of that many empty cells. -/
def SemanticAnalyzer.emptied (analyzer : SemanticAnalyzer) (size : Nat) : SemanticAnalyzer :=
  { analyzer with hash := List.replicate size none }

/-- Cells are inserted one after the other.  The list is what the calls return. -/
def insertIdentifiers (analyzer : SemanticAnalyzer) :
    List IdentifierCell → SemanticAnalyzer × List Bool
  | [] => (analyzer, [])
  | cell :: rest =>
      let (analyzer, inserted) := semanticAnalyzerInsertIdentifier analyzer cell
      let (analyzer, answers) := insertIdentifiers analyzer rest
      (analyzer, inserted :: answers)

/-- The cell of an external of that name. -/
def externalCell (name : String) : IdentifierCell :=
  { key := stringCreateFromCstr (bytes name), value := .external 0, type := .external,
    hasEntry := false }

/-- A cell with its mark taken away, under its key. -/
def IdentifierCell.stored (cell : IdentifierCell) : CString × IdentifierCell :=
  (cell.key, { cell with hasEntry := false })

/-- One round of the loop that both functions run. -/
def probeRound (analyzer : SemanticAnalyzer) (key : CString) (startIndex : Nat) (s : Search) :
    Search :=
  match analyzer.hash.getD s.index none with
  | none => { s with outcome := some (.empty s.index) }
  | some cell =>
      if stringEquals key cell.key then { s with outcome := some (.found s.index) }
      else
        let index := (s.index + 1) % analyzer.size
        { index := index, outcome := if index = startIndex then some .full else none }

/-- The loop is a search among the keys. -/
theorem probeRound_eq (analyzer : SemanticAnalyzer) (key : CString) (startIndex : Nat) :
    probeRound analyzer key startIndex = Search.round analyzer.keys key startIndex := by
  funext s
  rw [probeRound, Search.round, keys_getD, keys_length]
  cases analyzer.hash.getD s.index none with
  | none => rfl
  | some cell =>
      simp only [Option.map_some, stringEquals_iff]

/-! ## What a table stands for -/

/-- A finite map from names to cells. -/
abbrev IdentifierMap := Finmap fun _ : CString => IdentifierCell

/-- The table holds what the map does. -/
structure StandsFor (analyzer : SemanticAnalyzer) (map : IdentifierMap) : Prop where
  placed : Probing.Placed home analyzer.keys
  stored : Probing.occupied analyzer.keys = map.keys.card
  lookup : ∀ key, analyzer.lookup key = map.lookup key

/-- A new table stands for the empty map. -/
theorem emptied_standsFor (analyzer : SemanticAnalyzer) (size : Nat) :
    StandsFor (analyzer.emptied size) ∅ := by
  obtain ⟨hplaced, hoccupied, hlookup⟩ :=
    empty_table (show (analyzer.emptied size).hash = List.replicate size none from rfl)
  exact ⟨hplaced, hoccupied, hlookup⟩

section Insert

variable {analyzer : SemanticAnalyzer} {map : IdentifierMap} (h : StandsFor analyzer map)

include h

/-- A name is not found exactly where it is not in the map. -/
theorem StandsFor.find_eq_none_iff (key : CString) :
    semanticAnalyzerFindIdentifier analyzer key = none ↔ key ∉ map := by
  rw [Assembler.find_eq_none_iff h.placed, h.lookup, Finmap.lookup_eq_none]

/-- **One insertion** does to the table what it does to the map. -/
theorem StandsFor.insert (hsize : 1 ≤ analyzer.size) (cell : IdentifierCell) :
    ∃ analyzer' map' answer, semanticAnalyzerInsertIdentifier analyzer cell = (analyzer', answer) ∧
      BoundedMap.put analyzer.size map cell.stored.1 cell.stored.2 = (map', answer) ∧
      StandsFor analyzer' map' ∧ analyzer'.size = analyzer.size ∧
      (answer = false → analyzer' = analyzer) := by
  have hne : ¬ analyzer.size = 0 := by omega
  have hfind := h.find_eq_none_iff cell.key
  rw [semanticAnalyzerFindIdentifier, if_neg hne] at hfind
  rw [semanticAnalyzerInsertIdentifier, if_neg hne]
  cases hprobe : Probing.probe analyzer.keys cell.key (computeStringHash cell.key).toNat with
  | full =>
      -- every slot is occupied, so the map has no room
      have hfull : ¬ map.keys.card < analyzer.size := by
        intro hroom
        rw [← h.stored, ← keys_length] at hroom
        exact Probing.probe_of_room hroom _ _ hprobe
      exact ⟨analyzer, map, false, rfl, if_neg fun htaken => hfull htaken.2, h, rfl, fun _ => rfl⟩
  | found index =>
      have hknown : ¬ cell.key ∉ map := by
        rw [← hfind, hprobe]
        simp
      exact ⟨analyzer, map, false, rfl, if_neg fun htaken => hknown htaken.1, h, rfl, fun _ => rfl⟩
  | empty index =>
      have hnew : cell.key ∉ map := by
        rw [← hfind, hprobe]
      have hinside := Probing.inside_of_empty hprobe
      obtain ⟨-, -, -, hempty⟩ := Probing.stopsAt_of_empty hprobe
      have hroom : map.keys.card < analyzer.size := by
        rw [← h.stored, ← keys_length]
        exact Probing.occupied_lt hinside hempty
      refine ⟨analyzer.setCell index cell.stored.2, map.insert cell.key cell.stored.2, true, rfl,
        BoundedMap.put_of_taken hnew hroom, ?_, setCell_size analyzer index _,
        fun hfalse => Bool.noConfusion hfalse⟩
      have hprobe' : Probing.probe analyzer.keys cell.stored.2.key (home cell.stored.2.key) =
          .empty index := hprobe
      refine ⟨setCell_placed h.placed hprobe', ?_, fun key => ?_⟩
      · rw [setCell_keys, Probing.occupied_set hinside hempty, h.stored,
          BoundedMap.card_keys_insert hnew]
      · rw [lookup_setCell_new h.placed hprobe', h.lookup]
        by_cases hkey : cell.key = key
        · rw [← hkey, Finmap.lookup_insert]
          exact if_pos rfl
        · rw [Finmap.lookup_insert_of_ne map (Ne.symm hkey)]
          exact if_neg hkey

/-- **All insertions.** -/
theorem StandsFor.insertIdentifiers (hsize : 1 ≤ analyzer.size) (calls : List IdentifierCell) :
    (insertIdentifiers analyzer calls).2 =
        (BoundedMap.putAll analyzer.size map (calls.map IdentifierCell.stored)).2 ∧
      StandsFor (insertIdentifiers analyzer calls).1
        (BoundedMap.putAll analyzer.size map (calls.map IdentifierCell.stored)).1 ∧
      (Assembler.insertIdentifiers analyzer calls).1.size = analyzer.size := by
  induction calls generalizing analyzer map with
  | nil => exact ⟨rfl, h, rfl⟩
  | cons cell calls ih =>
      obtain ⟨analyzer', map', answer, hinsert, hput, hstands, hsame, -⟩ := h.insert hsize cell
      obtain ⟨hanswers, hstands', hsame'⟩ := ih hstands (by omega)
      rw [hsame] at hanswers hstands' hsame'
      rw [List.map_cons, Assembler.insertIdentifiers, BoundedMap.putAll]
      simp only [hinsert, hput]
      exact ⟨by rw [hanswers], hstands', hsame'⟩

end Insert

/-- **The loops end.**  What the search comes to is what both functions go by. -/
theorem probeRound_exits {analyzer : SemanticAnalyzer} (hsize : 1 ≤ analyzer.size)
    (key : CString) : ∃ last,
      While.Exits Search.goesOn
        (probeRound analyzer key ((computeStringHash key).toNat % analyzer.size))
        ⟨(computeStringHash key).toNat % analyzer.size, none⟩
        ⟨last, some (Probing.probe analyzer.keys key (computeStringHash key).toNat)⟩ := by
  have hlength : 0 < analyzer.keys.length := by rwa [keys_length]
  obtain ⟨last, hexits⟩ := Probing.search_exits hlength key (computeStringHash key).toNat
  rw [Search.start, keys_length] at hexits
  exact ⟨last, by rw [probeRound_eq]; exact hexits⟩

/-! ## The refinement -/

/-- The insertions behind a sequence of insertions, what is found then, and the
loops: those of a map that holds as many keys as the table has cells. -/
structure ActsAs (analyzer : SemanticAnalyzer) (size : Nat) (map : IdentifierMap) : Prop where
  insert : ∀ cell, (semanticAnalyzerInsertIdentifier analyzer cell).2 = true ↔
    cell.key ∉ map ∧ map.keys.card < size
  refused : ∀ cell, (semanticAnalyzerInsertIdentifier analyzer cell).2 = false →
    (semanticAnalyzerInsertIdentifier analyzer cell).1 = analyzer
  found : ∀ key, analyzer.lookup key = map.lookup key
  missing : ∀ key, semanticAnalyzerFindIdentifier analyzer key = none ↔ key ∉ map
  ends : ∀ key, ∃ last, While.Exits Search.goesOn
    (probeRound analyzer key ((computeStringHash key).toNat % size))
    ⟨(computeStringHash key).toNat % size, none⟩
    ⟨last, some (Probing.probe analyzer.keys key (computeStringHash key).toNat)⟩

/-- **A table acts as its map**, whatever is called. -/
theorem StandsFor.actsAs {analyzer : SemanticAnalyzer} {map : IdentifierMap}
    (h : StandsFor analyzer map) (hsize : 1 ≤ analyzer.size) :
    ActsAs analyzer analyzer.size map := by
  refine ⟨fun cell => ?_, fun cell hrefused => ?_, h.lookup, h.find_eq_none_iff,
    probeRound_exits hsize⟩
  · obtain ⟨analyzer', map', answer, hinsert, hput, -⟩ := h.insert hsize cell
    rw [hinsert]
    have hsnd : (BoundedMap.put analyzer.size map cell.stored.1 cell.stored.2).2 = true ↔
        cell.stored.1 ∉ map ∧ map.keys.card < analyzer.size := BoundedMap.put_snd
    rw [hput] at hsnd
    exact hsnd
  · obtain ⟨analyzer', map', answer, hinsert, -, -, -, hunchanged⟩ := h.insert hsize cell
    rw [hinsert] at hrefused ⊢
    exact hunchanged hrefused

/-- The table behind a sequence of insertions into an empty one. -/
structure RefinesMap (analyzer : SemanticAnalyzer) (size : Nat) (calls : List IdentifierCell) :
    Prop where
  answers : (insertIdentifiers (analyzer.emptied size) calls).2 =
    (BoundedMap.putAll size ∅ (calls.map IdentifierCell.stored)).2
  actsAs : ActsAs (insertIdentifiers (analyzer.emptied size) calls).1 size
    (BoundedMap.putAll size ∅ (calls.map IdentifierCell.stored)).1
  found : ∀ key cell, (insertIdentifiers (analyzer.emptied size) calls).1.lookup key = some cell ↔
    ∃ before given after, calls = before ++ given :: after ∧ given.stored = (key, cell) ∧
      (semanticAnalyzerInsertIdentifier
        (insertIdentifiers (analyzer.emptied size) before).1 given).2 = true

/-- **The table of identifiers refines a finite map.** -/
theorem insertIdentifiers_refines (analyzer : SemanticAnalyzer) {size : Nat} (hsize : 1 ≤ size)
    (calls : List IdentifierCell) : RefinesMap analyzer size calls := by
  have hempty := emptied_standsFor analyzer size
  have hemptySize : (analyzer.emptied size).size = size := List.length_replicate
  have hrun : ∀ cells, ActsAs (insertIdentifiers (analyzer.emptied size) cells).1 size
      (BoundedMap.putAll size ∅ (cells.map IdentifierCell.stored)).1 := by
    intro cells
    obtain ⟨-, hstands, hsame⟩ := hempty.insertIdentifiers (by omega) cells
    rw [hemptySize] at hstands hsame
    have hacts := hstands.actsAs (by omega)
    rwa [hsame] at hacts
  obtain ⟨hanswers, -, -⟩ := hempty.insertIdentifiers (by omega) calls
  rw [hemptySize] at hanswers
  refine ⟨hanswers, hrun calls, fun key cell => ?_⟩
  rw [(hrun calls).found, BoundedMap.lookup_putAll]
  constructor
  · intro hfacts
    obtain ⟨before, after, hsplit, htaken⟩ := hfacts
    obtain ⟨cells, rest, rfl, rfl, hrest⟩ := List.map_eq_append_iff.mp hsplit
    obtain ⟨given, cells', rfl, hgiven, rfl⟩ := List.map_eq_cons_iff.mp hrest
    refine ⟨cells, given, cells', rfl, hgiven, ?_⟩
    rw [(hrun cells).insert]
    have hkey : given.key = key := congrArg Prod.fst hgiven
    rw [hkey]
    exact BoundedMap.put_snd.mp htaken
  · intro hfacts
    obtain ⟨before, given, after, rfl, hgiven, htaken⟩ := hfacts
    refine ⟨before.map IdentifierCell.stored, after.map IdentifierCell.stored, ?_, ?_⟩
    · rw [List.map_append, List.map_cons, hgiven]
    · rw [(hrun before).insert] at htaken
      have hkey : given.key = key := congrArg Prod.fst hgiven
      rw [hkey] at htaken
      exact BoundedMap.put_snd.mpr htaken

/-- Four names and two cells. -/
theorem insertIdentifiers_refines_sample :
    ∃ analyzer : SemanticAnalyzer,
      (insertIdentifiers (analyzer.emptied 2) (["A", "B", "A", "C"].map externalCell)).2 =
        [true, true, false, false] ∧
      RefinesMap analyzer 2 (["A", "B", "A", "C"].map externalCell) := by
  refine ⟨semanticAnalyzerInitialize (parserSample "") (lexerInitializeFromFile "sample" []), ?_,
    insertIdentifiers_refines _ (by decide) _⟩
  decide +kernel

end Assembler
