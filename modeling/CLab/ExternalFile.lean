import CLab.References

/-!
# The external file

The words that refer to externals, in the order of the object file, are known
from the slots of the unit.  The lines of the external file list the same
symbols in the same order, each at the address behind its word.
-/

namespace Assembler

/-- A word of the instructions with what it is for. -/
abbrev SlotEntry := Slot × PlacedWord

/-- The line of an external word: its symbol, and its own address. -/
structure Listed (unit : TranslationUnit) (symbol : SymbolAddress) (entry : SlotEntry) : Prop where
  identifier : entry.1.identifier = some symbol.name
  external : symbol.name ∈ unit.externalNames
  address : entry.2.address = symbol.address

/-- A use of an external has one line. -/
theorem Listed.unique {unit : TranslationUnit} {symbol symbol' : SymbolAddress}
    {entry : SlotEntry} (h : Listed unit symbol entry) (h' : Listed unit symbol' entry) :
    symbol = symbol' := by
  cases symbol
  cases symbol'
  obtain rfl := Option.some.inj (h.identifier.symm.trans h'.identifier)
  obtain rfl := h.address.symm.trans h'.address
  rfl

/-- The words of the instructions that are external. -/
def externalEntries (unit : TranslationUnit) (image : List PlacedWord) : List SlotEntry :=
  (unit.slots.zip image).filter (fun entry => entry.2.word.are = 1)

/-- The lines of the external file are those of the external words. -/
def ReferencesListed (unit : TranslationUnit) (result : ObjectGenerated) : Prop :=
  ∃ image symbols, readObject result.generator.objectFile.data = some image ∧
    result.generator.externalFile.data = symbolText symbols ∧
    List.Forall₂ (Listed unit) symbols
      (externalEntries unit (image.take result.instructionLines))

/-- No operand names an external. -/
def NoExternalOperand (unit : TranslationUnit) : Prop :=
  ∀ slot ∈ unit.slots, ∀ name ∈ unit.externalNames, slot.identifier ≠ some name

instance (unit : TranslationUnit) : Decidable (NoExternalOperand unit) :=
  inferInstanceAs (Decidable (∀ slot ∈ unit.slots, ∀ name ∈ unit.externalNames,
    slot.identifier ≠ some name))

/-- The references of words that are written one address later. -/
theorem references_succ (position : Nat) (emissions : List Emission) :
    references (position + 1) emissions = (references position emissions).map
      (fun symbol => ⟨symbol.name, symbol.address + 1⟩) := by
  induction emissions generalizing position with
  | nil => rfl
  | cons emission rest ih =>
      rw [references, references, ih, List.map_append]
      cases emission.reference <;> rfl

/-- Nothing is referred to where no word has a reference. -/
theorem references_eq_nil_iff {position : Nat} {emissions : List Emission} :
    references position emissions = [] ↔ ∀ emission ∈ emissions, emission.reference = none := by
  induction emissions generalizing position with
  | nil => simp [references]
  | cons emission rest ih =>
      rw [references, List.append_eq_nil_iff, ih, List.forall_mem_cons]
      cases emission.reference <;> simp

/-- A list of references is not the one of the next address. -/
theorem symbolText_references_succ {position : Nat} {emissions : List Emission}
    (h : symbolText (references (position + 1) emissions) =
      symbolText (references position emissions)) : references position emissions = [] := by
  rw [references_succ] at h
  cases hlist : references position emissions with
  | nil => rfl
  | cons symbol rest =>
      rw [hlist, List.map_cons] at h
      exact absurd (symbolText_address h) (Nat.succ_ne_self _)

/-- A slot with a name refers to it if it is external. -/
theorem slotReference_identifier (analyzer : SemanticAnalyzer) {slot : Slot} {name : CString}
    (hname : slot.identifier = some name) : slotReference analyzer slot =
      if (analyzer.lookup name).map IdentifierCell.type = some .external then some name
      else none := by
  obtain ⟨token, isDerefrenced, isDst, rfl, htype, rfl⟩ := Slot.identifier_eq_some.mp hname
  simp [slotReference, operandReference, htype]

theorem slotReference_none (analyzer : SemanticAnalyzer) {slot : Slot}
    (hname : slot.identifier = none) : slotReference analyzer slot = none := by
  cases slot with
  | operation node => rfl
  | registers source destination => rfl
  | operand token isDerefrenced isDst =>
      have htype : token.type ≠ .identifier := by
        intro htype
        simp [Slot.identifier, htype] at hname
      simp [slotReference, operandReference, htype]

section Accepted

variable {lexer : Lexer} {unit placed : TranslationUnit} {analyzer : SemanticAnalyzer}
  {generator : CodeGenerator} (h : Accepted lexer unit analyzer generator placed)

include h

/-- What the generator takes for a reference is an operand that names an
external, and its word is the external one. -/
theorem Accepted.slotReference_cases {slot : Slot} (hslot : slot ∈ placed.slots) :
    (∃ name ∈ placed.externalNames, slot.identifier = some name ∧
      slotReference analyzer slot = some name ∧ (slotWord analyzer placed slot).are = 1) ∨
    ((∀ name ∈ placed.externalNames, slot.identifier ≠ some name) ∧
      slotReference analyzer slot = none ∧ (slotWord analyzer placed slot).are ≠ 1) := by
  cases hname : slot.identifier with
  | none =>
      refine Or.inr ⟨by simp, slotReference_none analyzer hname, ?_⟩
      rw [slotWord_absolute analyzer placed hname]
      decide
  | some name =>
      rw [slotReference_identifier analyzer hname, slotWord_identifier analyzer placed hname,
        instrOperandMemToBinary_are]
      rcases h.identifier_cases hslot hname with ⟨label, hlabel, hlabelName⟩ | hexternal
      · obtain ⟨cell, hlookup, htype, -⟩ := h.lookup_label hlabel hlabelName
        have hdisjoint := h.name_disjoint hlabel hlabelName
        refine Or.inr ⟨?_, by simp [hlookup, htype], ?_⟩
        · intro other hother hsame
          obtain rfl := Option.some.inj hsame
          exact hdisjoint hother
        · rw [h.directMemory_label hlabel hlabelName]
          show (2 : BitVec 3) ≠ 1
          decide
      · obtain ⟨cell, hlookup, htype⟩ := h.lookup_external hexternal
        refine Or.inl ⟨name, hexternal, rfl, by simp [hlookup, htype], ?_⟩
        rw [h.directMemory_external hexternal]

/-- The references that the generator means are those of the external words. -/
theorem Accepted.references_listed {slots : List Slot} (hslots : slots ⊆ placed.slots)
    (position : Nat) :
    List.Forall₂ (Listed placed) (references position (slots.map (slotEmission analyzer placed)))
      ((slots.zip (placeWords position (slots.map (slotWord analyzer placed)))).filter
        (fun entry => entry.2.word.are = 1)) := by
  induction slots generalizing position with
  | nil => exact List.Forall₂.nil
  | cons slot rest ih =>
      have hrest := ih (fun _ hs => hslots (List.mem_cons_of_mem _ hs)) (position + 1)
      rw [List.map_cons, List.map_cons, references, placeWords, List.zip_cons_cons]
      rcases h.slotReference_cases (hslots (List.mem_cons_self ..)) with
        ⟨name, hname, hidentifier, hreference, hare⟩ | ⟨-, hreference, hare⟩
      · rw [List.filter_cons_of_pos (by simpa using hare), slotEmission, hreference]
        exact List.Forall₂.cons ⟨hidentifier, hname, rfl⟩ hrest
      · rw [List.filter_cons_of_neg (by simpa using hare), slotEmission, hreference]
        exact hrest

/-- No reference is written exactly if no operand names an external. -/
theorem Accepted.references_eq_nil_iff (position : Nat) :
    references position (placed.slots.map (slotEmission analyzer placed)) = [] ↔
      NoExternalOperand placed := by
  rw [Assembler.references_eq_nil_iff, List.forall_mem_map, NoExternalOperand]
  refine forall₂_congr (fun slot hslot => ?_)
  rw [slotEmission]
  rcases h.slotReference_cases hslot with ⟨name, hname, hidentifier, hreference, -⟩ |
    ⟨hnone, hreference, -⟩
  · simp only [hreference, reduceCtorEq, false_iff]
    exact fun hnone => hnone name hname hidentifier
  · simp only [hreference, true_iff]
    exact hnone

/-- The lines are those of the words only if there are none. -/
theorem Accepted.noExternalOperand {result : ObjectGenerated}
    (hrun : generateObjectAndExternalFiles generator analyzer placed = .ok result)
    (hlisted : ReferencesListed placed result) : NoExternalOperand placed := by
  obtain ⟨final, hfinal, -, hexternal⟩ := h.files
  obtain ⟨image, hread, himage⟩ := h.instructionWords hrun
  obtain ⟨image', symbols, hread', htext, hall⟩ := hlisted
  obtain rfl := Option.some.inj (hread.symm.trans hread')
  obtain rfl := Except.ok.inj (hrun.symm.trans hfinal)
  have hmeant := h.references_listed (List.Subset.refl _) startingPosition
  rw [himage] at hall
  have hsymbols : symbols =
      references startingPosition (placed.slots.map (slotEmission analyzer placed)) :=
    List.left_unique_forall₂' (fun _ _ _ hl hl' => hl.unique hl') hall hmeant
  rw [hsymbols] at htext
  exact (h.references_eq_nil_iff startingPosition).mp
    (symbolText_references_succ (hexternal.symm.trans htext))

end Accepted

/-- **The external file lists the external words exactly if there are none**:
every line gives the address behind the word it is for. -/
theorem generateObjectAndExternalFiles_lists_iff {lexer : Lexer}
    {unit placed : TranslationUnit} {analyzer : SemanticAnalyzer} {generator : CodeGenerator}
    (h : Accepted lexer unit analyzer generator placed) : ∃ result,
    generateObjectAndExternalFiles generator analyzer placed = .ok result ∧
      (ReferencesListed placed result ↔ NoExternalOperand placed) := by
  obtain ⟨final, hrun, -, hexternal⟩ := h.files
  refine ⟨_, hrun, h.noExternalOperand hrun, ?_⟩
  intro hnone
  obtain ⟨image, hread, himage⟩ := h.instructionWords hrun
  have hmeant := h.references_listed (List.Subset.refl _) startingPosition
  have hempty := (h.references_eq_nil_iff startingPosition).mpr hnone
  have hempty' := (h.references_eq_nil_iff (startingPosition + 1)).mpr hnone
  refine ⟨image, [], hread, ?_, ?_⟩
  · rw [hexternal, hempty']
  · rw [hempty] at hmeant
    rw [himage]
    exact hmeant

/-- Two instructions that name an external. -/
theorem generateObjectAndExternalFiles_lists_iff_sample :
    ∃ unit analyzer generator placed,
      Accepted (sampleLexer "A: jmp E\nmov E, X\n.extern E\nX: .data 1\n") unit analyzer generator
          placed ∧
      ¬ NoExternalOperand placed ∧
      ∃ result, generateObjectAndExternalFiles generator analyzer placed = .ok result ∧
        (ReferencesListed placed result ↔ NoExternalOperand placed) := by
  have haccepts : acceptsWith (fun run => decide (¬ NoExternalOperand run.2.2.2))
      (sampleLexer "A: jmp E\nmov E, X\n.extern E\nX: .data 1\n") = true := by decide +kernel
  obtain ⟨unit, analyzer, generator, placed, h, hcheck⟩ := exists_accepted (.file _ _) haccepts
  exact ⟨unit, analyzer, generator, placed, h, of_decide_eq_true hcheck,
    generateObjectAndExternalFiles_lists_iff h⟩

/-- The word of `E` is written at 101, and its line says 102. -/
theorem not_lists_external : ∃ unit analyzer generator placed result,
    Accepted (sampleLexer "A: jmp E\n.extern E\n") unit analyzer generator placed ∧
      generateObjectAndExternalFiles generator analyzer placed = .ok result ∧
      ¬ ReferencesListed placed result := by
  have haccepts : acceptsWith (fun run => decide (¬ NoExternalOperand run.2.2.2))
      (sampleLexer "A: jmp E\n.extern E\n") = true := by decide +kernel
  obtain ⟨unit, analyzer, generator, placed, h, hcheck⟩ := exists_accepted (.file _ _) haccepts
  obtain ⟨final, hrun, -, -⟩ := h.files
  exact ⟨unit, analyzer, generator, placed, _, h, hrun,
    fun hlisted => of_decide_eq_true hcheck (h.noExternalOperand hrun hlisted)⟩

end Assembler
