import CLab.Layout

/-!
# The data segment

The lines of the object file behind those of the instructions are the numbers
and the characters of the directives.  Every value that the analyzer admits
fits in the fifteen bits of a word with its sign (`valueWord_toInt`), so it is
read back from its line.
-/

namespace Assembler

/-! ## Values -/

/-- A number in the bounds is read back from its word. -/
theorem valueWord_toInt {value : Int} (hlow : min15BitSignedInt ≤ value)
    (hhigh : value ≤ max15BitSignedInt) : (valueWord value).toInt = value := by
  rw [min15BitSignedInt] at hlow
  rw [max15BitSignedInt] at hhigh
  rw [valueWord, wordOf, setWidth_ofInt (by decide), BitVec.toInt_ofInt_eq_self (by decide)]
  · simpa using hlow
  · norm_num
    omega

/-- The characters between the quotes of a string. -/
def stringCharacters (string : CString) : List UInt8 :=
  (string.data.drop 1).dropLast

/-- What a directive asks for: the values of its numbers, or the signed values of
the characters of its string and a zero. -/
def directiveValues : GuidanceNode → List Int
  | .dataNode node => node.dataNumbers.filterMap
      (fun number => number.map (fun token => atoi token.string.data))
  | .stringNode node => match node.stringLabel with
    | none => []
    | some label => (stringCharacters label.string).map charToInt ++ [0]

/-- The values of the data segment, from the source's directives. -/
def TranslationUnit.dataValues (unit : TranslationUnit) : List Int :=
  unit.guidanceLabelList.flatMap (fun label => label.guidanceList.flatMap directiveValues)

/-- The indices of the source are those of the characters between the quotes. -/
theorem stringCharAt_characters {string : CString} {body : List UInt8} {quote quote' : UInt8}
    (h : string.data = quote :: body ++ [quote']) :
    (List.range' 1 (stringLength string - 1 - 1)).map (stringCharAt string) =
      stringCharacters string := by
  have hlength : stringLength string - 1 - 1 = body.length := by
    rw [stringLength, h]
    simp
  have hbody : stringCharacters string = body := by
    rw [stringCharacters, h]
    simp
  rw [hlength, hbody]
  apply List.ext_getElem
  · simp
  · intro i hi hi'
    simp only [List.getElem_map, List.getElem_range', stringCharAt, h]
    rw [Nat.one_mul, Nat.add_comm, List.cons_append, List.getD_cons_succ,
      List.getD_append _ _ _ _ hi', List.getD_eq_getElem _ _ hi']

/-- Where no number is missing the default is never taken. -/
theorem map_elim_eq_filterMap {α β : Type} {numbers : List (Option α)} (h : none ∉ numbers)
    (f : α → β) (b : β) :
    numbers.map (fun number => number.elim b f) =
      numbers.filterMap (fun number => number.map f) := by
  induction numbers with
  | nil => rfl
  | cons number rest ih =>
      rw [List.mem_cons, not_or] at h
      obtain ⟨token, rfl⟩ := Option.ne_none_iff_exists'.mp (Ne.symm h.1)
      rw [List.map_cons, ih h.2]
      rfl

/-- On the nodes of a parsed unit the generator writes what is asked for. -/
theorem guidanceValues_eq {source : List Token} {node : GuidanceNode}
    (h : GuidanceFormed source node) (hlexed : ∀ t ∈ source, LexedToken t) :
    guidanceValues node = directiveValues node := by
  cases node with
  | dataNode node =>
      rw [guidanceValues, directiveValues, map_elim_eq_filterMap h.data_ne_none]
  | stringNode node =>
      obtain ⟨⟨t, hmem, ht, htype⟩, -⟩ := h
      obtain ⟨body, hbody⟩ := (hlexed t hmem).string htype
      rw [guidanceValues, directiveValues, ht]
      simp only
      rw [← stringCharAt_characters hbody, List.map_map]
      rfl

/-- A character fits in a word. -/
theorem charToInt_fits (ch : UInt8) :
    min15BitSignedInt ≤ charToInt ch ∧ charToInt ch ≤ max15BitSignedInt := by
  have hbounds := charToInt_bounds ch
  rw [min15BitSignedInt, max15BitSignedInt]
  omega

/-- The values of an accepted directive fit in a word. -/
theorem directiveValues_bounds {node : GuidanceNode} (h : GuidanceAccepted node) :
    ∀ value ∈ directiveValues node, min15BitSignedInt ≤ value ∧ value ≤ max15BitSignedInt := by
  intro value hvalue
  cases node with
  | dataNode node =>
      obtain ⟨number, hnumber, hsome⟩ := List.mem_filterMap.mp hvalue
      obtain ⟨token, rfl, rfl⟩ := Option.map_eq_some_iff.mp hsome
      exact h token hnumber
  | stringNode node =>
      rw [directiveValues] at hvalue
      cases hlabel : node.stringLabel with
      | none => simp [hlabel] at hvalue
      | some label =>
          rw [hlabel] at hvalue
          rcases List.mem_append.mp hvalue with hvalue | hvalue
          · obtain ⟨ch, -, rfl⟩ := List.mem_map.mp hvalue
            exact charToInt_fits ch
          · obtain rfl := List.mem_singleton.mp hvalue
            decide

/-! ## Lines -/

/-- Four decimal digits, a blank and five octal digits. -/
def FixedWidth (line : List UInt8) : Prop :=
  ∃ address word, line = address ++ blank :: word ∧
    (address.length = 4 ∧ ∀ ch ∈ address, Numerals.isDigitOf 10 ch = true) ∧
    word.length = 5 ∧ ∀ ch ∈ word, Numerals.isDigitOf 8 ch = true

/-- Every line of the file has the same width. -/
theorem objectLine_fixedWidth {placed : PlacedWord} (h : placed.address ≤ maxPosition) :
    FixedWidth (objectLine placed) := by
  have hword := placed.word.isLt
  rw [maxPosition] at h
  refine ⟨_, _, rfl, ⟨?_, ?_⟩, ?_, ?_⟩
  · exact Numerals.padded_length (by decide) (by omega)
  · exact Numerals.padded_isDigit (by decide) (by decide) _ _
  · exact Numerals.padded_length (by decide) (by omega)
  · exact Numerals.padded_isDigit (by decide) (by decide) _ _

/-- The lines of the object file behind those of the instructions. -/
def ObjectGenerated.guidanceText (result : ObjectGenerated) : List (List UInt8) :=
  (Numerals.textLines newline result.generator.objectFile.data).drop result.instructionLines

/-- The guidance part of the object file is read back to the values of the
unit's directives. -/
def DataDecodes (unit : TranslationUnit) (result : ObjectGenerated) : Prop :=
  result.guidanceText.length = result.guidanceLines ∧
    (∀ line ∈ result.guidanceText, FixedWidth line) ∧
    ∃ image, result.guidanceText.mapM readObjectLine = some image ∧
      image.map (fun placed => placed.word.toInt) = unit.dataValues

/-- The lines of an image are read back as the image. -/
theorem mapM_readObjectLine (image : List PlacedWord) :
    (image.map objectLine).mapM readObjectLine = some image := by
  have hread := readObject_objectText image
  rwa [readObject, textLines_objectText] at hread

section Accepted

variable {lexer : Lexer} {unit placed : TranslationUnit} {analyzer : SemanticAnalyzer}
  {generator : CodeGenerator}

/-- The values that are written are those of the directives. -/
theorem Accepted.dataValues_eq (h : Accepted lexer unit analyzer generator placed) :
    unit.values = unit.dataValues := by
  refine List.flatMap_congr (fun label hlabel => List.flatMap_congr (fun node hnode => ?_))
  obtain ⟨-, -, hall⟩ := h.formed.guidance label hlabel
  exact guidanceValues_eq (hall node hnode) h.lexed.lexed

/-- In an accepted program they are in the bounds. -/
theorem Accepted.dataValues_bounds (h : Accepted lexer unit analyzer generator placed) :
    ∀ value ∈ unit.dataValues, min15BitSignedInt ≤ value ∧ value ≤ max15BitSignedInt := by
  intro value hvalue
  obtain ⟨label, hlabel, hvalue⟩ := List.mem_flatMap.mp hvalue
  obtain ⟨node, hnode, hvalue⟩ := List.mem_flatMap.mp hvalue
  obtain ⟨-, -, -, hall⟩ := h.run
  exact directiveValues_bounds ((hall label (List.mem_append_right _ hlabel)).2 node hnode)
    value hvalue

end Accepted

/-- **The data segment is decodable.** -/
theorem generateObjectAndExternalFiles_dataDecodes {lexer : Lexer} {unit placed : TranslationUnit}
    {analyzer : SemanticAnalyzer} {generator : CodeGenerator}
    (h : Accepted lexer unit analyzer generator placed) :
    ∃ result, generateObjectAndExternalFiles generator analyzer placed = .ok result ∧
      DataDecodes unit result := by
  obtain ⟨rfl, rfl, hfits⟩ := h.toLaidOut.run
  have hformed := h.formed.placed
  obtain ⟨final, hrun, hobject, -, -⟩ :=
    @generateObjectAndExternalFiles_files _ _ _ hformed h.pointersValid
      (codeGeneratorInitialize lexer) rfl rfl
  rw [placed_slots, placed_values] at hrun hobject
  refine ⟨_, hrun, ?_⟩
  have hvalues := h.dataValues_eq
  have htext : ObjectGenerated.guidanceText ⟨final, unit.slots.length, unit.values.length⟩ =
      (placeWords (startingPosition + unit.slots.length)
        (unit.values.map valueWord)).map objectLine := by
    rw [ObjectGenerated.guidanceText, hobject, textLines_objectText, List.map_append]
    apply List.drop_left'
    simp
  rw [DataDecodes, htext]
  refine ⟨by simp, ?_, _, mapM_readObjectLine _, ?_⟩
  · intro line hline
    obtain ⟨placed, hplaced, rfl⟩ := List.mem_map.mp hline
    have haddress := List.mem_map_of_mem (f := PlacedWord.address) hplaced
    rw [placeWords_address, List.length_map] at haddress
    have hbound := List.mem_range'_1.mp haddress
    rw [h.formed.wordsOf_instructions (List.Subset.refl _),
      h.formed.wordsOf_guidance (List.Subset.refl _)] at hfits
    apply objectLine_fixedWidth
    have hfits' : startingPosition + unit.slots.length + unit.values.length ≤ maxPosition := hfits
    omega
  · rw [← Function.comp_def BitVec.toInt PlacedWord.word, ← List.map_map, placeWords_word,
      List.map_map, ← hvalues]
    refine (List.map_congr_left ?_).trans (List.map_id _)
    intro value hvalue
    have hbounds := h.dataValues_bounds value (hvalues ▸ hvalue)
    exact valueWord_toInt hbounds.1 hbounds.2

/-- Two numbers and a string. -/
theorem generateObjectAndExternalFiles_dataDecodes_sample :
    ∃ unit analyzer generator placed,
      Accepted (sampleLexer "X: .data -1, 6\n.string \"ab\"\n") unit analyzer generator placed ∧
      ∃ result, generateObjectAndExternalFiles generator analyzer placed = .ok result ∧
        DataDecodes unit result := by
  have haccepts : acceptsWith (fun _ => true)
      (sampleLexer "X: .data -1, 6\n.string \"ab\"\n") = true := by decide +kernel
  obtain ⟨unit, analyzer, generator, placed, h, -⟩ := exists_accepted (.file _ _) haccepts
  exact ⟨unit, analyzer, generator, placed, h, generateObjectAndExternalFiles_dataDecodes h⟩

end Assembler
