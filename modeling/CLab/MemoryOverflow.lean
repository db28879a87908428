import CLab.References
import CLab.Relexing

/-!
# The end of the memory

`code_generator_update_labels` compares the address behind the words of a label
with the greatest position, and takes the token of its error from the label at
which it stops.  Both are a little off: a program whose last word stands at the
greatest position is reported (`codeGeneratorUpdateLabels_reports_iff`), and a
block of directives at which it stops need not have a label
(`codeGeneratorUpdateLabels_safe_iff`).
-/

namespace Assembler

/-! ## The label that crosses the end -/

/-- The words of a list of labels are those of the first and of the others. -/
theorem wordsOf_cons (label : LabelNode) (labels : List LabelNode) :
    wordsOf (label :: labels) = labelWords label + wordsOf labels := by
  rw [wordsOf, List.map_cons, List.sum_cons]
  rfl

theorem wordsOf_append (labels labels' : List LabelNode) :
    wordsOf (labels ++ labels') = wordsOf labels + wordsOf labels' := by
  rw [wordsOf, List.map_append, List.sum_append]
  rfl

/-- The labels from a position on up to the first behind whose words the
position is past the greatest one. -/
structure Crosses (position : Nat) (labels before : List LabelNode) (node : LabelNode)
    (after : List LabelNode) : Prop where
  split : labels = before ++ node :: after
  fits : position + wordsOf before ≤ maxPosition
  crossed : maxPosition < position + wordsOf before + labelWords node

section Crosses

variable {position : Nat} {labels labels' before after : List LabelNode} {label node : LabelNode}

/-- A crossing behind a label is one of the longer list. -/
theorem Crosses.cons (h : Crosses (position + labelWords label) labels before node after) :
    Crosses position (label :: labels) (label :: before) node after where
  split := by rw [h.split, List.cons_append]
  fits := by
    rw [wordsOf_cons, ← Nat.add_assoc]
    exact h.fits
  crossed := by
    rw [wordsOf_cons, ← Nat.add_assoc]
    exact h.crossed

theorem Crosses.append_right (h : Crosses position labels before node after)
    (labels' : List LabelNode) :
    Crosses position (labels ++ labels') before node (after ++ labels') where
  split := by rw [h.split, List.append_assoc, List.cons_append]
  fits := h.fits
  crossed := h.crossed

theorem Crosses.append_left (h : Crosses (position + wordsOf labels) labels' before node after) :
    Crosses position (labels ++ labels') (labels ++ before) node after where
  split := by rw [h.split, List.append_assoc]
  fits := by
    rw [wordsOf_append, ← Nat.add_assoc]
    exact h.fits
  crossed := by
    rw [wordsOf_append, ← Nat.add_assoc]
    exact h.crossed

/-- Too many words are crossed at some label. -/
theorem exists_crosses (hposition : position ≤ maxPosition)
    (hover : maxPosition < position + wordsOf labels) :
    ∃ before node after, Crosses position labels before node after := by
  induction labels generalizing position with
  | nil =>
      have hnone : wordsOf [] = 0 := rfl
      omega
  | cons label rest ih =>
      rw [wordsOf_cons, ← Nat.add_assoc] at hover
      by_cases hfits : position + labelWords label ≤ maxPosition
      · obtain ⟨before, node, after, h⟩ := ih hfits hover
        exact ⟨label :: before, node, after, h.cons⟩
      · exact ⟨[], label, rest, rfl, hposition, Nat.lt_of_not_le hfits⟩

/-- Where a label crosses there are too many words. -/
theorem Crosses.total (h : Crosses position labels before node after) :
    maxPosition < position + wordsOf labels := by
  have hover := h.crossed
  rw [h.split, wordsOf_append, wordsOf_cons]
  omega

/-- Only one label crosses the end. -/
theorem Crosses.unique {before' after' : List LabelNode} {node' : LabelNode}
    (h : Crosses position labels before node after)
    (h' : Crosses position labels before' node' after') : node = node' := by
  induction before generalizing position labels before' with
  | nil =>
      cases before' with
      | nil => exact (List.cons.inj (h.split.symm.trans h'.split)).1
      | cons first before' =>
          obtain ⟨rfl, -⟩ := List.cons.inj (h.split.symm.trans h'.split)
          have hover := h.crossed
          have hfits := h'.fits
          rw [wordsOf_cons] at hfits
          have hnone : wordsOf [] = 0 := rfl
          omega
  | cons first before ih =>
      cases before' with
      | nil =>
          obtain ⟨rfl, -⟩ := List.cons.inj (h.split.symm.trans h'.split)
          have hover := h'.crossed
          have hfits := h.fits
          rw [wordsOf_cons] at hfits
          have hnone : wordsOf [] = 0 := rfl
          omega
      | cons first' before' =>
          obtain ⟨rfl, htail⟩ := List.cons.inj (h.split.symm.trans h'.split)
          have hfits := h.fits
          have hover := h.crossed
          have hfits' := h'.fits
          have hover' := h'.crossed
          rw [wordsOf_cons, ← Nat.add_assoc] at hfits hover hfits' hover'
          exact ih ⟨rfl, hfits, hover⟩ ⟨htail, hfits', hover'⟩

end Crosses

/-! ## The first pass -/

/-- The second list is placed behind the words of the first. -/
theorem placeLabels_append (position : Nat) (labels labels' : List LabelNode) :
    placeLabels position (labels ++ labels') =
      placeLabels position labels ++ placeLabels (position + wordsOf labels) labels' := by
  induction labels generalizing position with
  | nil => rfl
  | cons label rest ih =>
      rw [List.cons_append, placeLabels, ih, placeLabels, wordsOf_cons, Nat.add_assoc,
        List.cons_append]

/-- The label at a place of the list, placed. -/
theorem placeLabels_at (position : Nat) (before : List LabelNode) (node : LabelNode)
    (after : List LabelNode) :
    (placeLabels position (before ++ node :: after))[before.length]? =
      some { node with size := labelWords node, position := position + wordsOf before } := by
  have hlength : (placeLabels position before).length = before.length := by
    have h := congrArg List.length (placeLabels_size position before)
    rwa [List.length_map, List.length_map] at h
  rw [placeLabels_append, List.getElem?_append_right (by omega), hlength, Nat.sub_self]
  rfl

/-- The message of the source. -/
def overflowMessage : String := "Memory overflow: Program exceeds maximum allowed size"

section UpdateLabels

variable (generator : CodeGenerator) {position : Nat} {labels before after : List LabelNode}
  {node : LabelNode}

/-- Labels that leave the position in the memory are all placed. -/
theorem updateLabelList_fits (hsized : ∀ label ∈ labels, LabelSized label)
    (hfits : position + wordsOf labels ≤ maxPosition) :
    updateLabelList generator position labels =
      .ok ⟨generator, placeLabels position labels, position + wordsOf labels, false⟩ := by
  induction labels generalizing position with
  | nil => rfl
  | cons label rest ih =>
      rw [wordsOf_cons, ← Nat.add_assoc] at hfits
      have hrest := ih (fun l hl => hsized l (List.mem_cons_of_mem _ hl)) hfits
      have hstay : ¬ position + labelWords label > maxPosition := by omega
      rw [updateLabelList, calculateLabelMemorySize_eq (hsized label List.mem_cons_self)]
      simp only [bind, Except.bind, if_neg hstay, hrest]
      rw [wordsOf_cons, Nat.add_assoc]
      rfl

/-- At the label that crosses the end the pass stops: with an error whose token is
that of the label, or where there is none to be read. -/
theorem updateLabelList_crosses (hsized : ∀ label ∈ labels, LabelSized label)
    (h : Crosses position labels before node after) :
    (node.label = none ∧ updateLabelList generator position labels = .error .nullDereference) ∨
    ∃ token updated, node.label = some token ∧
      updateLabelList generator position labels = .ok updated ∧ updated.overflow = true ∧
      updated.generator = generator.addError overflowMessage token := by
  induction before generalizing position labels with
  | nil =>
      obtain rfl := h.split
      have hover : position + labelWords node > maxPosition := h.crossed
      rw [List.nil_append, updateLabelList,
        calculateLabelMemorySize_eq (hsized node List.mem_cons_self)]
      simp only [bind, Except.bind, if_pos hover]
      cases hlabel : node.label with
      | none => exact Or.inl ⟨rfl, rfl⟩
      | some token => exact Or.inr ⟨token, _, rfl, rfl, rfl, rfl⟩
  | cons first before ih =>
      obtain rfl := h.split
      have hfits := h.fits
      have hover := h.crossed
      rw [wordsOf_cons, ← Nat.add_assoc] at hfits hover
      have hstay : ¬ position + labelWords first > maxPosition := by omega
      have hcrosses : Crosses (position + labelWords first) (before ++ node :: after) before node
          after := ⟨rfl, hfits, hover⟩
      have hrestSized : ∀ label ∈ before ++ node :: after, LabelSized label :=
        fun l hl => hsized l (List.mem_cons_of_mem _ hl)
      have hrest := ih hrestSized hcrosses
      rw [List.cons_append, updateLabelList,
        calculateLabelMemorySize_eq (hsized first List.mem_cons_self)]
      simp only [bind, Except.bind, if_neg hstay]
      rcases hrest with ⟨hnone, hrest⟩ | ⟨token, updated, hlabel, hrest, hstop, herror⟩
      · exact Or.inl ⟨hnone, by rw [hrest]⟩
      · refine Or.inr ⟨token, { updated with
          labels := { first with size := labelWords first, position := position } ::
            updated.labels }, hlabel, ?_, hstop, herror⟩
        rw [hrest]

variable {unit : TranslationUnit} (hsized : ∀ label ∈ unit.labels, LabelSized label)

include hsized

/-- What fits is placed without an error. -/
theorem codeGeneratorUpdateLabels_fits
    (hfits : startingPosition + wordsOf unit.labels ≤ maxPosition) :
    codeGeneratorUpdateLabels generator unit = .ok (generator, unit.placed) := by
  rw [TranslationUnit.labels, wordsOf_append, ← Nat.add_assoc] at hfits
  have hinstructions := updateLabelList_fits generator
    (fun l hl => hsized l (List.mem_append_left _ hl)) (Nat.le_of_add_right_le hfits)
  have hguidance := updateLabelList_fits generator
    (fun l hl => hsized l (List.mem_append_right _ hl)) hfits
  rw [codeGeneratorUpdateLabels, hinstructions]
  simp only [bind, Except.bind, hguidance]
  rfl

/-- A program that crosses the end gets one error, unless the label that crosses
it has no token. -/
theorem codeGeneratorUpdateLabels_crosses
    (h : Crosses startingPosition unit.labels before node after) :
    (node.label = none ∧ codeGeneratorUpdateLabels generator unit = .error .nullDereference) ∨
    ∃ token placed, node.label = some token ∧ codeGeneratorUpdateLabels generator unit =
      .ok (generator.addError overflowMessage token, placed) := by
  by_cases hfits : startingPosition + wordsOf unit.instructionLabelList ≤ maxPosition
  · -- The instructions fit, so a directive crosses the end.
    have hinstructions := updateLabelList_fits generator
      (fun l hl => hsized l (List.mem_append_left _ hl)) hfits
    have hover := h.total
    rw [TranslationUnit.labels, wordsOf_append, ← Nat.add_assoc] at hover
    obtain ⟨before', node', after', h'⟩ := exists_crosses hfits hover
    obtain rfl := h.unique h'.append_left
    rw [codeGeneratorUpdateLabels, hinstructions]
    rcases updateLabelList_crosses generator
      (fun l hl => hsized l (List.mem_append_right _ hl)) h' with
      ⟨hnone, hrun⟩ | ⟨token, updated, hlabel, hrun, -, herror⟩
    · refine Or.inl ⟨hnone, ?_⟩
      simp only [bind, Except.bind, hrun]
      rfl
    · refine Or.inr ⟨token, { unit with
        instructionLabelList := placeLabels startingPosition unit.instructionLabelList
        guidanceLabelList := updated.labels }, hlabel, ?_⟩
      simp only [bind, Except.bind, hrun, ← herror]
      rfl
  · obtain ⟨before', node', after', h'⟩ := exists_crosses (by decide) (Nat.lt_of_not_le hfits)
    obtain rfl := h.unique (h'.append_right _)
    rw [codeGeneratorUpdateLabels]
    rcases updateLabelList_crosses generator
      (fun l hl => hsized l (List.mem_append_left _ hl)) h' with
      ⟨hnone, hrun⟩ | ⟨token, updated, hlabel, hrun, hstop, herror⟩
    · refine Or.inl ⟨hnone, ?_⟩
      rw [hrun]
      rfl
    · refine Or.inr ⟨token, { unit with instructionLabelList := updated.labels }, hlabel, ?_⟩
      simp only [bind, Except.bind, hrun, ← herror, if_pos hstop]

end UpdateLabels

/-! ## A program of one string -/

/-- A `.string` line with so many characters, behind a label or none. -/
def longString (label : String) (n : Nat) : List UInt8 :=
  bytes label ++ (bytes ".string \"" ++ (List.replicate n 'x'.toUInt8 ++ bytes "\"\n"))

/-- The lexemes of such a line without a label, and of the end of the file. -/
def longStringLexemes (n : Nat) : List Lexeme :=
  [⟨bytes ".string", some .stringIns, none⟩, spaceLexeme,
    ⟨'\"'.toUInt8 :: (List.replicate n 'x'.toUInt8 ++ ['\"'.toUInt8]), some .string, none⟩,
    ⟨['\n'.toUInt8], some .eol, none⟩, ⟨[eofChar], some .eoft, none⟩]

/-- The label, its colon and a blank. -/
def labelLexemes : List Lexeme :=
  [⟨bytes "X", some .identifier, none⟩, ⟨bytes ":", some .colon, none⟩, spaceLexeme]

/-- A long string reaches to its quote. -/
theorem quotedText_replicate (n : Nat) (rest : List UInt8) :
    quotedText (List.replicate n 'x'.toUInt8 ++ '\"'.toUInt8 :: rest) =
      (List.replicate n 'x'.toUInt8 ++ ['\"'.toUInt8], true) := by
  induction n with
  | zero => exact quotedText_quote rest
  | succ n ih =>
      rw [List.replicate_succ, List.cons_append, quotedText_cons (by decide) (by decide), ih]
      rfl

/-- The long source has the lexemes that it is made of. -/
theorem lexes_longString (n : Nat) :
    Lexes (longString "" n ++ [eofChar]) (longStringLexemes n) := by
  have hstart : longString "" n ++ [eofChar] =
      '.'.toUInt8 :: (bytes "string" ++ ' '.toUInt8 :: '\"'.toUInt8 ::
        (List.replicate n 'x'.toUInt8 ++ '\"'.toUInt8 :: ['\n'.toUInt8, eofChar])) := by
    rw [longString, List.append_assoc, List.append_assoc, List.append_assoc]
    rfl
  rw [hstart]
  refine Lexes.cons (nextLexeme_dot _) rfl (Lexes.cons (nextLexeme_space _) rfl ?_)
  refine Lexes.cons ((nextLexeme_quote _).trans ?_) ?_ (Lexes.cons (nextLexeme_newline _) rfl
    (Lexes.cons (nextLexeme_eofChar _) rfl Lexes.nil))
  · rw [quotedText_replicate]
    rfl
  · simp

theorem lexes_labelled (n : Nat) :
    Lexes (longString "X: " n ++ [eofChar]) (labelLexemes ++ longStringLexemes n) := by
  have hstart : longString "X: " n ++ [eofChar] =
      'X'.toUInt8 :: ':'.toUInt8 :: ' '.toUInt8 :: (longString "" n ++ [eofChar]) := rfl
  rw [hstart]
  exact Lexes.cons (nextLexeme_word (Or.inl (by decide)) _) rfl
    (Lexes.cons (nextLexeme_separator (by decide) (by decide) _) rfl
      (Lexes.cons (nextLexeme_space _) rfl (lexes_longString n)))

/-- The tokens of a file whose lexemes are known. -/
theorem lexerAnalyze_file {path : String} {contents : List UInt8} {xs : List Lexeme}
    (hnoNul : 0 ∉ contents) (h : Lexes (contents ++ [eofChar]) xs) :
    (lexerAnalyze (lexerInitializeFromFile path contents)).tokenList =
      placeTokens (lexerInitializeFromFile path contents) xs := by
  have hdata : (lexerInitializeFromFile path contents).rest = contents ++ [eofChar] := by
    have htext : (fileText contents).data = contents ++ [eofChar] := by
      rw [fileText, stringAppendChar_data (by decide), foldl_stringAppendChar,
        List.filter_eq_self.mpr]
      · rfl
      · intro c hc
        simpa using fun h0 : c = 0 => hnoNul (h0 ▸ hc)
    exact htext
  have hsynced : (lexerInitializeFromFile path contents).Synced := rfl
  obtain ⟨ys, hys, heq⟩ := lexerAnalyze_eq hsynced
  rw [hdata] at hys
  obtain rfl := h.unique hys
  rw [heq, takeAll_tokenList]
  rfl

/-- It has no NUL. -/
theorem longString_noNul {label : String} (h : 0 ∉ bytes label) (n : Nat) :
    0 ∉ longString label n := by
  have hends : (0 : UInt8) ∉ bytes ".string \"" ∧ (0 : UInt8) ∉ bytes "\"\n" := by decide
  simp only [longString, List.mem_append, List.mem_replicate, not_or]
  exact ⟨h, hends.1, fun hx => absurd hx.2 (by decide), hends.2⟩

/-- The lexer on a file with the line. -/
def longStringLexer (label : String) (n : Nat) : Lexer :=
  lexerAnalyze (lexerInitializeFromFile "long" (longString label n))

/-- So its lexer is one that has run. -/
theorem longStringLexer_output (label : String) (n : Nat) :
    LexerOutput (longStringLexer label n) :=
  .file _ _

/-- The unit of a program that is one string. -/
theorem exists_longUnit {lexer : Lexer} {label : Option Token} {string : Token}
    (h : Program .closed lexer.tokenList
      [.guidance label [.stringNode { stringLabel := some string, hasParserError := false }]]) :
    ∃ unit, ParsedFrom (parserInitializeTranslationUnit lexer) unit ∧
      unit.labels = [{ LabelNode.zero with
        label := label
        guidanceList := [.stringNode { stringLabel := some string, hasParserError := false }] }] ∧
      unit.slots.length + unit.values.length = stringLength string.string - 1 - 1 + 1 := by
  obtain ⟨tokens, hparse⟩ := @Program.parsed (parserInitializeTranslationUnit lexer) _ _ h
  refine ⟨_, ⟨hparse, rfl⟩, rfl, ?_⟩
  show 0 + (guidanceValues _ ++ [] ++ []).length = _
  simp [guidanceValues]

/-- The token of the string has its quotes. -/
theorem longToken_length (lexer : Lexer) (n : Nat) :
    stringLength (Lexeme.tokenAt ⟨'\"'.toUInt8 :: (List.replicate n 'x'.toUInt8 ++ ['\"'.toUInt8]),
      some .string, none⟩ lexer .string).string = n + 2 := by
  have hnoNul : (0 : UInt8) ∉
      '\"'.toUInt8 :: (List.replicate n 'x'.toUInt8 ++ ['\"'.toUInt8]) := by
    simp only [List.mem_cons, List.mem_append, List.mem_replicate, not_or]
    exact ⟨by decide, fun hx => absurd hx.2 (by decide), by decide, List.not_mem_nil⟩
  have hdata := fromCstr_noNul hnoNul
  show (stringCreateFromCstr _).data.length = _
  rw [hdata]
  simp

/-- Without the label the parser finds one nameless label of that size. -/
theorem longString_unlabelled (n : Nat) :
    ∃ unit node, ParsedFrom (parserInitializeTranslationUnit (longStringLexer "" n)) unit ∧
      unit.labels = [node] ∧ node.label = none ∧
      unit.slots.length + unit.values.length = n + 1 := by
  obtain ⟨string, hprogram, hstring⟩ : ∃ string, Program .closed (longStringLexer "" n).tokenList
      [.guidance none [.stringNode { stringLabel := some string, hasParserError := false }]] ∧
      stringLength string.string = n + 2 := by
    rw [longStringLexer, lexerAnalyze_file (longString_noNul (by decide) n) (lexes_longString n)]
    refine ⟨_, Program.block (BlockLines.unlabelled (Lines.cons (GuidanceLine.string rfl rfl
      (LineEnd.eol rfl)) (Lines.nil _)) (by simp)) (Program.eoft rfl), ?_⟩
    exact longToken_length _ n
  obtain ⟨unit, hparsed, hlabels, hwords⟩ := exists_longUnit hprogram
  exact ⟨unit, _, hparsed, hlabels, rfl, by rw [hwords, hstring]; omega⟩

theorem longString_labelled (n : Nat) :
    ∃ unit node, ParsedFrom (parserInitializeTranslationUnit (longStringLexer "X: " n)) unit ∧
      unit.labels = [node] ∧ node.label ≠ none ∧
      unit.slots.length + unit.values.length = n + 1 := by
  obtain ⟨label, string, hprogram, hstring⟩ : ∃ label string,
      Program .closed (longStringLexer "X: " n).tokenList [.guidance (some label)
        [.stringNode { stringLabel := some string, hasParserError := false }]] ∧
      stringLength string.string = n + 2 := by
    rw [longStringLexer, lexerAnalyze_file (longString_noNul (by decide) n) (lexes_labelled n)]
    refine ⟨_, _, Program.block (BlockLines.labelled ⟨rfl, rfl, rfl⟩ (Lines.cons
      (GuidanceLine.string rfl rfl (LineEnd.eol rfl)) (Lines.nil _)) (by simp))
      (Program.eoft rfl), ?_⟩
    exact longToken_length _ n
  obtain ⟨unit, hparsed, hlabels, hwords⟩ := exists_longUnit hprogram
  exact ⟨unit, _, hparsed, hlabels, by simp, by rw [hwords, hstring]; omega⟩

/-! ## What is reported -/

/-- The addresses of the words that the second pass writes. -/
def TranslationUnit.addresses (unit : TranslationUnit) : List Nat :=
  List.range' startingPosition (unit.slots.length + unit.values.length)

/-- The first pass adds one error if a word stands behind the greatest position,
and places the labels one behind the other if it adds none. -/
def OverflowReported (generator : CodeGenerator) (unit : TranslationUnit) : Prop :=
  ∃ generator' placed added, codeGeneratorUpdateLabels generator unit = .ok (generator', placed) ∧
    generator'.errorHandler.errorList = generator.errorHandler.errorList ++ added ∧
    (added = [] ∨ ∃ token, added = [.tokenError .outputGenerator ⟨token, overflowMessage⟩]) ∧
    (added ≠ [] ↔ ∃ address ∈ unit.addresses, maxPosition < address) ∧
    (added = [] → ∀ before node after, unit.labels = before ++ node :: after →
      placed.labels[before.length]? = some { node with
        size := labelWords node
        position := startingPosition + wordsOf before })

section Reports

variable {lexer : Lexer} {unit : TranslationUnit}

/-- The sizes are those of the tokens of the source. -/
theorem ParsedFrom.labels_sized (h : ParsedFrom (parserInitializeTranslationUnit lexer) unit)
    (hlexed : LexerOutput lexer) : ∀ label ∈ unit.labels, LabelSized label :=
  h.formed.sized hlexed.lexed

/-- The words of a unit are its slots and its values. -/
theorem UnitFormed.wordsOf_labels {source : List Token} (h : UnitFormed source unit) :
    wordsOf unit.labels = unit.slots.length + unit.values.length := by
  rw [TranslationUnit.labels, wordsOf_append, h.wordsOf_instructions (List.Subset.refl _),
    h.wordsOf_guidance (List.Subset.refl _)]
  rfl

/-- A word stands behind the greatest position if the position behind the last
word is past the next one. -/
theorem exists_address_iff : (∃ address ∈ unit.addresses, maxPosition < address) ↔
    maxPosition + 1 < startingPosition + (unit.slots.length + unit.values.length) := by
  constructor
  · intro hfacts
    obtain ⟨address, hmem, hover⟩ := hfacts
    have hlast := (List.mem_range'_1.mp hmem).2
    omega
  · intro hover
    refine ⟨maxPosition + 1, List.mem_range'_1.mpr ⟨by decide, hover⟩, Nat.lt_succ_self _⟩

/-- The labels of a placed unit are placed one behind the other. -/
theorem placed_labels (unit : TranslationUnit) :
    unit.placed.labels = placeLabels startingPosition unit.labels :=
  (placeLabels_append startingPosition unit.instructionLabelList unit.guidanceLabelList).symm

/-- A program whose labels have tokens gets an error when it crosses the end. -/
theorem codeGeneratorUpdateLabels_stops (hsized : ∀ label ∈ unit.labels, LabelSized label)
    (hlabelled : ∀ label ∈ unit.labels, label.label ≠ none)
    (hover : maxPosition < startingPosition + wordsOf unit.labels) (generator : CodeGenerator) :
    ∃ token placed, codeGeneratorUpdateLabels generator unit =
      .ok (generator.addError overflowMessage token, placed) := by
  obtain ⟨before, node, after, hcrosses⟩ := exists_crosses (by decide) hover
  have hmem : node ∈ unit.labels := by rw [hcrosses.split]; simp
  rcases codeGeneratorUpdateLabels_crosses generator hsized hcrosses with
    ⟨hnone, -⟩ | ⟨token, placed, -, hrun⟩
  · exact absurd hnone (hlabelled node hmem)
  · exact ⟨token, placed, hrun⟩

/-- The pass compares the position behind the last word, so it reports a program
whose last word is the last of the memory. -/
theorem OverflowReported.words_ne {generator : CodeGenerator}
    (h : OverflowReported generator unit) (hsized : ∀ label ∈ unit.labels, LabelSized label)
    (hlabelled : ∀ label ∈ unit.labels, label.label ≠ none)
    (hwords : wordsOf unit.labels = unit.slots.length + unit.values.length) :
    unit.slots.length + unit.values.length ≠ 9900 := by
  obtain ⟨generator', placed, added, hrun, hadded, -, hiff, -⟩ := h
  intro hend
  have hover : maxPosition < startingPosition + wordsOf unit.labels := by
    rw [hwords, hend]
    decide
  obtain ⟨token, placed', hrun'⟩ := codeGeneratorUpdateLabels_stops hsized hlabelled hover generator
  obtain ⟨rfl, -⟩ := Prod.mk.inj (Except.ok.inj (hrun.symm.trans hrun'))
  have hone := List.append_cancel_left hadded
  have hbehind := exists_address_iff.mp (hiff.mp (by rw [← hone]; simp))
  rw [hend] at hbehind
  exact absurd hbehind (by decide)

/-- **The overflow is reported exactly when it happens**, but for programs whose
last word stands at the greatest position. -/
theorem codeGeneratorUpdateLabels_reports_iff (hlexed : LexerOutput lexer)
    (hparsed : ParsedFrom (parserInitializeTranslationUnit lexer) unit)
    (hlabelled : ∀ label ∈ unit.labels, label.label ≠ none) (generator : CodeGenerator) :
    OverflowReported generator unit ↔ unit.slots.length + unit.values.length ≠ 9900 := by
  have hsized := hparsed.labels_sized hlexed
  have hwords := hparsed.formed.wordsOf_labels
  constructor
  · exact fun h => h.words_ne hsized hlabelled hwords
  · intro hend
    by_cases hfits : startingPosition + wordsOf unit.labels ≤ maxPosition
    · refine ⟨generator, unit.placed, [], codeGeneratorUpdateLabels_fits generator hsized hfits,
        (List.append_nil _).symm, Or.inl rfl, ?_, ?_⟩
      · rw [exists_address_iff, ← hwords]
        refine ⟨fun h => absurd rfl h, fun h => absurd hfits (by omega)⟩
      · intro _ before node after hsplit
        rw [placed_labels, hsplit]
        exact placeLabels_at _ _ _ _
    · obtain ⟨token, placed, hrun⟩ := codeGeneratorUpdateLabels_stops hsized hlabelled
        (Nat.lt_of_not_le hfits) generator
      refine ⟨_, placed, [.tokenError .outputGenerator ⟨token, overflowMessage⟩], hrun, rfl,
        Or.inr ⟨token, rfl⟩, ?_, fun h => absurd h (by simp)⟩
      rw [exists_address_iff, ← hwords]
      refine ⟨fun _ => ?_, fun _ => by simp⟩
      simp only [startingPosition, maxPosition] at hfits ⊢
      omega

/-- A source that fits. -/
theorem codeGeneratorUpdateLabels_reports_sample : ∃ unit,
    ParsedFrom (parserInitializeTranslationUnit (longStringLexer "X: " 1)) unit ∧
    OverflowReported (codeGeneratorInitialize (longStringLexer "X: " 1)) unit := by
  obtain ⟨unit, node, hparsed, hlabels, hlabel, hwords⟩ := longString_labelled 1
  have hlabelled : ∀ label ∈ unit.labels, label.label ≠ none := by
    rw [hlabels]
    simpa using hlabel
  refine ⟨unit, hparsed, ?_⟩
  refine (codeGeneratorUpdateLabels_reports_iff (longStringLexer_output _ _) hparsed hlabelled
    _).mpr ?_
  rw [hwords]
  decide

/-- A labelled string whose zero stands at the greatest position is reported. -/
theorem codeGeneratorUpdateLabels_reports_last : ∃ unit,
    ParsedFrom (parserInitializeTranslationUnit (longStringLexer "X: " 9899)) unit ∧
    (∀ label ∈ unit.labels, label.label ≠ none) ∧
    ¬ OverflowReported (codeGeneratorInitialize (longStringLexer "X: " 9899)) unit := by
  obtain ⟨unit, node, hparsed, hlabels, hlabel, hwords⟩ := longString_labelled 9899
  have hlabelled : ∀ label ∈ unit.labels, label.label ≠ none := by
    rw [hlabels]
    simpa using hlabel
  have hsized := hparsed.labels_sized (longStringLexer_output _ _)
  refine ⟨unit, hparsed, hlabelled, fun h => ?_⟩
  exact h.words_ne hsized hlabelled hparsed.formed.wordsOf_labels hwords

/-- **The error of the overflow reads a label that is there**, if the label that
crosses the end of the memory has one. -/
theorem codeGeneratorUpdateLabels_safe_iff (hlexed : LexerOutput lexer)
    (hparsed : ParsedFrom (parserInitializeTranslationUnit lexer) unit)
    (generator : CodeGenerator) :
    codeGeneratorUpdateLabels generator unit ≠ .error .nullDereference ↔
      ∀ before node after, Crosses startingPosition unit.labels before node after →
        node.label ≠ none := by
  have hsized := hparsed.labels_sized hlexed
  constructor
  · intro hsafe before node after hcrosses
    rcases codeGeneratorUpdateLabels_crosses generator hsized hcrosses with
      ⟨-, hrun⟩ | ⟨token, placed, hlabel, -⟩
    · exact absurd hrun hsafe
    · simp [hlabel]
  · intro hlabelled
    by_cases hfits : startingPosition + wordsOf unit.labels ≤ maxPosition
    · simp [codeGeneratorUpdateLabels_fits generator hsized hfits]
    · obtain ⟨before, node, after, hcrosses⟩ :=
        exists_crosses (by decide) (Nat.lt_of_not_le hfits)
      rcases codeGeneratorUpdateLabels_crosses generator hsized hcrosses with
        ⟨hnone, -⟩ | ⟨token, placed, -, hrun⟩
      · exact absurd hnone (hlabelled before node after hcrosses)
      · simp [hrun]

/-- A string without a label that fits. -/
theorem codeGeneratorUpdateLabels_safe_sample : ∃ unit,
    ParsedFrom (parserInitializeTranslationUnit (longStringLexer "" 1)) unit ∧
    codeGeneratorUpdateLabels (codeGeneratorInitialize (longStringLexer "" 1)) unit ≠
      .error .nullDereference := by
  obtain ⟨unit, node, hparsed, -, -, hwords⟩ := longString_unlabelled 1
  refine ⟨unit, hparsed, ?_⟩
  apply (codeGeneratorUpdateLabels_safe_iff (longStringLexer_output _ _) hparsed _).mpr
  intro before node after hcrosses
  have hover := hcrosses.total
  rw [hparsed.formed.wordsOf_labels, hwords] at hover
  exact absurd hover (by decide)

/-- A string without a label that crosses the end of the memory. -/
theorem codeGeneratorUpdateLabels_dereferences : ∃ unit,
    ParsedFrom (parserInitializeTranslationUnit (longStringLexer "" 9900)) unit ∧
    codeGeneratorUpdateLabels (codeGeneratorInitialize (longStringLexer "" 9900)) unit =
      .error .nullDereference := by
  obtain ⟨unit, node, hparsed, hlabels, hlabel, hwords⟩ := longString_unlabelled 9900
  have hsized := hparsed.labels_sized (longStringLexer_output _ _)
  have htotal : wordsOf unit.labels = 9901 := by rw [hparsed.formed.wordsOf_labels, hwords]
  have hover : maxPosition < startingPosition + wordsOf unit.labels := by rw [htotal]; decide
  obtain ⟨before, last, after, hcrosses⟩ := exists_crosses (by decide) hover
  refine ⟨unit, hparsed, ?_⟩
  rcases codeGeneratorUpdateLabels_crosses _ hsized hcrosses with ⟨-, hrun⟩ |
    ⟨token, placed, hsome, -⟩
  · exact hrun
  · have hmem : last ∈ unit.labels := by rw [hcrosses.split]; simp
    rw [hlabels, List.mem_singleton] at hmem
    exact absurd (hsome.symm.trans (hmem ▸ hlabel)) (by simp)

end Reports

end Assembler
