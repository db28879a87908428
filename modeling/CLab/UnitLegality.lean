import CLab.InstructionLegality
import CLab.MemoryOverflow

/-!
# Which programs are accepted

Every check of the analyzer adds an error or nothing, and what it adds depends
on the table only, which the checks leave as it is.  So a unit passes the whole
analysis exactly if each of its declarations, entries, instructions and numbers
passes its own check (`UnitLegal`), whatever the order in which they are made.
Together with the grammar of the parser and the size of the memory this says
which lists of tokens are assembled.
-/

namespace Assembler

/-! ## Checks of many members -/

section Checks

variable {α : Type} {P : α → Prop} {xs : List α}

/-- A check of a member: it returns, and adds an error exactly if the member
does not pass. -/
def ChecksExactly (f : SemanticAnalyzer → α → Except Fault SemanticAnalyzer) (P : α → Prop)
    (analyzer : SemanticAnalyzer) (x : α) : Prop :=
  ∃ analyzer', f analyzer x = .ok analyzer' ∧ Checked analyzer analyzer' ∧
    (analyzer'.errors = analyzer.errors ↔ P x)

/-- **The members of a list, checked one after the other**, add no error exactly
if all of them pass. -/
theorem foldlM_exact {f : SemanticAnalyzer → α → Except Fault SemanticAnalyzer}
    (analyzer : SemanticAnalyzer)
    (hstep : ∀ current : SemanticAnalyzer, current.hash = analyzer.hash →
      ∀ x ∈ xs, ChecksExactly f P current x) :
    ∃ analyzer', xs.foldlM f analyzer = .ok analyzer' ∧ Checked analyzer analyzer' ∧
      (analyzer'.errors = analyzer.errors ↔ ∀ x ∈ xs, P x) := by
  induction xs generalizing analyzer with
  | nil => exact ⟨analyzer, rfl, Checked.refl _, by simp⟩
  | cons x xs ih =>
      obtain ⟨middle, hfirst, hchecked, hclean⟩ := hstep analyzer rfl x List.mem_cons_self
      obtain ⟨analyzer', hrest, hchecked', hclean'⟩ := ih middle
        fun current hhash y hy => hstep current (hhash.trans hchecked.hash) y
          (List.mem_cons_of_mem _ hy)
      refine ⟨analyzer', ?_, hchecked.trans hchecked', ?_⟩
      · rw [List.foldlM_cons, hfirst]
        exact hrest
      · rw [hchecked.clean_iff hchecked', hclean, hclean', List.forall_mem_cons]

/-- The same for checks that cannot fail. -/
theorem foldl_exact {f : SemanticAnalyzer → α → SemanticAnalyzer} (analyzer : SemanticAnalyzer)
    (hstep : ∀ current : SemanticAnalyzer, current.hash = analyzer.hash → ∀ x ∈ xs,
      Checked current (f current x) ∧ ((f current x).errors = current.errors ↔ P x)) :
    Checked analyzer (xs.foldl f analyzer) ∧
      ((xs.foldl f analyzer).errors = analyzer.errors ↔ ∀ x ∈ xs, P x) := by
  induction xs generalizing analyzer with
  | nil => exact ⟨Checked.refl _, by simp⟩
  | cons x xs ih =>
      obtain ⟨hchecked, hclean⟩ := hstep analyzer rfl x List.mem_cons_self
      obtain ⟨hchecked', hclean'⟩ := ih (f analyzer x)
        fun current hhash y hy => hstep current (hhash.trans hchecked.hash) y
          (List.mem_cons_of_mem _ hy)
      refine ⟨hchecked.trans hchecked', ?_⟩
      rw [List.foldl_cons, hchecked.clean_iff hchecked', hclean, hclean', List.forall_mem_cons]

end Checks

/-! ## Legal units -/

/-- The names that a unit declares. -/
def TranslationUnit.declaredNames (unit : TranslationUnit) : List CString :=
  unit.labelNames ++ unit.externalNames

/-- An instruction that the analyzer lets pass where the names are declared. -/
structure InstructionPasses (names : List CString) (node : InstructionNode) : Prop where
  immediates : ∀ operand ∈ node.operands, operand.1.type = .number →
    -2048 ≤ atoi operand.1.string.data ∧ atoi operand.1.string.data ≤ 2047
  identifiers : ∀ operand ∈ node.operands, operand.1.type = .identifier →
    operand.1.string ∈ names ∧ operand.2 = false
  operation : ∃ operation, node.operation = some operation ∧ KindsLegal operation.type node ∧
    node.operands.length = operandsOf operation.type ∧ (WritesSecond operation.type →
      ¬ (OperandIs .number node.firstOperand ∧ OperandIs .number node.secondOperand))

/-- A unit without a fault that the analyzer looks for. -/
structure UnitLegal (unit : TranslationUnit) : Prop where
  distinct : unit.declaredNames.Nodup
  entries : ∀ name ∈ unit.entryNames, name ∈ unit.labelNames
  instructions : ∀ label ∈ unit.instructionLabelList, ∀ node ∈ label.instructionList,
    InstructionPasses unit.declaredNames node
  guidance : ∀ label ∈ unit.guidanceLabelList, ∀ node ∈ label.guidanceList, GuidanceAccepted node

/-- The names in a table are those of its declarations. -/
theorem Table.mem_keys_iff {analyzer : SemanticAnalyzer} {unit : TranslationUnit}
    (h : Table analyzer unit.declarations) (name : CString) :
    some name ∈ analyzer.keys ↔ name ∈ unit.declaredNames := by
  rw [← knows_iff h.placed, SemanticAnalyzer.knows, ne_eq, find_eq_none_iff h.placed, h.lookup,
    firstDeclaration_none, declarations_keys, not_not, TranslationUnit.declaredNames]

section Statements

variable {source : List Token} {unit : TranslationUnit} {analyzer : SemanticAnalyzer}
  (htable : Table analyzer unit.declarations)

include htable

theorem InstructionFormed.checksExactly {node : InstructionNode}
    (h : InstructionFormed source node) :
    Checked analyzer (semanticAnalyzerAnalyzeInstruction analyzer node) ∧
      ((semanticAnalyzerAnalyzeInstruction analyzer node).errors = analyzer.errors ↔
        InstructionPasses unit.declaredNames node) := by
  refine ⟨analyzeInstruction_checked h analyzer, ?_⟩
  obtain ⟨operation, -, hoperation, -⟩ := h.operation
  rw [analyzeInstruction_clean_iff h hoperation htable.placed]
  constructor
  · intro hclean
    obtain ⟨hoperands, hkinds, hcount, hwrites⟩ := hclean
    refine ⟨hoperands.immediates, fun operand hmem htype => ?_,
      operation, hoperation, hkinds, hcount, hwrites⟩
    obtain ⟨hknown, hderef⟩ := hoperands.identifiers operand hmem htype
    exact ⟨(htable.mem_keys_iff _).mp hknown, hderef⟩
  · intro hpasses
    obtain ⟨operation', hoperation', hkinds⟩ := hpasses.operation
    obtain rfl := Option.some.inj (hoperation.symm.trans hoperation')
    refine ⟨⟨hpasses.immediates, fun operand hmem htype => ?_⟩, hkinds⟩
    obtain ⟨hknown, hderef⟩ := hpasses.identifiers operand hmem htype
    exact ⟨(htable.mem_keys_iff _).mpr hknown, hderef⟩

omit htable in
theorem analyzeDataNumbers_exact {numbers : List (Option Token)} (h : none ∉ numbers)
    (analyzer : SemanticAnalyzer) :
    ChecksExactly analyzeDataNumbers (fun ys => ∀ t, some t ∈ ys → NumberAccepted t) analyzer
      numbers := by
  induction numbers generalizing analyzer with
  | nil => exact ⟨analyzer, rfl, Checked.refl _, by simp⟩
  | cons number numbers ih =>
      rw [List.mem_cons, not_or] at h
      obtain ⟨token, rfl⟩ := Option.ne_none_iff_exists'.mp (Ne.symm h.1)
      have hchecked : Checked analyzer (analyzer.reportIf
          (decide (atoi token.string.data > max15BitSignedInt ∨
            atoi token.string.data < min15BitSignedInt))
          "Integer value is out of the allowed range" (some token)) :=
        reportIf_checked _ (by simp)
      obtain ⟨analyzer', hrun, hchecked', hclean⟩ := ih h.2 _
      refine ⟨analyzer', hrun, hchecked.trans hchecked', ?_⟩
      have hfirst : ¬ (atoi token.string.data > max15BitSignedInt ∨
          atoi token.string.data < min15BitSignedInt) ↔ NumberAccepted token := by
        rw [NumberAccepted]
        omega
      rw [hchecked.clean_iff hchecked', reportIf_clean, hclean, decide_eq_false_iff_not, hfirst]
      constructor
      · intro hall t ht
        rcases List.mem_cons.mp ht with heq | ht
        · obtain rfl := Option.some.inj heq
          exact hall.1
        · exact hall.2 t ht
      · intro hall
        exact ⟨hall token List.mem_cons_self, fun t ht => hall t (List.mem_cons_of_mem _ ht)⟩

omit htable in
theorem GuidanceFormed.checksExactly {node : GuidanceNode} (h : GuidanceFormed source node)
    (analyzer : SemanticAnalyzer) :
    ChecksExactly analyzeGuidanceNode GuidanceAccepted analyzer node := by
  cases node with
  | dataNode node => exact analyzeDataNumbers_exact h.data_ne_none analyzer
  | stringNode node => exact ⟨analyzer, rfl, Checked.refl _, iff_of_true rfl trivial⟩

/-- What a label must contain to pass. -/
def LabelPasses (names : List CString) (label : LabelNode) : Prop :=
  (∀ node ∈ label.instructionList, InstructionPasses names node) ∧
    ∀ node ∈ label.guidanceList, GuidanceAccepted node

/-- A label passes if its statements do. -/
theorem UnitFormed.label_checksExactly (h : UnitFormed source unit) {label : LabelNode}
    (hlabel : label ∈ unit.instructionLabelList ++ unit.guidanceLabelList) :
    ChecksExactly semanticAnalyzerAnalyzeLabel (LabelPasses unit.declaredNames) analyzer label := by
  obtain ⟨hnamed, hinstructions, hguidance⟩ := h.label label hlabel
  obtain ⟨hchecked, hclean⟩ := foldl_exact analyzer fun current hhash node hnode =>
    (hinstructions node hnode).checksExactly (htable.of_hash hhash)
  obtain ⟨analyzer', hrun, hchecked', hclean'⟩ := foldlM_exact
    (label.instructionList.foldl semanticAnalyzerAnalyzeInstruction analyzer)
    fun current _ node hnode => (hguidance node hnode).checksExactly current
  refine ⟨analyzer', ?_, hchecked.trans hchecked', ?_⟩
  · rw [semanticAnalyzerAnalyzeLabel]
    cases hlist : label.instructionList with
    | nil =>
        rw [hlist] at hrun
        exact hrun
    | cons first rest =>
        obtain ⟨token, hsome⟩ := Option.ne_none_iff_exists'.mp (hnamed (by simp [hlist]))
        rw [hlist] at hrun
        rw [hsome]
        exact hrun
  · rw [hchecked.clean_iff hchecked', hclean, hclean']
    exact Iff.rfl

end Statements

/-! ## The whole analysis -/

/-- **The analysis of a well-formed unit** returns, and adds no error exactly if
the unit is legal. -/
theorem analyzeTranslationUnit_exact {unit : TranslationUnit} {source : List Token}
    (h : UnitFormed source unit) (lexer : Lexer) :
    ∃ analyzer, semanticAnalyzerAnalyzeTranslationUnit (semanticAnalyzerInitialize unit lexer)
        unit = .ok analyzer ∧ (analyzer.errors = [] ↔ UnitLegal unit) := by
  obtain ⟨declared, hdeclared, htable, -, -, hnames⟩ := analyzeDuplicateIdentifiers_run h lexer
  have hlabels : ∀ labels ⊆ unit.instructionLabelList ++ unit.guidanceLabelList,
      ∀ start : SemanticAnalyzer, start.hash = declared.hash →
        ∃ last, validateLabelList start labels = .ok last ∧ Checked start last ∧
          (last.errors = start.errors ↔ ∀ label ∈ labels,
            LabelPasses unit.declaredNames label) := by
    intro labels hsubset start hstart
    exact foldlM_exact start fun current hhash label hlabel =>
      h.label_checksExactly (htable.of_hash (hhash.trans hstart)) (hsubset hlabel)
  obtain ⟨instructed, hinstructed, hchecked, hclean⟩ :=
    hlabels unit.instructionLabelList (List.subset_append_left _ _) declared rfl
  obtain ⟨analyzer, hguided, hchecked', hclean'⟩ :=
    hlabels unit.guidanceLabelList (List.subset_append_right _ _) instructed hchecked.hash
  refine ⟨analyzer, ?_, ?_⟩
  · simp only [semanticAnalyzerAnalyzeTranslationUnit, hdeclared, hinstructed, bind, Except.bind]
    exact hguided
  have hall := hchecked.trans hchecked'
  have hsplit : analyzer.errors = [] ↔ declared.errors = [] ∧
      analyzer.errors = declared.errors := by
    constructor
    · intro hnone
      have hbefore : declared.errors = [] := List.prefix_nil.mp (hnone ▸ hall.errors)
      exact ⟨hbefore, hnone.trans hbefore.symm⟩
    · intro hboth
      exact hboth.2.trans hboth.1
  rw [hsplit, hnames, hchecked.clean_iff hchecked', hclean, hclean']
  constructor
  · intro hpasses
    obtain ⟨⟨hdistinct, hentries⟩, hinstructions, hguidance⟩ := hpasses
    exact ⟨hdistinct, hentries, fun label hlabel => (hinstructions label hlabel).1,
      fun label hlabel => (hguidance label hlabel).2⟩
  · intro hlegal
    refine ⟨⟨hlegal.distinct, hlegal.entries⟩, fun label hlabel => ?_, fun label hlabel => ?_⟩
    · have hnone := (h.instructions label hlabel).1
      exact ⟨hlegal.instructions label hlabel, by simp [hnone]⟩
    · have hnone := (h.guidance label hlabel).1
      exact ⟨by simp [hnone], hlegal.guidance label hlabel⟩

/-! ## Programs -/

/-- The unit that the parser makes of the blocks of a program. -/
def Lexer.unitOf (lexer : Lexer) (blocks : List Block) : TranslationUnit :=
  (parserInitializeTranslationUnit lexer).withBlocks (mergeBlocks blocks) []

/-- Where the cursor stands is no matter of legality. -/
theorem UnitLegal.setTokens {unit : TranslationUnit} (h : UnitLegal unit) (tokens : List Token) :
    UnitLegal (unit.setTokens tokens) :=
  ⟨h.distinct, h.entries, h.instructions, h.guidance⟩

/-- The words of a program, and the hundred addresses in front of them. -/
def TranslationUnit.memoryUsed (unit : TranslationUnit) : Nat :=
  startingPosition + (unit.slots.length + unit.values.length)

/-- A list of tokens that is a program without a fault. -/
structure LegalProgram (lexer : Lexer) (ending : Ending) (blocks : List Block) : Prop where
  program : Program ending lexer.tokenList blocks
  legal : UnitLegal (lexer.unitOf blocks)
  fits : (lexer.unitOf blocks).memoryUsed ≤ maxPosition

section Accepts

variable {lexer : Lexer} {unit : TranslationUnit}

/-- A unit that was parsed without an error is accepted if it is legal and fits
in the memory. -/
theorem ParsedFrom.accepted_iff (hlexed : LexerOutput lexer)
    (hparsed : ParsedFrom (parserInitializeTranslationUnit lexer) unit) :
    (∃ analyzer generator placed, Accepted lexer unit analyzer generator placed) ↔
      UnitLegal unit ∧ unit.memoryUsed ≤ maxPosition := by
  obtain ⟨analyzer, hanalyzed, hlegal⟩ := analyzeTranslationUnit_exact hparsed.formed lexer
  have hwords : unit.memoryUsed = startingPosition + wordsOf unit.labels := by
    rw [TranslationUnit.memoryUsed, hparsed.formed.wordsOf_labels]
  constructor
  · intro haccepted
    obtain ⟨analyzer', generator, placed, h⟩ := haccepted
    obtain rfl := Except.ok.inj (hanalyzed.symm.trans h.analyzed)
    obtain ⟨-, -, hfits⟩ := h.toLaidOut.run
    refine ⟨hlegal.mp h.accepted, ?_⟩
    rw [hwords, TranslationUnit.labels, wordsOf_append, ← Nat.add_assoc]
    exact hfits
  · intro hboth
    have hrun := codeGeneratorUpdateLabels_fits (codeGeneratorInitialize lexer)
      (hparsed.labels_sized hlexed) (hwords ▸ hboth.2)
    exact ⟨analyzer, _, _, ⟨⟨hlexed, hparsed, hrun, rfl⟩, hanalyzed, hlegal.mpr hboth.1⟩⟩

/-- The tokens of a unit that was parsed without an error are a program. -/
theorem parsedFrom_iff : ParsedFrom (parserInitializeTranslationUnit lexer) unit ↔
    ∃ ending blocks tokens, Program ending lexer.tokenList blocks ∧
      unit = (lexer.unitOf blocks).setTokens tokens ∧
      parseTranslationUnitContent (parserInitializeTranslationUnit lexer) = .ok unit := by
  constructor
  · intro hparsed
    obtain ⟨ending, blocks, hprogram, hunit⟩ := hparsed.blocks
    exact ⟨ending, blocks, unit.tokens, hprogram, hunit, hparsed.parse⟩
  · intro h
    obtain ⟨ending, blocks, tokens, -, rfl, hparse⟩ := h
    exact ⟨hparse, rfl⟩

/-- **What is assembled.**  The parser, the analyzer and the first pass add no
error to the tokens of a lexer exactly if these are a program whose names are
declared once, whose entries are labels, whose instructions and numbers pass, and
whose words end in front of the last address. -/
theorem assembles_iff (hlexed : LexerOutput lexer) :
    (∃ unit analyzer generator placed, Accepted lexer unit analyzer generator placed) ↔
      ∃ ending blocks, LegalProgram lexer ending blocks := by
  constructor
  · intro haccepted
    obtain ⟨unit, analyzer, generator, placed, h⟩ := haccepted
    obtain ⟨hlegal, hfits⟩ := (h.parsed.accepted_iff hlexed).mp ⟨analyzer, generator, placed, h⟩
    obtain ⟨ending, blocks, tokens, hprogram, rfl, -⟩ := parsedFrom_iff.mp h.parsed
    exact ⟨ending, blocks, hprogram, hlegal.setTokens [], hfits⟩
  · intro h
    obtain ⟨ending, blocks, hprogram, hlegal, hfits⟩ := h
    obtain ⟨tokens, hparse⟩ := @Program.parsed (parserInitializeTranslationUnit lexer) _ _ hprogram
    have hparsed := parsedFrom_iff.mpr ⟨ending, blocks, tokens, hprogram, rfl, hparse⟩
    exact ⟨_, (hparsed.accepted_iff hlexed).mpr ⟨hlegal.setTokens tokens, hfits⟩⟩

end Accepts

/-- A small program has no fault. -/
theorem assembles_iff_sample : ∃ ending blocks,
    LegalProgram (sampleLexer "A: mov r1, X\nX: .data 1\n") ending blocks := by
  have haccepts : acceptsWith (fun _ => true)
      (sampleLexer "A: mov r1, X\nX: .data 1\n") = true := by decide +kernel
  obtain ⟨unit, analyzer, generator, placed, h, -⟩ := exists_accepted (.file _ _) haccepts
  exact (assembles_iff (.file _ _)).mp ⟨unit, analyzer, generator, placed, h⟩

end Assembler
