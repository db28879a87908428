import CLab.SymbolTable

/-!
# What the analysis of a unit says

On well-formed nodes every check returns, prints nothing and leaves the table
as it is (`Checked`).  Where no error is added, the operands and numbers are in
the ranges that the code generator relies on (`InstructionAccepted`,
`NumberAccepted`).
-/

namespace Assembler

/-! ## Checks -/

/-- A check adds errors at most. -/
structure Checked (before after : SemanticAnalyzer) : Prop where
  hash : after.hash = before.hash
  stderr : after.stderr = before.stderr
  errors : before.errors <+: after.errors

/-- Doing nothing is a check. -/
theorem Checked.refl (analyzer : SemanticAnalyzer) : Checked analyzer analyzer :=
  ⟨rfl, rfl, List.prefix_refl _⟩

/-- One check after another is a check. -/
theorem Checked.trans {before middle after : SemanticAnalyzer} (h : Checked before middle)
    (h' : Checked middle after) : Checked before after :=
  ⟨h'.hash.trans h.hash, h'.stderr.trans h.stderr, h.errors.trans h'.errors⟩

/-- No error after two checks means none after either. -/
theorem Checked.clean_iff {before middle after : SemanticAnalyzer} (h : Checked before middle)
    (h' : Checked middle after) : after.errors = before.errors ↔
      middle.errors = before.errors ∧ after.errors = middle.errors :=
  prefix_trans_eq_iff h.errors h'.errors

/-- Reporting an error is a check. -/
theorem reportError_checked (analyzer : SemanticAnalyzer) (message : String) (token : Token) :
    Checked analyzer (analyzer.reportError message (some token)) :=
  ⟨rfl, rfl, List.prefix_append _ _⟩

theorem reportError_errors_ne (analyzer : SemanticAnalyzer) (message : String) (token : Token) :
    (analyzer.reportError message (some token)).errors ≠ analyzer.errors := by
  intro h
  rw [reportError_errors] at h
  exact absurd (congrArg List.length h) (by simp)

/-- So is reporting it on a condition. -/
theorem reportIf_checked (analyzer : SemanticAnalyzer) {wrong : Bool} {message : String}
    {token : Option Token} (htoken : wrong = true → token ≠ none) :
    Checked analyzer (analyzer.reportIf wrong message token) := by
  cases wrong with
  | false => exact Checked.refl _
  | true =>
      obtain ⟨token, rfl⟩ := Option.ne_none_iff_exists'.mp (htoken rfl)
      exact reportError_checked _ _ _

/-- A report is left out exactly where nothing is wrong. -/
theorem reportIf_clean {analyzer : SemanticAnalyzer} {wrong : Bool} {message : String}
    {token : Token} :
    (analyzer.reportIf wrong message (some token)).errors = analyzer.errors ↔ wrong = false := by
  cases wrong with
  | false => exact ⟨fun _ => rfl, fun _ => rfl⟩
  | true => exact ⟨fun h => absurd h (reportError_errors_ne _ _ _), fun h => absurd h (by simp)⟩

/-- Analyzers with the same table find the same. -/
theorem find_congr {analyzer analyzer' : SemanticAnalyzer} (h : analyzer'.hash = analyzer.hash)
    (name : CString) : semanticAnalyzerFindIdentifier analyzer' name =
      semanticAnalyzerFindIdentifier analyzer name := by
  cases analyzer
  cases analyzer'
  cases h
  rfl

/-- A lookup looks at the table only. -/
theorem lookup_congr {analyzer analyzer' : SemanticAnalyzer} (h : analyzer'.hash = analyzer.hash)
    (name : CString) : analyzer'.lookup name = analyzer.lookup name := by
  rw [SemanticAnalyzer.lookup, SemanticAnalyzer.lookup, find_congr h, h]

/-! ## Operands -/

/-- What the analyzer asks of an operand, with the names it knows. -/
structure OperandAccepted (known : CString → Prop) (operand : Token) (deref : Bool) : Prop where
  type : operand.type = .number ∨ operand.type = .identifier ∨ operand.type = .register
  number : operand.type = .number → deref = false ∧
    min12BitSignedInt ≤ atoi operand.string.data ∧ atoi operand.string.data ≤ max12BitSignedInt
  identifier : operand.type = .identifier → deref = false ∧ known operand.string

/-- The names that have a cell. -/
def SemanticAnalyzer.knows (analyzer : SemanticAnalyzer) (name : CString) : Prop :=
  semanticAnalyzerFindIdentifier analyzer name ≠ none

/-- They depend on the table only. -/
theorem knows_congr {analyzer analyzer' : SemanticAnalyzer}
    (h : analyzer'.hash = analyzer.hash) : analyzer'.knows = analyzer.knows := by
  funext name
  rw [SemanticAnalyzer.knows, find_congr h, SemanticAnalyzer.knows]

/-- Finding the mode of an operand is a check. -/
theorem validateAndDetermineAddressingMode_checked (analyzer : SemanticAnalyzer)
    (operand : Token) (deref : Bool) :
    Checked analyzer (validateAndDetermineAddressingMode analyzer operand deref).1 := by
  unfold validateAndDetermineAddressingMode
  split
  · exact (reportIf_checked _ (by simp)).trans (reportIf_checked _ (by simp))
  · exact reportIf_checked _ (by simp)
  · exact Checked.refl _
  · exact reportError_checked _ _ _

/-- So is the check of an operand. -/
theorem validateOperand_checked (analyzer : SemanticAnalyzer) (operand : Option Token)
    (deref : Bool) : Checked analyzer (validateOperand analyzer operand deref).1 := by
  cases operand with
  | none => exact Checked.refl _
  | some token =>
      have hmode := validateAndDetermineAddressingMode_checked analyzer token deref
      rw [validateOperand]
      simp only
      split_ifs
      · exact hmode.trans (reportIf_checked _ (by simp))
      · exact hmode

/-- An operand without a report is an accepted one. -/
theorem validateOperand_clean {analyzer : SemanticAnalyzer} {operand : Token} {deref : Bool}
    (h : (validateOperand analyzer (some operand) deref).1.errors = analyzer.errors) :
    OperandAccepted analyzer.knows operand deref := by
  have hchecked := validateAndDetermineAddressingMode_checked analyzer operand deref
  rw [validateOperand] at h
  simp only at h
  by_cases hidentifier : operand.type = .identifier
  · rw [if_pos hidentifier] at h
    have hknown : Checked (validateAndDetermineAddressingMode analyzer operand deref).1
        (validateIdentifier (validateAndDetermineAddressingMode analyzer operand deref).1
          operand) := reportIf_checked _ (by simp)
    obtain ⟨hmode, hfound⟩ := (hchecked.clean_iff hknown).mp h
    rw [validateIdentifier, reportIf_clean, find_congr hchecked.hash] at hfound
    rw [validateAndDetermineAddressingMode, hidentifier] at hmode
    refine ⟨Or.inr (Or.inl hidentifier), by simp [hidentifier], fun _ => ⟨?_, ?_⟩⟩
    · exact reportIf_clean.mp hmode
    · intro hnone
      rw [hnone] at hfound
      exact absurd hfound (by simp)
  · rw [if_neg hidentifier] at h
    unfold validateAndDetermineAddressingMode at h
    split at h
    · rename_i htype
      obtain ⟨hderef, hrange⟩ := ((reportIf_checked _ (by simp)).clean_iff
        (reportIf_checked _ (by simp))).mp h
      have hrange' := reportIf_clean.mp hrange
      simp only [decide_eq_false_iff_not, not_or, Int.not_lt, gt_iff_lt] at hrange'
      exact ⟨Or.inl htype, fun _ => ⟨reportIf_clean.mp hderef, hrange'.2, hrange'.1⟩,
        fun hid => absurd hid hidentifier⟩
    · rename_i htype
      exact absurd htype hidentifier
    · rename_i htype
      exact ⟨Or.inr (Or.inr htype), by simp [htype], by simp [htype]⟩
    · exact absurd h (reportError_errors_ne _ _ _)

/-! ## Instructions -/

/-- What the analyzer asks of an instruction. -/
structure InstructionAccepted (known : CString → Prop) (node : InstructionNode) : Prop where
  first : ∀ t, node.firstOperand = some t →
    OperandAccepted known t node.isFirstOperandDerefrenced
  second : ∀ t, node.secondOperand = some t →
    OperandAccepted known t node.isSecondOperandDerefrenced

/-- The check of an operation reads no operand that is not there. -/
theorem validateOperation_checked (analyzer : SemanticAnalyzer) {operation : Token}
    {source destination : Option Token} (sourceAM destinationAM : AddressingMode)
    (htype : isInstructionToken operation.type = true)
    (hsource : 1 ≤ getExpectedOperandCount operation.type → source ≠ none)
    (hdestination : getExpectedOperandCount operation.type = 2 → destination ≠ none) :
    Checked analyzer
      (validateOperation analyzer operation source destination sourceAM destinationAM) := by
  unfold validateOperation
  cases hop : operation.type <;> rw [hop] at htype hsource hdestination <;>
    first
      | exact absurd htype (by decide)
      | exact Checked.refl _
      | exact reportIf_checked _ (fun _ => hsource (by decide))
      | exact (reportIf_checked _ (fun _ => hsource (by decide))).trans
          (reportIf_checked _ (fun _ => hdestination rfl))
      | exact reportIf_checked _ (fun _ => Option.some_ne_none _)

/-- The two counts of operands. -/
theorem operandCount_iff {node : InstructionNode} {source : List Token}
    (h : InstructionFormed source node) {count : Int}
    (hcount : ((if node.firstOperand.isSome then 1 else 0) +
      (if node.secondOperand.isSome then 1 else 0) : Int) = count) :
    (1 ≤ count → node.firstOperand ≠ none) ∧ (count = 2 → node.secondOperand ≠ none) := by
  have hordered := h.ordered
  cases hfirst : node.firstOperand <;> cases hsecond : node.secondOperand <;>
    simp [hfirst, hsecond] at hcount hordered ⊢ <;> omega

/-- An instruction of the parser is checked without a fault. -/
theorem analyzeInstruction_checked {node : InstructionNode} {source : List Token}
    (h : InstructionFormed source node) (analyzer : SemanticAnalyzer) :
    Checked analyzer (semanticAnalyzerAnalyzeInstruction analyzer node) := by
  obtain ⟨operation, -, hoperation, htype⟩ := h.operation
  rw [semanticAnalyzerAnalyzeInstruction, hoperation]
  simp only
  by_cases hcount : ((if node.firstOperand.isSome then 1 else 0) +
      (if node.secondOperand.isSome then 1 else 0) : Int) = getExpectedOperandCount operation.type
  · rw [if_neg (not_not_intro hcount)]
    obtain ⟨hfirst, hsecond⟩ := operandCount_iff h hcount
    exact ((validateOperand_checked _ _ _).trans (validateOperand_checked _ _ _)).trans
      (validateOperation_checked _ _ _ htype hfirst hsecond)
  · rw [if_pos hcount]
    exact reportError_checked _ _ _

/-- Without a report it is an accepted instruction. -/
theorem analyzeInstruction_clean {node : InstructionNode} {source : List Token}
    (h : InstructionFormed source node) {analyzer : SemanticAnalyzer}
    (hclean : (semanticAnalyzerAnalyzeInstruction analyzer node).errors = analyzer.errors) :
    InstructionAccepted analyzer.knows node := by
  obtain ⟨operation, -, hoperation, htype⟩ := h.operation
  rw [semanticAnalyzerAnalyzeInstruction, hoperation] at hclean
  simp only at hclean
  by_cases hcount : ((if node.firstOperand.isSome then 1 else 0) +
      (if node.secondOperand.isSome then 1 else 0) : Int) = getExpectedOperandCount operation.type
  · rw [if_neg (not_not_intro hcount)] at hclean
    obtain ⟨hfirst, hsecond⟩ := operandCount_iff h hcount
    have hchecked := validateOperand_checked analyzer node.firstOperand
      node.isFirstOperandDerefrenced
    have hchecked' := validateOperand_checked
      (validateOperand analyzer node.firstOperand node.isFirstOperandDerefrenced).1
      node.secondOperand node.isSecondOperandDerefrenced
    obtain ⟨hclean, -⟩ := ((hchecked.trans hchecked').clean_iff
      (validateOperation_checked _ _ _ htype hfirst hsecond)).mp hclean
    obtain ⟨hclean, hclean'⟩ := (hchecked.clean_iff hchecked').mp hclean
    constructor
    · intro t ht
      rw [ht] at hclean
      exact validateOperand_clean hclean
    · intro t ht
      rw [ht] at hclean'
      rw [← knows_congr hchecked.hash]
      exact validateOperand_clean hclean'
  · rw [if_pos hcount] at hclean
    exact absurd hclean (reportError_errors_ne _ _ _)

/-! ## Directives -/

/-- What the analyzer asks of a number of a `.data` line. -/
def NumberAccepted (token : Token) : Prop :=
  min15BitSignedInt ≤ atoi token.string.data ∧ atoi token.string.data ≤ max15BitSignedInt

/-- A directive whose numbers are all accepted. -/
def GuidanceAccepted : GuidanceNode → Prop
  | .dataNode node => ∀ t, some t ∈ node.dataNumbers → NumberAccepted t
  | .stringNode _ => True

/-- The numbers of a directive are checked one by one. -/
theorem analyzeDataNumbers_run {numbers : List (Option Token)} (h : none ∉ numbers)
    (analyzer : SemanticAnalyzer) :
    ∃ analyzer', analyzeDataNumbers analyzer numbers = .ok analyzer' ∧
      Checked analyzer analyzer' ∧
      (analyzer'.errors = analyzer.errors → ∀ t, some t ∈ numbers → NumberAccepted t) := by
  induction numbers generalizing analyzer with
  | nil => exact ⟨analyzer, rfl, Checked.refl _, by simp⟩
  | cons number numbers ih =>
      rw [List.mem_cons, not_or] at h
      obtain ⟨token, rfl⟩ := Option.ne_none_iff_exists'.mp (Ne.symm h.1)
      have hchecked : Checked analyzer (analyzer.reportIf
          (decide (atoi token.string.data > max15BitSignedInt ∨
            atoi token.string.data < min15BitSignedInt))
          "Integer value is out of the allowed range" (some token)) :=
        reportIf_checked _ (by simp)
      obtain ⟨analyzer', hrun, hchecked', hclean⟩ := ih h.2 _
      refine ⟨analyzer', hrun, hchecked.trans hchecked', ?_⟩
      intro herrors t ht
      obtain ⟨hfirst, hrest⟩ := (hchecked.clean_iff hchecked').mp herrors
      rcases List.mem_cons.mp ht with heq | ht
      · obtain rfl := Option.some.inj heq
        have hrange := reportIf_clean.mp hfirst
        simp only [decide_eq_false_iff_not, not_or, Int.not_lt, gt_iff_lt] at hrange
        exact ⟨hrange.2, hrange.1⟩
      · exact hclean hrest t ht

/-- A `.data` of the parser has a token for every number. -/
theorem GuidanceFormed.data_ne_none {source : List Token} {node : DataNode}
    (h : GuidanceFormed source (.dataNode node)) : none ∉ node.dataNumbers := by
  intro hnone
  obtain ⟨t, -, ht, -⟩ := h.2.1 none hnone
  exact absurd ht (by simp)

/-- A directive of the parser is checked without a fault. -/
theorem analyzeGuidanceNode_run {source : List Token} {node : GuidanceNode}
    (h : GuidanceFormed source node) (analyzer : SemanticAnalyzer) :
    ∃ analyzer', analyzeGuidanceNode analyzer node = .ok analyzer' ∧
      Checked analyzer analyzer' ∧
      (analyzer'.errors = analyzer.errors → GuidanceAccepted node) := by
  cases node with
  | dataNode node => exact analyzeDataNumbers_run h.data_ne_none analyzer
  | stringNode node => exact ⟨analyzer, rfl, Checked.refl _, fun _ => trivial⟩

/-! ## Units -/

/-- A check of the members of a list, one after the other. -/
theorem foldlM_run {α : Type} {f : SemanticAnalyzer → α → Except Fault SemanticAnalyzer}
    {known : CString → Prop} {P : α → Prop} {xs : List α}
    (hstep : ∀ analyzer : SemanticAnalyzer, ∀ x ∈ xs, analyzer.knows = known →
      ∃ analyzer', f analyzer x = .ok analyzer' ∧ Checked analyzer analyzer' ∧
        (analyzer'.errors = analyzer.errors → P x))
    (analyzer : SemanticAnalyzer) (hknown : analyzer.knows = known) :
    ∃ analyzer', xs.foldlM f analyzer = .ok analyzer' ∧ Checked analyzer analyzer' ∧
      (analyzer'.errors = analyzer.errors → ∀ x ∈ xs, P x) := by
  induction xs generalizing analyzer with
  | nil => exact ⟨analyzer, rfl, Checked.refl _, by simp⟩
  | cons x xs ih =>
      obtain ⟨middle, hfirst, hchecked, hclean⟩ := hstep analyzer x (by simp) hknown
      obtain ⟨analyzer', hrest, hchecked', hclean'⟩ := ih
        (fun a y hy => hstep a y (by simp [hy])) middle ((knows_congr hchecked.hash).trans hknown)
      refine ⟨analyzer', ?_, hchecked.trans hchecked', ?_⟩
      · rw [List.foldlM_cons, hfirst]
        exact hrest
      · intro herrors y hy
        obtain ⟨hfirstClean, hrestClean⟩ := (hchecked.clean_iff hchecked').mp herrors
        rcases List.mem_cons.mp hy with rfl | hy
        · exact hclean hfirstClean
        · exact hclean' hrestClean y hy

/-- All instructions of a label are checked, by induction on the list. -/
theorem foldl_instructions_run {source : List Token} {known : CString → Prop}
    {nodes : List InstructionNode} (h : ∀ node ∈ nodes, InstructionFormed source node)
    (analyzer : SemanticAnalyzer) (hknown : analyzer.knows = known) :
    Checked analyzer (nodes.foldl semanticAnalyzerAnalyzeInstruction analyzer) ∧
      ((nodes.foldl semanticAnalyzerAnalyzeInstruction analyzer).errors = analyzer.errors →
        ∀ node ∈ nodes, InstructionAccepted known node) := by
  induction nodes generalizing analyzer with
  | nil => exact ⟨Checked.refl _, by simp⟩
  | cons node nodes ih =>
      have hchecked := analyzeInstruction_checked (h node (by simp)) analyzer
      obtain ⟨hchecked', hclean⟩ := ih (fun n hn => h n (by simp [hn])) _
        ((knows_congr hchecked.hash).trans hknown)
      refine ⟨hchecked.trans hchecked', ?_⟩
      intro herrors n hn
      obtain ⟨hfirst, hrest⟩ := (hchecked.clean_iff hchecked').mp herrors
      rcases List.mem_cons.mp hn with rfl | hn
      · rw [← hknown]
        exact analyzeInstruction_clean (h n (by simp)) hfirst
      · exact hclean hrest n hn

/-- What the analyzer asks of a label and its statements. -/
def LabelAccepted (known : CString → Prop) (node : LabelNode) : Prop :=
  (∀ instruction ∈ node.instructionList, InstructionAccepted known instruction) ∧
    ∀ directive ∈ node.guidanceList, GuidanceAccepted directive

/-- A label is checked with all that stands under it. -/
theorem analyzeLabel_run {source : List Token} {known : CString → Prop} {node : LabelNode}
    (hlabel : node.instructionList ≠ [] → node.label ≠ none)
    (hinstructions : ∀ instruction ∈ node.instructionList, InstructionFormed source instruction)
    (hguidance : ∀ directive ∈ node.guidanceList, GuidanceFormed source directive)
    (analyzer : SemanticAnalyzer) (hknown : analyzer.knows = known) :
    ∃ analyzer', semanticAnalyzerAnalyzeLabel analyzer node = .ok analyzer' ∧
      Checked analyzer analyzer' ∧
      (analyzer'.errors = analyzer.errors → LabelAccepted known node) := by
  have hnamed : semanticAnalyzerAnalyzeLabel analyzer node =
      node.guidanceList.foldlM analyzeGuidanceNode
        (node.instructionList.foldl semanticAnalyzerAnalyzeInstruction analyzer) := by
    rw [semanticAnalyzerAnalyzeLabel]
    cases hlist : node.instructionList with
    | nil => rfl
    | cons first rest =>
        obtain ⟨label, hsome⟩ := Option.ne_none_iff_exists'.mp (hlabel (by simp [hlist]))
        rw [hsome]
  obtain ⟨hchecked, hclean⟩ := foldl_instructions_run hinstructions analyzer hknown
  obtain ⟨analyzer', hrun, hchecked', hclean'⟩ := foldlM_run
    (fun a directive hdirective _ => analyzeGuidanceNode_run (hguidance directive hdirective) a)
    (node.instructionList.foldl semanticAnalyzerAnalyzeInstruction analyzer) rfl
  refine ⟨analyzer', ?_, hchecked.trans hchecked', ?_⟩
  · rw [hnamed]
    exact hrun
  · intro herrors
    obtain ⟨hfirst, hrest⟩ := (hchecked.clean_iff hchecked').mp herrors
    exact ⟨hclean hfirst, hclean' hrest⟩

/-- And so is a list of labels. -/
theorem validateLabelList_run {source : List Token} {known : CString → Prop}
    {labels : List LabelNode}
    (h : ∀ node ∈ labels, (node.instructionList ≠ [] → node.label ≠ none) ∧
      (∀ instruction ∈ node.instructionList, InstructionFormed source instruction) ∧
      ∀ directive ∈ node.guidanceList, GuidanceFormed source directive)
    (analyzer : SemanticAnalyzer) (hknown : analyzer.knows = known) :
    ∃ analyzer', validateLabelList analyzer labels = .ok analyzer' ∧
      Checked analyzer analyzer' ∧
      (analyzer'.errors = analyzer.errors → ∀ node ∈ labels, LabelAccepted known node) :=
  foldlM_run (fun a node hnode hk =>
    analyzeLabel_run (h node hnode).1 (h node hnode).2.1 (h node hnode).2.2 a hk) analyzer hknown

/-- The labels of a well-formed unit have what the checks need. -/
theorem UnitFormed.label {source : List Token} {unit : TranslationUnit}
    (h : UnitFormed source unit) :
    ∀ node ∈ unit.instructionLabelList ++ unit.guidanceLabelList,
      (node.instructionList ≠ [] → node.label ≠ none) ∧
      (∀ instruction ∈ node.instructionList, InstructionFormed source instruction) ∧
      ∀ directive ∈ node.guidanceList, GuidanceFormed source directive := by
  intro node hnode
  rcases List.mem_append.mp hnode with hnode | hnode
  · obtain ⟨t, ht, -⟩ := h.instructionNames node hnode
    obtain ⟨hguidance, -, hall⟩ := h.instructions node hnode
    exact ⟨fun _ => by simp [ht], hall, by simp [hguidance]⟩
  · obtain ⟨hinstructions, -, hall⟩ := h.guidance node hnode
    exact ⟨fun hne => absurd hinstructions hne, by simp [hinstructions], hall⟩

/-- **The analysis of a well-formed unit** returns and prints nothing; it leaves
a table of the declarations; and if it adds no error, the names are resolved
and all statements are accepted. -/
theorem analyzeTranslationUnit_run {unit : TranslationUnit} {source : List Token}
    (h : UnitFormed source unit) (lexer : Lexer) :
    ∃ analyzer, semanticAnalyzerAnalyzeTranslationUnit (semanticAnalyzerInitialize unit lexer)
        unit = .ok analyzer ∧
      analyzer.stderr = [] ∧ Table analyzer unit.declarations ∧
      (analyzer.errors = [] →
        (unit.labelNames ++ unit.externalNames).Nodup ∧
        (∀ name ∈ unit.entryNames, name ∈ unit.labelNames) ∧
        ∀ node ∈ unit.instructionLabelList ++ unit.guidanceLabelList,
          LabelAccepted analyzer.knows node) := by
  obtain ⟨declared, hdeclared, htable, -, hstderr, hclean⟩ :=
    analyzeDuplicateIdentifiers_run h lexer
  have hlabels := h.label
  obtain ⟨instructed, hinstructed, hchecked, haccepted⟩ := validateLabelList_run
    (fun node hnode => hlabels node (List.mem_append_left _ hnode)) declared rfl
  obtain ⟨analyzer, hguided, hchecked', haccepted'⟩ := validateLabelList_run
    (fun node hnode => hlabels node (List.mem_append_right _ hnode)) instructed rfl
  have hall := hchecked.trans hchecked'
  have htable' : Table analyzer unit.declarations := by
    have hkeys : analyzer.keys = declared.keys := by
      rw [SemanticAnalyzer.keys, hall.hash, SemanticAnalyzer.keys]
    refine ⟨hkeys ▸ htable.placed, hkeys ▸ htable.room, ?_⟩
    intro name
    rw [lookup_congr hall.hash, htable.lookup]
  refine ⟨analyzer, ?_, hall.stderr.trans hstderr, htable', ?_⟩
  · simp only [semanticAnalyzerAnalyzeTranslationUnit, hdeclared, hinstructed, bind, Except.bind]
    exact hguided
  · intro herrors
    have hdeclaredErrors : declared.errors = [] :=
      List.prefix_nil.mp (herrors ▸ hall.errors)
    have hnone : analyzer.errors = declared.errors := herrors.trans hdeclaredErrors.symm
    obtain ⟨hfirst, hrest⟩ := (hchecked.clean_iff hchecked').mp hnone
    obtain ⟨hnodup, hentries⟩ := hclean.mp hdeclaredErrors
    refine ⟨hnodup, hentries, ?_⟩
    intro node hnode
    rw [knows_congr hall.hash]
    rcases List.mem_append.mp hnode with hnode | hnode
    · exact haccepted hfirst node hnode
    · rw [← knows_congr hchecked.hash]
      exact haccepted' hrest node hnode

end Assembler
