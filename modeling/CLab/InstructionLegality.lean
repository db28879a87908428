import CLab.Analysis

/-!
# Legal instructions

What the machine can execute (`Legal`) and what
`semantic_analyzer_analyze_instruction` lets pass (`analyzeInstruction_clean_iff`)
differ in one place: a `mov`, an `add` or a `sub` may have an immediate
destination if its source is not immediate as well
(`analyzeInstruction_legal_iff`).
-/

namespace Assembler

/-! ## What is legal -/

/-- The operands, with whether they are dereferenced. -/
def InstructionNode.operands (node : InstructionNode) : List (Token × Bool) :=
  (node.firstOperand.map (fun t => (t, node.isFirstOperandDerefrenced))).toList ++
    (node.secondOperand.map (fun t => (t, node.isSecondOperandDerefrenced))).toList

/-- An operand that is there and of a type. -/
def OperandIs (type : TokenType) (operand : Option Token) : Prop :=
  ∃ t, operand = some t ∧ t.type = type

/-- How many operands an operation has. -/
def operandsOf : TokenType → Nat
  | .mov | .cmp | .add | .sub | .lea => 2
  | .rts | .stop => 0
  | _ => 1

/-- Immediates fit in twelve bits, and names are in the table and not
dereferenced. -/
structure OperandsLegal (analyzer : SemanticAnalyzer) (node : InstructionNode) : Prop where
  immediates : ∀ operand ∈ node.operands, operand.1.type = .number →
    -2048 ≤ atoi operand.1.string.data ∧ atoi operand.1.string.data ≤ 2047
  identifiers : ∀ operand ∈ node.operands, operand.1.type = .identifier →
    some operand.1.string ∈ analyzer.keys ∧ operand.2 = false

/-- What the operations other than `mov`, `add` and `sub` ask of the kinds of
their operands. -/
structure KindsLegal (operation : TokenType) (node : InstructionNode) : Prop where
  lea : operation = .lea → OperandIs .identifier node.firstOperand ∧
    OperandIs .register node.secondOperand
  jump : operation = .jmp ∨ operation = .bne ∨ operation = .jsr →
    OperandIs .identifier node.firstOperand ∨
      OperandIs .register node.firstOperand ∧ node.isFirstOperandDerefrenced = true
  compare : operation = .cmp →
    ¬ (OperandIs .number node.firstOperand ∧ OperandIs .number node.secondOperand)
  written : operation = .clr ∨ operation = .not ∨ operation = .inc ∨ operation = .dec ∨
    operation = .red → ¬ OperandIs .number node.firstOperand

/-- The operations that write to their second operand, without an address. -/
def WritesSecond (operation : TokenType) : Prop :=
  operation = .mov ∨ operation = .add ∨ operation = .sub

/-- What writes to its second operand has two. -/
theorem WritesSecond.operandsOf_eq {operation : TokenType} (h : WritesSecond operation) :
    operandsOf operation = 2 := by
  rcases h with rfl | rfl | rfl <;> rfl

/-- They ask nothing else of the kinds of their operands. -/
theorem WritesSecond.kindsLegal {operation : TokenType} (h : WritesSecond operation)
    (node : InstructionNode) : KindsLegal operation node := by
  rcases h with rfl | rfl | rfl <;> exact ⟨by simp, by simp, by simp, by simp⟩

/-- An instruction that the machine can execute. -/
structure Legal (analyzer : SemanticAnalyzer) (operation : TokenType) (node : InstructionNode) :
    Prop extends OperandsLegal analyzer node, KindsLegal operation node where
  count : node.operands.length = operandsOf operation
  destination : WritesSecond operation → ¬ OperandIs .number node.secondOperand

/-! ## What is let pass -/

/-- A name is known if it is a key of the table. -/
theorem knows_iff {analyzer : SemanticAnalyzer} (h : Probing.Placed home analyzer.keys)
    (name : CString) : analyzer.knows name ↔ some name ∈ analyzer.keys := by
  rw [SemanticAnalyzer.knows, Option.ne_none_iff_exists']
  constructor
  · intro hfacts
    obtain ⟨index, hfound⟩ := hfacts
    have hslot := (find_eq_some_iff h).mp hfound
    rw [List.getD_eq_getElem?_getD] at hslot
    cases hget : analyzer.keys[index]? with
    | none => rw [hget] at hslot; exact absurd hslot (by simp)
    | some key =>
        rw [hget, Option.getD_some] at hslot
        exact hslot ▸ List.mem_of_getElem? hget
  · intro hmem
    obtain ⟨index, hindex, hget⟩ := List.mem_iff_getElem.mp hmem
    refine ⟨index, (find_eq_some_iff h).mpr ?_⟩
    rw [List.getD_eq_getElem _ _ hindex, hget]

/-- The converse of `validateOperand_clean`. -/
theorem OperandAccepted.clean {analyzer : SemanticAnalyzer} {operand : Token} {deref : Bool}
    (h : OperandAccepted analyzer.knows operand deref) :
    (validateOperand analyzer (some operand) deref).1.errors = analyzer.errors := by
  rw [validateOperand, validateAndDetermineAddressingMode]
  rcases h.type with htype | htype | htype
  · obtain ⟨rfl, hmin, hmax⟩ := h.number htype
    have hrange : ¬ (atoi operand.string.data > max12BitSignedInt ∨
        atoi operand.string.data < min12BitSignedInt) := by omega
    simp [htype, SemanticAnalyzer.reportIf, hrange]
  · obtain ⟨rfl, hknown⟩ := h.identifier htype
    obtain ⟨index, hfound⟩ := Option.ne_none_iff_exists'.mp hknown
    simp [htype, SemanticAnalyzer.reportIf, validateIdentifier, hfound]
  · simp [htype]

/-- An operand is passed exactly if it is accepted. -/
theorem validateOperand_clean_iff {analyzer : SemanticAnalyzer} {operand : Option Token}
    {deref : Bool} : (validateOperand analyzer operand deref).1.errors = analyzer.errors ↔
      ∀ t, operand = some t → OperandAccepted analyzer.knows t deref := by
  cases operand with
  | none => exact ⟨fun _ _ h => absurd h (by simp), fun _ => rfl⟩
  | some token =>
      constructor
      · intro h t ht
        obtain rfl := Option.some.inj ht
        exact validateOperand_clean h
      · exact fun h => (h token rfl).clean

/-- A report at a token is left out exactly where nothing is wrong. -/
theorem reportIf_clean_iff {analyzer : SemanticAnalyzer} {wrong : Bool} {message : String}
    {token : Option Token} (htoken : token ≠ none) :
    (analyzer.reportIf wrong message token).errors = analyzer.errors ↔ wrong = false := by
  obtain ⟨token, rfl⟩ := Option.ne_none_iff_exists'.mp htoken
  exact reportIf_clean

/-- What each operation requires of the modes of its operands, as the source has
it. -/
def modesAccepted (operation : TokenType) (sourceAM destinationAM : AddressingMode) : Prop :=
  match operation with
  | .mov | .add | .sub | .cmp => ¬ (sourceAM = .immediate ∧ destinationAM = .immediate)
  | .not | .clr | .inc | .dec | .red => sourceAM ≠ .immediate
  | .lea => sourceAM = .direct ∧ (destinationAM = .directRegister ∨
      destinationAM = .indirectRegister)
  | .jmp | .bne | .jsr => sourceAM = .direct ∨ sourceAM = .indirectRegister
  | .prn | .rts | .stop => True
  | _ => False

/-- An operation is passed exactly if its modes are. -/
theorem validateOperation_clean_iff {analyzer : SemanticAnalyzer} {operation : Token}
    {source destination : Option Token} {sourceAM destinationAM : AddressingMode}
    (hsource : 1 ≤ getExpectedOperandCount operation.type → source ≠ none)
    (hdestination : getExpectedOperandCount operation.type = 2 → destination ≠ none) :
    (validateOperation analyzer operation source destination sourceAM destinationAM).errors =
      analyzer.errors ↔ modesAccepted operation.type sourceAM destinationAM := by
  unfold validateOperation modesAccepted
  cases hop : operation.type <;> rw [hop] at hsource hdestination
  case mov | add | sub | cmp => exact reportIf_clean.trans (by simp)
  case not | clr | inc | dec | red =>
    exact (reportIf_clean_iff (hsource (by decide))).trans (by simp)
  case jmp | bne | jsr =>
    exact (reportIf_clean_iff (hsource (by decide))).trans (by simp [imp_iff_not_or])
  case prn | rts | stop => exact iff_of_true rfl trivial
  case lea =>
    refine ((reportIf_checked _ (fun _ => hsource (by decide))).clean_iff
      (reportIf_checked _ (fun _ => hdestination rfl))).trans ?_
    rw [reportIf_clean_iff (hsource (by decide)), reportIf_clean_iff (hdestination rfl)]
    simp only [decide_eq_false_iff_not, ne_eq, not_not, not_and_or]
  all_goals exact iff_of_false (reportError_errors_ne _ _ _) id

/-! ## Modes -/

section Formed

variable {source : List Token} {node : InstructionNode}

/-- What is asked of an operand of the parser: its range, or its name. -/
theorem OperandFormed.accepted_iff {known : CString → Prop} {operand : Token} {deref : Bool}
    (h : OperandFormed source operand deref) : OperandAccepted known operand deref ↔
      (operand.type = .number → -2048 ≤ atoi operand.string.data ∧
        atoi operand.string.data ≤ 2047) ∧
      (operand.type = .identifier → known operand.string ∧ deref = false) := by
  constructor
  · exact fun hok => ⟨fun ht => (hok.number ht).2, fun ht => (hok.identifier ht).symm⟩
  · intro hfacts
    obtain ⟨hnumber, hidentifier⟩ := hfacts
    refine ⟨?_, fun ht => ⟨?_, hnumber ht⟩, fun ht => (hidentifier ht).symm⟩
    · exact h.type.imp And.left Or.symm
    · rcases h.type with ⟨-, hderef⟩ | hother | hother
      · exact hderef
      · exact absurd (ht.symm.trans hother) (by decide)
      · exact absurd (ht.symm.trans hother) (by decide)

/-- All operands are the first and the second. -/
theorem forall_operands {P : Token × Bool → Prop} : (∀ operand ∈ node.operands, P operand) ↔
    (∀ t, node.firstOperand = some t → P (t, node.isFirstOperandDerefrenced)) ∧
      ∀ t, node.secondOperand = some t → P (t, node.isSecondOperandDerefrenced) := by
  cases hfirst : node.firstOperand <;> cases hsecond : node.secondOperand <;>
    simp [InstructionNode.operands, hfirst, hsecond]

/-- Two operands that are let pass are legal. -/
theorem operandsLegal_iff (h : InstructionFormed source node) {analyzer : SemanticAnalyzer}
    (htable : Probing.Placed home analyzer.keys) : OperandsLegal analyzer node ↔
      (∀ t, node.firstOperand = some t →
        OperandAccepted analyzer.knows t node.isFirstOperandDerefrenced) ∧
      ∀ t, node.secondOperand = some t →
        OperandAccepted analyzer.knows t node.isSecondOperandDerefrenced := by
  have hsplit : OperandsLegal analyzer node ↔ ∀ operand ∈ node.operands,
      (operand.1.type = .number → -2048 ≤ atoi operand.1.string.data ∧
        atoi operand.1.string.data ≤ 2047) ∧
      (operand.1.type = .identifier → analyzer.knows operand.1.string ∧ operand.2 = false) := by
    simp only [knows_iff htable]
    exact ⟨fun hok operand hmem => ⟨hok.immediates operand hmem, hok.identifiers operand hmem⟩,
      fun hok => ⟨fun operand hmem => (hok operand hmem).1,
        fun operand hmem => (hok operand hmem).2⟩⟩
  rw [hsplit, forall_operands]
  exact and_congr
    (forall₂_congr fun t ht => (h.first t ht).accepted_iff.symm)
    (forall₂_congr fun t ht => (h.second t ht).accepted_iff.symm)

/-- The count of the source is the number of operands. -/
theorem count_iff {operation : TokenType} (hop : isInstructionToken operation = true) :
    (((if node.firstOperand.isSome then 1 else 0) +
      (if node.secondOperand.isSome then 1 else 0) : Int) = getExpectedOperandCount operation) ↔
        node.operands.length = operandsOf operation := by
  have hexpected : getExpectedOperandCount operation = operandsOf operation := by
    cases operation <;> first | exact absurd hop (by decide) | rfl
  rw [hexpected]
  cases hfirst : node.firstOperand <;> cases hsecond : node.secondOperand <;>
    simp [InstructionNode.operands, hfirst, hsecond] <;> omega

/-- The modes of an operand that is there are its kind. -/
theorem validateOperand_kind (analyzer : SemanticAnalyzer) {operand : Option Token} {deref : Bool}
    (hthere : operand ≠ none)
    (h : ∀ t, operand = some t → OperandFormed source t deref) :
    ((validateOperand analyzer operand deref).2 = .immediate ↔ OperandIs .number operand) ∧
    ((validateOperand analyzer operand deref).2 = .direct ↔ OperandIs .identifier operand) ∧
    ((validateOperand analyzer operand deref).2 = .indirectRegister ↔
      OperandIs .register operand ∧ deref = true) ∧
    ((validateOperand analyzer operand deref).2 = .directRegister ∨
      (validateOperand analyzer operand deref).2 = .indirectRegister ↔
        OperandIs .register operand) := by
  obtain ⟨t, rfl⟩ := Option.ne_none_iff_exists'.mp hthere
  have hkind : ∀ type, OperandIs type (some t) ↔ t.type = type := by simp [OperandIs]
  simp only [hkind]
  rw [validateOperand, validateAndDetermineAddressingMode]
  rcases (h t rfl).type with ⟨htype, -⟩ | htype | htype
  · simp [htype]
  · cases deref <;> simp [htype]
  · simp [htype]

/-- The modes that are let pass, as kinds of operands: what is legal, but for the
destinations. -/
theorem modesAccepted_iff (h : InstructionFormed source node) {operation : TokenType}
    (hop : isInstructionToken operation = true)
    (hfirst : 1 ≤ getExpectedOperandCount operation → node.firstOperand ≠ none)
    (hsecond : getExpectedOperandCount operation = 2 → node.secondOperand ≠ none)
    (analyzer analyzer' : SemanticAnalyzer) :
    modesAccepted operation
        (validateOperand analyzer node.firstOperand node.isFirstOperandDerefrenced).2
        (validateOperand analyzer' node.secondOperand node.isSecondOperandDerefrenced).2 ↔
      KindsLegal operation node ∧ (WritesSecond operation →
        ¬ (OperandIs .number node.firstOperand ∧ OperandIs .number node.secondOperand)) := by
  have hsource := fun hcount =>
    validateOperand_kind analyzer (hfirst hcount) h.first
  have hdestination := fun hcount =>
    validateOperand_kind analyzer' (hsecond hcount) h.second
  unfold modesAccepted WritesSecond
  cases operation
  case mov | add | sub =>
    rw [(hsource (by decide)).1, (hdestination rfl).1]
    exact ⟨fun hnot => ⟨WritesSecond.kindsLegal (by simp [WritesSecond]) node, fun _ => hnot⟩,
      fun hlegal => hlegal.2 (by simp)⟩
  case cmp =>
    rw [(hsource (by decide)).1, (hdestination rfl).1]
    exact ⟨fun hnot => ⟨⟨by simp, by simp, fun _ => hnot, by simp⟩, by simp⟩,
      fun hlegal => hlegal.1.compare rfl⟩
  case not | clr | inc | dec | red =>
    rw [Ne, (hsource (by decide)).1]
    exact ⟨fun hnot => ⟨⟨by simp, by simp, by simp, fun _ => hnot⟩, by simp⟩,
      fun hlegal => hlegal.1.written (by simp)⟩
  case lea =>
    rw [(hsource (by decide)).2.1, (hdestination rfl).2.2.2]
    exact ⟨fun hlea => ⟨⟨fun _ => hlea, by simp, by simp, by simp⟩, by simp⟩,
      fun hlegal => hlegal.1.lea rfl⟩
  case jmp | bne | jsr =>
    rw [(hsource (by decide)).2.1, (hsource (by decide)).2.2.1]
    exact ⟨fun hjump => ⟨⟨by simp, fun _ => hjump, by simp, by simp⟩, by simp⟩,
      fun hlegal => hlegal.1.jump (by simp)⟩
  case prn | rts | stop =>
    exact ⟨fun _ => ⟨⟨by simp, by simp, by simp, by simp⟩, by simp⟩, fun _ => trivial⟩
  all_goals exact absurd hop (by decide)

/-- **What the analyzer lets pass.** -/
theorem analyzeInstruction_clean_iff (h : InstructionFormed source node) {operation : Token}
    (hoperation : node.operation = some operation) {analyzer : SemanticAnalyzer}
    (htable : Probing.Placed home analyzer.keys) :
    (semanticAnalyzerAnalyzeInstruction analyzer node).errors = analyzer.errors ↔
      OperandsLegal analyzer node ∧ KindsLegal operation.type node ∧
        node.operands.length = operandsOf operation.type ∧ (WritesSecond operation.type →
          ¬ (OperandIs .number node.firstOperand ∧ OperandIs .number node.secondOperand)) := by
  have hop : isInstructionToken operation.type = true := by
    obtain ⟨operation', -, hsome, htype⟩ := h.operation
    exact Option.some.inj (hsome.symm.trans hoperation) ▸ htype
  rw [semanticAnalyzerAnalyzeInstruction, hoperation]
  simp only
  by_cases hcount : ((if node.firstOperand.isSome then 1 else 0) +
      (if node.secondOperand.isSome then 1 else 0) : Int) = getExpectedOperandCount operation.type
  · rw [if_neg (not_not_intro hcount)]
    obtain ⟨hfirst, hsecond⟩ := operandCount_iff h hcount
    have hchecked := validateOperand_checked analyzer node.firstOperand
      node.isFirstOperandDerefrenced
    have hchecked' := validateOperand_checked
      (validateOperand analyzer node.firstOperand node.isFirstOperandDerefrenced).1
      node.secondOperand node.isSecondOperandDerefrenced
    rw [(hchecked.trans hchecked').clean_iff (validateOperation_checked _ _ _ hop hfirst hsecond),
      hchecked.clean_iff hchecked', validateOperation_clean_iff hfirst hsecond,
      modesAccepted_iff h hop hfirst hsecond, validateOperand_clean_iff,
      validateOperand_clean_iff, knows_congr hchecked.hash, ← operandsLegal_iff h htable]
    have hlength := (count_iff hop).mp hcount
    constructor
    · intro hclean
      exact ⟨hclean.1, hclean.2.1, hlength, hclean.2.2⟩
    · intro hlegal
      exact ⟨hlegal.1, hlegal.2.1, hlegal.2.2.2⟩
  · rw [if_pos hcount]
    apply iff_of_false (reportError_errors_ne _ _ _)
    exact fun hlegal => hcount ((count_iff hop).mpr hlegal.2.2.1)

end Formed

/-- **An instruction passes exactly if it is legal**, unless its only fault is an
immediate destination of a `mov`, an `add` or a `sub`. -/
theorem analyzeInstruction_legal_iff {source unit : TranslationUnit}
    (hunit : ParsedFrom source unit) {label : LabelNode}
    (hlabel : label ∈ unit.instructionLabelList) {node : InstructionNode}
    (hnode : node ∈ label.instructionList) {operation : Token}
    (hoperation : node.operation = some operation) {analyzer : SemanticAnalyzer}
    (htable : Probing.Placed home analyzer.keys) :
    ((semanticAnalyzerAnalyzeInstruction analyzer node).errors = analyzer.errors ↔
      Legal analyzer operation.type node) ↔
      (WritesSecond operation.type → OperandIs .number node.secondOperand →
        OperandIs .number node.firstOperand ∨ ¬ OperandsLegal analyzer node) := by
  obtain ⟨-, -, hall⟩ := hunit.formed.instructions label hlabel
  have hformed := hall node hnode
  rw [analyzeInstruction_clean_iff hformed hoperation htable]
  constructor
  · intro hiff hwrites hsecond
    by_contra hnot
    obtain ⟨hfirst, hoperands⟩ := not_or.mp hnot
    have hcount : node.operands.length = operandsOf operation.type := by
      obtain ⟨t, ht, -⟩ := hsecond
      obtain ⟨u, hu⟩ := Option.ne_none_iff_exists'.mp (hformed.ordered (by simp [ht]))
      simp [InstructionNode.operands, hu, ht, hwrites.operandsOf_eq]
    have hlegal := hiff.mp ⟨not_not.mp hoperands, hwrites.kindsLegal node, hcount,
      fun _ hboth => hfirst hboth.1⟩
    exact hlegal.destination hwrites hsecond
  · intro hcondition
    constructor
    · intro hfacts
      obtain ⟨hoperands, hkinds, hcount, hmov⟩ := hfacts
      refine ⟨hoperands, hkinds, hcount, fun hwrites hsecond => ?_⟩
      rcases hcondition hwrites hsecond with hfirst | hfaulty
      · exact hmov hwrites ⟨hfirst, hsecond⟩
      · exact hfaulty hoperands
    · intro hlegal
      exact ⟨hlegal.toOperandsLegal, hlegal.toKindsLegal, hlegal.count,
        fun hwrites hboth => hlegal.destination hwrites hboth.2⟩

/-- A table without a name. -/
def emptyTable : SemanticAnalyzer where
  hash := List.replicate 1 none
  errorHandler := errorHandlerInitialize stringCreate "sample"
  stderr := []

/-- An instruction of a program that passes a check. -/
def hasInstruction (check : InstructionNode → Bool) (source : TranslationUnit) : Bool :=
  match parseTranslationUnitContent source with
  | .error _ => false
  | .ok unit => decide (unit.errorHandler.errorList = source.errorHandler.errorList) &&
      unit.instructionLabelList.any (fun label => label.instructionList.any check)

/-- A sample has an instruction if the parser says so when it is run. -/
theorem exists_instruction {check : InstructionNode → Bool} {source : TranslationUnit}
    (h : hasInstruction check source = true) : ∃ unit label node, ParsedFrom source unit ∧
      label ∈ unit.instructionLabelList ∧ node ∈ label.instructionList ∧ check node = true := by
  rw [hasInstruction] at h
  cases hparse : parseTranslationUnitContent source with
  | error fault =>
      rw [hparse] at h
      exact absurd h (by simp)
  | ok unit =>
      rw [hparse] at h
      simp only [Bool.and_eq_true, decide_eq_true_eq, List.any_eq_true] at h
      obtain ⟨herrors, label, hlabel, node, hnode, hcheck⟩ := h
      exact ⟨unit, label, node, ⟨hparse, herrors⟩, hlabel, hnode, hcheck⟩

/-- A number and a register. -/
theorem analyzeInstruction_legal_sample : ∃ unit label node operation,
    ParsedFrom (parserSample "A: mov #5, r1\n") unit ∧ label ∈ unit.instructionLabelList ∧
    node ∈ label.instructionList ∧ node.operation = some operation ∧
    ((semanticAnalyzerAnalyzeInstruction emptyTable node).errors = emptyTable.errors ↔
      Legal emptyTable operation.type node) := by
  have hsample : hasInstruction
      (fun node => node.operation.isSome && decide (node.secondOperand.map Token.type =
        some .register)) (parserSample "A: mov #5, r1\n") = true := by decide +kernel
  obtain ⟨unit, label, node, hunit, hlabel, hnode, hcheck⟩ := exists_instruction hsample
  simp only [Bool.and_eq_true, decide_eq_true_eq] at hcheck
  obtain ⟨operation, hoperation⟩ := Option.isSome_iff_exists.mp hcheck.1
  refine ⟨unit, label, node, operation, hunit, hlabel, hnode, hoperation, ?_⟩
  refine (analyzeInstruction_legal_iff hunit hlabel hnode hoperation
    (Probing.placed_empty 1)).mpr ?_
  intro _ hfacts
  obtain ⟨t, ht, htype⟩ := hfacts
  simp [ht, htype] at hcheck

/-- The result of a `mov` is let pass into a number. -/
theorem analyzeInstruction_writes_number : ∃ unit label node operation,
    ParsedFrom (parserSample "A: mov r1, #5\n") unit ∧ label ∈ unit.instructionLabelList ∧
    node ∈ label.instructionList ∧ node.operation = some operation ∧
    ¬ ((semanticAnalyzerAnalyzeInstruction emptyTable node).errors = emptyTable.errors ↔
      Legal emptyTable operation.type node) := by
  have hsample : hasInstruction
      (fun node => decide (node.operation.map Token.type = some .mov) &&
        decide (node.secondOperand.map Token.type = some .number) &&
        decide ((semanticAnalyzerAnalyzeInstruction emptyTable node).errors = []))
      (parserSample "A: mov r1, #5\n") = true := by decide +kernel
  obtain ⟨unit, label, node, hunit, hlabel, hnode, hcheck⟩ := exists_instruction hsample
  simp only [Bool.and_eq_true, decide_eq_true_eq] at hcheck
  obtain ⟨⟨hmov, hsecond⟩, hclean⟩ := hcheck
  obtain ⟨operation, hoperation, htype⟩ := Option.map_eq_some_iff.mp hmov
  obtain ⟨t, ht, hnumber⟩ := Option.map_eq_some_iff.mp hsecond
  refine ⟨unit, label, node, operation, hunit, hlabel, hnode, hoperation, fun hiff => ?_⟩
  exact (hiff.mp hclean).destination (Or.inl htype) ⟨t, ht, hnumber⟩

end Assembler
