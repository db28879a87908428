import CLab.Analysis
import CLab.CodeGenerator

/-!
# The later stages on a parsed unit

The analyzer follows the pointers of a unit unchecked, prints where one is `NULL`
and never ends on a `NULL` number; the generator writes nothing for a second
operand without a first.  None of this happens on a unit that was parsed without
an error from a list that ends in an end of file.
-/

namespace Assembler

/-! ## The generator goes on -/

/-- A name writes no word by itself. -/
theorem handleDirectMode_position {analyzer : SemanticAnalyzer} {unit : TranslationUnit}
    {output output' : Output} {operand : Token} {memory memory' : InstructionOperandMemory}
    (h : handleDirectMode analyzer unit output operand memory = .ok (output', memory')) :
    output'.2 = output.2 := by
  rw [handleDirectMode] at h
  cases hlookup : analyzer.lookup operand.string with
  | none =>
      rw [hlookup] at h
      cases h
      rfl
  | some cell =>
      rw [hlookup] at h
      cases htype : cell.type with
      | label =>
          simp only [htype] at h
          cases hnode : unit.labelAt cell.value <;> rw [hnode] at h <;> cases h
          rfl
      | external =>
          simp only [htype] at h
          cases h
          rfl

/-- An operand writes one. -/
theorem generateOperand_position {analyzer : SemanticAnalyzer} {unit : TranslationUnit}
    {output output' : Output} {operand : Token} {mode : AddressingMode} {isDst : Bool}
    (h : generateOperand analyzer unit output operand mode isDst = .ok output') :
    output'.2 = output.2 + 1 := by
  rw [generateOperand] at h
  cases hhandle : handleOperand analyzer unit output operand mode .zero isDst with
  | error fault =>
      rw [hhandle] at h
      cases h
  | ok handled =>
      rw [hhandle] at h
      cases h
      have hposition : handled.1.2 = output.2 := by
        cases mode with
        | direct => exact handleDirectMode_position hhandle
        | immediate | directRegister | indirectRegister =>
            cases hhandle
            rfl
      exact congrArg (· + 1) hposition

/-- An instruction whose operands are in order is written. -/
theorem generateInstructionMemory_position {analyzer : SemanticAnalyzer} {unit : TranslationUnit}
    {output output' : Output} {node : InstructionNode}
    (hordered : node.secondOperand ≠ none → node.firstOperand ≠ none)
    (h : generateInstructionMemory analyzer unit output node = .ok output') :
    output.2 < output'.2 := by
  rw [generateInstructionMemory] at h
  cases hfirst : node.firstOperand with
  | none =>
      cases hsecond : node.secondOperand with
      | some second => exact absurd hfirst (hordered (by simp [hsecond]))
      | none =>
          rw [hfirst, hsecond] at h
          cases hoperation : node.operation <;> rw [hoperation] at h <;> cases h
          exact Nat.lt_succ_self _
  | some first =>
      cases hsecond : node.secondOperand with
      | none =>
          rw [hfirst, hsecond] at h
          cases hoperation : node.operation with
          | none =>
              rw [hoperation] at h
              cases h
          | some operation =>
              rw [hoperation] at h
              have hposition := generateOperand_position h
              simp only [generateInstruction, writeToObjectFile] at hposition
              omega
      | some second =>
          rw [hfirst, hsecond] at h
          cases hoperation : node.operation with
          | none =>
              rw [hoperation] at h
              cases h
          | some operation =>
              rw [hoperation] at h
              simp only at h
              split_ifs at h with hboth
              · cases h
                simp only [generateOperandInstruction, generateInstruction, writeToObjectFile]
                omega
              · obtain ⟨middle, hmiddle, hlast⟩ := exists_of_bind_eq_ok h
                have hposition := generateOperand_position hmiddle
                have hposition' := generateOperand_position hlast
                simp only [generateInstruction, writeToObjectFile] at hposition
                omega

/-! ## Parsed units -/

/-- The pointers of a unit are those that the later stages follow: the analyzer
returns without having printed, so it has met no `NULL` token, and the generator
writes every instruction, so it falls through none. -/
structure UnitSafe (source : List Token) (unit : TranslationUnit) : Prop where
  formed : UnitFormed source unit
  finished : ∀ label ∈ unit.instructionLabelList, ∀ instruction ∈ label.instructionList,
    instruction.hasParserError = false
  analyzed : ∀ lexer, ∃ analyzer, semanticAnalyzerAnalyzeTranslationUnit
    (semanticAnalyzerInitialize unit lexer) unit = .ok analyzer ∧ analyzer.stderr = []
  generated : ∀ label ∈ unit.instructionLabelList, ∀ instruction ∈ label.instructionList,
    ∀ analyzer unit' output output',
      generateInstructionMemory analyzer unit' output instruction = .ok output' →
        output.2 < output'.2

/-- **A parse without an error yields a well-formed unit**, on which the later
stages are safe. -/
theorem parsedFrom_safe {source unit : TranslationUnit} (hend : EndsFile source.tokens)
    (h : ParsedFrom source unit) : UnitSafe source.tokens unit := by
  refine ⟨h.formed, h.finished hend, ?_, ?_⟩
  · intro lexer
    obtain ⟨analyzer, hrun, hstderr, -⟩ := analyzeTranslationUnit_run h.formed lexer
    exact ⟨analyzer, hrun, hstderr⟩
  · intro label hlabel instruction hinstruction analyzer unit' output output' hrun
    obtain ⟨-, -, hall⟩ := h.formed.instructions label hlabel
    exact generateInstructionMemory_position (hall instruction hinstruction).ordered hrun

/-- An instruction with two operands and a directive. -/
theorem parsedFrom_safe_sample :
    ∃ unit, ParsedFrom (parserSample "A: mov r1, X\nX: .data 1\n") unit ∧
      UnitSafe (parserSample "A: mov r1, X\nX: .data 1\n").tokens unit := by
  have hclean : (parseTranslationUnitContent
      (parserSample "A: mov r1, X\nX: .data 1\n")).toOption.map
        (fun u => u.errorHandler.errorList) =
      some (parserSample "A: mov r1, X\nX: .data 1\n").errorHandler.errorList := by
    decide +kernel
  obtain ⟨unit, h⟩ := exists_parsedFrom hclean
  exact ⟨unit, h, parsedFrom_safe (endsFile_of_getLast (by decide +kernel)) h⟩

end Assembler
