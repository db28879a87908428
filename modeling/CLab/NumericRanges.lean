import CLab.DataSegment
import CLab.InstructionEncoding

/-!
# The ranges of numbers

The analyzer compares with its bounds what `atoi` makes of a literal: the number
the literal writes, saturated to a `long` and cut to an `int`.  A literal far out
of range can come back into it on the way, and is then accepted and written as
another number.  Which literals these are is said by `CheckedExactly`, and that
there are no others by `semanticAnalyzer_ranges_iff`.
-/

namespace Assembler

/-! ## Windows -/

/-- A number in a window. -/
def Within (low high value : Int) : Prop := low ≤ value ∧ value ≤ high

instance (low high value : Int) : Decidable (Within low high value) :=
  inferInstanceAs (Decidable (low ≤ value ∧ value ≤ high))

/-- A number that is cut to a word comes into a window in the middle of the word
exactly if one with the same low bits is there. -/
theorem bmod_within_iff (modulus : Nat) {low high : Int} (hlow : -(modulus : Int) ≤ low * 2)
    (hhigh : high * 2 < modulus) (value : Int) :
    Within low high (value.bmod modulus) ↔ ∃ k : Int, Within low high (value - k * modulus) := by
  constructor
  · intro h
    exact ⟨value.bdiv modulus, Int.bmod_eq_self_sub_bdiv_mul value modulus ▸ h⟩
  · intro hfacts
    obtain ⟨k, h⟩ := hfacts
    have hsame : value.bmod modulus = value - k * modulus := by
      rw [← Int.sub_mul_bmod_self_right value k modulus]
      exact Int.bmod_eq_of_le_mul_two (by have := h.1; omega) (by have := h.2; omega)
    exact hsame ▸ h

/-- A number that a saturated and cut copy does not bring into a window: it is
there itself, or it is a `long` and no number with the same low bits is there. -/
def CheckedExactly (low high value : Int) : Prop :=
  Within low high value ∨
    -(2 ^ 63) ≤ value ∧ value < 2 ^ 63 ∧ ∀ k : Int, ¬ Within low high (value - k * 2 ^ 32)

/-- A number, saturated to a `long` and cut to an `int`. -/
def truncated (value : Int) : Int :=
  Int.bmod (max (-(2 ^ 63)) (min (2 ^ 63 - 1) value)) (2 ^ 32)

section Truncated

variable {low high : Int} (hlow : -(2 ^ 31) ≤ low) (hhigh : high < 2 ^ 31)

include hlow hhigh

/-- A number in a window of an `int` is not changed. -/
theorem truncated_eq_of_within {value : Int} (h : Within low high value) :
    truncated value = value := by
  obtain ⟨hmin, hmax⟩ := h
  have hsame : max (-(2 ^ 63)) (min (2 ^ 63 - 1) value) = value := by omega
  rw [truncated, hsame]
  exact Int.bmod_eq_of_le_mul_two (by push_cast; omega) (by push_cast; omega)

/-- **A window that contains zero and minus one tells a number by its truncated
copy** exactly if that copy does not come into it from outside. -/
theorem truncated_within_iff (hzero : 0 ≤ high) (hone : low ≤ -1) (value : Int) :
    (Within low high (truncated value) ↔ Within low high value) ↔
      CheckedExactly low high value := by
  have hcut : ∀ value, _ := @bmod_within_iff (2 ^ 32) low high (by push_cast; omega)
    (by push_cast; omega)
  constructor
  · intro hexact
    by_cases hin : Within low high value
    · exact Or.inl hin
    have hout : ¬ Within low high (truncated value) := fun h => hin (hexact.mp h)
    by_cases hbig : 2 ^ 63 ≤ value
    · -- The greatest `long` is cut to minus one.
      have hcopy : truncated value = -1 := by
        rw [truncated, show max (-(2 ^ 63)) (min (2 ^ 63 - 1) value) = 2 ^ 63 - 1 by omega]
        decide
      exact absurd ⟨hcopy ▸ hone, by omega⟩ hout
    by_cases hsmall : value < -(2 ^ 63)
    · -- The least `long` is cut to zero.
      have hcopy : truncated value = 0 := by
        rw [truncated, show max (-(2 ^ 63)) (min (2 ^ 63 - 1) value) = -(2 ^ 63) by omega]
        decide
      exact absurd ⟨by omega, hcopy ▸ hzero⟩ hout
    refine Or.inr ⟨by omega, by omega, fun k hk => hout ?_⟩
    have hsame : max (-(2 ^ 63)) (min (2 ^ 63 - 1) value) = value := by omega
    rw [truncated, hsame, hcut]
    exact ⟨k, by push_cast; exact hk⟩
  · intro hcases
    rcases hcases with hin | ⟨hmin, hmax, hnone⟩
    · rw [truncated_eq_of_within hlow hhigh hin]
    · have hsame : max (-(2 ^ 63)) (min (2 ^ 63 - 1) value) = value := by omega
      have hout : ¬ Within low high value := by simpa using hnone 0
      refine iff_of_false ?_ hout
      rw [truncated, hsame, hcut]
      intro hfacts
      obtain ⟨k, hk⟩ := hfacts
      exact hnone k (by push_cast at hk; exact hk)

end Truncated

/-! ## Literals -/

/-- A sign or none, and digits. -/
def NumberText (text : List UInt8) : Prop :=
  ∃ sign digits, text = sign ++ digits ∧ (sign = [] ∨ sign = bytes "+" ∨ sign = bytes "-") ∧
    digits ≠ [] ∧ ∀ d ∈ digits, isDigit d = true

/-- The number that a literal writes. -/
def literalValue (text : List UInt8) : Int :=
  match text with
  | [] => 0
  | ch :: digits =>
      if ch = '-'.toUInt8 then -(Numerals.value 10 digits : Int)
      else if ch = '+'.toUInt8 then Numerals.value 10 digits
      else Numerals.value 10 (ch :: digits)

/-- A number token is a sign or nothing, and digits. -/
theorem nextLexeme_numberText {c : UInt8} {cs : List UInt8} (h0 : c ≠ 0)
    (h : (nextLexeme c cs).type = some .number) : NumberText (nextLexeme c cs).text := by
  revert h
  have hnonOp : ∀ entry ∈ nonOpInstructions, entry.2 ≠ .number := by decide
  have hkeywords : ∀ entry ∈ keywords, entry.2 ≠ .number := by decide
  refine nextLexeme_cases (P := fun x => x.type = some .number → NumberText x.text) c cs
    ?_ ?_ ?_ ?_ ?_ ?_ ?_ ?_ ?_ ?_
  · exact fun _ h => by cases h
  · exact fun _ h => by cases h
  · exact fun _ h => by cases h
  · exact fun _ h => by cases h
  · intro _ h
    have htype := Option.some.inj h
    unfold separatorType at htype
    split_ifs at htype
  · intro hc h
    have hdigits : ∀ d ∈ cs.takeWhile isDigit, isDigit d = true :=
      fun d hd => List.mem_takeWhile_imp hd
    rw [numberLexeme_text]
    rcases hc with hc | hc
    · refine ⟨[], c :: cs.takeWhile isDigit, rfl, Or.inl rfl, by simp, ?_⟩
      intro d hd
      rcases List.mem_cons.mp hd with rfl | hd
      · exact hc
      · exact hdigits d hd
    · have hsign : c = '+'.toUInt8 ∨ c = '-'.toUInt8 := by
        have hall : ∀ c : UInt8, c ≠ 0 → charExistsInString c (bytes "+-") = true →
            c = '+'.toUInt8 ∨ c = '-'.toUInt8 := forall_char (by decide +kernel)
        exact hall c h0 hc
      refine ⟨[c], cs.takeWhile isDigit, rfl, ?_, ?_, hdigits⟩
      · rcases hsign with rfl | rfl
        · exact Or.inr (Or.inl rfl)
        · exact Or.inr (Or.inr rfl)
      · intro hnone
        rw [hnone] at h
        rcases hsign with rfl | rfl <;> exact absurd h (by decide)
  · intro _ h
    unfold stringLexeme at h
    split at h <;> cases h
  · intro _ h
    unfold nonOpLexeme at h
    split at h
    · rename_i hkey
      obtain ⟨entry, hmem, -, rfl⟩ := keywordOf_mem hkey
      exact absurd (Option.some.inj h) (hnonOp entry hmem)
    · cases h
  · intro _ h
    cases hkey : keywordOf keywords (c :: cs.takeWhile (wordChar c)) with
    | none => simp [wordLexeme, hkey] at h
    | some type =>
        obtain ⟨entry, hmem, -, rfl⟩ := keywordOf_mem hkey
        simp only [wordLexeme, hkey, Option.getD_some, Option.some.injEq] at h
        exact absurd h (hkeywords entry hmem)
  · exact fun _ h => by cases h

/-- The number tokens of the lexer are literals. -/
theorem LexerOutput.numberText {lexer : Lexer} (h : LexerOutput lexer) :
    ∀ t ∈ lexer.tokenList, t.type = .number → NumberText t.string.data := by
  apply h.forall_tokens (P := fun t => t.type = .number → NumberText t.string.data)
  intro start xs hlex t ht htype
  obtain ⟨c, cs, h0, hlexeme, hstring⟩ := placeTokens_read hlex t ht
  rw [hstring (by simp [htype])]
  exact nextLexeme_numberText h0 (hlexeme.trans (congrArg some htype))

/-- The loop over the digits computes their value. -/
theorem digitsValue_eq {digits : List UInt8} (h : ∀ d ∈ digits, isDigit d = true) :
    digitsValue digits = Numerals.value 10 digits := by
  rw [digitsValue, List.takeWhile_eq_self_iff.mpr h]
  rfl

/-- **`atoi` truncates the number that a literal writes.** -/
theorem NumberText.atoi_eq {text : List UInt8} (h : NumberText text) :
    atoi text = truncated (literalValue text) := by
  obtain ⟨sign, digits, rfl, hsign, hne, hdigits⟩ := h
  have hfirst : ∀ c : UInt8, isDigit c = true →
      isSpace c = false ∧ c ≠ '-'.toUInt8 ∧ c ≠ '+'.toUInt8 := forall_char (by decide +kernel)
  rcases hsign with rfl | rfl | rfl
  · obtain ⟨d, rest, rfl⟩ := List.exists_cons_of_ne_nil hne
    obtain ⟨hspace, hminus, hplus⟩ := hfirst d (hdigits d List.mem_cons_self)
    rw [List.nil_append, atoi, strtol, List.dropWhile_cons_of_neg (by simp [hspace]),
      literalValue]
    simp only [if_neg hminus, if_neg hplus, digitsValue_eq hdigits]
    rfl
  · have hspace : ∀ rest, (bytes "+" ++ rest).dropWhile isSpace = '+'.toUInt8 :: rest :=
      fun rest => List.dropWhile_cons_of_neg (by decide)
    rw [atoi, strtol, hspace]
    simp only [if_pos, digitsValue_eq hdigits]
    rfl
  · have hspace : ∀ rest, (bytes "-" ++ rest).dropWhile isSpace = '-'.toUInt8 :: rest :=
      fun rest => List.dropWhile_cons_of_neg (by decide)
    rw [atoi, strtol, hspace]
    simp only [if_pos, digitsValue_eq hdigits]
    rfl

/-! ## Reports of a token -/

/-- The error that a number is out of range. -/
def rangeError (token : Token) : ErrorNode :=
  .tokenError .semanticAnalyzer
    { token := token, message := "Integer value is out of the allowed range" }

/-- The errors between two analyzers are told apart by whether the range of a
token is among them. -/
def RangeReported (t : Token) (before after : SemanticAnalyzer) (reported : Prop) : Prop :=
  ∃ added, after.errors = before.errors ++ added ∧ (rangeError t ∈ added ↔ reported)

section Reports

variable {t : Token} {before middle after : SemanticAnalyzer} {P Q : Prop}

/-- Without a check no range is reported. -/
theorem RangeReported.refl (analyzer : SemanticAnalyzer) :
    RangeReported t analyzer analyzer False :=
  ⟨[], (List.append_nil _).symm, by simp⟩

/-- Two checks report what one of them does. -/
theorem RangeReported.trans (h : RangeReported t before middle P)
    (h' : RangeReported t middle after Q) : RangeReported t before after (P ∨ Q) := by
  obtain ⟨added, herrors, hiff⟩ := h
  obtain ⟨added', herrors', hiff'⟩ := h'
  refine ⟨added ++ added', by rw [herrors', herrors, List.append_assoc], ?_⟩
  rw [List.mem_append, hiff, hiff']

/-- The condition may be put in other words. -/
theorem RangeReported.congr (h : RangeReported t before after P) (hiff : P ↔ Q) :
    RangeReported t before after Q := by
  obtain ⟨added, herrors, hP⟩ := h
  exact ⟨added, herrors, hP.trans hiff⟩

/-- A report is one of the range by its text and its token. -/
theorem reportError_rangeReported (analyzer : SemanticAnalyzer) (message : String)
    (token : Option Token) :
    RangeReported t analyzer (analyzer.reportError message token)
      (message = "Integer value is out of the allowed range" ∧ token = some t) := by
  cases token with
  | none => exact ⟨[], (List.append_nil _).symm, by simp⟩
  | some token =>
      refine ⟨_, reportError_errors _ _ _, ?_⟩
      simp only [rangeError, List.mem_singleton, ErrorNode.tokenError.injEq, true_and,
        TokenError.mk.injEq, Option.some.injEq]
      grind

/-- A report on a condition needs the condition too. -/
theorem reportIf_rangeReported (analyzer : SemanticAnalyzer) (wrong : Bool) (message : String)
    (token : Option Token) :
    RangeReported t analyzer (analyzer.reportIf wrong message token)
      (wrong = true ∧ message = "Integer value is out of the allowed range" ∧ token = some t) := by
  cases wrong with
  | false => exact (RangeReported.refl _).congr (by simp)
  | true => exact (reportError_rangeReported _ _ _).congr (by simp)

/-- A report of something else. -/
theorem reportIf_other (analyzer : SemanticAnalyzer) (wrong : Bool) {message : String}
    (hother : message ≠ "Integer value is out of the allowed range") (token : Option Token) :
    RangeReported t analyzer (analyzer.reportIf wrong message token) False :=
  (reportIf_rangeReported _ _ _ _).congr (by simp [hother])

/-- The numbers of a `.data` line are reported one by one. -/
theorem analyzeDataNumbers_rangeReported {numbers : List (Option Token)} (h : none ∉ numbers)
    (analyzer : SemanticAnalyzer) :
    ∃ analyzer', analyzeDataNumbers analyzer numbers = .ok analyzer' ∧
      RangeReported t analyzer analyzer'
        (some t ∈ numbers ∧ ¬ Within (-16384) 16383 (atoi t.string.data)) := by
  induction numbers generalizing analyzer with
  | nil => exact ⟨analyzer, rfl, (RangeReported.refl _).congr (by simp)⟩
  | cons number numbers ih =>
      rw [List.mem_cons, not_or] at h
      obtain ⟨token, rfl⟩ := Option.ne_none_iff_exists'.mp (Ne.symm h.1)
      obtain ⟨analyzer', hrun, hrest⟩ := ih h.2 (analyzer.reportIf
        (decide (atoi token.string.data > max15BitSignedInt ∨
          atoi token.string.data < min15BitSignedInt))
        "Integer value is out of the allowed range" (some token))
      refine ⟨analyzer', hrun, ((reportIf_rangeReported _ _ _ _).trans hrest).congr ?_⟩
      have hrange : ∀ token : Token, (atoi token.string.data > max15BitSignedInt ∨
          atoi token.string.data < min15BitSignedInt) ↔
            ¬ Within (-16384) 16383 (atoi token.string.data) := by
        intro token
        simp only [Within, max15BitSignedInt, min15BitSignedInt]
        omega
      simp only [decide_eq_true_eq, hrange, true_and, Option.some.injEq, List.mem_cons]
      grind

/-- The check of an operand reports a number outside the window of twelve bits. -/
theorem validateOperand_rangeReported (analyzer : SemanticAnalyzer) (operand : Option Token)
    (deref : Bool) (htype : t.type = .number) :
    RangeReported t analyzer (validateOperand analyzer operand deref).1
      (operand = some t ∧ ¬ Within (-2048) 2047 (atoi t.string.data)) := by
  cases operand with
  | none => exact (RangeReported.refl _).congr (by simp)
  | some token =>
      rw [validateOperand, validateAndDetermineAddressingMode]
      have hother : token.type ≠ .number → ¬ (some token = some t ∧
          ¬ Within (-2048) 2047 (atoi t.string.data)) := by
        intro hne hfacts
        obtain ⟨heq, -⟩ := hfacts
        exact hne (Option.some.inj heq ▸ htype)
      cases hoperand : token.type with
      | number =>
          simp only [reduceCtorEq, if_false]
          refine ((reportIf_other _ _ (by decide) _).trans
            (reportIf_rangeReported _ _ _ _)).congr ?_
          have hrange : (atoi token.string.data > max12BitSignedInt ∨
              atoi token.string.data < min12BitSignedInt) ↔
                ¬ Within (-2048) 2047 (atoi token.string.data) := by
            simp only [Within, max12BitSignedInt, min12BitSignedInt]
            omega
          simp only [decide_eq_true_eq, hrange, true_and, Option.some.injEq, false_or]
          grind
      | identifier =>
          simp only [if_true]
          refine ((reportIf_other _ _ (by decide) _).trans
            (reportIf_other _ _ (by decide) _)).congr ?_
          exact iff_of_false (by simp) (hother (by simp [hoperand]))
      | register =>
          simp only [reduceCtorEq, if_false]
          exact (RangeReported.refl _).congr (iff_of_false id (hother (by simp [hoperand])))
      | _ =>
          simp only [reduceCtorEq, if_false]
          exact (reportError_rangeReported _ _ _).congr
            (iff_of_false (fun h => absurd h.1 (by decide)) (hother (by simp [hoperand])))

/-- The check of an operation reports no range. -/
theorem validateOperation_rangeReported (analyzer : SemanticAnalyzer) (operation : Token)
    (source destination : Option Token) (sourceAM destinationAM : AddressingMode) :
    RangeReported t analyzer
      (validateOperation analyzer operation source destination sourceAM destinationAM) False := by
  unfold validateOperation
  split
  case h_9 =>
    exact ((reportIf_other _ _ (by decide) _).trans (reportIf_other _ _ (by decide) _)).congr
      (or_self_iff)
  case h_14 | h_15 | h_16 => exact RangeReported.refl _
  case h_17 =>
    exact (reportError_rangeReported _ _ _).congr
      (iff_of_false (fun h => absurd h.1 (by decide)) id)
  all_goals exact reportIf_other _ _ (by decide) _

/-- The instruction has as many operands as its operation asks for. -/
def RightCount (node : InstructionNode) : Prop :=
  ∃ operation, node.operation = some operation ∧
    (if node.firstOperand.isSome then 1 else 0) + (if node.secondOperand.isSome then 1 else 0) =
      getExpectedOperandCount operation.type

/-- An instruction is reported for either of its operands. -/
theorem analyzeInstruction_rangeReported {node : InstructionNode} (hcount : RightCount node)
    (analyzer : SemanticAnalyzer) (htype : t.type = .number) :
    RangeReported t analyzer (semanticAnalyzerAnalyzeInstruction analyzer node)
      ((node.firstOperand = some t ∨ node.secondOperand = some t) ∧
        ¬ Within (-2048) 2047 (atoi t.string.data)) := by
  obtain ⟨operation, hoperation, hcount⟩ := hcount
  rw [semanticAnalyzerAnalyzeInstruction, hoperation]
  simp only
  rw [if_neg (not_not_intro hcount)]
  have hfirst := validateOperand_rangeReported analyzer node.firstOperand
    node.isFirstOperandDerefrenced htype
  have hsecond := validateOperand_rangeReported
    (validateOperand analyzer node.firstOperand node.isFirstOperandDerefrenced).1
    node.secondOperand node.isSecondOperandDerefrenced htype
  apply ((hfirst.trans hsecond).trans (validateOperation_rangeReported _ _ _ _ _ _)).congr
  rw [or_false, ← or_and_right]

end Reports

/-! ## What is accepted and what is written -/

/-- In a `.data` line the token is reported exactly if the number it writes does
not fit in fifteen bits, and written as that number if it is not. -/
def DataExact (t : Token) (value : Int) : Prop :=
  ∀ (analyzer : SemanticAnalyzer) (node : DataNode), none ∉ node.dataNumbers →
    some t ∈ node.dataNumbers → ∃ analyzer' added,
      semanticAnalyzerAnalyzeDirectiveGuidance analyzer node = .ok analyzer' ∧
      analyzer'.errors = analyzer.errors ++ added ∧
      (rangeError t ∈ added ↔ ¬ Within (-16384) 16383 value) ∧
      (rangeError t ∉ added → ∀ output, ∃ toWrite,
        generateNumber output (some t) = .ok (writeGuidanceWord output toWrite) ∧
          (wordOf toWrite).toInt = value)

/-- As an immediate operand the token is reported exactly if the number it writes
does not fit in twelve bits, and written as that number if it is not. -/
def ImmediateExact (t : Token) (value : Int) : Prop :=
  ∀ (analyzer : SemanticAnalyzer) (node : InstructionNode), RightCount node →
    (node.firstOperand = some t ∨ node.secondOperand = some t) → ∃ added,
      (semanticAnalyzerAnalyzeInstruction analyzer node).errors = analyzer.errors ++ added ∧
      (rangeError t ∈ added ↔ ¬ Within (-2048) 2047 value) ∧
      (rangeError t ∉ added → ∀ unit output memory isDst, ∃ memory',
        handleOperand analyzer unit output t .immediate memory isDst = .ok (output, memory') ∧
          memory'.operandValue.toInt = value)

/-- A number of a `.data` is treated rightly where its window tells it. -/
theorem dataExact_iff {t : Token} (htext : NumberText t.string.data) :
    DataExact t (literalValue t.string.data) ↔
      CheckedExactly (-16384) 16383 (literalValue t.string.data) := by
  rw [← truncated_within_iff (by decide) (by decide) (by decide) (by decide), ← htext.atoi_eq]
  constructor
  · intro h
    obtain ⟨analyzer', added, hrun, herrors, hiff, -⟩ := h
      { hash := [], errorHandler := errorHandlerInitialize stringCreate "", stderr := [] }
      { dataNumbers := [some t], hasParserError := false } (by simp) (by simp)
    obtain ⟨analyzer'', hrun', added', herrors', hiff'⟩ :=
      @analyzeDataNumbers_rangeReported t [some t] (by simp)
        { hash := [], errorHandler := errorHandlerInitialize stringCreate "", stderr := [] }
    obtain rfl := Except.ok.inj (hrun.symm.trans hrun')
    obtain rfl := List.append_cancel_left (herrors.symm.trans herrors')
    rw [← not_iff_not, ← hiff, hiff']
    simp
  · intro h analyzer node hnone hmem
    obtain ⟨analyzer', hrun, added, herrors, hiff⟩ :=
      analyzeDataNumbers_rangeReported hnone analyzer
    refine ⟨analyzer', added, hrun, herrors, ?_, ?_⟩
    · rw [hiff, h]
      simp [hmem]
    · intro hfree output
      have hin : Within (-16384) 16383 (literalValue t.string.data) := by
        rw [hiff, h] at hfree
        simpa [hmem] using hfree
      refine ⟨_, rfl, ?_⟩
      rw [htext.atoi_eq, truncated_eq_of_within (by decide) (by decide) hin,
        wordOf_intTo2Complement]
      exact valueWord_toInt hin.1 hin.2

/-- So is an immediate operand, in its own window. -/
theorem immediateExact_iff {t : Token} (htype : t.type = .number)
    (htext : NumberText t.string.data) :
    ImmediateExact t (literalValue t.string.data) ↔
      CheckedExactly (-2048) 2047 (literalValue t.string.data) := by
  rw [← truncated_within_iff (by decide) (by decide) (by decide) (by decide), ← htext.atoi_eq]
  constructor
  · intro h
    have hcount : RightCount { InstructionNode.zero with
        operation := some { defaultToken with type := .prn }
        firstOperand := some t } := ⟨_, rfl, rfl⟩
    obtain ⟨added, herrors, hiff, -⟩ := h
      { hash := [], errorHandler := errorHandlerInitialize stringCreate "", stderr := [] }
      _ hcount (Or.inl rfl)
    obtain ⟨added', herrors', hiff'⟩ := analyzeInstruction_rangeReported hcount
      { hash := [], errorHandler := errorHandlerInitialize stringCreate "", stderr := [] } htype
    obtain rfl := List.append_cancel_left (herrors.symm.trans herrors')
    rw [← not_iff_not, ← hiff, hiff']
    simp
  · intro h analyzer node hcount hmem
    obtain ⟨added, herrors, hiff⟩ := analyzeInstruction_rangeReported hcount analyzer htype
    refine ⟨added, herrors, ?_, ?_⟩
    · rw [hiff, h]
      simp [hmem]
    · intro hfree unit output memory isDst
      have hin : Within (-2048) 2047 (literalValue t.string.data) := by
        rw [hiff, h] at hfree
        simpa [hmem] using hfree
      refine ⟨_, rfl, ?_⟩
      rw [htext.atoi_eq, truncated_eq_of_within (by decide) (by decide) hin]
      exact immediate_toInt hin.1 hin.2

/-- **The range checks are exact** for the literals that do not come back into the
range when they are saturated and cut. -/
theorem semanticAnalyzer_ranges_iff {lexer : Lexer} (hlexed : LexerOutput lexer) {t : Token}
    (ht : t ∈ lexer.tokenList) (htype : t.type = .number) :
    (DataExact t (literalValue t.string.data) ↔
      CheckedExactly (-16384) 16383 (literalValue t.string.data)) ∧
    (ImmediateExact t (literalValue t.string.data) ↔
      CheckedExactly (-2048) 2047 (literalValue t.string.data)) := by
  have htext := hlexed.numberText t ht htype
  exact ⟨dataExact_iff htext, immediateExact_iff htype htext⟩

/-- A number that both windows hold. -/
theorem semanticAnalyzer_ranges_sample :
    ∃ t ∈ (sampleLexer ".data -7\n").tokenList, t.type = .number ∧
      literalValue t.string.data = -7 ∧ DataExact t (literalValue t.string.data) ∧
      ImmediateExact t (literalValue t.string.data) := by
  obtain ⟨t, ht, htype, hvalue⟩ : ∃ t ∈ (sampleLexer ".data -7\n").tokenList,
      t.type = .number ∧ literalValue t.string.data = -7 := by decide +kernel
  have hranges := semanticAnalyzer_ranges_iff (LexerOutput.file _ _) ht htype
  refine ⟨t, ht, htype, hvalue, hranges.1.mpr ?_, hranges.2.mpr ?_⟩
  · exact Or.inl (hvalue ▸ by decide)
  · exact Or.inl (hvalue ▸ by decide)

/-- The number behind the greatest `unsigned int` is taken for zero. -/
theorem semanticAnalyzer_wraps :
    ∃ t ∈ (sampleLexer ".data 4294967296\n").tokenList, t.type = .number ∧
      literalValue t.string.data = 4294967296 ∧ ¬ DataExact t (literalValue t.string.data) ∧
      ¬ ImmediateExact t (literalValue t.string.data) := by
  obtain ⟨t, ht, htype, hvalue⟩ : ∃ t ∈ (sampleLexer ".data 4294967296\n").tokenList,
      t.type = .number ∧ literalValue t.string.data = 4294967296 := by decide +kernel
  have htext := (LexerOutput.file _ _).numberText t ht htype
  have hzero : ∀ {low high : Int}, Within low high 0 → high < 4294967296 →
      ¬ CheckedExactly low high (literalValue t.string.data) := by
    intro low high hin hsmall hcases
    rcases hcases with hwithin | ⟨-, -, hnone⟩
    · rw [hvalue] at hwithin
      exact absurd hwithin.2 (by omega)
    · exact hnone 1 (by rw [hvalue]; exact hin)
  refine ⟨t, ht, htype, hvalue, ?_, ?_⟩
  · rw [dataExact_iff htext]
    exact hzero (by decide) (by decide)
  · rw [immediateExact_iff htype htext]
    exact hzero (by decide) (by decide)

end Assembler
