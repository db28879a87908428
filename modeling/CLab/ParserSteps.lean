import CLab.Grammar

/-!
# What one routine of the parser does

For each routine: a statement of the grammar at the cursor is read exactly
(`parses`), and anything else is an error that is recorded (`cases`).  An error
never takes tokens back, so every loop of the parser ends.
-/

namespace Assembler

@[simp] theorem setTokens_tokens (unit : TranslationUnit) (tokens : List Token) :
    (unit.setTokens tokens).tokens = tokens := rfl

@[simp] theorem setTokens_setTokens (unit : TranslationUnit) (tokens tokens' : List Token) :
    (unit.setTokens tokens).setTokens tokens' = unit.setTokens tokens' := rfl

/-- Setting what is there already changes nothing. -/
theorem setTokens_eq_self {unit : TranslationUnit} {tokens : List Token}
    (h : unit.tokens = tokens) : unit.setTokens tokens = unit := by
  subst h
  rfl

/-! ## Errors -/

/-- How many errors the unit has reported so far. -/
def TranslationUnit.errorCount (unit : TranslationUnit) : Nat :=
  unit.errorHandler.errorList.length

@[simp] theorem setTokens_errorCount (unit : TranslationUnit) (tokens : List Token) :
    (unit.setTokens tokens).errorCount = unit.errorCount := rfl

/-- No error is lost and no token taken back. -/
structure Grows (unit unit' : TranslationUnit) : Prop where
  errors : unit.errorCount ≤ unit'.errorCount
  tokens : unit'.tokens <:+ unit.tokens

/-- An error was recorded, and no token taken back. -/
structure Failed (unit unit' : TranslationUnit) : Prop where
  errors : unit.errorCount < unit'.errorCount
  tokens : unit'.tokens <:+ unit.tokens

/-- A failure is growth. -/
theorem Failed.grows {unit unit' : TranslationUnit} (h : Failed unit unit') :
    Grows unit unit' := ⟨Nat.le_of_lt h.errors, h.tokens⟩

/-- A failure behind any steps is a failure. -/
theorem Grows.failed {unit unit' unit'' : TranslationUnit} (h : Grows unit unit')
    (h' : Failed unit' unit'') : Failed unit unit'' :=
  ⟨Nat.lt_of_le_of_lt h.errors h'.errors, h'.tokens.trans h.tokens⟩

theorem Failed.trans {unit unit' unit'' : TranslationUnit} (h : Failed unit unit')
    (h' : Grows unit' unit'') : Failed unit unit'' :=
  ⟨Nat.lt_of_lt_of_le h.errors h'.errors, h'.tokens.trans h.tokens⟩

/-- Growth is transitive. -/
theorem Grows.trans {unit unit' unit'' : TranslationUnit} (h : Grows unit unit')
    (h' : Grows unit' unit'') : Grows unit unit'' :=
  ⟨Nat.le_trans h.errors h'.errors, h'.tokens.trans h.tokens⟩

/-- Stepping on in the list is growth. -/
theorem grows_setTokens {unit : TranslationUnit} {tokens : List Token}
    (h : tokens <:+ unit.tokens) : Grows unit (unit.setTokens tokens) :=
  ⟨Nat.le_refl _, h⟩

/-- The end of the line lies inside the list. -/
theorem endOfLine_suffix (tokens : List Token) : endOfLine tokens <:+ tokens := by
  induction tokens with
  | nil => exact List.suffix_refl _
  | cons token rest ih =>
      rw [endOfLine]
      split_ifs
      · exact List.suffix_cons _ _
      · exact List.suffix_refl _
      · exact ih.trans (List.suffix_cons _ _)

/-- Away from the end of a line at least one token is skipped. -/
theorem endOfLine_cons {token : Token} {rest : List Token}
    (h : token.type ≠ .eol ∧ token.type ≠ .eoft) :
    endOfLine (token :: rest) = endOfLine rest := by
  rw [endOfLine, if_neg h.1, if_neg h.2]

/-- An error that is added is counted. -/
theorem addError_errorCount (unit : TranslationUnit) (message : String) (token : Token) :
    (unit.addError message token).errorCount = unit.errorCount + 1 := by
  simp [TranslationUnit.addError, TranslationUnit.errorCount]

/-- An error that is reported is counted once. -/
theorem reportError_errorCount (unit : TranslationUnit) (message : String) (token : Token) :
    (unit.reportError message token).errorCount = unit.errorCount + 1 :=
  addError_errorCount unit message token

/-- Behind a report the parser stands at the end of the line. -/
@[simp] theorem reportError_tokens (unit : TranslationUnit) (message : String) (token : Token) :
    (unit.reportError message token).tokens = endOfLine unit.tokens := rfl

/-- Adding an error is a failure. -/
theorem failed_addError (unit : TranslationUnit) (message : String) (token : Token) :
    Failed unit (unit.addError message token) :=
  ⟨by rw [addError_errorCount]; omega, List.suffix_refl _⟩

theorem failed_reportError (unit : TranslationUnit) (message : String) (token : Token) :
    Failed unit (unit.reportError message token) :=
  ⟨by rw [reportError_errorCount]; omega, endOfLine_suffix _⟩

/-! ## Ends of lines -/

/-- At a line end the parser sees one. -/
theorem LineEnd.atLineEnd {after rest : List Token} (h : LineEnd after rest) :
    atLineEnd after = true := by
  cases h with
  | eol heol => simp [Assembler.atLineEnd, heol]
  | eoft heoft => simp [Assembler.atLineEnd, heoft]
  | null => rfl

/-- What the parser takes for a line end is one. -/
theorem exists_lineEnd {after : List Token} (h : atLineEnd after = true) :
    ∃ rest, LineEnd after rest := by
  cases after with
  | nil => exact ⟨[], .null⟩
  | cons token rest =>
      simp only [atLineEnd, Bool.or_eq_true, decide_eq_true_eq] at h
      rcases h with heol | heoft
      · exact ⟨rest, .eol heol⟩
      · exact ⟨token :: rest, .eoft heoft⟩

/-- The next line lies inside the list. -/
theorem LineEnd.suffix {after rest : List Token} (h : LineEnd after rest) :
    rest <:+ after := by
  cases h with
  | eol => exact List.suffix_cons _ _
  | eoft => exact List.suffix_refl _
  | null => exact List.suffix_refl _

/-- The end of a line is where an error would have gone on. -/
theorem LineEnd.endOfLine {after rest : List Token} (h : LineEnd after rest) :
    endOfLine after = rest := by
  cases h with
  | eol heol => simp [Assembler.endOfLine, heol]
  | eoft heoft => simp [Assembler.endOfLine, heoft]
  | null => rfl

/-! ## Operands and instructions -/

/-- The second list is left of the first behind its first token, or later. -/
def Behind (tokens rest : List Token) : Prop :=
  ∃ token rest', tokens = token :: rest' ∧ rest <:+ rest'

/-- What lies behind is a suffix of the list. -/
theorem Behind.suffix {tokens rest : List Token} (h : Behind tokens rest) :
    rest <:+ tokens := by
  obtain ⟨token, rest', rfl, hsuffix⟩ := h
  exact hsuffix.trans (List.suffix_cons _ _)

theorem Behind.length {tokens rest : List Token} (h : Behind tokens rest) :
    rest.length < tokens.length := by
  obtain ⟨token, rest', rfl, hsuffix⟩ := h
  exact Nat.lt_succ_of_le hsuffix.length_le

/-- A suffix lies behind any token put before it. -/
theorem behind_cons {token : Token} {tokens rest : List Token} (h : rest <:+ tokens) :
    Behind (token :: tokens) rest := ⟨token, tokens, rfl, h⟩

/-- Behind a first token is a suffix of the others. -/
theorem Behind.of_cons {token : Token} {tokens rest : List Token}
    (h : Behind (token :: tokens) rest) : rest <:+ tokens := by
  obtain ⟨token', rest', heq, hsuffix⟩ := h
  rwa [(List.cons.inj heq).2]

/-- A suffix of what lies behind lies behind too. -/
theorem Behind.trans {tokens middle rest : List Token} (h : Behind tokens middle)
    (h' : rest <:+ middle) : Behind tokens rest := by
  obtain ⟨token, rest', rfl, hsuffix⟩ := h
  exact behind_cons (h'.trans hsuffix)

/-- What is left is left behind the first token. -/
theorem Operand.behind {tokens rest : List Token} {operand : Token} {deref : Bool}
    (h : Operand tokens operand deref rest) : Behind tokens rest := by
  cases h with
  | immediate => exact ⟨_, _, rfl, List.suffix_cons _ _⟩
  | direct => exact ⟨_, _, rfl, List.suffix_refl _⟩
  | dereferenced => exact ⟨_, _, rfl, List.suffix_cons _ _⟩

/-- The parser reads an operand of the grammar as the grammar does. -/
theorem Operand.parses {tokens rest : List Token} {operand : Token} {deref : Bool}
    (h : Operand tokens operand deref rest) (unit : TranslationUnit) :
    parseOperand (unit.setTokens tokens) =
      (unit.setTokens rest, { operand := some operand, isDereferenced := deref }, false) := by
  cases h with
  | immediate hhashtag hnumber => simp [parseOperand, hhashtag, hnumber]
  | direct hoperand =>
      rcases hoperand with hoperand | hoperand <;> simp [parseOperand, hoperand]
  | dereferenced hstar hoperand => simp [parseOperand, hstar, hoperand]

/-- The first token of an operand does not end a line. -/
theorem Operand.not_atLineEnd {tokens rest : List Token} {operand : Token} {deref : Bool}
    (h : Operand tokens operand deref rest) : atLineEnd tokens = false := by
  cases h with
  | immediate hhashtag hnumber => simp [atLineEnd, hhashtag]
  | direct hoperand => rcases hoperand with hoperand | hoperand <;> simp [atLineEnd, hoperand]
  | dereferenced hstar hoperand => simp [atLineEnd, hstar]

/-- It either reads an operand of the grammar or gives up with an error. -/
theorem parseOperand_cases (unit : TranslationUnit) :
    ((parseOperand unit).2.2 = true ∧
      (Failed unit (parseOperand unit).1 ∨ unit.tokens = [] ∧ (parseOperand unit).1 = unit)) ∨
    ∃ operand deref rest, Operand unit.tokens operand deref rest ∧
      parseOperand unit =
        (unit.setTokens rest, { operand := some operand, isDereferenced := deref }, false) := by
  unfold parseOperand
  cases htokens : unit.tokens with
  | nil => exact Or.inl ⟨rfl, Or.inr ⟨rfl, rfl⟩⟩
  | cons current rest =>
      simp only
      by_cases hhash : current.type = .hashtag
      · rw [if_pos hhash]
        cases rest with
        | nil => exact Or.inl ⟨rfl, Or.inl (failed_reportError _ _ _)⟩
        | cons next rest =>
            simp only
            by_cases hnumber : next.type = .number
            · rw [if_neg (not_not_intro hnumber)]
              exact Or.inr ⟨_, _, _, .immediate hhash hnumber, rfl⟩
            · rw [if_pos hnumber]
              exact Or.inl ⟨rfl, Or.inl (failed_reportError _ _ _)⟩
      · rw [if_neg hhash]
        by_cases hstar : current.type = .star
        · rw [if_pos hstar]
          cases rest with
          | nil => exact Or.inl ⟨rfl, Or.inl (failed_reportError _ _ _)⟩
          | cons next rest =>
              simp only
              by_cases hnext : next.type = .register ∨ next.type = .identifier
              · rw [if_pos hnext]
                exact Or.inr ⟨_, _, _, .dereferenced hstar hnext, rfl⟩
              · rw [if_neg hnext]
                exact Or.inl ⟨rfl, Or.inl (failed_reportError _ _ _)⟩
        · rw [if_neg hstar]
          by_cases hcurrent : current.type = .register ∨ current.type = .identifier
          · rw [if_pos hcurrent]
            exact Or.inr ⟨_, _, _, .direct hcurrent, rfl⟩
          · rw [if_neg hcurrent]
            exact Or.inl ⟨rfl, Or.inl (failed_reportError _ _ _)⟩

/-- An instruction takes up at least one token. -/
theorem Instruction.behind {ending : Ending} {tokens after : List Token}
    {node : InstructionNode} (h : Instruction ending tokens node after) :
    Behind tokens after := by
  cases h with
  | noOperands => exact behind_cons (List.suffix_refl _)
  | oneOperand _ hfirst => exact behind_cons hfirst.behind.suffix
  | twoOperands _ hfirst _ hsecond =>
      have hcomma := (List.suffix_cons _ _).trans hfirst.behind.suffix
      exact behind_cons (hsecond.behind.suffix.trans hcomma)
  | cut => exact behind_cons (List.nil_suffix)

theorem Instruction.atLineEnd {ending : Ending} {tokens after : List Token}
    {node : InstructionNode} (h : Instruction ending tokens node after) :
    atLineEnd after = true := by
  cases h <;> first | assumption | rfl

/-- The parser reads an instruction of the grammar as the grammar does. -/
theorem Instruction.parses {ending : Ending} {tokens after : List Token}
    {node : InstructionNode} (h : Instruction ending tokens node after)
    (unit : TranslationUnit) :
    parserParseInstruction (unit.setTokens tokens) = (unit.setTokens after, node) := by
  cases h with
  | noOperands hop hend => simp [parserParseInstruction, hop, hend]
  | oneOperand hop hfirst hend =>
      simp only [parserParseInstruction, setTokens_tokens, hop, Bool.true_eq_false, if_false,
        hfirst.not_atLineEnd, Bool.false_eq_true, setTokens_setTokens, parseFirstOperand,
        hfirst.parses]
      cases after with
      | nil => rfl
      | cons next rest =>
          have hnext : next.type = .eol ∨ next.type = .eoft := by
            simpa [Assembler.atLineEnd] using hend
          simp [hnext, InstructionNode.zero]
  | twoOperands hop hfirst hcomma hsecond hend =>
      simp [parserParseInstruction, hop, hfirst.not_atLineEnd, parseFirstOperand,
        hfirst.parses, hcomma, parseSecondOperand, hsecond.parses, hend, InstructionNode.zero]
  | cut hop hfirst hcomma =>
      have hnull : parseOperand (unit.setTokens []) =
          (unit.setTokens [], { operand := none, isDereferenced := false }, true) := rfl
      simp [parserParseInstruction, hop, hfirst.not_atLineEnd, parseFirstOperand,
        hfirst.parses, hcomma, parseSecondOperand, hnull, InstructionNode.zero]

/-- Behind the comma the list ends, or an operand is read with the end of its
line, or an error is recorded. -/
theorem parseSecondOperand_cases (unit : TranslationUnit) (node : InstructionNode) :
    Failed unit (parseSecondOperand unit node).1 ∨
    (unit.tokens = [] ∧
      parseSecondOperand unit node = (unit, { node with hasParserError := true })) ∨
    ∃ second deref after, Operand unit.tokens second deref after ∧ atLineEnd after = true ∧
      parseSecondOperand unit node = (unit.setTokens after,
        { node with secondOperand := some second, isSecondOperandDerefrenced := deref }) := by
  rw [parseSecondOperand]
  rcases parseOperand_cases unit with ⟨herr, hfailed | ⟨hnull, hsame⟩⟩ | hread
  · simp only [herr, if_true]
    exact Or.inl hfailed
  · simp only [herr, if_true, hsame]
    exact Or.inr (Or.inl ⟨hnull, trivial⟩)
  · obtain ⟨second, deref, after, hsecond, hparse⟩ := hread
    simp only [hparse, Bool.false_eq_true, if_false, setTokens_tokens]
    by_cases hend : atLineEnd after = true
    · rw [if_pos hend]
      exact Or.inr (Or.inr ⟨second, deref, after, hsecond, hend, rfl⟩)
    · rw [if_neg hend]
      exact Or.inl ((grows_setTokens hsecond.behind.suffix).failed (failed_reportError _ _ _))

/-- An instruction is read, or an error is recorded behind its operation. -/
theorem parserParseInstruction_cases {unit : TranslationUnit} {operation : Token}
    {rest : List Token} (htokens : unit.tokens = operation :: rest)
    (hop : isInstructionToken operation.type = true) :
    Failed (unit.setTokens rest) (parserParseInstruction unit).1 ∨
    ∃ ending node after, Instruction ending unit.tokens node after ∧
      parserParseInstruction unit = (unit.setTokens after, node) := by
  have hnop : ¬ isInstructionToken operation.type = false := by simp [hop]
  rw [htokens]
  by_cases hend : atLineEnd rest = true
  · refine Or.inr ⟨_, _, _, .noOperands hop hend, ?_⟩
    rw [parserParseInstruction, htokens]
    simp only [if_neg hnop, if_pos hend]
  · have hstep : parserParseInstruction unit = parseFirstOperand (unit.setTokens rest)
        { InstructionNode.zero with operation := some operation } := by
      rw [parserParseInstruction, htokens]
      simp only [if_neg hnop, if_neg hend]
    rw [hstep, parseFirstOperand]
    rcases parseOperand_cases (unit.setTokens rest) with ⟨herr, hfailed⟩ | hread
    · -- the line does not end here, so the list does not end here
      have hne : rest ≠ [] := by
        intro h
        exact hend (by rw [h]; rfl)
      apply Or.inl
      simp only [herr, if_true]
      exact hfailed.resolve_right (fun h => hne h.1)
    · obtain ⟨first, deref, after, hfirst, hparse⟩ := hread
      simp only [hparse, Bool.false_eq_true, if_false, setTokens_tokens] at hfirst ⊢
      cases after with
      | nil =>
          exact Or.inr ⟨_, _, _, .oneOperand hop hfirst rfl, rfl⟩
      | cons next after =>
          simp only
          have hsuffix := hfirst.behind.suffix
          by_cases hnext : next.type = .eol ∨ next.type = .eoft
          · rw [if_pos hnext]
            refine Or.inr ⟨_, _, _, .oneOperand hop hfirst ?_, rfl⟩
            simpa [atLineEnd] using hnext
          · rw [if_neg hnext]
            have hgrows : Grows (unit.setTokens rest) (unit.setTokens (next :: after)) :=
              grows_setTokens hsuffix
            by_cases hcomma : next.type = .comma
            · rw [if_neg (not_not_intro hcomma)]
              have hgrows' : Grows (unit.setTokens rest) (unit.setTokens after) :=
                grows_setTokens ((List.suffix_cons _ _).trans hsuffix)
              rcases parseSecondOperand_cases (unit.setTokens after)
                { InstructionNode.zero with
                  operation := some operation
                  firstOperand := some first
                  isFirstOperandDerefrenced := deref } with hfailed | ⟨hnull, hcut⟩ | hsecond
              · exact Or.inl (hgrows'.failed hfailed)
              · obtain rfl : after = [] := hnull
                exact Or.inr ⟨_, _, _, .cut hop hfirst hcomma, hcut⟩
              · obtain ⟨second, deref', after', hread, hend', hparse'⟩ := hsecond
                exact Or.inr ⟨_, _, _, .twoOperands hop hfirst hcomma hread hend',
                  hparse'⟩
            · rw [if_pos hcomma]
              exact Or.inl (hgrows.failed (failed_reportError _ _ _))

/-! ## Directives -/

/-- A list of numbers holds at least one. -/
theorem Numbers.ne_nil {ending : Ending} {tokens numbers rest : List Token}
    (h : Numbers ending tokens numbers rest) : numbers ≠ [] := by
  cases h <;> exact List.cons_ne_nil _ _

/-- The numbers take up at least one token. -/
theorem Numbers.behind {ending : Ending} {tokens numbers rest : List Token}
    (h : Numbers ending tokens numbers rest) : Behind tokens rest := by
  induction h with
  | last _ hend => exact behind_cons hend.suffix
  | comma => exact behind_cons (List.suffix_cons _ _)
  | cut => exact behind_cons List.nil_suffix
  | cons _ _ _ ih => exact behind_cons (ih.suffix.trans (List.suffix_cons _ _))

/-- A directive with a number ends without an error. -/
theorem finishDataDirective_of_ne {node : DataNode} (h : node.dataNumbers ≠ [])
    (unit : TranslationUnit) : finishDataDirective unit node = (unit, node) := by
  rw [finishDataDirective, if_neg h]

/-- The parser reads the numbers as the grammar does. -/
theorem Numbers.parses {ending : Ending} {tokens numbers rest : List Token}
    (h : Numbers ending tokens numbers rest) (unit : TranslationUnit) (node : DataNode) :
    parseDataNumbers unit node tokens = (unit.setTokens rest,
      { node with dataNumbers := node.dataNumbers ++ numbers.map some }) := by
  induction h generalizing node with
  | @last number after rest hnumber hend =>
      cases hend with
      | eol heol => simp [parseDataNumbers, hnumber, heol, finishDataDirective]
      | eoft heoft => simp [parseDataNumbers, hnumber, heoft, finishDataDirective]
      | null => simp [parseDataNumbers, hnumber, finishDataDirective]
  | comma hnumber hcomma heof =>
      simp [parseDataNumbers, hnumber, hcomma, heof, finishDataDirective]
  | cut hnumber hcomma => simp [parseDataNumbers, hnumber, hcomma, finishDataDirective]
  | cons hnumber hcomma _ ih => simp [parseDataNumbers, hnumber, hcomma, ih]

/-- The numbers at the cursor are read, or the list or file ends behind a comma,
or an error is recorded. -/
theorem parseDataNumbers_cases (unit : TranslationUnit) (node : DataNode)
    (tokens : List Token) :
    Failed (unit.setTokens tokens) (parseDataNumbers unit node tokens).1 ∨
    (∃ ending numbers rest, Numbers ending tokens numbers rest ∧
      parseDataNumbers unit node tokens = (unit.setTokens rest,
        { node with dataNumbers := node.dataNumbers ++ numbers.map some })) ∨
    (node.dataNumbers ≠ [] ∧ (tokens = [] ∨ ∃ eof rest, tokens = eof :: rest ∧ eof.type = .eoft) ∧
      parseDataNumbers unit node tokens = (unit.setTokens tokens, node)) := by
  induction hn : tokens.length using Nat.strong_induction_on generalizing node tokens with
  | h n ih =>
      have hfinish : ∀ tokens' : List Token, node.dataNumbers = [] →
          Failed (unit.setTokens tokens')
            (finishDataDirective (unit.setTokens tokens') node).1 := by
        intro tokens' hnone
        rw [finishDataDirective, if_pos hnone]
        exact failed_addError _ _ _
      cases tokens with
      | nil =>
          by_cases hnone : node.dataNumbers = []
          · exact Or.inl (hfinish [] hnone)
          · refine Or.inr (Or.inr ⟨hnone, Or.inl rfl, ?_⟩)
            rw [parseDataNumbers, finishDataDirective_of_ne hnone]
      | cons token rest =>
          by_cases heof : token.type = .eoft
          · have hstep : parseDataNumbers unit node (token :: rest) =
                finishDataDirective (unit.setTokens (token :: rest)) node := by
              rw [parseDataNumbers, if_pos heof]
            rw [hstep]
            by_cases hnone : node.dataNumbers = []
            · exact Or.inl (hfinish _ hnone)
            · refine Or.inr (Or.inr ⟨hnone, Or.inr ⟨token, rest, rfl, heof⟩, ?_⟩)
              rw [finishDataDirective_of_ne hnone]
          by_cases hnumber : token.type = .number
          · -- a number: what stands behind it decides
            cases rest with
            | nil =>
                have hread : Numbers .closed [token] [token] [] := .last hnumber .null
                exact Or.inr (Or.inl ⟨_, _, _, hread, hread.parses unit node⟩)
            | cons next rest =>
                by_cases hend : atLineEnd (next :: rest) = true
                · obtain ⟨rest', hend⟩ := exists_lineEnd hend
                  have hread : Numbers .closed (token :: next :: rest) [token] rest' :=
                    .last hnumber hend
                  exact Or.inr (Or.inl ⟨_, _, _, hread, hread.parses unit node⟩)
                have hnext : next.type ≠ .eol ∧ next.type ≠ .eoft := by
                  simpa [atLineEnd] using hend
                by_cases hcomma : next.type = .comma
                · have hstep : parseDataNumbers unit node (token :: next :: rest) =
                      parseDataNumbers unit
                        { node with dataNumbers := node.dataNumbers ++ [some token] } rest := by
                    simp [parseDataNumbers, hnumber, hcomma]
                  have hgrows : Grows (unit.setTokens (token :: next :: rest))
                      (unit.setTokens rest) :=
                    grows_setTokens ((List.suffix_cons _ _).trans (List.suffix_cons _ _))
                  rw [hstep]
                  rcases ih rest.length (by rw [← hn]; simp only [List.length_cons]; omega)
                    { node with dataNumbers := node.dataNumbers ++ [some token] } rest rfl
                    with hfailed | ⟨ending, numbers, rest', hread, hparse⟩ | ⟨-, hstop, hparse⟩
                  · exact Or.inl (hgrows.failed hfailed)
                  · refine Or.inr (Or.inl ⟨_, _, _, .cons hnumber hcomma hread, ?_⟩)
                    rw [hparse]
                    simp
                  · rcases hstop with rfl | ⟨eof, rest', rfl, heof'⟩
                    · exact Or.inr (Or.inl ⟨_, _, _, .cut hnumber hcomma, hparse⟩)
                    · exact Or.inr (Or.inl ⟨_, _, _, .comma hnumber hcomma heof', hparse⟩)
                · have hstep : (parseDataNumbers unit node (token :: next :: rest)).1 =
                      (unit.setTokens (next :: rest)).reportError
                        "Expected comma or end of line after number in .data directive" next := by
                    simp [parseDataNumbers, hnumber, hcomma, hnext]
                  have hgrows : Grows (unit.setTokens (token :: next :: rest))
                      (unit.setTokens (next :: rest)) := grows_setTokens (List.suffix_cons _ _)
                  rw [hstep]
                  exact Or.inl (hgrows.failed (failed_reportError _ _ _))
          · have hstep : (parseDataNumbers unit node (token :: rest)).1 =
                (unit.setTokens (token :: rest)).reportError
                  "Expected number in .data directive" token := by
              simp [parseDataNumbers, heof, hnumber]
            rw [hstep]
            exact Or.inl (failed_reportError _ _ _)

/-- A directive takes up at least one token. -/
theorem GuidanceLine.behind {ending : Ending} {tokens rest : List Token} {node : GuidanceNode}
    (h : GuidanceLine ending tokens node rest) : Behind tokens rest := by
  cases h with
  | data _ hnumbers => exact behind_cons hnumbers.behind.suffix
  | string _ _ hend => exact behind_cons (hend.suffix.trans (List.suffix_cons _ _))

/-- The parser reads a directive of the grammar as the grammar does. -/
theorem GuidanceLine.parses {ending : Ending} {tokens rest : List Token} {node : GuidanceNode}
    (h : GuidanceLine ending tokens node rest) (unit : TranslationUnit)
    (nodes : List GuidanceNode) :
    guidanceListRound (unit.setTokens tokens, nodes) = (unit.setTokens rest, nodes ++ [node]) := by
  cases h with
  | data hdirective hnumbers =>
      simp only [guidanceListRound, setTokens_tokens, hdirective, reduceCtorEq, if_false,
        if_true, parseDataDirectiveGuidance, ne_eq, not_true_eq_false, List.nil_append,
        hnumbers.parses]
      rfl
  | string hdirective hstring hend =>
      cases hend with
      | eol heol =>
          simp [guidanceListRound, hdirective, parseStringDirectiveGuidance, hstring, heol]
      | eoft heoft =>
          simp [guidanceListRound, hdirective, parseStringDirectiveGuidance, hstring, heoft]
      | null => simp [guidanceListRound, hdirective, parseStringDirectiveGuidance, hstring]

/-- A directive is read, or an error is recorded behind its keyword. -/
theorem guidanceListRound_cases {unit : TranslationUnit} {directive : Token} {rest : List Token}
    (htokens : unit.tokens = directive :: rest) (hdirective : isGuidanceToken directive.type = true)
    (nodes : List GuidanceNode) :
    Failed (unit.setTokens rest) (guidanceListRound (unit, nodes)).1 ∨
    ∃ ending node rest', GuidanceLine ending unit.tokens node rest' ∧
      guidanceListRound (unit, nodes) = (unit.setTokens rest', nodes ++ [node]) := by
  have hread : (∃ ending node rest', GuidanceLine ending (directive :: rest) node rest') →
      ∃ ending node rest', GuidanceLine ending (directive :: rest) node rest' ∧
        guidanceListRound (unit, nodes) = (unit.setTokens rest', nodes ++ [node]) := by
    intro h
    obtain ⟨ending, node, rest', hline⟩ := h
    refine ⟨ending, node, rest', hline, ?_⟩
    have hparse := hline.parses unit nodes
    rwa [setTokens_eq_self htokens] at hparse
  rw [htokens]
  simp only [isGuidanceToken, Bool.or_eq_true, decide_eq_true_eq] at hdirective
  rcases hdirective with hdata | hstring
  · rcases parseDataNumbers_cases unit { dataNumbers := [], hasParserError := false } rest
      with hfailed | ⟨ending, numbers, rest', hnumbers, -⟩ | ⟨hne, -⟩
    · apply Or.inl
      have hstep : (guidanceListRound (unit, nodes)).1 =
          (parseDataNumbers unit { dataNumbers := [], hasParserError := false } rest).1 := by
        simp [guidanceListRound, htokens, hdata, parseDataDirectiveGuidance]
      rw [hstep]
      exact hfailed
    · exact Or.inr (hread ⟨_, _, _, .data hdata hnumbers⟩)
    · exact absurd rfl hne
  · have hstep : (guidanceListRound (unit, nodes)).1 = (parseStringDirectiveGuidance unit).1 := by
      simp [guidanceListRound, htokens, hstring]
    rw [hstep]
    cases rest with
    | nil =>
        apply Or.inl
        simp only [parseStringDirectiveGuidance, htokens, hstring, ne_eq, not_true_eq_false,
          if_false]
        exact failed_reportError _ _ _
    | cons string rest =>
        by_cases htype : string.type = .string
        · by_cases hend : atLineEnd rest = true
          · obtain ⟨rest', hend⟩ := exists_lineEnd hend
            exact Or.inr (hread ⟨_, _, _, .string hstring htype hend⟩)
          · apply Or.inl
            cases rest with
            | nil => exact absurd rfl hend
            | cons next rest =>
                have hnext : next.type ≠ .eol ∧ next.type ≠ .eoft := by
                  simpa [atLineEnd] using hend
                have hgrows : Grows (unit.setTokens (string :: next :: rest))
                    (unit.setTokens (next :: rest)) := grows_setTokens (List.suffix_cons _ _)
                simp only [parseStringDirectiveGuidance, htokens, hstring, htype, ne_eq,
                  not_true_eq_false, if_false, hnext, not_false_eq_true, and_self, if_true]
                exact hgrows.failed (failed_reportError _ _ _)
        · apply Or.inl
          simp only [parseStringDirectiveGuidance, htokens, hstring, ne_eq, not_true_eq_false,
            if_false, htype, not_false_eq_true, if_true]
          exact failed_reportError _ _ _

/-! ## Lists of lines -/

/-- The list or the file ends here. -/
def AtEnd (tokens : List Token) : Prop :=
  tokens = [] ∨ ∃ eof rest, tokens = eof :: rest ∧ eof.type = .eoft

/-- A routine that reads one kind of line, one line a round. -/
structure LineReader {α : Type} (Line : Ending → List Token → α → List Token → Prop)
    (accepts : TokenType → Bool)
    (round : TranslationUnit × List α → TranslationUnit × List α) : Prop where
  accepts_eol : accepts .eol = false
  accepts_eoft : accepts .eoft = false
  starts : ∀ {ending tokens node rest}, Line ending tokens node rest →
    ∃ token rest', tokens = token :: rest' ∧ accepts token.type = true
  behind : ∀ {ending tokens node rest}, Line ending tokens node rest → Behind tokens rest
  atEnd : ∀ {ending tokens node rest}, ending ≠ .closed → Line ending tokens node rest →
    AtEnd rest
  blank : ∀ (unit : TranslationUnit) {eol : Token} (rest : List Token) (nodes : List α),
    eol.type = .eol → round (unit.setTokens (eol :: rest), nodes) = (unit.setTokens rest, nodes)
  parses : ∀ {ending tokens node rest}, Line ending tokens node rest →
    ∀ (unit : TranslationUnit) (nodes : List α),
      round (unit.setTokens tokens, nodes) = (unit.setTokens rest, nodes ++ [node])
  cases : ∀ {unit : TranslationUnit} {token : Token} {rest : List Token} (nodes : List α),
    unit.tokens = token :: rest → accepts token.type = true →
      Failed (unit.setTokens rest) (round (unit, nodes)).1 ∨
      ∃ ending node rest', Line ending (token :: rest) node rest' ∧
        round (unit, nodes) = (unit.setTokens rest', nodes ++ [node])

/-- The loop of a list of lines. -/
def listLoop {α : Type} (accepts : TokenType → Bool)
    (round : TranslationUnit × List α → TranslationUnit × List α)
    (s : TranslationUnit × List α) : TranslationUnit × List α :=
  While.loop (fun s => listGoesOn accepts s.1) round (fun s => s.1.tokens.length) s

namespace LineReader

variable {α : Type} {Line : Ending → List Token → α → List Token → Prop}
  {accepts : TokenType → Bool} {round : TranslationUnit × List α → TranslationUnit × List α}
  (reader : LineReader Line accepts round)

include reader

/-- At the end of the list or of the file the loop stops. -/
theorem stops_atEnd {unit : TranslationUnit} (h : AtEnd unit.tokens) :
    listGoesOn accepts unit = false := by
  unfold listGoesOn
  rcases h with h | ⟨eof, rest, h, heof⟩
  · simp [h]
  · simp [h, heof, reader.accepts_eoft]

/-- Every round of a list loop steps on in the list. -/
theorem round_length {s : TranslationUnit × List α} (hs : listGoesOn accepts s.1 = true) :
    (round s).1.tokens.length < s.1.tokens.length := by
  obtain ⟨unit, nodes⟩ := s
  unfold listGoesOn at hs
  cases htokens : unit.tokens with
  | nil => simp [htokens] at hs
  | cons token rest =>
      simp only [htokens, Bool.or_eq_true, decide_eq_true_eq] at hs
      rcases hs with heol | haccepts
      · have hround := reader.blank unit rest nodes heol
        rw [setTokens_eq_self htokens] at hround
        simp [hround]
      · rcases reader.cases nodes htokens haccepts with
          hfailed | ⟨ending, node, rest', hline, hround⟩
        · exact Nat.lt_succ_of_le hfailed.tokens.length_le
        · rw [hround]
          exact (reader.behind hline).length

/-- One round of the loop can be taken off it. -/
theorem loop_step {s : TranslationUnit × List α} (hs : listGoesOn accepts s.1 = true) :
    listLoop accepts round s = listLoop accepts round (round s) :=
  While.loop_step (fun _ => True) (fun _ _ _ => trivial)
    (fun _ hg _ => reader.round_length hg) trivial hs

/-- **Lines are read one after the other.** -/
theorem loop_lines {ending : Ending} {tokens rest : List Token} {nodes : List α}
    (h : Lines Line ending tokens nodes rest) (unit : TranslationUnit) (before : List α) :
    listLoop accepts round (unit.setTokens tokens, before) =
      listLoop accepts round (unit.setTokens rest, before ++ nodes) := by
  have hgo : ∀ {ending tokens node rest}, Line ending tokens node rest →
      listGoesOn accepts (unit.setTokens tokens) = true := by
    intro ending tokens node rest hline
    obtain ⟨token, rest', rfl, haccepts⟩ := reader.starts hline
    simp [listGoesOn, haccepts]
  induction h generalizing before with
  | nil => rw [List.append_nil]
  | blank heol _ ih =>
      rw [reader.loop_step (by simp [listGoesOn, heol]), reader.blank unit _ before heol, ih]
  | cons hline _ ih =>
      rw [reader.loop_step (hgo hline), reader.parses hline, ih, List.append_assoc,
        List.singleton_append]
  | last _ hline => rw [reader.loop_step (hgo hline), reader.parses hline]

/-- The tokens behind some lines are a suffix of the list. -/
theorem lines_suffix {ending : Ending} {tokens rest : List Token} {nodes : List α}
    (h : Lines Line ending tokens nodes rest) : rest <:+ tokens := by
  induction h with
  | nil => exact List.suffix_refl _
  | blank _ _ ih => exact ih.trans (List.suffix_cons _ _)
  | cons hline _ ih => exact ih.trans (reader.behind hline).suffix
  | last _ hline => exact (reader.behind hline).suffix

/-- There are no lines at the end. -/
theorem lines_atEnd {ending : Ending} {tokens rest : List Token} {nodes : List α}
    (h : Lines Line ending tokens nodes rest) (hend : AtEnd tokens) :
    ending = .closed ∧ nodes = [] ∧ rest = tokens := by
  have hline : ∀ {ending tokens node rest}, AtEnd tokens → ¬ Line ending tokens node rest := by
    intro ending tokens node rest hend hline
    obtain ⟨token, rest', rfl, haccepts⟩ := reader.starts hline
    rcases hend with hnil | ⟨eof, rest'', heq, heof⟩
    · exact List.cons_ne_nil _ _ hnil
    · rw [(List.cons.inj heq).1, heof, reader.accepts_eoft] at haccepts
      exact Bool.false_ne_true haccepts
  cases h with
  | nil => exact ⟨rfl, rfl, rfl⟩
  | blank heol _ =>
      rcases hend with hnil | ⟨eof, rest'', heq, heof⟩
      · exact absurd hnil (List.cons_ne_nil _ _)
      · rw [(List.cons.inj heq).1, heof] at heol
        exact absurd heol (by decide)
  | cons h _ => exact absurd h (hline hend)
  | last _ h => exact absurd h (hline hend)

/-- **What a list of lines can be**: lines of the grammar, as many as there
are, or an error that is recorded. -/
theorem loop_cases (s : TranslationUnit × List α) :
    Failed s.1 (listLoop accepts round s).1 ∨
    ∃ ending nodes rest, Lines Line ending s.1.tokens nodes rest ∧
      (ending ≠ .closed → AtEnd rest) ∧
      listLoop accepts round s = (s.1.setTokens rest, s.2 ++ nodes) := by
  let rel : TranslationUnit × List α → TranslationUnit × List α → Prop := fun s r =>
    Failed s.1 r.1 ∨ ∃ ending nodes rest, Lines Line ending s.1.tokens nodes rest ∧
      (ending ≠ .closed → AtEnd rest) ∧ r = (s.1.setTokens rest, s.2 ++ nodes)
  refine While.loop_induction (fun _ => True) (fun _ _ _ => trivial)
    (fun _ hg _ => reader.round_length hg) rel ?_ ?_ trivial
  · intro s _ _
    exact Or.inr ⟨_, [], _, .nil _, fun h => absurd rfl h,
      by rw [List.append_nil, setTokens_eq_self rfl]⟩
  · intro s r hs _ hround
    obtain ⟨unit, nodes⟩ := s
    unfold listGoesOn at hs
    cases htokens : unit.tokens with
    | nil => simp [htokens] at hs
    | cons token rest =>
        have hgrows : Grows unit (unit.setTokens rest) :=
          grows_setTokens (htokens ▸ List.suffix_cons _ _)
        simp only [htokens, Bool.or_eq_true, decide_eq_true_eq] at hs
        rcases hs with heol | haccepts
        · have hblank := reader.blank unit rest nodes heol
          rw [setTokens_eq_self htokens] at hblank
          rw [hblank] at hround
          rcases hround with hfailed | ⟨ending, nodes', rest', hlines, hend, rfl⟩
          · exact Or.inl (hgrows.failed hfailed)
          · have hread : Lines Line ending unit.tokens nodes' rest' :=
              htokens ▸ Lines.blank heol hlines
            exact Or.inr ⟨_, _, _, hread, hend, rfl⟩
        · rcases reader.cases nodes htokens haccepts with
            hfailed | ⟨ending, node, middle, hline, hstep⟩
          · have hgrows' : Grows (round (unit, nodes)).1 r.1 := by
              rcases hround with hfailed' | ⟨_, _, _, hlines, _, rfl⟩
              · exact hfailed'.grows
              · exact grows_setTokens (reader.lines_suffix hlines)
            exact Or.inl (hgrows.failed (hfailed.trans hgrows'))
          · rw [hstep] at hround
            have hmiddle : Grows unit (unit.setTokens middle) := by
              apply grows_setTokens
              rw [htokens]
              exact (reader.behind hline).suffix
            rcases hround with hfailed | ⟨ending', nodes', rest', hlines, hend, rfl⟩
            · exact Or.inl (hmiddle.failed hfailed)
            · by_cases hclosed : ending = .closed
              · subst hclosed
                have hread : Lines Line ending' unit.tokens (node :: nodes') rest' :=
                  htokens ▸ Lines.cons hline hlines
                exact Or.inr ⟨_, _, _, hread, hend, by simp⟩
              · have hatEnd := reader.atEnd hclosed hline
                obtain ⟨rfl, rfl, rfl⟩ := reader.lines_atEnd hlines hatEnd
                have hread : Lines Line ending unit.tokens [node] rest' :=
                  htokens ▸ Lines.last hclosed hline
                exact Or.inr ⟨_, _, _, hread, fun _ => hatEnd, by simp⟩

end LineReader

/-! ## The two readers -/

/-- A mnemonic ends no line. -/
theorem isInstructionToken_ne {type : TokenType} (h : isInstructionToken type = true) :
    type ≠ .eol ∧ type ≠ .eoft := by
  constructor <;> intro heq <;> rw [heq] at h <;> exact absurd h (by decide)

/-- Behind the last number the line ends. -/
theorem Numbers.atEnd {ending : Ending} {tokens numbers rest : List Token}
    (h : Numbers ending tokens numbers rest) (hending : ending ≠ .closed) : AtEnd rest := by
  induction h with
  | last => exact absurd rfl hending
  | comma _ _ heof => exact Or.inr ⟨_, _, rfl, heof⟩
  | cut => exact Or.inl rfl
  | cons _ _ _ ih => exact ih hending

/-- Instructions are read by `parser_parse_instruction`. -/
theorem instructionReader :
    LineReader Instruction isInstructionToken instructionListRound where
  accepts_eol := rfl
  accepts_eoft := rfl
  starts h := by
    cases h with
    | noOperands hop => exact ⟨_, _, rfl, hop⟩
    | oneOperand hop => exact ⟨_, _, rfl, hop⟩
    | twoOperands hop => exact ⟨_, _, rfl, hop⟩
    | cut hop => exact ⟨_, _, rfl, hop⟩
  behind h := h.behind
  atEnd hending h := by
    cases h with
    | noOperands => exact absurd rfl hending
    | oneOperand => exact absurd rfl hending
    | twoOperands => exact absurd rfl hending
    | cut => exact Or.inl rfl
  blank unit eol rest nodes heol := by simp [instructionListRound, heol]
  parses h unit nodes := by
    have hparse := h.parses unit
    cases h with
    | noOperands hop =>
        simp [instructionListRound, (isInstructionToken_ne hop).1, hparse]
    | oneOperand hop =>
        simp [instructionListRound, (isInstructionToken_ne hop).1, hparse]
    | twoOperands hop =>
        simp [instructionListRound, (isInstructionToken_ne hop).1, hparse]
    | cut hop => simp [instructionListRound, (isInstructionToken_ne hop).1, hparse]
  cases := by
    intro unit token rest nodes htokens hop
    have hround : instructionListRound (unit, nodes) =
        ((parserParseInstruction unit).1, nodes ++ [(parserParseInstruction unit).2]) := by
      simp [instructionListRound, htokens, (isInstructionToken_ne hop).1]
    rw [hround]
    rcases parserParseInstruction_cases htokens hop with hfailed | ⟨_, _, _, hread, hparse⟩
    · exact Or.inl hfailed
    · refine Or.inr ⟨_, _, _, htokens ▸ hread, ?_⟩
      rw [hparse]

/-- Directives are read by `parse_data_directive_guidance` and
`parse_string_directive_guidance`. -/
theorem guidanceReader : LineReader GuidanceLine isGuidanceToken guidanceListRound where
  accepts_eol := rfl
  accepts_eoft := rfl
  starts h := by
    cases h with
    | data hdirective => exact ⟨_, _, rfl, by simp [isGuidanceToken, hdirective]⟩
    | string hdirective => exact ⟨_, _, rfl, by simp [isGuidanceToken, hdirective]⟩
  behind h := h.behind
  atEnd hending h := by
    cases h with
    | data _ hnumbers => exact hnumbers.atEnd hending
    | string => exact absurd rfl hending
  blank unit eol rest nodes heol := by simp [guidanceListRound, heol]
  parses h unit nodes := h.parses unit nodes
  cases := by
    intro unit token rest nodes htokens hdirective
    have h := guidanceListRound_cases htokens hdirective nodes
    rwa [htokens] at h

/-- The loop over the instructions is a list loop. -/
theorem parserParseInstructionList_eq (unit : TranslationUnit) :
    parserParseInstructionList unit =
      listLoop isInstructionToken instructionListRound (unit, []) := rfl

theorem parserParseGuidanceList_eq (unit : TranslationUnit) :
    parserParseGuidanceList unit = listLoop isGuidanceToken guidanceListRound (unit, []) := rfl

end Assembler
