import CLab.ParserBlocks

/-!
# The parser with every read of a token checked

The routines of `parser.c` once more, now with each `tokens->token` and each
`tokens->next` a read that fails on `NULL`, in the order in which the source
makes them.  Every routine but one is shown to be the routine of the model of
the parser, whatever the list: its reads never fail.
-/

namespace Assembler.Checked

/-- `tokens->token`. -/
def token : List Token → Except Fault Token
  | [] => .error .nullDereference
  | token :: _ => .ok token

/-- `tokens->next`. -/
def next : List Token → Except Fault (List Token)
  | [] => .error .nullDereference
  | _ :: rest => .ok rest

/-- `tokens == NULL || test(tokens->token.type)`. -/
def nullOr (test : TokenType → Bool) (tokens : List Token) : Except Fault Bool :=
  if tokens = [] then .ok true else return test (← token tokens).type

/-- `tokens != NULL && test(tokens->token.type)`. -/
def notNullAnd (test : TokenType → Bool) (tokens : List Token) : Except Fault Bool :=
  if tokens = [] then .ok false else return test (← token tokens).type

/-- `tokens ? tokens->token : default_token`. -/
def tokenOrDefault (tokens : List Token) : Except Fault Token :=
  if tokens = [] then .ok defaultToken else token tokens

section Reads

variable (t : Token) (rest : List Token) (test : TokenType → Bool)

@[simp] theorem token_cons : token (t :: rest) = .ok t := rfl

@[simp] theorem next_cons : next (t :: rest) = .ok rest := rfl

@[simp] theorem nullOr_nil : nullOr test [] = .ok true := rfl

@[simp] theorem nullOr_cons : nullOr test (t :: rest) = .ok (test t.type) := rfl

@[simp] theorem notNullAnd_nil : notNullAnd test [] = .ok false := rfl

@[simp] theorem notNullAnd_cons : notNullAnd test (t :: rest) = .ok (test t.type) := rfl

/-- The default token stands in for a null pointer, so nothing is read through one. -/
@[simp] theorem tokenOrDefault_eq (tokens : List Token) :
    tokenOrDefault tokens = .ok (tokens.headD defaultToken) := by
  cases tokens <;> rfl

/-- A computation that does not fail is run. -/
@[simp] theorem ok_bind {α β : Type} (x : α) (f : α → Except Fault β) :
    (Except.ok x >>= f) = f x := rfl

@[simp] theorem pure_eq_ok {α : Type} (x : α) : (pure x : Except Fault α) = .ok x := rfl

end Reads

/-! ## The cursor and the errors -/

/-- The kinds that do not end a line. -/
def isInLine (type : TokenType) : Bool :=
  type ≠ .eol && type ≠ .eoft

/-- `parser_move_to_end_of_line`, every step checked. -/
def parserMoveToEndOfLine (unit : TranslationUnit) : Except Fault TranslationUnit :=
  if unit.tokens = [] then .ok unit
  else do
    let tokens ← While.loopE (notNullAnd isInLine) next List.length unit.tokens
    if ← notNullAnd (· = .eol) tokens then return unit.setTokens (← next tokens)
    else return unit.setTokens tokens

/-- An error, and the rest of the line skipped. -/
def reportError (unit : TranslationUnit) (message : String) (token : Token) :
    Except Fault TranslationUnit :=
  parserMoveToEndOfLine (unit.addError message token)

/-- `tokens == NULL`, or the end of a line or of the file. -/
def atLineEnd (tokens : List Token) : Except Fault Bool :=
  nullOr (fun type => type = .eol || type = .eoft) tokens

/-- The tokens in front of the end of the line are skipped. -/
def inLine (tokens : List Token) : Bool :=
  match tokens with
  | [] => false
  | t :: _ => isInLine t.type

/-- The test of the loop never reads through null. -/
theorem notNullAnd_isInLine (tokens : List Token) :
    notNullAnd isInLine tokens = .ok (inLine tokens) := by
  cases tokens <;> rfl

/-- Inside a line there is a token to step over. -/
theorem next_of_inLine {tokens : List Token} (h : inLine tokens = true) :
    next tokens = .ok tokens.tail := by
  cases tokens with
  | nil => cases h
  | cons t rest => rfl

/-- The loop stops where `endOfLine` does, but in front of the end of line. -/
theorem endOfLine_loop (tokens : List Token) :
    endOfLine (While.loop inLine List.tail List.length tokens) = endOfLine tokens ∧
      inLine (While.loop inLine List.tail List.length tokens) = false := by
  refine While.loop_rule (fun tokens' => endOfLine tokens' = endOfLine tokens) ?_ ?_ rfl
  · intro tokens' hin hsame
    cases tokens' with
    | nil => cases hin
    | cons t rest =>
        have hne : t.type ≠ .eol ∧ t.type ≠ .eoft := by simpa [inLine, isInLine] using hin
        rw [← hsame, endOfLine_cons hne]
        rfl
  · intro tokens' hin _
    cases tokens' with
    | nil => cases hin
    | cons t rest => exact Nat.lt_succ_self _

/-- Moving to the end of the line never reads through null. -/
@[simp] theorem parserMoveToEndOfLine_eq (unit : TranslationUnit) :
    parserMoveToEndOfLine unit = .ok (Assembler.parserMoveToEndOfLine unit) := by
  have hloop := While.loopE_eq_ok notNullAnd_isInLine (fun _ h => next_of_inLine h)
    List.length unit.tokens
  obtain ⟨hsame, hstop⟩ := endOfLine_loop unit.tokens
  rw [parserMoveToEndOfLine, Assembler.parserMoveToEndOfLine, hloop, ← hsame]
  by_cases hnil : unit.tokens = []
  · rw [if_pos hnil, hnil]
    exact congrArg Except.ok (setTokens_eq_self hnil).symm
  · rw [if_neg hnil, ok_bind]
    cases htokens : While.loop inLine List.tail List.length unit.tokens with
    | nil => rfl
    | cons t rest =>
        rw [htokens] at hstop
        by_cases heol : t.type = .eol
        · simp [heol, endOfLine]
        · have heof : t.type = .eoft := by simpa [inLine, isInLine, heol] using hstop
          simp [heof, endOfLine]

/-- An error is reported and the line left, without a fault. -/
@[simp] theorem reportError_eq (unit : TranslationUnit) (message : String) (t : Token) :
    reportError unit message t = .ok (unit.reportError message t) :=
  parserMoveToEndOfLine_eq _

/-- Asking for the end of the line reads no token behind the list. -/
@[simp] theorem atLineEnd_eq (tokens : List Token) :
    atLineEnd tokens = .ok (Assembler.atLineEnd tokens) := by
  cases tokens <;> rfl

/-! ## Directives -/

/-- How a round of the loop over the numbers ends: `break`, `return`, or
neither. -/
inductive RoundEnd
  | goesOn
  | breaks
  | returns
deriving DecidableEq

/-- The locals of the loop over the numbers of a `.data`. -/
structure NumbersState where
  unit : TranslationUnit
  node : DataNode
  roundEnd : RoundEnd

/-- The condition of that loop, on the checked reads. -/
def numbersGoOn (s : NumbersState) : Except Fault Bool :=
  if s.roundEnd = .goesOn then notNullAnd (· ≠ .eoft) s.unit.tokens else .ok false

/-- One round of it: a number and what follows it. -/
def numbersRound (s : NumbersState) : Except Fault NumbersState := do
  let number ← token s.unit.tokens
  if number.type = .number then
    let node : DataNode := { s.node with dataNumbers := s.node.dataNumbers ++ [some number] }
    let unit := s.unit.setTokens (← next s.unit.tokens)
    if unit.tokens = [] then return ⟨unit, node, .breaks⟩
    else
      let separator ← token unit.tokens
      if separator.type = .comma then
        return ⟨unit.setTokens (← next unit.tokens), node, .goesOn⟩
      else if separator.type = .eol then
        return ⟨unit.setTokens (← next unit.tokens), node, .breaks⟩
      else if separator.type ≠ .eoft then
        return ⟨← reportError unit
          "Expected comma or end of line after number in .data directive" separator,
          { node with hasParserError := true }, .returns⟩
      else return ⟨unit, node, .goesOn⟩
  else
    return ⟨← reportError s.unit "Expected number in .data directive" number,
      { s.node with hasParserError := true }, .returns⟩

/-- Behind the loop over the numbers. -/
def finishDataDirective (s : NumbersState) : Except Fault (TranslationUnit × DataNode) :=
  if s.roundEnd = .returns then .ok (s.unit, s.node)
  else if s.node.dataNumbers = [] then do
    return (s.unit.addError "No numbers found in .data directive"
      (← tokenOrDefault s.unit.tokens), { s.node with hasParserError := true })
  else .ok (s.unit, s.node)

/-- `parse_data_directive_guidance`, every step checked. -/
def parseDataDirectiveGuidance (unit : TranslationUnit) :
    Except Fault (TranslationUnit × DataNode) :=
  if unit.tokens = [] then
    .ok (unit.addError "Expected .data directive, but got null pointer" defaultToken,
      { dataNumbers := [], hasParserError := true })
  else do
    let directive ← token unit.tokens
    if directive.type ≠ .dataIns then
      return (← reportError unit "Expected .data directive" directive,
        { dataNumbers := [], hasParserError := false })
    else
      let s ← While.loopE numbersGoOn numbersRound (fun s => s.unit.tokens.length)
        ⟨unit.setTokens (← next unit.tokens), { dataNumbers := [], hasParserError := false },
          .goesOn⟩
      finishDataDirective s

/-- `parse_string_directive_guidance`, every step checked. -/
def parseStringDirectiveGuidance (unit : TranslationUnit) :
    Except Fault (TranslationUnit × StringNode) :=
  if unit.tokens = [] then
    .ok (unit.addError "Expected .string directive, but got null pointer" defaultToken,
      { stringLabel := none, hasParserError := false })
  else do
    let directive ← token unit.tokens
    if directive.type ≠ .stringIns then
      return (← reportError unit "Expected .string directive" directive,
        { stringLabel := none, hasParserError := true })
    else
      let unit := unit.setTokens (← next unit.tokens)
      if ← nullOr (· ≠ .string) unit.tokens then
        return (← reportError unit "Expected string after .string directive"
          (← tokenOrDefault unit.tokens), { stringLabel := none, hasParserError := true })
      else
        let string ← token unit.tokens
        let unit := unit.setTokens (← next unit.tokens)
        if ← notNullAnd isInLine unit.tokens then
          return (← reportError unit "Unexpected tokens after string in .string directive"
            (← token unit.tokens), { stringLabel := some string, hasParserError := true })
        else if ← notNullAnd (· = .eol) unit.tokens then
          return (unit.setTokens (← next unit.tokens),
            { stringLabel := some string, hasParserError := false })
        else return (unit, { stringLabel := some string, hasParserError := false })

/-- Behind the loop the checked routine does what the plain one does. -/
theorem finishDataDirective_eq (unit : TranslationUnit) (node : DataNode) (roundEnd : RoundEnd)
    (h : roundEnd ≠ .returns) : finishDataDirective ⟨unit, node, roundEnd⟩ =
      .ok (Assembler.finishDataDirective unit node) := by
  simp only [finishDataDirective, if_neg h, Assembler.finishDataDirective, tokenOrDefault_eq,
    ok_bind, pure_eq_ok, TranslationUnit.currentOrDefault]
  split_ifs <;> rfl

/-- The loop stops behind a `break` or a `return`, and at the end of the file or
of the list. -/
theorem numbersLoop_exit {s : NumbersState}
    (h : s.roundEnd = .goesOn → notNullAnd (· ≠ .eoft) s.unit.tokens = .ok false) (n : Nat) :
    While.runE numbersGoOn numbersRound n s = .ok s := by
  cases n with
  | zero => rfl
  | succ n =>
      rw [While.runE, numbersGoOn]
      by_cases hgo : s.roundEnd = .goesOn
      · rw [if_pos hgo, h hgo]
        rfl
      · rw [if_neg hgo]
        rfl

section Round

variable {unit : TranslationUnit} {node : DataNode} {t : Token} {rest : List Token}
  {s : NumbersState} {n : Nat} (ht : t.type ≠ .eoft) (hn : (t :: rest).length ≤ n)
  (hround : numbersRound ⟨unit.setTokens (t :: rest), node, .goesOn⟩ = .ok s)

include ht hn hround

/-- A round that goes on leaves the rest of the fuel to the next. -/
theorem numbersLoop_round :
    ∃ k, rest.length ≤ k ∧
      While.runE numbersGoOn numbersRound n ⟨unit.setTokens (t :: rest), node, .goesOn⟩ =
        While.runE numbersGoOn numbersRound k s := by
  obtain ⟨k, rfl⟩ : ∃ k, n = k + 1 := ⟨n - 1, by rw [List.length_cons] at hn; omega⟩
  refine ⟨k, by rw [List.length_cons] at hn; omega, ?_⟩
  have hgo : numbersGoOn ⟨unit.setTokens (t :: rest), node, .goesOn⟩ = .ok true := by
    simp [numbersGoOn, ht]
  rw [While.runE, hgo, Except.bind, if_pos rfl, hround]
  rfl

/-- A round that ends the loop leaves the unit as it stands. -/
theorem numbersLoop_last
    (hlast : s.roundEnd = .goesOn → notNullAnd (· ≠ .eoft) s.unit.tokens = .ok false) :
    (While.runE numbersGoOn numbersRound n ⟨unit.setTokens (t :: rest), node, .goesOn⟩ >>=
      finishDataDirective) = finishDataDirective s := by
  obtain ⟨k, -, hloop⟩ := numbersLoop_round ht hn hround
  rw [hloop, numbersLoop_exit hlast, ok_bind]

end Round

/-- The loop over the numbers, from the given tokens on. -/
theorem numbersLoop_eq (unit : TranslationUnit) (node : DataNode) (tokens : List Token) (n : Nat)
    (hn : tokens.length ≤ n) :
    (While.runE numbersGoOn numbersRound n ⟨unit.setTokens tokens, node, .goesOn⟩ >>=
      finishDataDirective) = .ok (parseDataNumbers unit node tokens) := by
  fun_induction parseDataNumbers unit node tokens generalizing n with
  | case1 node =>
      rw [numbersLoop_exit fun _ => rfl, ok_bind, finishDataDirective_eq _ _ _ (by decide)]
  | case2 node t rest heof =>
      rw [numbersLoop_exit fun _ => by simp [heof], ok_bind,
        finishDataDirective_eq _ _ _ (by decide)]
  | case3 node t heof hnumber node' =>
      have hround : numbersRound ⟨unit.setTokens [t], node, .goesOn⟩ =
          .ok ⟨unit.setTokens [], node', .breaks⟩ := by
        simp [numbersRound, hnumber, node']
      rw [numbersLoop_last heof hn hround (by simp), finishDataDirective_eq _ _ _ (by decide)]
  | case4 node t heof hnumber node' separator rest hcomma ih =>
      have hround : numbersRound ⟨unit.setTokens (t :: separator :: rest), node, .goesOn⟩ =
          .ok ⟨unit.setTokens rest, node', .goesOn⟩ := by
        simp [numbersRound, hnumber, hcomma, node']
      obtain ⟨k, hk, hloop⟩ := numbersLoop_round heof hn hround
      rw [hloop]
      rw [List.length_cons] at hk
      exact ih k (by omega)
  | case5 node t heof hnumber node' separator rest hcomma heol =>
      have hround : numbersRound ⟨unit.setTokens (t :: separator :: rest), node, .goesOn⟩ =
          .ok ⟨unit.setTokens rest, node', .breaks⟩ := by
        simp [numbersRound, hnumber, heol, node']
      rw [numbersLoop_last heof hn hround (by simp), finishDataDirective_eq _ _ _ (by decide)]
  | case6 node t heof hnumber node' separator rest hcomma heol hseparator =>
      have hround : numbersRound ⟨unit.setTokens (t :: separator :: rest), node, .goesOn⟩ =
          .ok ⟨(unit.setTokens (separator :: rest)).reportError
            "Expected comma or end of line after number in .data directive" separator,
            { node' with hasParserError := true }, .returns⟩ := by
        simp [numbersRound, hnumber, hcomma, heol, hseparator, node']
      rw [numbersLoop_last heof hn hround (by simp), finishDataDirective, if_pos rfl]
  | case7 node t heof hnumber node' separator rest hcomma heol hseparator =>
      have heof' : separator.type = .eoft := not_not.mp hseparator
      have hround : numbersRound ⟨unit.setTokens (t :: separator :: rest), node, .goesOn⟩ =
          .ok ⟨unit.setTokens (separator :: rest), node', .goesOn⟩ := by
        simp [numbersRound, hnumber, heof', node']
      rw [numbersLoop_last heof hn hround fun _ => by simp [heof'],
        finishDataDirective_eq _ _ _ (by decide)]
  | case8 node t rest heof hnumber =>
      have hround : numbersRound ⟨unit.setTokens (t :: rest), node, .goesOn⟩ =
          .ok ⟨(unit.setTokens (t :: rest)).reportError "Expected number in .data directive" t,
            { node with hasParserError := true }, .returns⟩ := by
        simp [numbersRound, hnumber]
      rw [numbersLoop_last heof hn hround (by simp), finishDataDirective, if_pos rfl]

/-- A `.data` line is parsed without a fault, for every list. -/
@[simp] theorem parseDataDirectiveGuidance_eq (unit : TranslationUnit) :
    parseDataDirectiveGuidance unit = .ok (Assembler.parseDataDirectiveGuidance unit) := by
  rw [parseDataDirectiveGuidance, Assembler.parseDataDirectiveGuidance]
  cases htokens : unit.tokens with
  | nil => rfl
  | cons t rest =>
      rw [if_neg (List.cons_ne_nil _ _), token_cons, ok_bind, next_cons]
      by_cases hdata : t.type = .dataIns
      · rw [if_neg (not_not_intro hdata), ok_bind]
        simp only [if_neg (not_not_intro hdata)]
        exact numbersLoop_eq unit _ rest _ (Nat.le_refl _)
      · rw [if_pos hdata]
        simp [hdata]

/-- So is a `.string` line. -/
@[simp] theorem parseStringDirectiveGuidance_eq (unit : TranslationUnit) :
    parseStringDirectiveGuidance unit = .ok (Assembler.parseStringDirectiveGuidance unit) := by
  rw [parseStringDirectiveGuidance, Assembler.parseStringDirectiveGuidance]
  cases htokens : unit.tokens with
  | nil => rfl
  | cons t rest =>
      by_cases hstring : t.type = .stringIns
      · rcases rest with _ | ⟨string, _ | ⟨after, rest⟩⟩
        · simp [hstring]
        · by_cases h : string.type = .string <;> simp [hstring, h]
        · by_cases h : string.type = .string
          · by_cases heol : after.type = .eol <;> by_cases heof : after.type = .eoft <;>
              simp [hstring, h, isInLine, heol, heof]
          · simp [hstring, h]
      · simp [hstring]

/-- The loops of the lists: the `break` at the first other token is part of the
guard. -/
def listGoesOn (accepts : TokenType → Bool) (unit : TranslationUnit) : Except Fault Bool :=
  notNullAnd (fun type => type ≠ .eoft && (type = .eol || accepts type)) unit.tokens

/-- The condition of a list loop reads the list once and safely. -/
theorem listGoesOn_eq {accepts : TokenType → Bool} (heof : accepts .eoft = false)
    (unit : TranslationUnit) :
    listGoesOn accepts unit = .ok (Assembler.listGoesOn accepts unit) := by
  rw [listGoesOn, Assembler.listGoesOn]
  cases unit.tokens with
  | nil => rfl
  | cons t rest => by_cases h : t.type = .eoft <;> simp [h, heof]

/-- One round of the loop over the directives. -/
def guidanceListRound (s : TranslationUnit × List GuidanceNode) :
    Except Fault (TranslationUnit × List GuidanceNode) := do
  let directive ← token s.1.tokens
  if directive.type = .eol then return (s.1.setTokens (← next s.1.tokens), s.2)
  else if directive.type = .dataIns then
    let (unit, node) ← parseDataDirectiveGuidance s.1
    return (unit, s.2 ++ [.dataNode node])
  else
    let (unit, node) ← parseStringDirectiveGuidance s.1
    return (unit, s.2 ++ [.stringNode node])

/-- `parser_parse_guidance_list`, every step checked. -/
def parserParseGuidanceList (unit : TranslationUnit) :
    Except Fault (TranslationUnit × List GuidanceNode) :=
  While.loopE (fun s => listGoesOn isGuidanceToken s.1) guidanceListRound
    (fun s => s.1.tokens.length) (unit, [])

/-- A round of that loop is free of faults where the loop goes on. -/
theorem guidanceListRound_eq {s : TranslationUnit × List GuidanceNode}
    (h : Assembler.listGoesOn isGuidanceToken s.1 = true) :
    guidanceListRound s = .ok (Assembler.guidanceListRound s) := by
  rw [guidanceListRound, Assembler.guidanceListRound]
  cases htokens : s.1.tokens with
  | nil => simp [Assembler.listGoesOn, htokens] at h
  | cons t rest =>
      simp only [token_cons, next_cons, ok_bind, pure_eq_ok, parseDataDirectiveGuidance_eq,
        parseStringDirectiveGuidance_eq]
      split_ifs <;> rfl

/-- The directives are parsed without a fault, for every list. -/
@[simp] theorem parserParseGuidanceList_eq (unit : TranslationUnit) :
    parserParseGuidanceList unit = .ok (Assembler.parserParseGuidanceList unit) := by
  unfold parserParseGuidanceList Assembler.parserParseGuidanceList
  exact While.loopE_eq_ok (fun _ => listGoesOn_eq rfl _) (fun _ => guidanceListRound_eq) _ _

/-! ## Instructions -/

/-- The register or identifier at `current`. -/
def operandAt (unit : TranslationUnit) (current : List Token) (isDereferenced : Bool) :
    Except Fault (TranslationUnit × InstructionOperand × Bool) := do
  let operand ← token current
  if operand.type = .register ∨ operand.type = .identifier then
    return (unit.setTokens (← next current),
      { operand := some operand, isDereferenced := isDereferenced }, false)
  else
    return (← reportError unit "Expected register or identifier" operand,
      { operand := none, isDereferenced := isDereferenced }, true)

/-- The part of `parser_parse_instruction` that reads one operand, checked. -/
def parseOperand (unit : TranslationUnit) :
    Except Fault (TranslationUnit × InstructionOperand × Bool) :=
  if unit.tokens = [] then .ok (unit, { operand := none, isDereferenced := false }, true)
  else do
    let current ← token unit.tokens
    if current.type = .hashtag then
      let behind ← next unit.tokens
      if ← nullOr (· ≠ .number) behind then
        return (← reportError unit "Expected number after '#'" current,
          { operand := none, isDereferenced := false }, true)
      else
        return (unit.setTokens (← next behind),
          { operand := some (← token behind), isDereferenced := false }, false)
    else if current.type = .star then
      let behind ← next unit.tokens
      if behind = [] then
        return (← reportError unit "Expected operand after '*'" current,
          { operand := none, isDereferenced := true }, true)
      else operandAt unit behind true
    else operandAt unit unit.tokens false

/-- The second operand, behind the comma. -/
def parseSecondOperand (unit : TranslationUnit) (instruction : InstructionNode) :
    Except Fault (TranslationUnit × InstructionNode) := do
  let (unit, secondOperand, errorInOperand) ← parseOperand unit
  if errorInOperand then return (unit, { instruction with hasParserError := true })
  else
    let instruction : InstructionNode :=
      { instruction with
        secondOperand := secondOperand.operand
        isSecondOperandDerefrenced := secondOperand.isDereferenced }
    if ← notNullAnd isInLine unit.tokens then
      return (← reportError unit "Expected end of line after instruction" (← token unit.tokens),
        { instruction with hasParserError := true })
    else return (unit, instruction)

/-- The first operand, behind the operation. -/
def parseFirstOperand (unit : TranslationUnit) (instruction : InstructionNode) :
    Except Fault (TranslationUnit × InstructionNode) := do
  let (unit, firstOperand, errorInOperand) ← parseOperand unit
  if errorInOperand then return (unit, { instruction with hasParserError := true })
  else
    let instruction : InstructionNode :=
      { instruction with
        firstOperand := firstOperand.operand
        isFirstOperandDerefrenced := firstOperand.isDereferenced }
    if ← atLineEnd unit.tokens then return (unit, instruction)
    else
      let separator ← token unit.tokens
      if separator.type ≠ .comma then
        return (← reportError unit "Expected comma between operands" separator,
          { instruction with hasParserError := true })
      else parseSecondOperand (unit.setTokens (← next unit.tokens)) instruction

/-- `parser_parse_instruction`, every step checked. -/
def parserParseInstruction (unit : TranslationUnit) :
    Except Fault (TranslationUnit × InstructionNode) := do
  if ← nullOr (fun type => !isInstructionToken type) unit.tokens then
    return (← reportError unit "Expected an instruction" (← tokenOrDefault unit.tokens),
      { InstructionNode.zero with hasParserError := true })
  else
    let instruction : InstructionNode :=
      { InstructionNode.zero with operation := some (← token unit.tokens) }
    let unit := unit.setTokens (← next unit.tokens)
    if ← atLineEnd unit.tokens then return (unit, instruction)
    else parseFirstOperand unit instruction

/-- One round of the loop over the instructions. -/
def instructionListRound (s : TranslationUnit × List InstructionNode) :
    Except Fault (TranslationUnit × List InstructionNode) := do
  let operation ← token s.1.tokens
  if operation.type = .eol then return (s.1.setTokens (← next s.1.tokens), s.2)
  else
    let (unit, node) ← parserParseInstruction s.1
    return (unit, s.2 ++ [node])

/-- `parser_parse_instruction_list`, every step checked. -/
def parserParseInstructionList (unit : TranslationUnit) :
    Except Fault (TranslationUnit × List InstructionNode) :=
  While.loopE (fun s => listGoesOn isInstructionToken s.1) instructionListRound
    (fun s => s.1.tokens.length) (unit, [])

/-- An operand is read without a fault, also where the list ends. -/
@[simp] theorem parseOperand_eq (unit : TranslationUnit) :
    parseOperand unit = .ok (Assembler.parseOperand unit) := by
  rw [parseOperand, Assembler.parseOperand]
  cases htokens : unit.tokens with
  | nil => rfl
  | cons current rest =>
      by_cases hhash : current.type = .hashtag
      · rcases rest with _ | ⟨number, rest⟩
        · simp [hhash]
        · by_cases hnumber : number.type = .number <;> simp [hhash, hnumber]
      · by_cases hstar : current.type = .star
        · rcases rest with _ | ⟨operand, rest⟩
          · simp [hstar]
          · by_cases h : operand.type = .register ∨ operand.type = .identifier <;>
              simp [hstar, operandAt, h]
        · by_cases h : current.type = .register ∨ current.type = .identifier <;>
            simp [hhash, hstar, operandAt, h]

/-- So is the operand behind a comma. -/
@[simp] theorem parseSecondOperand_eq (unit : TranslationUnit) (instruction : InstructionNode) :
    parseSecondOperand unit instruction =
      .ok (Assembler.parseSecondOperand unit instruction) := by
  rw [parseSecondOperand, Assembler.parseSecondOperand, parseOperand_eq, ok_bind]
  rcases Assembler.parseOperand unit with ⟨unit', operand, errorInOperand⟩
  cases errorInOperand with
  | true => rfl
  | false =>
      cases htokens : unit'.tokens with
      | nil => simp [htokens, Assembler.atLineEnd]
      | cons t rest =>
          by_cases heol : t.type = .eol <;> by_cases heof : t.type = .eoft <;>
            simp [htokens, Assembler.atLineEnd, isInLine, heol, heof,
              TranslationUnit.currentOrDefault]

/-- And the first one, with what follows it. -/
@[simp] theorem parseFirstOperand_eq (unit : TranslationUnit) (instruction : InstructionNode) :
    parseFirstOperand unit instruction = .ok (Assembler.parseFirstOperand unit instruction) := by
  rw [parseFirstOperand, Assembler.parseFirstOperand, parseOperand_eq, ok_bind]
  rcases Assembler.parseOperand unit with ⟨unit', operand, errorInOperand⟩
  cases errorInOperand with
  | true => rfl
  | false =>
      cases htokens : unit'.tokens with
      | nil => simp [htokens, Assembler.atLineEnd]
      | cons t rest =>
          by_cases hend : t.type = .eol ∨ t.type = .eoft
          · rcases hend with hend | hend <;> simp [htokens, Assembler.atLineEnd, hend]
          · by_cases hcomma : t.type = .comma <;>
              simp_all [Assembler.atLineEnd]

/-- An instruction is parsed without a fault, for every list. -/
@[simp] theorem parserParseInstruction_eq (unit : TranslationUnit) :
    parserParseInstruction unit = .ok (Assembler.parserParseInstruction unit) := by
  rw [parserParseInstruction, Assembler.parserParseInstruction]
  cases htokens : unit.tokens with
  | nil => simp
  | cons t rest =>
      cases hop : isInstructionToken t.type with
      | false => simp [hop]
      | true =>
          by_cases hend : Assembler.atLineEnd rest = true <;> simp [hop, hend]

/-- A round of the instruction loop is free of faults where the loop goes on. -/
theorem instructionListRound_eq {s : TranslationUnit × List InstructionNode}
    (h : Assembler.listGoesOn isInstructionToken s.1 = true) :
    instructionListRound s = .ok (Assembler.instructionListRound s) := by
  rw [instructionListRound, Assembler.instructionListRound]
  cases htokens : s.1.tokens with
  | nil => simp [Assembler.listGoesOn, htokens] at h
  | cons t rest =>
      simp only [token_cons, next_cons, ok_bind, pure_eq_ok, parserParseInstruction_eq]
      split_ifs <;> rfl

/-- The instructions are parsed without a fault, for every list. -/
@[simp] theorem parserParseInstructionList_eq (unit : TranslationUnit) :
    parserParseInstructionList unit = .ok (Assembler.parserParseInstructionList unit) := by
  unfold parserParseInstructionList Assembler.parserParseInstructionList
  exact While.loopE_eq_ok (fun _ => listGoesOn_eq rfl _) (fun _ => instructionListRound_eq) _ _

/-! ## `.entry` and `.extern` -/

/-- Behind the identifier of `.entry` or `.extern`: the end of the line, or an
error. -/
def finishDirective (unit : TranslationUnit) (message : String) :
    Except Fault (TranslationUnit × Bool) := do
  if ← notNullAnd isInLine unit.tokens then
    return (← reportError unit message (← token unit.tokens), true)
  else if ← notNullAnd (· = .eol) unit.tokens then
    return (unit.setTokens (← next unit.tokens), false)
  else return (unit, false)

/-- The two error paths read the token at the cursor without asking whether
there is one. -/
def parserParseEntry (unit : TranslationUnit) : Except Fault (TranslationUnit × EntryNode) := do
  if ← nullOr (· ≠ .entryIns) unit.tokens then
    return (← reportError unit "Expected .entry directive" (← token unit.tokens),
      { entryLabel := none, hasParserError := true })
  else
    let unit := unit.setTokens (← next unit.tokens)
    if ← nullOr (· ≠ .identifier) unit.tokens then
      return (← reportError unit "Expected identifier after .entry directive"
        (← token unit.tokens), { entryLabel := none, hasParserError := true })
    else
      let label ← token unit.tokens
      let (unit, hasParserError) ← finishDirective (unit.setTokens (← next unit.tokens))
        "Unexpected tokens after .entry identifier"
      return (unit, { entryLabel := some label, hasParserError := hasParserError })

/-- `parser_parse_external`, every step checked. -/
def parserParseExternal (unit : TranslationUnit) :
    Except Fault (TranslationUnit × ExternalNode) := do
  if ← nullOr (· ≠ .externIns) unit.tokens then
    return (← reportError unit "Expected .extern directive" (← tokenOrDefault unit.tokens),
      { externalLabel := none, hasParserError := true })
  else
    let unit := unit.setTokens (← next unit.tokens)
    if ← nullOr (· ≠ .identifier) unit.tokens then
      return (← reportError unit "Expected identifier after .extern directive"
        (← tokenOrDefault unit.tokens), { externalLabel := none, hasParserError := true })
    else
      let label ← token unit.tokens
      let (unit, hasParserError) ← finishDirective (unit.setTokens (← next unit.tokens))
        "Unexpected tokens after .extern identifier"
      return (unit, { externalLabel := some label, hasParserError := hasParserError })

/-- Ending a directive reads no token behind the list. -/
@[simp] theorem finishDirective_eq (unit : TranslationUnit) (message : String) :
    finishDirective unit message = .ok (Assembler.finishDirective unit message) := by
  rw [finishDirective, Assembler.finishDirective]
  cases htokens : unit.tokens with
  | nil => simp
  | cons t rest =>
      by_cases heol : t.type = .eol <;> by_cases heof : t.type = .eoft <;>
        simp [isInLine, heol, heof]

/-- Here the reads can fail, in the model of the parser too. -/
@[simp] theorem parserParseEntry_eq (unit : TranslationUnit) :
    parserParseEntry unit = Assembler.parserParseEntry unit := by
  rw [parserParseEntry, Assembler.parserParseEntry]
  cases htokens : unit.tokens with
  | nil => rfl
  | cons t rest =>
      by_cases hentry : t.type = .entryIns
      · rcases rest with _ | ⟨label, rest⟩
        · simp [hentry]
          rfl
        · by_cases hlabel : label.type = .identifier <;> simp [hentry, hlabel]
      · simp [hentry]

/-- A `.extern` line is parsed without a fault, for every list. -/
@[simp] theorem parserParseExternal_eq (unit : TranslationUnit) :
    parserParseExternal unit = .ok (Assembler.parserParseExternal unit) := by
  rw [parserParseExternal, Assembler.parserParseExternal]
  cases htokens : unit.tokens with
  | nil => simp
  | cons t rest =>
      by_cases hexternIns : t.type = .externIns
      · rcases rest with _ | ⟨label, rest⟩
        · simp [hexternIns]
        · by_cases hlabel : label.type = .identifier <;> simp [hexternIns, hlabel]
      · simp [hexternIns]

/-! ## Labelled statements -/

/-- The test for a line break. -/
def isEol (tokens : List Token) : Except Fault Bool :=
  notNullAnd (fun type => type ≠ .eoft && type = .eol) tokens

/-- The step over it. -/
def skipEol (tokens : List Token) : Except Fault (List Token) :=
  While.loopE isEol next List.length tokens

/-- The instructions or directives behind a label, if there is one. -/
def parseStatementBody (unit : TranslationUnit) (label : LabelNode)
    (labelIdentifierFound : Bool) : Except Fault (TranslationUnit × LabelNode) :=
  if unit.tokens = [] then .ok (unit, label)
  else do
    let statement ← token unit.tokens
    if isInstructionToken statement.type then
      if labelIdentifierFound = false then
        return (← reportError unit
          ("An instruction was found here but no label identifier, " ++
            "please add a label identifier") statement, label)
      else
        let (unit, instructions) ← parserParseInstructionList unit
        return (unit, { label with instructionList := instructions })
    else if isGuidanceToken statement.type then
      let (unit, guidance) ← parserParseGuidanceList unit
      return (unit, { label with guidanceList := guidance })
    else
      return (← reportError unit "No instruction/guidance was found here" statement, label)

/-- `parse_labeled_statement`, every step checked. -/
def parseLabeledStatement (unit : TranslationUnit) :
    Except Fault (TranslationUnit × LabelNode) := do
  if ← notNullAnd (· = .identifier) unit.tokens then
    let identifier ← token unit.tokens
    let label : LabelNode := { LabelNode.zero with label := some identifier }
    let unit := unit.setTokens (← next unit.tokens)
    if ← nullOr (· ≠ .colon) unit.tokens then
      return (← reportError unit "No colon found after label identifier"
        (← tokenOrDefault unit.tokens), label)
    else
      let colon ← token unit.tokens
      if identifier.index + stringLength identifier.string ≠ colon.index then
        return (← reportError unit
          "The colon should be immediately after the label identifier" colon, label)
      else
        let tokens ← skipEol (← next unit.tokens)
        parseStatementBody (unit.setTokens tokens) label true
  else parseStatementBody unit .zero false

/-- A line break is skipped without a fault. -/
@[simp] theorem skipEol_eq (tokens : List Token) :
    skipEol tokens = .ok (Assembler.skipEol tokens) := by
  unfold skipEol While.loopE
  generalize hn : tokens.length = n
  induction tokens generalizing n with
  | nil =>
      subst hn
      rfl
  | cons t rest ih =>
      subst hn
      rw [List.length_cons, While.runE]
      by_cases heol : t.type = .eol
      · have hgo : isEol (t :: rest) = .ok true := by simp [isEol, heol]
        rw [hgo, skipEol_eol heol]
        exact ih _ rfl
      · have hgo : isEol (t :: rest) = .ok false := by simp [isEol, heol]
        rw [hgo, skipEol_of_ne heol]
        rfl

/-- The body of a statement is parsed without a fault. -/
@[simp] theorem parseStatementBody_eq (unit : TranslationUnit) (label : LabelNode)
    (labelIdentifierFound : Bool) : parseStatementBody unit label labelIdentifierFound =
      .ok (Assembler.parseStatementBody unit label labelIdentifierFound) := by
  rw [parseStatementBody, Assembler.parseStatementBody]
  cases htokens : unit.tokens with
  | nil => rfl
  | cons t rest =>
      cases hop : isInstructionToken t.type with
      | true => cases labelIdentifierFound <;> simp [hop]
      | false => cases hdirective : isGuidanceToken t.type <;> simp [hop, hdirective]

/-- A labelled statement is parsed without a fault, for every list. -/
@[simp] theorem parseLabeledStatement_eq (unit : TranslationUnit) :
    parseLabeledStatement unit = .ok (Assembler.parseLabeledStatement unit) := by
  rw [parseLabeledStatement, Assembler.parseLabeledStatement]
  cases htokens : unit.tokens with
  | nil => simp
  | cons t rest =>
      by_cases hlabel : t.type = .identifier
      · rcases rest with _ | ⟨colon, rest⟩
        · simp [hlabel]
        · by_cases hcolon : colon.type = .colon
          · by_cases hadjacent : t.index + stringLength t.string = colon.index <;>
              simp [hlabel, hcolon, hadjacent]
          · simp [hlabel, hcolon]
      · simp [hlabel]

/-! ## The translation unit -/

/-- One round of `parse_translation_unit_content`. -/
def contentRound (unit : TranslationUnit) : Except Fault TranslationUnit := do
  let statement ← token unit.tokens
  if statement.type = .eol then return unit.setTokens (← next unit.tokens)
  else if statement.type = .externIns then
    let (unit, node) ← parserParseExternal unit
    return { unit with externalList := unit.externalList ++ [node] }
  else if statement.type = .entryIns then
    let (unit, node) ← parserParseEntry unit
    return { unit with entryList := unit.entryList ++ [node] }
  else if statement.type = .identifier ∨ statement.type = .dataIns ∨
      statement.type = .stringIns then
    let (unit, label) ← parseLabeledStatement unit
    return unit.appendLabel label
  else if statement.type = .macr ∨ statement.type = .endmacr then
    parserMoveToEndOfLine unit
  else reportError unit "Unexpected token: expected label, .extern, or .entry" statement

/-- The condition of the loop over the whole unit. -/
def contentGoesOn (unit : TranslationUnit) : Except Fault Bool :=
  notNullAnd (· ≠ .eoft) unit.tokens

/-- `parse_translation_unit_content`, every step checked. -/
def parseTranslationUnitContent (unit : TranslationUnit) : Except Fault TranslationUnit :=
  While.loopE contentGoesOn contentRound (fun unit => unit.tokens.length)
    { unit with
      externalList := []
      entryList := []
      instructionLabelList := []
      guidanceLabelList := [] }

/-- A round over the unit does what the plain parser does. -/
theorem contentRound_eq {unit : TranslationUnit} (h : unit.tokens ≠ []) :
    contentRound unit = Assembler.contentRound unit := by
  rw [contentRound, Assembler.contentRound]
  cases htokens : unit.tokens with
  | nil => exact absurd htokens h
  | cons t rest =>
      simp only [token_cons, next_cons, ok_bind, pure_eq_ok, parserParseExternal_eq,
        parserParseEntry_eq, parseLabeledStatement_eq, parserMoveToEndOfLine_eq, reportError_eq]

/-- So does the condition of that loop. -/
theorem contentGoesOn_eq (unit : TranslationUnit) :
    contentGoesOn unit = .ok (Assembler.contentGoesOn (.ok unit)) := by
  rw [contentGoesOn, Assembler.contentGoesOn]
  cases unit.tokens <;> rfl

/-- The main loop, failing exactly where the one of the model fails. -/
@[simp] theorem parseTranslationUnitContent_eq (unit : TranslationUnit) :
    parseTranslationUnitContent unit = Assembler.parseTranslationUnitContent unit := by
  have hrun : ∀ n unit, While.runE contentGoesOn contentRound n unit =
      While.run Assembler.contentGoesOn (fun run => run.bind Assembler.contentRound) n
        (.ok unit) := by
    intro n
    induction n with
    | zero => exact fun unit => rfl
    | succ n ih =>
        intro unit
        rw [While.runE, While.run, contentGoesOn_eq, Except.bind]
        by_cases hgo : Assembler.contentGoesOn (.ok unit) = true
        · have hne : unit.tokens ≠ [] := by
            intro hnil
            simp [Assembler.contentGoesOn, hnil] at hgo
          rw [if_pos hgo, if_pos hgo, contentRound_eq hne, Except.bind]
          cases Assembler.contentRound unit with
          | ok unit' => exact ih unit'
          | error fault => exact (While.run_of_exit rfl n).symm
        · rw [if_neg hgo, if_neg hgo]
  exact hrun _ _

end Assembler.Checked
