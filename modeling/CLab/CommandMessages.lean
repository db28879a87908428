import CLab.CommandValidator

/-!
# What the validator says about a line it rejects

`vldcmdln` is meant to print one error message for every line it rejects.  Here
are all the calls of `errmsg` along its way.  There is exactly one on every
rejected line but for one kind: a point behind a set name or a number of
`read_set` that no digit follows (`vldcmdln_validates_iff`).
-/

namespace SetCalculator

open Assembler (bytes)

/-! ## The calls of `errmsg` -/

/-- The calls of `errmsg` in one round of `vldcmdln`. -/
def Validator.errmsgs (v : Validator) : List Nat :=
  let nameMissing :=
    if charAt v.cmdln = comma then [7]
    else if charAt v.cmdln = 0 then [5]
    else if vldsetname v.cmdln = none then [0]
    else []
  let lineGoesOn := if (v.cmdln.drop setNameLen).all isspace then [] else [6]
  if isspace (charAt v.cmdln) then []
  else match v.state with
  | .cmd => if vldcmdname v.cmdln = none then [1] else []
  | .set1 =>
    if charAt v.cmdln = 0 then [5]
    else if charAt v.cmdln = comma then [9]
    else if vldsetname v.cmdln = none then [0]
    else if v.command = .printSet then lineGoesOn
    else []
  | .commaAfterSet1 => if charAt v.cmdln ≠ comma then [8] else []
  | .set2 => nameMissing
  | .commaAfterSet2 => if charAt v.cmdln ≠ comma then [8] else []
  | .result => if nameMissing = [] then lineGoesOn else nameMissing
  | .number =>
    if charAt v.cmdln = 0 then [3]
    else if charAt v.cmdln = comma then [7]
    else (vldnum v.cmdln).2.toList
  | .commaRead =>
    if charAt v.cmdln = 0 then [3]
    else if charAt v.cmdln ≠ comma then
      if charAt v.cmdln = '.'.toUInt8 then
        if isdigit (charAt v.cmdln.tail) then [4] else []
      else [8]
    else []
  | .minus1 => if charAt v.cmdln ≠ 0 then [6] else []
  | .stop => if charAt v.cmdln ≠ 0 then [6] else []

/-- The rounds of `vldcmdln` on a line. -/
def validatorStates (cmdln : List UInt8) : List Validator :=
  While.states Validator.goesOn Validator.round Validator.remaining
    { state := .cmd, command := .readSet, cmdln := cmdln, verdict := none }

/-- The calls of `errmsg` in a run of `vldcmdln`, in their order. -/
def vldcmdlnErrmsgs (cmdln : List UInt8) : List Nat :=
  (validatorStates cmdln).flatMap Validator.errmsgs

/-- The message that comes with a verdict. -/
def Verdict.messages : Verdict → List Nat
  | .valid => []
  | .invalid message => message.toList

/-- At the end of a command only blanks are passed over. -/
theorem endsLine_verdict (v : Validator) :
    v.endsLine.verdict =
      some (if v.cmdln.all isspace then .valid else .invalid (some 6)) := by
  unfold Validator.endsLine
  split_ifs <;> rfl

/-- What is said where a set name should be. -/
theorem setOperand_verdict {v found : Validator} :
    (v.setOperand found).verdict =
      if charAt v.cmdln = comma then some (.invalid (some 7))
      else if charAt v.cmdln = 0 then some (.invalid (some 5))
      else if vldsetname v.cmdln = none then some (.invalid (some 0))
      else found.verdict := by
  unfold Validator.setOperand
  split_ifs <;> rfl

/-- **One round.**  What a round prints is the message of the verdict it
returns; a round that goes on prints nothing. -/
theorem round_errmsgs {v : Validator} (hv : v.verdict = none) :
    v.errmsgs = (v.round.verdict.map Verdict.messages).getD [] := by
  obtain ⟨state, command, cmdln, verdict⟩ := v
  obtain rfl : verdict = none := hv
  by_cases hblank : isspace (charAt cmdln) = true
  · simp [Validator.errmsgs, Validator.round, hblank]
  cases state with
  | cmd =>
      cases hname : vldcmdname cmdln with
      | none => simp [Validator.errmsgs, Validator.round, hblank, hname, Validator.returns,
          Verdict.messages]
      | some found =>
          simp only [Validator.errmsgs, Validator.round, hblank, hname]
          split_ifs <;> simp_all [Validator.goesTo]
  | set1 =>
      simp only [Validator.errmsgs, Validator.round, hblank, if_false, Bool.false_eq_true]
      split_ifs with hzero hcomma hname hprint hall hread
      · simp [Validator.returns, Verdict.messages]
      · simp [Validator.returns, Verdict.messages]
      · simp [Validator.returns, Verdict.messages]
      · simp only [endsLine_verdict, Validator.goesTo, hall, if_true]
        rfl
      · simp only [endsLine_verdict, Validator.goesTo, hall, if_false, Bool.false_eq_true]
        rfl
      · simp [Validator.goesTo]
      · simp [Validator.goesTo]
  | commaAfterSet1 =>
      simp only [Validator.errmsgs, Validator.round, hblank, if_false, Bool.false_eq_true]
      split_ifs <;> simp [Validator.returns, Verdict.messages, Validator.goesTo]
  | set2 =>
      simp only [Validator.errmsgs, Validator.round, hblank, if_false, Bool.false_eq_true,
        setOperand_verdict]
      split_ifs <;> simp [Verdict.messages, Validator.goesTo]
  | commaAfterSet2 =>
      simp only [Validator.errmsgs, Validator.round, hblank, if_false, Bool.false_eq_true]
      split_ifs <;> simp [Validator.returns, Verdict.messages, Validator.goesTo]
  | result =>
      simp only [Validator.errmsgs, Validator.round, hblank, if_false, Bool.false_eq_true,
        setOperand_verdict, endsLine_verdict, Validator.goesTo]
      split_ifs <;> simp_all [Verdict.messages]
  | number =>
      simp only [Validator.errmsgs, Validator.round, hblank, if_false, Bool.false_eq_true]
      split_ifs with hzero hcomma hnum hone
      · simp [Validator.returns, Verdict.messages]
      · simp [Validator.returns, Verdict.messages]
      · simp [Validator.returns, Verdict.messages]
      · simp [vldnum_message hnum, Validator.goesTo]
      · simp [vldnum_message hnum, Validator.goesTo]
  | commaRead =>
      simp only [Validator.errmsgs, Validator.round, hblank, if_false, Bool.false_eq_true]
      split_ifs <;> simp_all [Validator.returns, Verdict.messages, Validator.goesTo]
  | minus1 =>
      simp only [Validator.errmsgs, Validator.round, hblank, if_false, Bool.false_eq_true]
      split_ifs <;> simp [Validator.returns, Verdict.messages]
  | stop =>
      simp only [Validator.errmsgs, Validator.round, hblank, if_false, Bool.false_eq_true]
      split_ifs <;> simp [Validator.returns, Verdict.messages]

/-- **The run.**  What `vldcmdln` prints is the message of its verdict. -/
theorem vldcmdlnErrmsgs_eq (cmdln : List UInt8) :
    vldcmdlnErrmsgs cmdln = (vldcmdln cmdln).messages := by
  obtain ⟨verdict, hverdict⟩ := exists_ends .cmd .readSet cmdln
  rw [vldcmdln_eq_iff.mpr hverdict]
  -- a state that has returned is the last one
  have hrun := While.states_induction (fun _ => True) (fun _ _ _ => trivial)
    (fun _ hgo _ => round_remaining hgo)
    (fun v vs last => (v.verdict ≠ none → last = v) ∧ vs.flatMap Validator.errmsgs =
      if v.verdict = none then (last.verdict.map Verdict.messages).getD [] else [])
    ?_ ?_ (show True from trivial) (s := ⟨.cmd, .readSet, cmdln, none⟩)
  · rw [hverdict] at hrun
    exact hrun.2
  · intro v hstop _
    have hsome : v.verdict ≠ none := of_decide_eq_false hstop
    rw [if_neg hsome]
    exact ⟨fun _ => rfl, rfl⟩
  · intro v vs last hgo _ hrest
    have hnone : v.verdict = none := of_decide_eq_true hgo
    refine ⟨fun h => absurd hnone h, ?_⟩
    rw [List.flatMap_cons, hrest.2, round_errmsgs hnone, if_pos hnone]
    by_cases hround : v.round.verdict = none
    · rw [if_pos hround, hround]
      rfl
    · rw [if_neg hround, hrest.1 hround, List.append_nil]

/-! ## A rejection without a message -/

/-- The numbers behind a set name, each behind a comma, and what stands behind
the last of them. -/
inductive Numbers : List UInt8 → List (Fin 128) → List UInt8 → Prop
  | done {rest : List UInt8} : Numbers rest [] rest
  | more {blank blank' behind rest : List UInt8} {n : Fin 128} {numbers : List (Fin 128)}
      (hblank : Blank blank) (hblank' : Blank blank') (hbehind : Numbers behind numbers rest) :
      Numbers (blank ++ comma :: (blank' ++ (decimal n ++ behind))) (n :: numbers) rest

/-- The decimal point. -/
def point : UInt8 := '.'.toUInt8

/-- A point that no digit follows. -/
def PointAlone (text : List UInt8) : Prop :=
  ∃ rest, text = point :: rest ∧ isdigit (charAt rest) = false

/-- A `read_set` line that is right up to a point behind the set name or behind
a number, and no digit follows the point. -/
def StrayPoint (line : List UInt8) : Prop :=
  ∃ (blank blank' blank'' behind text : List UInt8) (x : SetName) (numbers : List (Fin 128)),
    Blank blank ∧ Blank blank' ∧ Blank blank'' ∧
    line = blank ++ (CommandName.readSet.text ++ (blank' ++ (sets.get x ++ behind))) ∧
    Numbers behind numbers (blank'' ++ text) ∧ PointAlone text

/-- From a state on, the line is rejected and nothing is printed. -/
abbrev Silent : Status → CommandName → List UInt8 → Prop :=
  Ends (.invalid none)

/-- The states behind which numbers are never looked for. -/
def Validator.BesideNumbers (v : Validator) : Prop :=
  match v.state with
  | .set1 | .commaAfterSet1 => v.command ≠ .readSet
  | .cmd | .number | .commaRead => False
  | .set2 | .commaAfterSet2 | .result | .minus1 | .stop => True

/-- Only the state behind a number rejects without a message. -/
theorem BesideNumbers.round {v : Validator} (hv : v.verdict = none) (h : v.BesideNumbers) :
    v.round.BesideNumbers ∧ v.round.verdict ≠ some (.invalid none) := by
  obtain ⟨state, command, cmdln, verdict⟩ := v
  obtain rfl : verdict = none := hv
  by_cases hblank : isspace (charAt cmdln) = true
  · simpa [Validator.round, hblank, Validator.BesideNumbers] using h
  cases state with
  | cmd => exact absurd h (by simp [Validator.BesideNumbers])
  | number => exact absurd h (by simp [Validator.BesideNumbers])
  | commaRead => exact absurd h (by simp [Validator.BesideNumbers])
  | set1 =>
      have hread : command ≠ .readSet := h
      simp only [Validator.round, hblank, hread, if_false, Bool.false_eq_true, Validator.endsLine]
      split_ifs <;>
        simp [Validator.BesideNumbers, Validator.returns, Validator.goesTo, hread]
  | commaAfterSet1 =>
      have hread : command ≠ .readSet := h
      simp only [Validator.round, hblank, if_false, Bool.false_eq_true]
      split_ifs <;> simp_all [Validator.BesideNumbers, Validator.returns, Validator.goesTo]
  | set2 =>
      simp only [Validator.round, hblank, if_false, Bool.false_eq_true, Validator.setOperand]
      split_ifs <;> simp [Validator.BesideNumbers, Validator.returns, Validator.goesTo]
  | commaAfterSet2 =>
      simp only [Validator.round, hblank, if_false, Bool.false_eq_true]
      split_ifs <;> simp [Validator.BesideNumbers, Validator.returns, Validator.goesTo]
  | result =>
      simp only [Validator.round, hblank, if_false, Bool.false_eq_true, Validator.setOperand,
        Validator.endsLine]
      split_ifs <;> simp [Validator.BesideNumbers, Validator.returns, Validator.goesTo]
  | minus1 =>
      simp only [Validator.round, hblank, if_false, Bool.false_eq_true]
      split_ifs <;> simp [Validator.BesideNumbers, Validator.returns]
  | stop =>
      simp only [Validator.round, hblank, if_false, Bool.false_eq_true]
      split_ifs <;> simp [Validator.BesideNumbers, Validator.returns]

/-- **Beside the numbers** every rejection is explained. -/
theorem not_silent_of_besideNumbers {state : Status} {command : CommandName}
    {cmdln : List UInt8} (h : (⟨state, command, cmdln, none⟩ : Validator).BesideNumbers) :
    ¬ Silent state command cmdln := by
  have hrule : ∀ v, v = While.loop Validator.goesOn Validator.round Validator.remaining
      ⟨state, command, cmdln, none⟩ → v.BesideNumbers ∧ v.verdict ≠ some (.invalid none) := by
    intro v hv
    rw [hv]
    exact (While.loop_rule (fun v => v.BesideNumbers ∧ v.verdict ≠ some (.invalid none))
      (fun v hgo hv => BesideNumbers.round (of_decide_eq_true hgo) hv.1)
      (fun v hgo _ => round_remaining hgo) ⟨h, by simp⟩).1
  exact (hrule _ rfl).2

section Silent

variable {command : CommandName} {cmdln : List UInt8} (hfront : Front cmdln)

include hfront

/-- Only `read_set` lines are rejected without a message. -/
theorem silent_cmd : Silent .cmd command cmdln ↔
    ∃ rest, cmdln = CommandName.readSet.text ++ rest ∧ Silent .set1 .readSet rest := by
  constructor
  · intro hsilent
    cases hname : vldcmdname cmdln with
    | none =>
        have hreturns : Validator.round ⟨.cmd, command, cmdln, none⟩ =
            Validator.returns ⟨.cmd, command, cmdln, none⟩ (.invalid (some 1)) := by
          rw [Validator.round, if_neg (round_front hfront _)]
          simp only [hname]
        have hverdict := (ends_of_returns hreturns).mp hsilent
        exact absurd hverdict (by simp)
    | some found =>
        obtain ⟨rest, hrest⟩ := vldcmdname_eq_some hname
        subst hrest
        have hround := round_cmd command found rest
        by_cases hread : found = .readSet
        · subst hread
          exact ⟨rest, rfl, (ends_of_goesOn hround).mp hsilent⟩
        by_cases hstop : found = .stop
        · rw [if_pos hstop] at hround
          have hstopped := (ends_of_goesOn hround).mp hsilent
          exact absurd hstopped (not_silent_of_besideNumbers trivial)
        · rw [if_neg hstop] at hround
          have hset := (ends_of_goesOn hround).mp hsilent
          exact absurd hset (not_silent_of_besideNumbers hread)
  · intro h
    obtain ⟨rest, hrest, hsilent⟩ := h
    subst hrest
    exact (ends_of_goesOn (round_cmd command .readSet rest)).mpr hsilent

/-- A line is silent at its set if it is silent behind it. -/
theorem silent_set1 : Silent .set1 .readSet cmdln ↔
    ∃ (x : SetName) (rest : List UInt8), cmdln = sets.get x ++ rest ∧
      Silent .commaRead .readSet rest := by
  constructor
  · intro hsilent
    cases hname : vldsetname cmdln with
    | none =>
        have hreturns : ∃ v message, Validator.round ⟨.set1, .readSet, cmdln, none⟩ =
            Validator.returns v (.invalid (some message)) := by
          rw [Validator.round, if_neg (round_front hfront _)]
          simp only [hname, if_true]
          split_ifs <;> exact ⟨_, _, rfl⟩
        obtain ⟨v, message, hreturns⟩ := hreturns
        have hverdict := (ends_of_returns hreturns).mp hsilent
        exact absurd hverdict (by simp)
    | some x =>
        obtain ⟨rest, hrest⟩ := vldsetname_eq_some hname
        subst hrest
        exact ⟨x, rest, rfl, (ends_of_goesOn (round_set1 .readSet x rest)).mp hsilent⟩
  · intro h
    obtain ⟨x, rest, hrest, hsilent⟩ := h
    subst hrest
    exact (ends_of_goesOn (round_set1 .readSet x rest)).mpr hsilent

omit hfront in
/-- A point alone is one with no digit behind it. -/
theorem pointAlone_iff :
    PointAlone cmdln ↔ charAt cmdln = point ∧ isdigit (charAt cmdln.tail) = false := by
  constructor
  · intro h
    obtain ⟨rest, hrest, hdigit⟩ := h
    rw [hrest]
    exact ⟨rfl, hdigit⟩
  · intro h
    obtain ⟨hpoint, hdigit⟩ := h
    obtain ⟨rest, hrest⟩ := (charAt_eq_iff (by decide)).mp hpoint
    rw [hrest] at hdigit
    exact ⟨rest, hrest, hdigit⟩

/-- Where no comma stands behind a set name or a number, the line is rejected. -/
theorem round_commaMissing (command : CommandName) (hcomma : charAt cmdln ≠ comma) :
    Validator.round ⟨.commaRead, command, cmdln, none⟩ =
      Validator.returns ⟨.commaRead, command, cmdln, none⟩
        (.invalid (if charAt cmdln = 0 then some 3
          else if charAt cmdln = point then
            if isdigit (charAt cmdln.tail) then some 4 else none
          else some 8)) := by
  rw [Validator.round, if_neg (round_front hfront _)]
  simp only [hcomma, ne_eq, not_false_eq_true, if_true]
  by_cases hzero : charAt cmdln = 0
  · rw [if_pos hzero, if_pos hzero]
  rw [if_neg hzero, if_neg hzero]
  by_cases hpoint : charAt cmdln = point
  · rw [if_pos (show charAt cmdln = '.'.toUInt8 from hpoint), if_pos hpoint]
  · rw [if_neg (show charAt cmdln ≠ '.'.toUInt8 from hpoint), if_neg hpoint]

/-- Behind a set name or a number: a comma, or a point alone. -/
theorem silent_commaRead : Silent .commaRead command cmdln ↔
    (∃ rest, cmdln = comma :: rest ∧ Silent .number command rest) ∨ PointAlone cmdln := by
  by_cases hcomma : charAt cmdln = comma
  · obtain ⟨rest, hrest⟩ := (charAt_eq_iff comma_ne_zero).mp hcomma
    subst hrest
    apply (ends_of_goesOn (round_commaRead command rest)).trans
    constructor
    · intro hsilent
      exact Or.inl ⟨rest, rfl, hsilent⟩
    · intro h
      rcases h with ⟨rest', heq, hsilent⟩ | ⟨rest', heq, -⟩
      · rw [(List.cons.inj heq).2]
        exact hsilent
      · exact absurd (List.cons.inj heq).1 (by decide)
  · have hno : (∃ rest, cmdln = comma :: rest ∧ Silent .number command rest) → False := by
      intro h
      obtain ⟨rest, hrest, -⟩ := h
      exact hcomma (by rw [hrest]; rfl)
    rw [or_iff_right hno, pointAlone_iff]
    apply (ends_of_returns (round_commaMissing hfront command hcomma)).trans
    by_cases hzero : charAt cmdln = 0
    · rw [if_pos hzero, hzero]
      exact iff_of_false (by simp) fun h => absurd h.1 (by decide)
    · rw [if_neg hzero]
      split_ifs with hpoint hdigit
      · simp [hdigit]
      · simp [hpoint, hdigit]
      · simp [hpoint]

omit hfront in
/-- What is rejected without a message behind a number does not begin with a
digit. -/
theorem Silent.not_digit (h : Silent .commaRead command cmdln) :
    isdigit (charAt cmdln) = false := by
  obtain ⟨blank, rest, hblank, hfront, hcmdln⟩ := exists_front cmdln
  subst hcmdln
  apply not_digit_of_blank hblank
  rcases (silent_commaRead hfront).mp ((ends_blank hblank).mp h) with
    ⟨behind, hbehind, -⟩ | ⟨behind, hbehind, -⟩
  · rw [hbehind]
    exact (by decide : isdigit comma = false)
  · rw [hbehind]
    exact (by decide : isdigit point = false)

theorem silent_number : Silent .number command cmdln ↔
    ∃ n rest, cmdln = decimal n ++ rest ∧ Silent .commaRead command rest := by
  constructor
  · intro hsilent
    -- the state behind a -1 explains
    have hminus1 : ∀ rest, Validator.round ⟨.number, command, cmdln, none⟩ =
        ⟨.minus1, command, rest, none⟩ → False := by
      intro rest hround
      have hbeside : (⟨.minus1, command, rest, none⟩ : Validator).BesideNumbers := trivial
      exact not_silent_of_besideNumbers hbeside ((ends_of_goesOn hround).mp hsilent)
    cases round_number_cases hfront command with
    | explained hround => exact absurd ((ends_of_returns hround).mp hsilent) (by simp)
    | number hcmdln hround => exact ⟨_, _, hcmdln, (ends_of_goesOn hround).mp hsilent⟩
    | minusOne hcmdln hround => exact (hminus1 _ hround).elim
    | digitBehind hstate hdigit hround =>
        rcases hstate with hcommaRead | hminus
        · subst hcommaRead
          have hbehind : Silent .commaRead command _ := (ends_of_goesOn hround).mp hsilent
          rw [hbehind.not_digit] at hdigit
          cases hdigit
        · subst hminus
          exact (hminus1 _ hround).elim
  · intro h
    obtain ⟨n, rest, hcmdln, hsilent⟩ := h
    subst hcmdln
    exact (ends_of_goesOn (round_decimal command n hsilent.not_digit)).mpr hsilent

end Silent

/-- **Behind the set name.**  Numbers, then a point alone. -/
theorem silent_numbers {command : CommandName} {cmdln : List UInt8} :
    Silent .commaRead command cmdln ↔ ∃ (numbers : List (Fin 128)) (blank text : List UInt8),
      Blank blank ∧ Numbers cmdln numbers (blank ++ text) ∧ PointAlone text := by
  constructor
  · intro hsilent
    induction hn : cmdln.length using Nat.strong_induction_on generalizing cmdln with
    | h n ih =>
        obtain ⟨blank, line, hblank, hfront, hcmdln⟩ := exists_front cmdln
        subst hcmdln
        rcases (silent_commaRead hfront).mp ((ends_blank hblank).mp hsilent) with
          ⟨behind, hbehind, hnumber⟩ | halone
        · obtain ⟨blank', line', hblank', hfront', hline'⟩ := exists_front behind
          subst hline' hbehind
          obtain ⟨m, rest, hrest, hnext⟩ :=
            (silent_number hfront').mp ((ends_blank hblank').mp hnumber)
          subst hrest
          have hshorter : rest.length < n := by
            rw [← hn]
            simp only [List.length_append, List.length_cons]
            omega
          obtain ⟨numbers, blank'', text, hblank'', hnumbers, halone⟩ := ih _ hshorter hnext rfl
          exact ⟨m :: numbers, blank'', text, hblank'', .more hblank hblank' hnumbers, halone⟩
        · exact ⟨[], blank, line, hblank, .done, halone⟩
  · intro h
    obtain ⟨numbers, blank, text, hblank, hnumbers, halone⟩ := h
    generalize hlast : blank ++ text = last at hnumbers
    induction hnumbers with
    | done =>
        subst hlast
        have hfront : Front text := by
          obtain ⟨rest, hrest, -⟩ := halone
          rw [hrest]
          exact (by decide : isspace point = false)
        exact (ends_blank hblank).mpr ((silent_commaRead hfront).mpr (Or.inr halone))
    | @more blank1 blank2 behind rest n numbers hblank1 hblank2 _ ih =>
        have hbehind := ih hlast
        have hnumber : Silent .number command (decimal n ++ behind) :=
          (silent_number (decimal_front n behind)).mpr ⟨n, behind, rfl, hbehind⟩
        apply (ends_blank hblank1).mpr
        apply (silent_commaRead (front_comma _)).mpr
        exact Or.inl ⟨_, rfl, (ends_blank hblank2).mpr hnumber⟩

/-- **The silent rejections.** -/
theorem vldcmdln_silent_iff {line : List UInt8} :
    vldcmdln line = .invalid none ↔ StrayPoint line := by
  obtain ⟨blank, sentence, hblank, hfront, hline⟩ := exists_front line
  subst hline
  apply (vldcmdln_eq_iff.trans (ends_blank hblank)).trans
  constructor
  · intro hsilent
    obtain ⟨operands, hoperands, hset⟩ := (silent_cmd hfront).mp hsilent
    obtain ⟨blank', line', hblank', hfront', hline'⟩ := exists_front operands
    subst hline' hoperands
    obtain ⟨x, behind, hbehind, hnumber⟩ :=
      (silent_set1 hfront').mp ((ends_blank hblank').mp hset)
    subst hbehind
    obtain ⟨numbers, blank'', text, hblank'', hnumbers, halone⟩ := silent_numbers.mp hnumber
    exact ⟨blank, blank', blank'', behind, text, x, numbers, hblank, hblank', hblank'', rfl,
      hnumbers, halone⟩
  · intro h
    obtain ⟨blank1, blank', blank'', behind, text, x, numbers, hblank1, hblank', hblank'', hline,
      hnumbers, halone⟩ := h
    have hsentence : sentence = CommandName.readSet.text ++ (blank' ++ (sets.get x ++ behind)) := by
      rw [← dropWhile_blank hblank hfront, hline, dropWhile_blank hblank1 (front_text _ _)]
    subst hsentence
    refine (silent_cmd hfront).mpr ⟨_, rfl, (ends_blank hblank').mpr ?_⟩
    refine (silent_set1 (sets_front x behind).1).mpr ⟨x, behind, rfl, ?_⟩
    exact silent_numbers.mpr ⟨numbers, blank'', text, hblank'', hnumbers, halone⟩

/-! ## Validation -/

/-- What `vldcmdln` is meant to do with a line: accept it exactly when it is a
line of the language, and print exactly one error message when it rejects it. -/
structure Validated (line : List UInt8) : Prop where
  accepts : vldcmdln line = .valid ↔ ∃ request, Denotes line request
  explains : vldcmdln line ≠ .valid → (vldcmdlnErrmsgs line).length = 1

/-- **Validation, with its messages.**  Every line is treated right, but for
the lines with a point alone behind a set name or a number of `read_set`. -/
theorem vldcmdln_validates_iff {line : List UInt8} (hline : 0 ∉ line) :
    Validated line ↔ ¬ StrayPoint line := by
  rw [← vldcmdln_silent_iff]
  constructor
  · intro h hverdict
    have hone := h.explains (by rw [hverdict]; simp)
    rw [vldcmdlnErrmsgs_eq, hverdict] at hone
    exact absurd hone (by decide)
  · intro hexplained
    refine ⟨vldcmdln_valid_iff hline, ?_⟩
    intro hinvalid
    rw [vldcmdlnErrmsgs_eq]
    cases hverdict : vldcmdln line with
    | valid => exact absurd hverdict hinvalid
    | invalid message =>
        cases message with
        | none => exact absurd hverdict hexplained
        | some message => rfl

/-- A line that is accepted, and one that is rejected with a message. -/
theorem vldcmdln_validates_sample :
    Validated (bytes "read_set SETA, 5, -1") ∧ Validated (bytes "read_set SETA, 5.0") := by
  refine ⟨(vldcmdln_validates_iff (by decide)).mpr ?_, (vldcmdln_validates_iff (by decide)).mpr ?_⟩
  · rw [← vldcmdln_silent_iff]
    decide +kernel
  · rw [← vldcmdln_silent_iff]
    decide +kernel

/-- `read_set SETA, 5.` is rejected and nothing is said. -/
theorem vldcmdln_says_nothing : ¬ Validated (bytes "read_set SETA, 5.\n") := by
  intro h
  have hinvalid : vldcmdln (bytes "read_set SETA, 5.\n") ≠ .valid := by decide +kernel
  have hnothing : vldcmdlnErrmsgs (bytes "read_set SETA, 5.\n") = [] := by decide +kernel
  have hone := h.explains hinvalid
  rw [hnothing] at hone
  exact absurd hone (by decide)

end SetCalculator
