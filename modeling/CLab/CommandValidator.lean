import CLab.CommandGrammar

/-!
# The validator accepts the language

`vldcmdln` goes over a line from state to state.  For each state: what a line
has to begin with for the rest to be accepted.  Put together they are the
sentences of the language (`vldcmdln_valid_iff`).
-/

namespace SetCalculator

open Assembler (bytes forall_char)
open SetMachine (Command Operation)

/-! ## The loop ends -/

/-- A character that is read is there, if it is not the terminator. -/
theorem ne_nil_of_charAt {line : List UInt8} {ch : UInt8} (h : charAt line = ch) (hch : ch ≠ 0) :
    line ≠ [] := by
  intro heq
  obtain rfl := heq
  exact hch h.symm

theorem ne_nil_of_charAt_ne_zero {line : List UInt8} (h : charAt line ≠ 0) : line ≠ [] :=
  ne_nil_of_charAt rfl h

section Remaining

variable {v : Validator} (hv : v.verdict = none)

include hv

/-- Going on behind some characters leaves less of the line. -/
theorem goesTo_remaining {state : Status} {n : Nat} (hn : 0 < n) (hne : v.cmdln ≠ []) :
    (v.goesTo state n).remaining < v.remaining := by
  have hpos := List.length_pos_of_ne_nil hne
  simp only [Validator.remaining, Validator.goesTo, hv, if_true, List.length_drop]
  omega

/-- Returning leaves less to do. -/
theorem returns_remaining (verdict : Verdict) : (v.returns verdict).remaining < v.remaining := by
  simp [Validator.remaining, Validator.returns, hv]

theorem endsLine_remaining {state : Status} {n : Nat} :
    (v.goesTo state n).endsLine.remaining < v.remaining := by
  unfold Validator.endsLine
  split_ifs <;> simp [Validator.remaining, Validator.returns, hv]

theorem setOperand_remaining {found : Validator}
    (hfound : v.cmdln ≠ [] → found.remaining < v.remaining) :
    (v.setOperand found).remaining < v.remaining := by
  unfold Validator.setOperand
  split_ifs with hcomma hzero hname
  · exact returns_remaining hv _
  · exact returns_remaining hv _
  · exact returns_remaining hv _
  · exact hfound (ne_nil_of_charAt_ne_zero hzero)

end Remaining

/-- A comma is not the terminator. -/
theorem comma_ne_zero : comma ≠ 0 := by decide

/-- No command has an empty name. -/
theorem text_length_pos (command : CommandName) : 0 < command.text.length := by
  cases command <;> decide

/-- Every round of `vldcmdln` returns or moves the pointer. -/
theorem round_remaining {v : Validator} (h : v.goesOn = true) :
    v.round.remaining < v.remaining := by
  have hv : v.verdict = none := of_decide_eq_true h
  unfold Validator.round
  by_cases hblank : isspace (charAt v.cmdln) = true
  · rw [if_pos hblank]
    have hne : v.cmdln ≠ [] := by
      apply ne_nil_of_charAt_ne_zero
      intro hzero
      rw [hzero] at hblank
      exact absurd hblank (by decide)
    have hpos := List.length_pos_of_ne_nil hne
    simp only [Validator.remaining, hv, if_true, List.length_tail]
    omega
  rw [if_neg hblank]
  cases v.state with
  | cmd =>
      simp only
      cases hname : vldcmdname v.cmdln with
      | none => exact returns_remaining hv _
      | some command =>
          have hne : v.cmdln ≠ [] := by
            obtain ⟨rest, hrest⟩ := vldcmdname_eq_some hname
            rw [hrest]
            exact List.append_ne_nil_of_left_ne_nil
              (List.ne_nil_of_length_pos (text_length_pos command)) rest
          simp only
          split_ifs
          · exact goesTo_remaining (v := { v with command := command }) hv
              (text_length_pos command) hne
          · exact goesTo_remaining (v := { v with command := command }) hv
              (text_length_pos command) hne
  | set1 =>
      simp only
      split_ifs with hzero
      · exact returns_remaining hv _
      · exact returns_remaining hv _
      · exact returns_remaining hv _
      · exact endsLine_remaining hv
      all_goals exact goesTo_remaining hv (by decide) (ne_nil_of_charAt_ne_zero hzero)
  | commaAfterSet1 =>
      simp only
      split_ifs with hcomma
      · exact returns_remaining hv _
      all_goals
        exact goesTo_remaining hv (by decide)
          (ne_nil_of_charAt (not_not.mp hcomma) comma_ne_zero)
  | set2 => exact setOperand_remaining hv (goesTo_remaining hv (by decide))
  | commaAfterSet2 =>
      simp only
      split_ifs with hcomma
      · exact returns_remaining hv _
      · exact goesTo_remaining hv (by decide)
          (ne_nil_of_charAt (not_not.mp hcomma) comma_ne_zero)
  | result => exact setOperand_remaining hv fun _ => endsLine_remaining hv
  | number =>
      simp only
      split_ifs with hzero hcomma hnum hone
      · exact returns_remaining hv _
      · exact returns_remaining hv _
      · exact returns_remaining hv _
      all_goals exact goesTo_remaining hv (by omega) (ne_nil_of_charAt_ne_zero hzero)
  | commaRead =>
      simp only
      split_ifs with hzero hcomma
      · exact returns_remaining hv _
      · exact returns_remaining hv _
      · exact returns_remaining hv _
      · exact returns_remaining hv _
      · exact goesTo_remaining hv (by decide)
          (ne_nil_of_charAt (not_not.mp hcomma) comma_ne_zero)
  | minus1 =>
      simp only
      split_ifs <;> exact returns_remaining hv _
  | stop =>
      simp only
      split_ifs <;> exact returns_remaining hv _

/-! ## What a line ends with -/

/-- From a state on, the loop returns a verdict. -/
def Ends (verdict : Verdict) (state : Status) (command : CommandName) (cmdln : List UInt8) : Prop :=
  (While.loop Validator.goesOn Validator.round Validator.remaining
    ⟨state, command, cmdln, none⟩).verdict = some verdict

/-- The line is accepted from a state on. -/
def Accepts (state : Status) (command : CommandName) (cmdln : List UInt8) : Prop :=
  (While.loop Validator.goesOn Validator.round Validator.remaining
    ⟨state, command, cmdln, none⟩).verdict = some .valid

section Ends

variable {state : Status} {command : CommandName} {cmdln : List UInt8} {verdict : Verdict}

/-- The loop always returns. -/
theorem exists_ends (state : Status) (command : CommandName) (cmdln : List UInt8) :
    ∃ verdict, Ends verdict state command cmdln := by
  have hexit := (While.loop_rule (fun _ => True) (fun _ _ _ => trivial)
    (fun _ hgo _ => round_remaining hgo)
    (show True from trivial) (s := ⟨state, command, cmdln, none⟩)).2
  have hsome := of_decide_eq_false hexit
  exact Option.ne_none_iff_exists'.mp hsome

/-- What `vldcmdln` returns is what the loop returns. -/
theorem vldcmdln_eq_iff : vldcmdln cmdln = verdict ↔ Ends verdict .cmd .readSet cmdln := by
  obtain ⟨returned, hreturned⟩ := exists_ends .cmd .readSet cmdln
  rw [vldcmdln, Ends, hreturned, Option.getD_some, Option.some.injEq]

/-- A line is valid if the machine accepts it from its start. -/
theorem vldcmdln_eq_valid (cmdln : List UInt8) :
    vldcmdln cmdln = .valid ↔ Accepts .cmd .readSet cmdln :=
  vldcmdln_eq_iff

/-- One round can be taken off the loop. -/
theorem loop_round :
    While.loop Validator.goesOn Validator.round Validator.remaining
        ⟨state, command, cmdln, none⟩ =
      While.loop Validator.goesOn Validator.round Validator.remaining
        (Validator.round ⟨state, command, cmdln, none⟩) :=
  While.loop_step (fun _ => True) (fun _ _ _ => trivial)
    (fun _ hgo _ => round_remaining hgo) trivial rfl

/-- A round that returns decides. -/
theorem ends_of_returns {returned : Verdict} {v : Validator}
    (hround : Validator.round ⟨state, command, cmdln, none⟩ = v.returns returned) :
    Ends verdict state command cmdln ↔ returned = verdict := by
  have hexit : While.loop Validator.goesOn Validator.round Validator.remaining
      (v.returns returned) = v.returns returned := While.loop_exit rfl
  rw [Ends, loop_round, hround, hexit]
  simp [Validator.returns]

/-- A round that goes on leads to the next state. -/
theorem ends_of_goesOn {state' : Status} {command' : CommandName} {cmdln' : List UInt8}
    (hround : Validator.round ⟨state, command, cmdln, none⟩ = ⟨state', command', cmdln', none⟩) :
    Ends verdict state command cmdln ↔ Ends verdict state' command' cmdln' := by
  rw [Ends, Ends, loop_round, hround]

/-- Blanks are passed over in every state. -/
theorem ends_blank {blank : List UInt8} (hblank : Blank blank) :
    Ends verdict state command (blank ++ cmdln) ↔ Ends verdict state command cmdln := by
  induction blank with
  | nil => exact Iff.rfl
  | cons ch blank ih =>
      have hch : isspace ch = true := hblank ch List.mem_cons_self
      rw [← ih fun d hd => hblank d (List.mem_cons_of_mem _ hd)]
      apply ends_of_goesOn
      rw [Validator.round]
      exact if_pos hch

/-- A round that returns decides. -/
theorem accepts_of_returns {v : Validator}
    (hround : Validator.round ⟨state, command, cmdln, none⟩ = v.returns verdict) :
    Accepts state command cmdln ↔ verdict = .valid :=
  ends_of_returns hround

theorem accepts_of_goesOn {state' : Status} {command' : CommandName} {cmdln' : List UInt8}
    (hround : Validator.round ⟨state, command, cmdln, none⟩ = ⟨state', command', cmdln', none⟩) :
    Accepts state command cmdln ↔ Accepts state' command' cmdln' :=
  ends_of_goesOn hround

/-- Blanks in front do not count. -/
theorem accepts_blank {blank : List UInt8} (hblank : Blank blank) :
    Accepts state command (blank ++ cmdln) ↔ Accepts state command cmdln :=
  ends_blank hblank

end Ends

/-- The character that is read is the first of the line. -/
theorem charAt_eq_iff {line : List UInt8} {ch : UInt8} (hch : ch ≠ 0) :
    charAt line = ch ↔ ∃ rest, line = ch :: rest := by
  cases line with
  | nil => exact iff_of_false (fun h => hch h.symm) (by simp)
  | cons d line => simp [charAt]

/-- The terminator is read at the end of the line only. -/
theorem charAt_eq_zero {line : List UInt8} (hline : 0 ∉ line) : charAt line = 0 ↔ line = [] := by
  cases line with
  | nil => simp [charAt]
  | cons d line =>
      have hd : d ≠ 0 := fun h => hline (h ▸ List.mem_cons_self)
      simp [charAt, hd]

/-! ## What each state accepts -/

section States

variable {command : CommandName} {cmdln : List UInt8} (hfront : Front cmdln)

include hfront

/-- In front of a word no blank is skipped. -/
theorem round_front (state : Status) :
    ¬ isspace (charAt (⟨state, command, cmdln, none⟩ : Validator).cmdln) = true :=
  Bool.not_eq_true _ ▸ hfront

omit hfront in
/-- A state that looks for a comma, by what its round does at one. -/
theorem accepts_comma {state state' : Status}
    (hcomma : ∀ rest, Validator.round ⟨state, command, comma :: rest, none⟩ =
      ⟨state', command, rest, none⟩)
    (hother : charAt cmdln ≠ comma → ∃ v message,
      Validator.round ⟨state, command, cmdln, none⟩ = Validator.returns v (.invalid message)) :
    Accepts state command cmdln ↔ ∃ rest, cmdln = comma :: rest ∧ Accepts state' command rest := by
  by_cases h : charAt cmdln = comma
  · obtain ⟨rest, rfl⟩ := (charAt_eq_iff comma_ne_zero).mp h
    rw [accepts_of_goesOn (hcomma rest)]
    constructor
    · exact fun haccepts => ⟨rest, rfl, haccepts⟩
    · intro hfacts
      obtain ⟨rest', heq, haccepts⟩ := hfacts
      obtain rfl := (List.cons.inj heq).2
      exact haccepts
  · obtain ⟨v, message, hround⟩ := hother h
    rw [accepts_of_returns hround]
    apply iff_of_false (by simp)
    intro hfacts
    obtain ⟨rest, heq, -⟩ := hfacts
    exact h (by rw [heq]; rfl)

omit hfront in
/-- The comma behind the set of `read_set` is stepped over. -/
theorem round_commaRead (command : CommandName) (rest : List UInt8) :
    Validator.round ⟨.commaRead, command, comma :: rest, none⟩ =
      ⟨.number, command, rest, none⟩ := by
  have hfront : Front (comma :: rest) := (by decide : isspace comma = false)
  rw [Validator.round, if_neg (round_front hfront _)]
  simp [charAt, comma_ne_zero, Validator.goesTo]

theorem accepts_commaRead :
    Accepts .commaRead command cmdln ↔
      ∃ rest, cmdln = comma :: rest ∧ Accepts .number command rest := by
  refine accepts_comma ?_ ?_
  · exact fun rest => round_commaRead command rest
  · intro h
    rw [Validator.round, if_neg (round_front hfront _)]
    simp only [h, ne_eq, not_false_eq_true, if_true]
    split_ifs <;> exact ⟨_, _, rfl⟩

omit hfront in
/-- So is the comma behind a first set. -/
theorem round_commaAfterSet1 (hread : command ≠ .readSet) (rest : List UInt8) :
    Validator.round ⟨.commaAfterSet1, command, comma :: rest, none⟩ =
      ⟨.set2, command, rest, none⟩ := by
  have hfront : Front (comma :: rest) := (by decide : isspace comma = false)
  rw [Validator.round, if_neg (round_front hfront _)]
  simp [charAt, hread, Validator.goesTo]

omit hfront in
theorem round_commaAfterSet2 (command : CommandName) (rest : List UInt8) :
    Validator.round ⟨.commaAfterSet2, command, comma :: rest, none⟩ =
      ⟨.result, command, rest, none⟩ := by
  have hfront : Front (comma :: rest) := (by decide : isspace comma = false)
  rw [Validator.round, if_neg (round_front hfront _)]
  simp [charAt, Validator.goesTo]

/-- Behind a first set a comma is asked for. -/
theorem accepts_commaAfterSet1 (hread : command ≠ .readSet) :
    Accepts .commaAfterSet1 command cmdln ↔
      ∃ rest, cmdln = comma :: rest ∧ Accepts .set2 command rest := by
  refine accepts_comma ?_ ?_
  · exact fun rest => round_commaAfterSet1 hread rest
  · intro h
    rw [Validator.round, if_neg (round_front hfront _)]
    simp only [h, ne_eq, not_false_eq_true, if_true]
    exact ⟨_, _, rfl⟩

theorem accepts_commaAfterSet2 :
    Accepts .commaAfterSet2 command cmdln ↔
      ∃ rest, cmdln = comma :: rest ∧ Accepts .result command rest := by
  refine accepts_comma ?_ ?_
  · exact fun rest => round_commaAfterSet2 command rest
  · intro h
    rw [Validator.round, if_neg (round_front hfront _)]
    simp only [h, ne_eq, not_false_eq_true, if_true]
    exact ⟨_, _, rfl⟩

/-- The states that end a line accept blanks only. -/
theorem accepts_last {state : Status} (hstate : state = .minus1 ∨ state = .stop)
    (hline : 0 ∉ cmdln) : Accepts state command cmdln ↔ cmdln = [] := by
  have hround : Validator.round ⟨state, command, cmdln, none⟩ =
      Validator.returns ⟨state, command, cmdln, none⟩
        (if charAt cmdln ≠ 0 then .invalid (some 6) else .valid) := by
    rw [Validator.round, if_neg (round_front hfront _)]
    rcases hstate with rfl | rfl <;> simp only <;> split_ifs <;> rfl
  rw [accepts_of_returns hround, ← charAt_eq_zero hline]
  split_ifs with h
  · exact iff_of_false (by simp) h
  · exact iff_of_true rfl (not_not.mp h)

omit hfront in
/-- A state that looks for a set name, by what it accepts behind the name. -/
theorem accepts_name {state : Status} {behind : List UInt8 → Prop}
    (hfound : ∀ (x : SetName) (rest : List UInt8), cmdln = sets.get x ++ rest →
      (Accepts state command cmdln ↔ behind rest))
    (hnone : vldsetname cmdln = none → ∃ v message,
      Validator.round ⟨state, command, cmdln, none⟩ = Validator.returns v (.invalid message)) :
    Accepts state command cmdln ↔
      ∃ (x : SetName) (rest : List UInt8), cmdln = sets.get x ++ rest ∧ behind rest := by
  constructor
  · intro haccepts
    cases hname : vldsetname cmdln with
    | none =>
        obtain ⟨v, message, hround⟩ := hnone hname
        exact absurd ((accepts_of_returns hround).mp haccepts) (by simp)
    | some x =>
        obtain ⟨rest, hrest⟩ := vldsetname_eq_some hname
        exact ⟨x, rest, hrest, (hfound x rest hrest).mp haccepts⟩
  · intro hfacts
    obtain ⟨x, rest, hrest, hbehind⟩ := hfacts
    exact (hfound x rest hrest).mpr hbehind

end States

/-- Behind a set name. -/
theorem sets_drop (x : SetName) (rest : List UInt8) :
    (sets.get x ++ rest).drop setNameLen = rest := by
  match x with
  | 0 | 1 | 2 | 3 | 4 | 5 => rfl

/-- Every set name starts with the same letter. -/
theorem charAt_sets (x : SetName) (rest : List UInt8) :
    charAt (sets.get x ++ rest) = 'S'.toUInt8 := by
  match x with
  | 0 | 1 | 2 | 3 | 4 | 5 => rfl

/-- What begins with a set name has no blank, comma or end there. -/
theorem sets_front (x : SetName) (rest : List UInt8) :
    Front (sets.get x ++ rest) ∧ charAt (sets.get x ++ rest) ≠ comma ∧
      charAt (sets.get x ++ rest) ≠ 0 := by
  rw [Front, charAt_sets]
  decide

/-- At the end of a command only blanks are accepted. -/
theorem endsLine_accepts (v : Validator) :
    ∃ verdict, v.endsLine = v.returns verdict ∧ (verdict = .valid ↔ Blank v.cmdln) := by
  unfold Validator.endsLine
  split_ifs with h
  · exact ⟨_, rfl, iff_of_true rfl (blank_iff_all.mp h)⟩
  · exact ⟨_, rfl, iff_of_false (by simp) fun hblank => h (blank_iff_all.mpr hblank)⟩

/-- A blank is no digit. -/
theorem not_digit_of_space : ∀ ch : UInt8, isspace ch = true → isdigit ch = false :=
  forall_char (by decide +kernel)

/-- No digit stands where blanks do, nor where none stands behind them. -/
theorem not_digit_of_blank {blank rest : List UInt8} (hblank : Blank blank)
    (hrest : isdigit (charAt rest) = false) : isdigit (charAt (blank ++ rest)) = false := by
  cases blank with
  | nil => exact hrest
  | cons ch blank => exact not_digit_of_space ch (hblank ch List.mem_cons_self)

/-- No blank stands in front of a number. -/
theorem decimal_front (n : Fin 128) (rest : List UInt8) : Front (decimal n ++ rest) := by
  obtain ⟨hne, hdigits, -⟩ := decimal_digits n
  exact (isdigit_not_special _ (charAt_append hne hdigits rest)).1

theorem minusOne_front (rest : List UInt8) : Front (bytes "-1" ++ rest) :=
  (by decide : isspace '-'.toUInt8 = false)

section Names

variable {command : CommandName} {cmdln : List UInt8} (hfront : Front cmdln)

include hfront

omit hfront in
/-- Behind the first set name the command decides how the line goes on. -/
theorem round_set1 (command : CommandName) (x : SetName) (rest : List UInt8) :
    Validator.round ⟨.set1, command, sets.get x ++ rest, none⟩ =
      if command = .printSet then
        (Validator.goesTo ⟨.set1, command, sets.get x ++ rest, none⟩ .set1 setNameLen).endsLine
      else if command = .readSet then ⟨.commaRead, command, rest, none⟩
      else ⟨.commaAfterSet1, command, rest, none⟩ := by
  obtain ⟨hfront, hcomma, hzero⟩ := sets_front x rest
  rw [Validator.round, if_neg (round_front hfront _)]
  simp only [hcomma, hzero, if_false, vldsetname_sets, reduceCtorEq, Validator.goesTo, sets_drop]

/-- The state that looks for the first set name. -/
theorem accepts_set1 :
    Accepts .set1 command cmdln ↔ ∃ (x : SetName) (rest : List UInt8), cmdln = sets.get x ++ rest ∧
      if command = .printSet then Blank rest
      else if command = .readSet then Accepts .commaRead command rest
      else Accepts .commaAfterSet1 command rest := by
  refine accepts_name ?_ ?_
  · intro x rest heq
    obtain rfl := heq
    have hround := round_set1 command x rest
    by_cases hprint : command = .printSet
    · rw [if_pos hprint] at hround ⊢
      obtain ⟨verdict, hends, hverdict⟩ := endsLine_accepts
        (Validator.goesTo ⟨.set1, command, sets.get x ++ rest, none⟩ .set1 setNameLen)
      rw [accepts_of_returns (hround.trans hends), hverdict]
      simp only [Validator.goesTo, sets_drop]
    · rw [if_neg hprint] at hround ⊢
      by_cases hread : command = .readSet
      · rw [if_pos hread] at hround ⊢
        exact accepts_of_goesOn hround
      · rw [if_neg hread] at hround ⊢
        exact accepts_of_goesOn hround
  · intro hnone
    rw [Validator.round, if_neg (round_front hfront _)]
    simp only [hnone, if_true]
    split_ifs <;> exact ⟨_, _, rfl⟩

omit hfront in
/-- A second set is read in one round. -/
theorem round_set2 (command : CommandName) (x : SetName) (rest : List UInt8) :
    Validator.round ⟨.set2, command, sets.get x ++ rest, none⟩ =
      ⟨.commaAfterSet2, command, rest, none⟩ := by
  obtain ⟨hfront, hcomma, hzero⟩ := sets_front x rest
  rw [Validator.round, if_neg (round_front hfront _)]
  simp only [Validator.setOperand, hcomma, hzero, if_false, vldsetname_sets, reduceCtorEq,
    Validator.goesTo, sets_drop]

omit hfront in
theorem round_result (command : CommandName) (x : SetName) (rest : List UInt8) :
    Validator.round ⟨.result, command, sets.get x ++ rest, none⟩ =
      (Validator.goesTo ⟨.result, command, sets.get x ++ rest, none⟩ .result
        setNameLen).endsLine := by
  obtain ⟨hfront, hcomma, hzero⟩ := sets_front x rest
  rw [Validator.round, if_neg (round_front hfront _)]
  simp only [Validator.setOperand, hcomma, hzero, if_false, vldsetname_sets, reduceCtorEq]

/-- Behind the first comma there is a set and more. -/
theorem accepts_set2 :
    Accepts .set2 command cmdln ↔ ∃ (x : SetName) (rest : List UInt8), cmdln = sets.get x ++ rest ∧
      Accepts .commaAfterSet2 command rest := by
  refine accepts_name ?_ ?_
  · intro x rest heq
    obtain rfl := heq
    exact accepts_of_goesOn (round_set2 command x rest)
  · intro hnone
    rw [Validator.round, if_neg (round_front hfront _)]
    simp only [Validator.setOperand, hnone, if_true]
    split_ifs <;> exact ⟨_, _, rfl⟩

theorem accepts_result :
    Accepts .result command cmdln ↔
      ∃ (x : SetName) (rest : List UInt8), cmdln = sets.get x ++ rest ∧ Blank rest := by
  refine accepts_name ?_ ?_
  · intro x rest heq
    obtain rfl := heq
    obtain ⟨verdict, hends, hverdict⟩ := endsLine_accepts
      (Validator.goesTo ⟨.result, command, sets.get x ++ rest, none⟩ .result setNameLen)
    rw [accepts_of_returns ((round_result command x rest).trans hends), hverdict]
    simp only [Validator.goesTo, sets_drop]
  · intro hnone
    rw [Validator.round, if_neg (round_front hfront _)]
    simp only [Validator.setOperand, hnone, if_true]
    split_ifs <;> exact ⟨_, _, rfl⟩

omit hfront in
/-- Behind the name of the command. -/
theorem round_cmd (command found : CommandName) (rest : List UInt8) :
    Validator.round ⟨.cmd, command, found.text ++ rest, none⟩ =
      if found = .stop then ⟨.stop, found, rest, none⟩ else ⟨.set1, found, rest, none⟩ := by
  have hfront : Front (found.text ++ rest) := by
    cases found <;> rfl
  rw [Validator.round, if_neg (round_front hfront _)]
  simp only [vldcmdname_text, Validator.goesTo, List.drop_left]

/-- The state at the beginning of the line. -/
theorem accepts_cmd :
    Accepts .cmd command cmdln ↔ ∃ (found : CommandName) (rest : List UInt8),
      cmdln = found.text ++ rest ∧
        if found = .stop then Accepts .stop found rest else Accepts .set1 found rest := by
  have hround : ∀ (found : CommandName) (rest : List UInt8), cmdln = found.text ++ rest →
      (Accepts .cmd command cmdln ↔
        if found = .stop then Accepts .stop found rest else Accepts .set1 found rest) := by
    intro found rest hcmdln
    subst hcmdln
    have hround := round_cmd command found rest
    by_cases hstop : found = .stop
    · rw [if_pos hstop] at hround ⊢
      exact accepts_of_goesOn hround
    · rw [if_neg hstop] at hround ⊢
      exact accepts_of_goesOn hround
  constructor
  · intro haccepts
    cases hname : vldcmdname cmdln with
    | none =>
        have hreturns : Validator.round ⟨.cmd, command, cmdln, none⟩ =
            Validator.returns ⟨.cmd, command, cmdln, none⟩ (.invalid (some 1)) := by
          rw [Validator.round, if_neg (round_front hfront _)]
          simp only [hname]
        exact absurd ((accepts_of_returns hreturns).mp haccepts) (by simp)
    | some found =>
        obtain ⟨rest, hrest⟩ := vldcmdname_eq_some hname
        exact ⟨found, rest, hrest, (hround found rest hrest).mp haccepts⟩
  · intro hfacts
    obtain ⟨found, rest, hrest, haccepts⟩ := hfacts
    exact (hround found rest hrest).mpr haccepts

/-- Behind a number the line goes on by what `vldnum` answers. -/
theorem round_number (command : CommandName) {num : Int} (hnum : (vldnum cmdln).1 = num)
    (hzero : charAt cmdln ≠ 0) (hcomma : charAt cmdln ≠ comma) (hne : num ≠ 0) :
    Validator.round ⟨.number, command, cmdln, none⟩ =
      if 1 ≤ num then ⟨.commaRead, command, cmdln.drop num.toNat, none⟩
      else ⟨.minus1, command, cmdln.drop 2, none⟩ := by
  rw [Validator.round, if_neg (round_front hfront _)]
  simp only [hzero, hcomma, hnum, hne, if_false, Validator.goesTo]

/-- Where `vldnum` is not asked or finds no number, the line is rejected. -/
theorem round_numberMissing (command : CommandName)
    (h : charAt cmdln = 0 ∨ charAt cmdln = comma ∨ (vldnum cmdln).1 = 0) :
    ∃ message, Validator.round ⟨.number, command, cmdln, none⟩ =
      Validator.returns ⟨.number, command, cmdln, none⟩ (.invalid (some message)) := by
  rw [Validator.round, if_neg (round_front hfront _)]
  simp only
  by_cases hzero : charAt cmdln = 0
  · exact ⟨3, by rw [if_pos hzero]⟩
  by_cases hcomma : charAt cmdln = comma
  · exact ⟨7, by rw [if_neg hzero, if_pos hcomma]⟩
  have hnum : (vldnum cmdln).1 = 0 := (h.resolve_left hzero).resolve_left hcomma
  obtain ⟨message, hmessage⟩ := Option.ne_none_iff_exists'.mp (vldnum_error hnum)
  exact ⟨message, by rw [if_neg hzero, if_neg hcomma, if_pos hnum, hmessage]⟩

/-- What a round of the state that looks for a number comes to. -/
inductive NumberRound (command : CommandName) (cmdln : List UInt8) : Prop
  | explained {message : Nat}
      (hround : Validator.round ⟨.number, command, cmdln, none⟩ =
        Validator.returns ⟨.number, command, cmdln, none⟩ (.invalid (some message)))
  | number {n : Fin 128} {rest : List UInt8} (hcmdln : cmdln = decimal n ++ rest)
      (hround : Validator.round ⟨.number, command, cmdln, none⟩ =
        ⟨.commaRead, command, rest, none⟩)
  | minusOne {rest : List UInt8} (hcmdln : cmdln = bytes "-1" ++ rest)
      (hround : Validator.round ⟨.number, command, cmdln, none⟩ =
        ⟨.minus1, command, rest, none⟩)
  | digitBehind {state : Status} {k : Nat} (hstate : state = .commaRead ∨ state = .minus1)
      (hdigit : isdigit (charAt (cmdln.drop k)) = true)
      (hround : Validator.round ⟨.number, command, cmdln, none⟩ =
        ⟨state, command, cmdln.drop k, none⟩)

/-- **The round at a number.**  A message, or the pointer stands behind what was
read, which may leave a digit over. -/
theorem round_number_cases (command : CommandName) : NumberRound command cmdln := by
  by_cases hmissing : charAt cmdln = 0 ∨ charAt cmdln = comma ∨ (vldnum cmdln).1 = 0
  · obtain ⟨message, hround⟩ := round_numberMissing hfront command hmissing
    exact .explained hround
  obtain ⟨hzero, hbehind⟩ := not_or.mp hmissing
  obtain ⟨hcomma, hnum⟩ := not_or.mp hbehind
  have hgoes := round_number hfront command rfl hzero hcomma hnum
  have hanswer := vldnum_answer hfront
  generalize (vldnum cmdln).1 = num at hanswer hgoes hnum
  cases hanswer with
  | error => exact absurd rfl hnum
  | @number n rest hdecimal =>
      have hpos : 0 < (decimal n).length := List.length_pos_of_ne_nil (decimal_digits n).1
      rw [if_pos (by omega), Int.toNat_natCast] at hgoes
      have hdrop : cmdln.drop (decimal n).length = rest := by
        rw [hdecimal, List.drop_left]
      exact .number hdecimal (hdrop ▸ hgoes)
  | @minusOne rest hminus =>
      rw [if_neg (by decide)] at hgoes
      have hdrop : cmdln.drop 2 = rest := by
        rw [hminus]
        rfl
      exact .minusOne hminus (hdrop ▸ hgoes)
  | @digitBehind k num hk hpos hdigit =>
      rcases hk with rfl | ⟨rfl, rfl⟩
      · rw [if_pos (by omega), Int.toNat_natCast] at hgoes
        exact .digitBehind (Or.inl rfl) hdigit hgoes
      · rw [if_neg (by decide)] at hgoes
        exact .digitBehind (Or.inr rfl) hdigit hgoes

omit hfront in
/-- A number is passed over. -/
theorem round_decimal (command : CommandName) (n : Fin 128) {rest : List UInt8}
    (hrest : isdigit (charAt rest) = false) :
    Validator.round ⟨.number, command, decimal n ++ rest, none⟩ =
      ⟨.commaRead, command, rest, none⟩ := by
  obtain ⟨hne, hdigits, -⟩ := decimal_digits n
  have hchar := isdigit_not_special _ (charAt_append hne hdigits rest)
  have hpos : 0 < (decimal n).length := List.length_pos_of_ne_nil hne
  have hnum : (vldnum (decimal n ++ rest)).1 = (decimal n).length :=
    congrArg Prod.fst (vldnum_decimal n hrest)
  rw [round_number hchar.1 command hnum hchar.2.2.2.2 hchar.2.2.2.1 (by omega), if_pos (by omega),
    Int.toNat_natCast, List.drop_left]

omit hfront in
/-- A `-1` is passed over. -/
theorem round_minusOne (command : CommandName) {rest : List UInt8}
    (hrest : isdigit (charAt rest) = false) :
    Validator.round ⟨.number, command, bytes "-1" ++ rest, none⟩ =
      ⟨.minus1, command, rest, none⟩ := by
  have hnum : (vldnum (bytes "-1" ++ rest)).1 = -1 := congrArg Prod.fst (vldnum_minus_one hrest)
  have hchar : charAt (bytes "-1" ++ rest) = '-'.toUInt8 := rfl
  have hgoes := round_number (minusOne_front rest) command hnum (by rw [hchar]; decide)
    (by rw [hchar]; decide) (by decide)
  rw [if_neg (by decide)] at hgoes
  exact hgoes

omit hfront in
/-- What is accepted behind a number does not begin with a digit. -/
theorem Accepts.commaRead_not_digit (haccepts : Accepts .commaRead command cmdln) :
    isdigit (charAt cmdln) = false := by
  obtain ⟨blank, line, hblank, hfront, rfl⟩ := exists_front cmdln
  rw [accepts_blank hblank, accepts_commaRead hfront] at haccepts
  obtain ⟨behind, rfl, -⟩ := haccepts
  exact not_digit_of_blank hblank (by decide : isdigit comma = false)

omit hfront in
/-- Nor does what is accepted behind a `-1`. -/
theorem Accepts.minus1_not_digit (hline : 0 ∉ cmdln) (haccepts : Accepts .minus1 command cmdln) :
    isdigit (charAt cmdln) = false := by
  obtain ⟨blank, line, hblank, hfront, rfl⟩ := exists_front cmdln
  have hend := fun h => hline (List.mem_append_right blank h)
  rw [accepts_blank hblank, accepts_last hfront (Or.inl rfl) hend] at haccepts
  rw [haccepts]
  exact not_digit_of_blank hblank rfl

/-- The state that looks for a number. -/
theorem accepts_number (hline : 0 ∉ cmdln) :
    Accepts .number command cmdln ↔
      (∃ n rest, cmdln = decimal n ++ rest ∧ Accepts .commaRead command rest) ∨
      ∃ rest, cmdln = bytes "-1" ++ rest ∧ Accepts .minus1 command rest := by
  constructor
  · intro haccepts
    cases round_number_cases hfront command with
    | explained hround => exact absurd ((accepts_of_returns hround).mp haccepts) (by simp)
    | number hcmdln hround => exact Or.inl ⟨_, _, hcmdln, (accepts_of_goesOn hround).mp haccepts⟩
    | minusOne hcmdln hround => exact Or.inr ⟨_, hcmdln, (accepts_of_goesOn hround).mp haccepts⟩
    | digitBehind hstate hdigit hround =>
        have hbehind := (accepts_of_goesOn hround).mp haccepts
        exfalso
        rcases hstate with rfl | rfl
        · rw [hbehind.commaRead_not_digit] at hdigit
          cases hdigit
        · rw [hbehind.minus1_not_digit fun h => hline (List.mem_of_mem_drop h)] at hdigit
          cases hdigit
  · intro hcases
    rcases hcases with ⟨n, rest, rfl, haccepts⟩ | ⟨rest, rfl, haccepts⟩
    · exact (accepts_of_goesOn (round_decimal command n haccepts.commaRead_not_digit)).mpr haccepts
    · have hrest := haccepts.minus1_not_digit fun h => hline (List.mem_append_right _ h)
      exact (accepts_of_goesOn (round_minusOne command hrest)).mpr haccepts

end Names

/-! ## The language is accepted -/

/-- No blank stands in front of a comma. -/
theorem front_comma (rest : List UInt8) : Front (comma :: rest) :=
  (by decide : isspace comma = false)

theorem front_text (command : CommandName) (rest : List UInt8) : Front (command.text ++ rest) := by
  cases command <;> rfl

/-- **The numbers of `read_set`.** -/
theorem accepts_members {command : CommandName} {cmdln : List UInt8} (hline : 0 ∉ cmdln) :
    Accepts .commaRead command cmdln ↔ ∃ numbers rest, Members cmdln numbers rest := by
  constructor
  · intro haccepts
    induction hn : cmdln.length using Nat.strong_induction_on generalizing cmdln with
    | h n ih =>
        obtain ⟨blank, cmdln', hblank, hfront, rfl⟩ := exists_front cmdln
        rw [accepts_blank hblank, accepts_commaRead hfront] at haccepts
        obtain ⟨behind, rfl, haccepts⟩ := haccepts
        obtain ⟨blank', line', hblank', hfront', rfl⟩ := exists_front behind
        have hline' : 0 ∉ line' := fun h => hline (by simp [h])
        rw [accepts_blank hblank', accepts_number hfront' hline'] at haccepts
        rcases haccepts with ⟨m, rest, rfl, haccepts⟩ | ⟨rest, rfl, haccepts⟩
        · have hshorter : rest.length < n := by
            rw [← hn]
            simp only [List.length_append, List.length_cons]
            omega
          obtain ⟨numbers, last, hmembers⟩ :=
            ih _ hshorter (fun h => hline (by simp [h])) haccepts rfl
          exact ⟨m :: numbers, last, .more hblank hblank' hmembers⟩
        · obtain ⟨blank'', rest', hblank'', hfront'', rfl⟩ := exists_front rest
          rw [accepts_blank hblank'',
            accepts_last hfront'' (Or.inl rfl) fun h => hline (by simp [h])] at haccepts
          subst haccepts
          rw [List.append_nil]
          exact ⟨[], blank'', .done hblank hblank' hblank''⟩
  · intro hfacts
    obtain ⟨numbers, rest, hmembers⟩ := hfacts
    induction hmembers with
    | @done blank blank' rest hblank hblank' hrest =>
        have hline' : 0 ∉ bytes "-1" ++ rest := fun h => hline (by
          rw [List.mem_append, List.mem_cons, List.mem_append]
          exact Or.inr (Or.inr (Or.inr h)))
        rw [accepts_blank hblank, accepts_commaRead (front_comma _)]
        refine ⟨_, rfl, ?_⟩
        rw [accepts_blank hblank', accepts_number (minusOne_front _) hline']
        refine Or.inr ⟨rest, rfl, ?_⟩
        have hlast : Accepts .minus1 command (rest ++ []) := by
          rw [accepts_blank hrest, accepts_last front_nil (Or.inl rfl) List.not_mem_nil]
        rwa [List.append_nil] at hlast
    | @more blank blank' behind rest n numbers hblank hblank' _ ih =>
        have hline' : 0 ∉ decimal n ++ behind := fun h => hline (by
          rw [List.mem_append, List.mem_cons, List.mem_append]
          exact Or.inr (Or.inr (Or.inr h)))
        rw [accepts_blank hblank, accepts_commaRead (front_comma _)]
        refine ⟨_, rfl, ?_⟩
        rw [accepts_blank hblank', accepts_number (decimal_front n _) hline']
        exact Or.inl ⟨n, behind, rfl, ih fun h => hline' (List.mem_append_right _ h)⟩

/-- What is accepted behind the name of a two-set command. -/
theorem exists_operands (operation : Operation) {cmdln : List UInt8}
    (haccepts : Accepts .set1 (operationName operation) cmdln) :
    ∃ request, Sentence ((operationName operation).text ++ cmdln) request := by
  have hname : operationName operation ≠ .printSet ∧ operationName operation ≠ .readSet := by
    cases operation <;> decide
  obtain ⟨blank, line, hblank, hfront, rfl⟩ := exists_front cmdln
  rw [accepts_blank hblank, accepts_set1 hfront] at haccepts
  obtain ⟨first, rest, rfl, haccepts⟩ := haccepts
  rw [if_neg hname.1, if_neg hname.2] at haccepts
  obtain ⟨blank1, line, hblank1, hfront1, rfl⟩ := exists_front rest
  rw [accepts_blank hblank1, accepts_commaAfterSet1 hfront1 hname.2] at haccepts
  obtain ⟨rest, rfl, haccepts⟩ := haccepts
  obtain ⟨blank1', line, hblank1', hfront1', rfl⟩ := exists_front rest
  rw [accepts_blank hblank1', accepts_set2 hfront1'] at haccepts
  obtain ⟨second, rest, rfl, haccepts⟩ := haccepts
  obtain ⟨blank2, line, hblank2, hfront2, rfl⟩ := exists_front rest
  rw [accepts_blank hblank2, accepts_commaAfterSet2 hfront2] at haccepts
  obtain ⟨rest, rfl, haccepts⟩ := haccepts
  obtain ⟨blank2', line, hblank2', hfront2', rfl⟩ := exists_front rest
  rw [accepts_blank hblank2', accepts_result hfront2'] at haccepts
  obtain ⟨result, rest, rfl, hrest⟩ := haccepts
  exact ⟨_, .combine hblank hblank1 hblank1' hblank2 hblank2' hrest⟩

/-- **Soundness.**  What is accepted is a sentence. -/
theorem exists_sentence {command : CommandName} {cmdln : List UInt8} (hfront : Front cmdln)
    (hline : 0 ∉ cmdln) (haccepts : Accepts .cmd command cmdln) :
    ∃ request, Sentence cmdln request := by
  rw [accepts_cmd hfront] at haccepts
  obtain ⟨found, rest, rfl, haccepts⟩ := haccepts
  have hrest : 0 ∉ rest := fun h => hline (List.mem_append_right _ h)
  cases found with
  | readSet =>
      simp only [reduceCtorEq, if_false] at haccepts
      obtain ⟨blank, line, hblank, hfront', rfl⟩ := exists_front rest
      rw [accepts_blank hblank, accepts_set1 hfront'] at haccepts
      obtain ⟨x, behind, rfl, haccepts⟩ := haccepts
      simp only [reduceCtorEq, if_false, if_true] at haccepts
      obtain ⟨numbers, last, hmembers⟩ :=
        (accepts_members fun h => hrest (by simp [h])).mp haccepts
      exact ⟨_, .read hblank hmembers⟩
  | printSet =>
      simp only [reduceCtorEq, if_false] at haccepts
      obtain ⟨blank, line, hblank, hfront', rfl⟩ := exists_front rest
      rw [accepts_blank hblank, accepts_set1 hfront'] at haccepts
      obtain ⟨x, behind, rfl, hbehind⟩ := haccepts
      exact ⟨_, .print hblank hbehind⟩
  | unionSet => exact exists_operands .union haccepts
  | intersectSet => exact exists_operands .inter haccepts
  | subSet => exact exists_operands .diff haccepts
  | symdiffSet => exact exists_operands .symdiff haccepts
  | stop =>
      simp only [if_true] at haccepts
      obtain ⟨blank, line, hblank, hfront', rfl⟩ := exists_front rest
      rw [accepts_blank hblank,
        accepts_last hfront' (Or.inr rfl) fun h => hrest (List.mem_append_right _ h)] at haccepts
      subst haccepts
      rw [List.append_nil]
      exact ⟨_, .stop hblank⟩

/-- **Completeness.**  Every sentence is accepted. -/
theorem Sentence.accepted {sentence : List UInt8} {request : Request}
    (h : Sentence sentence request) (hline : 0 ∉ sentence) (command : CommandName) :
    Accepts .cmd command sentence := by
  cases h with
  | @read blank behind rest x numbers hblank hmembers =>
      refine (accepts_cmd (front_text _ _)).mpr ⟨_, _, rfl, ?_⟩
      simp only [reduceCtorEq, if_false]
      rw [accepts_blank hblank, accepts_set1 (sets_front x behind).1]
      refine ⟨x, behind, rfl, ?_⟩
      simp only [reduceCtorEq, if_false, if_true]
      have hbehind : 0 ∉ behind := fun h => hline (by simp [h])
      exact (accepts_members hbehind).mpr ⟨numbers, rest, hmembers⟩
  | @print blank rest x hblank hrest =>
      refine (accepts_cmd (front_text _ _)).mpr ⟨_, _, rfl, ?_⟩
      simp only [reduceCtorEq, if_false]
      rw [accepts_blank hblank, accepts_set1 (sets_front x rest).1]
      exact ⟨x, rest, rfl, hrest⟩
  | @combine operation blank blank1 blank1' blank2 blank2' rest first second result hblank
      hblank1 hblank1' hblank2 hblank2' hrest =>
      have hname : operationName operation ≠ .printSet ∧ operationName operation ≠ .readSet ∧
          operationName operation ≠ .stop := by
        cases operation <;> decide
      refine (accepts_cmd (front_text _ _)).mpr ⟨_, _, rfl, ?_⟩
      rw [if_neg hname.2.2, accepts_blank hblank, accepts_set1 (sets_front _ _).1]
      refine ⟨first, _, rfl, ?_⟩
      rw [if_neg hname.1, if_neg hname.2.1, accepts_blank hblank1,
        accepts_commaAfterSet1 (front_comma _) hname.2.1]
      refine ⟨_, rfl, ?_⟩
      rw [accepts_blank hblank1', accepts_set2 (sets_front _ _).1]
      refine ⟨second, _, rfl, ?_⟩
      rw [accepts_blank hblank2, accepts_commaAfterSet2 (front_comma _)]
      refine ⟨_, rfl, ?_⟩
      rw [accepts_blank hblank2', accepts_result (sets_front _ _).1]
      exact ⟨result, _, rfl, hrest⟩
  | @stop rest hrest =>
      refine (accepts_cmd (front_text _ _)).mpr ⟨_, _, rfl, ?_⟩
      rw [if_pos rfl]
      have hlast : Accepts .stop .stop (rest ++ []) := by
        rw [accepts_blank hrest, accepts_last front_nil (Or.inr rfl) List.not_mem_nil]
      rwa [List.append_nil] at hlast

/-- **The validator.**  `vldcmdln` accepts exactly the lines that mean something. -/
theorem vldcmdln_valid_iff {line : List UInt8} (hline : 0 ∉ line) :
    vldcmdln line = .valid ↔ ∃ request, Denotes line request := by
  rw [vldcmdln_eq_valid]
  constructor
  · intro haccepts
    obtain ⟨blank, sentence, hblank, hfront, rfl⟩ := exists_front line
    rw [accepts_blank hblank] at haccepts
    obtain ⟨request, hsentence⟩ :=
      exists_sentence hfront (fun h => hline (List.mem_append_right _ h)) haccepts
    exact ⟨request, blank, sentence, hblank, rfl, hsentence⟩
  · intro hfacts
    obtain ⟨request, blank, sentence, hblank, rfl, hsentence⟩ := hfacts
    rw [accepts_blank hblank]
    exact hsentence.accepted (fun h => hline (List.mem_append_right _ h)) _

end SetCalculator
