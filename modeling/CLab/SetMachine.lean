import Mathlib.Data.Finset.SymmDiff
import Mathlib.Data.Finset.Lattice.Basic

/-!
# Machines of named sets

A machine holds a finite set under each name of a fixed supply.  A command
reads a set, prints one, or combines two into a third.  Inputs that mean no
command change nothing.  `Refines.run` is the rule for an implementation: one
step for each input, related to the machine's step, gives whole runs.
-/

namespace SetMachine

/-- The four operations on two sets. -/
inductive Operation
  | union
  | inter
  | diff
  | symdiff
deriving DecidableEq

/-- Whether an element belongs to the result, by whether it belongs to the first
and to the second set. -/
def Operation.holds : Operation → Bool → Bool → Bool
  | union, a, b => a || b
  | inter, a, b => a && b
  | diff, a, b => a && !b
  | symdiff, a, b => a && !b || b && !a

/-- The commands of the machine. -/
inductive Command (ι α : Type*)
  | read (target : ι) (members : List α)
  | print (target : ι)
  | combine (operation : Operation) (first second result : ι)

section Machine

variable {ι α : Type*} [DecidableEq ι] [DecidableEq α]

/-- What an operation does to sets. -/
def Operation.apply : Operation → Finset α → Finset α → Finset α
  | union, s, t => s ∪ t
  | inter, s, t => s ∩ t
  | diff, s, t => s \ t
  | symdiff, s, t => symmDiff s t

/-- Its members, one by one. -/
theorem Operation.mem_apply (operation : Operation) (s t : Finset α) (x : α) :
    x ∈ operation.apply s t ↔ operation.holds (decide (x ∈ s)) (decide (x ∈ t)) = true := by
  cases operation <;> simp [Operation.apply, Operation.holds, Finset.mem_symmDiff]

/-- The sets of the machine after a command. -/
def Command.exec : Command ι α → (ι → Finset α) → ι → Finset α
  | read target members, sets => Function.update sets target members.toFinset
  | print _, sets => sets
  | combine operation first second result, sets =>
      Function.update sets result (operation.apply (sets first) (sets second))

/-- The set a command writes. -/
def Command.target : Command ι α → Option ι
  | read target _ => some target
  | print _ => none
  | combine _ _ _ result => some result

variable {Input : Type*} (means : Input → Command ι α → Prop)

/-- The machine goes through its inputs: what means a command is carried out,
and everything else changes nothing. -/
inductive Run : List Input → (ι → Finset α) → (ι → Finset α) → Prop
  | nil {sets : ι → Finset α} : Run [] sets sets
  | command {input : Input} {inputs : List Input} {sets last : ι → Finset α}
      {c : Command ι α} (hmeans : means input c) (hrest : Run inputs (c.exec sets) last) :
      Run (input :: inputs) sets last
  | other {input : Input} {inputs : List Input} {sets last : ι → Finset α}
      (hnone : ∀ c, ¬ means input c) (hrest : Run inputs sets last) :
      Run (input :: inputs) sets last

/-- Every sequence of inputs has a run. -/
theorem exists_run (inputs : List Input) (sets : ι → Finset α) :
    ∃ last, Run means inputs sets last := by
  induction inputs generalizing sets with
  | nil => exact ⟨sets, .nil⟩
  | cons input inputs ih =>
      by_cases h : ∃ c, means input c
      · obtain ⟨c, hmeans⟩ := h
        obtain ⟨last, hrest⟩ := ih (c.exec sets)
        exact ⟨last, .command hmeans hrest⟩
      · obtain ⟨last, hrest⟩ := ih sets
        exact ⟨last, .other (fun c hmeans => h ⟨c, hmeans⟩) hrest⟩

/-- An implementation that does one step of the machine for each input it is
promised. -/
structure Refines {σ ε : Type*} (promised : Input → Prop) (step : σ → Input → Except ε σ)
    (rel : σ → (ι → Finset α) → Prop) : Prop where
  command : ∀ {s : σ} {sets : ι → Finset α} {input : Input} {c : Command ι α},
    promised input → rel s sets → means input c →
      ∃ s', step s input = .ok s' ∧ rel s' (c.exec sets)
  other : ∀ {s : σ} {sets : ι → Finset α} {input : Input},
    promised input → rel s sets → (∀ c, ¬ means input c) →
      ∃ s', step s input = .ok s' ∧ rel s' sets

variable {means}

/-- **Refinement of runs.**  Step by step it does a run of the machine for every
list of inputs. -/
theorem Refines.run {σ ε : Type*} {promised : Input → Prop} {step : σ → Input → Except ε σ}
    {rel : σ → (ι → Finset α) → Prop} (h : Refines means promised step rel)
    {inputs : List Input} (hinputs : ∀ input ∈ inputs, promised input) {s : σ}
    {sets last : ι → Finset α} (hrel : rel s sets) (hrun : Run means inputs sets last) :
    ∃ s', inputs.foldlM step s = .ok s' ∧ rel s' last := by
  induction hrun generalizing s with
  | nil => exact ⟨s, rfl, hrel⟩
  | command hc _ ih =>
      obtain ⟨s', hstep, hrel'⟩ := h.command (hinputs _ List.mem_cons_self) hrel hc
      rw [List.foldlM_cons, hstep]
      exact ih (fun input hin => hinputs input (List.mem_cons_of_mem _ hin)) hrel'
  | other hnone _ ih =>
      obtain ⟨s', hstep, hrel'⟩ := h.other (hinputs _ List.mem_cons_self) hrel hnone
      rw [List.foldlM_cons, hstep]
      exact ih (fun input hin => hinputs input (List.mem_cons_of_mem _ hin)) hrel'

end Machine

/-! ## Answers -/

/-- What the machine answers to a command: that it is carried out, or the set
that was asked for. -/
inductive Answer (ι α : Type*)
  | done
  | shows (target : ι) (members : Finset α)

section Answers

variable {ι α Input : Type*} [DecidableEq ι] [DecidableEq α]

/-- What a command is answered. -/
def Command.answer : Command ι α → (ι → Finset α) → Answer ι α
  | read _ _, _ => .done
  | print target, sets => .shows target (sets target)
  | combine _ _ _ _, _ => .done

variable (means : Input → Command ι α → Prop)

/-- A run with the answers; what means no command gets none. -/
inductive Dialogue : List Input → (ι → Finset α) → List (Option (Answer ι α)) →
    (ι → Finset α) → Prop
  | nil {sets : ι → Finset α} : Dialogue [] sets [] sets
  | command {input : Input} {inputs : List Input} {sets last : ι → Finset α}
      {c : Command ι α} {answers : List (Option (Answer ι α))} (hmeans : means input c)
      (hrest : Dialogue inputs (c.exec sets) answers last) :
      Dialogue (input :: inputs) sets (some (c.answer sets) :: answers) last
  | other {input : Input} {inputs : List Input} {sets last : ι → Finset α}
      {answers : List (Option (Answer ι α))} (hnone : ∀ c, ¬ means input c)
      (hrest : Dialogue inputs sets answers last) :
      Dialogue (input :: inputs) sets (none :: answers) last

/-- An implementation that prints what the machine answers for each input it is
promised, and fails on every other input. -/
structure Speaks {σ ε Output : Type*} (promised : Input → Prop)
    (step : σ → Input → Except ε (σ × Output))
    (render : Input → Option (Answer ι α) → Output)
    (rel : σ → (ι → Finset α) → Prop) : Prop where
  command : ∀ {s : σ} {sets : ι → Finset α} {input : Input} {c : Command ι α},
    promised input → rel s sets → means input c →
      ∃ s', step s input = .ok (s', render input (some (c.answer sets))) ∧ rel s' (c.exec sets)
  other : ∀ {s : σ} {sets : ι → Finset α} {input : Input},
    promised input → rel s sets → (∀ c, ¬ means input c) →
      ∃ s', step s input = .ok (s', render input none) ∧ rel s' sets
  fails : ∀ {s : σ} {sets : ι → Finset α} {input : Input},
    ¬ promised input → rel s sets → ∃ e, step s input = .error e

/-- The steps one after the other, with what each of them prints. -/
def talk {σ ε Output : Type*} (step : σ → Input → Except ε (σ × Output)) :
    σ → List Input → Except ε (σ × List Output)
  | s, [] => .ok (s, [])
  | s, input :: inputs =>
      (step s input).bind fun next =>
        (talk step next.1 inputs).map fun rest => (rest.1, next.2 :: rest.2)

variable {means}

/-- A dialogue is a run with its answers. -/
theorem Dialogue.run {inputs : List Input} {sets last : ι → Finset α}
    {answers : List (Option (Answer ι α))} (h : Dialogue means inputs sets answers last) :
    Run means inputs sets last := by
  induction h with
  | nil => exact .nil
  | command hmeans _ ih => exact .command hmeans ih
  | other hnone _ ih => exact .other hnone ih

/-- Every sequence of inputs has a dialogue. -/
theorem exists_dialogue (inputs : List Input) (sets : ι → Finset α) :
    ∃ answers last, Dialogue means inputs sets answers last := by
  obtain ⟨last, hrun⟩ := exists_run means inputs sets
  induction hrun with
  | nil => exact ⟨[], _, .nil⟩
  | command hmeans _ ih =>
      obtain ⟨answers, last, hrest⟩ := ih
      exact ⟨_, last, .command hmeans hrest⟩
  | other hnone _ ih =>
      obtain ⟨answers, last, hrest⟩ := ih
      exact ⟨_, last, .other hnone hrest⟩

section Implementation

variable {σ ε Output : Type*} {promised : Input → Prop}
  {step : σ → Input → Except ε (σ × Output)} {render : Input → Option (Answer ι α) → Output}
  {rel : σ → (ι → Finset α) → Prop} (h : Speaks means promised step render rel)

include h

/-- Every dialogue of the machine is spoken. -/
theorem Speaks.says {inputs : List Input} (hinputs : ∀ input ∈ inputs, promised input)
    {sets last : ι → Finset α} {answers : List (Option (Answer ι α))}
    (hdialogue : Dialogue means inputs sets answers last) {s : σ} (hrel : rel s sets) :
    ∃ s', talk step s inputs = .ok (s', List.zipWith render inputs answers) ∧ rel s' last := by
  induction hdialogue generalizing s with
  | nil => exact ⟨s, rfl, hrel⟩
  | command hmeans _ ih =>
      obtain ⟨s', hstep, hrel'⟩ := h.command (hinputs _ List.mem_cons_self) hrel hmeans
      obtain ⟨t, htalk, hlast⟩ := ih (fun input hin => hinputs input (List.mem_cons_of_mem _ hin))
        hrel'
      refine ⟨t, ?_, hlast⟩
      rw [talk, hstep, Except.bind, htalk]
      rfl
  | other hnone _ ih =>
      obtain ⟨s', hstep, hrel'⟩ := h.other (hinputs _ List.mem_cons_self) hrel hnone
      obtain ⟨t, htalk, hlast⟩ := ih (fun input hin => hinputs input (List.mem_cons_of_mem _ hin))
        hrel'
      refine ⟨t, ?_, hlast⟩
      rw [talk, hstep, Except.bind, htalk]
      rfl

/-- An input that is not promised is where it ends. -/
theorem Speaks.promised_of_talk {inputs : List Input} {s : σ} {sets : ι → Finset α}
    (hrel : rel s sets) {r : σ × List Output} (htalk : talk step s inputs = .ok r) :
    ∀ input ∈ inputs, promised input := by
  induction inputs generalizing s sets r with
  | nil => intro input hin; cases hin
  | cons first inputs ih =>
      have hfirst : promised first := by
        by_contra hnot
        obtain ⟨e, hfail⟩ := h.fails hnot hrel
        rw [talk, hfail] at htalk
        cases htalk
      have hnext : ∃ s' output sets', step s first = .ok (s', output) ∧ rel s' sets' := by
        by_cases hmeans : ∃ c, means first c
        · obtain ⟨c, hc⟩ := hmeans
          obtain ⟨s', hstep, hrel'⟩ := h.command hfirst hrel hc
          exact ⟨s', _, _, hstep, hrel'⟩
        · obtain ⟨s', hstep, hrel'⟩ := h.other hfirst hrel fun c hc => hmeans ⟨c, hc⟩
          exact ⟨s', _, _, hstep, hrel'⟩
      obtain ⟨s', output, sets', hstep, hrel'⟩ := hnext
      rw [talk, hstep, Except.bind] at htalk
      intro input hin
      rcases List.mem_cons.mp hin with hsame | hin
      · rw [hsame]
        exact hfirst
      · cases hrest : talk step s' inputs with
        | error e => rw [hrest] at htalk; cases htalk
        | ok rest => exact ih hrel' hrest input hin

/-- **What is spoken are the dialogues of the machine.** -/
theorem Speaks.talk_iff {inputs : List Input} {s : σ} {sets : ι → Finset α} (hrel : rel s sets)
    {outputs : List Output} :
    (∃ s', talk step s inputs = .ok (s', outputs)) ↔ (∀ input ∈ inputs, promised input) ∧
      ∃ answers last, Dialogue means inputs sets answers last ∧
        outputs = List.zipWith render inputs answers := by
  constructor
  · intro htalk
    obtain ⟨s', htalk⟩ := htalk
    have hinputs := h.promised_of_talk hrel htalk
    obtain ⟨answers, last, hdialogue⟩ := @exists_dialogue _ _ _ _ _ means inputs sets
    obtain ⟨s'', hsays, -⟩ := h.says hinputs hdialogue hrel
    rw [htalk] at hsays
    obtain ⟨-, houtputs⟩ := Prod.mk.inj (Except.ok.inj hsays)
    exact ⟨hinputs, answers, last, hdialogue, houtputs⟩
  · intro hspoken
    obtain ⟨hinputs, answers, last, hdialogue, rfl⟩ := hspoken
    obtain ⟨s', hsays, -⟩ := h.says hinputs hdialogue hrel
    exact ⟨s', hsays⟩

end Implementation

end Answers

end SetMachine
