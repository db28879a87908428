import Mathlib.Tactic.Common
import Mathlib.Tactic.ByContra
import Mathlib.Data.Nat.Init

/-!
# While loops with a bounding measure

A loop `while (guard s) s = body s` is run for a number of rounds fixed in
advance by a measure of its first state.  Nothing about the loop is assumed in
the definition, so it can be evaluated; the theorems say what an invariant and
a decreasing measure give:

* `loop_rule`: the invariant holds at the end, and the loop really ended: its
  guard is false there, so the bound never cut it short;
* `loop_step`: a loop whose guard holds is its body followed by the loop;
* `loop_induction`: the rule for a relation between first and last state;
* `loop_exits`: the loop without any bound ends, in the same state;
* `states_induction`: the rule for what a loop does on its way, from the states
  in which it runs its body.

A loop whose guard or body may fail is run in `Except`; where nothing fails it
is the loop itself (`loopE_eq_ok`), a measure unrolls it (`loopE_step`), and
`loopE_rule` is the rule for one that does not fail while its invariant holds.
`ExitsE` is such a loop without a bound: it leaves one result at most
(`ExitsE.unique`), and none where an invariant keeps its guard true
(`ExitsE.fails`).
-/

namespace While

variable {σ : Type*} (guard : σ → Bool) (body : σ → σ)

/-- At most `n` rounds of `while (guard s) s = body s`. -/
def run : Nat → σ → σ
  | 0, s => s
  | n + 1, s => if guard s then run n (body s) else s

/-- The loop itself, bounded by the measure of its first state. -/
def loop (measure : σ → Nat) (s : σ) : σ :=
  run guard body (measure s) s

/-- The loop as it is written, without a bound, ends in the second state when
it is begun in the first. -/
inductive Exits : σ → σ → Prop
  | done {s : σ} (hs : guard s = false) : Exits s s
  | round {s r : σ} (hs : guard s = true) (hrest : Exits (body s) r) : Exits s r

variable {guard body}

/-- The last round of a loop. -/
theorem Exits.last {s r : σ} (hs : guard s = true) (hbody : body s = r)
    (hr : guard r = false) : Exits guard body s r := by
  subst hbody
  exact .round hs (.done hr)

/-- A loop whose guard is false does nothing, whatever its bound. -/
theorem run_of_exit {s : σ} (hs : guard s = false) (n : Nat) :
    run guard body n s = s := by
  cases n with
  | zero => rfl
  | succ n => simp [run, hs]

/-- The bound is irrelevant once the loop has ended. -/
theorem run_of_le {n m : Nat} {s : σ} (hnm : n ≤ m)
    (hend : guard (run guard body n s) = false) :
    run guard body m s = run guard body n s := by
  induction n generalizing m s with
  | zero => exact run_of_exit hend m
  | succ n ih =>
      obtain ⟨m, rfl⟩ : ∃ k, m = k + 1 := ⟨m - 1, by omega⟩
      by_cases hs : guard s = true
      · simp only [run, hs, if_true] at hend ⊢
        exact ih (by omega) hend
      · simp [run, hs]

section Measured

variable (inv : σ → Prop) {measure : σ → Nat}
  (hbody : ∀ s, guard s = true → inv s → inv (body s))
  (hdec : ∀ s, guard s = true → inv s → measure (body s) < measure s)

include hbody

/-- An invariant of the body is an invariant of the loop. -/
theorem run_invariant (n : Nat) {s : σ} (hs : inv s) :
    inv (run guard body n s) := by
  induction n generalizing s with
  | zero => exact hs
  | succ n ih =>
      by_cases hg : guard s = true
      · simpa [run, hg] using ih (hbody s hg hs)
      · simpa [run, hg] using hs

include hdec

/-- A bound as large as the measure is enough for the guard to become false. -/
theorem run_exits {n : Nat} {s : σ} (hs : inv s) (hn : measure s ≤ n) :
    guard (run guard body n s) = false := by
  induction n generalizing s with
  | zero =>
      by_contra hg
      have hlt := hdec s (by simpa [run] using hg) hs
      omega
  | succ n ih =>
      by_cases hg : guard s = true
      · have hlt := hdec s hg hs
        simpa [run, hg] using ih (hbody s hg hs) (by omega)
      · simp [run, hg]

/-- **The loop rule.**  The invariant holds at the end and the guard does not. -/
theorem loop_rule {s : σ} (hs : inv s) :
    inv (loop guard body measure s) ∧
      guard (loop guard body measure s) = false :=
  ⟨run_invariant inv hbody _ hs, run_exits inv hbody hdec hs (Nat.le_refl _)⟩

/-- **Unrolling.**  A loop whose guard holds runs its body, then itself. -/
theorem loop_step {s : σ} (hs : inv s) (hg : guard s = true) :
    loop guard body measure s = loop guard body measure (body s) := by
  have hlt := hdec s hg hs
  have hend := run_exits inv hbody hdec (hbody s hg hs) (Nat.le_refl _)
  calc run guard body (measure s) s
      = run guard body (measure s - 1) (body s) := by
        obtain ⟨k, hk⟩ : ∃ k, measure s = k + 1 := ⟨measure s - 1, by omega⟩
        simp [hk, run, hg]
    _ = run guard body (measure (body s)) (body s) :=
        run_of_le (by omega) hend

/-- **Induction over a loop.**  A relation that holds of a state where the loop
ends at once, and that survives a round put in front, relates every state to
the state the loop leaves. -/
theorem loop_induction (rel : σ → σ → Prop)
    (hexit : ∀ s, guard s = false → inv s → rel s s)
    (hround : ∀ s r, guard s = true → inv s → rel (body s) r → rel s r)
    {s : σ} (hs : inv s) : rel s (loop guard body measure s) := by
  induction hn : measure s using Nat.strong_induction_on generalizing s with
  | h n ih =>
      by_cases hg : guard s = true
      · rw [loop_step inv hbody hdec hs hg]
        exact hround s _ hg hs
          (ih _ (hn ▸ hdec s hg hs) (hbody s hg hs) rfl)
      · have hexits : loop guard body measure s = s :=
          run_of_exit (by simpa using hg) _
        rw [hexits]
        exact hexit s (by simpa using hg) hs

/-- **Termination.**  A loop that keeps an invariant and makes its measure
smaller ends, and the bound by the measure does not change its result. -/
theorem loop_exits {s : σ} (hs : inv s) :
    Exits guard body s (loop guard body measure s) :=
  loop_induction inv hbody hdec (Exits guard body) (fun _ hg _ => .done hg)
    (fun _ _ hg _ hrest => .round hg hrest) hs

end Measured

/-! ## The states of a run -/

variable (guard body) in
/-- The states in which the body is run, at most `n` of them. -/
def runStates : Nat → σ → List σ
  | 0, _ => []
  | n + 1, s => if guard s then s :: runStates n (body s) else []

variable (guard body) in
/-- The states in which a loop runs its body, in their order. -/
def states (measure : σ → Nat) (s : σ) : List σ :=
  runStates guard body (measure s) s

/-- Where the guard fails no state is passed. -/
theorem runStates_of_exit {s : σ} (hs : guard s = false) (n : Nat) :
    runStates guard body n s = [] := by
  cases n with
  | zero => rfl
  | succ n => simp [runStates, hs]

/-- The bound is irrelevant for a loop that has ended. -/
theorem runStates_of_le {n m : Nat} {s : σ} (hnm : n ≤ m)
    (hend : guard (run guard body n s) = false) :
    runStates guard body m s = runStates guard body n s := by
  induction n generalizing m s with
  | zero => exact runStates_of_exit hend m
  | succ n ih =>
      obtain ⟨m, rfl⟩ : ∃ k, m = k + 1 := ⟨m - 1, by omega⟩
      by_cases hs : guard s = true
      · simp only [run, hs, if_true] at hend
        simp only [runStates, hs, if_true]
        rw [ih (by omega) hend]
      · simp [runStates, hs]

section Measured

variable (inv : σ → Prop) {measure : σ → Nat}
  (hbody : ∀ s, guard s = true → inv s → inv (body s))
  (hdec : ∀ s, guard s = true → inv s → measure (body s) < measure s)

include hbody hdec

/-- The first state comes before those of the next round. -/
theorem states_step {s : σ} (hs : inv s) (hg : guard s = true) :
    states guard body measure s = s :: states guard body measure (body s) := by
  have hlt := hdec s hg hs
  have hend := run_exits inv hbody hdec (hbody s hg hs) (Nat.le_refl _)
  obtain ⟨k, hk⟩ : ∃ k, measure s = k + 1 := ⟨measure s - 1, by omega⟩
  have hrest : runStates guard body k (body s) =
      runStates guard body (measure (body s)) (body s) := runStates_of_le (by omega) hend
  simp [states, hk, runStates, hg, hrest]

/-- **Induction over a run.**  A relation between the state a loop is begun in,
the states it runs its body in and the state it leaves. -/
theorem states_induction (rel : σ → List σ → σ → Prop)
    (hexit : ∀ s, guard s = false → inv s → rel s [] s)
    (hround : ∀ s ss r, guard s = true → inv s → rel (body s) ss r → rel s (s :: ss) r)
    {s : σ} (hs : inv s) :
    rel s (states guard body measure s) (loop guard body measure s) := by
  induction hn : measure s using Nat.strong_induction_on generalizing s with
  | h n ih =>
      by_cases hg : guard s = true
      · rw [loop_step inv hbody hdec hs hg, states_step inv hbody hdec hs hg]
        apply hround s _ _ hg hs
        exact ih _ (hn ▸ hdec s hg hs) (hbody s hg hs) rfl
      · have hfalse : guard s = false := by simpa using hg
        have hexits : loop guard body measure s = s := run_of_exit hfalse _
        have hstates : states guard body measure s = [] := runStates_of_exit hfalse _
        rw [hexits, hstates]
        exact hexit s hfalse hs

end Measured

/-- A loop whose guard is false at the start ends at once. -/
theorem loop_exit {measure : σ → Nat} {s : σ} (hs : guard s = false) :
    loop guard body measure s = s :=
  run_of_exit hs _

section Map

variable {τ : Type*} {guard' : τ → Bool} {body' : τ → τ} (f : σ → τ)
  (hguard : ∀ s, guard' (f s) = guard s) (hbody : ∀ s, f (body s) = body' (f s))

include hguard hbody

/-- A map that respects the rounds respects the loop. -/
theorem run_map (n : Nat) (s : σ) : f (run guard body n s) = run guard' body' n (f s) := by
  induction n generalizing s with
  | zero => rfl
  | succ n ih =>
      rw [run, run, hguard]
      by_cases hs : guard s = true
      · rw [if_pos hs, if_pos hs, ih, hbody]
      · rw [if_neg hs, if_neg hs]

/-- **A part of the state.**  A loop that does to a part of its state what
another loop does leaves that part as the other loop does. -/
theorem loop_map {measure : σ → Nat} {measure' : τ → Nat}
    (hmeasure : ∀ s, measure' (f s) = measure s) (s : σ) :
    f (loop guard body measure s) = loop guard' body' measure' (f s) := by
  rw [loop, loop, hmeasure]
  exact run_map f hguard hbody _ s

end Map

/-! ## Loops that may fail -/

section Failing

variable {ε : Type*} (guardE : σ → Except ε Bool) (bodyE : σ → Except ε σ)

/-- At most `n` rounds of a loop whose guard and body may fail. -/
def runE : Nat → σ → Except ε σ
  | 0, s => .ok s
  | n + 1, s => (guardE s).bind fun go => if go then (bodyE s).bind (runE n) else .ok s

/-- A loop whose guard and body may fail. -/
def loopE (measure : σ → Nat) (s : σ) : Except ε σ :=
  runE guardE bodyE (measure s) s

variable {guardE bodyE}

/-- It stops where its guard fails. -/
theorem loopE_exit {measure : σ → Nat} {s : σ} (hs : guardE s = .ok false) :
    loopE guardE bodyE measure s = .ok s := by
  rw [loopE]
  cases measure s with
  | zero => rfl
  | succ n => simp [runE, hs, Except.bind]

/-- Where neither the guard nor a body that is run fails, nothing fails. -/
theorem runE_eq_ok (hguard : ∀ s, guardE s = .ok (guard s))
    (hbody : ∀ s, guard s = true → bodyE s = .ok (body s)) (n : Nat) (s : σ) :
    runE guardE bodyE n s = .ok (run guard body n s) := by
  induction n generalizing s with
  | zero => rfl
  | succ n ih =>
      rw [runE, run, hguard s, Except.bind]
      by_cases hs : guard s = true
      · rw [if_pos hs, if_pos hs, hbody s hs]
        exact ih (body s)
      · rw [if_neg hs, if_neg hs]

/-- Without failures it is the plain loop. -/
theorem loopE_eq_ok (hguard : ∀ s, guardE s = .ok (guard s))
    (hbody : ∀ s, guard s = true → bodyE s = .ok (body s)) (measure : σ → Nat) (s : σ) :
    loopE guardE bodyE measure s = .ok (loop guard body measure s) :=
  runE_eq_ok hguard hbody _ s

section Measured

variable {measure : σ → Nat}
  (hdec : ∀ s s', guardE s = .ok true → bodyE s = .ok s' → measure s' < measure s)
  (hpos : ∀ s, guardE s ≠ .ok false → 0 < measure s)

include hdec hpos

/-- One round more than the measure allows changes nothing. -/
theorem runE_succ {n : Nat} {s : σ} (hn : measure s ≤ n) :
    runE guardE bodyE (n + 1) s = runE guardE bodyE n s := by
  induction n generalizing s with
  | zero =>
      have hguard : guardE s = .ok false := by
        by_contra hguard
        have hlt := hpos s hguard
        omega
      simp [runE, hguard, Except.bind]
  | succ n ih =>
      rw [runE, runE]
      cases hguard : guardE s with
      | error e => rfl
      | ok go =>
          cases go with
          | false => rfl
          | true =>
              simp only [Except.bind, if_true]
              cases hbody : bodyE s with
              | error e => rfl
              | ok s' =>
                  have hlt := hdec s s' hguard hbody
                  exact ih (by omega)

/-- Enough fuel gives the loop. -/
theorem runE_eq_loopE {n : Nat} {s : σ} (hn : measure s ≤ n) :
    runE guardE bodyE n s = loopE guardE bodyE measure s := by
  induction n, hn using Nat.le_induction with
  | base => rfl
  | succ n hn ih => rw [runE_succ hdec hpos hn, ih]

/-- **Unrolling.**  The loop asks its guard, and runs its body and then itself. -/
theorem loopE_step (s : σ) :
    loopE guardE bodyE measure s = (guardE s).bind fun go =>
      if go then (bodyE s).bind (loopE guardE bodyE measure) else .ok s := by
  rw [← runE_eq_loopE hdec hpos (Nat.le_succ (measure s)), runE]
  cases hguard : guardE s with
  | error e => rfl
  | ok go =>
      cases go with
      | false => rfl
      | true =>
          simp only [Except.bind, if_true]
          cases hbody : bodyE s with
          | error e => rfl
          | ok s' => exact runE_eq_loopE hdec hpos (Nat.le_of_lt (hdec s s' hguard hbody))

end Measured

variable (guardE bodyE) in
/-- The loop as it is written, without a bound, ends with the result when it is
begun in the state. -/
inductive ExitsE : σ → Except ε σ → Prop
  | done {s : σ} (hs : guardE s = .ok false) : ExitsE s (.ok s)
  | guardFails {s : σ} {e : ε} (hs : guardE s = .error e) : ExitsE s (.error e)
  | bodyFails {s : σ} {e : ε} (hs : guardE s = .ok true) (hbody : bodyE s = .error e) :
      ExitsE s (.error e)
  | round {s s' : σ} {r : Except ε σ} (hs : guardE s = .ok true) (hbody : bodyE s = .ok s')
      (hrest : ExitsE s' r) : ExitsE s r

/-- A loop does not leave two results. -/
theorem ExitsE.unique {s : σ} {r r' : Except ε σ} (h : ExitsE guardE bodyE s r)
    (h' : ExitsE guardE bodyE s r') : r = r' := by
  induction h with
  | done hs => cases h' <;> simp_all
  | guardFails hs => cases h' <;> simp_all
  | bodyFails hs hbody => cases h' <;> simp_all
  | round hs hbody _ ih =>
      cases h' with
      | round hs' hbody' hrest' =>
          rw [hbody] at hbody'
          obtain rfl := Except.ok.inj hbody'
          exact ih hrest'
      | done hs' => simp_all
      | guardFails hs' => simp_all
      | bodyFails hs' hbody' => simp_all

section Invariant

variable (inv : σ → Prop)

/-- A loop whose guard stays true does not end, or it fails. -/
theorem ExitsE.fails (hguard : ∀ s, inv s → guardE s = .ok true)
    (hbody : ∀ s s', inv s → bodyE s = .ok s' → inv s') {s : σ} {r : Except ε σ}
    (h : ExitsE guardE bodyE s r) (hs : inv s) : ∃ e, r = .error e := by
  induction h with
  | done hfalse =>
      rw [hguard _ hs] at hfalse
      cases hfalse
  | guardFails _ => exact ⟨_, rfl⟩
  | bodyFails _ _ => exact ⟨_, rfl⟩
  | round _ hround _ ih => exact ih (hbody _ _ hs hround)

variable {measure : σ → Nat} (hguard : ∀ s, inv s → guardE s = .ok (guard s))
  (hbody : ∀ s, inv s → guard s = true →
    ∃ s', bodyE s = .ok s' ∧ inv s' ∧ measure s' < measure s)

include hguard hbody

/-- **The invariant rule** for a loop with fuel. -/
theorem runE_rule {n : Nat} {s : σ} (hs : inv s) (hn : measure s ≤ n) :
    ∃ r, runE guardE bodyE n s = .ok r ∧ ExitsE guardE bodyE s (.ok r) ∧
      inv r ∧ guard r = false := by
  induction n generalizing s with
  | zero =>
      have hfalse : guard s = false := by
        by_contra hg
        obtain ⟨s', -, -, hlt⟩ := hbody s hs (by simpa using hg)
        omega
      exact ⟨s, rfl, .done (by rw [hguard s hs, hfalse]), hs, hfalse⟩
  | succ n ih =>
      cases hg : guard s with
      | false =>
          refine ⟨s, ?_, .done (by rw [hguard s hs, hg]), hs, hg⟩
          simp [runE, hguard s hs, hg, Except.bind]
      | true =>
          obtain ⟨s', hround, hs', hlt⟩ := hbody s hs hg
          obtain ⟨r, hrun, hexits, hr⟩ := ih hs' (by omega)
          refine ⟨r, ?_, .round (by rw [hguard s hs, hg]) hround hexits, hr⟩
          simpa [runE, hguard s hs, hg, hround, Except.bind] using hrun

/-- **The loop rule.**  A loop that does not fail while its invariant holds ends,
with the invariant, and the bound does not cut it short. -/
theorem loopE_rule {s : σ} (hs : inv s) :
    ∃ r, loopE guardE bodyE measure s = .ok r ∧ ExitsE guardE bodyE s (.ok r) ∧
      inv r ∧ guard r = false :=
  runE_rule inv hguard hbody hs (Nat.le_refl _)

end Invariant

end Failing

end While
