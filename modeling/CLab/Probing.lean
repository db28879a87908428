import CLab.While
import Mathlib.Tactic.Common
import Mathlib.Data.List.Count
import Mathlib.Data.List.GetD
import Mathlib.Data.Nat.Init

/-!
# Linear probing

A table of slots, each empty or holding a key.  A probe for a key starts at the
key's home and goes from slot to slot, around the end of the table, until it
meets the key, an empty slot, or its start again.

* `probe_ends`: what each outcome says about the slots on the way;
* `Placed`: every key can be reached from its home, which is what makes a probe
  an exact search (`Placed.probe_found_iff`) and is kept when a key is put in
  the empty slot its probe ended at (`Placed.set`);
* `probe_of_room`: a table that is not full never turns a probe away;
* `search_exits`: the loop without a bound ends, with what the probe says.
-/

namespace Probing

/-- How a probe ends. -/
inductive Outcome
  | empty (index : Nat)
  | found (index : Nat)
  | full
deriving DecidableEq

variable {κ : Type*} [DecidableEq κ]

/-- `do … while (index != start)`, for at most the given number of rounds. -/
def walk (slots : List (Option κ)) (key : κ) (start : Nat) : Nat → Nat → Outcome
  | 0, _ => .full
  | rounds + 1, index =>
      match slots.getD index none with
      | none => .empty index
      | some other =>
          if key = other then .found index
          else
            let next := (index + 1) % slots.length
            if next = start then .full else walk slots key start rounds next

/-- The probe for a key, from its home on. -/
def probe (slots : List (Option κ)) (key : κ) (home : Nat) : Outcome :=
  walk slots key (home % slots.length) slots.length (home % slots.length)

/-- The slot that is the given number of steps away from a home. -/
def slotAt (slots : List (Option κ)) (home steps : Nat) : Option κ :=
  slots.getD ((home + steps) % slots.length) none

/-- The first steps from the home all meet other keys. -/
def Passes (slots : List (Option κ)) (key : κ) (home steps : Nat) : Prop :=
  ∀ e < steps, ∃ other, slotAt slots home e = some other ∧ key ≠ other

omit [DecidableEq κ] in
/-- The probe passes a slot with another key. -/
theorem Passes.succ {slots : List (Option κ)} {key other : κ} {home steps : Nat}
    (h : Passes slots key home steps) (hslot : slotAt slots home steps = some other)
    (hne : key ≠ other) : Passes slots key home (steps + 1) := by
  intro e he
  rcases Nat.lt_succ_iff_lt_or_eq.mp he with hlt | rfl
  · exact h e hlt
  · exact ⟨other, hslot, hne⟩

/-- The walk ends at that step: no slot stops it before, and this one does. -/
structure StopsAt (slots : List (Option κ)) (key : κ) (home steps : Nat) : Prop where
  inside : steps < slots.length
  passes : Passes slots key home steps
  stops : ∀ other, slotAt slots home steps = some other → key = other

omit [DecidableEq κ] in
/-- It stops at one slot only. -/
theorem StopsAt.unique {slots : List (Option κ)} {key : κ} {home steps steps' : Nat}
    (h : StopsAt slots key home steps) (h' : StopsAt slots key home steps') :
    steps = steps' := by
  rcases Nat.lt_trichotomy steps steps' with hlt | heq | hgt
  · obtain ⟨other, hslot, hne⟩ := h'.passes steps hlt
    exact absurd (h.stops other hslot) hne
  · exact heq
  · obtain ⟨other, hslot, hne⟩ := h.passes steps' hgt
    exact absurd (h'.stops other hslot) hne

/-- The outcome of a walk that ends at that step. -/
def outcomeAt (slots : List (Option κ)) (home steps : Nat) : Outcome :=
  match slotAt slots home steps with
  | none => .empty ((home + steps) % slots.length)
  | some _ => .found ((home + steps) % slots.length)

/-- What the outcome of a probe says. -/
def Ends (slots : List (Option κ)) (key : κ) (home : Nat) (outcome : Outcome) : Prop :=
  (∃ steps, StopsAt slots key home steps ∧ outcome = outcomeAt slots home steps) ∨
    (Passes slots key home slots.length ∧ outcome = .full)

/-- Going around the table comes back to the start exactly after its length. -/
theorem next_eq_start_iff {n home steps : Nat} (hsteps : steps < n) :
    ((home + steps) % n + 1) % n = home % n ↔ steps + 1 = n := by
  rw [Nat.mod_add_mod, Nat.add_assoc]
  constructor
  · intro h
    have hdvd : n ∣ steps + 1 := by
      have hmod : n ∣ home + (steps + 1) - home :=
        Nat.dvd_of_mod_eq_zero (Nat.sub_mod_eq_zero_of_mod_eq h)
      rwa [Nat.add_sub_cancel_left] at hmod
    exact Nat.le_antisymm hsteps (Nat.le_of_dvd (Nat.succ_pos _) hdvd)
  · intro h
    rw [h, Nat.add_mod_right]

/-- The walk ends where the probe does. -/
theorem walk_ends {slots : List (Option κ)} {key : κ} {home : Nat} (rounds steps : Nat)
    (hrounds : rounds + steps = slots.length) (hpasses : Passes slots key home steps) :
    Ends slots key home
      (walk slots key (home % slots.length) rounds ((home + steps) % slots.length)) := by
  induction rounds generalizing steps with
  | zero =>
      refine Or.inr ⟨?_, rfl⟩
      rwa [← hrounds, Nat.zero_add]
  | succ rounds ih =>
      have hsteps : steps < slots.length := by omega
      rw [walk]
      cases hslot : slots.getD ((home + steps) % slots.length) none with
      | none =>
          refine Or.inl ⟨steps, ⟨hsteps, hpasses, ?_⟩, ?_⟩
          · intro other hother
            rw [slotAt, hslot] at hother
            exact absurd hother (by simp)
          · rw [outcomeAt, slotAt, hslot]
      | some other =>
          simp only
          by_cases hkey : key = other
          · rw [if_pos hkey]
            refine Or.inl ⟨steps, ⟨hsteps, hpasses, ?_⟩, ?_⟩
            · intro other' hother
              rw [slotAt, hslot] at hother
              exact hkey.trans (Option.some.inj hother)
            · rw [outcomeAt, slotAt, hslot]
          · rw [if_neg hkey]
            have hmore := hpasses.succ hslot hkey
            by_cases hnext : steps + 1 = slots.length
            · rw [if_pos ((next_eq_start_iff hsteps).mpr hnext)]
              exact Or.inr ⟨hnext ▸ hmore, rfl⟩
            · rw [if_neg (mt (next_eq_start_iff hsteps).mp hnext), Nat.mod_add_mod,
                Nat.add_assoc]
              exact ih (steps + 1) (by omega) hmore

/-- **What a probe does**: it ends at the first slot that is empty or has the
key. -/
theorem probe_ends (slots : List (Option κ)) (key : κ) (home : Nat) :
    Ends slots key home (probe slots key home) :=
  walk_ends slots.length 0 rfl (fun _ he => absurd he (Nat.not_lt_zero _))

/-- What is found is what stands where it stops. -/
theorem probe_of_stopsAt {slots : List (Option κ)} {key : κ} {home steps : Nat}
    (h : StopsAt slots key home steps) :
    probe slots key home = outcomeAt slots home steps := by
  rcases probe_ends slots key home with ⟨steps', h', heq⟩ | ⟨hpasses, -⟩
  · rw [heq, h'.unique h]
  · have hslot := hpasses steps h.inside
    obtain ⟨other, hother, hne⟩ := hslot
    exact absurd (h.stops other hother) hne

/-- A probe that ends at an empty slot stopped there. -/
theorem stopsAt_of_empty {slots : List (Option κ)} {key : κ} {home index : Nat}
    (h : probe slots key home = .empty index) :
    ∃ steps, StopsAt slots key home steps ∧ index = (home + steps) % slots.length ∧
      slots.getD index none = none := by
  rcases probe_ends slots key home with ⟨steps, hstop, heq⟩ | ⟨-, heq⟩ <;> rw [h] at heq
  · unfold outcomeAt at heq
    cases hslot : slotAt slots home steps with
    | some other => rw [hslot] at heq; exact absurd heq (by simp)
    | none =>
        rw [hslot] at heq
        obtain rfl := Outcome.empty.inj heq
        exact ⟨steps, hstop, rfl, hslot⟩
  · exact absurd heq (by simp)

/-- The slot is one of the table. -/
theorem inside_of_empty {slots : List (Option κ)} {key : κ} {home index : Nat}
    (h : probe slots key home = .empty index) : index < slots.length := by
  obtain ⟨steps, hstop, hindex, -⟩ := stopsAt_of_empty h
  rw [hindex]
  exact Nat.mod_lt _ (Nat.lt_of_le_of_lt (Nat.zero_le _) hstop.inside)

/-- A probe that finds something has found its key. -/
theorem stopsAt_of_found {slots : List (Option κ)} {key : κ} {home index : Nat}
    (h : probe slots key home = .found index) :
    ∃ steps, StopsAt slots key home steps ∧ index = (home + steps) % slots.length ∧
      slots.getD index none = some key := by
  rcases probe_ends slots key home with ⟨steps, hstop, heq⟩ | ⟨-, heq⟩ <;> rw [h] at heq
  · unfold outcomeAt at heq
    cases hslot : slotAt slots home steps with
    | none => rw [hslot] at heq; exact absurd heq (by simp)
    | some other =>
        rw [hslot] at heq
        obtain rfl := Outcome.found.inj heq
        obtain rfl := hstop.stops other hslot
        exact ⟨steps, hstop, rfl, hslot⟩
  · exact absurd heq (by simp)

/-! ## Tables whose keys can be found -/

section Placed

variable (home : κ → Nat)

/-- Every key stands where a probe for it ends. -/
def Placed (slots : List (Option κ)) : Prop :=
  ∀ index key, slots.getD index none = some key →
    ∃ steps, StopsAt slots key (home key) steps ∧ index = (home key + steps) % slots.length

variable {home}

/-- **In such a table a probe is an exact search.** -/
theorem Placed.probe_found_iff {slots : List (Option κ)} (h : Placed home slots) {key : κ}
    {index : Nat} :
    probe slots key (home key) = .found index ↔ slots.getD index none = some key := by
  constructor
  · intro hfound
    obtain ⟨_, _, _, hslot⟩ := stopsAt_of_found hfound
    exact hslot
  · intro hslot
    obtain ⟨steps, hstop, rfl⟩ := h index key hslot
    rw [probe_of_stopsAt hstop, outcomeAt, slotAt, hslot]

omit [DecidableEq κ] in
/-- A step to another slot does not see what is put in a slot. -/
theorem slotAt_set {slots : List (Option κ)} {index start steps : Nat} (value : Option κ)
    (h : (start + steps) % slots.length ≠ index) :
    slotAt (slots.set index value) start steps = slotAt slots start steps := by
  simp [slotAt, List.getD_eq_getElem?_getD, List.getElem?_set_ne (Ne.symm h)]

omit [DecidableEq κ] in
/-- Filling an empty slot does not stop a probe that passes. -/
theorem Passes.set {slots : List (Option κ)} {key : κ} {start steps index : Nat}
    (h : Passes slots key start steps) (hempty : slots.getD index none = none)
    (value : Option κ) : Passes (slots.set index value) key start steps := by
  intro e he
  obtain ⟨other, hslot, hne⟩ := h e he
  refine ⟨other, ?_, hne⟩
  rw [slotAt_set value, hslot]
  intro heq
  rw [slotAt, heq, hempty] at hslot
  exact absurd hslot (by simp)

/-- **A key put where its probe ended can be found**, and so can all others. -/
theorem Placed.set {slots : List (Option κ)} (h : Placed home slots) {key : κ} {index : Nat}
    (hprobe : probe slots key (home key) = .empty index) :
    Placed home (slots.set index (some key)) := by
  obtain ⟨steps, hstop, hindex, hempty⟩ := stopsAt_of_empty hprobe
  have hinside := inside_of_empty hprobe
  intro index' key' hslot
  by_cases hsame : index' = index
  · subst hsame
    have hkey : key = key' := by
      simpa [List.getD_eq_getElem?_getD, List.getElem?_set_self hinside] using hslot
    subst hkey
    refine ⟨steps, ⟨?_, hstop.passes.set hempty _, ?_⟩, ?_⟩
    · rw [List.length_set]
      exact hstop.inside
    · intro other hother
      rw [slotAt, List.length_set, ← hindex, hslot] at hother
      exact Option.some.inj hother
    · rw [List.length_set]
      exact hindex
  · have hold : slots.getD index' none = some key' := by
      simpa [List.getD_eq_getElem?_getD, List.getElem?_set_ne (Ne.symm hsame)] using hslot
    obtain ⟨steps', hstop', hindex'⟩ := h index' key' hold
    refine ⟨steps', ⟨?_, hstop'.passes.set hempty _, ?_⟩, ?_⟩
    · rw [List.length_set]
      exact hstop'.inside
    · intro other hother
      rw [slotAt, List.length_set, ← hindex', hslot] at hother
      exact Option.some.inj hother
    · rw [List.length_set]
      exact hindex'

omit [DecidableEq κ] in
/-- In an empty table every key is in its place. -/
theorem placed_empty (n : Nat) : Placed home (List.replicate n (none : Option κ)) := by
  intro index key hslot
  have hnone : (List.replicate n (none : Option κ)).getD index none = none := by
    rw [List.getD_eq_getElem?_getD, List.getElem?_replicate]
    split_ifs <;> rfl
  rw [hnone] at hslot
  exact absurd hslot (by simp)

end Placed

/-! ## The loop as it is written -/

/-- A search on its way: the slot it looks at, and its outcome once the loop has
been left. -/
structure Search where
  index : Nat
  outcome : Option Outcome
deriving DecidableEq

/-- The search goes on without an outcome. -/
def Search.goesOn (s : Search) : Bool := s.outcome.isNone

/-- One round of `do … while (index != start)`. -/
def Search.round (slots : List (Option κ)) (key : κ) (start : Nat) (s : Search) : Search :=
  match slots.getD s.index none with
  | none => { s with outcome := some (.empty s.index) }
  | some other =>
      if key = other then { s with outcome := some (.found s.index) }
      else
        let next := (s.index + 1) % slots.length
        { index := next, outcome := if next = start then some .full else none }

/-- The search begins at the home of the key. -/
def Search.start (slots : List (Option κ)) (home : Nat) : Search :=
  { index := home % slots.length, outcome := none }

/-- The slot the search is at decides, or it goes on to the next one, which is
not its start. -/
theorem round_cases (slots : List (Option κ)) (key : κ) (start rounds index : Nat) :
    Search.round slots key start ⟨index, none⟩ =
        ⟨index, some (walk slots key start (rounds + 1) index)⟩ ∨
      Search.round slots key start ⟨index, none⟩ =
        ⟨(index + 1) % slots.length, some (walk slots key start (rounds + 1) index)⟩ ∨
      Search.round slots key start ⟨index, none⟩ = ⟨(index + 1) % slots.length, none⟩ ∧
        (index + 1) % slots.length ≠ start ∧
        walk slots key start (rounds + 1) index =
          walk slots key start rounds ((index + 1) % slots.length) := by
  rw [walk]
  cases hslot : slots.getD index none with
  | none => exact Or.inl (by simp only [Search.round, hslot])
  | some other =>
      simp only [Search.round, hslot]
      by_cases hkey : key = other
      · exact Or.inl (by rw [if_pos hkey, if_pos hkey])
      · rw [if_neg hkey, if_neg hkey]
        by_cases hnext : (index + 1) % slots.length = start
        · exact Or.inr (Or.inl (by rw [if_pos hnext, if_pos hnext]))
        · refine Or.inr (Or.inr ⟨by rw [if_neg hnext], hnext, ?_⟩)
          rw [if_neg hnext]

/-- The loop of the search computes the walk. -/
theorem walk_exits {slots : List (Option κ)} (key : κ) (home rounds steps : Nat)
    (hrounds : rounds + 1 + steps = slots.length) : ∃ last,
      While.Exits Search.goesOn (Search.round slots key (home % slots.length))
        ⟨(home + steps) % slots.length, none⟩ ⟨last, some
          (walk slots key (home % slots.length) (rounds + 1) ((home + steps) % slots.length))⟩ := by
  induction rounds generalizing steps with
  | zero =>
      -- the last slot in front of the start
      have hstart : ((home + steps) % slots.length + 1) % slots.length = home % slots.length :=
        (next_eq_start_iff (by omega)).mpr (by omega)
      rcases round_cases slots key (home % slots.length) 0 ((home + steps) % slots.length) with
        hround | hround | ⟨-, hnext, -⟩
      · exact ⟨_, .last rfl hround rfl⟩
      · exact ⟨_, .last rfl hround rfl⟩
      · exact absurd hstart hnext
  | succ rounds ih =>
      rcases round_cases slots key (home % slots.length) (rounds + 1)
          ((home + steps) % slots.length) with hround | hround | ⟨hround, -, hwalk⟩
      · exact ⟨_, .last rfl hround rfl⟩
      · exact ⟨_, .last rfl hround rfl⟩
      · obtain ⟨last, hrest⟩ := ih (steps + 1) (by omega)
        rw [Nat.mod_add_mod, Nat.add_assoc] at hround hwalk
        refine ⟨last, .round rfl ?_⟩
        rw [hround, hwalk]
        exact hrest

/-- **Termination.**  In a table of at least one slot the loop ends, full or not,
and its outcome is that of the probe. -/
theorem search_exits {slots : List (Option κ)} (hsize : 0 < slots.length) (key : κ)
    (home : Nat) : ∃ last,
      While.Exits Search.goesOn (Search.round slots key (home % slots.length))
        (Search.start slots home) ⟨last, some (probe slots key home)⟩ := by
  obtain ⟨rounds, hrounds⟩ : ∃ rounds, slots.length = rounds + 1 :=
    ⟨slots.length - 1, by omega⟩
  obtain ⟨last, hexits⟩ := walk_exits key home rounds 0 hrounds.symm
  rw [← hrounds] at hexits
  exact ⟨last, hexits⟩

/-! ## Room -/

/-- The number of keys in the table. -/
def occupied (slots : List (Option κ)) : Nat := slots.countP Option.isSome

/-- Every slot lies on every walk. -/
theorem exists_steps {n index : Nat} (h : index < n) (home : Nat) :
    ∃ steps < n, (home + steps) % n = index := by
  have hn : 0 < n := Nat.lt_of_le_of_lt (Nat.zero_le _) h
  refine ⟨(index + (n - home % n)) % n, Nat.mod_lt _ hn, ?_⟩
  have hhome := Nat.mod_lt home hn
  rw [Nat.add_mod_mod, ← Nat.mod_add_mod]
  have hsum : home % n + (index + (n - home % n)) = index + n := by omega
  rw [hsum, Nat.add_mod_right, Nat.mod_eq_of_lt h]

/-- **A table with an empty slot turns no probe away.** -/
theorem probe_of_room {slots : List (Option κ)} (h : occupied slots < slots.length) (key : κ)
    (home : Nat) : probe slots key home ≠ .full := by
  intro hfull
  rcases probe_ends slots key home with ⟨steps, -, heq⟩ | ⟨hpasses, -⟩
  · rw [hfull, outcomeAt] at heq
    cases hslot : slotAt slots home steps <;> rw [hslot] at heq <;> exact absurd heq (by simp)
  · have hall : occupied slots = slots.length := by
      apply List.countP_eq_length.mpr
      intro slot hslot
      obtain ⟨index, hindex, rfl⟩ := List.mem_iff_getElem.mp hslot
      obtain ⟨steps, hsteps, heq⟩ := exists_steps hindex home
      obtain ⟨other, hother, -⟩ := hpasses steps hsteps
      rw [slotAt, heq, List.getD_eq_getElem _ _ hindex] at hother
      rw [hother]
      rfl
    exact absurd hall (Nat.ne_of_lt h)

omit [DecidableEq κ] in
/-- Filling an empty slot occupies one more. -/
theorem occupied_set {slots : List (Option κ)} {index : Nat} (h : index < slots.length)
    (hempty : slots.getD index none = none) (key : κ) :
    occupied (slots.set index (some key)) = occupied slots + 1 := by
  rw [List.getD_eq_getElem _ _ h] at hempty
  rw [occupied, occupied, List.countP_set h, hempty]
  simp

omit [DecidableEq κ] in
/-- An empty slot is room. -/
theorem occupied_lt {slots : List (Option κ)} {index : Nat} (h : index < slots.length)
    (hempty : slots.getD index none = none) : occupied slots < slots.length := by
  rw [List.getD_eq_getElem _ _ h] at hempty
  refine List.countP_lt_length_iff.mpr ⟨_, List.getElem_mem h, ?_⟩
  rw [hempty]
  rfl

omit [DecidableEq κ] in
/-- In an empty table no slot is occupied. -/
theorem occupied_empty (n : Nat) : occupied (List.replicate n (none : Option κ)) = 0 := by
  simp [occupied, List.countP_replicate]

end Probing
