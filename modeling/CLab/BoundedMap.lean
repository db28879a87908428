import Mathlib.Data.Finmap

/-!
# Maps of a bounded number of keys

What a table of a fixed number of places stands for: a finite map that takes a
key if it is new and there is room for it, and keeps the value it was first
given.

* `put_snd`: when a key is taken;
* `lookup_put`: what the map holds then;
* `lookup_putAll`: what it holds after any number of keys is what came with the
  one that was taken.
-/

namespace BoundedMap

variable {κ α : Type*} [DecidableEq κ]

/-- A key is put in if it is new and there is room.  The answer says whether it
was. -/
def put (bound : Nat) (m : Finmap fun _ : κ => α) (key : κ) (value : α) :
    (Finmap fun _ : κ => α) × Bool :=
  if key ∉ m ∧ m.keys.card < bound then (m.insert key value, true) else (m, false)

/-- Keys put in one after the other, with the answers. -/
def putAll (bound : Nat) (m : Finmap fun _ : κ => α) :
    List (κ × α) → (Finmap fun _ : κ => α) × List Bool
  | [] => (m, [])
  | (key, value) :: rest =>
      let (m, answer) := put bound m key value
      let (m, answers) := putAll bound m rest
      (m, answer :: answers)

variable {bound : Nat} {m : Finmap fun _ : κ => α} {key : κ} {value : α}

/-- A pair is put where its key is new and there is room. -/
theorem put_snd : (put bound m key value).2 = true ↔ key ∉ m ∧ m.keys.card < bound := by
  unfold put
  split_ifs with h
  · exact iff_of_true rfl h
  · exact iff_of_false (by simp) h

/-- Then it is in the map. -/
theorem put_of_taken (hnew : key ∉ m) (hroom : m.keys.card < bound) :
    put bound m key value = (m.insert key value, true) :=
  if_pos ⟨hnew, hroom⟩

/-- A new key makes the map larger by one. -/
theorem card_keys_insert (hnew : key ∉ m) : (m.insert key value).keys.card = m.keys.card + 1 := by
  have hkeys : (m.insert key value).keys = Insert.insert key m.keys := by
    ext k
    rw [Finmap.mem_keys, Finmap.mem_insert, Finset.mem_insert, Finmap.mem_keys]
  rw [hkeys, Finset.card_insert_of_notMem]
  rwa [Finmap.mem_keys]

/-- A lookup behind a put sees the new pair if it was taken. -/
theorem lookup_put (k : κ) : (put bound m key value).1.lookup k =
    if (put bound m key value).2 = true ∧ k = key then some value else m.lookup k := by
  unfold put
  split_ifs with htaken hcond hcond
  · rw [hcond.2, Finmap.lookup_insert]
  · exact Finmap.lookup_insert_of_ne m fun h => hcond ⟨rfl, h⟩
  · exact absurd hcond.1 (by simp)
  · rfl

/-- Pairs can be put in two batches. -/
theorem putAll_append (bound : Nat) (m : Finmap fun _ : κ => α) (pairs pairs' : List (κ × α)) :
    (putAll bound m (pairs ++ pairs')).1 = (putAll bound (putAll bound m pairs).1 pairs').1 := by
  induction pairs generalizing m with
  | nil => rfl
  | cons pair pairs ih => exact ih _

/-- The last pair is put into the map of the others. -/
theorem putAll_concat (bound : Nat) (m : Finmap fun _ : κ => α) (pairs : List (κ × α))
    (pair : κ × α) : (putAll bound m (pairs ++ [pair])).1 =
      (put bound (putAll bound m pairs).1 pair.1 pair.2).1 := by
  rw [putAll_append]
  rfl

/-- **What a map holds** is what came with the key when it was taken. -/
theorem lookup_putAll {pairs : List (κ × α)} :
    (putAll bound ∅ pairs).1.lookup key = some value ↔
      ∃ before after, pairs = before ++ (key, value) :: after ∧
        (put bound (putAll bound ∅ before).1 key value).2 = true := by
  induction pairs using List.reverseRecOn with
  | nil =>
      apply iff_of_false (by simp [putAll])
      intro hfacts
      obtain ⟨before, after, hpairs, -⟩ := hfacts
      simp at hpairs
  | append_singleton pairs pair ih =>
      rw [putAll_concat, lookup_put]
      constructor
      · intro h
        split_ifs at h with htaken
        · obtain ⟨htaken, hkey⟩ := htaken
          obtain rfl := Option.some.inj h
          subst hkey
          exact ⟨pairs, [], rfl, htaken⟩
        · obtain ⟨before, after, hpairs, htaken'⟩ := ih.mp h
          exact ⟨before, after ++ [pair], by rw [hpairs]; simp, htaken'⟩
      · intro hfacts
        obtain ⟨before, after, hpairs, htaken⟩ := hfacts
        rcases List.eq_nil_or_concat after with rfl | ⟨after', last, rfl⟩
        · obtain ⟨rfl, hpair⟩ := List.append_inj' hpairs rfl
          obtain rfl := List.singleton_inj.mp hpair
          rw [if_pos ⟨htaken, rfl⟩]
        · rw [List.concat_eq_append, ← List.cons_append, ← List.append_assoc] at hpairs
          obtain ⟨rfl, hlast⟩ := List.append_inj' hpairs rfl
          have hheld := ih.mpr ⟨before, after', rfl, htaken⟩
          rw [if_neg, hheld]
          -- a key that is held is not taken again
          intro hfacts
          obtain ⟨hagain, rfl⟩ := hfacts
          exact (put_snd.mp hagain).1 (Finmap.mem_of_lookup_eq_some hheld)

end BoundedMap
