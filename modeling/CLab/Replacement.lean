import Mathlib.Tactic.Common
import Mathlib.Data.List.Infix

/-!
# Replacing the occurrences of a pattern

One pass over a text from left to right: the first occurrence of the pattern is
replaced, and the pass goes on behind it.  An occurrence begins at an element of
the text, so there is none in an empty text, whatever the pattern.

* `replaces_cons_here`, `replaces_cons_skip`: the pass, one element at a time;
* `scan_induction`: what a pass over a pattern that is not empty can be proved by;
* `exists_replaces`: there is a result for every such pattern;
* `Replaces.length_eq`: how long it is, from the number of occurrences.
-/

namespace Replacement

variable {α : Type*} {pattern replacement text result : List α} {a : α}

/-- The pattern stands in the text from the place on. -/
def OccursAt (pattern text : List α) (i : Nat) : Prop :=
  i < text.length ∧ pattern <+: text.drop i

/-- The result is the text with the leftmost occurrences of the pattern, each
behind the one before it, replaced. -/
inductive Replaces (pattern replacement : List α) : List α → List α → Prop
  | last {text : List α} (hnone : ∀ i, ¬ OccursAt pattern text i) :
      Replaces pattern replacement text text
  | found {text result : List α} {i : Nat} (hfound : OccursAt pattern text i)
      (hfirst : ∀ j < i, ¬ OccursAt pattern text j)
      (hrest : Replaces pattern replacement (text.drop (i + pattern.length)) result) :
      Replaces pattern replacement text (text.take i ++ replacement ++ result)

/-- An occurrence at the front is a prefix. -/
theorem occursAt_cons_zero : OccursAt pattern (a :: text) 0 ↔ pattern <+: a :: text := by
  simp [OccursAt]

theorem occursAt_cons_succ {i : Nat} :
    OccursAt pattern (a :: text) (i + 1) ↔ OccursAt pattern text i := by
  simp [OccursAt]

/-- In an empty text there is nothing to replace. -/
theorem replaces_nil : Replaces pattern replacement [] result ↔ result = [] := by
  constructor
  · intro h
    cases h with
    | last _ => rfl
    | found hfound _ _ => exact absurd hfound.1 (Nat.not_lt_zero _)
  · intro heq
    obtain rfl := heq
    exact .last fun i hi => absurd hi.1 (Nat.not_lt_zero _)

/-- Where the pattern stands it is replaced, and the pass goes on behind it. -/
theorem replaces_cons_here (hhere : pattern <+: a :: text) :
    Replaces pattern replacement (a :: text) result ↔
      ∃ rest, result = replacement ++ rest ∧
        Replaces pattern replacement ((a :: text).drop pattern.length) rest := by
  have hzero : OccursAt pattern (a :: text) 0 := occursAt_cons_zero.mpr hhere
  constructor
  · intro h
    cases h with
    | last hnone => exact absurd hzero (hnone 0)
    | @found _ rest i _ hfirst hrest =>
        obtain rfl : i = 0 := by
          by_contra hi
          exact hfirst 0 (Nat.pos_of_ne_zero hi) hzero
        rw [Nat.zero_add] at hrest
        exact ⟨rest, rfl, hrest⟩
  · intro hfacts
    obtain ⟨rest, rfl, hrest⟩ := hfacts
    rw [← Nat.zero_add pattern.length] at hrest
    exact .found hzero (fun j hj => absurd hj (Nat.not_lt_zero j)) hrest

/-- Where it does not stand the element stays. -/
theorem replaces_cons_skip (hskip : ¬ pattern <+: a :: text) :
    Replaces pattern replacement (a :: text) result ↔
      ∃ rest, result = a :: rest ∧ Replaces pattern replacement text rest := by
  have hzero : ¬ OccursAt pattern (a :: text) 0 := fun h => hskip (occursAt_cons_zero.mp h)
  constructor
  · intro h
    cases h with
    | last hnone =>
        exact ⟨text, rfl, .last fun i hi => hnone (i + 1) (occursAt_cons_succ.mpr hi)⟩
    | @found _ rest i hfound hfirst hrest =>
        cases i with
        | zero => exact absurd hfound hzero
        | succ i =>
            refine ⟨_, rfl, .found (occursAt_cons_succ.mp hfound) ?_ ?_⟩
            · intro j hj hoccurs
              exact hfirst (j + 1) (Nat.succ_lt_succ hj) (occursAt_cons_succ.mpr hoccurs)
            · rwa [Nat.add_right_comm, List.drop_succ_cons] at hrest
  · intro hfacts
    obtain ⟨rest, rfl, hrest⟩ := hfacts
    cases hrest with
    | last hnone =>
        refine .last fun i hi => ?_
        cases i with
        | zero => exact hzero hi
        | succ i => exact hnone i (occursAt_cons_succ.mp hi)
    | @found _ rest i hfound hfirst hrest =>
        refine .found (i := i + 1) (occursAt_cons_succ.mpr hfound) ?_ ?_
        · intro j hj hoccurs
          cases j with
          | zero => exact hzero hoccurs
          | succ j => exact hfirst j (Nat.lt_of_succ_lt_succ hj) (occursAt_cons_succ.mp hoccurs)
        · rwa [Nat.add_right_comm, List.drop_succ_cons]

/-- **Induction over a pass.**  It gets on over every element it keeps, and behind
every occurrence of a pattern that is not empty. -/
theorem scan_induction {motive : List α → Prop} (hpattern : pattern ≠ []) (hnil : motive [])
    (hhere : ∀ a text, pattern <+: a :: text → motive ((a :: text).drop pattern.length) →
      motive (a :: text))
    (hskip : ∀ a text, ¬ pattern <+: a :: text → motive text → motive (a :: text))
    (text : List α) : motive text := by
  induction hn : text.length using Nat.strong_induction_on generalizing text with
  | h n ih =>
      subst hn
      cases text with
      | nil => exact hnil
      | cons a text =>
          by_cases hoccurs : pattern <+: a :: text
          · apply hhere a text hoccurs
            have hpos := List.length_pos_iff.mpr hpattern
            exact ih _ (by rw [List.length_drop, List.length_cons]; omega) _ rfl
          · exact hskip a text hoccurs (ih _ (Nat.lt_succ_self _) _ rfl)

/-- Every text has a result. -/
theorem exists_replaces (hpattern : pattern ≠ []) (replacement text : List α) :
    ∃ result, Replaces pattern replacement text result := by
  induction text using scan_induction hpattern with
  | hnil => exact ⟨[], replaces_nil.mpr rfl⟩
  | hhere a text hhere ih =>
      obtain ⟨rest, hrest⟩ := ih
      exact ⟨_, (replaces_cons_here hhere).mpr ⟨rest, rfl, hrest⟩⟩
  | hskip a text hskip ih =>
      obtain ⟨rest, hrest⟩ := ih
      exact ⟨_, (replaces_cons_skip hskip).mpr ⟨rest, rfl, hrest⟩⟩

/-! ## How many occurrences are replaced -/

variable [DecidableEq α]

/-- The occurrences in a text, after a number of elements that are left out. -/
def scan (pattern : List α) : Nat → List α → Nat
  | _, [] => 0
  | 0, a :: text =>
      if pattern <+: a :: text then scan pattern (pattern.length - 1) text + 1
      else scan pattern 0 text
  | skip + 1, _ :: text => scan pattern skip text

/-- The leftmost occurrences of the pattern, each behind the one before it. -/
def occurrences (pattern text : List α) : Nat :=
  scan pattern 0 text

/-- The scan that skips counts what is left to count. -/
theorem scan_eq (pattern : List α) (skip : Nat) (text : List α) :
    scan pattern skip text = occurrences pattern (text.drop skip) := by
  induction skip generalizing text with
  | zero => rfl
  | succ skip ih =>
      cases text with
      | nil => rfl
      | cons a text => exact ih text

/-- An occurrence here is counted, and skipped over. -/
theorem occurrences_here (hpattern : pattern ≠ []) (hhere : pattern <+: a :: text) :
    occurrences pattern (a :: text) =
      occurrences pattern ((a :: text).drop pattern.length) + 1 := by
  obtain ⟨n, hn⟩ := Nat.exists_eq_succ_of_ne_zero (List.length_pos_iff.mpr hpattern).ne'
  rw [occurrences, scan, if_pos hhere, scan_eq, hn]
  rfl

/-- Where there is none the count goes on. -/
theorem occurrences_skip (hskip : ¬ pattern <+: a :: text) :
    occurrences pattern (a :: text) = occurrences pattern text := by
  rw [occurrences, scan, if_neg hskip]
  rfl

/-- Every occurrence takes the length of the pattern away and brings that of its
replacement. -/
theorem Replaces.length_eq (hpattern : pattern ≠ [])
    (h : Replaces pattern replacement text result) :
    result.length + occurrences pattern text * pattern.length =
      text.length + occurrences pattern text * replacement.length := by
  induction text using scan_induction hpattern generalizing result with
  | hnil =>
      rw [replaces_nil.mp h]
      simp [occurrences, scan]
  | hhere a text hhere ih =>
      obtain ⟨rest, rfl, hrest⟩ := (replaces_cons_here hhere).mp h
      have hlength := ih hrest
      have hle := hhere.length_le
      rw [List.length_drop] at hlength
      rw [occurrences_here hpattern hhere, List.length_append, Nat.add_mul, Nat.add_mul]
      omega
  | hskip a text hskip ih =>
      obtain ⟨rest, rfl, hrest⟩ := (replaces_cons_skip hskip).mp h
      have hlength := ih hrest
      rw [occurrences_skip hskip, List.length_cons, List.length_cons]
      omega

end Replacement
