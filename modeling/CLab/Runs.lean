import Mathlib.Data.List.Chain
import Mathlib.Data.Int.Basic
import Mathlib.Tactic.Common

/-!
# Runs of consecutive elements

A list whose elements follow each other is given by its two ends
(`Consecutive.eq_map_range`), so it can be written as the ends with a separator
between them.  A text of such pieces is read back piece by piece, whatever
stands behind it, as long as no piece begins with the separator
(`expand_append`).
-/

namespace Runs

/-! ## A run and its ends -/

section Consecutive

variable {α : Type*} (rank : α → ℤ)

/-- Every element is the next one after the element in front of it. -/
def Consecutive (run : List α) : Prop :=
  run.IsChain fun a b => rank b = rank a + 1

variable {rank}

/-- The rest of a run is one. -/
theorem Consecutive.tail {a : α} {run : List α} (h : Consecutive rank (a :: run)) :
    Consecutive rank run :=
  List.IsChain.tail h

/-- The elements of a run, counted from its first one. -/
theorem Consecutive.rank_getElem {a : α} {run : List α} (h : Consecutive rank (a :: run)) {d : ℕ}
    (hd : d < (a :: run).length) : rank (a :: run)[d] = rank a + d := by
  induction run generalizing a d with
  | nil =>
      have hzero : d = 0 := by simpa using hd
      simp [hzero]
  | cons b run ih =>
      have hnext : rank b = rank a + 1 := (List.isChain_cons_cons.mp h).1
      cases d with
      | zero => simp
      | succ d =>
          have hd' : d < (b :: run).length := Nat.lt_of_succ_lt_succ hd
          have hrest : rank (b :: run)[d] = rank b + d := ih h.tail hd'
          rw [List.getElem_cons_succ, hrest, hnext]
          omega

/-- The last of a run is as far as the run is long. -/
theorem Consecutive.rank_getLast {a : α} {run : List α} (h : Consecutive rank (a :: run)) :
    rank ((a :: run).getLast (List.cons_ne_nil a run)) = rank a + run.length := by
  rw [List.getLast_eq_getElem]
  exact h.rank_getElem _

/-- **A run is given by its ends.**  It is what counts from the one to the
other. -/
theorem Consecutive.eq_map_range (hrank : Function.Injective rank) {a : α} {run : List α}
    (h : Consecutive rank (a :: run)) {f : ℕ → α}
    (hf : ∀ d ≤ run.length, rank (f d) = rank a + d) :
    a :: run = (List.range (run.length + 1)).map f := by
  apply List.ext_getElem
  · simp
  · intro d hd hd'
    apply hrank
    rw [h.rank_getElem hd, List.getElem_map, List.getElem_range]
    exact (hf d (Nat.le_of_lt_succ hd)).symm

end Consecutive

/-! ## A text of pieces -/

/-- A piece of a text: an element, or all elements from one to another. -/
inductive Piece (α : Type*)
  | one (a : α)
  | range (first last : α)

variable {α : Type*} (separator : α) (between : α → α → List α)

/-- What a piece begins with. -/
def Piece.first : Piece α → α
  | one a => a
  | range first _ => first

/-- How a piece is written. -/
def Piece.text : Piece α → List α
  | one a => [a]
  | range first last => [first, separator, last]

/-- What a piece stands for. -/
def Piece.content : Piece α → List α
  | one a => [a]
  | range first last => between first last

variable {separator} in
/-- No text of pieces begins with the separator. -/
theorem head_text {ps : List (Piece α)} (hps : ∀ p ∈ ps, p.first ≠ separator) {rest : List α}
    (hrest : rest.head? ≠ some separator) :
    (ps.flatMap (Piece.text separator) ++ rest).head? ≠ some separator := by
  cases ps with
  | nil => exact hrest
  | cons p ps =>
      have hp := hps p List.mem_cons_self
      cases p <;> simpa [Piece.text, Piece.first] using hp

variable [DecidableEq α]

/-- A text read from the left: an element with the separator and another
element behind it stands for all the elements from the one to the other. -/
def expand : List α → List α
  | [] => []
  | [a] => [a]
  | [a, b] => [a, b]
  | a :: b :: c :: rest =>
      if b = separator then between a c ++ expand rest else a :: expand (b :: c :: rest)

variable {separator}

/-- Without a separator behind it an item stands for itself. -/
theorem expand_cons {a : α} {rest : List α} (hrest : rest.head? ≠ some separator) :
    expand separator between (a :: rest) = a :: expand separator between rest := by
  match rest with
  | [] => simp [expand]
  | [b] => simp [expand]
  | b :: c :: rest =>
      have hb : b ≠ separator := fun h => hrest (by rw [h]; rfl)
      simp [expand, hb]

/-- **Reading back.**  The pieces of a text are read back one by one. -/
theorem expand_append {ps : List (Piece α)} (hps : ∀ p ∈ ps, p.first ≠ separator) {rest : List α}
    (hrest : rest.head? ≠ some separator) :
    expand separator between (ps.flatMap (Piece.text separator) ++ rest) =
      ps.flatMap (Piece.content between) ++ expand separator between rest := by
  induction ps with
  | nil => rfl
  | cons p ps ih =>
      have hbehind := ih fun q hq => hps q (List.mem_cons_of_mem _ hq)
      cases p with
      | one a =>
          have hhead := head_text (fun q hq => hps q (List.mem_cons_of_mem _ hq)) hrest
          simp only [List.flatMap_cons, Piece.text, Piece.content, List.cons_append,
            List.nil_append]
          rw [expand_cons between hhead, hbehind]
      | range first last =>
          simp only [List.flatMap_cons, Piece.text, Piece.content, List.append_assoc,
            List.cons_append, List.nil_append]
          rw [expand, if_pos rfl, hbehind]

end Runs
