import Mathlib.Tactic.Common
import Mathlib.Data.List.Basic

/-!
# Items written one behind the other

A reader takes the next item from the front of a list and leaves the rest.  A
piece from which it takes an item whatever follows can stand in front of any
other (`Reads`), so such pieces one behind the other are taken apart again into
their items, one after the other (`Reads.cons`).
-/

namespace PrefixCode

variable {α β : Type}

/-- A reader: the next item, and what is left behind it. -/
abbrev Reader (α β : Type) := List α → Option (β × List α)

variable (next : Reader α β)

/-- Items up to the end, of which there are at most `fuel`. -/
def readFrom : Nat → List α → Option (List β)
  | _, [] => some []
  | 0, _ :: _ => none
  | fuel + 1, a :: rest =>
      (next (a :: rest)).bind fun found =>
        (readFrom fuel found.2).map (fun items => found.1 :: items)

/-- Every item takes a member of the list at least. -/
def readAll (text : List α) : Option (List β) := readFrom next text.length text

/-- The piece is read as the item, whatever follows. -/
structure Reads (piece : List α) (item : β) : Prop where
  nonempty : piece ≠ []
  reads : ∀ rest, next (piece ++ rest) = some (item, rest)

variable {next}

theorem readFrom_more {fuel fuel' : Nat} {text : List α} {items : List β}
    (h : readFrom next fuel text = some items) (hle : fuel ≤ fuel') :
    readFrom next fuel' text = some items := by
  induction fuel generalizing fuel' text items with
  | zero =>
      cases text with
      | nil =>
          rw [readFrom] at h ⊢
          exact h
      | cons a rest => cases h
  | succ fuel ih =>
      cases text with
      | nil =>
          rw [readFrom] at h ⊢
          exact h
      | cons a rest =>
          obtain ⟨more, rfl⟩ : ∃ more, fuel' = more + 1 := ⟨fuel' - 1, by omega⟩
          rw [readFrom] at h ⊢
          obtain ⟨found, hfound, h⟩ := Option.bind_eq_some_iff.mp h
          obtain ⟨others, hothers, rfl⟩ := Option.map_eq_some_iff.mp h
          rw [hfound, Option.bind_some, ih hothers (by omega)]
          rfl

/-- **A piece in front** is the next item. -/
theorem Reads.cons {piece rest : List α} {item : β} {items : List β}
    (h : Reads next piece item) (hrest : readAll next rest = some items) :
    readAll next (piece ++ rest) = some (item :: items) := by
  obtain ⟨a, piece', rfl⟩ := List.exists_cons_of_ne_nil h.nonempty
  have hread := h.reads rest
  have hlength : (a :: piece' ++ rest).length = (piece' ++ rest).length + 1 := rfl
  rw [readAll, hlength, List.cons_append, readFrom]
  rw [List.cons_append] at hread
  rw [hread, Option.bind_some]
  have hfuel : rest.length ≤ (piece' ++ rest).length := by
    rw [List.length_append]
    omega
  rw [readFrom_more hrest hfuel]
  rfl

end PrefixCode
