import Mathlib.Data.List.Induction

/-!
# Pieces of the lines of a text

A piece of a text that stands in one of its lines: the lines in front of that
line, what stands beside the piece in the line, and what comes behind the line.
The index of the piece settles all of them.
-/

namespace LinePlaces

variable {α : Type*} {newline : α} {text piece : List α}

/-- A piece of a text that stands in one line of it. -/
structure Place (newline : α) (text piece : List α) where
  before : List α
  front : List α
  behind : List α
  after : List α
  text_eq : text = before ++ (front ++ (piece ++ (behind ++ after)))
  begins : before = [] ∨ ∃ lines, before = lines ++ [newline]
  front_line : newline ∉ front
  piece_line : newline ∉ piece
  behind_line : newline ∉ behind
  ends : after = [] ∨ ∃ lines, after = newline :: lines

namespace Place

/-- Where the piece begins. -/
def index (place : Place newline text piece) : Nat :=
  place.before.length + place.front.length

/-- What lies in front of a place. -/
theorem take_before (place : Place newline text piece) :
    text.take place.before.length = place.before := by
  obtain ⟨before, front, behind, after, rfl, -, -, -, -, -⟩ := place
  exact List.take_left

/-- What lies behind it, line by line. -/
theorem drop_before (place : Place newline text piece) :
    text.drop place.before.length =
      place.front ++ (piece ++ (place.behind ++ place.after)) := by
  obtain ⟨before, front, behind, after, rfl, -, -, -, -, -⟩ := place
  exact List.drop_left

/-- It lies inside the text. -/
theorem before_le (place : Place newline text piece) :
    place.before.length ≤ text.length := by
  have hlength := congrArg List.length place.take_before
  rw [List.length_take] at hlength
  omega

/-- A character in front of the piece. -/
theorem getElem?_front (place : Place newline text piece) {i : Nat}
    (hi : i < place.front.length) :
    text[place.before.length + i]? = some place.front[i] := by
  rw [← List.getElem?_drop, place.drop_before, List.getElem?_append_left hi,
    List.getElem?_eq_getElem hi]

/-- A line that is not the first begins behind a newline. -/
theorem getElem?_before (place : Place newline text piece) {i : Nat}
    (hi : place.before.length = i + 1) : text[i]? = some newline := by
  rcases place.begins with hnil | ⟨lines, hlines⟩
  · rw [hnil] at hi
    exact absurd hi (Nat.succ_ne_zero i).symm
  · have hlength : lines.length = i := by
      rw [hlines, List.length_append, List.length_singleton] at hi
      exact Nat.succ.inj hi
    have htake : (text.take place.before.length)[i]? = some newline := by
      rw [place.take_before, hlines, ← hlength, List.getElem?_concat_length]
    rwa [List.getElem?_take_of_lt (by omega)] at htake

variable [DecidableEq α]

/-- The number of the line, the first of which is 1. -/
def lineNumber (place : Place newline text piece) : Nat := place.before.count newline + 1

/-- A text in front of which a line begins. -/
theorem exists_front (newline : α) (front : List α) : ∃ before line, front = before ++ line ∧
    newline ∉ line ∧ (before = [] ∨ ∃ lines, before = lines ++ [newline]) := by
  induction front using List.reverseRecOn with
  | nil => exact ⟨[], [], rfl, List.not_mem_nil, Or.inl rfl⟩
  | append_singleton front c ih =>
      obtain ⟨before, line, hfront, hline, hbegins⟩ := ih
      by_cases hc : c = newline
      · exact ⟨front ++ [c], [], by simp, List.not_mem_nil, Or.inr ⟨front, by rw [hc]⟩⟩
      · refine ⟨before, line ++ [c], by rw [hfront, List.append_assoc], ?_, hbegins⟩
        simp only [List.mem_append, List.mem_singleton, not_or]
        exact ⟨hline, fun h => hc h.symm⟩

/-- A text behind which a line ends. -/
theorem exists_behind (newline : α) (behind : List α) : ∃ line after, behind = line ++ after ∧
    newline ∉ line ∧ (after = [] ∨ ∃ lines, after = newline :: lines) := by
  induction behind with
  | nil => exact ⟨[], [], rfl, List.not_mem_nil, Or.inl rfl⟩
  | cons c behind ih =>
      obtain ⟨line, after, hbehind, hline, hends⟩ := ih
      by_cases hc : c = newline
      · exact ⟨[], c :: behind, rfl, List.not_mem_nil, Or.inr ⟨behind, by rw [hc]⟩⟩
      · refine ⟨c :: line, after, by rw [hbehind, List.cons_append], ?_, hends⟩
        simp only [List.mem_cons, not_or]
        exact ⟨fun h => hc h.symm, hline⟩

/-- A piece without a newline has a place wherever it stands. -/
theorem exists_at {index : Nat} (hindex : index ≤ text.length)
    (hpiece : piece <+: text.drop index) (hline : newline ∉ piece) :
    ∃ place : Place newline text piece, place.index = index := by
  obtain ⟨rest, hrest⟩ := hpiece
  obtain ⟨before, front, hfront, hfrontLine, hbegins⟩ :=
    exists_front newline (text.take index)
  obtain ⟨behind, after, hbehind, hbehindLine, hends⟩ := exists_behind newline rest
  have htext : text = before ++ (front ++ (piece ++ (behind ++ after))) := by
    rw [← hbehind, hrest, ← List.append_assoc, ← hfront, List.take_append_drop]
  refine ⟨⟨before, front, behind, after, htext, hbegins, hfrontLine, hline, hbehindLine, hends⟩, ?_⟩
  have hlength := congrArg List.length hfront
  rw [List.length_take, Nat.min_eq_left hindex, List.length_append] at hlength
  exact hlength.symm

end Place

end LinePlaces
