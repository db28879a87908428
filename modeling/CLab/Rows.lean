import Mathlib.Data.List.Basic

/-!
# Items in rows

A loop that counts its items and breaks the line in front of every item whose
number is a multiple of the width lays them out in rows.  `InRows` is such a
layout: every row but the last is full, and the first may have less room than the
others.  `broken_eq` says that the loop writes the rows, and `words_split` how
the items are read back.
-/

namespace Rows

universe u

variable {α β : Type u}

/-- The items in rows of the width, of which the first has the given room. -/
inductive InRows (width : Nat) : Nat → List α → List (List α) → Prop
  | last {room : Nat} {items : List α} (hroom : items.length ≤ room) :
      InRows width room items [items]
  | full {row items : List α} {rows : List (List α)} (hitems : items ≠ [])
      (hrest : InRows width width items rows) :
      InRows width row.length (row ++ items) (row :: rows)

section Layout

variable {width room : Nat} {items : List α} {rows : List (List α)}

/-- Nothing is left out and nothing is moved. -/
theorem InRows.flatten (h : InRows width room items rows) : rows.flatten = items := by
  induction h with
  | last => simp
  | full _ _ ih => rw [List.flatten_cons, ih]

/-- There is always a row. -/
theorem InRows.ne_nil (h : InRows width room items rows) : rows ≠ [] := by
  cases h <;> exact List.cons_ne_nil _ _

/-- No row is longer than its room. -/
theorem InRows.length_le (h : InRows width room items rows) (hroom : room ≤ width) :
    ∀ row ∈ rows, row.length ≤ width := by
  induction h with
  | last hitems =>
      intro row hrow
      rw [List.mem_singleton.mp hrow]
      exact Nat.le_trans hitems hroom
  | full _ _ ih =>
      intro row hrow
      rcases List.mem_cons.mp hrow with hfirst | hlater
      · rw [hfirst]
        exact hroom
      · exact ih (Nat.le_refl _) row hlater

/-- Without items it is empty. -/
theorem inRows_nil (h : InRows width room [] rows) : rows = [[]] := by
  generalize hitems : ([] : List α) = all at h
  cases h with
  | last => rw [← hitems]
  | full hne => exact absurd (List.append_eq_nil_iff.mp hitems.symm).2 hne

/-- An item for which there is room stands in the first row. -/
theorem inRows_cons {x : α} (h : InRows width (room + 1) (x :: items) rows) :
    ∃ row later, rows = (x :: row) :: later ∧ InRows width room items (row :: later) := by
  generalize hroom : room + 1 = n at h
  generalize hitems : x :: items = all at h
  cases h with
  | last hfits =>
      subst hitems hroom
      exact ⟨items, [], rfl, .last (Nat.le_of_succ_le_succ hfits)⟩
  | @full row rest later hne hrest =>
      cases row with
      | nil => cases hroom
      | cons y row =>
          obtain ⟨rfl, rfl⟩ := List.cons.inj hitems
          obtain rfl : room = row.length := Nat.succ.inj hroom
          exact ⟨row, later, rfl, .full hne hrest⟩

/-- An item for which there is none begins the next row. -/
theorem inRows_noRoom {x : α} (h : InRows width 0 (x :: items) rows) :
    ∃ later, rows = [] :: later ∧ InRows width width (x :: items) later := by
  generalize hroom : 0 = n at h
  generalize hitems : x :: items = all at h
  cases h with
  | last hfits =>
      subst hitems hroom
      cases hfits
  | @full row rest later hne hrest =>
      obtain rfl : row = [] := List.length_eq_zero_iff.mp hroom.symm
      exact ⟨later, rfl, hrest⟩

/-- An item in front makes room for itself. -/
theorem inRows_add {x : α} {row : List α} (h : InRows width room items (row :: rows)) :
    InRows width (room + 1) (x :: items) ((x :: row) :: rows) := by
  cases h with
  | last hfits => exact .last (Nat.succ_le_succ hfits)
  | @full _ rest _ hne hrest => exact @InRows.full _ width (x :: row) rest rows hne hrest

/-- Every list of items has a layout. -/
theorem exists_inRows (hwidth : 0 < width) (items : List α) (room : Nat) :
    ∃ rows, InRows width room items rows := by
  obtain ⟨less, rfl⟩ : ∃ n, width = n + 1 := ⟨width - 1, by omega⟩
  induction items generalizing room with
  | nil => exact ⟨[[]], .last (Nat.zero_le _)⟩
  | cons x items ih =>
      have hadd : ∀ room, ∃ rows, InRows (less + 1) (room + 1) (x :: items) rows := by
        intro room
        obtain ⟨rows, hrows⟩ := ih room
        obtain ⟨row, later, rfl⟩ := List.exists_cons_of_ne_nil hrows.ne_nil
        exact ⟨_, inRows_add hrows⟩
      cases room with
      | succ room => exact hadd room
      | zero =>
          obtain ⟨rows, hrows⟩ := hadd less
          exact ⟨[] :: rows, @InRows.full _ _ [] _ _ (List.cons_ne_nil _ _) hrows⟩

end Layout

/-! ## The loop that counts -/

section Text

variable (width : Nat) (newRow : List β) (write : α → List β)

/-- What is written for the items when so many have been counted before. -/
def broken : Nat → List α → List β
  | _, [] => []
  | counter, x :: items =>
      (if (counter + 1) % width = 0 then newRow else []) ++ write x ++
        broken (counter + 1) items

/-- The rows with a break between them. -/
def rowsText : List (List α) → List β
  | [] => []
  | [row] => row.flatMap write
  | row :: later => row.flatMap write ++ newRow ++ rowsText later

variable {width newRow write}

/-- The first row is written in front of the others. -/
theorem rowsText_cons {row : List α} {later : List (List α)} (h : later ≠ []) :
    rowsText newRow write (row :: later) =
      row.flatMap write ++ newRow ++ rowsText newRow write later := by
  obtain ⟨next, more, rfl⟩ := List.exists_cons_of_ne_nil h
  rfl

theorem rowsText_item (x : α) (row : List α) (later : List (List α)) :
    rowsText newRow write ((x :: row) :: later) =
      write x ++ rowsText newRow write (row :: later) := by
  cases later with
  | nil => simp [rowsText]
  | cons next more => simp [rowsText]

/-- **The loop writes rows**, if the next break comes when the room is full. -/
theorem broken_eq {counter room : Nat} {items : List α} {rows : List (List α)}
    (hbreak : width ∣ counter + room + 1) (hroom : room < width)
    (h : InRows width room items rows) :
    broken width newRow write counter items = rowsText newRow write rows := by
  induction items generalizing counter room rows with
  | nil =>
      rw [inRows_nil h]
      rfl
  | cons x items ih =>
      cases room with
      | zero =>
          -- the item begins a row
          obtain ⟨later, rfl, hlater⟩ := inRows_noRoom h
          obtain ⟨less, rfl⟩ : ∃ n, width = n + 1 := ⟨width - 1, by omega⟩
          obtain ⟨row, more, rfl, hrest⟩ := inRows_cons hlater
          have hnext : less + 1 ∣ counter + 1 + less + 1 := by
            have hsum : counter + 1 + less + 1 = counter + 0 + 1 + (less + 1) := by omega
            rw [hsum]
            exact Nat.dvd_add hbreak (Nat.dvd_refl _)
          rw [broken, if_pos (Nat.mod_eq_zero_of_dvd hbreak), ih hnext (Nat.lt_succ_self _) hrest,
            rowsText_cons (List.cons_ne_nil _ _), rowsText_item]
          simp
      | succ room =>
          obtain ⟨row, more, rfl, hrest⟩ := inRows_cons h
          have hnot : ¬ (counter + 1) % width = 0 := by
            intro hzero
            have hrows := (Nat.dvd_add_right (Nat.dvd_of_mod_eq_zero hzero)).mp
              (show width ∣ counter + 1 + (room + 1) by
                rwa [Nat.add_right_comm] at hbreak)
            exact absurd (Nat.le_of_dvd (Nat.succ_pos _) hrows) (Nat.not_le.mpr hroom)
          have hnext : width ∣ counter + 1 + room + 1 := by
            rwa [Nat.add_right_comm counter 1 room]
          rw [broken, if_neg hnot, ih hnext (Nat.lt_of_succ_lt hroom) hrest, rowsText_item]
          rfl

end Text

/-! ## Reading the items back -/

section Words

variable (isItem : β → Bool)

/-- The longest stretches of a text in which every character belongs to an item. -/
def words (text : List β) : List (List β) :=
  (text.splitOnP fun ch => !isItem ch).filter fun word => !word.isEmpty

variable {isItem}

/-- A text that is cut at a character between the items. -/
theorem words_split (front back : List β) {ch : β} (hch : isItem ch = false) :
    words isItem (front ++ ch :: back) = words isItem front ++ words isItem back := by
  rw [words, List.splitOnP_append_cons _ _ (by simp [hch]), List.filter_append]
  rfl

/-- An empty text has no words. -/
theorem words_nil : words isItem ([] : List β) = [] := rfl

/-- Characters between the items. -/
theorem words_between {text : List β} (h : ∀ ch ∈ text, isItem ch = false) (back : List β) :
    words isItem (text ++ back) = words isItem back := by
  induction text with
  | nil => rfl
  | cons ch text ih =>
      have hsplit := words_split [] (text ++ back) (h ch List.mem_cons_self)
      rw [List.nil_append, words_nil, List.nil_append] at hsplit
      rw [List.cons_append, hsplit]
      exact ih fun ch hmem => h ch (List.mem_cons_of_mem _ hmem)

/-- A text of items is one word. -/
theorem words_word {word : List β} (hne : word ≠ []) (h : ∀ ch ∈ word, isItem ch = true) :
    words isItem word = [word] := by
  have hsingle := @List.splitOnP_eq_singleton _ (fun ch => !isItem ch) word
    (by simpa using h)
  rw [words, hsingle]
  simp [hne]

end Words

end Rows
