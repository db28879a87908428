import Mathlib.Tactic.Common
import Mathlib.Data.List.TakeDrop

/-!
# A heap of blocks

An allocator hands out blocks of cells.  An address is the number of a block,
and no number is handed out twice: the pointer to a block that was given back
stays invalid, as the rules of C have it, whatever a particular allocator does
with the memory.  A cell that was never written has no value.

* `load_of_block`, `load_of_freed`: what a cell holds is read while its block
  is there, and nothing is read of a block that was given back;
* `store_of_block`, `realloc_of_block`: what a block holds behind a store, and
  that `realloc` moves the cells and gives the old block back;
* `block_of_store`: a store changes one block only;
* `load_of_store`, `read_of_block`: what was stored is loaded, and what stands in
  a row of cells is read;
* `Before.block`: a block stays what it is while only other blocks are used;
* `Moves`: one block is changed, and perhaps moved; `Moves.trans` puts what an
  operation does together from its steps;
* `Makes`: a block is there that was not, and the others are as they were.
-/

namespace Blocks

/-- The blocks that were handed out; one that was given back is `none`. -/
structure Heap (α : Type*) where
  blocks : List (Option (List (Option α)))

/-- Why a heap is not used any further. -/
inductive MemoryFault
  | freed
  | outOfBounds
  | unset
  | noCells
deriving DecidableEq

/-- What is done in two steps is done when both are. -/
theorem exists_of_bind {ε α β : Type*} {x : Except ε α} {f : α → Except ε β} {b : β}
    (h : x.bind f = .ok b) : ∃ a, x = .ok a ∧ f a = .ok b := by
  cases x with
  | error e => cases h
  | ok a => exact ⟨a, rfl, h⟩

namespace Heap

variable {α : Type*}

/-- The cells of a block that is there. -/
def block (heap : Heap α) (p : Nat) : Option (List (Option α)) :=
  heap.blocks[p]?.join

/-- `malloc`: a new block behind all others. -/
def alloc (heap : Heap α) (cells : List (Option α)) : Nat × Heap α :=
  (heap.blocks.length, ⟨heap.blocks ++ [some cells]⟩)

/-- A read, which needs a live block and a cell that was written. -/
def load (heap : Heap α) (p i : Nat) : Except MemoryFault α :=
  match heap.block p with
  | none => .error .freed
  | some cells =>
    match cells[i]? with
    | none => .error .outOfBounds
    | some none => .error .unset
    | some (some value) => .ok value

/-- Values written one behind the other. -/
def store (heap : Heap α) (p offset : Nat) (values : List α) : Except MemoryFault (Heap α) :=
  match heap.block p with
  | none => .error .freed
  | some cells =>
    if offset + values.length ≤ cells.length then
      .ok ⟨heap.blocks.set p (some (cells.take offset ++ values.map some ++
        cells.drop (offset + values.length)))⟩
    else .error .outOfBounds

/-- The cells are moved to a block of the given size and the old block is given
back.  What a block of no cells is, is left to the allocator. -/
def realloc (heap : Heap α) (p size : Nat) : Except MemoryFault (Nat × Heap α) :=
  match heap.block p with
  | none => .error .freed
  | some cells =>
    if size = 0 then .error .noCells
    else .ok (alloc ⟨heap.blocks.set p none⟩
      (cells.take size ++ List.replicate (size - cells.length) none))

/-- `free`, which needs a live block. -/
def free (heap : Heap α) (p : Nat) : Except MemoryFault (Heap α) :=
  match heap.block p with
  | none => .error .freed
  | some _ => .ok ⟨heap.blocks.set p none⟩

/-- The values of a number of cells in a row. -/
def read (heap : Heap α) (p offset : Nat) : Nat → Except MemoryFault (List α)
  | 0 => .ok []
  | count + 1 =>
      (heap.load p offset).bind fun value =>
        (heap.read p (offset + 1) count).bind fun values => .ok (value :: values)

variable {heap heap' heap'' : Heap α} {p p' p'' q : Nat}

/-- A new block holds its cells. -/
theorem block_alloc (heap : Heap α) (cells : List (Option α)) :
    (heap.alloc cells).2.block (heap.alloc cells).1 = some cells := by
  simp [block, alloc]

/-- A block is live where the heap has cells for it. -/
theorem block_eq_some_iff {cells : List (Option α)} :
    heap.block p = some cells ↔ heap.blocks[p]? = some (some cells) := by
  rw [block, Option.join_eq_some_iff]

/-- A live block is one of the heap. -/
theorem lt_of_block {cells : List (Option α)} (h : heap.block p = some cells) :
    p < heap.blocks.length :=
  (List.getElem?_eq_some_iff.mp (block_eq_some_iff.mp h)).1

/-- A value that was written is read back. -/
theorem load_of_block {values : List α} {rest : List (Option α)}
    (h : heap.block p = some (values.map some ++ rest)) {i : Nat} {value : α}
    (hi : values[i]? = some value) : heap.load p i = .ok value := by
  have hlt := (List.getElem?_eq_some_iff.mp hi).1
  have hcell : (values.map some ++ rest)[i]? = some (some value) := by
    rw [List.getElem?_append_left (by simpa using hlt), List.getElem?_map, hi, Option.map_some]
  simp [load, h, hcell]

/-- What was stored is loaded again. -/
theorem load_of_store {offset : Nat} {values : List α}
    (hstore : heap.store p offset values = .ok heap') {i : Nat} {value : α}
    (hi : values[i]? = some value) : heap'.load p (offset + i) = .ok value := by
  have hlt := (List.getElem?_eq_some_iff.mp hi).1
  cases hblock : heap.block p with
  | none => simp [store, hblock] at hstore
  | some cells =>
      simp only [store, hblock] at hstore
      split at hstore
      · rename_i hfits
        have hp := lt_of_block hblock
        have hfront : (cells.take offset).length = offset := by
          rw [List.length_take]
          omega
        have hcell : (cells.take offset ++ values.map some ++
            cells.drop (offset + values.length))[offset + i]? = some (some value) := by
          rw [List.append_assoc, List.getElem?_append_right (by omega), hfront,
            Nat.add_sub_cancel_left, List.getElem?_append_left (by simpa using hlt),
            List.getElem?_map, hi, Option.map_some]
        have hnew : heap'.block p = some (cells.take offset ++ values.map some ++
            cells.drop (offset + values.length)) := by
          rw [← Except.ok.inj hstore]
          simp [block, hp]
        simp only [load, hnew, hcell]
      · cases hstore

/-- Values that stand in a row are read. -/
theorem read_of_block {front back : List (Option α)} {values : List α}
    (h : heap.block p = some (front ++ values.map some ++ back)) :
    heap.read p front.length values.length = .ok values := by
  induction values generalizing front with
  | nil => rfl
  | cons value values ih =>
      have hload : heap.load p front.length = .ok value := by
        simp [load, h]
      have hrest : heap.read p (front ++ [some value]).length values.length = .ok values :=
        ih (by simpa using h)
      rw [List.length_append, List.length_singleton] at hrest
      rw [List.length_cons, read, hload, Except.bind, hrest]
      rfl

/-- Nothing is read from a freed block. -/
theorem load_of_freed (h : heap.block p = none) (i : Nat) : heap.load p i = .error .freed := by
  simp [load, h]

/-- A store that fits changes its cells and no others. -/
theorem store_of_block {cells : List (Option α)} (h : heap.block p = some cells) (offset : Nat)
    (values : List α) (hfits : offset + values.length ≤ cells.length) :
    ∃ heap', heap.store p offset values = .ok heap' ∧
      heap'.block p = some (cells.take offset ++ values.map some ++
        cells.drop (offset + values.length)) := by
  refine ⟨_, by simp only [store, h, if_pos hfits]; rfl, ?_⟩
  simp [block, lt_of_block h]

/-- A store changes no other block. -/
theorem block_of_store {q offset : Nat} {values : List α}
    (hstore : heap.store q offset values = .ok heap') (hne : p ≠ q) :
    heap'.block p = heap.block p := by
  cases hblock : heap.block q with
  | none => simp [store, hblock] at hstore
  | some cells =>
      simp only [store, hblock] at hstore
      split at hstore
      · rw [← Except.ok.inj hstore]
        simp [block, List.getElem?_set_ne (Ne.symm hne)]
      · cases hstore

/-- A store that does not fit is a fault. -/
theorem store_outOfBounds {cells : List (Option α)} (h : heap.block p = some cells) (offset : Nat)
    (values : List α) (hfits : ¬ offset + values.length ≤ cells.length) :
    heap.store p offset values = .error .outOfBounds := by
  simp only [store, h, if_neg hfits]

/-- Values written in two goes. -/
theorem store_append (heap : Heap α) (p offset : Nat) (values values' : List α) :
    heap.store p offset (values ++ values') =
      (heap.store p offset values).bind fun heap' =>
        heap'.store p (offset + values.length) values' := by
  cases hblock : heap.block p with
  | none => simp [store, hblock, Except.bind]
  | some cells =>
      by_cases hfits : offset + values.length ≤ cells.length
      · obtain ⟨heap', hstore, hnew⟩ := store_of_block hblock offset values hfits
        have hheap' : heap'.blocks = heap.blocks.set p (some (cells.take offset ++
            values.map some ++ cells.drop (offset + values.length))) := by
          simp only [store, hblock, if_pos hfits] at hstore
          rw [← Except.ok.inj hstore]
        have hlength : offset + values.length + (cells.length - (offset + values.length)) =
            cells.length := by omega
        rw [hstore, Except.bind]
        simp only [store, hblock, hnew, hheap', List.length_append, List.length_map,
          List.length_take, List.length_drop, Nat.min_eq_left (by omega : offset ≤ cells.length),
          hlength, Nat.add_assoc, List.set_set, List.map_append]
        split
        · have hfront : (cells.take offset ++ values.map some).length =
              offset + values.length := by
            simp
            omega
          have hback : (cells.take offset ++ values.map some ++
                cells.drop (offset + values.length)).drop
                  (offset + (values.length + values'.length)) =
              cells.drop (offset + (values.length + values'.length)) := by
            rw [← Nat.add_assoc, ← hfront, List.drop_length_add_append, hfront, List.drop_drop]
          rw [List.take_left' hfront, hback, List.append_assoc, List.append_assoc,
            List.append_assoc, List.append_assoc]
        · rfl
      · rw [store_outOfBounds hblock _ _ (by simp; omega), store_outOfBounds hblock _ _ hfits]
        rfl

/-- `realloc` keeps the front of the block and frees the old one. -/
theorem realloc_of_block {cells : List (Option α)} (h : heap.block p = some cells) (size : Nat)
    (hsize : size ≠ 0) :
    ∃ q heap', heap.realloc p size = .ok (q, heap') ∧
      heap'.block q = some (cells.take size ++ List.replicate (size - cells.length) none) ∧
      heap'.block p = none := by
  have hp := lt_of_block h
  refine ⟨_, _, by simp only [realloc, h, if_neg hsize]; rfl, block_alloc _ _, ?_⟩
  simp [block, alloc, List.getElem?_append_left, hp]

/-! ## Later heaps -/

/-- Since the first heap, only blocks were used that it has not handed out. -/
def Before (heap heap' : Heap α) : Prop :=
  heap.blocks <+: heap'.blocks

/-- A heap comes before itself. -/
theorem Before.refl (heap : Heap α) : heap.Before heap :=
  List.prefix_refl _

/-- A block that was there is still there. -/
theorem Before.block {cells : List (Option α)} (h : heap.Before heap')
    (hblock : heap.block p = some cells) : heap'.block p = some cells := by
  obtain ⟨later, hlater⟩ := h
  rw [block_eq_some_iff] at hblock ⊢
  rw [← hlater, List.getElem?_append_left (List.getElem?_eq_some_iff.mp hblock).1, hblock]

/-- A new block leaves the others. -/
theorem Before.alloc (heap : Heap α) (cells : List (Option α)) :
    heap.Before (heap.alloc cells).2 :=
  List.prefix_append _ _

/-- The number of a new block was not in use. -/
theorem block_new (heap : Heap α) (cells : List (Option α)) :
    heap.block (heap.alloc cells).1 = none := by
  simp [block, Heap.alloc]

/-! ## What is done to one block -/

/-- A block of the first heap is a block of the second one now, the same or one
that was free, and the other blocks that were there are as they were. -/
structure Moves (heap : Heap α) (p : Nat) (heap' : Heap α) (p' : Nat) : Prop where
  place : p' = p ∨ heap.block p' = none
  others : ∀ {q : Nat} {cells : List (Option α)}, q ≠ p → heap.block q = some cells →
    heap'.block q = some cells

/-- A block need not move. -/
theorem Moves.refl (heap : Heap α) (p : Nat) : heap.Moves p heap p :=
  ⟨Or.inl rfl, fun _ h => h⟩

/-- Another block that was there is not where the block is now. -/
theorem Moves.apart (h : heap.Moves p heap' p') {cells : List (Option α)} (hne : q ≠ p)
    (hq : heap.block q = some cells) : q ≠ p' := by
  intro heq
  obtain rfl := heq
  rcases h.place with heq | hfree
  · exact hne heq
  · rw [hfree] at hq
    cases hq

/-- Two moves are one. -/
theorem Moves.trans (h : heap.Moves p heap' p') (h' : heap'.Moves p' heap'' p'') :
    heap.Moves p heap'' p'' := by
  refine ⟨?_, fun hne hq => h'.others (h.apart hne hq) (h.others hne hq)⟩
  rcases h'.place with rfl | hfree
  · exact h.place
  by_cases heq : p'' = p
  · exact Or.inl heq
  cases hblock : heap.block p'' with
  | none => exact Or.inr rfl
  | some cells =>
      rw [h.others heq hblock] at hfree
      cases hfree

/-- A store moves nothing. -/
theorem store_moves {offset : Nat} {values : List α}
    (hstore : heap.store p offset values = .ok heap') : heap.Moves p heap' p :=
  ⟨Or.inl rfl, fun hne hq => (block_of_store hstore hne).trans hq⟩

theorem realloc_moves {size : Nat} (hrealloc : heap.realloc p size = .ok (p', heap')) :
    heap.Moves p heap' p' := by
  cases hblock : heap.block p with
  | none => simp [realloc, hblock] at hrealloc
  | some cells =>
      simp only [realloc, hblock] at hrealloc
      split at hrealloc
      · cases hrealloc
      · obtain ⟨rfl, rfl⟩ := Prod.mk.inj (Except.ok.inj hrealloc)
        refine ⟨Or.inr ?_, fun {q _} hne hq => ?_⟩
        · simp [block]
        · apply (Before.alloc ⟨heap.blocks.set p none⟩ _).block
          rw [block_eq_some_iff] at hq ⊢
          rw [List.getElem?_set_ne (Ne.symm hne), hq]

/-- A block is there that was not, and those that were there are as they were. -/
def Makes (heap heap' : Heap α) (p : Nat) : Prop :=
  ∃ q, heap.block q = none ∧ heap.Moves q heap' p

/-- Allocation makes a block. -/
theorem alloc_makes (heap : Heap α) (cells : List (Option α)) :
    heap.Makes (heap.alloc cells).2 (heap.alloc cells).1 :=
  ⟨_, block_new heap cells, Or.inl rfl, fun _ h => (Before.alloc heap cells).block h⟩

/-- A block that was made may move afterwards. -/
theorem Makes.moves (h : heap.Makes heap' p) (h' : heap'.Moves p heap'' p') :
    heap.Makes heap'' p' := by
  obtain ⟨q, hnew, hmoves⟩ := h
  exact ⟨q, hnew, hmoves.trans h'⟩

/-- What was there is where it was, and it is not the new block. -/
theorem Makes.others (h : heap.Makes heap' p) {cells : List (Option α)}
    (hq : heap.block q = some cells) : q ≠ p ∧ heap'.block q = some cells := by
  obtain ⟨new, hnew, hmoves⟩ := h
  have hne : q ≠ new := by
    intro heq
    obtain rfl := heq
    rw [hnew] at hq
    cases hq
  exact ⟨hmoves.apart hne hq, hmoves.others hne hq⟩

/-- A block that is there can be given back, and the others stay. -/
theorem free_of_block {cells : List (Option α)} (h : heap.block p = some cells) :
    ∃ heap', heap.free p = .ok heap' ∧ ∀ {q}, q ≠ p → heap'.block q = heap.block q := by
  refine ⟨_, by simp only [free, h]; rfl, fun {q} hne => ?_⟩
  simp [block, List.getElem?_set_ne (Ne.symm hne)]

end Heap

end Blocks
