import CLab.Blocks
import CLab.StringUtil
import Mathlib.Data.Nat.Size
import Mathlib.Data.Nat.Bitwise

/-!
# Strings in memory

`string_util.c` with what the other modules leave out: a `String` is passed
by value, and what is passed is a capacity, a length and a pointer.  Appending
to one copy may move the characters to a larger block; another copy then keeps
the pointer to the block that was given back.

`Denotes` connects a string in memory with the string of `StringUtil`;
`stringAppendChar_denotes` and `stringAppendCstr_denotes` say that appending
does here what it does there.
-/

namespace Assembler

namespace Stored

open Blocks (Heap MemoryFault)

/-- The memory of the program, by bytes. -/
abbrev Memory := Heap UInt8

/-- The fields of a `String`. -/
structure StoredString where
  capacity : Nat
  length : Nat
  data : Nat
deriving DecidableEq

/-- The value an `unsigned int` takes. -/
def unsigned (n : Nat) : Nat := n % 2 ^ 32

/-- `next_power_of_two`, in 32 bits. -/
def nextPowerOfTwo (x : Nat) : Nat :=
  let x := unsigned (x + (2 ^ 32 - 1))
  let x := x ||| x >>> 1
  let x := x ||| x >>> 2
  let x := x ||| x >>> 4
  let x := x ||| x >>> 8
  let x := x ||| x >>> 16
  unsigned (x + 1)

/-- The characters of a C string and its terminator. -/
def strcpy (memory : Memory) (p offset : Nat) (cstr : List UInt8) : Except MemoryFault Memory :=
  memory.store p offset (cstrText cstr ++ [0])

/-- `string_create`, a block of eight bytes. -/
def stringCreate (memory : Memory) : StoredString × Memory :=
  let (data, memory) := memory.alloc (List.replicate 8 (some 0))
  ({ capacity := 8, length := 0, data := data }, memory)

/-- `string_create_from_cstr`, with room for the text. -/
def stringCreateFromCstr (memory : Memory) (cstr : List UInt8) :
    Except MemoryFault (StoredString × Memory) := do
  let len := (cstrText cstr).length
  let capacity := max (nextPowerOfTwo (unsigned (len + 1))) 8
  let (data, memory) := memory.alloc (List.replicate capacity (some 0))
  let memory ← strcpy memory data 0 cstr
  .ok ({ capacity := capacity, length := unsigned len, data := data }, memory)

/-- `str->capacity *= 2; str->data = safe_realloc(str->data, str->capacity);` -/
def doubleCapacity (memory : Memory) (str : StoredString) :
    Except MemoryFault (StoredString × Memory) := do
  let capacity := unsigned (str.capacity * 2)
  let (data, memory) ← memory.realloc str.data capacity
  .ok ({ str with capacity := capacity, data := data }, memory)

/-- Room for one more character and the terminator. -/
def makeRoomForChar (memory : Memory) (str : StoredString) :
    Except MemoryFault (StoredString × Memory) :=
  if unsigned (str.length + 1) ≥ str.capacity then doubleCapacity memory str
  else .ok (str, memory)

/-- `string_append_char`, which makes room first. -/
def stringAppendChar (memory : Memory) (str : StoredString) (ch : UInt8) :
    Except MemoryFault (StoredString × Memory) :=
  if ch = 0 then .ok (str, memory)
  else do
    let (str, memory) ← makeRoomForChar memory str
    let length := unsigned (str.length + 1)
    let memory ← memory.store str.data str.length [ch]
    let memory ← memory.store str.data length [0]
    .ok ({ str with length := length }, memory)

/-- The loop of `string_append_cstr`.  After 32 rounds the capacity would be
zero, and no block is asked for that. -/
def makeRoom (needed : Nat) :
    Nat → Memory → StoredString → Except MemoryFault (StoredString × Memory)
  | 0, memory, str => .ok (str, memory)
  | rounds + 1, memory, str =>
      if needed > str.capacity then do
        let (str, memory) ← doubleCapacity memory str
        makeRoom needed rounds memory str
      else .ok (str, memory)

/-- `string_append_cstr`, which makes room first. -/
def stringAppendCstr (memory : Memory) (str : StoredString) (cstr : List UInt8) :
    Except MemoryFault (StoredString × Memory) := do
  let len := (cstrText cstr).length
  let (str, memory) ← makeRoom (str.length + len + 1) 32 memory str
  let memory ← strcpy memory str.data str.length cstr
  .ok ({ str with length := unsigned (str.length + len) }, memory)

/-- Nothing is read outside the string. -/
def stringCharAt (memory : Memory) (str : StoredString) (index : Nat) : Except MemoryFault UInt8 :=
  if index < str.length then memory.load str.data index else .ok 0

/-! ## The next power of two -/

/-- Small numbers are not changed. -/
theorem unsigned_of_lt {n : Nat} (h : n < 2 ^ 32) : unsigned n = n :=
  Nat.mod_eq_of_lt h

/-- Every set bit of the first number is spread over the places below it, `width`
of them with its own. -/
def Spread (x y width : Nat) : Prop :=
  ∀ i, y.testBit i = true ↔ ∃ j, i ≤ j ∧ j < i + width ∧ x.testBit j = true

/-- A number has spread over one bit already. -/
theorem spread_one (x : Nat) : Spread x x 1 := by
  intro i
  constructor
  · intro h
    exact ⟨i, Nat.le_refl i, Nat.lt_succ_self i, h⟩
  · intro hfacts
    obtain ⟨j, hle, hlt, h⟩ := hfacts
    obtain rfl : j = i := by omega
    exact h

/-- A shift by the width doubles it. -/
theorem Spread.double {x y width : Nat} (h : Spread x y width) :
    Spread x (y ||| y >>> width) (2 * width) := by
  intro i
  rw [Nat.testBit_or, Bool.or_eq_true, Nat.testBit_shiftRight, h i, h (width + i)]
  constructor
  · intro hcases
    rcases hcases with ⟨j, hle, hlt, hj⟩ | ⟨j, hle, hlt, hj⟩
    · exact ⟨j, hle, by omega, hj⟩
    · exact ⟨j, by omega, by omega, hj⟩
  · intro hfacts
    obtain ⟨j, hle, hlt, hj⟩ := hfacts
    rcases Nat.lt_or_ge j (i + width) with hnear | hfar
    · exact Or.inl ⟨j, hle, hnear, hj⟩
    · exact Or.inr ⟨j, by omega, by omega, hj⟩

/-- A number that is spread over all its places is one less than a power of two. -/
theorem Spread.eq_two_pow {x y width : Nat} (h : Spread x y width) (hx : x < 2 ^ width) :
    y = 2 ^ x.size - 1 := by
  apply Nat.eq_of_testBit_eq
  intro i
  rw [Nat.testBit_two_pow_sub_one, Bool.eq_iff_iff, decide_eq_true_eq, h i, Nat.lt_size]
  constructor
  · intro hfacts
    obtain ⟨j, hle, -, hj⟩ := hfacts
    exact (Nat.pow_le_pow_right (by decide) hle).trans (Nat.ge_two_pow_of_testBit hj)
  · intro hi
    obtain ⟨j, hle, hj⟩ := Nat.exists_ge_and_testBit_of_ge_two_pow hi
    refine ⟨j, hle, ?_, hj⟩
    by_contra hfar
    have hlt : x < 2 ^ j := hx.trans_le (Nat.pow_le_pow_right (by decide) (by omega))
    rw [Nat.testBit_lt_two_pow hlt] at hj
    cases hj

/-- The spreading computes the next power of two. -/
theorem nextPowerOfTwo_eq (x : Nat) :
    nextPowerOfTwo x = unsigned (2 ^ (unsigned (x + (2 ^ 32 - 1))).size) := by
  unfold nextPowerOfTwo
  have hbound : unsigned (x + (2 ^ 32 - 1)) < 2 ^ 32 := Nat.mod_lt _ (Nat.two_pow_pos 32)
  generalize unsigned (x + (2 ^ 32 - 1)) = y at hbound
  simp only
  rw [(spread_one y).double.double.double.double.double.eq_two_pow hbound,
    Nat.sub_add_cancel (Nat.two_pow_pos _)]

/-- The first power of two that is not below the number. -/
theorem nextPowerOfTwo_of_le {n : Nat} (h : n < 2 ^ 31) : nextPowerOfTwo (n + 1) = 2 ^ n.size := by
  have hn : unsigned (n + 1 + (2 ^ 32 - 1)) = n := by
    unfold unsigned
    omega
  have hsize : n.size ≤ 31 := Nat.size_le.mpr h
  rw [nextPowerOfTwo_eq, hn, unsigned_of_lt]
  exact Nat.pow_lt_pow_right (by decide) (by omega)

/-- There is no larger one among the values of an `unsigned int`. -/
theorem nextPowerOfTwo_le (x : Nat) : nextPowerOfTwo x ≤ 2 ^ 31 := by
  rw [nextPowerOfTwo_eq]
  have hsize : (unsigned (x + (2 ^ 32 - 1))).size ≤ 32 :=
    Nat.size_le.mpr (Nat.mod_lt _ (Nat.two_pow_pos 32))
  generalize (unsigned (x + (2 ^ 32 - 1))).size = k at hsize
  rcases Nat.lt_or_ge k 32 with hlt | hge
  · rw [unsigned_of_lt (Nat.pow_lt_pow_right (by decide) hlt)]
    exact Nat.pow_le_pow_right (by decide) (by omega)
  · obtain rfl : k = 32 := by omega
    decide

/-! ## What a stored string stands for -/

/-- The characters are there, where the string points. -/
structure Reads (memory : Memory) (str : StoredString) (text : CString) : Prop where
  length : str.length = text.data.length
  block : ∃ rest, memory.block str.data = some (text.data.map some ++ rest)

/-- The string may be appended to as well: it owns a block of its capacity, a
power of two, with room for the terminator. -/
structure Denotes (memory : Memory) (str : StoredString) (text : CString) : Prop extends
    Reads memory str text where
  capacity : ∃ k, 3 ≤ k ∧ k ≤ 31 ∧ str.capacity = 2 ^ k
  room : text.data.length < str.capacity
  size : ∀ cells, memory.block str.data = some cells → cells.length = str.capacity

/-- A string can still be read when more blocks are made. -/
theorem Reads.before {memory memory' : Memory} {str : StoredString} {text : CString}
    (h : Reads memory str text) (hlater : memory.Before memory') : Reads memory' str text := by
  obtain ⟨rest, hblock⟩ := h.block
  exact ⟨h.length, rest, hlater.block hblock⟩

/-- Reading a string in memory is reading the text. -/
theorem Reads.stringCharAt {memory : Memory} {str : StoredString} {text : CString}
    (h : Reads memory str text) (index : Nat) :
    Stored.stringCharAt memory str index = .ok (Assembler.stringCharAt text index) := by
  unfold Stored.stringCharAt Assembler.stringCharAt
  rw [h.length]
  split
  · rename_i hlt
    obtain ⟨rest, hblock⟩ := h.block
    rw [Heap.load_of_block hblock (List.getElem?_eq_getElem hlt), List.getD_eq_getElem _ _ hlt]
  · rename_i hge
    rw [List.getD_eq_default _ _ (Nat.not_lt.mp hge)]

/-- A capacity lies between eight and 2^31. -/
theorem Denotes.capacity_le {memory : Memory} {str : StoredString} {text : CString}
    (h : Denotes memory str text) : 8 ≤ str.capacity ∧ str.capacity ≤ 2 ^ 31 := by
  obtain ⟨k, hlow, hhigh, hk⟩ := h.capacity
  have h8 : 2 ^ 3 ≤ 2 ^ k := Nat.pow_le_pow_right (by decide) hlow
  rw [hk]
  exact ⟨h8, Nat.pow_le_pow_right (by decide) hhigh⟩

/-- Behind the characters there is room for the rest of the block. -/
theorem Denotes.rest {memory : Memory} {str : StoredString} {text : CString}
    (h : Denotes memory str text) : ∃ rest, memory.block str.data =
      some (text.data.map some ++ rest) ∧ text.data.length + rest.length = str.capacity := by
  obtain ⟨rest, hblock⟩ := h.block
  refine ⟨rest, hblock, ?_⟩
  rw [← h.size _ hblock, List.length_append, List.length_map]

/-! ## Growing -/

section Growing

variable {memory : Memory} {str : StoredString} {text : CString} (h : Denotes memory str text)

include h

/-- The characters move along with the capacity; the old block is given back. -/
theorem doubleCapacity_denotes (hsmall : str.capacity < 2 ^ 31) :
    ∃ str' memory', doubleCapacity memory str = .ok (str', memory') ∧
      Denotes memory' str' text ∧ str'.capacity = str.capacity * 2 ∧
      memory'.block str.data = none := by
  obtain ⟨k, hlow, -, hk⟩ := h.capacity
  obtain ⟨rest, hblock, hlength⟩ := h.rest
  have hle := h.capacity_le
  have hunsigned : unsigned (str.capacity * 2) = str.capacity * 2 := unsigned_of_lt (by omega)
  obtain ⟨data, memory', hrealloc, hnew, hfreed⟩ :=
    Heap.realloc_of_block hblock (str.capacity * 2) (by omega)
  rw [List.take_of_length_le (by simp; omega), List.append_assoc] at hnew
  have hdouble : doubleCapacity memory str =
      .ok ({ str with capacity := str.capacity * 2, data := data }, memory') := by
    simp [doubleCapacity, hunsigned, hrealloc, bind, Except.bind]
  refine ⟨_, memory', hdouble, ?_, rfl, hfreed⟩
  refine ⟨⟨h.length, _, hnew⟩, ⟨k + 1, by omega, ?_, by rw [hk]; rfl⟩, ?_, ?_⟩
  · have hlt : 2 ^ k < 2 ^ 31 := hk ▸ hsmall
    have := (Nat.pow_lt_pow_iff_right (by decide)).mp hlt
    omega
  · exact h.room.trans_le (Nat.le_mul_of_pos_right _ (by decide))
  · intro cells hcells
    rw [hnew] at hcells
    rw [← Option.some.inj hcells]
    simp
    omega

/-- The largest capacity is not doubled. -/
theorem doubleCapacity_full (hfull : str.capacity = 2 ^ 31) :
    doubleCapacity memory str = .error .noCells := by
  obtain ⟨rest, hblock, -⟩ := h.rest
  have hzero : unsigned (str.capacity * 2) = 0 := by rw [hfull]; decide
  simp [doubleCapacity, hzero, Heap.realloc, hblock, bind, Except.bind]

/-- Characters and a terminator are written behind the text, and every copy of
the string still reads the text. -/
theorem Denotes.store {text' : CString} {values : List UInt8}
    (htext' : text'.data = text.data ++ values)
    (hfits : text.data.length + values.length < str.capacity) :
    ∃ memory', memory.store str.data str.length (values ++ [0]) = .ok memory' ∧
      Denotes memory' { str with length := unsigned (str.length + values.length) } text' ∧
      Reads memory' str text := by
  obtain ⟨rest, hblock, hlength⟩ := h.rest
  have hle := h.capacity_le
  obtain ⟨memory', hstore, hnew⟩ := Heap.store_of_block hblock str.length (values ++ [0])
    (by simp [h.length]; omega)
  have hfront : (text.data.map some ++ rest).take str.length = text.data.map some := by
    rw [h.length]
    exact List.take_left' (List.length_map _)
  rw [hfront, List.append_assoc] at hnew
  refine ⟨memory', hstore, ⟨⟨?_, ?_⟩, h.capacity, ?_, ?_⟩, h.length, _, hnew⟩
  · rw [htext', List.length_append, ← h.length]
    exact unsigned_of_lt (by rw [h.length]; omega)
  · exact ⟨_, by rw [hnew, htext']; simp; rfl⟩
  · rw [htext', List.length_append]
    exact hfits
  · intro cells hcells
    rw [hnew] at hcells
    rw [← Option.some.inj hcells, ← hlength]
    simp [h.length]
    omega

omit h in
/-- Where there is room, the character is written with a terminator. -/
theorem stringAppendChar_eq {ch : UInt8} (hch : ch ≠ 0) {str' : StoredString}
    {memory' : Memory} (hroom : makeRoomForChar memory str = .ok (str', memory'))
    (hlength : unsigned (str'.length + 1) = str'.length + 1) :
    stringAppendChar memory str ch =
      (memory'.store str'.data str'.length ([ch] ++ [0])).bind fun memory'' =>
        .ok ({ str' with length := unsigned (str'.length + 1) }, memory'') := by
  rw [Heap.store_append, List.length_singleton]
  simp only [stringAppendChar, if_neg hch, hroom, hlength, bind, Except.bind]
  cases memory'.store str'.data str'.length [ch] <;> rfl

/-- While there is room a character is written into the block, and every copy of
the string still reads the text. -/
theorem stringAppendChar_inPlace {ch : UInt8} (hch : ch ≠ 0)
    (hroom : text.data.length + 1 < str.capacity) :
    ∃ str' memory', stringAppendChar memory str ch = .ok (str', memory') ∧
      Denotes memory' str' (Assembler.stringAppendChar text ch) ∧ Reads memory' str text := by
  have hle := h.capacity_le
  have hlength := h.length
  obtain ⟨memory', hstore, hdenotes, hreads⟩ :=
    h.store (stringAppendChar_data hch) hroom
  have hunsigned : unsigned (str.length + 1) = str.length + 1 := unsigned_of_lt (by omega)
  have hstays : makeRoomForChar memory str = .ok (str, memory) := by
    rw [makeRoomForChar, hunsigned, if_neg (by omega)]
  refine ⟨_, memory', ?_, hdenotes, hreads⟩
  rw [stringAppendChar_eq hch hstays hunsigned, hstore]
  rfl

/-- Without room the string moves, and a copy of it points to a block that was
given back. -/
theorem stringAppendChar_moved {ch : UInt8} (hch : ch ≠ 0)
    (hroom : text.data.length + 1 = str.capacity) (hsmall : str.capacity < 2 ^ 31) :
    ∃ str' memory', stringAppendChar memory str ch = .ok (str', memory') ∧
      Denotes memory' str' (Assembler.stringAppendChar text ch) ∧
      memory'.block str.data = none := by
  have hlength := h.length
  obtain ⟨grown, middle, hdouble, hdenotes, hcapacity, hfreed⟩ :=
    doubleCapacity_denotes h hsmall
  have hsame : grown.length = str.length := hdenotes.length.trans hlength.symm
  obtain ⟨memory', hstore, hdenotes', -⟩ :=
    hdenotes.store (stringAppendChar_data hch) (by simp; omega)
  have hunsigned : unsigned (str.length + 1) = str.length + 1 := unsigned_of_lt (by omega)
  have hmoves : makeRoomForChar memory str = .ok (grown, middle) := by
    rw [makeRoomForChar, hunsigned, if_pos (by omega), hdouble]
  refine ⟨_, memory', ?_, hdenotes', ?_⟩
  · rw [stringAppendChar_eq hch hmoves (hsame ▸ hunsigned), hstore]
    rfl
  · obtain ⟨rest, hnew, -⟩ := hdenotes.rest
    rw [Heap.block_of_store hstore, hfreed]
    intro heq
    rw [← heq, hfreed] at hnew
    cases hnew

/-- A string of the largest capacity is not made longer than that. -/
theorem stringAppendChar_full {ch : UInt8} (hch : ch ≠ 0)
    (hroom : text.data.length + 1 = str.capacity) (hfull : str.capacity = 2 ^ 31) :
    stringAppendChar memory str ch = .error .noCells := by
  have hlength := h.length
  have hunsigned : unsigned (str.length + 1) = str.length + 1 := unsigned_of_lt (by omega)
  have hfails : makeRoomForChar memory str = .error .noCells := by
    rw [makeRoomForChar, hunsigned, if_pos (by omega), doubleCapacity_full h hfull]
  simp [stringAppendChar, hch, hfails, bind, Except.bind]

/-- **Appending a character** does to the string in memory what it does to the
text, if it returns. -/
theorem stringAppendChar_denotes {ch : UInt8} {str' : StoredString} {memory' : Memory}
    (happend : stringAppendChar memory str ch = .ok (str', memory')) :
    Denotes memory' str' (Assembler.stringAppendChar text ch) := by
  by_cases hch : ch = 0
  · subst hch
    obtain ⟨rfl, rfl⟩ := Prod.mk.inj (Except.ok.inj happend)
    exact h
  have hle := h.capacity_le
  have hroom := h.room
  rcases Nat.lt_or_ge (text.data.length + 1) str.capacity with hlt | hge
  · obtain ⟨grown, middle, hok, hdenotes, -⟩ := stringAppendChar_inPlace h hch hlt
    obtain ⟨rfl, rfl⟩ := Prod.mk.inj (Except.ok.inj (hok.symm.trans happend))
    exact hdenotes
  · rcases Nat.lt_or_ge str.capacity (2 ^ 31) with hsmall | hfull
    · obtain ⟨grown, middle, hok, hdenotes, -⟩ :=
        stringAppendChar_moved h hch (by omega) hsmall
      obtain ⟨rfl, rfl⟩ := Prod.mk.inj (Except.ok.inj (hok.symm.trans happend))
      exact hdenotes
    · rw [stringAppendChar_full h hch (by omega) (by omega)] at happend
      cases happend

/-- **When a character can be appended**: the result has to fit. -/
theorem stringAppendChar_returns_iff (ch : UInt8) :
    (∃ result, stringAppendChar memory str ch = .ok result) ↔
      StringFits (Assembler.stringAppendChar text ch) := by
  have hle := h.capacity_le
  have hroom := h.room
  by_cases hch : ch = 0
  · subst hch
    exact iff_of_true ⟨_, rfl⟩ (Nat.lt_of_lt_of_le hroom hle.2)
  rw [StringFits, stringAppendChar_data hch, List.length_append, List.length_singleton]
  rcases Nat.lt_or_ge (text.data.length + 1) str.capacity with hlt | hge
  · obtain ⟨grown, memory', hok, -⟩ := stringAppendChar_inPlace h hch hlt
    exact iff_of_true ⟨_, hok⟩ (Nat.lt_of_lt_of_le hlt hle.2)
  have hend : text.data.length + 1 = str.capacity := Nat.le_antisymm hroom hge
  rcases Nat.lt_or_ge str.capacity (2 ^ 31) with hsmall | hfull
  · obtain ⟨grown, memory', hok, -⟩ := stringAppendChar_moved h hch hend hsmall
    exact iff_of_true ⟨_, hok⟩ (hend ▸ hsmall)
  · have hlargest : str.capacity = 2 ^ 31 := Nat.le_antisymm hle.2 hfull
    rw [stringAppendChar_full h hch hend hlargest, hend, hlargest]
    refine iff_of_false (fun hreturns => ?_) (Nat.lt_irrefl _)
    obtain ⟨result, hresult⟩ := hreturns
    cases hresult

end Growing

/-- The loop makes room for whatever an `unsigned int` can count. -/
theorem makeRoom_denotes {memory : Memory} {str : StoredString} {text : CString}
    (h : Denotes memory str text) (needed rounds : Nat) (hneeded : needed ≤ 2 ^ 31)
    (hrounds : 2 ^ 31 ≤ str.capacity * 2 ^ rounds) :
    ∃ str' memory', makeRoom needed rounds memory str = .ok (str', memory') ∧
      Denotes memory' str' text ∧ needed ≤ str'.capacity := by
  induction rounds generalizing memory str with
  | zero => exact ⟨str, memory, rfl, h, by omega⟩
  | succ rounds ih =>
      rw [makeRoom]
      split
      · rename_i hsmall
        obtain ⟨grown, middle, hdouble, hdenotes, hcapacity, -⟩ :=
          doubleCapacity_denotes h (by omega)
        obtain ⟨str', memory', hrest, hresult⟩ := ih hdenotes (by
          rw [hcapacity, Nat.mul_assoc, ← Nat.pow_succ']
          exact hrounds)
        refine ⟨str', memory', ?_, hresult⟩
        rw [hdouble, ← hrest]
        rfl
      · rename_i hlarge
        exact ⟨str, memory, rfl, h, Nat.not_lt.mp hlarge⟩

/-- It stops at the largest capacity when that is not enough. -/
theorem makeRoom_full {memory : Memory} {str : StoredString} {text : CString}
    (h : Denotes memory str text) (needed rounds : Nat) (hneeded : 2 ^ 31 < needed)
    (hrounds : 2 ^ 32 ≤ str.capacity * 2 ^ rounds) :
    makeRoom needed rounds memory str = .error .noCells := by
  have hle := h.capacity_le
  induction rounds generalizing memory str with
  | zero => omega
  | succ rounds ih =>
      rw [makeRoom, if_pos (by omega)]
      rcases Nat.lt_or_ge str.capacity (2 ^ 31) with hsmall | hfull
      · obtain ⟨grown, middle, hdouble, hdenotes, hcapacity, -⟩ :=
          doubleCapacity_denotes h hsmall
        rw [hdouble]
        refine ih hdenotes ?_ hdenotes.capacity_le
        rw [hcapacity, Nat.mul_assoc, ← Nat.pow_succ']
        exact hrounds
      · rw [doubleCapacity_full h (by omega)]
        rfl

/-- **Appending a C string** does to the string in memory what it does to the
text, as long as an `unsigned int` can count the result. -/
theorem stringAppendCstr_denotes {memory : Memory} {str : StoredString} {text : CString}
    (h : Denotes memory str text) (cstr : List UInt8)
    (hfits : text.data.length + (cstrText cstr).length < 2 ^ 31) :
    ∃ str' memory', stringAppendCstr memory str cstr = .ok (str', memory') ∧
      Denotes memory' str' (Assembler.stringAppendCstr text cstr) := by
  have hlength := h.length
  have hle := h.capacity_le
  obtain ⟨grown, middle, hroom, hdenotes, hcapacity⟩ :=
    makeRoom_denotes h (str.length + (cstrText cstr).length + 1) 32 (by omega)
      (by omega)
  have hsame : grown.length = str.length := hdenotes.length.trans hlength.symm
  obtain ⟨memory', hstore, hdenotes', -⟩ :=
    hdenotes.store (stringAppendCstr_data text cstr) (by omega)
  refine ⟨_, memory', ?_, hdenotes'⟩
  simp [stringAppendCstr, hroom, strcpy, hstore, bind, Except.bind]

/-- A text that makes the string too long fails. -/
theorem stringAppendCstr_full {memory : Memory} {str : StoredString} {text : CString}
    (h : Denotes memory str text) (cstr : List UInt8)
    (hfull : 2 ^ 31 ≤ text.data.length + (cstrText cstr).length) :
    stringAppendCstr memory str cstr = .error .noCells := by
  have hlength := h.length
  have hle := h.capacity_le
  have hroom := makeRoom_full h (str.length + (cstrText cstr).length + 1) 32 (by omega)
    (by omega)
  simp [stringAppendCstr, hroom, bind, Except.bind]

/-! ## New strings -/

/-- A new block is an empty string. -/
theorem alloc_denotes (memory : Memory) {k : Nat} (hlow : 3 ≤ k) (hhigh : k ≤ 31) :
    Denotes (memory.alloc (List.replicate (2 ^ k) (some 0))).2
      { capacity := 2 ^ k
        length := 0
        data := (memory.alloc (List.replicate (2 ^ k) (some 0))).1 }
      Assembler.stringCreate := by
  have hblock := Heap.block_alloc memory (List.replicate (2 ^ k) (some 0))
  refine ⟨⟨rfl, _, hblock⟩, ⟨k, hlow, hhigh, rfl⟩, Nat.two_pow_pos k, ?_⟩
  intro cells hcells
  rw [hblock] at hcells
  rw [← Option.some.inj hcells, List.length_replicate]

theorem stringCreate_denotes (memory : Memory) :
    Denotes (stringCreate memory).2 (stringCreate memory).1 Assembler.stringCreate :=
  alloc_denotes memory (k := 3) (by decide) (by decide)

/-- The capacity of a new string has room for the characters and the terminator,
and for eight bytes at least. -/
theorem cstrCapacity_eq {len : Nat} (hfits : len < 2 ^ 31) :
    max (nextPowerOfTwo (unsigned (len + 1))) 8 = 2 ^ max len.size 3 := by
  rw [unsigned_of_lt (by omega), nextPowerOfTwo_of_le hfits]
  show max (2 ^ len.size) (2 ^ 3) = _
  rcases Nat.le_total len.size 3 with hle | hle
  · rw [Nat.max_eq_right hle, Nat.max_eq_right (Nat.pow_le_pow_right (by decide) hle)]
  · rw [Nat.max_eq_left hle, Nat.max_eq_left (Nat.pow_le_pow_right (by decide) hle)]

/-- A new string stands for its C string, as long as an `unsigned int` can count
that. -/
theorem stringCreateFromCstr_denotes (memory : Memory) {cstr : List UInt8}
    (hfits : (cstrText cstr).length < 2 ^ 31) :
    ∃ str memory', stringCreateFromCstr memory cstr = .ok (str, memory') ∧
      Denotes memory' str (Assembler.stringCreateFromCstr cstr) ∧
      str.capacity = 2 ^ max (cstrText cstr).length.size 3 := by
  have hsize : (cstrText cstr).length.size ≤ 31 := Nat.size_le.mpr hfits
  have hroom : (cstrText cstr).length < 2 ^ max (cstrText cstr).length.size 3 :=
    (Nat.lt_size_self _).trans_le (Nat.pow_le_pow_right (by decide) (Nat.le_max_left _ _))
  have hempty := alloc_denotes memory (k := max (cstrText cstr).length.size 3)
    (Nat.le_max_right _ _) (by omega)
  have htext : (Assembler.stringCreateFromCstr cstr).data =
      Assembler.stringCreate.data ++ cstrText cstr := rfl
  obtain ⟨memory', hstore, hdenotes, -⟩ := hempty.store htext (by simpa using hroom)
  rw [Nat.zero_add] at hdenotes
  refine ⟨_, memory', ?_, hdenotes, rfl⟩
  simp only [stringCreateFromCstr, cstrCapacity_eq hfits, strcpy, bind, Except.bind]
  rw [hstore]

/-- A longer one is written over the end of its block. -/
theorem stringCreateFromCstr_full (memory : Memory) {cstr : List UInt8}
    (hfull : 2 ^ 31 ≤ (cstrText cstr).length) :
    stringCreateFromCstr memory cstr = .error .outOfBounds := by
  have hle := nextPowerOfTwo_le (unsigned ((cstrText cstr).length + 1))
  have hstore := Heap.store_outOfBounds (Heap.block_alloc memory (List.replicate
    (max (nextPowerOfTwo (unsigned ((cstrText cstr).length + 1))) 8) (some 0))) 0
    (cstrText cstr ++ [0]) (by simp; omega)
  simp only [stringCreateFromCstr, strcpy, bind, Except.bind]
  rw [hstore]

end Stored

end Assembler
