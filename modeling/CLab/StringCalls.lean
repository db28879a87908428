import CLab.StoredString
import CLab.While

/-!
# Runs of string calls

The calls of `string_util.c` that make and change strings, on strings in
memory.  A program holds a number of them, each made by the module, and calls
the module again and again; a `StringCall` names the strings it is about by
their places.

What a string in memory has to be after each call is `WellFormed`.
-/

namespace Assembler

namespace Stored

open Blocks (Heap MemoryFault exists_of_bind)

/-! ## Calls that read other strings -/

/-- The characters in front of the first NUL. -/
def cstrIn : List (Option UInt8) → Except MemoryFault (List UInt8)
  | [] => .error .outOfBounds
  | none :: _ => .error .unset
  | some ch :: cells =>
      if ch = 0 then .ok []
      else (cstrIn cells).bind fun cstr => .ok (ch :: cstr)

/-- The C string that a pointer points to. -/
def cstrAt (memory : Memory) (p : Nat) : Except MemoryFault (List UInt8) :=
  match memory.block p with
  | none => .error .freed
  | some cells => cstrIn cells

/-- `string_append_cstr(dest, src.data)`: what `strlen` counts is read before the
string grows, and what `strcpy` copies is read after it. -/
def stringAppend (memory : Memory) (dest src : StoredString) :
    Except MemoryFault (StoredString × Memory) := do
  let len := (← cstrAt memory src.data).length
  let (dest, memory) ← makeRoom (dest.length + len + 1) 32 memory dest
  let cstr ← cstrAt memory src.data
  let memory ← strcpy memory dest.data dest.length cstr
  .ok ({ dest with length := unsigned (dest.length + len) }, memory)

/-- `data[i]` for an `int`. -/
def loadAt (memory : Memory) (p : Nat) (i : BitVec 32) : Except MemoryFault UInt8 :=
  if i.toInt < 0 then .error .outOfBounds else memory.load p i.toNat

/-- A string that a loop makes from another one, and the place that is reached. -/
structure Building where
  i : BitVec 32
  result : StoredString
  memory : Memory

/-- `i <= end && i < str.length`.  The second comparison is one of unsigned
numbers: a negative `i` is beyond every string. -/
def substringGoesOn (str : StoredString) (end_ : BitVec 32) (s : Building) : Bool :=
  s.i.sle end_ && s.i.toNat < str.length

/-- One round of the loop that copies a part. -/
def substringRound (str : StoredString) (s : Building) : Except MemoryFault Building := do
  let ch ← loadAt s.memory str.data s.i
  let (result, memory) ← stringAppendChar s.memory s.result ch
  .ok { i := s.i + 1, result := result, memory := memory }

/-- `string_substring`, with `int` bounds compared as the source does. -/
def stringSubstring (memory : Memory) (str : StoredString) (start end_ : BitVec 32) :
    Except MemoryFault (StoredString × Memory) := do
  let (result, memory) := stringCreate memory
  let s ← While.loopE (fun s => .ok (substringGoesOn str end_ s)) (substringRound str)
    (fun s => str.length - s.i.toNat) { i := start, result := result, memory := memory }
  .ok (s.result, s.memory)

/-- The characters behind the range are moved to its start, with their
terminator. -/
def stringRemoveRange (memory : Memory) (str : StoredString) (start end_ : BitVec 32) :
    Except MemoryFault (StoredString × Memory) :=
  if start.toInt < 0 ∨ str.length ≤ end_.toNat ∨ end_.toInt < start.toInt then .ok (str, memory)
  else do
    let shift := end_ - start + 1
    let moved ← memory.read str.data (end_.toNat + 1)
      (unsigned (str.length + 2 ^ 32 - end_.toNat))
    let memory ← memory.store str.data start.toNat moved
    let length := unsigned (str.length + 2 ^ 32 - shift.toNat)
    let memory ← memory.store str.data length [0]
    .ok ({ str with length := length }, memory)

/-! ## Indices -/

/-- An `int` that is not negative is its bits. -/
theorem toInt_eq_toNat {i : BitVec 32} (hi : 0 ≤ i.toInt) : i.toInt = i.toNat := by
  rw [BitVec.toInt_eq_toNat_cond] at hi ⊢
  split at hi <;> omega

/-- A small number is not negative. -/
theorem not_negative {i : BitVec 32} (hi : i.toNat < 2 ^ 31) : ¬ i.toInt < 0 := by
  rw [BitVec.toInt_eq_toNat_of_lt (by omega)]
  omega

theorem toNat_next {i : BitVec 32} (hi : i.toNat < 2 ^ 31) : (i + 1).toNat = i.toNat + 1 := by
  rw [BitVec.toNat_add]
  apply Nat.mod_eq_of_lt
  show i.toNat + 1 < 2 ^ 32
  omega

/-! ## Well-formed strings -/

/-- The string owns a block of its capacity that holds the text, none of whose
characters is NUL, and behind it the terminator. -/
structure WellFormed (memory : Memory) (str : StoredString) (text : CString) : Prop extends
    Denotes memory str text where
  terminator : memory.load str.data str.length = .ok 0

section WellFormed

variable {memory memory' : Memory} {str str' : StoredString} {text : CString}

/-- A string that can be read has a block. -/
theorem Reads.exists_block (h : Reads memory str text) :
    ∃ cells, memory.block str.data = some cells := by
  obtain ⟨rest, hblock⟩ := h.block
  exact ⟨_, hblock⟩

/-- A string is in its block only. -/
theorem WellFormed.of_block (h : WellFormed memory str text)
    (hblock : memory'.block str.data = memory.block str.data) : WellFormed memory' str text := by
  refine ⟨⟨⟨h.length, hblock ▸ h.block⟩, h.capacity, h.room, hblock ▸ h.size⟩, ?_⟩
  have hterminator := h.terminator
  rw [Heap.load] at hterminator ⊢
  rwa [hblock]

/-- The cells of a well-formed string. -/
theorem WellFormed.cells (h : WellFormed memory str text) :
    ∃ rest, memory.block str.data = some (text.data.map some ++ [some 0] ++ rest) := by
  obtain ⟨rest, hblock⟩ := h.block
  have hterminator := h.terminator
  cases rest with
  | nil => simp [Heap.load, hblock, h.length] at hterminator
  | cons cell rest =>
      refine ⟨rest, ?_⟩
      cases cell with
      | none => simp [Heap.load, hblock, h.length] at hterminator
      | some ch =>
          obtain rfl : ch = 0 := by
            simpa [Heap.load, hblock, h.length] using hterminator
          simpa using hblock

/-- A C string ends at its terminator, whatever comes behind. -/
theorem cstrIn_append {text : List UInt8} (hnul : 0 ∉ text) (rest : List (Option UInt8)) :
    cstrIn (text.map some ++ [some 0] ++ rest) = .ok text := by
  induction text with
  | nil => rfl
  | cons ch text ih =>
      have hch : ch ≠ 0 := by
        intro heq
        obtain rfl := heq
        simp at hnul
      have hrest := ih (fun hmem => hnul (List.mem_cons_of_mem ch hmem))
      simp only [List.map_cons, List.cons_append, cstrIn, if_neg hch, hrest]
      rfl

/-- The C string at a string's pointer is its text. -/
theorem WellFormed.cstrAt (h : WellFormed memory str text) :
    cstrAt memory str.data = .ok text.data := by
  obtain ⟨rest, hblock⟩ := h.cells
  simp only [Stored.cstrAt, hblock]
  exact cstrIn_append text.noNul rest

/-- The characters of a string are read from its block. -/
theorem WellFormed.load (h : WellFormed memory str text) {i : Nat} (hi : i < text.data.length) :
    memory.load str.data i = .ok text.data[i] := by
  obtain ⟨rest, hblock⟩ := h.block
  exact Heap.load_of_block hblock (List.getElem?_eq_getElem hi)

/-- No character of a string has a negative index. -/
theorem WellFormed.loadAt (h : WellFormed memory str text) {i : BitVec 32}
    (hi : i.toNat < text.data.length) : loadAt memory str.data i = .ok text.data[i.toNat] := by
  have hle := h.capacity_le
  have hroom := h.room
  rw [Stored.loadAt, if_neg (not_negative (by omega)), h.load hi]

/-- Characters and a terminator that are written behind a text. -/
theorem Denotes.store_wellFormed {text' : CString} {values : List UInt8}
    (h : Denotes memory str text) (htext' : text'.data = text.data ++ values)
    (hfits : text.data.length + values.length < str.capacity) :
    ∃ memory', memory.store str.data str.length (values ++ [0]) = .ok memory' ∧
      WellFormed memory' { str with length := unsigned (str.length + values.length) } text' := by
  obtain ⟨memory', hstore, hdenotes, -⟩ := h.store htext' hfits
  have hle := h.capacity_le
  have hlength := h.length
  refine ⟨memory', hstore, hdenotes, ?_⟩
  show memory'.load str.data (unsigned (str.length + values.length)) = .ok 0
  rw [unsigned_of_lt (by omega)]
  exact Heap.load_of_store hstore (List.getElem?_concat_length)

end WellFormed

/-! ## What each call does -/

/-- Making a block larger may move it. -/
theorem doubleCapacity_moves {memory memory' : Memory} {str str' : StoredString}
    (h : doubleCapacity memory str = .ok (str', memory')) :
    memory.Moves str.data memory' str'.data := by
  obtain ⟨⟨data, grown⟩, hrealloc, hresult⟩ := exists_of_bind h
  obtain ⟨rfl, rfl⟩ := Prod.mk.inj (Except.ok.inj hresult)
  exact Heap.realloc_moves hrealloc

theorem makeRoomForChar_moves {memory memory' : Memory} {str str' : StoredString}
    (h : makeRoomForChar memory str = .ok (str', memory')) :
    memory.Moves str.data memory' str'.data := by
  rw [makeRoomForChar] at h
  split at h
  · exact doubleCapacity_moves h
  · obtain ⟨rfl, rfl⟩ := Prod.mk.inj (Except.ok.inj h)
    exact Heap.Moves.refl _ _

theorem makeRoom_moves {needed rounds : Nat} {memory memory' : Memory} {str str' : StoredString}
    (h : makeRoom needed rounds memory str = .ok (str', memory')) :
    memory.Moves str.data memory' str'.data := by
  induction rounds generalizing memory str with
  | zero =>
      obtain ⟨rfl, rfl⟩ := Prod.mk.inj (Except.ok.inj h)
      exact Heap.Moves.refl _ _
  | succ rounds ih =>
      rw [makeRoom] at h
      split at h
      · obtain ⟨⟨grown, middle⟩, hdouble, hrest⟩ := exists_of_bind h
        exact (doubleCapacity_moves hdouble).trans (ih hrest)
      · obtain ⟨rfl, rfl⟩ := Prod.mk.inj (Except.ok.inj h)
        exact Heap.Moves.refl _ _

/-- What a call leaves in place of a string: a well-formed one, in the same block
or in a new one. -/
structure Becomes (memory : Memory) (str : StoredString) (memory' : Memory)
    (str' : StoredString) (text' : CString) : Prop where
  wellFormed : WellFormed memory' str' text'
  moves : memory.Moves str.data memory' str'.data

section Calls

variable {memory : Memory} {str : StoredString} {text : CString}

/-- A character that is not NUL is stored with a terminator, where there is room. -/
theorem stringAppendChar_stored {ch : UInt8} (hch : ch ≠ 0) {str' : StoredString}
    {memory' : Memory} (h : stringAppendChar memory str ch = .ok (str', memory')) :
    ∃ grown middle written, makeRoomForChar memory str = .ok (grown, middle) ∧
      middle.store grown.data grown.length [ch] = .ok written ∧
      written.store str'.data str'.length [0] = .ok memory' ∧ str'.data = grown.data := by
  rw [stringAppendChar, if_neg hch] at h
  obtain ⟨⟨grown, middle⟩, hroom, hrest⟩ := exists_of_bind h
  obtain ⟨written, hstore, hrest⟩ := exists_of_bind hrest
  obtain ⟨last, hterminator, hresult⟩ := exists_of_bind hrest
  obtain ⟨rfl, rfl⟩ := Prod.mk.inj (Except.ok.inj hresult)
  exact ⟨grown, middle, written, hroom, hstore, hterminator, rfl⟩

/-- A character is appended in memory as it is to the text. -/
theorem stringAppendChar_becomes (h : WellFormed memory str text) (ch : UInt8)
    (hfits : (Assembler.stringAppendChar text ch).data.length < 2 ^ 31) :
    ∃ str' memory', stringAppendChar memory str ch = .ok (str', memory') ∧
      Becomes memory str memory' str' (Assembler.stringAppendChar text ch) := by
  by_cases hch : ch = 0
  · subst hch
    exact ⟨str, memory, rfl, h, Heap.Moves.refl _ _⟩
  have hroom := h.room
  have hle := h.capacity_le
  rw [stringAppendChar_data hch, List.length_append, List.length_singleton] at hfits
  obtain ⟨str', memory', happend⟩ :
      ∃ str' memory', stringAppendChar memory str ch = .ok (str', memory') := by
    rcases Nat.lt_or_ge (text.data.length + 1) str.capacity with hlt | hge
    · obtain ⟨str', memory', happend, -⟩ := stringAppendChar_inPlace h.toDenotes hch hlt
      exact ⟨str', memory', happend⟩
    · obtain ⟨str', memory', happend, -⟩ :=
        stringAppendChar_moved h.toDenotes hch (by omega) (by omega)
      exact ⟨str', memory', happend⟩
  obtain ⟨grown, middle, written, hgrown, hstore, hterminator, hdata⟩ :=
    stringAppendChar_stored hch happend
  refine ⟨str', memory', happend, ⟨stringAppendChar_denotes h.toDenotes happend, ?_⟩, ?_⟩
  · exact Heap.load_of_store (i := 0) hterminator rfl
  · have hlast := Heap.store_moves hterminator
    rw [hdata] at hlast ⊢
    exact ((makeRoomForChar_moves hgrown).trans (Heap.store_moves hstore)).trans hlast

/-- Room is made for characters, and they are written behind the text with a
terminator. -/
theorem makeRoom_becomes (h : WellFormed memory str text) {text' : CString}
    {values : List UInt8} (htext' : text'.data = text.data ++ values)
    (hfits : text.data.length + values.length < 2 ^ 31) :
    ∃ grown middle memory',
      makeRoom (str.length + values.length + 1) 32 memory str = .ok (grown, middle) ∧
      middle.store grown.data grown.length (values ++ [0]) = .ok memory' ∧
      Becomes memory str memory'
        { grown with length := unsigned (grown.length + values.length) } text' := by
  have hlength := h.length
  have hle := h.capacity_le
  obtain ⟨grown, middle, hroom, hdenotes, hcapacity⟩ :=
    makeRoom_denotes h.toDenotes (str.length + values.length + 1) 32 (by omega) (by omega)
  obtain ⟨memory', hstore, hwellFormed⟩ := hdenotes.store_wellFormed htext' (by omega)
  exact ⟨grown, middle, memory', hroom, hstore, hwellFormed,
    (makeRoom_moves hroom).trans (Heap.store_moves hstore)⟩

/-- A C string is copied behind the text, with its terminator. -/
theorem stringAppendCstr_becomes (h : WellFormed memory str text) (cstr : List UInt8)
    (hfits : text.data.length + (cstrText cstr).length < 2 ^ 31) :
    ∃ str' memory', stringAppendCstr memory str cstr = .ok (str', memory') ∧
      Becomes memory str memory' str' (Assembler.stringAppendCstr text cstr) := by
  obtain ⟨grown, middle, memory', hroom, hstore, hbecomes⟩ :=
    makeRoom_becomes h (stringAppendCstr_data text cstr) hfits
  refine ⟨_, memory', ?_, hbecomes⟩
  simp [stringAppendCstr, hroom, strcpy, hstore, bind, Except.bind]

/-- The text of another string is appended as a C string. -/
theorem stringAppend_becomes (h : WellFormed memory str text) {src : StoredString}
    {source : CString} (hsrc : WellFormed memory src source) (hne : src.data ≠ str.data)
    (hfits : text.data.length + source.data.length < 2 ^ 31) :
    ∃ str' memory', stringAppend memory str src = .ok (str', memory') ∧
      Becomes memory str memory' str' (Assembler.stringAppend text source) := by
  have hsource : cstrText source.data = source.data := cstrText_of_noNul source.noNul
  obtain ⟨grown, middle, memory', hroom, hstore, hbecomes⟩ :=
    makeRoom_becomes h (stringAppend_data text source) hfits
  -- the block of the source is not the one that grew
  have hmiddle : WellFormed middle src source := by
    obtain ⟨cells, hcells⟩ := hsrc.exists_block
    apply hsrc.of_block
    rw [hcells, (makeRoom_moves hroom).others hne hcells]
  refine ⟨_, memory', ?_, hbecomes⟩
  simp [stringAppend, hsrc.cstrAt, hroom, hmiddle.cstrAt, hsource, strcpy, hstore, bind,
    Except.bind]

end Calls

/-! ## New strings -/

/-- What a call makes: a well-formed string in a block that was not there. -/
structure Appears (memory memory' : Memory) (str : StoredString) (text : CString) : Prop where
  wellFormed : WellFormed memory' str text
  makes : memory.Makes memory' str.data

/-- A string that appeared may change afterwards. -/
theorem Appears.becomes {memory memory' memory'' : Memory} {str str' : StoredString}
    {text text' : CString} (h : Appears memory memory' str text)
    (h' : Becomes memory' str memory'' str' text') : Appears memory memory'' str' text' :=
  ⟨h'.wellFormed, h.makes.moves h'.moves⟩

/-- The strings that were there are as they were. -/
theorem WellFormed.appears {memory memory' : Memory} {str new : StoredString}
    {text newText : CString} (h : WellFormed memory str text)
    (happears : Appears memory memory' new newText) : WellFormed memory' str text := by
  obtain ⟨cells, hcells⟩ := h.exists_block
  apply h.of_block
  rw [hcells, (happears.makes.others hcells).2]

theorem stringCreate_appears (memory : Memory) :
    Appears memory (stringCreate memory).2 (stringCreate memory).1 Assembler.stringCreate := by
  refine ⟨⟨stringCreate_denotes memory, ?_⟩, Heap.alloc_makes _ _⟩
  simp [stringCreate, Heap.load, Heap.block_alloc]

theorem stringCreateFromCstr_appears (memory : Memory) {cstr : List UInt8}
    (hfits : (cstrText cstr).length < 2 ^ 31) :
    ∃ str memory', stringCreateFromCstr memory cstr = .ok (str, memory') ∧
      Appears memory memory' str (Assembler.stringCreateFromCstr cstr) := by
  obtain ⟨str, memory', hcreate, hdenotes, -⟩ := stringCreateFromCstr_denotes memory hfits
  refine ⟨str, memory', hcreate, ?_⟩
  obtain ⟨written, hstore, hresult⟩ := exists_of_bind hcreate
  obtain ⟨rfl, rfl⟩ := Prod.mk.inj (Except.ok.inj hresult)
  refine ⟨⟨hdenotes, ?_⟩, (Heap.alloc_makes _ _).moves (Heap.store_moves hstore)⟩
  have hterminator := Heap.load_of_store hstore List.getElem?_concat_length
  rw [Nat.zero_add] at hterminator
  show Heap.load _ _ (unsigned (cstrText cstr).length) = .ok 0
  rwa [unsigned_of_lt (n := (cstrText cstr).length) (by omega)]

/-! ## Parts of a string -/

/-- The characters from `start` to `end_`, both included, that the text has. -/
def clipped (text : CString) (start end_ : Int) : CString :=
  if end_ < 0 then Assembler.stringCreate
  else Assembler.stringSubstring text start.toNat end_.toNat

/-- The same for a start that is not negative; from a negative one on there is
nothing. -/
def clippedFromStart (text : CString) (start end_ : Int) : CString :=
  if start < 0 then Assembler.stringCreate else clipped text start end_

/-- The text without the characters from `start` to `end_`, if it has all of them. -/
def removed (text : CString) (start end_ : Int) : CString :=
  if 0 ≤ start ∧ start ≤ end_ ∧ end_ < text.data.length then
    ⟨text.data.take start.toNat ++ text.data.drop (end_.toNat + 1), by
      intro h
      rcases List.mem_append.mp h with hfront | hback
      · exact text.noNul (List.mem_of_mem_take hfront)
      · exact text.noNul (List.mem_of_mem_drop hback)⟩
  else text

/-- The characters of a part that is clipped to the text. -/
theorem clipped_data (text : CString) {start : Int} (hstart : 0 ≤ start) (end_ : Int) :
    (clipped text start end_).data =
      (text.data.drop start.toNat).take (end_ + 1 - start).toNat := by
  unfold clipped
  split
  · rw [show (end_ + 1 - start).toNat = 0 by omega]
    rfl
  · rw [show (end_ + 1 - start).toNat = end_.toNat + 1 - start.toNat by omega]
    rfl

/-- What the loop of `string_substring` keeps: the result is the part of the text
from the start to the place that is reached. -/
structure Copied (memory : Memory) (text : CString) (start end_ : BitVec 32) (s : Building) :
    Prop where
  part : ∃ part : CString,
    part.data = (text.data.drop start.toNat).take (s.i.toNat - start.toNat) ∧
      Appears memory s.memory s.result part
  begun : start.toNat ≤ s.i.toNat
  reached : s.i = start ∨ s.i.toNat ≤ text.data.length ∧ s.i.toInt ≤ end_.toInt + 1

section Parts

variable {memory : Memory} {str : StoredString} {text : CString} (h : WellFormed memory str text)
  {start end_ : BitVec 32}

include h

/-- The copy goes on to the end of the part or of the text. -/
theorem goesOn_iff (s : Building) : substringGoesOn str end_ s = true ↔
    s.i.toInt ≤ end_.toInt ∧ s.i.toNat < text.data.length := by
  rw [substringGoesOn, Bool.and_eq_true, BitVec.sle_iff_toInt_le, decide_eq_true_eq, h.length]

/-- A character of the string is read and appended to the one that is made. -/
theorem WellFormed.copyChar {middle : Memory} {result : StoredString} {part : CString}
    (happears : Appears memory middle result part) {i : BitVec 32}
    (hi : i.toNat < text.data.length) (hfits : part.data.length + 1 < 2 ^ 31) :
    ∃ ch result' memory' part', Stored.loadAt middle str.data i = .ok ch ∧
      stringAppendChar middle result ch = .ok (result', memory') ∧
      part'.data = part.data ++ [text.data[i.toNat]] ∧ Appears memory memory' result' part' := by
  have hch := text.getElem_ne_zero hi
  have hdata : (Assembler.stringAppendChar part text.data[i.toNat]).data =
      part.data ++ [text.data[i.toNat]] := stringAppendChar_data hch
  obtain ⟨result', memory', happend, hbecomes⟩ :=
    stringAppendChar_becomes happears.wellFormed text.data[i.toNat]
      (by rw [hdata, List.length_append]; exact hfits)
  exact ⟨_, result', memory', _, (h.appears happears).loadAt hi, happend, hdata,
    happears.becomes hbecomes⟩

/-- A round copies one character. -/
theorem copied_round {s : Building} (hs : Copied memory text start end_ s)
    (hgo : substringGoesOn str end_ s = true) :
    ∃ s', substringRound str s = .ok s' ∧ Copied memory text start end_ s' ∧
      str.length - s'.i.toNat < str.length - s.i.toNat := by
  obtain ⟨hend, hlt⟩ := (goesOn_iff h s).mp hgo
  obtain ⟨part, hpart, happears⟩ := hs.part
  have hle := h.capacity_le
  have hroom := h.room
  have hlength := h.length
  have hbegun := hs.begun
  have hnext := toNat_next (i := s.i) (by omega)
  have hint : s.i.toInt = s.i.toNat := BitVec.toInt_eq_toNat_of_lt (by omega)
  have hnextInt : (s.i + 1).toInt = s.i.toNat + 1 := by
    rw [BitVec.toInt_eq_toNat_of_lt (by omega), hnext]
    rfl
  have hshort : part.data.length + 1 < 2 ^ 31 := by
    rw [hpart, List.length_take, List.length_drop]
    omega
  obtain ⟨ch, result, memory', part', hload, happend, hpart', happears'⟩ :=
    h.copyChar happears hlt hshort
  refine ⟨{ i := s.i + 1, result := result, memory := memory' }, ?_,
    ⟨⟨part', ?_, happears'⟩, ?_, ?_⟩, ?_⟩
  · simp [substringRound, hload, happend, bind, Except.bind]
  · have hcell : (text.data.drop start.toNat)[s.i.toNat - start.toNat]? =
        some text.data[s.i.toNat] := by
      rw [List.getElem?_drop, Nat.add_sub_cancel' hbegun, List.getElem?_eq_getElem hlt]
    rw [hpart', hpart, hnext, Nat.sub_add_comm hbegun, List.take_add_one, hcell]
    rfl
  · show start.toNat ≤ (s.i + 1).toNat
    omega
  · right
    show (s.i + 1).toNat ≤ _ ∧ (s.i + 1).toInt ≤ _
    omega
  · show str.length - (s.i + 1).toNat < _
    omega

/-- Where the loop ends, the part is the one that was asked for. -/
theorem copied_last (hstart : 0 ≤ start.toInt) {s : Building}
    (hs : Copied memory text start end_ s) (hdone : substringGoesOn str end_ s = false) :
    Appears memory s.memory s.result (clipped text start.toInt end_.toInt) := by
  obtain ⟨part, hpart, happears⟩ := hs.part
  have hbegun := hs.begun
  have hle := h.capacity_le
  have hroom := h.room
  have hstartInt := toInt_eq_toNat hstart
  have hcases : ¬ (s.i.toInt ≤ end_.toInt ∧ s.i.toNat < text.data.length) := by
    rw [← goesOn_iff h, hdone]
    exact Bool.false_ne_true
  have hdata : part = clipped text start.toInt end_.toInt := by
    apply CString.ext
    rw [hpart, clipped_data text hstart, hstartInt, Int.toNat_natCast]
    rcases hs.reached with heq | ⟨hinside, hend⟩
    · rw [heq] at hcases ⊢
      rw [Nat.sub_self, List.take_zero]
      rcases Nat.lt_or_ge start.toNat text.data.length with hlt | hge
      · rw [show (end_.toInt + 1 - start.toNat).toNat = 0 by omega, List.take_zero]
      · rw [List.drop_eq_nil_of_le hge, List.take_nil]
    · have hint : s.i.toInt = s.i.toNat := BitVec.toInt_eq_toNat_of_lt (by omega)
      rcases Nat.lt_or_ge s.i.toNat text.data.length with hlt | hge
      · rw [show (end_.toInt + 1 - start.toNat).toNat = s.i.toNat - start.toNat by omega]
      · rw [List.take_of_length_le (by rw [List.length_drop]; omega),
          List.take_of_length_le (by rw [List.length_drop]; omega)]
  exact hdata ▸ happears

omit h in
/-- The source's function is its loop on an empty string. -/
theorem stringSubstring_eq (memory : Memory) (str : StoredString) (start end_ : BitVec 32) :
    stringSubstring memory str start end_ =
      (While.loopE (fun s => .ok (substringGoesOn str end_ s)) (substringRound str)
        (fun s => str.length - s.i.toNat)
        { i := start, result := (stringCreate memory).1, memory := (stringCreate memory).2 }).bind
        fun s => .ok (s.result, s.memory) :=
  rfl

/-- **`string_substring`** makes the part of the text from `start` to `end_`, and
an empty string where `start` is negative. -/
theorem stringSubstring_appears (start end_ : BitVec 32) :
    ∃ result memory', stringSubstring memory str start end_ = .ok (result, memory') ∧
      Appears memory memory' result (clippedFromStart text start.toInt end_.toInt) := by
  have hempty := stringCreate_appears memory
  rw [stringSubstring_eq]
  by_cases hneg : start.toInt < 0
  · have hlarge := BitVec.toInt_neg_iff.mp hneg
    have hle := h.capacity_le
    have hroom := h.room
    have hdone : substringGoesOn str end_
        { i := start, result := (stringCreate memory).1, memory := (stringCreate memory).2 } =
          false := by
      rw [← Bool.not_eq_true, goesOn_iff h]
      show ¬ (_ ∧ start.toNat < _)
      omega
    refine ⟨(stringCreate memory).1, (stringCreate memory).2, ?_, ?_⟩
    · rw [While.loopE_exit]
      · rfl
      · rw [hdone]
    · rw [clippedFromStart, if_pos hneg]
      exact hempty
  · have hfirst : Copied memory text start end_
        { i := start, result := (stringCreate memory).1, memory := (stringCreate memory).2 } := by
      refine ⟨⟨Assembler.stringCreate, ?_, hempty⟩, Nat.le_refl _, Or.inl rfl⟩
      show _ = List.take (start.toNat - start.toNat) _
      rw [Nat.sub_self]
      rfl
    obtain ⟨s, hloop, -, hs, hdone⟩ := While.loopE_rule (Copied memory text start end_)
      (fun _ _ => rfl) (fun _ hs hgo => copied_round h hs hgo) hfirst
    refine ⟨s.result, s.memory, ?_, ?_⟩
    · rw [hloop]
      rfl
    · rw [clippedFromStart, if_neg hneg]
      exact copied_last h (by omega) hs hdone

end Parts

/-! ## Removing a part -/

/-- A string that is cut off stands for the front of its text. -/
theorem Denotes.cutOff {memory : Memory} {str : StoredString} {text front : CString}
    (h : Denotes memory str text) (hfront : front.data <+: text.data) :
    Denotes memory { str with length := front.data.length } front := by
  obtain ⟨back, hback⟩ := hfront
  obtain ⟨rest, hblock⟩ := h.block
  refine ⟨⟨rfl, back.map some ++ rest, ?_⟩, h.capacity, ?_, h.size⟩
  · rw [← List.append_assoc, ← List.map_append, hback]
    exact hblock
  · have hroom := h.room
    rw [← hback, List.length_append] at hroom
    exact Nat.lt_of_le_of_lt (Nat.le_add_right _ _) hroom

/-- The end of a text is read with its terminator. -/
theorem WellFormed.read {memory : Memory} {str : StoredString} {text : CString}
    (h : WellFormed memory str text) {i : Nat} (hi : i ≤ text.data.length) :
    memory.read str.data i (text.data.length + 1 - i) = .ok (text.data.drop i ++ [0]) := by
  obtain ⟨rest, hcells⟩ := h.cells
  have hfront : ((text.data.take i).map some).length = i := by
    rw [List.length_map, List.length_take, Nat.min_eq_left hi]
  have hlength : (text.data.drop i ++ [0]).length = text.data.length + 1 - i := by
    rw [List.length_append, List.length_drop, List.length_singleton]
    omega
  have hblock : memory.block str.data = some ((text.data.take i).map some ++
      (text.data.drop i ++ [0]).map some ++ rest) := by
    rw [hcells, List.map_append, ← List.append_assoc ((text.data.take i).map some),
      ← List.map_append, List.take_append_drop]
    rfl
  have hread := Heap.read_of_block hblock
  rwa [hfront, hlength] at hread

/-- The comparisons, one of them of unsigned numbers, refuse what is not a range
of the text. -/
theorem refused_iff {text : CString} (hshort : text.data.length < 2 ^ 31) (start end_ : BitVec 32) :
    start.toInt < 0 ∨ text.data.length ≤ end_.toNat ∨ end_.toInt < start.toInt ↔
      ¬ (0 ≤ start.toInt ∧ start.toInt ≤ end_.toInt ∧ end_.toInt < text.data.length) := by
  rw [BitVec.toInt_eq_toNat_cond end_]
  split <;> omega

/-- The characters of a text without a part of it. -/
theorem removed_data {text : CString} {start end_ : Int}
    (h : 0 ≤ start ∧ start ≤ end_ ∧ end_ < text.data.length) :
    (removed text start end_).data =
      text.data.take start.toNat ++ text.data.drop (end_.toNat + 1) := by
  rw [removed, if_pos h]

/-- A range that is not refused is overwritten by what is behind it. -/
theorem stringRemoveRange_eq {memory middle memory' : Memory} {str : StoredString}
    {start end_ : BitVec 32} {moved : List UInt8} {length : Nat}
    (hguard : ¬ (start.toInt < 0 ∨ str.length ≤ end_.toNat ∨ end_.toInt < start.toInt))
    (hmoved : memory.read str.data (end_.toNat + 1)
      (unsigned (str.length + 2 ^ 32 - end_.toNat)) = .ok moved)
    (hlength : unsigned (str.length + 2 ^ 32 - (end_ - start + 1).toNat) = length)
    (hstore : memory.store str.data start.toNat moved = .ok middle)
    (hterminator : middle.store str.data length [0] = .ok memory') :
    stringRemoveRange memory str start end_ = .ok ({ str with length := length }, memory') := by
  subst hlength
  rw [stringRemoveRange, if_neg hguard, hmoved]
  show (memory.store str.data start.toNat moved).bind _ = _
  rw [hstore, Except.bind]
  show (middle.store str.data _ [0]).bind _ = _
  rw [hterminator]
  rfl

/-- What is behind a range is moved to its start, and the terminator is written
once more. -/
theorem WellFormed.closeGap {memory : Memory} {str : StoredString} {text text' : CString}
    (h : WellFormed memory str text) {first last : Nat} (hordered : first ≤ last)
    (hinside : last < text.data.length)
    (htext' : text'.data = text.data.take first ++ text.data.drop (last + 1)) :
    ∃ middle memory', memory.store str.data first (text.data.drop (last + 1) ++ [0]) = .ok middle ∧
      middle.store str.data text'.data.length [0] = .ok memory' ∧
      WellFormed memory' { str with length := text'.data.length } text' := by
  have hle := h.capacity_le
  have hroom := h.room
  obtain ⟨front, hfront⟩ : ∃ front : CString, front.data = text.data.take first :=
    ⟨⟨text.data.take first, fun hmem => text.noNul (List.mem_of_mem_take hmem)⟩, rfl⟩
  have hlength : front.data.length = first := by
    rw [hfront, List.length_take, Nat.min_eq_left (by omega)]
  have hprefix : front.data <+: text.data := hfront ▸ List.take_prefix _ _
  have hfits : front.data.length + (text.data.drop (last + 1)).length < str.capacity := by
    rw [hlength, List.length_drop]
    omega
  rw [← hfront] at htext'
  have hsmall : unsigned (front.data.length + (text.data.drop (last + 1)).length) =
      text'.data.length := by
    rw [htext', List.length_append, unsigned_of_lt (by omega)]
  have hstays : unsigned (text'.data.length + 0) = text'.data.length := by
    rw [Nat.add_zero, unsigned_of_lt]
    rw [htext', List.length_append]
    omega
  obtain ⟨middle, hstore, hmiddle⟩ :=
    (h.toDenotes.cutOff hprefix).store_wellFormed htext' hfits
  rw [hsmall] at hmiddle
  have hagain := (List.append_nil text'.data).symm
  obtain ⟨memory', hstore', hlast⟩ := hmiddle.toDenotes.store_wellFormed hagain hmiddle.room
  rw [List.length_nil, hstays] at hlast
  exact ⟨middle, memory', hlength ▸ hstore, hstore', hlast⟩

/-- **`string_remove_range`** removes the range where the text has all of it, and
changes nothing otherwise. -/
theorem stringRemoveRange_becomes {memory : Memory} {str : StoredString} {text : CString}
    (h : WellFormed memory str text) (start end_ : BitVec 32) :
    ∃ str' memory', stringRemoveRange memory str start end_ = .ok (str', memory') ∧
      Becomes memory str memory' str' (removed text start.toInt end_.toInt) := by
  have hle := h.capacity_le
  have hroom := h.room
  have hlength := h.length
  have hshort : text.data.length < 2 ^ 31 := by omega
  have hrefused := refused_iff hshort start end_
  rw [← hlength] at hrefused
  by_cases hguard : start.toInt < 0 ∨ str.length ≤ end_.toNat ∨ end_.toInt < start.toInt
  · refine ⟨str, memory, ?_, ?_, Heap.Moves.refl _ _⟩
    · rw [stringRemoveRange, if_pos hguard]
    · rw [removed, if_neg (hlength ▸ hrefused.mp hguard)]
      exact h
  · have hrange := Classical.not_not.mp (hrefused.not.mp hguard)
    rw [hlength] at hrange
    have hdata := removed_data hrange
    obtain ⟨hstart, hordered, hinside⟩ := hrange
    have hstartInt := toInt_eq_toNat hstart
    have hendInt := toInt_eq_toNat (Int.le_trans hstart hordered)
    have hstartNat : start.toInt.toNat = start.toNat := by omega
    have hendNat : end_.toInt.toNat = end_.toNat := by omega
    rw [hstartNat, hendNat] at hdata
    obtain ⟨middle, memory', hstore, hstore', hlast⟩ :=
      h.closeGap (by omega) (by omega) hdata
    have hmoved := h.read (i := end_.toNat + 1) (by omega)
    have hcount : text.data.length + 1 - (end_.toNat + 1) =
        unsigned (str.length + 2 ^ 32 - end_.toNat) := by
      unfold unsigned
      omega
    rw [hcount] at hmoved
    have hshift : (end_ - start + 1).toNat = end_.toNat - start.toNat + 1 := by
      bv_omega
    have hnewLength : unsigned (str.length + 2 ^ 32 - (end_ - start + 1).toNat) =
        (removed text start.toInt end_.toInt).data.length := by
      rw [hdata, List.length_append, List.length_take, List.length_drop]
      unfold unsigned
      omega
    exact ⟨_, memory', stringRemoveRange_eq hguard hmoved hnewLength hstore hstore', hlast,
      (Heap.store_moves hstore).trans (Heap.store_moves hstore')⟩

/-! ## Runs -/

/-- A call of the module, on strings that are named by their places. -/
inductive StringCall
  | create
  | createFromCstr (cstr : List UInt8)
  | appendChar (str : Nat) (ch : UInt8)
  | appendCstr (str : Nat) (cstr : List UInt8)
  | append (dest src : Nat)
  | substring (str : Nat) (start end_ : BitVec 32)
  | removeRange (str : Nat) (start end_ : BitVec 32)

/-- The strings of a program. -/
structure Strings where
  memory : Memory
  strings : List StoredString

/-- One more string. -/
def Strings.add (s : Strings) (made : StoredString × Memory) : Strings :=
  { memory := made.2, strings := s.strings ++ [made.1] }

/-- What a call does to one of the strings. -/
def Strings.update (s : Strings) (i : Nat)
    (call : Memory → StoredString → Except MemoryFault (StoredString × Memory)) :
    Except MemoryFault Strings :=
  match s.strings[i]? with
  | none => .ok s
  | some str =>
      (call s.memory str).bind fun result =>
        .ok { memory := result.2, strings := s.strings.set i result.1 }

namespace StringCall

/-- What a call does to the strings. -/
def exec (s : Strings) : StringCall → Except MemoryFault Strings
  | create => .ok (s.add (stringCreate s.memory))
  | createFromCstr cstr => (stringCreateFromCstr s.memory cstr).map s.add
  | appendChar str ch => s.update str fun memory str => stringAppendChar memory str ch
  | appendCstr str cstr => s.update str fun memory str => stringAppendCstr memory str cstr
  | append dest src =>
      match s.strings[src]? with
      | none => .ok s
      | some src => s.update dest fun memory dest => stringAppend memory dest src
  | substring str start end_ =>
      match s.strings[str]? with
      | none => .ok s
      | some str => (stringSubstring s.memory str start end_).map s.add
  | removeRange str start end_ =>
      s.update str fun memory str => stringRemoveRange memory str start end_

/-- What the calls are for: each changes a list of texts.  What a part of a text
is, is given. -/
def effect (part : CString → Int → Int → CString) (texts : List CString) :
    StringCall → List CString
  | create => texts ++ [Assembler.stringCreate]
  | createFromCstr cstr => texts ++ [Assembler.stringCreateFromCstr cstr]
  | appendChar str ch => texts.modify str fun text => Assembler.stringAppendChar text ch
  | appendCstr str cstr => texts.modify str fun text => Assembler.stringAppendCstr text cstr
  | append dest src =>
      match texts[src]? with
      | none => texts
      | some source => texts.modify dest fun text => Assembler.stringAppend text source
  | substring str start end_ =>
      match texts[str]? with
      | none => texts
      | some text => texts ++ [part text start.toInt end_.toInt]
  | removeRange str start end_ =>
      texts.modify str fun text => removed text start.toInt end_.toInt

/-- A string is not appended to itself. -/
def Apart : StringCall → Prop
  | append dest src => dest ≠ src
  | _ => True

end StringCall

/-- Several calls, one after the other. -/
def runCalls : List StringCall → Strings → Except MemoryFault Strings
  | [], s => .ok s
  | call :: calls, s => (call.exec s).bind (runCalls calls)

/-- What they should do to the texts. -/
def effects (part : CString → Int → Int → CString) (calls : List StringCall)
    (texts : List CString) : List CString :=
  calls.foldl (StringCall.effect part) texts

/-- The calls are such that no length reaches 2^31. -/
def StayShort (part : CString → Int → Int → CString) : List StringCall → List CString → Prop
  | [], _ => True
  | call :: calls, texts =>
      call.Apart ∧ (∀ text ∈ call.effect part texts, text.data.length < 2 ^ 31) ∧
        StayShort part calls (call.effect part texts)

/-- The strings are well formed, have blocks of their own and stand for the texts. -/
structure Holds (s : Strings) (texts : List CString) : Prop where
  count : s.strings.length = texts.length
  wellFormed : ∀ {i : Nat} {str : StoredString} {text : CString}, s.strings[i]? = some str →
    texts[i]? = some text → WellFormed s.memory str text
  apart : ∀ {i j : Nat} {str str' : StoredString}, i ≠ j → s.strings[i]? = some str →
    s.strings[j]? = some str' → str.data ≠ str'.data

section Run

variable {s : Strings} {texts : List CString}

/-- Every string that is there has its text. -/
theorem Holds.exists_text (h : Holds s texts) {i : Nat} {str : StoredString}
    (hstr : s.strings[i]? = some str) : ∃ text, texts[i]? = some text := by
  have hlt := (List.getElem?_eq_some_iff.mp hstr).1
  exact ⟨_, List.getElem?_eq_getElem (h.count ▸ hlt)⟩

/-- Where there is no string there is no text. -/
theorem Holds.none (h : Holds s texts) {i : Nat} (hstr : s.strings[i]? = none) :
    texts[i]? = none := by
  rw [List.getElem?_eq_none_iff] at hstr ⊢
  exact h.count ▸ hstr

/-- Every string has a block. -/
theorem Holds.exists_cells (h : Holds s texts) {i : Nat} {str : StoredString}
    (hstr : s.strings[i]? = some str) : ∃ cells, s.memory.block str.data = some cells := by
  obtain ⟨text, htext⟩ := h.exists_text hstr
  exact (h.wellFormed hstr htext).exists_block

/-- A member of a longer list is an old one or the new one. -/
theorem getElem?_concat_eq_some {α : Type*} {l : List α} {a b : α} {i : Nat} :
    (l ++ [a])[i]? = some b ↔ l[i]? = some b ∨ i = l.length ∧ a = b := by
  rcases Nat.lt_trichotomy i l.length with hlt | rfl | hgt
  · rw [List.getElem?_append_left hlt]
    exact ⟨Or.inl, fun h => h.elim id fun hlast => absurd hlast.1 (Nat.ne_of_lt hlt)⟩
  · rw [List.getElem?_concat_length, List.getElem?_eq_none (Nat.le_refl _)]
    constructor
    · intro h
      exact Or.inr ⟨rfl, Option.some.inj h⟩
    · intro hcases
      rcases hcases with h | ⟨-, rfl⟩
      · cases h
      · rfl
  · have hconcat : (l ++ [a]).length ≤ i := by
      rw [List.length_append, List.length_singleton]
      exact hgt
    rw [List.getElem?_eq_none hconcat, List.getElem?_eq_none (Nat.le_of_lt hgt)]
    constructor
    · intro h
      cases h
    · intro hcases
      rcases hcases with h | ⟨hlast, -⟩
      · cases h
      · exact absurd hlast.symm (Nat.ne_of_lt hgt)

/-- A new string is put behind the others, which stay as they are. -/
theorem Holds.add (h : Holds s texts) {made : StoredString × Memory} {text : CString}
    (happears : Appears s.memory made.2 made.1 text) : Holds (s.add made) (texts ++ [text]) := by
  have hdiffers : ∀ {i : Nat} {str : StoredString}, s.strings[i]? = some str →
      str.data ≠ made.1.data := by
    intro i str hstr
    obtain ⟨cells, hcells⟩ := h.exists_cells hstr
    exact (happears.makes.others hcells).1
  refine ⟨by simp [Strings.add, h.count], ?_, ?_⟩
  · intro i str old hstr hold
    rcases getElem?_concat_eq_some.mp hold with hold | ⟨rfl, rfl⟩
    · have hlt := (List.getElem?_eq_some_iff.mp hold).1
      rcases getElem?_concat_eq_some.mp hstr with hstr | ⟨hlast, -⟩
      · exact (h.wellFormed hstr hold).appears happears
      · exact absurd (h.count ▸ hlast) (Nat.ne_of_lt hlt)
    · rcases getElem?_concat_eq_some.mp hstr with hstr | ⟨-, rfl⟩
      · obtain ⟨old, hold⟩ := h.exists_text hstr
        exact absurd (List.getElem?_eq_some_iff.mp hold).1 (Nat.lt_irrefl _)
      · exact happears.wellFormed
  · intro i j str str' hij hstr hstr'
    rcases getElem?_concat_eq_some.mp hstr with hstr | ⟨rfl, rfl⟩
    · rcases getElem?_concat_eq_some.mp hstr' with hstr' | ⟨-, rfl⟩
      · exact h.apart hij hstr hstr'
      · exact hdiffers hstr
    · rcases getElem?_concat_eq_some.mp hstr' with hstr' | ⟨rfl, -⟩
      · exact (hdiffers hstr').symm
      · exact absurd rfl hij

/-- A string is changed where it is, and the others stay as they are. -/
theorem Holds.set (h : Holds s texts) {i : Nat} {str str' : StoredString} {memory' : Memory}
    {text : CString} {f : CString → CString} (hstr : s.strings[i]? = some str)
    (htext : texts[i]? = some text) (hbecomes : Becomes s.memory str memory' str' (f text)) :
    Holds { memory := memory', strings := s.strings.set i str' } (texts.modify i f) := by
  have hi := (List.getElem?_eq_some_iff.mp hstr).1
  have hdiffers : ∀ {j : Nat} {other : StoredString}, i ≠ j → s.strings[j]? = some other →
      other.data ≠ str'.data ∧ memory'.block other.data = s.memory.block other.data := by
    intro j other hne hother
    obtain ⟨cells, hcells⟩ := h.exists_cells hother
    have hapart := (h.apart hne hstr hother).symm
    exact ⟨hbecomes.moves.apart hapart hcells,
      (hbecomes.moves.others hapart hcells).trans hcells.symm⟩
  refine ⟨by simp [h.count], ?_, ?_⟩
  · intro j other old hother hold
    by_cases hij : i = j
    · subst hij
      rw [List.getElem?_set_self hi] at hother
      rw [List.getElem?_modify, htext] at hold
      obtain rfl := Option.some.inj hother
      obtain rfl : f text = old := by simpa using hold
      exact hbecomes.wellFormed
    · rw [List.getElem?_set_ne hij] at hother
      have hsame : texts[j]? = some old := by
        simpa [List.getElem?_modify, hij] using hold
      exact (h.wellFormed hother hsame).of_block (hdiffers hij hother).2
  · intro j k a b hjk ha hb
    rw [List.getElem?_set] at ha hb
    split at ha
    · rename_i hij
      subst hij
      rw [if_neg hjk] at hb
      rw [← Option.some.inj ha]
      exact (hdiffers hjk hb).1.symm
    · rename_i hij
      split at hb
      · rename_i hik
        subst hik
        rw [← Option.some.inj hb]
        exact (hdiffers hij ha).1
      · exact h.apart hjk ha hb

/-- A call that changes one string as a text changes keeps all of them. -/
theorem Holds.update (h : Holds s texts) (i : Nat)
    {call : Memory → StoredString → Except MemoryFault (StoredString × Memory)}
    {f : CString → CString}
    (hcall : ∀ {str : StoredString} {text : CString}, s.strings[i]? = some str →
      texts[i]? = some text → f text ∈ texts.modify i f →
        ∃ str' memory', call s.memory str = .ok (str', memory') ∧
          Becomes s.memory str memory' str' (f text)) :
    ∃ s', s.update i call = .ok s' ∧ Holds s' (texts.modify i f) := by
  cases hstr : s.strings[i]? with
  | none =>
      refine ⟨s, by rw [Strings.update, hstr], ?_⟩
      rwa [List.modify_eq_self (List.getElem?_eq_none_iff.mp (h.none hstr))]
  | some str =>
      obtain ⟨text, htext⟩ := h.exists_text hstr
      have hmem : f text ∈ texts.modify i f := by
        apply List.mem_of_getElem? (i := i)
        rw [List.getElem?_modify, htext]
        simp
      obtain ⟨str', memory', hok, hbecomes⟩ := hcall hstr htext hmem
      refine ⟨_, ?_, h.set hstr htext hbecomes⟩
      rw [Strings.update, hstr]
      show (call s.memory str).bind _ = _
      rw [hok]
      rfl

/-- **A call** on strings that stand for texts does to them what it is for. -/
theorem StringCall.exec_holds (call : StringCall) (h : Holds s texts) (hapart : call.Apart)
    (hshort : ∀ text ∈ call.effect clippedFromStart texts, text.data.length < 2 ^ 31) :
    ∃ s', call.exec s = .ok s' ∧ Holds s' (call.effect clippedFromStart texts) := by
  cases call with
  | create => exact ⟨_, rfl, h.add (stringCreate_appears s.memory)⟩
  | createFromCstr cstr =>
      have hfits := hshort (Assembler.stringCreateFromCstr cstr)
        (List.mem_append_right _ (List.mem_singleton_self _))
      obtain ⟨str, memory', hok, happears⟩ := stringCreateFromCstr_appears s.memory hfits
      exact ⟨s.add (str, memory'), by rw [exec, hok]; rfl, h.add happears⟩
  | appendChar str ch =>
      simp only [effect, exec] at hshort ⊢
      exact h.update str fun hstr htext hmem =>
        stringAppendChar_becomes (h.wellFormed hstr htext) ch (hshort _ hmem)
  | appendCstr str cstr =>
      simp only [effect, exec] at hshort ⊢
      refine h.update str fun hstr htext hmem => ?_
      have hfits := hshort _ hmem
      rw [stringAppendCstr_data, List.length_append] at hfits
      exact stringAppendCstr_becomes (h.wellFormed hstr htext) cstr hfits
  | append dest src =>
      simp only [effect, exec] at hshort ⊢
      cases hsrc : s.strings[src]? with
      | none =>
          rw [h.none hsrc]
          exact ⟨s, rfl, h⟩
      | some stored =>
          obtain ⟨source, hsource⟩ := h.exists_text hsrc
          rw [hsource] at hshort ⊢
          refine h.update dest fun hstr htext hmem => ?_
          have hfits := hshort _ hmem
          rw [stringAppend_data, List.length_append] at hfits
          exact stringAppend_becomes (h.wellFormed hstr htext) (h.wellFormed hsrc hsource)
            (h.apart hapart hstr hsrc).symm hfits
  | substring str start end_ =>
      simp only [effect, exec] at hshort ⊢
      cases hstr : s.strings[str]? with
      | none =>
          rw [h.none hstr]
          exact ⟨s, rfl, h⟩
      | some stored =>
          obtain ⟨text, htext⟩ := h.exists_text hstr
          rw [htext]
          obtain ⟨result, memory', hok, happears⟩ :=
            stringSubstring_appears (h.wellFormed hstr htext) start end_
          exact ⟨s.add (result, memory'), by simp only [hok]; rfl, h.add happears⟩
  | removeRange str start end_ =>
      simp only [effect, exec]
      exact h.update str fun hstr htext _ =>
        stringRemoveRange_becomes (h.wellFormed hstr htext) start end_

/-- **A run** of calls. -/
theorem Holds.run (calls : List StringCall) (h : Holds s texts)
    (hshort : StayShort clippedFromStart calls texts) :
    ∃ s', runCalls calls s = .ok s' ∧ Holds s' (effects clippedFromStart calls texts) := by
  induction calls generalizing s texts with
  | nil => exact ⟨s, rfl, h⟩
  | cons call calls ih =>
      obtain ⟨hapart, hcall, hrest⟩ := hshort
      obtain ⟨middle, hok, hmiddle⟩ := call.exec_holds h hapart hcall
      obtain ⟨s', hrun, hlast⟩ := ih hmiddle hrest
      refine ⟨s', ?_, hlast⟩
      rw [runCalls, hok]
      exact hrun

end Run

/-- A program without strings. -/
theorem holds_nil (memory : Memory) : Holds { memory := memory, strings := [] } [] := by
  refine ⟨rfl, ?_, ?_⟩
  · intro i str text hstr
    cases hstr
  · intro i j str str' _ hstr
    cases hstr

/-- **The module refines texts.**  Whatever is called, as long as no length
reaches 2^31: nothing is read or written outside a block, whose size is the
capacity, every string is well formed, and its text is the one the calls are
for. -/
theorem stringCalls_refine (calls : List StringCall) (memory : Memory)
    (hshort : StayShort clippedFromStart calls []) :
    ∃ s, runCalls calls { memory := memory, strings := [] } = .ok s ∧
      Holds s (effects clippedFromStart calls []) :=
  (holds_nil memory).run calls hshort

/-- The calls of the sample, on two strings and then a third. -/
def sampleCalls : List StringCall :=
  [.create, .createFromCstr [97, 98, 99], .appendChar 0 120, .appendChar 0 0, .append 0 1,
    .substring 0 1 9, .removeRange 1 0 0, .removeRange 0 2 7, .appendCstr 2 [100, 0, 101]]

/-- Some calls on an empty memory. -/
theorem stringCalls_refine_sample :
    ∃ s, runCalls sampleCalls { memory := ⟨[]⟩, strings := [] } = .ok s ∧
      Holds s [⟨[120, 97, 98, 99], by decide⟩, ⟨[98, 99], by decide⟩,
        ⟨[97, 98, 99, 100], by decide⟩] :=
  stringCalls_refine sampleCalls ⟨[]⟩
    ⟨trivial, by decide, trivial, by decide, trivial, by decide, trivial, by decide,
      Nat.zero_ne_one, by decide, trivial, by decide, trivial, by decide, trivial, by decide,
      trivial, by decide, trivial⟩

/-- From a negative start on a substring is empty, although the text has
characters up to the end that is asked for. -/
theorem substring_of_negative_start :
    ¬ ∀ (calls : List StringCall) (memory : Memory), StayShort clipped calls [] →
      ∃ s, runCalls calls { memory := memory, strings := [] } = .ok s ∧
        Holds s (effects clipped calls []) := by
  intro hclaim
  obtain ⟨s, hrun, hholds⟩ := hclaim
    [.createFromCstr [97, 98, 99], .substring 0 (-1) 1] ⟨[]⟩
    ⟨trivial, by decide, trivial, by decide, trivial⟩
  obtain ⟨s', hrun', hholds'⟩ := (holds_nil ⟨[]⟩).run
    [.createFromCstr [97, 98, 99], .substring 0 (-1) 1]
    ⟨trivial, by decide, trivial, by decide, trivial⟩
  obtain rfl := Except.ok.inj (hrun.symm.trans hrun')
  obtain ⟨str, hstr⟩ : ∃ str, s.strings[1]? = some str :=
    ⟨_, List.getElem?_eq_getElem (by rw [hholds.count]; decide)⟩
  have htwo : WellFormed s.memory str ⟨[97, 98], by decide⟩ := hholds.wellFormed hstr rfl
  have hzero : WellFormed s.memory str ⟨[], by decide⟩ := hholds'.wellFormed hstr rfl
  have hlength := htwo.length.symm.trans hzero.length
  cases hlength

end Stored

end Assembler
