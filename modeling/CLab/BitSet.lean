import CLab.SetMachine
import Mathlib.Data.Fintype.Basic
import Mathlib.Data.List.FinRange

/-!
# Sets of small numbers as arrays of bits

`set.c`: a set of numbers from 0 to 127 is an array of sixteen `char`, one bit
for each number.  A `char` is signed: it is extended to an `int` before its
bits are read or written, and cut off again.
-/

namespace SetCalculator

open SetMachine (Operation)

/-- What ends a run of the program early: an access outside an array, or the
command `stop`. -/
inductive Fault
  | outOfBounds
  | stopped
deriving DecidableEq

/-- `struct set`. -/
structure BitSet where
  bitArray : Vector (BitVec 8) 16
deriving DecidableEq

/-- The byte of a number in the array. -/
def byteOf (index : Fin 128) : Fin 16 :=
  ⟨index / 8, by omega⟩

/-- `1 << index % SIZE_OF_BYTE`, an `int`. -/
def bitOf (index : Fin 128) : BitVec 32 :=
  1#32 <<< (index.val % 8)

/-- `create_set`, all bits off. -/
def createSet : BitSet where
  bitArray := Vector.replicate 16 0

/-- `set_bit_on`. -/
def setBitOn (s : BitSet) (index : Fin 128) : BitSet where
  bitArray := s.bitArray.set (byteOf index)
    ((s.bitArray[byteOf index].signExtend 32 ||| bitOf index).setWidth 8)

/-- `bit_is_on`. -/
def bitIsOn (s : BitSet) (index : Fin 128) : Bool :=
  (s.bitArray[byteOf index].signExtend 32 &&& bitOf index) != 0

/-- The number as an index into the bits, if it is one. -/
def toIndex (num : Int) : Option (Fin 128) :=
  if h : 0 ≤ num ∧ num < 128 then some ⟨num.toNat, by omega⟩ else none

/-- The numbers are read up to a `-1` or to the end of the array. -/
def readSet (s : BitSet) : List Int → Except Fault BitSet
  | [] => .ok s
  | num :: rest =>
      if num = -1 then .ok s
      else match toIndex num with
      | none => .error .outOfBounds
      | some index => readSet (setBitOn s index) rest

/-- The set that the loop of `union_set` and its siblings builds in `temp`. -/
def buildSet (test : Fin 128 → Bool) : BitSet :=
  (List.finRange 128).foldl (fun temp i => if test i then setBitOn temp i else temp) createSet

/-- `union_set`, number by number. -/
def unionSet (set1 set2 : BitSet) : BitSet :=
  buildSet fun i => bitIsOn set1 i || bitIsOn set2 i

/-- `intersect_set`, number by number. -/
def intersectSet (set1 set2 : BitSet) : BitSet :=
  buildSet fun i => bitIsOn set1 i && bitIsOn set2 i

/-- `sub_set`: the numbers of the first set that are not in the second. -/
def subSet (set1 set2 : BitSet) : BitSet :=
  buildSet fun i => bitIsOn set1 i && !bitIsOn set2 i

/-- `symdiff_set`: the numbers that are in one of the sets only. -/
def symdiffSet (set1 set2 : BitSet) : BitSet :=
  buildSet fun i => bitIsOn set1 i && !bitIsOn set2 i || bitIsOn set2 i && !bitIsOn set1 i

/-! ## The bits -/

/-- A bit of an extended byte is the bit of the byte. -/
theorem signExtend_and_bit (byte : BitVec 8) {k : Nat} (hk : k < 8) :
    (byte.signExtend 32 &&& 1#32 <<< k) ≠ 0 ↔ byte.getLsbD k = true := by
  have hbit : (byte.signExtend 32).getLsbD k = byte.getLsbD k := by
    rw [BitVec.getLsbD_signExtend, if_pos hk]
    have hlt : k < 32 := by omega
    simp [hlt]
  show (byte.signExtend 32 &&& BitVec.twoPow 32 k) ≠ 0 ↔ _
  rw [BitVec.and_twoPow, hbit]
  cases byte.getLsbD k with
  | false => simp
  | true =>
      refine iff_of_true ?_ rfl
      intro hzero
      have htrue : (BitVec.twoPow 32 k).getLsbD k = true := by
        rw [BitVec.getLsbD_twoPow]
        simp only [Bool.and_eq_true, decide_eq_true_eq, and_true]
        omega
      rw [if_pos rfl] at hzero
      rw [hzero] at htrue
      exact absurd htrue (by simp)

/-- A bit is on if its place in its byte is. -/
theorem bitIsOn_iff (s : BitSet) (index : Fin 128) :
    bitIsOn s index = s.bitArray[byteOf index].getLsbD (index.val % 8) := by
  rw [Bool.eq_iff_iff, bitIsOn, bne_iff_ne]
  exact signExtend_and_bit _ (Nat.mod_lt _ (by omega))

/-- In a new set none is. -/
theorem bitIsOn_createSet (index : Fin 128) : bitIsOn createSet index = false := by
  rw [bitIsOn_iff, createSet]
  simp

/-- **One bit.**  A number is turned on, and nothing else changes. -/
theorem bitIsOn_setBitOn (s : BitSet) (i j : Fin 128) :
    bitIsOn (setBitOn s i) j = (decide (i = j) || bitIsOn s j) := by
  rw [bitIsOn_iff, bitIsOn_iff, setBitOn]
  have hmod : j.val % 8 < 8 := Nat.mod_lt _ (by omega)
  by_cases hbyte : byteOf i = byteOf j
  · have hdiv : i.val / 8 = j.val / 8 := congrArg Fin.val hbyte
    have heq : i = j ↔ i.val % 8 = j.val % 8 := by
      rw [Fin.ext_iff]
      omega
    simp only [hbyte, Fin.getElem_fin, Vector.getElem_set_self]
    rw [BitVec.getLsbD_setWidth, BitVec.getLsbD_or, BitVec.getLsbD_signExtend, if_pos hmod]
    have hbit : (bitOf i).getLsbD (j.val % 8) = decide (i = j) := by
      show (BitVec.twoPow 32 (i.val % 8)).getLsbD (j.val % 8) = _
      rw [BitVec.getLsbD_twoPow]
      have hlt : i.val % 8 < 32 := by omega
      simp [hlt, heq]
    rw [hbit]
    have hlt : j.val % 8 < 32 := by omega
    simp [hmod, hlt, Bool.or_comm]
  · have hne : i ≠ j := fun h => hbyte (congrArg byteOf h)
    have hval : (byteOf i).val ≠ (byteOf j).val := fun h => hbyte (Fin.ext h)
    simp only [Fin.getElem_fin]
    rw [Vector.getElem_set_ne _ _ hval]
    simp [hne]

/-- The loop turns on what passes the test, and keeps what was on. -/
theorem bitIsOn_foldl (test : Fin 128 → Bool) (indices : List (Fin 128)) (temp : BitSet)
    (j : Fin 128) :
    bitIsOn (indices.foldl (fun temp i => if test i then setBitOn temp i else temp) temp) j =
      (decide (j ∈ indices) && test j || bitIsOn temp j) := by
  induction indices generalizing temp with
  | nil => simp
  | cons i indices ih =>
      rw [List.foldl_cons, ih]
      by_cases hj : i = j
      · subst hj
        cases htest : test i <;> simp [bitIsOn_setBitOn]
      · have hmem : decide (j ∈ i :: indices) = decide (j ∈ indices) := by
          simp [Ne.symm hj]
        rw [hmem]
        cases htest : test i <;> simp [bitIsOn_setBitOn, hj]

/-- **The set that is built** has exactly the numbers that pass the test. -/
theorem bitIsOn_buildSet (test : Fin 128 → Bool) (j : Fin 128) :
    bitIsOn (buildSet test) j = test j := by
  rw [buildSet, bitIsOn_foldl, bitIsOn_createSet]
  simp

/-! ## Sets and their members -/

/-- The members of a set. -/
def members (s : BitSet) : Finset (Fin 128) :=
  Finset.univ.filter fun i => bitIsOn s i = true

/-- A number is a member if its bit is on. -/
theorem mem_members {s : BitSet} {i : Fin 128} : i ∈ members s ↔ bitIsOn s i = true := by
  simp [members]

/-- A new set has no members. -/
theorem members_createSet : members createSet = ∅ := by
  ext i
  rw [mem_members, bitIsOn_createSet]
  exact iff_of_false Bool.false_ne_true (Finset.notMem_empty i)

/-- Setting a bit adds its number. -/
theorem members_setBitOn (s : BitSet) (i : Fin 128) :
    members (setBitOn s i) = insert i (members s) := by
  ext j
  rw [Finset.mem_insert, mem_members, mem_members, bitIsOn_setBitOn, Bool.or_eq_true,
    decide_eq_true_eq, eq_comm]

/-- The set a two-set command writes. -/
def combineSet : Operation → BitSet → BitSet → BitSet
  | .union => unionSet
  | .inter => intersectSet
  | .diff => subSet
  | .symdiff => symdiffSet

/-- A bit of a result is the operation on two bits. -/
theorem bitIsOn_combineSet (operation : Operation) (set1 set2 : BitSet) (i : Fin 128) :
    bitIsOn (combineSet operation set1 set2) i =
      operation.holds (bitIsOn set1 i) (bitIsOn set2 i) := by
  cases operation <;>
    simp only [combineSet, unionSet, intersectSet, subSet, symdiffSet, bitIsOn_buildSet,
      Operation.holds]

/-- **The operations** of `set.c` are those on sets. -/
theorem members_combineSet (operation : Operation) (set1 set2 : BitSet) :
    members (combineSet operation set1 set2) =
      operation.apply (members set1) (members set2) := by
  ext i
  rw [mem_members, bitIsOn_combineSet, Operation.mem_apply]
  simp [mem_members]

/-- The numbers in front of the `-1` become members, whatever stands behind. -/
theorem readSet_members (s : BitSet) (numbers : List (Fin 128)) (behind : List Int) :
    ∃ s', readSet s (numbers.map (fun n => (n.val : Int)) ++ -1 :: behind) = .ok s' ∧
      members s' = members s ∪ numbers.toFinset := by
  induction numbers generalizing s with
  | nil => exact ⟨s, by simp [readSet], by simp⟩
  | cons n numbers ih =>
      obtain ⟨s', hread, hmembers⟩ := ih (setBitOn s n)
      have hne : (n.val : Int) ≠ -1 := by omega
      have hindex : toIndex (n.val : Int) = some n := by
        rw [toIndex, dif_pos (by omega)]
        simp
      refine ⟨s', ?_, ?_⟩
      · rw [List.map_cons, List.cons_append, readSet, if_neg hne, hindex]
        exact hread
      · rw [hmembers, members_setBitOn, List.toFinset_cons, Finset.insert_union,
          Finset.union_insert]

end SetCalculator
