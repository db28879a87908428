import Mathlib.Tactic.Common
import Mathlib.Data.BitVec

/-!
# Rotations of a signed word

`rotate.c`: an `int` is rotated by the or of two shifts.  The shift to the
right is that of a signed number and fills with the sign, so a set sign bit is
spread over places that the other shift has filled already.
-/

namespace Rotations

/-! ## Shifts that meet -/

section Words

variable {w : Nat} {n : BitVec w} {r i : Nat}

/-- The bits of a number that is shifted to the left by `r` and, as a signed
number, to the right by all other places. -/
theorem getLsbD_shiftLeft_or (hr : r < w) (hi : i < w) :
    (n <<< r ||| n.sshiftRight (w - r)).getLsbD i =
      if i < r then n.getLsbD (w - r + i) else n.getLsbD (i - r) || n.msb := by
  simp only [BitVec.getLsbD_or, BitVec.getLsbD_shiftLeft, BitVec.getLsbD_sshiftRight]
  have hin : ¬ w ≤ i := by omega
  by_cases hlow : i < r
  · have hplace : w - r + i < w := by omega
    simp [hlow, hi, hin, hplace]
  · have hplace : ¬ w - r + i < w := by omega
    simp [hlow, hi, hin, hplace]

/-- The same the other way round. -/
theorem getLsbD_sshiftRight_or (hr : r < w) (hi : i < w) :
    (n.sshiftRight r ||| n <<< (w - r)).getLsbD i =
      if i < w - r then n.getLsbD (r + i) else n.msb || n.getLsbD (i - (w - r)) := by
  simp only [BitVec.getLsbD_or, BitVec.getLsbD_shiftLeft, BitVec.getLsbD_sshiftRight]
  have hin : ¬ w ≤ i := by omega
  by_cases hlow : i < w - r
  · have hplace : r + i < w := by omega
    simp [hlow, hi, hin, hplace]
  · have hplace : ¬ r + i < w := by omega
    simp [hlow, hi, hin, hplace]

end Words

/-! ## The source -/

/-- `INT_BITS`. -/
def intBits : BitVec 32 := 32

/-- What is done with a shift by 32 places or more.  The language leaves it
undefined; the processors of the build platform take the count modulo 32. -/
inductive WideShift
  | undefined
  | masked
deriving DecidableEq

/-- The places a shift by an `unsigned int` goes. -/
def places (wide : WideShift) (d : BitVec 32) : Option Nat :=
  if d.toNat < 32 then some d.toNat
  else match wide with
    | .undefined => none
    | .masked => some (d.toNat % 32)

/-- `leftRotate`, whose shift to the right copies the sign. -/
def leftRotate (wide : WideShift) (n d : BitVec 32) : Option (BitVec 32) := do
  let left ← places wide d
  let right ← places wide (intBits - d)
  some (n <<< left ||| n.sshiftRight right)

/-- `rightRotate`, with the same shift. -/
def rightRotate (wide : WideShift) (n d : BitVec 32) : Option (BitVec 32) := do
  let right ← places wide d
  let left ← places wide (intBits - d)
  some (n.sshiftRight right ||| n <<< left)

/-- The recorded run of the program with -1 rotations. -/
example : leftRotate .masked 10 (-1) = some 5 := by decide

/-! ## What a rotation is -/

/-- The bits are moved around, and the one rotation undoes the other. -/
structure Rotates (wide : WideShift) (n d : BitVec 32) : Prop where
  left : ∃ rotated, leftRotate wide n d = some rotated ∧
    ∀ i < 32, rotated.getLsbD i = n.getLsbD (((i : Int) - d.toNat) % 32).toNat
  right : ∃ rotated, rightRotate wide n d = some rotated ∧
    ∀ i < 32, rotated.getLsbD i = n.getLsbD ((i + d.toNat) % 32)
  leftUndone : (leftRotate wide n d).bind (fun rotated => rightRotate wide rotated d) = some n
  rightUndone : (rightRotate wide n d).bind (fun rotated => leftRotate wide rotated d) = some n

/-- Both shifts of a rotation are defined. -/
def Defined (wide : WideShift) (d : BitVec 32) : Prop :=
  wide = .masked ∨ 0 < d.toNat ∧ d.toNat < 32

/-- The sign does not get in the way: nothing is moved, or all bits are set, or
the sign is not set, neither here nor behind one of the rotations. -/
def SignFree (n : BitVec 32) (r : Nat) : Prop :=
  r = 0 ∨ n = BitVec.allOnes 32 ∨
    n.msb = false ∧ n.getLsbD (31 - r) = false ∧ n.getLsbD (r - 1) = false

/-- The other shift, in an `unsigned int`. -/
theorem toNat_intBits_sub (d : BitVec 32) :
    (intBits - d).toNat = (2 ^ 32 - d.toNat + 32) % 2 ^ 32 := by
  rw [BitVec.toNat_sub]
  rfl

/-- A shift by less than the width is defined. -/
theorem places_of_lt (wide : WideShift) {d : BitVec 32} (h : d.toNat < 32) :
    places wide d = some d.toNat := if_pos h

theorem places_masked (d : BitVec 32) : places .masked d = some (d.toNat % 32) := by
  unfold places
  split
  · rename_i h
    rw [Nat.mod_eq_of_lt h]
  · rfl

/-- Where the shifts are defined, they go `d` places modulo 32, and the rest of
the 32 places. -/
theorem places_of_defined {wide : WideShift} {d : BitVec 32} (h : Defined wide d) :
    places wide d = some (d.toNat % 32) ∧
      places wide (intBits - d) = some ((32 - d.toNat % 32) % 32) := by
  have hd := d.isLt
  have hsub := toNat_intBits_sub d
  rcases h with rfl | ⟨hpos, hlt⟩
  · rw [places_masked, places_masked]
    refine ⟨rfl, congrArg some ?_⟩
    omega
  · have hsub' : (intBits - d).toNat = 32 - d.toNat := by omega
    rw [places_of_lt wide hlt, places_of_lt wide (by omega), hsub']
    refine ⟨congrArg some ?_, congrArg some ?_⟩ <;> omega

/-- Elsewhere at least one of them is not. -/
theorem places_of_not_defined {wide : WideShift} {d : BitVec 32} (h : ¬ Defined wide d) :
    places wide d = none ∨ places wide (intBits - d) = none := by
  have hd := d.isLt
  have hsub := toNat_intBits_sub d
  cases wide with
  | masked => exact absurd (Or.inl rfl) h
  | undefined =>
      by_cases hlt : d.toNat < 32
      · have hzero : d.toNat = 0 := by
          by_contra hpos
          exact h (Or.inr ⟨by omega, hlt⟩)
        exact Or.inr (if_neg (by omega))
      · exact Or.inl (if_neg hlt)

/-- Where a shift is undefined so is the rotation. -/
theorem leftRotate_of_not_defined {wide : WideShift} {d : BitVec 32} (h : ¬ Defined wide d)
    (n : BitVec 32) : leftRotate wide n d = none := by
  rcases places_of_not_defined h with hnone | hnone
  · simp [leftRotate, hnone]
  · simp [leftRotate, hnone]

section Defined

variable {wide : WideShift} {n d : BitVec 32} (hdefined : Defined wide d)

include hdefined

/-- Elsewhere it is two shifts by less than the width. -/
theorem leftRotate_of_defined : leftRotate wide n d =
    some (n <<< (d.toNat % 32) ||| n.sshiftRight ((32 - d.toNat % 32) % 32)) := by
  obtain ⟨hleft, hright⟩ := places_of_defined hdefined
  simp [leftRotate, hleft, hright]

theorem rightRotate_of_defined : rightRotate wide n d =
    some (n.sshiftRight (d.toNat % 32) ||| n <<< ((32 - d.toNat % 32) % 32)) := by
  obtain ⟨hright, hleft⟩ := places_of_defined hdefined
  simp [rightRotate, hleft, hright]

/-- Without a rest nothing is moved. -/
theorem rotate_of_mod_eq_zero (hzero : d.toNat % 32 = 0) :
    leftRotate wide n d = some n ∧ rightRotate wide n d = some n := by
  rw [leftRotate_of_defined hdefined, rightRotate_of_defined hdefined, hzero]
  simp

variable (hpos : 0 < d.toNat % 32)

include hpos

/-- The bits of the rotation to the left. -/
theorem leftRotate_bits : ∃ rotated, leftRotate wide n d = some rotated ∧
    ∀ i < 32, rotated.getLsbD i = if i < d.toNat % 32 then n.getLsbD (32 - d.toNat % 32 + i)
      else n.getLsbD (i - d.toNat % 32) || n.msb := by
  have hlt : d.toNat % 32 < 32 := Nat.mod_lt _ (by decide)
  refine ⟨_, leftRotate_of_defined hdefined, fun i hi => ?_⟩
  rw [Nat.mod_eq_of_lt (by omega : 32 - d.toNat % 32 < 32)]
  exact getLsbD_shiftLeft_or hlt hi

/-- The bits of the rotation to the right. -/
theorem rightRotate_bits : ∃ rotated, rightRotate wide n d = some rotated ∧
    ∀ i < 32, rotated.getLsbD i = if i < 32 - d.toNat % 32 then n.getLsbD (d.toNat % 32 + i)
      else n.msb || n.getLsbD (i - (32 - d.toNat % 32)) := by
  have hlt : d.toNat % 32 < 32 := Nat.mod_lt _ (by decide)
  refine ⟨_, rightRotate_of_defined hdefined, fun i hi => ?_⟩
  rw [Nat.mod_eq_of_lt (by omega : 32 - d.toNat % 32 < 32)]
  exact getLsbD_sshiftRight_or hlt hi

/-- A number without a sign comes back from the left if it has none there
either. -/
theorem leftRotate_undone (hsign : n.msb = false)
    (hmoved : n.getLsbD (31 - d.toNat % 32) = false) :
    (leftRotate wide n d).bind (fun rotated => rightRotate wide rotated d) = some n := by
  have hlt : d.toNat % 32 < 32 := Nat.mod_lt _ (by decide)
  obtain ⟨l, hl, hlbits⟩ := leftRotate_bits (n := n) hdefined hpos
  obtain ⟨m, hm, hmbits⟩ := rightRotate_bits (n := l) hdefined hpos
  have hlsign : l.msb = false := by
    rw [BitVec.msb_eq_getLsbD_last, hlbits 31 (by decide), if_neg (by omega), hmoved, hsign]
    rfl
  have hback : m = n := by
    apply BitVec.eq_of_getLsbD_eq
    intro i hi
    rw [hmbits i hi, hlsign, Bool.false_or]
    split
    · rename_i hlow
      rw [hlbits _ (by omega), if_neg (by omega), Nat.add_sub_cancel_left, hsign, Bool.or_false]
    · rename_i hhigh
      rw [hlbits _ (by omega), if_pos (by omega)]
      congr 1
      omega
  rw [hl, Option.bind_some, hm, hback]

/-- And from the right. -/
theorem rightRotate_undone (hsign : n.msb = false)
    (hmoved : n.getLsbD (d.toNat % 32 - 1) = false) :
    (rightRotate wide n d).bind (fun rotated => leftRotate wide rotated d) = some n := by
  have hlt : d.toNat % 32 < 32 := Nat.mod_lt _ (by decide)
  obtain ⟨l, hl, hlbits⟩ := rightRotate_bits (n := n) hdefined hpos
  obtain ⟨m, hm, hmbits⟩ := leftRotate_bits (n := l) hdefined hpos
  have hlsign : l.msb = false := by
    have hplace : 31 - (32 - d.toNat % 32) = d.toNat % 32 - 1 := by omega
    rw [BitVec.msb_eq_getLsbD_last, hlbits 31 (by decide), if_neg (by omega), hplace, hmoved,
      hsign]
    rfl
  have hback : m = n := by
    apply BitVec.eq_of_getLsbD_eq
    intro i hi
    rw [hmbits i hi, hlsign, Bool.or_false]
    split
    · rename_i hlow
      rw [hlbits _ (by omega), if_neg (by omega), Nat.add_sub_cancel_left, hsign, Bool.false_or]
    · rename_i hhigh
      rw [hlbits _ (by omega), if_pos (by omega)]
      congr 1
      omega
  rw [hl, Option.bind_some, hm, hback]

/-- A set bit that becomes the sign is not undone: the shift back spreads it to
where the sign of the number was. -/
theorem moved_of_leftUndone (hsign : n.msb = false)
    (hundone : (leftRotate wide n d).bind (fun rotated => rightRotate wide rotated d) = some n) :
    n.getLsbD (31 - d.toNat % 32) = false := by
  have hlt : d.toNat % 32 < 32 := Nat.mod_lt _ (by decide)
  obtain ⟨l, hl, hlbits⟩ := leftRotate_bits (n := n) hdefined hpos
  obtain ⟨m, hm, hmbits⟩ := rightRotate_bits (n := l) hdefined hpos
  rw [hl, Option.bind_some, hm] at hundone
  have hlast : m.msb = false := by rw [Option.some.inj hundone, hsign]
  rw [BitVec.msb_eq_getLsbD_last, hmbits 31 (by decide), if_neg (by omega),
    Bool.or_eq_false_iff, BitVec.msb_eq_getLsbD_last, hlbits 31 (by decide),
    if_neg (by omega), Bool.or_eq_false_iff] at hlast
  exact hlast.1.1

/-- A rotation to the right that one to the left undoes has moved no set bit to the sign. -/
theorem moved_of_rightUndone (hsign : n.msb = false)
    (hundone : (rightRotate wide n d).bind (fun rotated => leftRotate wide rotated d) = some n) :
    n.getLsbD (d.toNat % 32 - 1) = false := by
  have hlt : d.toNat % 32 < 32 := Nat.mod_lt _ (by decide)
  obtain ⟨l, hl, hlbits⟩ := rightRotate_bits (n := n) hdefined hpos
  obtain ⟨m, hm, hmbits⟩ := leftRotate_bits (n := l) hdefined hpos
  have hplace : 31 - (32 - d.toNat % 32) = d.toNat % 32 - 1 := by omega
  rw [hl, Option.bind_some, hm] at hundone
  have hlast : m.msb = false := by rw [Option.some.inj hundone, hsign]
  rw [BitVec.msb_eq_getLsbD_last, hmbits 31 (by decide), if_neg (by omega),
    Bool.or_eq_false_iff, BitVec.msb_eq_getLsbD_last, hlbits 31 (by decide),
    if_neg (by omega), hplace, Bool.or_eq_false_iff] at hlast
  exact hlast.2.2

/-- A negative number is rotated right only if it is -1. -/
theorem allOnes_of_negative (hsign : n.msb = true)
    (hleft : ∀ rotated, leftRotate wide n d = some rotated →
      ∀ i < 32, d.toNat % 32 ≤ i → rotated.getLsbD i = n.getLsbD (i - d.toNat % 32))
    (hundone : (leftRotate wide n d).bind (fun rotated => rightRotate wide rotated d) = some n) :
    n = BitVec.allOnes 32 := by
  have hlt : d.toNat % 32 < 32 := Nat.mod_lt _ (by decide)
  obtain ⟨l, hl, hlbits⟩ := leftRotate_bits (n := n) hdefined hpos
  obtain ⟨m, hm, hmbits⟩ := rightRotate_bits (n := l) hdefined hpos
  -- the sign fills all places but the lowest
  have hfilled : ∀ i < 32, d.toNat % 32 ≤ i → l.getLsbD i = true := by
    intro i hi hhigh
    rw [hlbits i hi, if_neg (by omega), hsign, Bool.or_true]
  have hlsign : l.msb = true := by
    rw [BitVec.msb_eq_getLsbD_last]
    exact hfilled 31 (by decide) (by omega)
  rw [hl, Option.bind_some, hm] at hundone
  apply BitVec.eq_of_getLsbD_eq
  intro i hi
  rw [BitVec.getLsbD_allOnes, decide_eq_true hi]
  by_cases hlow : i < 32 - d.toNat % 32
  · have hbit := hleft l hl (i + d.toNat % 32) (by omega) (by omega)
    rw [Nat.add_sub_cancel, hfilled _ (by omega) (by omega)] at hbit
    exact hbit.symm
  · rw [← Option.some.inj hundone, hmbits i hi, if_neg hlow, hlsign, Bool.true_or]

/-- A number of set bits stays what it is. -/
theorem rotate_of_allSet (hall : ∀ i < 32, n.getLsbD i = true) :
    leftRotate wide n d = some n ∧ rightRotate wide n d = some n := by
  have hlt : d.toNat % 32 < 32 := Nat.mod_lt _ (by decide)
  obtain ⟨l, hl, hlbits⟩ := leftRotate_bits (n := n) hdefined hpos
  obtain ⟨m, hm, hmbits⟩ := rightRotate_bits (n := n) hdefined hpos
  have hsign : n.msb = true := by
    rw [BitVec.msb_eq_getLsbD_last]
    exact hall 31 (by decide)
  have hleft : l = n := by
    apply BitVec.eq_of_getLsbD_eq
    intro i hi
    rw [hlbits i hi, hsign, Bool.or_true, hall i hi]
    split
    · exact hall _ (by omega)
    · rfl
  have hright : m = n := by
    apply BitVec.eq_of_getLsbD_eq
    intro i hi
    rw [hmbits i hi, hsign, Bool.true_or, hall i hi]
    split
    · exact hall _ (by omega)
    · rfl
  rw [hl, hm, hleft, hright]
  exact ⟨rfl, rfl⟩

end Defined

/-! ## When they are rotations -/

/-- The place a bit of the rotation to the left comes from. -/
theorem leftPlace_eq {d i : Nat} (hi : i < 32) : (((i : Int) - d) % 32).toNat =
    if i < d % 32 then 32 - d % 32 + i else i - d % 32 := by
  split <;> omega

/-- Where a bit goes, by the two shifts. -/
theorem rightPlace_eq {d i : Nat} (hi : i < 32) : (i + d) % 32 =
    if i < 32 - d % 32 then d % 32 + i else i - (32 - d % 32) := by
  split <;> omega

/-- Without a sign to copy the shifts rotate. -/
theorem SignFree.rotates {wide : WideShift} {n d : BitVec 32} (hdefined : Defined wide d)
    (h : SignFree n (d.toNat % 32)) : Rotates wide n d := by
  by_cases hzero : d.toNat % 32 = 0
  · obtain ⟨hleft, hright⟩ := rotate_of_mod_eq_zero (n := n) hdefined hzero
    refine ⟨⟨n, hleft, fun i hi => ?_⟩, ⟨n, hright, fun i hi => ?_⟩, ?_, ?_⟩
    · rw [leftPlace_eq hi, hzero, if_neg (Nat.not_lt_zero i), Nat.sub_zero]
    · rw [rightPlace_eq hi, hzero, if_pos (by omega), Nat.zero_add]
    · rw [hleft, Option.bind_some, hright]
    · rw [hright, Option.bind_some, hleft]
  have hpos : 0 < d.toNat % 32 := by omega
  rcases h with hzero' | hones | ⟨hsign, hleftMoved, hrightMoved⟩
  · exact absurd hzero' hzero
  · have hall : ∀ i < 32, n.getLsbD i = true := by
      intro i hi
      rw [hones, BitVec.getLsbD_allOnes, decide_eq_true hi]
    obtain ⟨hleft, hright⟩ := rotate_of_allSet hdefined hpos hall
    refine ⟨⟨n, hleft, fun i hi => ?_⟩, ⟨n, hright, fun i hi => ?_⟩, ?_, ?_⟩
    · rw [hall i hi, hall _ (by omega)]
    · rw [hall i hi, hall _ (by omega)]
    · rw [hleft, Option.bind_some, hright]
    · rw [hright, Option.bind_some, hleft]
  · obtain ⟨l, hl, hlbits⟩ := leftRotate_bits (n := n) hdefined hpos
    obtain ⟨m, hm, hmbits⟩ := rightRotate_bits (n := n) hdefined hpos
    refine ⟨⟨l, hl, fun i hi => ?_⟩, ⟨m, hm, fun i hi => ?_⟩,
      leftRotate_undone hdefined hpos hsign hleftMoved,
      rightRotate_undone hdefined hpos hsign hrightMoved⟩
    · rw [hlbits i hi, leftPlace_eq hi, hsign, Bool.or_false]
      split <;> rfl
    · rw [hmbits i hi, rightPlace_eq hi, hsign, Bool.false_or]
      split <;> rfl

/-- **Rotations.**  They are rotations of the word and undo each other exactly
where the shifts are defined and the sign does not get in the way. -/
theorem rotates_iff (wide : WideShift) (n d : BitVec 32) :
    Rotates wide n d ↔ Defined wide d ∧ SignFree n (d.toNat % 32) := by
  constructor
  · intro h
    have hdefined : Defined wide d := by
      by_contra hnot
      obtain ⟨rotated, hleft, -⟩ := h.left
      rw [leftRotate_of_not_defined hnot] at hleft
      cases hleft
    refine ⟨hdefined, ?_⟩
    by_cases hzero : d.toNat % 32 = 0
    · exact Or.inl hzero
    have hpos : 0 < d.toNat % 32 := by omega
    cases hsign : n.msb with
    | true =>
        refine Or.inr (Or.inl (allOnes_of_negative hdefined hpos hsign ?_ h.leftUndone))
        intro rotated hrotated i hi hhigh
        obtain ⟨l, hl, hlbits⟩ := h.left
        obtain rfl := Option.some.inj (hl.symm.trans hrotated)
        rw [hlbits i hi, leftPlace_eq hi, if_neg (by omega)]
    | false =>
        exact Or.inr (Or.inr ⟨hsign, moved_of_leftUndone hdefined hpos hsign h.leftUndone,
          moved_of_rightUndone hdefined hpos hsign h.rightUndone⟩)
  · intro h
    exact h.2.rotates h.1

/-- The number -2 is rotated to the left by one place: the sign covers the bit
that was not set. -/
theorem rotate_spreads_sign : ¬ Rotates .masked (-2) 1 ∧ ¬ Rotates .undefined (-2) 1 := by
  constructor
  · intro h
    obtain ⟨rotated, hleft, hbits⟩ := h.left
    obtain rfl : -1 = rotated := Option.some.inj hleft
    exact absurd (hbits 1 (by decide)) (by decide)
  · intro h
    obtain ⟨rotated, hleft, hbits⟩ := h.left
    obtain rfl : -1 = rotated := Option.some.inj hleft
    exact absurd (hbits 1 (by decide)) (by decide)

end Rotations
