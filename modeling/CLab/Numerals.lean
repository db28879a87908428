import Mathlib.Data.Nat.Digits.Lemmas
import Mathlib.Data.List.GetD

/-!
# Numerals of a fixed width, and lines

What `printf` writes for `%0wd` and `%0wo`, and how it is read back: a number
that fits is written with exactly `w` digits (`padded_length`), and the digits
have its value (`value_padded`).  Lines that are written one after the other are
the lines of the text (`textLines_unlines`).
-/

namespace Numerals

/-- The digit of a value, as a character. -/
def digitChar (d : Nat) : UInt8 := UInt8.ofNat (48 + d)

/-- The digits of a number, most significant first, with zeros in front up to
the width. -/
def padded (base width n : Nat) : List UInt8 :=
  ((Nat.digits base n ++ List.replicate (width - (Nat.digits base n).length) 0).reverse).map
    digitChar

/-- The number that a text of digits writes. -/
def value (base : Nat) (text : List UInt8) : Nat :=
  text.foldl (fun v ch => base * v + (ch.toNat - 48)) 0

/-- A digit of the base. -/
def isDigitOf (base : Nat) (ch : UInt8) : Bool :=
  48 ≤ ch.toNat && ch.toNat < 48 + base

/-- A numeral of the base, read. -/
def read (base : Nat) (text : List UInt8) : Option Nat :=
  if text ≠ [] ∧ text.all (isDigitOf base) = true then some (value base text) else none

/-- The digits follow one another. -/
theorem digitChar_toNat {d : Nat} (h : d < 10) : (digitChar d).toNat = 48 + d := by
  rw [digitChar, UInt8.toNat_ofNat']
  omega

/-- A numeral has a digit. -/
theorem padded_ne_nil {base width : Nat} (hwidth : 0 < width) (n : Nat) :
    padded base width n ≠ [] := by
  intro hnil
  have hlength := congrArg List.length hnil
  simp only [padded, List.length_map, List.length_reverse, List.length_append,
    List.length_replicate, List.length_nil] at hlength
  omega

section Base

variable {base : Nat} (hbase : 1 < base) (hten : base ≤ 10)

include hbase

/-- The digits behind a numeral are digits. -/
theorem padded_digit_lt (width n : Nat) {d : Nat}
    (h : d ∈ Nat.digits base n ++ List.replicate (width - (Nat.digits base n).length) 0) :
    d < base := by
  rcases List.mem_append.mp h with hd | hd
  · exact Nat.digits_lt_base hbase hd
  · rw [List.eq_of_mem_replicate hd]
    omega

/-- A number below `base ^ width` is written with `width` digits. -/
theorem padded_length {width n : Nat} (h : n < base ^ width) :
    (padded base width n).length = width := by
  have hlength := (Nat.digits_length_le_iff hbase n).mpr h
  simp only [padded, List.length_map, List.length_reverse, List.length_append,
    List.length_replicate]
  omega

include hten

/-- A padded numeral is written in digits. -/
theorem padded_isDigit (width n : Nat) :
    ∀ ch ∈ padded base width n, isDigitOf base ch = true := by
  intro ch hch
  obtain ⟨d, hd, rfl⟩ := List.mem_map.mp hch
  have hlt := padded_digit_lt hbase width n (List.mem_reverse.mp hd)
  rw [isDigitOf, digitChar_toNat (Nat.lt_of_lt_of_le hlt hten)]
  simp [hlt]

/-- **A numeral has the value it was written for.** -/
theorem value_padded (width n : Nat) : value base (padded base width n) = n := by
  have hfold : ∀ ds : List Nat, (∀ d ∈ ds, d < base) →
      ds.foldr (fun d v => base * v + ((digitChar d).toNat - 48)) 0 = Nat.ofDigits base ds := by
    intro ds hds
    induction ds with
    | nil => rfl
    | cons d ds ih =>
        have hd := hds d (by simp)
        rw [List.foldr_cons, ih (fun e he => hds e (by simp [he])), Nat.ofDigits_cons,
          digitChar_toNat (Nat.lt_of_lt_of_le hd hten), Nat.add_sub_cancel_left, Nat.add_comm]
  rw [value, padded, List.foldl_map, List.foldl_reverse,
    hfold _ (fun d hd => padded_digit_lt hbase width n hd),
    Nat.ofDigits_append_replicate_zero, Nat.ofDigits_digits]

theorem read_padded {width : Nat} (hwidth : 0 < width) (n : Nat) :
    read base (padded base width n) = some n := by
  have hdigits : (padded base width n).all (isDigitOf base) = true :=
    List.all_eq_true.mpr (padded_isDigit hbase hten width n)
  rw [read, if_pos ⟨padded_ne_nil hwidth n, hdigits⟩, value_padded hbase hten]

end Base

/-! ## Lines -/

section Lines

variable {α : Type*} [DecidableEq α] (newline : α)

/-- Lines, each closed by a newline. -/
def unlines (lines : List (List α)) : List α :=
  lines.flatMap (fun line => line ++ [newline])

/-- The lines of a text that closes its last line. -/
def textLines : List α → List (List α)
  | [] => []
  | ch :: text =>
      if ch = newline then [] :: textLines text
      else match textLines text with
        | [] => [[ch]]
        | line :: lines => (ch :: line) :: lines

variable {newline}

/-- **What was written line by line is read line by line.** -/
theorem textLines_unlines {lines : List (List α)} (h : ∀ line ∈ lines, newline ∉ line) :
    textLines newline (unlines newline lines) = lines := by
  induction lines with
  | nil => rfl
  | cons line lines ih =>
      have hrest := ih (fun l hl => h l (by simp [hl]))
      have hline : ∀ front : List α, newline ∉ front →
          textLines newline (front ++ newline :: unlines newline lines) = front :: lines := by
        intro front hfront
        induction front with
        | nil => simp [textLines, hrest]
        | cons ch front ihf =>
            rw [List.mem_cons, not_or] at hfront
            rw [List.cons_append, textLines, if_neg (Ne.symm hfront.1), ihf hfront.2]
      have hsplit : unlines newline (line :: lines) =
          line ++ newline :: unlines newline lines := by
        simp [unlines]
      rw [hsplit]
      exact hline line (h line (by simp))

omit [DecidableEq α] in
/-- Two runs of lines are written one behind the other. -/
theorem unlines_append (lines lines' : List (List α)) :
    unlines newline (lines ++ lines') = unlines newline lines ++ unlines newline lines' := by
  simp [unlines]

end Lines

end Numerals
