import Mathlib.Algebra.Group.Nat.Defs
import Mathlib.Tactic.Common
import Mathlib.Data.List.TakeDrop
import Mathlib.Data.List.TakeWhile
import Mathlib.Data.List.GetD
import Mathlib.Tactic.ByContra

/-!
# Characters and strings

`char_util.c` and the part of `string_util.c` that every stage of the
assembler uses.  A C `char` is a byte; the string module never stores a NUL,
so a `String` of the source is a list of bytes together with a proof that none
of them is zero.  Its length is the length of that list; the capacity, which no
stage reads, is left out, and with it only which strings fit (`StringFits`).
-/

namespace Assembler

/-- The characters of a string literal. -/
def bytes (text : String) : List UInt8 :=
  text.toList.map Char.toUInt8

/-- `EOF` stored in a `char`: the byte `0xFF`. -/
def eofChar : UInt8 := 255

/-- The value of a C `char`, which is signed on the build platform. -/
def charToInt (ch : UInt8) : Int :=
  if ch.toNat < 128 then ch.toNat else (ch.toNat : Int) - 256

/-- A `char` has eight bits. -/
theorem charToInt_bounds (ch : UInt8) : -128 ≤ charToInt ch ∧ charToInt ch ≤ 127 := by
  have hlt := ch.toNat_lt
  simp only [charToInt]
  split_ifs <;> omega

/-- What holds of each of the 256 characters holds of every character. -/
theorem forall_char {P : UInt8 → Prop} (h : ∀ n : Fin 256, P (UInt8.ofFin n)) (ch : UInt8) :
    P ch := by
  simpa using h ch.toFin

/-! ## `char_util.c` -/

/-- `strchr` also finds the terminator, so the NUL character exists in every
string. -/
def charExistsInString (target : UInt8) (str : List UInt8) : Bool :=
  target == 0 || str.contains target

/-- `is_whitespace`, without the line break. -/
def isWhitespace (ch : UInt8) : Bool :=
  ch == ' '.toUInt8 || ch == '\t'.toUInt8 || ch == '\r'.toUInt8

/-- `is_digit`. -/
def isDigit (ch : UInt8) : Bool :=
  '0'.toUInt8 ≤ ch && ch ≤ '9'.toUInt8

/-- `is_valid_identifier_start`. -/
def isValidIdentifierStart (ch : UInt8) : Bool :=
  ('a'.toUInt8 ≤ ch && ch ≤ 'z'.toUInt8) || ('A'.toUInt8 ≤ ch && ch ≤ 'Z'.toUInt8)

/-- `is_valid_identifier_char`. -/
def isValidIdentifierChar (ch : UInt8) : Bool :=
  isValidIdentifierStart ch || isDigit ch

/-! ## `string_util.c` -/

/-- A `String` of the source: its characters, none of them NUL. -/
structure CString where
  data : List UInt8
  noNul : 0 ∉ data
deriving DecidableEq

/-- Two strings with the same characters are the same string. -/
@[ext] theorem CString.ext {s t : CString} (h : s.data = t.data) : s = t := by
  cases s
  cases t
  cases h
  rfl

/-- A string grows into a block whose size is a power of two and an `unsigned int`:
the size that comes behind 2^31 is zero. -/
def StringFits (text : CString) : Prop := text.data.length < 2 ^ 31

instance (text : CString) : Decidable (StringFits text) := Nat.decLt _ _

/-- No character of a string is NUL. -/
theorem CString.getElem_ne_zero (str : CString) {i : Nat} (hi : i < str.data.length) :
    str.data[i] ≠ 0 := by
  intro hzero
  exact str.noNul (hzero ▸ List.getElem_mem hi)

/-- `string_create`, the empty string. -/
def stringCreate : CString := ⟨[], by simp⟩

/-- What a C string holds: the characters in front of the first NUL. -/
def cstrText (data : List UInt8) : List UInt8 :=
  data.takeWhile (· != 0)

/-- What a C string holds has no NUL. -/
theorem zero_not_mem_cstrText (data : List UInt8) : 0 ∉ cstrText data := by
  intro h
  simpa using List.mem_takeWhile_imp h

/-- A text without a NUL is its own C string. -/
theorem cstrText_of_noNul {data : List UInt8} (h : 0 ∉ data) :
    cstrText data = data :=
  List.takeWhile_eq_self_iff.mpr (by grind)

/-- `string_create_from_cstr`, a copy up to the NUL. -/
def stringCreateFromCstr (data : List UInt8) : CString :=
  ⟨cstrText data, zero_not_mem_cstrText data⟩

/-- `string_append_cstr`, which stops at the NUL. -/
def stringAppendCstr (str : CString) (cstr : List UInt8) : CString :=
  ⟨str.data ++ cstrText cstr, by simp [str.noNul, zero_not_mem_cstrText]⟩

/-- `string_append`, by way of the text of the second string. -/
def stringAppend (dest src : CString) : CString :=
  stringAppendCstr dest src.data

/-- NUL characters are dropped. -/
def stringAppendChar (str : CString) (ch : UInt8) : CString :=
  if h : ch = 0 then str else ⟨str.data ++ [ch], by simp [str.noNul, Ne.symm h]⟩

/-- NUL outside the string. -/
def stringCharAt (str : CString) (index : Nat) : UInt8 :=
  str.data.getD index 0

/-- `string_length`, a field of the source. -/
def stringLength (str : CString) : Nat := str.data.length

/-- `string_equals`, the length first. -/
def stringEquals (str1 str2 : CString) : Bool :=
  str1.data.length == str2.data.length && str1.data == str2.data

/-- `string_equals_cstr`. -/
def stringEqualsCstr (str1 : CString) (str2 : List UInt8) : Bool :=
  str1.data == str2

/-- The characters from `start` to `end_`, both included, as far as the string
reaches. -/
def stringSubstring (str : CString) (start end_ : Nat) : CString :=
  ⟨(str.data.drop start).take (end_ + 1 - start), fun h =>
    str.noNul (List.mem_of_mem_drop (List.mem_of_mem_take h))⟩

@[simp] theorem stringCreate_data : stringCreate.data = [] := rfl

@[simp] theorem stringAppendCstr_data (str : CString) (cstr : List UInt8) :
    (stringAppendCstr str cstr).data = str.data ++ cstrText cstr := rfl

@[simp] theorem stringAppend_data (dest src : CString) :
    (stringAppend dest src).data = dest.data ++ src.data := by
  simp [stringAppend, cstrText_of_noNul src.noNul]

theorem stringAppendChar_data {str : CString} {ch : UInt8} (h : ch ≠ 0) :
    (stringAppendChar str ch).data = str.data ++ [ch] := by
  simp [stringAppendChar, h]

/-- Equal strings are the same string. -/
theorem stringEquals_iff {str1 str2 : CString} : stringEquals str1 str2 = true ↔ str1 = str2 := by
  constructor
  · intro h
    simp only [stringEquals, Bool.and_eq_true, beq_iff_eq] at h
    exact CString.ext h.2
  · intro heq
    obtain rfl := heq
    simp [stringEquals]

/-- Inside the string, `string_char_at` reads a character, which is not NUL. -/
theorem stringCharAt_ne_zero_iff {str : CString} {index : Nat} :
    stringCharAt str index ≠ 0 ↔ index < str.data.length := by
  constructor
  · intro h
    by_contra hge
    exact h (List.getD_eq_default _ _ (by omega))
  · intro h heq
    rw [stringCharAt, List.getD_eq_getElem _ _ h] at heq
    exact str.getElem_ne_zero h heq

end Assembler
