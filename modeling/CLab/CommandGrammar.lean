import CLab.CommandLine

/-!
# The command lines that are valid

The language of the command lines, with blanks wherever the program allows
them, and the proof that `vldcmdln` accepts exactly its lines
(`vldcmdln_valid_iff`).
-/

namespace SetCalculator

open Assembler (bytes forall_char)
open SetMachine (Command Operation)

/-! ## The language -/

/-- A text of blanks. -/
def Blank (text : List UInt8) : Prop :=
  ∀ ch ∈ text, isspace ch = true

/-- A number from 0 to 127 as it has to be written: without a sign and without
zeros in front. -/
def decimal (n : Fin 128) : List UInt8 :=
  if n.val < 10 then [Numerals.digitChar n]
  else if n.val < 100 then [Numerals.digitChar (n / 10), Numerals.digitChar (n % 10)]
  else [Numerals.digitChar (n / 100), Numerals.digitChar (n / 10 % 10),
    Numerals.digitChar (n % 10)]

/-- The numbers behind the set name of `read_set`, up to and with the `-1`, and
what stands behind it. -/
inductive Members : List UInt8 → List (Fin 128) → List UInt8 → Prop
  | done {blank blank' rest : List UInt8} (hblank : Blank blank) (hblank' : Blank blank')
      (hrest : Blank rest) :
      Members (blank ++ comma :: (blank' ++ (bytes "-1" ++ rest))) [] rest
  | more {blank blank' behind rest : List UInt8} {n : Fin 128} {numbers : List (Fin 128)}
      (hblank : Blank blank) (hblank' : Blank blank') (hbehind : Members behind numbers rest) :
      Members (blank ++ comma :: (blank' ++ (decimal n ++ behind))) (n :: numbers) rest

/-- The name of a two-set command. -/
def operationName : Operation → CommandName
  | .union => .unionSet
  | .inter => .intersectSet
  | .diff => .subSet
  | .symdiff => .symdiffSet

/-- What a line asks for. -/
inductive Request
  | command (c : Command SetName (Fin 128))
  | stop

/-- A line from its command name on. -/
inductive Sentence : List UInt8 → Request → Prop
  | read {blank behind rest : List UInt8} {x : SetName} {numbers : List (Fin 128)}
      (hblank : Blank blank) (hmembers : Members behind numbers rest) :
      Sentence (CommandName.readSet.text ++ (blank ++ (sets.get x ++ behind)))
        (.command (.read x numbers))
  | print {blank rest : List UInt8} {x : SetName} (hblank : Blank blank) (hrest : Blank rest) :
      Sentence (CommandName.printSet.text ++ (blank ++ (sets.get x ++ rest))) (.command (.print x))
  | combine {operation : Operation} {blank blank1 blank1' blank2 blank2' rest : List UInt8}
      {first second result : SetName} (hblank : Blank blank) (hblank1 : Blank blank1)
      (hblank1' : Blank blank1') (hblank2 : Blank blank2) (hblank2' : Blank blank2')
      (hrest : Blank rest) :
      Sentence ((operationName operation).text ++ (blank ++ (sets.get first ++ (blank1 ++
        comma :: (blank1' ++ (sets.get second ++ (blank2 ++
          comma :: (blank2' ++ (sets.get result ++ rest)))))))))
        (.command (.combine operation first second result))
  | stop {rest : List UInt8} (hrest : Blank rest) : Sentence (CommandName.stop.text ++ rest) .stop

/-- What a line means: blanks, then a sentence. -/
def Denotes (line : List UInt8) (request : Request) : Prop :=
  ∃ blank sentence, Blank blank ∧ line = blank ++ sentence ∧ Sentence sentence request

/-! ## Blanks, names and numbers at the front of a line -/

/-- The terminator is no blank. -/
theorem isspace_zero : isspace 0 = false := by decide

/-- Two texts of blanks are one. -/
theorem Blank.append {text text' : List UInt8} (h : Blank text) (h' : Blank text') :
    Blank (text ++ text') := by
  intro ch hch
  rcases List.mem_append.mp hch with hch | hch
  · exact h ch hch
  · exact h' ch hch

/-- Whether a text is one can be computed. -/
theorem blank_iff_all {text : List UInt8} : text.all isspace = true ↔ Blank text :=
  List.all_eq_true

/-- A line that does not begin with a blank. -/
def Front (line : List UInt8) : Prop :=
  isspace (charAt line) = false

/-- An empty text has no blank in front. -/
theorem front_nil : Front [] := isspace_zero

/-- The blanks at the front of a line, and the rest. -/
theorem exists_front (line : List UInt8) :
    ∃ blank rest, Blank blank ∧ Front rest ∧ line = blank ++ rest := by
  induction line with
  | nil => exact ⟨[], [], by simp [Blank], front_nil, rfl⟩
  | cons ch line ih =>
      by_cases hch : isspace ch = true
      · obtain ⟨blank, rest, hblank, hfront, hline⟩ := ih
        refine ⟨ch :: blank, rest, ?_, hfront, by rw [hline]; rfl⟩
        intro d hd
        rcases List.mem_cons.mp hd with rfl | hd
        · exact hch
        · exact hblank d hd
      · exact ⟨[], ch :: line, by simp [Blank], by simpa [Front, charAt] using hch, rfl⟩

/-- Skipping blanks leaves what stands behind them. -/
theorem dropWhile_blank {blank rest : List UInt8} (hblank : Blank blank) (hfront : Front rest) :
    (blank ++ rest).dropWhile isspace = rest := by
  rw [List.dropWhile_append_of_pos hblank]
  cases rest with
  | nil => rfl
  | cons ch rest => exact List.dropWhile_cons_of_neg (by simpa [Front, charAt] using hfront)

/-- A set name at the front of the line is found, whichever it is. -/
theorem vldsetname_sets (x : SetName) (rest : List UInt8) :
    vldsetname (sets.get x ++ rest) = some x := by
  match x with
  | 0 | 1 | 2 | 3 | 4 | 5 => rfl

/-- A set name that is recognized stands in front. -/
theorem vldsetname_eq_some {line : List UInt8} {x : SetName} (h : vldsetname line = some x) :
    ∃ rest, line = sets.get x ++ rest := by
  have hprefix := List.find?_some h
  obtain ⟨rest, hrest⟩ := List.isPrefixOf_iff_prefix.mp hprefix
  exact ⟨rest, hrest.symm⟩

/-- A command is recognized at the front of a line. -/
theorem vldcmdname_text (command : CommandName) (rest : List UInt8) :
    vldcmdname (command.text ++ rest) = some command := by
  cases command <;> rfl

theorem vldcmdname_eq_some {line : List UInt8} {command : CommandName}
    (h : vldcmdname line = some command) : ∃ rest, line = command.text ++ rest := by
  have hprefix := List.find?_some h
  obtain ⟨rest, hrest⟩ := List.isPrefixOf_iff_prefix.mp hprefix
  exact ⟨rest, hrest.symm⟩

/-! ## Numbers at the front of a line -/

/-- A digit is the character of its value. -/
theorem digitChar_of_isdigit : ∀ ch : UInt8, isdigit ch = true →
    Numerals.digitChar (ch.toNat - 48) = ch ∧ 48 ≤ ch.toNat ∧ ch.toNat - 48 < 10 :=
  forall_char (by decide +kernel)

/-- A digit is no blank, no sign and no comma. -/
theorem isdigit_not_special : ∀ ch : UInt8, isdigit ch = true →
    isspace ch = false ∧ ch ≠ '-'.toUInt8 ∧ ch ≠ '+'.toUInt8 ∧ ch ≠ comma ∧ ch ≠ 0 :=
  forall_char (by decide +kernel)

/-- A member is written in digits and read back from them. -/
theorem decimal_digits : ∀ n : Fin 128, decimal n ≠ [] ∧
    (∀ ch ∈ decimal n, isdigit ch = true) ∧ Numerals.value 10 (decimal n) = n := by
  decide +kernel

/-- What `strtol` returns once the sign is known. -/
def strtolDigits (negative : Bool) (text unsigned : List UInt8) : Int × List UInt8 :=
  if unsigned.takeWhile isdigit = [] then (0, text)
  else
    let value : Int := Numerals.value 10 (unsigned.takeWhile isdigit)
    (if negative then max (-longMax - 1) (-value) else min longMax value,
      unsigned.dropWhile isdigit)

section Strtol

variable {text : List UInt8} (hfront : Front text)

include hfront

/-- Nothing is skipped where no blank stands. -/
theorem dropWhile_front : text.dropWhile isspace = text := by
  have hnone : Blank [] := by simp [Blank]
  exact dropWhile_blank hnone hfront

/-- `strtol` behind a minus. -/
theorem strtol_minus (hsign : charAt text = '-'.toUInt8) :
    strtol text = strtolDigits true text text.tail := by
  simp only [strtol, dropWhile_front hfront, hsign, true_or, if_true, strtolDigits]

theorem strtol_plus (hsign : charAt text = '+'.toUInt8) :
    strtol text = strtolDigits false text text.tail := by
  have hminus : ('+'.toUInt8 : UInt8) ≠ '-'.toUInt8 := by decide
  simp only [strtol, dropWhile_front hfront, hsign, hminus, false_or, if_true, if_false,
    strtolDigits, Bool.false_eq_true]

theorem strtol_unsigned (hminus : charAt text ≠ '-'.toUInt8)
    (hplus : charAt text ≠ '+'.toUInt8) :
    strtol text = strtolDigits false text text := by
  simp only [strtol, dropWhile_front hfront, hminus, hplus, or_self, if_false, strtolDigits,
    Bool.false_eq_true]

end Strtol

/-- The digits at the front of a text that goes on without one. -/
theorem takeWhile_digits {digits rest : List UInt8} (hdigits : ∀ ch ∈ digits, isdigit ch = true)
    (hrest : isdigit (charAt rest) = false) :
    (digits ++ rest).takeWhile isdigit = digits ∧ (digits ++ rest).dropWhile isdigit = rest := by
  rw [List.takeWhile_append_of_pos hdigits, List.dropWhile_append_of_pos hdigits]
  cases rest with
  | nil => simp
  | cons ch rest =>
      have hch : ¬ isdigit ch = true := by simpa [charAt] using hrest
      rw [List.takeWhile_cons_of_neg hch, List.dropWhile_cons_of_neg hch, List.append_nil]
      exact ⟨rfl, rfl⟩

/-- It reads the digits, saturates, and stops behind them. -/
theorem strtolDigits_eq {digits rest : List UInt8} (hne : digits ≠ [])
    (hdigits : ∀ ch ∈ digits, isdigit ch = true) (hrest : isdigit (charAt rest) = false)
    (negative : Bool) (text : List UInt8) :
    strtolDigits negative text (digits ++ rest) =
      (if negative then max (-longMax - 1) (-(Numerals.value 10 digits : Int))
        else min longMax (Numerals.value 10 digits), rest) := by
  obtain ⟨htake, hdrop⟩ := takeWhile_digits hdigits hrest
  rw [strtolDigits, htake, hdrop, if_neg hne]

/-- A text of digits begins with a digit, whatever stands behind. -/
theorem charAt_append {digits : List UInt8} (hne : digits ≠ [])
    (hdigits : ∀ ch ∈ digits, isdigit ch = true) (rest : List UInt8) :
    isdigit (charAt (digits ++ rest)) = true := by
  obtain ⟨ch, digits, rfl⟩ := List.exists_cons_of_ne_nil hne
  exact hdigits ch List.mem_cons_self

/-- A number written in decimal is read, up to what stands behind it. -/
theorem strtol_decimal (n : Fin 128) {rest : List UInt8}
    (hrest : isdigit (charAt rest) = false) :
    strtol (decimal n ++ rest) = ((n.val : Int), rest) := by
  obtain ⟨hne, hdigits, hvalue⟩ := decimal_digits n
  have hchar := isdigit_not_special _ (charAt_append hne hdigits rest)
  rw [strtol_unsigned hchar.1 hchar.2.1 hchar.2.2.1, strtolDigits_eq hne hdigits hrest, hvalue]
  refine Prod.ext ?_ rfl
  show min longMax (n.val : Int) = n.val
  have hlt := n.isLt
  simp only [longMax]
  omega

/-- The text `-1` is read as the end of the numbers. -/
theorem strtol_minus_one {rest : List UInt8} (hrest : isdigit (charAt rest) = false) :
    strtol (bytes "-1" ++ rest) = (-1, rest) := by
  have hread : strtol (bytes "-1" ++ rest) =
      strtolDigits true (bytes "-1" ++ rest) (bytes "1" ++ rest) := strtol_minus rfl rfl
  have hne : bytes "1" ≠ [] := List.cons_ne_nil _ _
  have hdigits : ∀ ch ∈ bytes "1", isdigit ch = true := List.forall_mem_singleton.mpr rfl
  rw [hread, strtolDigits_eq hne hdigits hrest]
  rfl

/-- Digits with the value of a number up to 127 write it in decimal, or have
more digits than that. -/
theorem decimal_or_longer {digits : List UInt8} (hne : digits ≠ [])
    (hdigits : ∀ ch ∈ digits, isdigit ch = true) (n : Fin 128)
    (hvalue : Numerals.value 10 digits = n) :
    digits = decimal n ∨ (decimal n).length < digits.length := by
  have hn := n.isLt
  match digits, hne with
  | [a], _ =>
      obtain ⟨ha, hle, hlt⟩ := digitChar_of_isdigit a (hdigits a (by simp))
      have hval : a.toNat - 48 = n := by simpa [Numerals.value] using hvalue
      left
      rw [decimal, if_pos (by omega), ← hval, ha]
  | [a, b], _ =>
      obtain ⟨ha, hale, halt⟩ := digitChar_of_isdigit a (hdigits a (by simp))
      obtain ⟨hb, hble, hblt⟩ := digitChar_of_isdigit b (hdigits b (by simp))
      have hval : 10 * (a.toNat - 48) + (b.toNat - 48) = n := by
        simpa [Numerals.value] using hvalue
      by_cases hten : n.val < 10
      · right
        simp [decimal, hten]
      · left
        have hdiv : n.val / 10 = a.toNat - 48 := by omega
        have hmod : n.val % 10 = b.toNat - 48 := by omega
        rw [decimal, if_neg hten, if_pos (by omega), hdiv, hmod, ha, hb]
  | [a, b, c], _ =>
      obtain ⟨ha, hale, halt⟩ := digitChar_of_isdigit a (hdigits a (by simp))
      obtain ⟨hb, hble, hblt⟩ := digitChar_of_isdigit b (hdigits b (by simp))
      obtain ⟨hc, hcle, hclt⟩ := digitChar_of_isdigit c (hdigits c (by simp))
      have hval : 10 * (10 * (a.toNat - 48) + (b.toNat - 48)) + (c.toNat - 48) = n := by
        simpa [Numerals.value] using hvalue
      by_cases hhundred : n.val < 100
      · right
        unfold decimal
        split_ifs <;> simp
      · left
        have h1 : n.val / 100 = a.toNat - 48 := by omega
        have h2 : n.val / 10 % 10 = b.toNat - 48 := by omega
        have h3 : n.val % 10 = c.toNat - 48 := by omega
        rw [decimal, if_neg (by omega), if_neg hhundred, h1, h2, h3, ha, hb, hc]
  | a :: b :: c :: d :: digits, _ =>
      right
      unfold decimal
      split_ifs <;> simp

/-! ## What `vldnum` finds -/

/-- The number of digits of a value up to 127. -/
theorem decimal_length (n : Fin 128) :
    (decimal n).length = if n.val < 10 then 1 else if n.val < 100 then 2 else 3 := by
  unfold decimal
  split_ifs <;> rfl

/-- A valid value is answered with its number of digits, and any other value
than -1 with 0. -/
theorem vldnum_of_value {line : List UInt8} (n : Fin 128) (hnum : (strtol line).1 = n.val)
    (hzero : n.val = 0 → charAt line = '0'.toUInt8) :
    vldnum line = (((decimal n).length : Int), none) := by
  have hn := n.isLt
  rw [decimal_length]
  simp only [vldnum, hnum]
  by_cases h0 : n.val = 0
  · rw [hzero h0, h0]
    rfl
  by_cases h1 : n.val < 10
  · rw [if_neg (by omega), if_pos (by omega), if_pos h1]
    rfl
  by_cases h2 : n.val < 100
  · rw [if_neg (by omega), if_neg (by omega), if_pos (by omega), if_neg h1, if_pos h2]
    rfl
  · rw [if_neg (by omega), if_neg (by omega), if_neg (by omega), if_pos (by omega), if_neg h1,
      if_neg h2]
    rfl

/-- What is no number in range gives zero. -/
theorem vldnum_zero {line : List UInt8} (hneg : (strtol line).1 ≠ -1)
    (hrange : ¬ (1 ≤ (strtol line).1 ∧ (strtol line).1 ≤ 127))
    (hzero : (strtol line).1 = 0 → charAt line ≠ '0'.toUInt8) : (vldnum line).1 = 0 := by
  simp only [vldnum]
  rw [if_neg hneg, if_neg (by omega), if_neg (by omega), if_neg (by omega)]
  by_cases hout : (strtol line).1 < 0 ∨ 127 < (strtol line).1
  · rw [if_pos hout]
  · rw [if_neg hout, if_neg (hzero (by omega))]

/-- A valid number is answered with its length. -/
theorem vldnum_decimal (n : Fin 128) {rest : List UInt8}
    (hrest : isdigit (charAt rest) = false) :
    vldnum (decimal n ++ rest) = (((decimal n).length : Int), none) := by
  apply vldnum_of_value n (by rw [strtol_decimal n hrest])
  intro hn
  rw [decimal, if_pos (by omega), hn]
  rfl

theorem vldnum_minus_one {rest : List UInt8} (hrest : isdigit (charAt rest) = false) :
    vldnum (bytes "-1" ++ rest) = (-1, none) := by
  simp only [vldnum, strtol_minus_one hrest, if_true]

/-- A number that is taken gives no message. -/
theorem vldnum_message {cmdln : List UInt8} (h : (vldnum cmdln).1 ≠ 0) :
    (vldnum cmdln).2 = none := by
  simp only [vldnum] at h ⊢
  split_ifs at h ⊢ <;> simp_all

theorem vldnum_error {cmdln : List UInt8} (h : (vldnum cmdln).1 = 0) :
    (vldnum cmdln).2 ≠ none := by
  simp only [vldnum] at h ⊢
  split_ifs at h ⊢ <;> simp_all

/-- What a text begins with for `vldnum` to answer a length: the number written
in decimal, or something behind which a digit stands. -/
inductive VldnumAnswer (line : List UInt8) : Int → Prop
  | error : VldnumAnswer line 0
  | number {n : Fin 128} {rest : List UInt8} (hline : line = decimal n ++ rest) :
      VldnumAnswer line (decimal n).length
  | minusOne {rest : List UInt8} (hline : line = bytes "-1" ++ rest) : VldnumAnswer line (-1)
  | digitBehind {k : Nat} {num : Int} (hnum : num = k ∨ num = -1 ∧ k = 2) (hk : 0 < k)
      (hdigit : isdigit (charAt (line.drop k)) = true) : VldnumAnswer line num

/-- Behind more digits than a length counts stands a digit. -/
theorem charAt_drop {digits rest : List UInt8} (hdigits : ∀ ch ∈ digits, isdigit ch = true)
    {k : Nat} (hk : k < digits.length) :
    isdigit (charAt ((digits ++ rest).drop k)) = true := by
  rw [List.drop_append_of_le_length (by omega)]
  refine charAt_append ?_ (fun ch hch => hdigits ch (List.mem_of_mem_drop hch)) rest
  intro hnil
  have hlength := congrArg List.length hnil
  rw [List.length_drop, List.length_nil] at hlength
  omega

/-- The digits at the front of a text, and the rest. -/
theorem digits_split (unsigned : List UInt8) :
    unsigned = unsigned.takeWhile isdigit ++ unsigned.dropWhile isdigit ∧
      ∀ ch ∈ unsigned.takeWhile isdigit, isdigit ch = true :=
  ⟨List.takeWhile_append_dropWhile.symm, fun _ hch => List.mem_takeWhile_imp hch⟩

/-- The answer behind a minus. -/
theorem vldnum_answer_minus {unsigned : List UInt8} :
    VldnumAnswer ('-'.toUInt8 :: unsigned) (vldnum ('-'.toUInt8 :: unsigned)).1 := by
  obtain ⟨hsplit, hdigits⟩ := digits_split unsigned
  have hread : strtol ('-'.toUInt8 :: unsigned) =
      strtolDigits true ('-'.toUInt8 :: unsigned) unsigned :=
    strtol_minus (show isspace '-'.toUInt8 = false by decide) rfl
  have hnozero : (strtol ('-'.toUInt8 :: unsigned)).1 = 0 →
      charAt ('-'.toUInt8 :: unsigned) ≠ '0'.toUInt8 := fun _ =>
    show '-'.toUInt8 ≠ '0'.toUInt8 by decide
  by_cases hnone : unsigned.takeWhile isdigit = []
  · have hzero : (strtol ('-'.toUInt8 :: unsigned)).1 = 0 := by
      rw [hread, strtolDigits, if_pos hnone]
    rw [vldnum_zero (by omega) (by omega) hnozero]
    exact .error
  have hvalue : (strtol ('-'.toUInt8 :: unsigned)).1 =
      max (-longMax - 1) (-(Numerals.value 10 (unsigned.takeWhile isdigit) : Int)) := by
    rw [hread, strtolDigits, if_neg hnone]
    rfl
  by_cases hone : Numerals.value 10 (unsigned.takeWhile isdigit) = 1
  · have hnum : (vldnum ('-'.toUInt8 :: unsigned)).1 = -1 := by
      have hminusOne : (strtol ('-'.toUInt8 :: unsigned)).1 = -1 := by
        rw [hvalue, hone]
        rfl
      simp only [vldnum, hminusOne, if_true]
    rw [hnum]
    rcases decimal_or_longer hnone hdigits 1 hone with hdecimal | hlong
    · rw [hdecimal] at hsplit
      exact .minusOne (congrArg ('-'.toUInt8 :: ·) hsplit)
    · refine .digitBehind (Or.inr ⟨rfl, rfl⟩) (by decide) ?_
      rw [List.drop_succ_cons, hsplit]
      exact charAt_drop hdigits hlong
  · have hzero : (vldnum ('-'.toUInt8 :: unsigned)).1 = 0 := by
      refine vldnum_zero ?_ ?_ hnozero <;>
      · rw [hvalue]
        simp only [longMax]
        omega
    rw [hzero]
    exact .error

/-- A number does not begin with the digit zero when it has no digits. -/
theorem charAt_ne_zeroDigit {front unsigned : List UInt8}
    (hsign : front = [] ∨ front = ['+'.toUInt8]) (hnone : unsigned.takeWhile isdigit = []) :
    charAt (front ++ unsigned) ≠ '0'.toUInt8 := by
  rcases hsign with rfl | rfl
  · intro hchar
    cases unsigned with
    | nil => exact absurd hchar (by decide)
    | cons ch unsigned =>
        have hdigit : isdigit ch = true := by
          rw [show ch = '0'.toUInt8 from hchar]
          decide
        rw [List.takeWhile_cons_of_pos hdigit] at hnone
        cases hnone
  · show '+'.toUInt8 ≠ '0'.toUInt8
    decide

theorem vldnum_answer_plain (front unsigned : List UInt8)
    (hsign : front = [] ∨ front = ['+'.toUInt8])
    (hread : strtol (front ++ unsigned) = strtolDigits false (front ++ unsigned) unsigned) :
    VldnumAnswer (front ++ unsigned) (vldnum (front ++ unsigned)).1 := by
  obtain ⟨hsplit, hdigits⟩ := digits_split unsigned
  by_cases hnone : unsigned.takeWhile isdigit = []
  · have hzero : (strtol (front ++ unsigned)).1 = 0 := by
      rw [hread, strtolDigits, if_pos hnone]
    rw [vldnum_zero (by omega) (by omega) fun _ => charAt_ne_zeroDigit hsign hnone]
    exact .error
  have hvalue : (strtol (front ++ unsigned)).1 =
      min longMax (Numerals.value 10 (unsigned.takeWhile isdigit) : Int) := by
    rw [hread, strtolDigits, if_neg hnone]
    rfl
  have hmax : longMax = 9223372036854775807 := rfl
  by_cases hlarge : 127 < Numerals.value 10 (unsigned.takeWhile isdigit)
  · have hzero : (vldnum (front ++ unsigned)).1 = 0 := by
      refine vldnum_zero ?_ ?_ ?_ <;> rw [hvalue] <;> omega
    rw [hzero]
    exact .error
  obtain ⟨n, hn⟩ : ∃ n : Fin 128, Numerals.value 10 (unsigned.takeWhile isdigit) = n :=
    ⟨⟨Numerals.value 10 (unsigned.takeWhile isdigit), by omega⟩, rfl⟩
  have hnum : (strtol (front ++ unsigned)).1 = n.val := by
    rw [hvalue, hn]
    omega
  by_cases hzero : n.val = 0 → charAt (front ++ unsigned) = '0'.toUInt8
  · rw [vldnum_of_value n hnum hzero]
    have hlong := decimal_or_longer hnone hdigits n hn
    rcases hsign with rfl | rfl
    · rcases hlong with hdecimal | hlong
      · rw [hdecimal] at hsplit
        exact .number hsplit
      · refine .digitBehind (Or.inl rfl) ?_ ?_
        · exact List.length_pos_of_ne_nil (decimal_digits n).1
        · rw [List.nil_append, hsplit]
          exact charAt_drop hdigits hlong
    · -- one of the characters counted is the sign
      have hpos : 0 < (decimal n).length := List.length_pos_of_ne_nil (decimal_digits n).1
      have hle : (decimal n).length ≤ (unsigned.takeWhile isdigit).length := by
        rcases hlong with hdecimal | hlong
        · rw [hdecimal]
        · omega
      refine .digitBehind (Or.inl rfl) hpos ?_
      obtain ⟨k, hk⟩ : ∃ k, (decimal n).length = k + 1 := ⟨_, (Nat.succ_pred_eq_of_pos hpos).symm⟩
      rw [hk, List.singleton_append, List.drop_succ_cons, hsplit]
      exact charAt_drop hdigits (by omega)
  · push Not at hzero
    rw [vldnum_zero (by omega) (by omega) fun _ => hzero.2]
    exact .error

/-- **What `vldnum` answers.**  A length or -1 is the length of what stands
there, unless a digit stands behind the characters that are counted. -/
theorem vldnum_answer {line : List UInt8} (hfront : Front line) :
    VldnumAnswer line (vldnum line).1 := by
  by_cases hminus : charAt line = '-'.toUInt8
  · cases line with
    | nil => exact absurd hminus (by decide)
    | cons ch unsigned =>
        obtain rfl : ch = '-'.toUInt8 := hminus
        exact vldnum_answer_minus
  · by_cases hplus : charAt line = '+'.toUInt8
    · cases line with
      | nil => exact absurd hplus (by decide)
      | cons ch unsigned =>
          obtain rfl : ch = '+'.toUInt8 := hplus
          exact vldnum_answer_plain ['+'.toUInt8] unsigned (Or.inr rfl) (strtol_plus hfront rfl)
    · exact vldnum_answer_plain [] line (Or.inl rfl) (strtol_unsigned hfront hminus hplus)

end SetCalculator
