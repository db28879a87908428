import CLab.CodeGenerator
import Mathlib.Tactic.IntervalCases

/-!
# The image in an object file

A line of the object file is an address in decimal and a word in octal.  The
words of a text are read back from its lines (`readObject`), and every list of
words at addresses is read as it was written (`readObject_objectText`).  The
fields of a word are where the memory structures of the generator put them.
-/

namespace Assembler

/-! ## Words -/

/-- A word of the machine. -/
abbrev Word := BitVec 15

namespace Word

/-- The three bits that say how a word is relocated. -/
def are (word : Word) : BitVec 3 := word.extractLsb' 0 3

/-- A bit for each addressing mode. -/
def destinationMode (word : Word) : BitVec 4 := word.extractLsb' 3 4

/-- The same for the source operand. -/
def sourceMode (word : Word) : BitVec 4 := word.extractLsb' 7 4

/-- The number of the operation. -/
def opcode (word : Word) : BitVec 4 := word.extractLsb' 11 4

/-- The operand field of a word behind an instruction. -/
def operand (word : Word) : BitVec 12 := word.extractLsb' 3 12

/-- The register of the destination in a word of registers. -/
def destinationRegister (word : Word) : BitVec 3 := word.extractLsb' 3 3

/-- The register of the source in such a word. -/
def sourceRegister (word : Word) : BitVec 3 := word.extractLsb' 6 3

end Word

/-- What is written of a number: its low fifteen bits. -/
def wordOf (toWrite : BitVec 32) : Word := toWrite.setWidth 15

/-- What is written to a file is the number of the word. -/
theorem toNat_and_mask (toWrite : BitVec 32) :
    (toWrite &&& 0x7FFF).toNat = (wordOf toWrite).toNat := by
  have hmask : toWrite &&& 0x7FFF = (wordOf toWrite).setWidth 32 := by
    apply BitVec.eq_of_getLsbD_eq
    intro i hi
    simp only [wordOf]
    interval_cases i <;> simp
  have hlt := (wordOf toWrite).isLt
  rw [hmask, BitVec.toNat_setWidth, Nat.mod_eq_of_lt (by omega)]

/-- The mask of 15 bits takes nothing from a word. -/
theorem wordOf_and_mask (value : BitVec 32) : wordOf (value &&& 0x7FFF) = wordOf value := by
  apply BitVec.eq_of_getLsbD_eq
  intro i hi
  simp only [wordOf]
  interval_cases i <;> simp

/-- **Both branches of the two's complement keep the low fifteen bits.** -/
theorem wordOf_intTo2Complement (value : BitVec 32) :
    wordOf (intTo2Complement value) = wordOf value := by
  rw [intTo2Complement]
  split
  · exact wordOf_and_mask value
  · have hneg : value = ~~~(-value) + 1 := by
      have h := BitVec.neg_eq_not_add (-value)
      rwa [BitVec.neg_neg] at h
    have hadd : ∀ x : BitVec 32, wordOf ((x &&& 0x7FFF) + 1) = wordOf (x + 1) := by
      intro x
      have hmask := wordOf_and_mask x
      rw [wordOf, wordOf] at hmask
      rw [wordOf, wordOf, BitVec.setWidth_add _ _ (by decide), hmask,
        ← BitVec.setWidth_add _ _ (by decide)]
    rw [wordOf_and_mask, hadd, ← hneg]

/-- The low bits of a value are the value in fewer bits. -/
theorem setWidth_ofInt {w n : Nat} (h : w ≤ n) (value : Int) :
    (BitVec.ofInt n value).setWidth w = BitVec.ofInt w value := by
  apply BitVec.eq_of_toNat_eq
  have hdvd : ((2 ^ w : Nat) : Int) ∣ ((2 ^ n : Nat) : Int) :=
    Int.natCast_dvd_natCast.mpr (Nat.pow_dvd_pow 2 h)
  have hpos : (0 : Int) ≤ value % ((2 ^ n : Nat) : Int) := Int.emod_nonneg _ (by positivity)
  rw [BitVec.toNat_setWidth, BitVec.toNat_ofInt, BitVec.toNat_ofInt, ← Int.toNat_natCast (2 ^ w),
    ← Int.toNat_emod hpos (by positivity), Int.emod_emod_of_dvd _ hdvd]
  simp

section Fields

variable (inst : InstructionMemory) (memory : InstructionOperandMemory)

/-- The relocation of the first word of an instruction. -/
theorem instrMemToBinary_are : (wordOf (instrMemToBinary inst)).are = inst.are := by
  apply BitVec.eq_of_getLsbD_eq
  intro i hi
  simp only [Word.are, wordOf, instrMemToBinary]
  interval_cases i <;> simp

theorem instrMemToBinary_dst : (wordOf (instrMemToBinary inst)).destinationMode = inst.dst := by
  apply BitVec.eq_of_getLsbD_eq
  intro i hi
  simp only [Word.destinationMode, wordOf, instrMemToBinary]
  interval_cases i <;> simp

theorem instrMemToBinary_src : (wordOf (instrMemToBinary inst)).sourceMode = inst.src := by
  apply BitVec.eq_of_getLsbD_eq
  intro i hi
  simp only [Word.sourceMode, wordOf, instrMemToBinary]
  interval_cases i <;> simp

theorem instrMemToBinary_code : (wordOf (instrMemToBinary inst)).opcode = inst.code := by
  apply BitVec.eq_of_getLsbD_eq
  intro i hi
  simp only [Word.opcode, wordOf, instrMemToBinary]
  interval_cases i <;> simp

/-- The relocation of the word of an operand. -/
theorem instrOperandMemToBinary_are :
    (wordOf (instrOperandMemToBinary memory)).are = memory.are := by
  apply BitVec.eq_of_getLsbD_eq
  intro i hi
  simp only [Word.are, wordOf, instrOperandMemToBinary]
  interval_cases i <;> simp

theorem instrOperandMemToBinary_operand :
    (wordOf (instrOperandMemToBinary memory)).operand = memory.operandValue := by
  apply BitVec.eq_of_getLsbD_eq
  intro i hi
  simp only [Word.operand, wordOf, instrOperandMemToBinary]
  interval_cases i <;> simp

end Fields

/-- The two register fields are the low bits of the operand field. -/
theorem destinationRegister_eq (word : Word) :
    word.destinationRegister = word.operand.extractLsb' 0 3 := by
  apply BitVec.eq_of_getLsbD_eq
  intro i hi
  simp only [Word.destinationRegister, Word.operand]
  interval_cases i <;> simp

/-- The register of the source lies in the upper half of the operand. -/
theorem sourceRegister_eq (word : Word) :
    word.sourceRegister = word.operand.extractLsb' 3 3 := by
  apply BitVec.eq_of_getLsbD_eq
  intro i hi
  simp only [Word.sourceRegister, Word.operand]
  interval_cases i <;> simp

/-! ## Lines of the object file -/

/-- A word at its address. -/
structure PlacedWord where
  address : Nat
  word : Word
deriving DecidableEq

/-- Words one behind the other. -/
def placeWords (position : Nat) : List Word → List PlacedWord
  | [] => []
  | word :: rest => ⟨position, word⟩ :: placeWords (position + 1) rest

@[simp] theorem placeWords_nil (position : Nat) : placeWords position [] = [] := rfl

/-- Every word is placed. -/
@[simp] theorem placeWords_length (position : Nat) (words : List Word) :
    (placeWords position words).length = words.length := by
  induction words generalizing position with
  | nil => rfl
  | cons word rest ih => simp [placeWords, ih]

/-- Words behind others are placed behind them. -/
theorem placeWords_append (position : Nat) (words words' : List Word) :
    placeWords position (words ++ words') =
      placeWords position words ++ placeWords (position + words.length) words' := by
  induction words generalizing position with
  | nil => rfl
  | cons word rest ih =>
      rw [List.cons_append, placeWords, placeWords, ih, List.cons_append, List.length_cons]
      congr 3
      omega

/-- The addresses are consecutive. -/
theorem placeWords_address (position : Nat) (words : List Word) :
    (placeWords position words).map PlacedWord.address = List.range' position words.length := by
  induction words generalizing position with
  | nil => rfl
  | cons word rest ih => rw [placeWords, List.map_cons, ih, List.length_cons, List.range'_succ]

/-- The words are what they were. -/
theorem placeWords_word (position : Nat) (words : List Word) :
    (placeWords position words).map PlacedWord.word = words := by
  induction words generalizing position with
  | nil => rfl
  | cons word rest ih => rw [placeWords, List.map_cons, ih]

/-- What ends a line of a file. -/
def newline : UInt8 := '\n'.toUInt8

/-- What parts the fields of a line. -/
def blank : UInt8 := ' '.toUInt8

/-- An address of four digits and a word of five octal ones. -/
def objectLine (placed : PlacedWord) : List UInt8 :=
  formatDecimal 4 placed.address ++ blank :: formatOctal 5 placed.word.toNat

/-- The lines of the words. -/
def objectText (image : List PlacedWord) : List UInt8 :=
  Numerals.unlines newline (image.map objectLine)

/-- Words behind others have their lines behind them. -/
theorem objectText_append (image image' : List PlacedWord) :
    objectText (image ++ image') = objectText image ++ objectText image' := by
  simp [objectText, Numerals.unlines_append]

/-! ## Reading -/

/-- A decimal address, a blank and an octal word. -/
def readObjectLine (line : List UInt8) : Option PlacedWord := do
  let address ← Numerals.read 10 (line.takeWhile (· ≠ blank))
  let word ← Numerals.read 8 ((line.dropWhile (· ≠ blank)).drop 1)
  if word < 2 ^ 15 then some ⟨address, BitVec.ofNat 15 word⟩ else none

/-- All lines of a text as words. -/
def readObject (text : List UInt8) : Option (List PlacedWord) :=
  (Numerals.textLines newline text).mapM readObjectLine

/-- A digit is none of the characters that part fields and lines. -/
theorem digit_ne {base : Nat} {ch : UInt8}
    (h : Numerals.isDigitOf base ch = true) : ch ≠ blank ∧ ch ≠ newline ∧ ch ≠ 0 := by
  rw [Numerals.isDigitOf, Bool.and_eq_true, decide_eq_true_eq, decide_eq_true_eq] at h
  refine ⟨?_, ?_, ?_⟩ <;> (intro heq; rw [heq] at h; exact absurd h.1 (by decide))

/-- Nor is any character of a decimal number. -/
theorem formatDecimal_digit {width n : Nat} {ch : UInt8} (h : ch ∈ formatDecimal width n) :
    ch ≠ blank ∧ ch ≠ newline ∧ ch ≠ 0 :=
  digit_ne (Numerals.padded_isDigit (by decide) (by decide) width n ch h)

theorem formatOctal_digit {width n : Nat} {ch : UInt8} (h : ch ∈ formatOctal width n) :
    ch ≠ blank ∧ ch ≠ newline ∧ ch ≠ 0 :=
  digit_ne (Numerals.padded_isDigit (by decide) (by decide) width n ch h)

/-- The first of two texts with a blank between them. -/
theorem split_at_blank {front : List UInt8} (h : blank ∉ front) (back : List UInt8) :
    (front ++ blank :: back).takeWhile (· ≠ blank) = front ∧
      (front ++ blank :: back).dropWhile (· ≠ blank) = blank :: back := by
  have hfront : ∀ ch ∈ front, (decide (ch ≠ blank)) = true := by
    intro ch hch
    apply decide_eq_true
    intro heq
    exact h (heq ▸ hch)
  rw [List.takeWhile_append_of_pos hfront, List.dropWhile_append_of_pos hfront]
  simp

/-- A decimal number ends at the first blank. -/
theorem blank_not_mem_formatDecimal (width n : Nat) : blank ∉ formatDecimal width n :=
  fun h => (formatDecimal_digit h).1 rfl

/-- **A line is read as it was written.** -/
theorem readObjectLine_objectLine (placed : PlacedWord) :
    readObjectLine (objectLine placed) = some placed := by
  obtain ⟨hfront, hback⟩ := split_at_blank (blank_not_mem_formatDecimal 4 placed.address)
    (formatOctal 5 placed.word.toNat)
  have haddress : Numerals.read 10 (formatDecimal 4 placed.address) = some placed.address :=
    Numerals.read_padded (by decide) (by decide) (by decide) _
  have hword : Numerals.read 8 (formatOctal 5 placed.word.toNat) = some placed.word.toNat :=
    Numerals.read_padded (by decide) (by decide) (by decide) _
  rw [readObjectLine, objectLine, hfront, hback, List.drop_succ_cons, List.drop_zero, haddress,
    hword]
  simp [placed.word.isLt]

/-- A line has no newline in it. -/
theorem newline_not_mem_objectLine (placed : PlacedWord) : newline ∉ objectLine placed := by
  intro h
  rcases List.mem_append.mp h with h | h
  · exact (formatDecimal_digit h).2.1 rfl
  · rcases List.mem_cons.mp h with h | h
    · exact absurd h (by decide)
    · exact (formatOctal_digit h).2.1 rfl

/-- The text is taken apart into its lines. -/
theorem textLines_objectText (image : List PlacedWord) :
    Numerals.textLines newline (objectText image) = image.map objectLine := by
  apply Numerals.textLines_unlines
  intro line hline
  obtain ⟨placed, -, rfl⟩ := List.mem_map.mp hline
  exact newline_not_mem_objectLine placed

/-- **The words of an object file are read as they were written.** -/
theorem readObject_objectText (image : List PlacedWord) :
    readObject (objectText image) = some image := by
  rw [readObject, textLines_objectText]
  induction image with
  | nil => rfl
  | cons placed rest ih =>
      rw [List.map_cons, List.mapM_cons, readObjectLine_objectLine, ih]
      rfl

/-! ## Lines with a name and an address -/

/-- A line of the entry file or of the external file. -/
structure SymbolAddress where
  name : CString
  address : Nat
deriving DecidableEq

/-- A name and an address of four digits. -/
def symbolLine (symbol : SymbolAddress) : List UInt8 :=
  symbol.name.data ++ blank :: formatDecimal 4 symbol.address

/-- The lines of the symbols. -/
def symbolText (symbols : List SymbolAddress) : List UInt8 :=
  Numerals.unlines newline (symbols.map symbolLine)

/-- Symbols behind others have their lines behind them. -/
theorem symbolText_append (symbols symbols' : List SymbolAddress) :
    symbolText (symbols ++ symbols') = symbolText symbols ++ symbolText symbols' := by
  simp [symbolText, Numerals.unlines_append]

/-- The first line of a text says where the first symbol of its name is. -/
theorem symbolText_address {name : CString} {address address' : Nat}
    {symbols symbols' : List SymbolAddress}
    (h : symbolText (⟨name, address⟩ :: symbols) = symbolText (⟨name, address'⟩ :: symbols')) :
    address = address' := by
  have hline : ∀ (a : Nat) (rest : List SymbolAddress),
      symbolText (⟨name, a⟩ :: rest) =
        name.data ++ blank :: (formatDecimal 4 a ++ newline :: symbolText rest) := by
    intro a rest
    simp [symbolText, symbolLine, Numerals.unlines]
  have hdigits : ∀ (a : Nat) (rest : List UInt8),
      (formatDecimal 4 a ++ newline :: rest).takeWhile (· ≠ newline) = formatDecimal 4 a := by
    intro a rest
    rw [List.takeWhile_append_of_pos
      (fun ch hch => decide_eq_true (formatDecimal_digit hch).2.1)]
    simp
  rw [hline, hline] at h
  have hrest := (List.cons.inj (List.append_cancel_left h)).2
  have hformat := congrArg (List.takeWhile (· ≠ newline)) hrest
  rw [hdigits, hdigits] at hformat
  have hvalue := congrArg (Numerals.value 10) hformat
  rwa [formatDecimal, formatDecimal, Numerals.value_padded (by decide) (by decide),
    Numerals.value_padded (by decide) (by decide)] at hvalue

end Assembler
