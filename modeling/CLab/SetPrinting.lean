import CLab.CommandGrammar
import CLab.Rows
import Mathlib.Data.Finset.Sort

/-!
# What `print_set` prints

The members of a set in ascending order, with a new row in front of every
sixteenth: the first row has room for fifteen.  The members can be read back from
the text (`printSet_rows`).
-/

namespace SetCalculator

open Assembler (bytes)
open Rows (InRows rowsText words)

/-- `PRINT_NEWLINE`. -/
def printNewline : Nat := 16

/-- The variables of `print_set`, and what is printed so far. -/
structure Printing where
  empty : Bool
  counter : Nat
  printed : List UInt8

/-- `printf(" %d ", i)`. -/
def memberText (i : Fin 128) : List UInt8 :=
  bytes " " ++ decimal i ++ bytes " "

/-- What begins a new row. -/
def newRow : List UInt8 := bytes "\n\t"

/-- The body of the loop for a number that is on. -/
def Printing.printMember (p : Printing) (i : Fin 128) : Printing :=
  let counter := p.counter + 1
  { empty := false
    counter := counter
    printed := p.printed ++ (if counter % printNewline = 0 then newRow else []) ++ memberText i }

/-- What is printed for an empty set. -/
def emptyText : List UInt8 := bytes "This set is empty."

/-- `print_set`, as the text it prints. -/
def printSet (s : BitSet) : List UInt8 :=
  let p : Printing := (List.finRange 128).foldl
    (fun p i => if bitIsOn s i then p.printMember i else p)
    { empty := true, counter := 0, printed := [] }
  if p.empty then p.printed ++ emptyText else p.printed

/-! ## The text of a set -/

/-- What is to be printed for the members in a given order. -/
def setText : List (Fin 128) → List UInt8
  | [] => emptyText
  | i :: items => Rows.broken printNewline newRow memberText 0 (i :: items)

/-- The loop prints the members and remembers whether there were any. -/
theorem foldl_printMember (items : List (Fin 128)) (p : Printing) :
    items.foldl Printing.printMember p =
      { empty := p.empty && items.isEmpty
        counter := p.counter + items.length
        printed := p.printed ++ Rows.broken printNewline newRow memberText p.counter items } := by
  induction items generalizing p with
  | nil => simp [Rows.broken]
  | cons i items ih =>
      rw [List.foldl_cons, ih]
      simp only [Printing.printMember, List.isEmpty_cons, Bool.and_false, Bool.false_and,
        List.length_cons, Rows.broken, List.append_assoc, Printing.mk.injEq, true_and, and_true]
      omega

/-- The numbers in the order of the loop are the members in ascending order. -/
theorem finRange_filter (s : BitSet) :
    (List.finRange 128).filter (bitIsOn s) = (members s).sort := by
  have hascending := (List.pairwise_lt_finRange 128).filter (bitIsOn s)
  refine (List.sortedLT_iff_pairwise.mpr hascending).eq_of_mem_iff
    (Finset.sortedLT_sort _) fun i => ?_
  rw [Finset.mem_sort, mem_members, List.mem_filter]
  simp

/-- A set is printed as its members in order. -/
theorem printSet_eq (s : BitSet) : printSet s = setText (members s).sort := by
  rw [← finRange_filter]
  simp only [printSet]
  rw [← List.foldl_filter, foldl_printMember]
  cases (List.finRange 128).filter (bitIsOn s) <;> rfl

/-! ## Reading the members back -/

/-- The numbers that stand on a text, in their order. -/
def numbersIn (text : List UInt8) : List Nat :=
  (words isdigit text).map (Numerals.value 10)

/-- A text without digits holds no numbers. -/
theorem numbersIn_between {text : List UInt8} (h : text.any isdigit = false)
    (back : List UInt8) : numbersIn (text ++ back) = numbersIn back := by
  have hnone : ∀ ch ∈ text, isdigit ch = false := by simpa using h
  rw [numbersIn, Rows.words_between hnone]
  rfl

/-- The text of a member is read as its number. -/
theorem numbersIn_member (i : Fin 128) (back : List UInt8) :
    numbersIn (memberText i ++ back) = i.val :: numbersIn back := by
  obtain ⟨hne, hdigits, hvalue⟩ := decimal_digits i
  have hspace : isdigit ' '.toUInt8 = false := by decide
  have hsplit : memberText i ++ back = bytes " " ++ (decimal i ++ ' '.toUInt8 :: back) := by
    simp only [memberText, List.append_assoc]
    rfl
  rw [hsplit, numbersIn_between (by decide), numbersIn, Rows.words_split _ _ hspace,
    Rows.words_word hne hdigits, List.map_append, List.map_singleton, hvalue]
  rfl

/-- Breaking the rows loses none of them. -/
theorem numbersIn_broken (items : List (Fin 128)) (counter : Nat) :
    numbersIn (Rows.broken printNewline newRow memberText counter items) =
      items.map Fin.val := by
  induction items generalizing counter with
  | nil => rfl
  | cons i items ih =>
      have hbreak : (if (counter + 1) % printNewline = 0 then newRow else []).any isdigit =
          false := by
        split_ifs
        · decide
        · rfl
      rw [Rows.broken, List.append_assoc, numbersIn_between hbreak, numbersIn_member, ih,
        List.map_cons]

/-- So the text of a set is read as its members. -/
theorem numbersIn_setText (items : List (Fin 128)) :
    numbersIn (setText items) = items.map Fin.val := by
  cases items with
  | nil => decide
  | cons i items => exact numbersIn_broken (i :: items) 0

/-- **What `print_set` prints.**  The members stand on it in ascending order, in
rows of sixteen at most of which only the first, with one less, and the last are
shorter; and they are the numbers that can be read from it. -/
theorem printSet_rows (s : BitSet) : ∃ rows,
    InRows printNewline (printNewline - 1) (members s).sort rows ∧
      (∀ row ∈ rows, row.length ≤ printNewline) ∧
      printSet s = (if members s = ∅ then emptyText else rowsText newRow memberText rows) ∧
      numbersIn (printSet s) = (members s).sort.map Fin.val := by
  obtain ⟨rows, hrows⟩ := Rows.exists_inRows (by decide : 0 < printNewline) (members s).sort
    (printNewline - 1)
  refine ⟨rows, hrows, hrows.length_le (Nat.sub_le _ _), ?_, ?_⟩
  · rw [printSet_eq]
    by_cases hempty : members s = ∅
    · rw [if_pos hempty, hempty, Finset.sort_empty]
      rfl
    · have hne : (members s).sort ≠ [] := by
        intro hnil
        refine hempty (Finset.eq_empty_of_forall_notMem fun i hi => ?_)
        rw [← Finset.mem_sort (· ≤ ·), hnil] at hi
        cases hi
      obtain ⟨i, items, hcons⟩ := List.exists_cons_of_ne_nil hne
      rw [if_neg hempty, hcons, setText, ← hcons]
      exact Rows.broken_eq (by decide) (by decide) hrows
  · rw [printSet_eq, numbersIn_setText]

end SetCalculator
