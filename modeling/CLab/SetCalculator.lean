import CLab.CommandValidator

/-!
# The set calculator

`main` of `myset.c` creates the sets, reads a line, has it validated, and goes over
the valid line once more to carry it out.  Its loop does what the machine of six
subsets of {0..127} does, over any transcript (`mainLoop_refines`); but the sets are
created one too many, and the last of them is stored behind the end of the array
(`main_not_refined`).
-/

namespace SetCalculator

open Assembler (bytes)
open SetMachine (Command Operation Run)

/-! ## Carrying out a line -/

/-- `set_array`, with the sets that its pointers lead to. -/
abbrev SetArray := SetName → BitSet

/-- `while (isspace(*cmdln) || *cmdln == ',')`. -/
def skipSeparators (cmdln : List UInt8) : List UInt8 :=
  cmdln.dropWhile fun ch => isspace ch || ch == comma

/-- `MAX_ARR_SIZE`. -/
def maxArrSize : Nat := 128

/-- A `long` stored in an `int`. -/
def toInt (num : Int) : Int :=
  num.bmod (2 ^ 32)

/-- The variables of the loop that fills `num_array`; `i` is the number of
those stored. -/
structure Scan where
  cmdln : List UInt8
  numArray : List Int

namespace Scan

/-- The loop runs to the terminator of the line. -/
def goesOn (s : Scan) : Except Fault Bool :=
  .ok (charAt s.cmdln ≠ 0)

/-- A number is read and stored, if there is a cell for it. -/
def round (s : Scan) : Except Fault Scan :=
  let number := strtol (skipSeparators s.cmdln)
  if s.numArray.length < maxArrSize then
    .ok { cmdln := number.2, numArray := s.numArray ++ [toInt number.1] }
  else .error .outOfBounds

/-- A round that does not fail stores a number. -/
def room (s : Scan) : Nat :=
  maxArrSize - s.numArray.length + 1

end Scan

/-- The numbers of a `read_set` line, read once more. -/
def scanNumbers (cmdln : List UInt8) : Except Fault (List Int) :=
  (While.loopE Scan.goesOn Scan.round Scan.room { cmdln := cmdln, numArray := [] }).map
    Scan.numArray

/-- `read_set`: the set is emptied and the numbers in front of the `-1` are added. -/
def execReadSet (cmdln : List UInt8) (set1 : SetName) (setArray : SetArray) :
    Except Fault SetArray :=
  (scanNumbers cmdln).bind fun numArray =>
    -- `memset` clears the set first
    (readSet createSet numArray).map (Function.update setArray set1)

/-- The two-set commands, which differ in the function they call. -/
def execOperands (operation : BitSet → BitSet → BitSet) (cmdln : List UInt8) (set1 : SetName)
    (setArray : SetArray) : Except Fault SetArray :=
  match vldsetname (skipSeparators cmdln) with
  | none => .error .outOfBounds
  | some set2 =>
      match vldsetname (skipSeparators ((skipSeparators cmdln).drop setNameLen)) with
      | none => .error .outOfBounds
      | some result => .ok (Function.update setArray result
          (operation (setArray set1) (setArray set2)))

/-- The `switch` of `main`. -/
def execCommand (command : CommandName) (cmdln : List UInt8) (set1 : SetName)
    (setArray : SetArray) : Except Fault SetArray :=
  match command with
  | .readSet => execReadSet cmdln set1 setArray
  | .printSet => .ok setArray
  | .unionSet => execOperands unionSet cmdln set1 setArray
  | .intersectSet => execOperands intersectSet cmdln set1 setArray
  | .subSet => execOperands subSet cmdln set1 setArray
  | .symdiffSet => execOperands symdiffSet cmdln set1 setArray
  | .stop => .error .stopped

/-- The body of the loop of `main`.  The set name is looked up for every
command, for `stop` too: `sets[-1]`. -/
def execLine (commandLine : List UInt8) (setArray : SetArray) : Except Fault SetArray :=
  let cmdln := commandLine.dropWhile isspace
  if vldcmdln cmdln ≠ .valid then .ok setArray
  else match vldcmdname cmdln with
  | none => .error .outOfBounds
  | some command =>
      let operands := (cmdln.drop command.text.length).dropWhile isspace
      match vldsetname operands with
      | none => .error .outOfBounds
      | some set1 => execCommand command (operands.drop setNameLen) set1 setArray

/-! ## Reading lines -/

/-- The character that ends a line. -/
def newline : UInt8 := '\n'.toUInt8

/-- `MAX_LEN`. -/
def maxLen : Nat := 512

/-- At most `n` characters up to and with a newline, and the input behind them. -/
def fgets : Nat → List UInt8 → List UInt8 × List UInt8
  | 0, stdin => ([], stdin)
  | _ + 1, [] => ([], [])
  | n + 1, ch :: stdin =>
      if ch = newline then ([ch], stdin)
      else (ch :: (fgets n stdin).1, (fgets n stdin).2)

/-- The text of the buffer as the string functions see it. -/
def stringOf (commandLine : List UInt8) : List UInt8 :=
  commandLine.takeWhile (· ≠ 0)

/-- `stdin` from where it is read next, and the sets. -/
structure Main where
  stdin : List UInt8
  setArray : SetArray

namespace Main

/-- The loop runs while something can be read. -/
def goesOn (m : Main) : Except Fault Bool :=
  .ok (m.stdin ≠ [])

/-- A line is read and carried out. -/
def round (m : Main) : Except Fault Main :=
  let line := fgets (maxLen - 1) m.stdin
  (execLine (stringOf line.1) m.setArray).map fun setArray =>
    { stdin := line.2, setArray := setArray }

/-- The input that is left. -/
def left (m : Main) : Nat :=
  m.stdin.length

end Main

/-- The sets when the input is at its end. -/
def mainLoop (stdin : List UInt8) (setArray : SetArray) : Except Fault SetArray :=
  (While.loopE Main.goesOn Main.round Main.left
    { stdin := stdin, setArray := setArray }).map Main.setArray

/-! ## Creating the sets -/

/-- `NUM_OF_SETS`, the cells of the array. -/
def numOfSets : Nat := 6

/-- `NUM_OF_CMD`, which counts the commands. -/
def numOfCmd : Nat := 7

/-- The variables of the loop that creates the sets. -/
structure Creation where
  i : Nat
  setArray : SetArray

namespace Creation

/-- `i < NUM_OF_CMD`. -/
def goesOn (c : Creation) : Except Fault Bool :=
  .ok (c.i < numOfCmd)

/-- `set_array[i] = create_set()`, in an array of `NUM_OF_SETS` cells; memory is
always found. -/
def round (c : Creation) : Except Fault Creation :=
  if h : c.i < numOfSets then
    .ok { i := c.i + 1, setArray := Function.update c.setArray ⟨c.i, h⟩ createSet }
  else .error .outOfBounds

/-- The rounds that are left. -/
def left (c : Creation) : Nat :=
  numOfCmd - c.i

end Creation

/-- The loop that creates the sets; what the array holds before it is left open. -/
def createSets (memory : SetArray) : Except Fault SetArray :=
  (While.loopE Creation.goesOn Creation.round Creation.left
    { i := 0, setArray := memory }).map Creation.setArray

/-- `main`: the sets when the input is at its end. -/
def main (memory : SetArray) (stdin : List UInt8) : Except Fault SetArray :=
  (createSets memory).bind (mainLoop stdin)

/-- The loop counts to the number of the commands and not to that of the sets: the
seventh set is stored behind the array. -/
theorem createSets_overflows (memory : SetArray) : createSets memory = .error .outOfBounds :=
  rfl

/-! ## The second reading of a line -/

/-- A comma with blanks around it is skipped, up to what stands behind. -/
theorem skipSeparators_comma {blank blank' text : List UInt8} (hblank : Blank blank)
    (hblank' : Blank blank') (hfront : Front text) (hcomma : charAt text ≠ comma) :
    skipSeparators (blank ++ comma :: (blank' ++ text)) = text := by
  have hall : ∀ ch ∈ blank ++ comma :: blank', (isspace ch || ch == comma) = true := by
    intro ch hch
    rw [Bool.or_eq_true, beq_iff_eq]
    rcases List.mem_append.mp hch with hch | hch
    · exact Or.inl (hblank ch hch)
    · rcases List.mem_cons.mp hch with hch | hch
      · exact Or.inr hch
      · exact Or.inl (hblank' ch hch)
  have hsplit : blank ++ comma :: (blank' ++ text) = (blank ++ comma :: blank') ++ text := by
    simp
  rw [skipSeparators, hsplit, List.dropWhile_append_of_pos hall]
  cases text with
  | nil => rfl
  | cons ch text =>
      apply List.dropWhile_cons_of_neg
      have hspace : isspace ch = false := hfront
      have hne : ch ≠ comma := hcomma
      simp [hspace, hne]

/-- A line of blanks is skipped whole. -/
theorem skipSeparators_blank {blank : List UInt8} (hblank : Blank blank) :
    skipSeparators blank = [] := by
  rw [skipSeparators, List.dropWhile_eq_nil_iff]
  intro ch hch
  rw [hblank ch hch, Bool.true_or]

/-- A blank is not the terminator. -/
theorem blank_ne_zero {ch : UInt8} {blank : List UInt8} (hblank : Blank (ch :: blank)) :
    ch ≠ 0 := by
  intro heq
  obtain rfl := heq
  have hspace := hblank 0 List.mem_cons_self
  rw [isspace_zero] at hspace
  cases hspace

/-- Where a comma with blanks in front stands, the line goes on, and not with a
digit. -/
theorem charAt_separator {blank : List UInt8} (hblank : Blank blank) (rest : List UInt8) :
    charAt (blank ++ comma :: rest) ≠ 0 ∧ isdigit (charAt (blank ++ comma :: rest)) = false := by
  refine ⟨?_, not_digit_of_blank hblank (by decide : isdigit comma = false)⟩
  cases blank with
  | nil => exact comma_ne_zero
  | cons ch blank => exact blank_ne_zero hblank

/-- In front of the members there is a comma and no digit. -/
theorem Members.not_digit {line rest : List UInt8} {numbers : List (Fin 128)}
    (h : Members line numbers rest) : isdigit (charAt line) = false := by
  cases h with
  | done hblank _ _ => exact (charAt_separator hblank _).2
  | more hblank _ _ => exact (charAt_separator hblank _).2

/-- A number does not begin with a comma. -/
theorem decimal_ne_comma (n : Fin 128) (rest : List UInt8) :
    charAt (decimal n ++ rest) ≠ comma := by
  obtain ⟨hne, hdigits, -⟩ := decimal_digits n
  exact (isdigit_not_special _ (charAt_append hne hdigits rest)).2.2.2.1

/-- The loop unrolled: a round that has room for its number. -/
theorem scan_step {line : List UInt8} {stored : List Int} (hline : charAt line ≠ 0)
    (hroom : stored.length < maxArrSize) :
    While.loopE Scan.goesOn Scan.round Scan.room ⟨line, stored⟩ =
      While.loopE Scan.goesOn Scan.round Scan.room
        ⟨(strtol (skipSeparators line)).2,
          stored ++ [toInt (strtol (skipSeparators line)).1]⟩ := by
  have hdec : ∀ s s' : Scan, s.goesOn = .ok true → s.round = .ok s' → s'.room < s.room := by
    intro s s' _ hround
    unfold Scan.round at hround
    split_ifs at hround with hlt
    cases hround
    simp only [Scan.room, List.length_append, List.length_singleton]
    omega
  have hpos : ∀ s : Scan, s.goesOn ≠ .ok false → 0 < s.room := fun s _ => Nat.succ_pos _
  rw [While.loopE_step hdec hpos]
  simp only [Scan.goesOn, Scan.round, Except.bind, hline, ne_eq, not_false_eq_true, decide_true,
    if_true, hroom]

/-- At the end of the line the scan stops. -/
theorem scan_end (stored : List Int) :
    While.loopE Scan.goesOn Scan.round Scan.room ⟨[], stored⟩ = .ok ⟨[], stored⟩ :=
  rfl

/-- A member is not changed by the store. -/
theorem toInt_number (n : Fin 128) : toInt n.val = n.val := by
  have hn := n.isLt
  rw [toInt, Int.bmod_def]
  omega

section Stored

variable {blank blank' rest : List UInt8} {stored : List Int}
  (hroom : stored.length < maxArrSize)

include hroom

/-- White space alone is read as one number more, a zero. -/
theorem scan_blank (hrest : Blank rest) (hne : rest ≠ []) :
    While.loopE Scan.goesOn Scan.round Scan.room ⟨rest, stored⟩ = .ok ⟨[], stored ++ [0]⟩ := by
  obtain ⟨ch, text, hcons⟩ := List.exists_cons_of_ne_nil hne
  have hchar : charAt rest ≠ 0 := by
    rw [hcons]
    exact blank_ne_zero (hcons ▸ hrest)
  have hnone : strtol [] = (0, []) := rfl
  have hzero : toInt 0 = 0 := by decide
  rw [scan_step hchar hroom, skipSeparators_blank hrest, hnone, hzero, scan_end]

variable (hblank : Blank blank) (hblank' : Blank blank')

include hblank hblank'

/-- The `-1` is stored. -/
theorem scan_minusOne (hrest : Blank rest) :
    While.loopE Scan.goesOn Scan.round Scan.room
        ⟨blank ++ comma :: (blank' ++ (bytes "-1" ++ rest)), stored⟩ =
      While.loopE Scan.goesOn Scan.round Scan.room ⟨rest, stored ++ [-1]⟩ := by
  have hdigit : isdigit (charAt rest) = false := by
    have hnil : isdigit (charAt []) = false := rfl
    simpa only [List.append_nil] using not_digit_of_blank hrest hnil
  have hskip := skipSeparators_comma hblank hblank'
    (show Front (bytes "-1" ++ rest) from minusOne_front rest)
    (show '-'.toUInt8 ≠ comma by decide)
  have hminus : toInt (-1) = -1 := by decide
  rw [scan_step (charAt_separator hblank _).1 hroom, hskip, strtol_minus_one hdigit, hminus]

/-- A number is stored. -/
theorem scan_decimal {behind : List UInt8} (n : Fin 128)
    (hbehind : isdigit (charAt behind) = false) :
    While.loopE Scan.goesOn Scan.round Scan.room
        ⟨blank ++ comma :: (blank' ++ (decimal n ++ behind)), stored⟩ =
      While.loopE Scan.goesOn Scan.round Scan.room ⟨behind, stored ++ [(n.val : Int)]⟩ := by
  have hskip := skipSeparators_comma hblank hblank' (decimal_front n behind)
    (decimal_ne_comma n behind)
  rw [scan_step (charAt_separator hblank _).1 hroom, hskip, strtol_decimal n hbehind,
    toInt_number]

end Stored

/-- **The numbers are found again**, up to the `-1`. -/
theorem scan_members {line rest : List UInt8} {numbers : List (Fin 128)}
    (h : Members line numbers rest) (stored : List Int)
    (hroom : stored.length + numbers.length + 2 ≤ maxArrSize) :
    ∃ behind, While.loopE Scan.goesOn Scan.round Scan.room ⟨line, stored⟩ =
      .ok ⟨[], stored ++ (numbers.map (fun n => (n.val : Int)) ++ -1 :: behind)⟩ := by
  induction h generalizing stored with
  | @done blank blank' rest hblank hblank' hrest =>
      rw [List.length_nil] at hroom
      rw [scan_minusOne (by omega) hblank hblank' hrest]
      by_cases hne : rest = []
      · subst hne
        exact ⟨[], by rw [scan_end]; simp⟩
      · have hlength : (stored ++ [-1]).length < maxArrSize := by
          rw [List.length_append, List.length_singleton]
          omega
        rw [scan_blank hlength hrest hne]
        exact ⟨[0], by simp⟩
  | @more blank blank' behind rest n numbers hblank hblank' hbehind ih =>
      rw [List.length_cons] at hroom
      rw [scan_decimal (by omega) hblank hblank' n hbehind.not_digit]
      obtain ⟨last, hlast⟩ := ih (stored ++ [(n.val : Int)]) (by
        rw [List.length_append, List.length_singleton]
        omega)
      exact ⟨last, by rw [hlast]; simp⟩

/-! ## What a line does to the sets -/

/-- The six sets are those of the machine. -/
def Holds (setArray : SetArray) (model : SetName → Finset (Fin 128)) : Prop :=
  ∀ x : SetName, members (setArray x) = model x

/-- A set and its model are replaced together. -/
theorem Holds.update {setArray : SetArray} {model : SetName → Finset (Fin 128)}
    (h : Holds setArray model) (x : SetName) (s : BitSet) :
    Holds (Function.update setArray x s) (Function.update model x (members s)) := by
  intro y
  by_cases hy : y = x
  · subst hy
    rw [Function.update_self, Function.update_self]
  · rw [Function.update_of_ne hy, Function.update_of_ne hy]
    exact h y

/-- **Reading a set** sets it to the numbers of the line. -/
theorem execReadSet_holds {cmdln rest : List UInt8} {numbers : List (Fin 128)}
    (hmembers : Members cmdln numbers rest) (hroom : numbers.length ≤ 126) {setArray : SetArray}
    {model : SetName → Finset (Fin 128)} (h : Holds setArray model) (x : SetName) :
    ∃ setArray', execReadSet cmdln x setArray = .ok setArray' ∧
      Holds setArray' ((Command.read x numbers).exec model) := by
  have hfits : ([] : List Int).length + numbers.length + 2 ≤ maxArrSize := by
    rw [List.length_nil, maxArrSize]
    omega
  obtain ⟨behind, hscan⟩ := scan_members hmembers [] hfits
  obtain ⟨s, hread, hs⟩ := readSet_members createSet numbers behind
  refine ⟨Function.update setArray x s, ?_, ?_⟩
  · rw [execReadSet, scanNumbers, hscan]
    simp only [Except.map, Except.bind, List.nil_append]
    rw [hread]
  · rw [members_createSet, Finset.empty_union] at hs
    rw [Command.exec, ← hs]
    exact h.update x s

/-- A comma in front of a set name is skipped. -/
theorem skipSeparators_sets {blank blank' : List UInt8} (hblank : Blank blank)
    (hblank' : Blank blank') (x : SetName) (rest : List UInt8) :
    skipSeparators (blank ++ comma :: (blank' ++ (sets.get x ++ rest))) = sets.get x ++ rest :=
  skipSeparators_comma hblank hblank' (sets_front x rest).1 (sets_front x rest).2.1

/-- **An operation** sets its third set to the combination of the first two. -/
theorem execCommand_combine (operation : Operation) {blank1 blank1' blank2 blank2' : List UInt8}
    (hblank1 : Blank blank1) (hblank1' : Blank blank1') (hblank2 : Blank blank2)
    (hblank2' : Blank blank2') (first second result : SetName) (rest : List UInt8)
    (setArray : SetArray) :
    execCommand (operationName operation) (blank1 ++ comma :: (blank1' ++ (sets.get second ++
        (blank2 ++ comma :: (blank2' ++ (sets.get result ++ rest)))))) first setArray =
      .ok (Function.update setArray result
        (combineSet operation (setArray first) (setArray second))) := by
  have hoperands : ∀ f : BitSet → BitSet → BitSet,
      execOperands f (blank1 ++ comma :: (blank1' ++ (sets.get second ++
        (blank2 ++ comma :: (blank2' ++ (sets.get result ++ rest)))))) first setArray =
      .ok (Function.update setArray result
        (f (setArray first) (setArray second))) := by
    intro f
    simp only [execOperands, skipSeparators_sets hblank1 hblank1', vldsetname_sets, sets_drop,
      skipSeparators_sets hblank2 hblank2']
  cases operation <;> exact hoperands _

/-- A valid line is taken apart as the validator read it. -/
theorem execLine_command {blank blank' behind : List UInt8} {command : CommandName} {x : SetName}
    (hblank : Blank blank) (hblank' : Blank blank')
    (hvalid : vldcmdln (command.text ++ (blank' ++ (sets.get x ++ behind))) = .valid)
    (setArray : SetArray) :
    execLine (blank ++ (command.text ++ (blank' ++ (sets.get x ++ behind)))) setArray =
      execCommand command behind x setArray := by
  simp only [execLine]
  rw [dropWhile_blank hblank (front_text _ _), if_neg (not_not.mpr hvalid), vldcmdname_text]
  simp only [List.drop_left]
  rw [dropWhile_blank hblank' (sets_front x behind).1, vldsetname_sets]
  simp only [sets_drop]

/-- The second reading begins behind the blanks. -/
theorem denotes_dropWhile {line : List UInt8} :
    (∃ request, Denotes (line.dropWhile isspace) request) ↔ ∃ request, Denotes line request := by
  obtain ⟨blank, rest, hblank, hfront, rfl⟩ := exists_front line
  rw [dropWhile_blank hblank hfront]
  constructor
  · intro hfacts
    obtain ⟨request, blank', sentence, hblank', rfl, hsentence⟩ := hfacts
    exact ⟨request, blank ++ blank', sentence, hblank.append hblank', by simp, hsentence⟩
  · intro hfacts
    obtain ⟨request, blank', sentence, hblank', hline, hsentence⟩ := hfacts
    have hsentenceFront : Front sentence := by
      cases hsentence <;> exact front_text _ _
    have hrest : rest = sentence := by
      rw [← dropWhile_blank hblank hfront, hline, dropWhile_blank hblank' hsentenceFront]
    exact ⟨request, [], sentence, by simp [Blank], by rw [hrest]; rfl, hsentence⟩

/-- Skipping blanks brings no terminator in. -/
theorem not_mem_dropWhile {line : List UInt8} (hline : 0 ∉ line) :
    0 ∉ line.dropWhile isspace :=
  fun h => hline ((List.dropWhile_sublist _).mem h)

/-- **Validation.**  What `main` carries out are the lines that mean something. -/
theorem vldcmdln_dropWhile {line : List UInt8} (hline : 0 ∉ line) :
    vldcmdln (line.dropWhile isspace) = .valid ↔ ∃ request, Denotes line request := by
  rw [vldcmdln_valid_iff (not_mem_dropWhile hline), denotes_dropWhile]

/-- A line that is rejected changes nothing. -/
theorem execLine_rejected {line : List UInt8} (hline : 0 ∉ line)
    (hnone : ∀ request, ¬ Denotes line request) (setArray : SetArray) :
    execLine line setArray = .ok setArray := by
  have hinvalid : vldcmdln (line.dropWhile isspace) ≠ .valid := by
    rw [ne_eq, vldcmdln_dropWhile hline]
    exact fun ⟨request, h⟩ => hnone request h
  simp only [execLine, if_pos hinvalid]

/-- **One line.**  A command changes the sets as the machine says. -/
theorem execLine_holds {line : List UInt8} (hline : 0 ∉ line) {c : Command SetName (Fin 128)}
    (hdenotes : Denotes line (.command c))
    (hroom : ∀ x numbers, c = .read x numbers → numbers.length ≤ 126) {setArray : SetArray}
    {model : SetName → Finset (Fin 128)} (h : Holds setArray model) :
    ∃ setArray', execLine line setArray = .ok setArray' ∧ Holds setArray' (c.exec model) := by
  obtain ⟨blank, sentence, hblank, rfl, hsentence⟩ := hdenotes
  have hvalid : vldcmdln sentence = .valid := by
    rw [vldcmdln_valid_iff fun h => hline (List.mem_append_right _ h)]
    exact ⟨_, [], sentence, by simp [Blank], rfl, hsentence⟩
  cases hsentence with
  | @read blank' behind rest x numbers hblank' hmembers =>
      rw [execLine_command hblank hblank' hvalid]
      exact execReadSet_holds hmembers (hroom x numbers rfl) h x
  | print hblank' hrest =>
      rw [execLine_command hblank hblank' hvalid]
      exact ⟨setArray, rfl, h⟩
  | @combine operation _ _ _ _ _ _ first second result hblank' hblank1 hblank1' hblank2 hblank2' =>
      rw [execLine_command hblank hblank' hvalid,
        execCommand_combine operation hblank1 hblank1' hblank2 hblank2']
      refine ⟨_, rfl, ?_⟩
      have hupdate := h.update result
        (combineSet operation (setArray first) (setArray second))
      rwa [members_combineSet, h first, h second] at hupdate

/-! ## Blanks at the end of a line -/

/-- The text may end in any blanks, the ones it ends in among them. -/
def EndsFreely (holds : List UInt8 → Prop) (text : List UInt8) : Prop :=
  ∃ body ch rest, isspace ch = false ∧ Blank rest ∧ text = body ++ ch :: rest ∧
    ∀ rest', Blank rest' → holds (body ++ ch :: rest')

/-- A text that ends freely does so behind another one. -/
theorem EndsFreely.append {holds holds' : List UInt8 → Prop} {text : List UInt8}
    (h : EndsFreely holds text) (front : List UInt8)
    (hfront : ∀ text', holds text' → holds' (front ++ text')) :
    EndsFreely holds' (front ++ text) := by
  obtain ⟨body, ch, rest, hch, hrest, rfl, hholds⟩ := h
  refine ⟨front ++ body, ch, rest, hch, hrest, by simp, ?_⟩
  intro rest' hrest'
  rw [List.append_assoc]
  exact hfront _ (hholds rest' hrest')

/-- A set name does not end in a blank. -/
theorem sets_last (x : SetName) : ∃ body ch, sets.get x = body ++ [ch] ∧ isspace ch = false := by
  match x with
  | 0 => exact ⟨bytes "SET", 'A'.toUInt8, rfl, by decide⟩
  | 1 => exact ⟨bytes "SET", 'B'.toUInt8, rfl, by decide⟩
  | 2 => exact ⟨bytes "SET", 'C'.toUInt8, rfl, by decide⟩
  | 3 => exact ⟨bytes "SET", 'D'.toUInt8, rfl, by decide⟩
  | 4 => exact ⟨bytes "SET", 'E'.toUInt8, rfl, by decide⟩
  | 5 => exact ⟨bytes "SET", 'F'.toUInt8, rfl, by decide⟩

/-- The numbers may be followed by any blanks. -/
theorem Members.endsFreely {line rest : List UInt8} {numbers : List (Fin 128)}
    (h : Members line numbers rest) :
    EndsFreely (fun line' => ∃ rest', Members line' numbers rest') line := by
  induction h with
  | @done blank blank' rest hblank hblank' hrest =>
      have hone : isspace '1'.toUInt8 = false := by decide
      have hsplit : ∀ rest', blank ++ comma :: (blank' ++ (bytes "-1" ++ rest')) =
          (blank ++ comma :: (blank' ++ bytes "-")) ++ '1'.toUInt8 :: rest' := by
        intro rest'
        rw [List.append_assoc, List.cons_append, List.append_assoc]
        rfl
      refine ⟨_, _, rest, hone, hrest, hsplit rest, ?_⟩
      intro rest' hrest'
      rw [← hsplit]
      exact ⟨rest', .done hblank hblank' hrest'⟩
  | @more blank blank' behind rest n numbers hblank hblank' _ ih =>
      have hsplit : ∀ behind', blank ++ comma :: (blank' ++ (decimal n ++ behind')) =
          (blank ++ comma :: (blank' ++ decimal n)) ++ behind' := by
        intro behind'
        simp
      rw [hsplit]
      apply ih.append _
      intro behind' hfacts
      obtain ⟨rest', hbehind'⟩ := hfacts
      rw [← hsplit]
      exact ⟨rest', .more hblank hblank' hbehind'⟩

theorem Sentence.endsFreely {sentence : List UInt8} {request : Request}
    (h : Sentence sentence request) :
    EndsFreely (fun sentence' => Sentence sentence' request) sentence := by
  cases h with
  | @read blank behind rest x numbers hblank hmembers =>
      have hsplit : ∀ behind', CommandName.readSet.text ++ (blank ++ (sets.get x ++ behind')) =
          (CommandName.readSet.text ++ (blank ++ sets.get x)) ++ behind' := by
        simp
      rw [hsplit]
      apply hmembers.endsFreely.append _
      intro behind' hfacts
      obtain ⟨rest', hmembers'⟩ := hfacts
      rw [← hsplit]
      exact .read hblank hmembers'
  | @print blank rest x hblank hrest =>
      obtain ⟨body, ch, hlast, hch⟩ := sets_last x
      have hsplit : ∀ rest', CommandName.printSet.text ++ (blank ++ (sets.get x ++ rest')) =
          (CommandName.printSet.text ++ (blank ++ body)) ++ ch :: rest' := by
        simp [hlast]
      refine ⟨_, ch, rest, hch, hrest, hsplit rest, ?_⟩
      intro rest' hrest'
      rw [← hsplit]
      exact .print hblank hrest'
  | @combine operation blank blank1 blank1' blank2 blank2' rest first second result hblank
      hblank1 hblank1' hblank2 hblank2' hrest =>
      obtain ⟨body, ch, hlast, hch⟩ := sets_last result
      have hsplit : ∀ rest', (operationName operation).text ++ (blank ++ (sets.get first ++
          (blank1 ++ comma :: (blank1' ++ (sets.get second ++ (blank2 ++
            comma :: (blank2' ++ (sets.get result ++ rest')))))))) =
          ((operationName operation).text ++ (blank ++ (sets.get first ++ (blank1 ++
            comma :: (blank1' ++ (sets.get second ++ (blank2 ++
              comma :: (blank2' ++ body)))))))) ++ ch :: rest' := by
        simp [hlast]
      refine ⟨_, ch, rest, hch, hrest, hsplit rest, ?_⟩
      intro rest' hrest'
      rw [← hsplit]
      exact .combine hblank hblank1 hblank1' hblank2 hblank2' hrest'
  | @stop rest hrest =>
      have hch : isspace 'p'.toUInt8 = false := by decide
      refine ⟨bytes "sto", 'p'.toUInt8, rest, hch, hrest, rfl, ?_⟩
      intro rest' hrest'
      exact .stop hrest'

/-- A newline is a blank. -/
theorem isspace_newline : isspace newline = true := by decide

/-- A newline behind the line is one blank more. -/
theorem denotes_newline {line : List UInt8} {request : Request} :
    Denotes (line ++ [newline]) request ↔ Denotes line request := by
  constructor
  · intro hfacts
    obtain ⟨blank, sentence, hblank, hline, hsentence⟩ := hfacts
    obtain ⟨body, ch, rest, hch, hrest, rfl, hends⟩ := hsentence.endsFreely
    rcases List.eq_nil_or_concat rest with rfl | ⟨rest', last, rfl⟩
    · -- the sentence would end in the newline
      have hsplit : blank ++ (body ++ [ch]) = (blank ++ body) ++ [ch] := by simp
      rw [hsplit] at hline
      obtain ⟨-, hlast⟩ := List.append_inj' hline rfl
      rw [← List.head_eq_of_cons_eq hlast, isspace_newline] at hch
      cases hch
    · have hsplit : blank ++ (body ++ ch :: (rest' ++ [last])) =
          (blank ++ (body ++ ch :: rest')) ++ [last] := by simp
      rw [List.concat_eq_append, hsplit] at hline
      obtain ⟨hfront, -⟩ := List.append_inj' hline rfl
      refine ⟨blank, body ++ ch :: rest', hblank, hfront, hends rest' ?_⟩
      intro d hd
      exact hrest d (by simp [hd])
  · intro hfacts
    obtain ⟨blank, sentence, hblank, rfl, hsentence⟩ := hfacts
    obtain ⟨body, ch, rest, hch, hrest, rfl, hends⟩ := hsentence.endsFreely
    refine ⟨blank, body ++ ch :: (rest ++ [newline]), hblank, by simp, hends _ ?_⟩
    apply hrest.append
    intro d hd
    rw [List.mem_singleton.mp hd]
    exact isspace_newline

/-! ## What `fgets` delivers -/

/-- What a line asks for, as its string tells. -/
def Asks (commandLine : List UInt8) (request : Request) : Prop :=
  Denotes (stringOf commandLine) request

/-- The text of the buffer has no terminator in it. -/
theorem zero_notMem_stringOf (commandLine : List UInt8) : 0 ∉ stringOf commandLine := by
  intro h
  have hne := List.mem_takeWhile_imp h
  simp at hne

/-- A newline at the end changes nothing of what a line asks for. -/
theorem asks_newline {line : List UInt8} {request : Request} :
    Asks (line ++ [newline]) request ↔ Asks line request := by
  have hnewline : stringOf [newline] = [newline] := by decide
  by_cases hline : 0 ∈ line
  · have hne : ¬ (line.takeWhile (· ≠ 0)).length = line.length := by
      intro hlength
      have hall := List.takeWhile_eq_self_iff.mp
        ((List.takeWhile_prefix _).eq_of_length hlength) 0 hline
      simp at hall
    rw [Asks, Asks, stringOf, List.takeWhile_append, if_neg hne]
    rfl
  · have hall : ∀ ch ∈ line, decide (ch ≠ 0) = true := by
      intro ch hch
      rw [decide_eq_true_eq]
      intro heq
      obtain rfl := heq
      exact hline hch
    have hself : stringOf line = line := List.takeWhile_eq_self_iff.mpr hall
    have happend : stringOf (line ++ [newline]) = line ++ [newline] := by
      rw [stringOf, List.takeWhile_append_of_pos hall]
      exact congrArg _ hnewline
    rw [Asks, Asks, happend, hself, denotes_newline]

/-- An empty line asks for nothing. -/
theorem not_asks_nil (request : Request) : ¬ Asks [] request := by
  intro hfacts
  obtain ⟨blank, sentence, -, hline, hsentence⟩ := hfacts
  obtain ⟨body, ch, rest, -, -, rfl, -⟩ := hsentence.endsFreely
  have hlength := congrArg List.length hline
  simp [stringOf] at hlength

theorem not_asks_newline (request : Request) : ¬ Asks [newline] request := by
  rw [← List.nil_append [newline], asks_newline]
  exact not_asks_nil request

/-- At the end of the input nothing is read. -/
theorem fgets_nil (n : Nat) : fgets n [] = ([], []) := by
  cases n <;> rfl

/-- Up to the newline that comes first, or up to the bound. -/
theorem fgets_append {line : List UInt8} (hline : newline ∉ line) {n : Nat}
    (hn : line.length ≤ n) (stdin : List UInt8) :
    fgets n (line ++ stdin) = (line ++ (fgets (n - line.length) stdin).1,
      (fgets (n - line.length) stdin).2) := by
  induction line generalizing n with
  | nil => rfl
  | cons ch line ih =>
      obtain ⟨n, rfl⟩ : ∃ k, n = k + 1 := ⟨n - 1, by rw [List.length_cons] at hn; omega⟩
      have hch : ch ≠ newline := fun h => hline (by rw [h]; exact List.mem_cons_self)
      have hrest := ih (fun h => hline (List.mem_cons_of_mem _ h))
        (Nat.le_of_succ_le_succ hn)
      rw [List.cons_append, fgets, if_neg hch, hrest, List.length_cons, Nat.add_sub_add_right]
      rfl

/-- The lines of a session: none has a newline in it, and the buffer has room
for each. -/
def CommandLine (line : List UInt8) : Prop :=
  newline ∉ line ∧ line.length < maxLen

/-- The input that a session is typed as: each line with a newline behind it,
except perhaps the last. -/
inductive Transcript : List (List UInt8) → List UInt8 → Prop
  | nil : Transcript [] []
  | last {line : List UInt8} : Transcript [line] line
  | cons {line stdin : List UInt8} {lines : List (List UInt8)} (h : Transcript lines stdin) :
      Transcript (line :: lines) (line ++ newline :: stdin)

/-- What is delivered for the lines asks for the same, piece by piece, but for
pieces and lines that ask for nothing. -/
inductive Delivers : List (List UInt8) → List (List UInt8) → Prop
  | nil : Delivers [] []
  | same {line piece : List UInt8} {lines pieces : List (List UInt8)}
      (hsame : ∀ request, Asks piece request ↔ Asks line request) (h : Delivers lines pieces) :
      Delivers (line :: lines) (piece :: pieces)
  | silentPiece {piece : List UInt8} {lines pieces : List (List UInt8)}
      (hsilent : ∀ request, ¬ Asks piece request) (h : Delivers lines pieces) :
      Delivers lines (piece :: pieces)
  | silentLine {line : List UInt8} {lines pieces : List (List UInt8)}
      (hsilent : ∀ request, ¬ Asks line request) (h : Delivers lines pieces) :
      Delivers (line :: lines) pieces

/-- The commands among what is asked for. -/
def Means (line : List UInt8) (c : Command SetName (Fin 128)) : Prop :=
  Asks line (.command c)

/-- What is delivered runs as the lines do. -/
theorem Delivers.run {lines pieces : List (List UInt8)} (h : Delivers lines pieces)
    {model last : SetName → Finset (Fin 128)} (hrun : Run Means lines model last) :
    Run Means pieces model last := by
  induction h generalizing model with
  | nil => exact hrun
  | same hsame _ ih =>
      cases hrun with
      | command hmeans hrest => exact .command ((hsame _).mpr hmeans) (ih hrest)
      | other hnone hrest => exact .other (fun c hc => hnone c ((hsame _).mp hc)) (ih hrest)
  | silentPiece hsilent _ ih => exact .other (fun c => hsilent _) (ih hrun)
  | silentLine hsilent _ ih =>
      cases hrun with
      | command hmeans hrest => exact absurd hmeans (hsilent _)
      | other hnone hrest => exact ih hrest

/-- A piece asks for nothing that no line asks for. -/
theorem Delivers.asks {lines pieces : List (List UInt8)} (h : Delivers lines pieces)
    {piece : List UInt8} (hpiece : piece ∈ pieces) {request : Request}
    (hasks : Asks piece request) : ∃ line ∈ lines, Asks line request := by
  induction h with
  | nil => cases hpiece
  | @same line piece' lines pieces hsame _ ih =>
      rcases List.mem_cons.mp hpiece with rfl | hpiece
      · exact ⟨line, List.mem_cons_self, (hsame _).mp hasks⟩
      · obtain ⟨line', hline', hasks'⟩ := ih hpiece
        exact ⟨line', List.mem_cons_of_mem _ hline', hasks'⟩
  | silentPiece hsilent _ ih =>
      rcases List.mem_cons.mp hpiece with rfl | hpiece
      · exact absurd hasks (hsilent _)
      · exact ih hpiece
  | silentLine _ _ ih =>
      obtain ⟨line', hline', hasks'⟩ := ih hpiece
      exact ⟨line', List.mem_cons_of_mem _ hline', hasks'⟩

/-- One piece of the input is carried out. -/
def execPiece (setArray : SetArray) (piece : List UInt8) : Except Fault SetArray :=
  execLine (stringOf piece) setArray

/-- What is left is no longer than the input. -/
theorem fgets_length (n : Nat) (stdin : List UInt8) :
    (fgets n stdin).2.length ≤ stdin.length := by
  induction n generalizing stdin with
  | zero => exact Nat.le_refl _
  | succ n ih =>
      cases stdin with
      | nil => exact Nat.le_refl _
      | cons ch stdin =>
          rw [fgets]
          split_ifs
          · exact Nat.le_succ _
          · exact Nat.le_succ_of_le (ih stdin)

/-- Something is read while there is something left. -/
theorem fgets_shorter {stdin : List UInt8} (hstdin : stdin ≠ []) (n : Nat) :
    (fgets (n + 1) stdin).2.length < stdin.length := by
  obtain ⟨ch, stdin, rfl⟩ := List.exists_cons_of_ne_nil hstdin
  have hle := fgets_length n stdin
  rw [fgets, List.length_cons]
  split_ifs
  · exact Nat.lt_succ_self _
  · exact Nat.lt_succ_of_le hle

/-- The loop carries out the first piece and goes on with the rest. -/
theorem mainLoop_step {stdin : List UInt8} (hstdin : stdin ≠ []) (setArray : SetArray) :
    mainLoop stdin setArray =
      (execPiece setArray (fgets (maxLen - 1) stdin).1).bind
        (mainLoop (fgets (maxLen - 1) stdin).2) := by
  have hdec : ∀ m m' : Main, m.goesOn = .ok true → m.round = .ok m' → m'.left < m.left := by
    intro m m' hgo hround
    have hne : m.stdin ≠ [] := by simpa [Main.goesOn] using hgo
    cases hexec : execLine (stringOf (fgets (maxLen - 1) m.stdin).1) m.setArray with
    | error e =>
        simp only [Main.round, hexec] at hround
        cases hround
    | ok setArray' =>
        simp only [Main.round, hexec] at hround
        cases hround
        exact fgets_shorter hne 510
  have hpos : ∀ m : Main, m.goesOn ≠ .ok false → 0 < m.left := by
    intro m hgo
    apply List.length_pos_of_ne_nil
    intro hnil
    exact hgo (by rw [Main.goesOn, hnil]; rfl)
  rw [mainLoop, While.loopE_step hdec hpos]
  simp only [Main.goesOn, Except.bind, hstdin, ne_eq, not_false_eq_true, decide_true, if_true,
    Main.round, execPiece]
  cases execLine (stringOf (fgets (maxLen - 1) stdin).1) setArray with
  | error e => rfl
  | ok setArray' => rfl

/-- **The input is read line by line.** -/
theorem Transcript.delivers {lines : List (List UInt8)} {stdin : List UInt8}
    (h : Transcript lines stdin) (hlines : ∀ line ∈ lines, CommandLine line) :
    ∃ pieces, Delivers lines pieces ∧
      ∀ setArray, mainLoop stdin setArray = pieces.foldlM execPiece setArray := by
  induction h with
  | nil => exact ⟨[], .nil, fun _ => rfl⟩
  | @last line =>
      obtain ⟨hnewline, hlength⟩ := hlines line List.mem_cons_self
      by_cases hline : line = []
      · subst hline
        exact ⟨[], .silentLine not_asks_nil .nil, fun _ => rfl⟩
      · have hread := fgets_append hnewline (Nat.le_pred_of_lt hlength) []
        have hend : fgets (maxLen - 1 - line.length) [] = ([], []) := fgets_nil _
        rw [← Nat.sub_one, List.append_nil, hend, List.append_nil] at hread
        refine ⟨[line], .same (fun _ => Iff.rfl) .nil, ?_⟩
        intro setArray
        rw [mainLoop_step hline, hread]
        rfl
  | @cons line stdin lines _ ih =>
      obtain ⟨pieces, hdelivers, hloop⟩ := ih fun l hl => hlines l (List.mem_cons_of_mem _ hl)
      obtain ⟨hnewline, hlength⟩ := hlines line List.mem_cons_self
      have hne : line ++ newline :: stdin ≠ [] := by simp
      have hread := fgets_append hnewline (Nat.le_pred_of_lt hlength) (newline :: stdin)
      by_cases hfull : line.length = maxLen - 1
      · -- the newline of a line that fills the buffer is a piece of its own
        have hzero : maxLen - 1 - line.length = 0 := by omega
        rw [← Nat.sub_one, hzero, fgets, List.append_nil] at hread
        refine ⟨line :: [newline] :: pieces,
          .same (fun _ => Iff.rfl) (.silentPiece not_asks_newline hdelivers), ?_⟩
        intro setArray
        have hsecond : ∀ setArray', mainLoop (newline :: stdin) setArray' =
            ([newline] :: pieces).foldlM execPiece setArray' := by
          intro setArray'
          rw [mainLoop_step (List.cons_ne_nil _ _), List.foldlM_cons, ← funext hloop]
          rfl
        rw [mainLoop_step hne, hread, List.foldlM_cons, ← funext hsecond]
        rfl
      · obtain ⟨k, hk⟩ : ∃ k, maxLen - 1 - line.length = k + 1 :=
          ⟨maxLen - 1 - line.length - 1, by omega⟩
        rw [← Nat.sub_one, hk, fgets, if_pos rfl] at hread
        refine ⟨(line ++ [newline]) :: pieces, .same (fun _ => asks_newline) hdelivers, ?_⟩
        intro setArray
        rw [mainLoop_step hne, hread, List.foldlM_cons, ← funext hloop]
        rfl

/-! ## Whole sessions -/

/-- `main` has the line validated, without the blanks in front. -/
def Accepted (commandLine : List UInt8) : Prop :=
  vldcmdln ((stringOf commandLine).dropWhile isspace) = .valid

/-- The lines that are carried out are those that ask for something. -/
theorem accepted_iff {commandLine : List UInt8} :
    Accepted commandLine ↔ ∃ request, Asks commandLine request :=
  vldcmdln_dropWhile (zero_notMem_stringOf commandLine)

/-- What a session has to keep to: no `stop` so far, and no more numbers in a
line than `num_array` has room for, with the `-1` and what the newline is read as. -/
structure Keeps (line : List UInt8) : Prop where
  noStop : ¬ Asks line .stop
  room : ∀ x numbers, Asks line (.command (.read x numbers)) → numbers.length ≤ 126

/-- A piece of the input does one step of the machine. -/
theorem execPiece_refines : SetMachine.Refines Means Keeps execPiece Holds where
  command := by
    intro setArray model piece c hkeeps h hmeans
    refine execLine_holds (zero_notMem_stringOf piece) hmeans ?_ h
    intro x numbers heq
    obtain rfl := heq
    exact hkeeps.room x numbers hmeans
  other := by
    intro setArray model piece hkeeps h hnone
    refine ⟨setArray, execLine_rejected (zero_notMem_stringOf piece) ?_ setArray, h⟩
    intro request hasks
    cases request with
    | command c => exact hnone c hasks
    | stop => exact hkeeps.noStop hasks

/-- **The loop of the set calculator.**  The lines that are accepted are those that
mean a command, and after any session the bits of the six sets are the members
the machine of sets has, from what they were at first. -/
theorem mainLoop_refines {lines : List (List UInt8)} {stdin : List UInt8}
    (htranscript : Transcript lines stdin) (hlines : ∀ line ∈ lines, CommandLine line)
    (hkeeps : ∀ line ∈ lines, Keeps line) (created : SetArray) :
    (∀ line ∈ lines, ∀ ending ∈ [[], [newline]],
      (Accepted (line ++ ending) ↔ ∃ c, Means line c)) ∧
    ∃ setArray, mainLoop stdin created = .ok setArray ∧
      (∃ last, Run Means lines (fun x => members (created x)) last) ∧
      ∀ last, Run Means lines (fun x => members (created x)) last →
        ∀ (x : SetName) (v : Fin 128), bitIsOn (setArray x) v = true ↔ v ∈ last x := by
  constructor
  · intro line hline ending hending
    have hasks : ∀ request, Asks (line ++ ending) request ↔ Asks line request := by
      intro request
      rcases List.mem_cons.mp hending with rfl | hending
      · rw [List.append_nil]
      · rw [List.mem_singleton.mp hending, asks_newline]
    rw [accepted_iff]
    constructor
    · intro haccepted
      obtain ⟨request, hrequest⟩ := haccepted
      rw [hasks] at hrequest
      cases request with
      | command c => exact ⟨c, hrequest⟩
      | stop => exact absurd hrequest (hkeeps line hline).noStop
    · intro hmeans
      obtain ⟨c, hc⟩ := hmeans
      exact ⟨.command c, (hasks _).mpr hc⟩
  · obtain ⟨pieces, hdelivers, hloop⟩ := htranscript.delivers hlines
    have hpieces : ∀ piece ∈ pieces, Keeps piece := by
      intro piece hpiece
      constructor
      · intro hstop
        obtain ⟨line, hline, hasks⟩ := hdelivers.asks hpiece hstop
        exact (hkeeps line hline).noStop hasks
      · intro x numbers hread
        obtain ⟨line, hline, hasks⟩ := hdelivers.asks hpiece hread
        exact (hkeeps line hline).room x numbers hasks
    have hcreated : Holds created fun x => members (created x) := fun _ => rfl
    have hrefines : ∀ last, Run Means lines (fun x => members (created x)) last →
        ∃ setArray, mainLoop stdin created = .ok setArray ∧ Holds setArray last := by
      intro last hrun
      rw [hloop]
      exact execPiece_refines.run hpieces hcreated (hdelivers.run hrun)
    obtain ⟨first, hfirst⟩ := SetMachine.exists_run Means lines fun x => members (created x)
    obtain ⟨setArray, hmain, -⟩ := hrefines first hfirst
    refine ⟨setArray, hmain, ⟨first, hfirst⟩, ?_⟩
    intro last hrun x v
    obtain ⟨setArray', hmain', hholds⟩ := hrefines last hrun
    obtain rfl : setArray = setArray' := Except.ok.inj (hmain.symm.trans hmain')
    rw [← mem_members, hholds x]

/-- Every number takes two characters at least. -/
theorem Members.short {line rest : List UInt8} {numbers : List (Fin 128)}
    (h : Members line numbers rest) : 2 * numbers.length < line.length := by
  induction h with
  | done => simp
  | @more blank blank' behind rest n numbers _ _ _ ih =>
      have hpos := List.length_pos_of_ne_nil (decimal_digits n).1
      simp only [List.length_append, List.length_cons]
      omega

/-- Lines of an ordinary length have room for their numbers. -/
theorem keeps_of_short {line : List UInt8} (hlength : line.length < 254)
    (hstop : vldcmdname ((stringOf line).dropWhile isspace) ≠ some .stop) : Keeps line := by
  have hle : (stringOf line).length ≤ line.length := (List.takeWhile_prefix _).length_le
  constructor
  · intro hfacts
    obtain ⟨blank, sentence, hblank, hline, hsentence⟩ := hfacts
    cases hsentence with
    | stop =>
        rw [hline, dropWhile_blank hblank (front_text _ _), vldcmdname_text] at hstop
        exact hstop rfl
  · intro x numbers hfacts
    obtain ⟨blank, sentence, -, hline, hsentence⟩ := hfacts
    rw [hline] at hle
    cases hsentence with
    | read _ hmembers =>
        have hshort := hmembers.short
        simp only [List.length_append] at hle
        omega

/-- Two lines from six empty sets. -/
theorem mainLoop_refines_sample :
    (∀ line ∈ [bytes "read_set SETA, 5, 77, -1", bytes "sub_set SETA,SETA,SETA"],
      ∀ ending ∈ [[], [newline]], (Accepted (line ++ ending) ↔ ∃ c, Means line c)) ∧
    ∃ setArray, mainLoop (bytes "read_set SETA, 5, 77, -1\nsub_set SETA,SETA,SETA")
        (fun _ => createSet) = .ok setArray ∧
      (∃ last, Run Means [bytes "read_set SETA, 5, 77, -1", bytes "sub_set SETA,SETA,SETA"]
        (fun _ => members createSet) last) ∧
      ∀ last, Run Means [bytes "read_set SETA, 5, 77, -1", bytes "sub_set SETA,SETA,SETA"]
          (fun _ => members createSet) last →
        ∀ (x : SetName) (v : Fin 128), bitIsOn (setArray x) v = true ↔ v ∈ last x := by
  refine mainLoop_refines (.cons .last) ?_ ?_ fun _ => createSet
  · intro line hline
    rcases List.mem_cons.mp hline with rfl | hline
    · exact ⟨by decide, by decide⟩
    · rw [List.mem_singleton.mp hline]
      exact ⟨by decide, by decide⟩
  · intro line hline
    rcases List.mem_cons.mp hline with rfl | hline
    · exact keeps_of_short (by decide) (by decide)
    · rw [List.mem_singleton.mp hline]
      exact keeps_of_short (by decide) (by decide)

/-- After `main` has read an input the six sets hold what the machine of sets holds
after its lines. -/
def Refined (memory : SetArray) (lines : List (List UInt8)) (stdin : List UInt8) : Prop :=
  ∃ setArray, main memory stdin = .ok setArray ∧
    ∀ last, Run Means lines (fun _ => ∅) last →
      ∀ (x : SetName) (v : Fin 128), bitIsOn (setArray x) v = true ↔ v ∈ last x

/-- **No session refines the machine of sets**: `main` does not get as far as reading
a line, since it leaves its array while it creates the sets. -/
theorem main_not_refined (memory : SetArray) (lines : List (List UInt8)) (stdin : List UInt8) :
    ¬ Refined memory lines stdin := by
  intro hrefined
  obtain ⟨setArray, hmain, -⟩ := hrefined
  rw [main, createSets_overflows] at hmain
  cases hmain

/-- A session of one line, which reads two numbers. -/
theorem main_not_refined_sample :
    Transcript [bytes "read_set SETA,5,77,-1"] (bytes "read_set SETA,5,77,-1") ∧
      CommandLine (bytes "read_set SETA,5,77,-1") ∧ Keeps (bytes "read_set SETA,5,77,-1") ∧
      ¬ Refined (fun _ => createSet) [bytes "read_set SETA,5,77,-1"]
        (bytes "read_set SETA,5,77,-1") := by
  refine ⟨.last, ⟨by decide, by decide⟩, keeps_of_short (by decide) (by decide), ?_⟩
  intro hrefined
  obtain ⟨setArray, hmain, -⟩ := hrefined
  rw [main, createSets_overflows] at hmain
  cases hmain

end SetCalculator
