import CLab.BitSet
import CLab.Numerals
import CLab.StringUtil
import CLab.While

/-!
# The command line and its validator

`myset.c`: names, numbers and `vldcmdln`, a state machine that goes over the
characters of the line.  A pointer into the line is the list of the characters
from there on; the NUL behind the line is the end of that list.  What
`errmsg` prints is kept as the number it is called with.
-/

namespace SetCalculator

open Assembler (bytes)

/-- `isspace` in the C locale. -/
def isspace (ch : UInt8) : Bool :=
  ch == ' '.toUInt8 || (9 ≤ ch && ch ≤ 13)

/-- `isdigit` in the C locale. -/
def isdigit (ch : UInt8) : Bool :=
  '0'.toUInt8 ≤ ch && ch ≤ '9'.toUInt8

/-- The character pointed at. -/
def charAt (cmdln : List UInt8) : UInt8 :=
  cmdln.headD 0

/-- The character between the operands. -/
def comma : UInt8 := ','.toUInt8

/-- `LONG_MAX`. -/
def longMax : Int := 2 ^ 63 - 1

/-- `strtol` in base 10: the number at the front of the text, moved into the
range of `long`, and what stands behind it; the whole text if there is none. -/
def strtol (text : List UInt8) : Int × List UInt8 :=
  let body := text.dropWhile isspace
  let negative := charAt body = '-'.toUInt8
  let unsigned := if negative ∨ charAt body = '+'.toUInt8 then body.tail else body
  let digits := unsigned.takeWhile isdigit
  let value : Int := Numerals.value 10 digits
  if digits = [] then (0, text)
  else
    (if negative then max (-longMax - 1) (-value) else min longMax value,
      unsigned.dropWhile isdigit)

/-! ## Names -/

/-- The number of a set: the place of its name in `sets`. -/
abbrev SetName := Fin 6

/-- `sets`, the names in the order of the array. -/
def sets : Vector (List UInt8) 6 :=
  #v[bytes "SETA", bytes "SETB", bytes "SETC", bytes "SETD", bytes "SETE", bytes "SETF"]

/-- `SET_NAME_LEN`. -/
def setNameLen : Nat := 4

/-- The names of `commands`. -/
inductive CommandName
  | readSet
  | printSet
  | unionSet
  | intersectSet
  | subSet
  | symdiffSet
  | stop
deriving DecidableEq

/-- `commands`, in the order of the array. -/
def commands : List CommandName :=
  [.readSet, .printSet, .unionSet, .intersectSet, .subSet, .symdiffSet, .stop]

/-- The name of a command. -/
def CommandName.text : CommandName → List UInt8
  | readSet => bytes "read_set"
  | printSet => bytes "print_set"
  | unionSet => bytes "union_set"
  | intersectSet => bytes "intersect_set"
  | subSet => bytes "sub_set"
  | symdiffSet => bytes "symdiff_set"
  | stop => bytes "stop"

/-- The command whose name stands at the front of the line. -/
def vldcmdname (cmdln : List UInt8) : Option CommandName :=
  commands.find? fun command => command.text.isPrefixOf cmdln

/-- The set whose name stands at the front of the line. -/
def vldsetname (cmdln : List UInt8) : Option SetName :=
  (List.finRange 6).find? fun i => (sets.get i).isPrefixOf cmdln

/-! ## Numbers -/

/-- The number of characters of a valid number, `-1` for the number -1 and `0`
for an error, with the message that is printed for it. -/
def vldnum (cmdln : List UInt8) : Int × Option Nat :=
  let num := (strtol cmdln).1
  if num = -1 then (-1, none)
  else if 1 ≤ num ∧ num ≤ 9 then (1, none)
  else if 10 ≤ num ∧ num ≤ 99 then (2, none)
  else if 100 ≤ num ∧ num ≤ 127 then (3, none)
  else if num < 0 ∨ 127 < num then (0, some 2)
  else if charAt cmdln = '0'.toUInt8 then (1, none)
  else (0, some 4)

/-! ## The validator -/

/-- The states of the validator. -/
inductive Status
  | cmd
  | set1
  | commaAfterSet1
  | set2
  | commaAfterSet2
  | result
  | number
  | commaRead
  | minus1
  | stop
deriving DecidableEq

/-- What `vldcmdln` returns; the message that says why a line is not valid may
be missing. -/
inductive Verdict
  | valid
  | invalid (message : Option Nat)
deriving DecidableEq

/-- The local variables of `vldcmdln`, and what it returns once it does. -/
structure Validator where
  state : Status
  command : CommandName
  cmdln : List UInt8
  verdict : Option Verdict

namespace Validator

/-- The validator stops with a verdict. -/
def returns (v : Validator) (verdict : Verdict) : Validator :=
  { v with verdict := some verdict }

/-- The next state, with the pointer moved. -/
def goesTo (v : Validator) (state : Status) (n : Nat) : Validator :=
  { v with state := state, cmdln := v.cmdln.drop n }

/-- Nothing but blanks up to the end of the line. -/
def endsLine (v : Validator) : Validator :=
  if v.cmdln.all isspace then v.returns .valid else v.returns (.invalid (some 6))

/-- The set name that `SET2` and `RESULT` look for. -/
def setOperand (v : Validator) (found : Validator) : Validator :=
  if charAt v.cmdln = comma then v.returns (.invalid (some 7))
  else if charAt v.cmdln = 0 then v.returns (.invalid (some 5))
  else if vldsetname v.cmdln = none then v.returns (.invalid (some 0))
  else found

/-- One round of the loop of `vldcmdln`. -/
def round (v : Validator) : Validator :=
  if isspace (charAt v.cmdln) then { v with cmdln := v.cmdln.tail }
  else match v.state with
  | .cmd =>
    match vldcmdname v.cmdln with
    | none => v.returns (.invalid (some 1))
    | some command =>
      let v' : Validator := { v with command := command }
      if command = .stop then v'.goesTo .stop command.text.length
      else v'.goesTo .set1 command.text.length
  | .set1 =>
    if charAt v.cmdln = 0 then v.returns (.invalid (some 5))
    else if charAt v.cmdln = comma then v.returns (.invalid (some 9))
    else if vldsetname v.cmdln = none then v.returns (.invalid (some 0))
    else if v.command = .printSet then (v.goesTo .set1 setNameLen).endsLine
    else if v.command = .readSet then v.goesTo .commaRead setNameLen
    else v.goesTo .commaAfterSet1 setNameLen
  | .commaAfterSet1 =>
    if charAt v.cmdln ≠ comma then v.returns (.invalid (some 8))
    else if v.command = .readSet then v.goesTo .number 1
    else v.goesTo .set2 1
  | .set2 => v.setOperand (v.goesTo .commaAfterSet2 setNameLen)
  | .commaAfterSet2 =>
    if charAt v.cmdln ≠ comma then v.returns (.invalid (some 8))
    else v.goesTo .result 1
  | .result => v.setOperand (v.goesTo .result setNameLen).endsLine
  | .number =>
    if charAt v.cmdln = 0 then v.returns (.invalid (some 3))
    else if charAt v.cmdln = comma then v.returns (.invalid (some 7))
    else
      let num := vldnum v.cmdln
      if num.1 = 0 then v.returns (.invalid num.2)
      else if 1 ≤ num.1 then v.goesTo .commaRead num.1.toNat
      else v.goesTo .minus1 2
  | .commaRead =>
    if charAt v.cmdln = 0 then v.returns (.invalid (some 3))
    else if charAt v.cmdln ≠ comma then
      if charAt v.cmdln = '.'.toUInt8 then
        v.returns (.invalid (if isdigit (charAt v.cmdln.tail) then some 4 else none))
      else v.returns (.invalid (some 8))
    else v.goesTo .number 1
  | .minus1 =>
    if charAt v.cmdln ≠ 0 then v.returns (.invalid (some 6)) else v.returns .valid
  | .stop =>
    if charAt v.cmdln ≠ 0 then v.returns (.invalid (some 6)) else v.returns .valid

/-- The loop goes on until it returns. -/
def goesOn (v : Validator) : Bool :=
  v.verdict = none

/-- Every round that does not return moves the pointer. -/
def remaining (v : Validator) : Nat :=
  if v.verdict = none then v.cmdln.length + 1 else 0

end Validator

/-- `vldcmdln`, from the start of a line. -/
def vldcmdln (cmdln : List UInt8) : Verdict :=
  ((While.loop Validator.goesOn Validator.round Validator.remaining
    { state := .cmd, command := .readSet, cmdln := cmdln, verdict := none }).verdict).getD
      (.invalid none)

end SetCalculator
