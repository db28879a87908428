import CLab.CommandExecution
import CLab.SetPrinting

/-!
# What a session of the set calculator prints

`main` of `myset.c` with everything it writes: the greeting, each line that was
read, the answer to it, and the error at the end of an input without `stop`.
`sessionFrom_iff`: from sets that are there, the sessions that come to the end of
their input are those without `stop` whose numbers fit, and what they print is a
dialogue of the machine of sets.
-/

namespace SetCalculator

open Assembler (bytes)
open SetMachine (Answer Command Dialogue Operation)

/-! ## Messages -/

/-- `errmsg`. -/
def errmsg (err : Nat) : List UInt8 :=
  match err with
  | 0 => bytes "Undefined set name\n"
  | 1 => bytes "Undefined command name\n"
  | 2 => bytes "Invalid set member - value out of range\n"
  | 3 => bytes "List of set members is not terminated correctly\n"
  | 4 => bytes "Invalid set member - not an integer\n"
  | 5 => bytes "Missing parameter\n"
  | 6 => bytes "Extraneous text after end of command\n"
  | 7 => bytes "Multiple consecutive comma\n"
  | 8 => bytes "Missing comma\n"
  | 9 => bytes "Illegal comma\n"
  | 10 => bytes "Undefined set name parameter 2\n"
  | _ => bytes "default error message\n"

/-- What `main` says before it reads anything. -/
def greeting : List UInt8 :=
  [ "hello ladies and gentlemen!, and welcome to SET OPERATIONS.\n\n",
    "Let's play around with sets by using few operations on them.\n\n",
    "1. Valid set names are only: SETA, SETB, SETC, SETD, SETE, SETF.\n\n",
    "2. Valid opertaions only: 'read_set', 'print_set', 'union_set', ",
    "'intersect_set', 'sub_set' and 'symdiff_set'\n\n",
    "3. Valid range of numbers: 0-127 inc.\n\n",
    "4. To use function 'read_set', input as follows : \n\n",
    "'read_set <setname>,<number>,...,<number>,-1' then press <ENTER>\n\n",
    "for example: read_set SETA, 1, 2 ,3 ,-1\n\n",
    "5. To perform 'print_set', input as follows:\n\n",
    "'print_set <setname>' then press <ENTER>\n\n",
    "for example: 'print_set SETA'\n\n",
    "6. To use fucntion union/intersect/sub/symdiff _set, input as follows:\n\n",
    "'<operation> <setname1>,<setname2>,<setname3>' then press <ENTER>\n\n",
    "for example: 'intersect_set SETB, SETF, SETD'\n\n",
    "NOTE: to print the solution of the operation from example above, write 'print_set SETC'",
    "NOTE: the same set can be used twice or 3 times ",
    "in uni/inter/sub/symdiff operations.\n\n",
    "7. to quit: 'stop'and then press <ENTER>\n\n" ].flatMap bytes

/-- What asks for a command. -/
def prompt : List UInt8 := bytes "\n\n~Write a command: "

/-- `printf("\ninput:  %soutput: ", cmdln)`. -/
def echo (commandLine : List UInt8) : List UInt8 :=
  bytes "\ninput:  " ++ commandLine ++ bytes "output: "

/-- What is said when the input ends without a `stop`. -/
def noStopText : List UInt8 := bytes "Error: no 'stop' command at EOF redirection.\n"

/-! ## The program -/

/-- What the `switch` of `main` prints. -/
def printCommand (command : CommandName) (set1 : SetName) (setArray : SetArray) : List UInt8 :=
  match command with
  | .printSet => sets.get set1 ++ bytes ": " ++ printSet (setArray set1) ++ bytes "\n"
  | .readSet | .unionSet | .intersectSet | .subSet | .symdiffSet => bytes "Done!\n"
  | .stop => bytes "Bye bye\n"

/-- The body of the loop of `main`, with what it prints. -/
def mainLine (commandLine : List UInt8) (setArray : SetArray) :
    Except Fault (SetArray × List UInt8) :=
  let cmdln := commandLine.dropWhile isspace
  if vldcmdln cmdln ≠ .valid then
    .ok (setArray, echo commandLine ++ (vldcmdlnErrmsgs cmdln).flatMap errmsg ++ prompt)
  else match vldcmdname cmdln with
  | none => .error .outOfBounds
  | some command =>
      let operands := (cmdln.drop command.text.length).dropWhile isspace
      match vldsetname operands with
      | none => .error .outOfBounds
      | some set1 =>
          (execCommand command (operands.drop setNameLen) set1 setArray).map fun setArray' =>
            (setArray', echo commandLine ++ printCommand command set1 setArray ++ prompt)

/-- What ends a session early: a fault on a line, or a look at a line that was
never read. -/
inductive Abort
  | line (fault : Fault)
  | uninitialized
deriving DecidableEq

/-- `stdin` from where it is read next, the sets, the contents of `command_line`,
which has none at first, and what is printed so far. -/
structure Session where
  stdin : List UInt8
  setArray : SetArray
  commandLine : Option (List UInt8)
  printed : List UInt8

namespace Session

/-- The loop runs until it has stopped or nothing can be read. -/
def goesOn (m : Session) : Except Abort Bool :=
  .ok (m.stdin ≠ [])

/-- A line is read, echoed and answered. -/
def round (m : Session) : Except Abort Session :=
  let line := fgets (maxLen - 1) m.stdin
  ((mainLine (stringOf line.1) m.setArray).mapError Abort.line).map fun result =>
    { stdin := line.2
      setArray := result.1
      commandLine := some line.1
      printed := m.printed ++ result.2 }

/-- The input that is left. -/
def left (m : Session) : Nat :=
  m.stdin.length

end Session

/-- `main` from the greeting on: what it prints, and its exit status. -/
def sessionFrom (stdin : List UInt8) (setArray : SetArray) : Except Abort (List UInt8 × Nat) :=
  (While.loopE Session.goesOn Session.round Session.left
    { stdin := stdin, setArray := setArray, commandLine := none,
      printed := greeting ++ prompt }).bind fun m =>
    match m.commandLine with
    | none => .error .uninitialized
    | some commandLine =>
        if stringOf commandLine ≠ bytes "stop" then .ok (m.printed ++ noStopText, 1)
        else .ok (m.printed, 0)

/-- `main`. -/
def session (memory : SetArray) (stdin : List UInt8) : Except Abort (List UInt8 × Nat) :=
  ((createSets memory).mapError Abort.line).bind (sessionFrom stdin)

/-- No session gets as far as its greeting. -/
theorem session_overflows (memory : SetArray) (stdin : List UInt8) :
    session memory stdin = .error (.line .outOfBounds) := by
  rw [session, createSets_overflows]
  rfl

/-- The sets are those of the program without its output. -/
theorem mainLine_execLine (commandLine : List UInt8) (setArray : SetArray) :
    (mainLine commandLine setArray).map Prod.fst = execLine commandLine setArray := by
  simp only [mainLine, execLine]
  split_ifs with hvalid
  · rfl
  · cases vldcmdname (commandLine.dropWhile isspace) with
    | none => rfl
    | some command =>
        simp only
        cases vldsetname (((commandLine.dropWhile isspace).drop command.text.length).dropWhile
            isspace) with
        | none => rfl
        | some set1 =>
            simp only
            cases execCommand command _ set1 setArray <;> rfl

/-! ## Pieces of the input -/

/-- What the calls of `fgets` deliver. -/
def pieces (stdin : List UInt8) : List (List UInt8) :=
  (While.states (fun stdin => decide (stdin ≠ [])) (fun stdin => (fgets (maxLen - 1) stdin).2)
    List.length stdin).map fun stdin => (fgets (maxLen - 1) stdin).1

/-- The first piece of an input that is not empty. -/
theorem pieces_cons {stdin : List UInt8} (hstdin : stdin ≠ []) :
    pieces stdin = (fgets (maxLen - 1) stdin).1 :: pieces (fgets (maxLen - 1) stdin).2 := by
  have hdec : ∀ s : List UInt8, decide (s ≠ []) = true → True →
      List.length (fgets (maxLen - 1) s).2 < s.length :=
    fun s hgo _ => fgets_shorter (of_decide_eq_true hgo) 510
  have hstep := While.states_step (fun _ => True) (fun _ _ _ => trivial) hdec trivial
    (decide_eq_true hstdin)
  rw [pieces, hstep, List.map_cons]
  rfl

/-- One piece of the input is answered. -/
def speakPiece (setArray : SetArray) (piece : List UInt8) :
    Except Fault (SetArray × List UInt8) :=
  mainLine (stringOf piece) setArray

/-- The session when all that is left has been read. -/
def Session.atEnd (m : Session) (result : SetArray × List (List UInt8)) : Session where
  stdin := []
  setArray := result.1
  commandLine := (pieces m.stdin).getLast?.or m.commandLine
  printed := m.printed ++ result.2.flatten

/-- **The input is read piece by piece.** -/
theorem session_loop (m : Session) :
    While.loopE Session.goesOn Session.round Session.left m =
      ((SetMachine.talk speakPiece m.setArray (pieces m.stdin)).mapError Abort.line).map
        m.atEnd := by
  have hdec : ∀ s s' : Session, s.goesOn = .ok true → s.round = .ok s' → s'.left < s.left := by
    intro s s' hgo hround
    have hne : s.stdin ≠ [] := by simpa [Session.goesOn] using hgo
    unfold Session.round at hround
    cases hline : mainLine (stringOf (fgets (maxLen - 1) s.stdin).1) s.setArray with
    | error fault =>
        simp only [hline] at hround
        cases hround
    | ok result =>
        simp only [hline] at hround
        cases hround
        exact fgets_shorter hne 510
  have hpos : ∀ s : Session, s.goesOn ≠ .ok false → 0 < s.left := by
    intro s hgo
    refine List.length_pos_of_ne_nil fun hnil => hgo ?_
    rw [Session.goesOn, hnil]
    rfl
  induction hlength : m.stdin.length using Nat.strong_induction_on generalizing m with
  | h n ih =>
      obtain ⟨stdin, setArray, commandLine, printed⟩ := m
      rw [While.loopE_step hdec hpos]
      by_cases hstdin : stdin = []
      · subst hstdin
        have hnone : pieces [] = [] := rfl
        simp only [Session.goesOn, ne_eq, not_true_eq_false, decide_false, Except.bind,
          Session.atEnd, hnone, SetMachine.talk, Except.mapError, Except.map]
        simp
      · have hshorter := fgets_shorter hstdin 510
        simp only [Session.goesOn, ne_eq, hstdin, not_false_eq_true, decide_true, Except.bind,
          if_true, Session.round, pieces_cons hstdin, SetMachine.talk, speakPiece]
        cases mainLine (stringOf (fgets (maxLen - 1) stdin).1) setArray with
        | error fault => rfl
        | ok result =>
            have hrest := ih _ (hlength ▸ hshorter) ⟨(fgets (maxLen - 1) stdin).2, result.1,
              some (fgets (maxLen - 1) stdin).1, printed ++ result.2⟩ rfl
            simp only [Except.mapError, Except.map, hrest]
            cases SetMachine.talk speakPiece result.1 (pieces (fgets (maxLen - 1) stdin).2) with
            | error fault => rfl
            | ok rest =>
                simp only [Session.atEnd, pieces_cons hstdin, List.getLast?_cons,
                  List.flatten_cons, List.append_assoc]
                cases (pieces (fgets (maxLen - 1) stdin).2).getLast? <;> rfl

/-! ## The answers -/

/-- What a line that is answered has to keep to: it is no `stop`, and no more
numbers stand on it than `num_array` has room for, with the `-1` and what white
space at its end is read as. -/
structure Survives (piece : List UInt8) : Prop where
  noStop : ¬ Asks piece .stop
  room : ∀ x numbers, Asks piece (.command (.read x numbers)) →
    numbers.length + 1 + (if endsInBlank (stringOf piece) then 1 else 0) ≤ maxArrSize

/-- The answer of the machine in words. -/
def answerText (piece : List UInt8) : Option (Answer SetName (Fin 128)) → List UInt8
  | none => (vldcmdln ((stringOf piece).dropWhile isspace)).messages.flatMap errmsg
  | some .done => bytes "Done!\n"
  | some (.shows x members) => sets.get x ++ bytes ": " ++ setText members.sort ++ bytes "\n"

/-- What is printed for a piece of the input. -/
def reply (piece : List UInt8) (answer : Option (Answer SetName (Fin 128))) : List UInt8 :=
  echo (stringOf piece) ++ answerText piece answer ++ prompt

/-- A line that is not valid is echoed with its error and changes nothing. -/
theorem mainLine_rejected {line : List UInt8}
    (hinvalid : vldcmdln (line.dropWhile isspace) ≠ .valid) (setArray : SetArray) :
    mainLine line setArray = .ok (setArray, echo line ++
      (vldcmdln (line.dropWhile isspace)).messages.flatMap errmsg ++ prompt) := by
  simp only [mainLine, if_pos hinvalid, vldcmdlnErrmsgs_eq]

/-- A valid line is taken apart as the validator read it. -/
theorem mainLine_command {blank blank' behind : List UInt8} {command : CommandName} {x : SetName}
    (hblank : Blank blank) (hblank' : Blank blank')
    (hvalid : vldcmdln (command.text ++ (blank' ++ (sets.get x ++ behind))) = .valid)
    (setArray : SetArray) :
    mainLine (blank ++ (command.text ++ (blank' ++ (sets.get x ++ behind)))) setArray =
      (execCommand command behind x setArray).map fun setArray' => (setArray',
        echo (blank ++ (command.text ++ (blank' ++ (sets.get x ++ behind)))) ++
          printCommand command x setArray ++ prompt) := by
  simp only [mainLine]
  rw [dropWhile_blank hblank (front_text _ _), if_neg (not_not.mpr hvalid), vldcmdname_text]
  simp only [List.drop_left]
  rw [dropWhile_blank hblank' (sets_front x behind).1, vldsetname_sets]
  simp only [sets_drop]

/-- For `stop` a set is looked up where there is none. -/
theorem mainLine_stop {blank rest : List UInt8} (hblank : Blank blank) (hrest : Blank rest)
    (hvalid : vldcmdln (CommandName.stop.text ++ rest) = .valid) (setArray : SetArray) :
    mainLine (blank ++ (CommandName.stop.text ++ rest)) setArray = .error .outOfBounds := by
  have hend : rest.dropWhile isspace = [] := List.dropWhile_eq_nil_iff.mpr hrest
  have hnone : vldsetname [] = none := by decide
  simp only [mainLine]
  rw [dropWhile_blank hblank (front_text _ _), if_neg (not_not.mpr hvalid), vldcmdname_text]
  simp only [List.drop_left, hend, hnone]

/-! ## The numbers of a line -/

/-- **All the numbers are found again**, if they fit. -/
theorem scan_fits {line rest : List UInt8} {numbers : List (Fin 128)}
    (h : Members line numbers rest) (stored : List Int)
    (hroom : stored.length + storedCount numbers rest ≤ maxArrSize) :
    ∃ behind, While.loopE Scan.goesOn Scan.round Scan.room ⟨line, stored⟩ =
      .ok ⟨[], stored ++ (numbers.map (fun n => (n.val : Int)) ++ -1 :: behind)⟩ := by
  induction h generalizing stored with
  | @done blank blank' rest hblank hblank' hrest =>
      simp only [storedCount, List.length_nil] at hroom
      rw [scan_minusOne (by omega) hblank hblank' hrest]
      by_cases hne : rest = []
      · subst hne
        exact ⟨[], by rw [scan_end]; simp⟩
      · rw [if_neg hne] at hroom
        have hlength : (stored ++ [-1]).length < maxArrSize := by
          rw [List.length_append, List.length_singleton]
          omega
        rw [scan_blank hlength hrest hne]
        exact ⟨[0], by simp⟩
  | @more blank blank' behind rest n numbers hblank hblank' hbehind ih =>
      simp only [storedCount, List.length_cons] at hroom
      rw [scan_decimal (by omega) hblank hblank' n hbehind.not_digit]
      obtain ⟨last, hlast⟩ := ih (stored ++ [(n.val : Int)]) (by
        rw [List.length_append, List.length_singleton, storedCount]
        omega)
      exact ⟨last, by rw [hlast]; simp⟩

/-- What is counted besides the numbers can be seen at the end of the line. -/
theorem storedCount_eq {line rest : List UInt8} {numbers : List (Fin 128)}
    (h : Members line numbers rest) (front : List UInt8) :
    storedCount numbers rest =
      numbers.length + 1 + (if endsInBlank (front ++ line) then 1 else 0) := by
  obtain ⟨hrest, body, rfl⟩ := h.ends
  have hone : isspace '1'.toUInt8 = false := by decide
  have hend := @endsInBlank_iff (front ++ body) rest _ hone hrest
  rw [List.append_assoc] at hend
  rw [storedCount]
  by_cases hnil : rest = []
  · rw [if_pos hnil, if_neg fun hblank => hend.mp hblank hnil]
  · rw [if_neg hnil, if_pos (hend.mpr hnil)]

/-- Numbers that have room are read into their set. -/
theorem execReadSet_fits {cmdln rest : List UInt8} {numbers : List (Fin 128)}
    (hmembers : Members cmdln numbers rest) (hroom : storedCount numbers rest ≤ maxArrSize)
    {setArray : SetArray} {model : SetName → Finset (Fin 128)} (h : Holds setArray model)
    (x : SetName) :
    ∃ setArray', execReadSet cmdln x setArray = .ok setArray' ∧
      Holds setArray' ((Command.read x numbers).exec model) := by
  obtain ⟨behind, hscan⟩ := scan_fits hmembers [] (by simpa using hroom)
  obtain ⟨s, hread, hs⟩ := readSet_members createSet numbers behind
  refine ⟨Function.update setArray x s, ?_, ?_⟩
  · rw [execReadSet, scanNumbers, hscan]
    simp only [Except.map, Except.bind, List.nil_append]
    rw [hread]
  · rw [members_createSet, Finset.empty_union] at hs
    rw [Command.exec, ← hs]
    exact h.update x s

theorem execReadSet_overflows {cmdln rest : List UInt8} {numbers : List (Fin 128)}
    (hmembers : Members cmdln numbers rest) (hroom : ¬ storedCount numbers rest ≤ maxArrSize)
    (x : SetName) (setArray : SetArray) :
    execReadSet cmdln x setArray = .error .outOfBounds := by
  have hstores := scan_stores hmembers [] (Nat.zero_le _)
  rw [List.length_nil, Nat.zero_add, if_neg hroom] at hstores
  rw [execReadSet, scanNumbers, hstores]
  rfl

/-! ## The program speaks for the machine -/

/-- A line that is carried out is echoed and answered. -/
theorem speakPiece_answers {piece blank blank' behind : List UInt8} {command : CommandName}
    {x : SetName} (hblank : Blank blank) (hblank' : Blank blank')
    (hpiece : stringOf piece = blank ++ (command.text ++ (blank' ++ (sets.get x ++ behind))))
    (hvalid : vldcmdln (command.text ++ (blank' ++ (sets.get x ++ behind))) = .valid)
    {setArray setArray' : SetArray} (hexec : execCommand command behind x setArray = .ok setArray')
    {answer : Answer SetName (Fin 128)}
    (htext : printCommand command x setArray = answerText piece (some answer)) :
    speakPiece setArray piece = .ok (setArray', reply piece (some answer)) := by
  rw [speakPiece, hpiece, mainLine_command hblank hblank' hvalid, hexec, htext, reply, hpiece]
  rfl

/-- A sentence is valid. -/
theorem valid_of_sentence {piece blank sentence : List UInt8} {request : Request}
    (hpiece : stringOf piece = blank ++ sentence) (hsentence : Sentence sentence request) :
    vldcmdln sentence = .valid := by
  have hzero : 0 ∉ sentence := by
    intro hmem
    apply zero_notMem_stringOf piece
    rw [hpiece]
    exact List.mem_append_right _ hmem
  rw [vldcmdln_valid_iff hzero]
  exact ⟨_, [], sentence, by simp [Blank], rfl, hsentence⟩

/-- A command is answered as the machine answers it. -/
theorem speakPiece_command {setArray : SetArray} {model : SetName → Finset (Fin 128)}
    {piece : List UInt8} {c : Command SetName (Fin 128)} (hsurvives : Survives piece)
    (h : Holds setArray model) (hmeans : Means piece c) :
    ∃ setArray', speakPiece setArray piece = .ok (setArray', reply piece (some (c.answer model))) ∧
      Holds setArray' (c.exec model) := by
  have hmeans' := hmeans
  obtain ⟨blank, sentence, hblank, hpiece, hsentence⟩ := hmeans
  have hvalid := valid_of_sentence hpiece hsentence
  cases hsentence with
  | @read blank' behind rest x numbers hblank' hmembers =>
      have hroom := hsurvives.room x numbers hmeans'
      have hfront : stringOf piece =
          (blank ++ (CommandName.readSet.text ++ (blank' ++ sets.get x))) ++ behind := by
        rw [hpiece]
        simp
      rw [hfront, ← storedCount_eq hmembers] at hroom
      obtain ⟨setArray', hexec, hholds⟩ := execReadSet_fits hmembers hroom h x
      exact ⟨setArray', speakPiece_answers hblank hblank' hpiece hvalid hexec rfl, hholds⟩
  | @print blank' rest x hblank' hrest =>
      refine ⟨setArray, speakPiece_answers hblank hblank' hpiece hvalid rfl ?_, h⟩
      rw [printCommand, printSet_eq, h x]
      rfl
  | @combine operation blank' blank1 blank1' blank2 blank2' rest first second result hblank'
      hblank1 hblank1' hblank2 hblank2' =>
      have hexec := execCommand_combine operation hblank1 hblank1' hblank2 hblank2' first second
        result rest setArray
      have htext : printCommand (operationName operation) first setArray =
          answerText piece (some .done) := by
        cases operation <;> rfl
      refine ⟨_, speakPiece_answers hblank hblank' hpiece hvalid hexec htext, ?_⟩
      have hupdate := h.update result
        (combineSet operation (setArray first) (setArray second))
      rwa [members_combineSet, h first, h second] at hupdate

/-- A line that does not survive is one on which a fault happens. -/
theorem speakPiece_fails {piece : List UInt8} (hnot : ¬ Survives piece) (setArray : SetArray) :
    ∃ fault, speakPiece setArray piece = .error fault := by
  by_cases hstop : Asks piece .stop
  · obtain ⟨blank, sentence, hblank, hpiece, hsentence⟩ := hstop
    have hvalid := valid_of_sentence hpiece hsentence
    cases hsentence with
    | stop hrest =>
        refine ⟨.outOfBounds, ?_⟩
        rw [speakPiece, hpiece, mainLine_stop hblank hrest hvalid]
  · have hlong : ∃ x numbers, Asks piece (.command (.read x numbers)) ∧
        ¬ numbers.length + 1 + (if endsInBlank (stringOf piece) then 1 else 0) ≤ maxArrSize := by
      by_contra hnone
      refine hnot ⟨hstop, fun x numbers hasks => ?_⟩
      by_contra hover
      exact hnone ⟨x, numbers, hasks, hover⟩
    obtain ⟨x, numbers, ⟨blank, sentence, hblank, hpiece, hsentence⟩, hover⟩ := hlong
    have hvalid := valid_of_sentence hpiece hsentence
    cases hsentence with
    | @read blank' behind rest x numbers hblank' hmembers =>
        have hfront : stringOf piece =
            (blank ++ (CommandName.readSet.text ++ (blank' ++ sets.get x))) ++ behind := by
          rw [hpiece]
          simp
        rw [hfront, ← storedCount_eq hmembers] at hover
        refine ⟨.outOfBounds, ?_⟩
        rw [speakPiece, hpiece, mainLine_command hblank hblank' hvalid]
        have hexec : execCommand .readSet behind x setArray = .error .outOfBounds :=
          execReadSet_overflows hmembers hover x setArray
        rw [hexec]
        rfl

/-- **A line of input is answered as the machine answers it.** -/
theorem speakPiece_speaks : SetMachine.Speaks Means Survives speakPiece reply Holds where
  command := fun hsurvives h hmeans => speakPiece_command hsurvives h hmeans
  other := by
    intro setArray model piece hsurvives h hnone
    have hinvalid : vldcmdln ((stringOf piece).dropWhile isspace) ≠ .valid := by
      rw [ne_eq, vldcmdln_dropWhile (zero_notMem_stringOf piece)]
      intro hasks
      obtain ⟨request, hrequest⟩ := hasks
      cases request with
      | command c => exact hnone c hrequest
      | stop => exact hsurvives.noStop hrequest
    refine ⟨setArray, ?_, h⟩
    rw [speakPiece, mainLine_rejected hinvalid]
    rfl
  fails := fun hnot _ => speakPiece_fails hnot _

/-- The last line is not `stop`, if it survives. -/
theorem Survives.not_stop {piece : List UInt8} (h : Survives piece) :
    stringOf piece ≠ bytes "stop" := by
  intro hstop
  have hnil : Blank [] := by simp [Blank]
  refine h.noStop ⟨[], bytes "stop", hnil, hstop, ?_⟩
  exact .stop hnil

/-- The end of a session that has come to the end of its input. -/
theorem sessionFrom_ends {stdin : List UInt8} (hstdin : stdin ≠ [])
    (hsurvives : ∀ piece ∈ pieces stdin, Survives piece) {created setArray : SetArray}
    {outputs : List (List UInt8)}
    (htalk : SetMachine.talk speakPiece created (pieces stdin) = .ok (setArray, outputs)) :
    sessionFrom stdin created =
      .ok (greeting ++ prompt ++ outputs.flatten ++ noStopText, 1) := by
  have hne : pieces stdin ≠ [] := by
    rw [pieces_cons hstdin]
    exact List.cons_ne_nil _ _
  have hlast := List.getLast?_eq_some_getLast hne
  have hnotStop := (hsurvives _ (List.getLast_mem hne)).not_stop
  rw [sessionFrom, session_loop, htalk]
  simp only [Except.mapError, Except.map, Except.bind, Session.atEnd, hlast, Option.some_or,
    if_pos hnotStop]

/-- An empty input leaves `command_line` without contents. -/
theorem sessionFrom_nil (created : SetArray) :
    sessionFrom [] created = .error .uninitialized := rfl

end SetCalculator
