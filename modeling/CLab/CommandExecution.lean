import CLab.CommandMessages
import CLab.SetCalculator

/-!
# The second reading of a valid line

`main` goes over a valid line again, with its own rules for what it skips.  Two
things may go wrong on the way: the numbers of a `read_set` line may not fit
into `num_array` (`storesWithin_iff`), and a set may be looked up where no set
name stands, which happens for `stop` (`lookupsAgree_iff`).
-/

namespace SetCalculator

open Assembler (bytes)
open SetMachine (Operation)

/-! ## Filling the array -/

/-- The cursor where the loop that fills `num_array` begins. -/
def numberText (commandLine : List UInt8) : List UInt8 :=
  ((((commandLine.dropWhile isspace).drop CommandName.readSet.text.length).dropWhile
    isspace).drop setNameLen)

/-- The loop stores no more values than there is room for. -/
def StoresWithin (cmdln : List UInt8) : Prop :=
  ∃ numArray, scanNumbers cmdln = .ok numArray ∧ numArray.length ≤ maxArrSize

/-- The line ends in white space. -/
def endsInBlank (line : List UInt8) : Bool :=
  line.getLast?.any isspace

/-- In a full array the next number is stored outside. -/
theorem scan_full {line : List UInt8} {stored : List Int} (hline : charAt line ≠ 0)
    (hfull : maxArrSize ≤ stored.length) :
    While.loopE Scan.goesOn Scan.round Scan.room ⟨line, stored⟩ = .error .outOfBounds := by
  have hnot : ¬ stored.length < maxArrSize := Nat.not_lt.mpr hfull
  obtain ⟨room, hroom⟩ : ∃ n, Scan.room ⟨line, stored⟩ = n + 1 := ⟨_, rfl⟩
  rw [While.loopE, hroom, While.runE]
  simp only [Scan.goesOn, Scan.round, Except.bind, hline, ne_eq, not_false_eq_true, decide_true,
    if_true, hnot, if_false]

/-- How many values the loop stores: the numbers, the `-1`, and one more where
white space stands behind it. -/
def storedCount (numbers : List (Fin 128)) (rest : List UInt8) : Nat :=
  numbers.length + 1 + if rest = [] then 0 else 1

/-- **The loop.**  It stores all its values if there is room for them, and
fails otherwise. -/
theorem scan_stores {line rest : List UInt8} {numbers : List (Fin 128)}
    (h : Members line numbers rest) (stored : List Int) (hstored : stored.length ≤ maxArrSize) :
    if stored.length + storedCount numbers rest ≤ maxArrSize then
      ∃ last, While.loopE Scan.goesOn Scan.round Scan.room ⟨line, stored⟩ = .ok last ∧
        last.numArray.length = stored.length + storedCount numbers rest
    else While.loopE Scan.goesOn Scan.round Scan.room ⟨line, stored⟩ = .error .outOfBounds := by
  induction h generalizing stored with
  | @done blank blank' rest hblank hblank' hrest =>
      by_cases hroom : stored.length < maxArrSize
      case neg =>
        have hfull : maxArrSize ≤ stored.length := Nat.not_lt.mp hroom
        rw [if_neg (by simp only [storedCount, List.length_nil]; omega)]
        exact scan_full (charAt_separator hblank _).1 hfull
      rw [scan_minusOne hroom hblank hblank' hrest]
      by_cases hne : rest = []
      · subst hne
        rw [if_pos (by simp only [storedCount, List.length_nil, if_true]; omega)]
        exact ⟨_, scan_end _, by simp [storedCount]⟩
      have hlength : (stored ++ [-1]).length = stored.length + 1 := by simp
      by_cases hone : stored.length + 1 < maxArrSize
      · rw [if_pos (by simp only [storedCount, List.length_nil, if_neg hne]; omega)]
        exact ⟨_, scan_blank (by omega) hrest hne, by simp [storedCount, hne]⟩
      · rw [if_neg (by simp only [storedCount, List.length_nil, if_neg hne]; omega)]
        obtain ⟨ch, text, hcons⟩ := List.exists_cons_of_ne_nil hne
        refine scan_full ?_ (by omega)
        rw [hcons]
        exact blank_ne_zero (hcons ▸ hrest)
  | @more blank blank' behind rest n numbers hblank hblank' hbehind ih =>
      by_cases hroom : stored.length < maxArrSize
      case neg =>
        rw [if_neg (by simp only [storedCount, List.length_cons]; omega)]
        exact scan_full (charAt_separator hblank _).1 (by omega)
      have hlength : (stored ++ [(n.val : Int)]).length = stored.length + 1 := by simp
      have hcount : storedCount (n :: numbers) rest = 1 + storedCount numbers rest := by
        simp only [storedCount, List.length_cons]
        omega
      rw [scan_decimal hroom hblank hblank' n hbehind.not_digit, hcount, ← Nat.add_assoc,
        ← hlength]
      exact ih _ (by omega)

/-- The scan stays inside if its numbers have room. -/
theorem scanNumbers_within_iff {line rest : List UInt8} {numbers : List (Fin 128)}
    (h : Members line numbers rest) :
    StoresWithin line ↔ storedCount numbers rest ≤ maxArrSize := by
  have hstores := scan_stores h [] (Nat.zero_le _)
  rw [List.length_nil, Nat.zero_add] at hstores
  by_cases hfits : storedCount numbers rest ≤ maxArrSize
  · rw [if_pos hfits] at hstores
    obtain ⟨last, hlast, hlength⟩ := hstores
    refine iff_of_true ⟨last.numArray, ?_, by omega⟩ hfits
    rw [scanNumbers, hlast, Except.map]
  · rw [if_neg hfits] at hstores
    refine iff_of_false ?_ hfits
    intro hwithin
    obtain ⟨numArray, hscan, -⟩ := hwithin
    rw [scanNumbers, hstores] at hscan
    cases hscan

/-! ## How many values a line has -/

/-- No blank is a comma. -/
theorem Blank.count_comma {blank : List UInt8} (h : Blank blank) : blank.count comma = 0 := by
  apply List.count_eq_zero.mpr
  intro hcomma
  exact absurd (h comma hcomma) (by decide)

theorem decimal_count_comma (n : Fin 128) : (decimal n).count comma = 0 := by
  obtain ⟨-, hdigits, -⟩ := decimal_digits n
  apply List.count_eq_zero.mpr
  intro hcomma
  exact absurd (hdigits comma hcomma) (by decide)

/-- A comma stands in front of every number and of the `-1`. -/
theorem Members.count_comma {line rest : List UInt8} {numbers : List (Fin 128)}
    (h : Members line numbers rest) : line.count comma = numbers.length + 1 := by
  induction h with
  | done hblank hblank' hrest =>
      have hminus : (bytes "-1").count comma = 0 := by decide
      simp [hblank.count_comma, hblank'.count_comma, hrest.count_comma, hminus]
  | @more blank blank' behind rest n numbers hblank hblank' _ ih =>
      simp [hblank.count_comma, hblank'.count_comma, decimal_count_comma, ih]

/-- The `-1` is the last thing on the line but for white space. -/
theorem Members.ends {line rest : List UInt8} {numbers : List (Fin 128)}
    (h : Members line numbers rest) :
    Blank rest ∧ ∃ body, line = body ++ '1'.toUInt8 :: rest := by
  induction h with
  | @done blank blank' rest hblank hblank' hrest =>
      refine ⟨hrest, blank ++ comma :: (blank' ++ bytes "-"), ?_⟩
      rw [List.append_assoc, List.cons_append, List.append_assoc]
      rfl
  | @more blank blank' behind rest n numbers hblank hblank' _ ih =>
      obtain ⟨hrest, body, hbody⟩ := ih
      refine ⟨hrest, blank ++ comma :: (blank' ++ (decimal n ++ body)), ?_⟩
      simp [hbody]

/-- A text ends in a blank if blanks stand behind its last word. -/
theorem endsInBlank_iff {body rest : List UInt8} {ch : UInt8} (hch : isspace ch = false)
    (hrest : Blank rest) : endsInBlank (body ++ ch :: rest) = true ↔ rest ≠ [] := by
  rcases List.eq_nil_or_concat rest with hnil | ⟨front, last, hlast⟩
  · subst hnil
    simp [endsInBlank, hch]
  · have hspace : isspace last = true := hrest last (by simp [hlast])
    subst hlast
    have hsplit : body ++ ch :: (front.concat last) = (body ++ ch :: front) ++ [last] := by simp
    rw [endsInBlank, hsplit, List.getLast?_concat]
    simp [hspace]

/-! ## The lines that are carried out -/

/-- The name of the command that a line asks for. -/
def Request.commandName : Request → CommandName
  | .command (.read _ _) => .readSet
  | .command (.print _) => .printSet
  | .command (.combine operation _ _ _) => operationName operation
  | .stop => .stop

/-- A sentence begins with the name of its command. -/
theorem Sentence.vldcmdname_eq {sentence : List UInt8} {request : Request}
    (h : Sentence sentence request) : vldcmdname sentence = some request.commandName := by
  cases h <;> exact vldcmdname_text _ _

/-- A line that `main` carries out, taken apart. -/
theorem exists_sentence_of_valid {line : List UInt8} (hline : 0 ∉ line)
    (hvalid : vldcmdln (line.dropWhile isspace) = .valid) :
    ∃ blank sentence request, Blank blank ∧ line = blank ++ sentence ∧
      Sentence sentence request ∧ line.dropWhile isspace = sentence := by
  obtain ⟨request, blank, sentence, hblank, hcut, hsentence⟩ := (vldcmdln_dropWhile hline).mp hvalid
  have hfront : Front sentence := by
    cases hsentence <;> exact front_text _ _
  refine ⟨blank, sentence, request, hblank, hcut, hsentence, ?_⟩
  rw [hcut, dropWhile_blank hblank hfront]

/-- A valid `read_set` line. -/
structure ReadSetLine (line : List UInt8) : Prop where
  noNul : 0 ∉ line
  valid : vldcmdln (line.dropWhile isspace) = .valid
  command : vldcmdname (line.dropWhile isspace) = some .readSet

/-- A line that reads a set has a name, a set and numbers. -/
theorem ReadSetLine.parts {line : List UInt8} (h : ReadSetLine line) :
    ∃ (blank blank' behind rest : List UInt8) (x : SetName) (numbers : List (Fin 128)),
      Blank blank ∧ Blank blank' ∧ Members behind numbers rest ∧
      line = blank ++ (CommandName.readSet.text ++ (blank' ++ (sets.get x ++ behind))) := by
  obtain ⟨blank, sentence, request, hblank, hcut, hsentence, hdrop⟩ :=
    exists_sentence_of_valid h.noNul h.valid
  have hname := h.command
  rw [hdrop, hsentence.vldcmdname_eq] at hname
  cases hsentence with
  | @read blank' behind rest x numbers hblank' hmembers =>
      exact ⟨blank, blank', behind, rest, x, numbers, hblank, hblank', hmembers, hcut⟩
  | print => exact absurd (Option.some.inj hname) (by simp [Request.commandName])
  | @combine operation =>
      cases operation <;> exact absurd (Option.some.inj hname) (by simp [Request.commandName,
        operationName])
  | stop => exact absurd (Option.some.inj hname) (by simp [Request.commandName])

/-- The numbers stand behind the set. -/
theorem numberText_parts {blank blank' behind : List UInt8} {x : SetName} (hblank : Blank blank)
    (hblank' : Blank blank') :
    numberText (blank ++ (CommandName.readSet.text ++ (blank' ++ (sets.get x ++ behind)))) =
      behind := by
  rw [numberText, dropWhile_blank hblank (front_text _ _), List.drop_left,
    dropWhile_blank hblank' (sets_front x behind).1, sets_drop]

/-- What `main` does with a `read_set` line is the loop from that cursor on. -/
theorem ReadSetLine.execLine {line : List UInt8} (h : ReadSetLine line) :
    ∃ x, ∀ setArray, execLine line setArray = execReadSet (numberText line) x setArray := by
  obtain ⟨blank, blank', behind, rest, x, numbers, hblank, hblank', -, hcut⟩ := h.parts
  have hvalid := h.valid
  rw [hcut, dropWhile_blank hblank (front_text _ _)] at hvalid
  refine ⟨x, fun setArray => ?_⟩
  rw [hcut, numberText_parts hblank hblank', execLine_command hblank hblank' hvalid]
  rfl

/-- **The array of `read_set`.**  The values of a valid line fit exactly when
there are at most 128 commas on it, the white space at its end counted as one
more. -/
theorem storesWithin_iff {line : List UInt8} (h : ReadSetLine line) :
    StoresWithin (numberText line) ↔
      line.count comma + (if endsInBlank line then 1 else 0) ≤ maxArrSize := by
  obtain ⟨blank, blank', behind, rest, x, numbers, hblank, hblank', hmembers, hcut⟩ := h.parts
  obtain ⟨hrest, body, hbody⟩ := hmembers.ends
  have hcount : line.count comma = numbers.length + 1 := by
    have htext : CommandName.readSet.text.count comma = 0 := by decide
    have hset : ∀ x : SetName, (sets.get x).count comma = 0 := by decide
    simp [hcut, hblank.count_comma, hblank'.count_comma, htext, hset, hmembers.count_comma]
  have hend : endsInBlank line = true ↔ rest ≠ [] := by
    have hsplit : line =
        (blank ++ (CommandName.readSet.text ++ (blank' ++ (sets.get x ++ body)))) ++
          '1'.toUInt8 :: rest := by
      simp [hcut, hbody]
    rw [hsplit]
    exact endsInBlank_iff (by decide) hrest
  have hstored : storedCount numbers rest =
      line.count comma + (if endsInBlank line then 1 else 0) := by
    rw [hcount, storedCount]
    by_cases hnil : rest = []
    · rw [if_pos hnil, if_neg fun hblank => hend.mp hblank hnil]
    · rw [if_neg hnil, if_pos (hend.mpr hnil)]
  rw [hcut, numberText_parts hblank hblank', ← hcut, ← hstored]
  exact scanNumbers_within_iff hmembers

/-- One number. -/
theorem storesWithin_sample : StoresWithin (numberText (bytes "read_set SETA, 5, -1\n")) :=
  (storesWithin_iff ⟨by decide, by decide +kernel, by decide +kernel⟩).mpr (by decide +kernel)

/-- A line with 127 numbers, the `-1` and the newline that ends it. -/
def fullLine : List UInt8 :=
  bytes "read_set SETA" ++ (List.replicate 127 (bytes ",0")).flatten ++ bytes ",-1\n"

/-- The line is valid, and its last value, read from the newline, does not fit. -/
theorem fullLine_overflows :
    fullLine.length ≤ 511 ∧ ReadSetLine fullLine ∧ ¬ StoresWithin (numberText fullLine) := by
  have hoverflow : scanNumbers (numberText fullLine) = .error .outOfBounds := by decide +kernel
  refine ⟨by decide +kernel, ⟨by decide +kernel, by decide +kernel, by decide +kernel⟩, ?_⟩
  intro hwithin
  obtain ⟨numArray, hscan, -⟩ := hwithin
  rw [hoverflow] at hscan
  cases hscan

/-! ## Looking up the sets -/

/-- The set name that a round of `vldcmdln` recognises, by its place. -/
def Validator.recognised (v : Validator) : Option (List UInt8) :=
  if isspace (charAt v.cmdln) then none
  else match v.state with
  | .set1 | .set2 | .result => if (vldsetname v.cmdln).isSome then some v.cmdln else none
  | .cmd | .commaAfterSet1 | .commaAfterSet2 | .number | .commaRead | .minus1 | .stop => none

/-- From a state on, the set names that `vldcmdln` recognises. -/
def recognisedFrom (state : Status) (command : CommandName) (cmdln : List UInt8) :
    List (List UInt8) :=
  (While.states Validator.goesOn Validator.round Validator.remaining
    ⟨state, command, cmdln, none⟩).filterMap Validator.recognised

/-- The set names that `vldcmdln` recognises on a line. -/
def recognisedNames (cmdln : List UInt8) : List (List UInt8) :=
  (validatorStates cmdln).filterMap Validator.recognised

/-- The cursors of `main` at the other two operands of a two-set command. -/
def otherLookups (command : CommandName) (cmdln : List UInt8) : List (List UInt8) :=
  let second := skipSeparators cmdln
  match command with
  | .unionSet | .intersectSet | .subSet | .symdiffSet =>
    [second, skipSeparators (second.drop setNameLen)]
  | .readSet | .printSet | .stop => []

/-- The cursors at which `main` calls `vldsetname` for a line: twice at the
first operand, for the name of the set and for the set itself, and once at each
of the others. -/
def lookups (commandLine : List UInt8) : List (List UInt8) :=
  let cmdln := commandLine.dropWhile isspace
  if vldcmdln cmdln ≠ .valid then []
  else match vldcmdname cmdln with
  | none => []
  | some command =>
      let first := (cmdln.drop command.text.length).dropWhile isspace
      first :: first :: otherLookups command (first.drop setNameLen)

/-- What the two readings of a line are meant to have in common: `main` looks a
set up at the names that `vldcmdln` has recognised, in their order, and finds
one of the six. -/
structure LookupsAgree (line : List UInt8) : Prop where
  names : ∃ first rest, recognisedNames (line.dropWhile isspace) = first :: rest ∧
    lookups line = first :: first :: rest
  inBounds : ∀ cursor ∈ lookups line, ∃ x, vldsetname cursor = some x

section Recognised

variable {state : Status} {command : CommandName} {cmdln : List UInt8}

/-- The first state comes before those of the next round. -/
theorem states_round :
    While.states Validator.goesOn Validator.round Validator.remaining
        ⟨state, command, cmdln, none⟩ =
      ⟨state, command, cmdln, none⟩ :: While.states Validator.goesOn Validator.round
        Validator.remaining (Validator.round ⟨state, command, cmdln, none⟩) :=
  While.states_step (fun _ => True) (fun _ _ _ => trivial)
    (fun _ hgo _ => round_remaining hgo) trivial rfl

/-- A round that goes on adds what it recognises. -/
theorem recognisedFrom_of_goesOn {state' : Status} {command' : CommandName} {cmdln' : List UInt8}
    (hround : Validator.round ⟨state, command, cmdln, none⟩ = ⟨state', command', cmdln', none⟩) :
    recognisedFrom state command cmdln =
      (Validator.recognised ⟨state, command, cmdln, none⟩).toList ++
        recognisedFrom state' command' cmdln' := by
  rw [recognisedFrom, states_round, hround, List.filterMap_cons]
  cases Validator.recognised ⟨state, command, cmdln, none⟩ <;> rfl

theorem recognisedFrom_of_returns {v : Validator} {verdict : Verdict}
    (hround : Validator.round ⟨state, command, cmdln, none⟩ = v.returns verdict) :
    recognisedFrom state command cmdln =
      (Validator.recognised ⟨state, command, cmdln, none⟩).toList := by
  have hexit : While.states Validator.goesOn Validator.round Validator.remaining
      (v.returns verdict) = [] := While.runStates_of_exit rfl _
  rw [recognisedFrom, states_round, hround, hexit, List.filterMap_cons]
  cases Validator.recognised ⟨state, command, cmdln, none⟩ <;> rfl

/-- In blanks nothing is recognised. -/
theorem recognisedFrom_blank {blank : List UInt8} (hblank : Blank blank) :
    recognisedFrom state command (blank ++ cmdln) = recognisedFrom state command cmdln := by
  induction blank with
  | nil => rfl
  | cons ch blank ih =>
      have hch : isspace ch = true := hblank ch List.mem_cons_self
      have hround : Validator.round ⟨state, command, ch :: (blank ++ cmdln), none⟩ =
          ⟨state, command, blank ++ cmdln, none⟩ := by
        rw [Validator.round]
        exact if_pos hch
      have hnone : Validator.recognised ⟨state, command, ch :: (blank ++ cmdln), none⟩ = none := by
        rw [Validator.recognised]
        exact if_pos hch
      rw [List.cons_append, recognisedFrom_of_goesOn hround, hnone,
        ih fun d hd => hblank d (List.mem_cons_of_mem _ hd)]
      rfl

/-- Where a set name is looked for and stands, it is recognised. -/
theorem recognised_sets (hstate : state = .set1 ∨ state = .set2 ∨ state = .result)
    (x : SetName) (rest : List UInt8) :
    Validator.recognised ⟨state, command, sets.get x ++ rest, none⟩ =
      some (sets.get x ++ rest) := by
  have hfront : ¬ isspace (charAt (sets.get x ++ rest)) = true :=
    Bool.not_eq_true _ ▸ (sets_front x rest).1
  rw [Validator.recognised, if_neg hfront]
  rcases hstate with rfl | rfl | rfl <;> simp [vldsetname_sets]

/-- The states in which no set name is looked for, nor later. -/
def Validator.BehindNames (v : Validator) : Prop :=
  v.state = .number ∨ v.state = .commaRead ∨ v.state = .minus1 ∨ v.state = .stop

/-- Behind the names no round recognises one. -/
theorem Validator.BehindNames.round {v : Validator} (h : v.BehindNames) :
    v.round.BehindNames ∧ v.recognised = none := by
  obtain ⟨state, command, cmdln, verdict⟩ := v
  constructor
  · by_cases hblank : isspace (charAt cmdln) = true
    · simpa [Validator.round, hblank, Validator.BehindNames] using h
    rcases h with h | h | h | h <;>
    · simp only at h
      subst h
      simp only [Validator.round, hblank, if_false, Bool.false_eq_true]
      split_ifs <;> simp [Validator.BehindNames, Validator.returns, Validator.goesTo]
  · rcases h with h | h | h | h <;>
    · simp only at h
      subst h
      simp [Validator.recognised]

/-- So nothing is recognised there. -/
theorem recognisedFrom_behindNames
    (h : (⟨state, command, cmdln, none⟩ : Validator).BehindNames) :
    recognisedFrom state command cmdln = [] := by
  rw [recognisedFrom]
  refine While.states_induction Validator.BehindNames (fun v _ hv => hv.round.1)
    (fun v hgo _ => round_remaining hgo)
    (fun _ vs _ => vs.filterMap Validator.recognised = []) (fun _ _ _ => rfl) ?_ h
  intro v vs last _ hv hrest
  rw [List.filterMap_cons_none hv.round.2, hrest]

/-- Between the names nothing is recognised. -/
theorem recognised_aside
    (hstate : state = .cmd ∨ state = .commaAfterSet1 ∨ state = .commaAfterSet2) :
    Validator.recognised ⟨state, command, cmdln, none⟩ = none := by
  rcases hstate with rfl | rfl | rfl <;> simp [Validator.recognised]

/-- Up to the first set name. -/
theorem recognisedNames_text {blank : List UInt8} (text : List UInt8) (found : CommandName)
    (hstop : found ≠ .stop) (hblank : Blank blank) :
    recognisedNames (found.text ++ (blank ++ text)) = recognisedFrom .set1 found text := by
  have hround := round_cmd .readSet found (blank ++ text)
  rw [if_neg hstop] at hround
  have hgoes := recognisedFrom_of_goesOn hround
  rw [recognised_aside (Or.inl rfl), recognisedFrom_blank hblank] at hgoes
  exact hgoes

/-- A set name between two others. -/
theorem recognisedFrom_name {state' : Status} (x : SetName) {rest : List UInt8}
    (hstate : state = .set1 ∨ state = .set2 ∨ state = .result)
    (hround : Validator.round ⟨state, command, sets.get x ++ rest, none⟩ =
      ⟨state', command, rest, none⟩) :
    recognisedFrom state command (sets.get x ++ rest) =
      (sets.get x ++ rest) :: recognisedFrom state' command rest := by
  rw [recognisedFrom_of_goesOn hround, recognised_sets hstate]
  rfl

/-- A set name that the line ends with. -/
theorem recognisedFrom_lastName (x : SetName) {rest : List UInt8}
    (hstate : state = .set1 ∨ state = .set2 ∨ state = .result)
    (hround : Validator.round ⟨state, command, sets.get x ++ rest, none⟩ =
      (Validator.goesTo ⟨state, command, sets.get x ++ rest, none⟩ state setNameLen).endsLine) :
    recognisedFrom state command (sets.get x ++ rest) = [sets.get x ++ rest] := by
  obtain ⟨verdict, hends, -⟩ := endsLine_accepts
    (Validator.goesTo ⟨state, command, sets.get x ++ rest, none⟩ state setNameLen)
  rw [recognisedFrom_of_returns (hround.trans hends), recognised_sets hstate]
  rfl

/-- A comma and the white space around it. -/
theorem recognisedFrom_comma {state' : Status} {blank blank' text : List UInt8}
    (hstate : state = .cmd ∨ state = .commaAfterSet1 ∨ state = .commaAfterSet2)
    (hblank : Blank blank) (hblank' : Blank blank')
    (hround : Validator.round ⟨state, command, comma :: (blank' ++ text), none⟩ =
      ⟨state', command, blank' ++ text, none⟩) :
    recognisedFrom state command (blank ++ comma :: (blank' ++ text)) =
      recognisedFrom state' command text := by
  rw [recognisedFrom_blank hblank, recognisedFrom_of_goesOn hround, recognised_aside hstate,
    Option.toList_none, List.nil_append, recognisedFrom_blank hblank']

end Recognised

/-- The second reading up to the first operand. -/
theorem lookups_text {blank blank' text : List UInt8} {command : CommandName} {x : SetName}
    (hblank : Blank blank) (hblank' : Blank blank')
    (hvalid : vldcmdln (command.text ++ (blank' ++ (sets.get x ++ text))) = .valid) :
    lookups (blank ++ (command.text ++ (blank' ++ (sets.get x ++ text)))) =
      (sets.get x ++ text) :: (sets.get x ++ text) ::
        otherLookups command text := by
  simp only [lookups]
  rw [dropWhile_blank hblank (front_text _ _), if_neg (not_not.mpr hvalid), vldcmdname_text]
  simp only [List.drop_left]
  rw [dropWhile_blank hblank' (sets_front x text).1, sets_drop]

/-- Cursors at set names are right. -/
theorem LookupsAgree.of_names {line first : List UInt8} {rest : List (List UInt8)}
    (hnames : recognisedNames (line.dropWhile isspace) = first :: rest)
    (hlookups : lookups line = first :: first :: rest)
    (hsets : ∀ cursor ∈ first :: rest, ∃ (x : SetName) (text : List UInt8),
      cursor = sets.get x ++ text) : LookupsAgree line := by
  refine ⟨⟨first, rest, hnames, hlookups⟩, ?_⟩
  intro cursor hcursor
  have hmem : cursor ∈ first :: rest := by
    rw [hlookups] at hcursor
    rcases List.mem_cons.mp hcursor with hfirst | hrest
    · rw [hfirst]
      exact List.mem_cons_self
    · exact hrest
  obtain ⟨x, text, htext⟩ := hsets cursor hmem
  exact ⟨x, by rw [htext, vldsetname_sets]⟩

/-- The names that the validator recognises on the line of a two-set command. -/
theorem recognisedNames_combine (operation : Operation)
    {blank blank1 blank1' blank2 blank2' : List UInt8} (hblank : Blank blank)
    (hblank1 : Blank blank1) (hblank1' : Blank blank1') (hblank2 : Blank blank2)
    (hblank2' : Blank blank2') (first second result : SetName) (rest : List UInt8) :
    recognisedNames ((operationName operation).text ++ (blank ++ (sets.get first ++ (blank1 ++
        comma :: (blank1' ++ (sets.get second ++ (blank2 ++
          comma :: (blank2' ++ (sets.get result ++ rest))))))))) =
      [sets.get first ++ (blank1 ++ comma :: (blank1' ++ (sets.get second ++ (blank2 ++
          comma :: (blank2' ++ (sets.get result ++ rest)))))),
        sets.get second ++ (blank2 ++ comma :: (blank2' ++ (sets.get result ++ rest))),
        sets.get result ++ rest] := by
  have hname : operationName operation ≠ .printSet ∧ operationName operation ≠ .readSet ∧
      operationName operation ≠ .stop := by
    cases operation <;> decide
  have hset1 := round_set1 (operationName operation) first (blank1 ++ comma :: (blank1' ++
    (sets.get second ++ (blank2 ++ comma :: (blank2' ++ (sets.get result ++ rest))))))
  rw [if_neg hname.1, if_neg hname.2.1] at hset1
  rw [recognisedNames_text _ _ hname.2.2 hblank, recognisedFrom_name first (Or.inl rfl) hset1,
    recognisedFrom_comma (Or.inr (Or.inl rfl)) hblank1 hblank1'
      (round_commaAfterSet1 hname.2.1 _),
    recognisedFrom_name second (Or.inr (Or.inl rfl)) (round_set2 _ second _),
    recognisedFrom_comma (Or.inr (Or.inr rfl)) hblank2 hblank2' (round_commaAfterSet2 _ _),
    recognisedFrom_lastName result (Or.inr (Or.inr rfl)) (round_result _ result rest)]

/-- **The two readings agree** on every valid line but `stop`, for which `main`
looks a set up too. -/
theorem lookupsAgree_iff {line : List UInt8} (hline : 0 ∉ line)
    (hvalid : vldcmdln (line.dropWhile isspace) = .valid) :
    LookupsAgree line ↔ vldcmdname (line.dropWhile isspace) ≠ some .stop := by
  obtain ⟨blank, sentence, request, hblank, hcut, hsentence, hdrop⟩ :=
    exists_sentence_of_valid hline hvalid
  rw [hdrop] at hvalid ⊢
  rw [hsentence.vldcmdname_eq]
  cases hsentence with
  | @read blank' behind rest x numbers hblank' hmembers =>
      have hlookups := lookups_text hblank hblank' hvalid
      have hnames := recognisedNames_text (sets.get x ++ behind) .readSet (by decide) hblank'
      rw [recognisedFrom_name x (Or.inl rfl) (round_set1 .readSet x behind),
        recognisedFrom_behindNames (Or.inr (Or.inl rfl)), ← hdrop] at hnames
      rw [← hcut] at hlookups
      refine iff_of_true (.of_names hnames hlookups ?_) (by simp [Request.commandName])
      simp only [List.forall_mem_singleton]
      exact ⟨x, behind, rfl⟩
  | @print blank' rest x hblank' hrest =>
      have hlookups := lookups_text hblank hblank' hvalid
      have hnames := recognisedNames_text (sets.get x ++ rest) .printSet (by decide) hblank'
      rw [recognisedFrom_lastName x (Or.inl rfl) (round_set1 .printSet x rest), ← hdrop] at hnames
      rw [← hcut] at hlookups
      refine iff_of_true (.of_names hnames hlookups ?_) (by simp [Request.commandName])
      simp only [List.forall_mem_singleton]
      exact ⟨x, rest, rfl⟩
  | @combine operation blank' blank1 blank1' blank2 blank2' rest first second result hblank'
      hblank1 hblank1' hblank2 hblank2' hrest =>
      have hlookups := lookups_text hblank hblank' hvalid
      have hnames := recognisedNames_combine operation hblank' hblank1 hblank1' hblank2 hblank2'
        first second result rest
      rw [← hdrop] at hnames
      have hothers : ∀ text, otherLookups (operationName operation) text =
          [skipSeparators text, skipSeparators ((skipSeparators text).drop setNameLen)] := by
        cases operation <;> exact fun _ => rfl
      rw [hothers, skipSeparators_sets hblank1 hblank1', sets_drop,
        skipSeparators_sets hblank2 hblank2', ← hcut] at hlookups
      have hnotStop : (Request.command (.combine operation first second result)).commandName ≠
          .stop := by
        cases operation <;> simp [Request.commandName, operationName]
      refine iff_of_true (.of_names hnames hlookups ?_) fun h => hnotStop (Option.some.inj h)
      simp only [List.mem_cons, List.not_mem_nil, or_false, forall_eq_or_imp, forall_eq]
      exact ⟨⟨first, _, rfl⟩, ⟨second, _, rfl⟩, ⟨result, rest, rfl⟩⟩
  | @stop rest hrest =>
      -- behind `stop` there is no set name to be found
      refine iff_of_false ?_ (by simp [Request.commandName])
      intro h
      have hend : rest.dropWhile isspace = [] := List.dropWhile_eq_nil_iff.mpr hrest
      have hlookups : lookups line = [[], []] := by
        simp only [lookups]
        rw [hdrop, if_neg (not_not.mpr hvalid), vldcmdname_text]
        simp only [List.drop_left, hend]
        rfl
      obtain ⟨x, hx⟩ := h.inBounds [] (by rw [hlookups]; exact List.mem_cons_self)
      have hnone : vldsetname [] = none := by decide
      rw [hnone] at hx
      cases hx

/-- A line with three sets, and one with none. -/
theorem lookupsAgree_sample :
    LookupsAgree (bytes " union_set SETA , SETB,SETC\n") ∧ ¬ LookupsAgree (bytes "stop\n") := by
  refine ⟨(lookupsAgree_iff (by decide) (by decide +kernel)).mpr (by decide +kernel), ?_⟩
  rw [lookupsAgree_iff (by decide) (by decide +kernel)]
  decide +kernel

/-- For `stop` the index is that of no set. -/
theorem stop_looksUp : vldcmdln (bytes "stop\n") = .valid ∧ ¬ LookupsAgree (bytes "stop\n") := by
  refine ⟨by decide +kernel, ?_⟩
  intro h
  have hlookups : [] ∈ lookups (bytes "stop\n") := by decide +kernel
  obtain ⟨x, hx⟩ := h.inBounds [] hlookups
  have hnone : vldsetname [] = none := by decide
  rw [hnone] at hx
  cases hx

end SetCalculator
