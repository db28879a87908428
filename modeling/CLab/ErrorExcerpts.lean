import CLab.LexerCoordinates
import CLab.StoredString

/-!
# The line an error is shown with

`error_handler_report_errors` looks for the line of an error in the string the
error handler was given.  That string is a copy by value, taken while the
lexer is set up, and the source text may still grow behind it: after a file the
copy is empty, and after a C string it may point to a block that was given
back.  `LexerInput.errorShown_iff` says after which inputs the line that is
printed is the line of the error.
-/

namespace Assembler

namespace Stored

open Blocks (Heap MemoryFault)

/-! ## The copies of the source text -/

/-- The source text of a lexer, and the copy its error handler has of it.  The
block of the file path, which nothing here reads, is left out. -/
structure SourceCopies where
  sourceCode : StoredString
  errorHandler : StoredString

/-- `lexer_initialize_from_cstr`, on stored strings. -/
def lexerInitializeFromCstr (memory : Memory) (sourceString : List UInt8) :
    Except MemoryFault (SourceCopies × Memory) := do
  let (sourceCode, memory) ← stringCreateFromCstr memory sourceString
  let errorHandler := sourceCode
  let (sourceCode, memory) ← stringAppendChar memory sourceCode eofChar
  .ok ({ sourceCode := sourceCode, errorHandler := errorHandler }, memory)

/-- The characters of a file, appended as they are read. -/
def appendContents (memory : Memory) (str : StoredString) :
    List UInt8 → Except MemoryFault (StoredString × Memory)
  | [] => .ok (str, memory)
  | ch :: contents => do
      let (str, memory) ← stringAppendChar memory str ch
      appendContents memory str contents

/-- `lexer_initialize_from_file`: the handler gets its copy before the text is read. -/
def lexerInitializeFromFile (memory : Memory) (contents : List UInt8) :
    Except MemoryFault (SourceCopies × Memory) := do
  let (sourceCode, memory) := stringCreate memory
  let errorHandler := sourceCode
  let (sourceCode, memory) ← appendContents memory sourceCode contents
  let (sourceCode, memory) ← stringAppendChar memory sourceCode eofChar
  .ok ({ sourceCode := sourceCode, errorHandler := errorHandler }, memory)

/-- `lexer_initialize_from_string`: the copy is made behind the text. -/
def lexerInitializeFromString (memory : Memory) (source : CString) :
    Except MemoryFault (SourceCopies × Memory) := do
  let (sourceCode, memory) := stringCreate memory
  let (sourceCode, memory) ← stringAppendCstr memory sourceCode source.data
  let errorHandler := sourceCode
  .ok ({ sourceCode := sourceCode, errorHandler := errorHandler }, memory)

/-! ## `error_handler.c` -/

/-- `string_find_line_start`, on a stored string. -/
def stringFindLineStart (memory : Memory) (str : StoredString) : Nat → Except MemoryFault Nat
  | 0 => .ok 0
  | index + 1 => do
      let ch ← stringCharAt memory str index
      if ch ≠ '\n'.toUInt8 then stringFindLineStart memory str index else .ok (index + 1)

/-- `string_get_line_number`, on a stored string. -/
def stringGetLineNumber (memory : Memory) (str : StoredString) (index : Nat) :
    Except MemoryFault Nat :=
  (List.range index).foldlM (fun line i => do
    let ch ← stringCharAt memory str i
    .ok (if ch = '\n'.toUInt8 then line + 1 else line)) 1

/-- What one call prints: a text, a number or a character. -/
inductive Printed
  | text (text : List UInt8)
  | number (value : Nat)
  | character (ch : UInt8)
deriving DecidableEq

/-- The escape sequence that turns the colour on. -/
def redColor : List UInt8 := bytes "\x1b[1;91m"

/-- The escape sequence that turns it off. -/
def resetColor : List UInt8 := bytes "\x1b[0m"

/-- The loop of `print_error_line` from a place on, for at most as many rounds
as characters are left: behind them it would find a NUL. -/
def printCharacters (memory : Memory) (sourceString : StoredString)
    (errorIndex errorLength : Nat) : Nat → Nat → Except MemoryFault (List Printed)
  | 0, _ => .ok []
  | rounds + 1, i => do
      let ch ← stringCharAt memory sourceString i
      if ch = 0 ∨ ch = '\n'.toUInt8 then .ok []
      else do
        let line ← printCharacters memory sourceString errorIndex errorLength rounds (i + 1)
        .ok ((if i = errorIndex then [.text redColor] else []) ++ [.character ch] ++
          (if i + 1 = errorIndex + errorLength then [.text resetColor] else []) ++ line)

/-- `print_error_line`, character by character. -/
def printErrorLine (memory : Memory) (sourceString : StoredString)
    (startIndex errorIndex errorLength : Nat) : Except MemoryFault (List Printed) := do
  let lineNumber ← stringGetLineNumber memory sourceString startIndex
  let line ← printCharacters memory sourceString errorIndex errorLength
    (sourceString.length - startIndex) startIndex
  .ok ([.text (bytes "    "), .number lineNumber, .text (bytes " | ")] ++ line ++
    [.text (bytes "\n")])

/-- The length of the text an error marks. -/
def errorLength : ErrorNode → Nat
  | .tokenError _ error => stringLength error.token.string
  | .charError _ _ => 1

/-- What `error_handler_report_errors` prints through `print_error_line` for an
error. -/
def reportedLine (memory : Memory) (string : StoredString) (node : ErrorNode) :
    Except MemoryFault (List Printed) := do
  let startIndex ← stringFindLineStart memory string node.index
  printErrorLine memory string startIndex node.index (errorLength node)

/-- The characters of the line, without what colours them. -/
def shownLine (printed : List Printed) : List UInt8 :=
  printed.filterMap fun
    | .character ch => some ch
    | _ => none

/-- The number in front of the line. -/
def shownNumber (printed : List Printed) : Option Nat :=
  printed.findSome? fun
    | .number value => some value
    | _ => none

/-! ## A string that can be read -/

section Reads

variable {memory : Memory} {str : StoredString} {text : CString} (h : Reads memory str text)

include h

/-- On a string that reads as a text the start of the line is that of the text. -/
theorem Reads.stringFindLineStart (index : Nat) :
    Stored.stringFindLineStart memory str index =
      .ok (Assembler.stringFindLineStart text index) := by
  induction index with
  | zero => rfl
  | succ index ih =>
      simp only [Stored.stringFindLineStart, Assembler.stringFindLineStart, h.stringCharAt, ih,
        bind, Except.bind]
      split <;> rfl

theorem Reads.stringGetLineNumber (index : Nat) :
    Stored.stringGetLineNumber memory str index =
      .ok (Assembler.stringGetLineNumber text index) := by
  unfold Stored.stringGetLineNumber
  simp only [h.stringCharAt, bind, Except.bind]
  exact List.foldlM_pure

/-- The characters up to the next newline are printed. -/
theorem Reads.printCharacters (errorIndex errorLength : Nat) {rounds i : Nat}
    (hrounds : rounds = text.data.length - i) :
    ∃ printed, Stored.printCharacters memory str errorIndex errorLength rounds i = .ok printed ∧
      shownLine printed = (text.data.drop i).takeWhile (· != '\n'.toUInt8) := by
  induction rounds generalizing i with
  | zero => exact ⟨[], rfl, by rw [List.drop_eq_nil_of_le (by omega)]; rfl⟩
  | succ rounds ih =>
      have hi : i < text.data.length := by omega
      have hchar : Assembler.stringCharAt text i = text.data[i] := by
        rw [Assembler.stringCharAt, List.getD_eq_getElem _ _ hi]
      have hnul := text.getElem_ne_zero hi
      obtain ⟨line, hline, hshown⟩ := ih (i := i + 1) (by omega)
      rw [List.drop_eq_getElem_cons hi, List.takeWhile_cons]
      simp only [Stored.printCharacters, h.stringCharAt, hchar, hnul, false_or, bind, Except.bind,
        hline]
      by_cases hend : text.data[i] = '\n'.toUInt8
      · exact ⟨[], by rw [if_pos hend], by simp [hend, shownLine]⟩
      · refine ⟨_, if_neg hend, ?_⟩
        have hgo : (text.data[i] != '\n'.toUInt8) = true := bne_iff_ne.mpr hend
        rw [if_pos hgo, ← hshown]
        unfold shownLine
        rw [List.filterMap_append, List.filterMap_append, List.filterMap_append]
        split <;> split <;> rfl

/-- The line of an error is printed with its number. -/
theorem Reads.reportedLine (node : ErrorNode) :
    ∃ printed, Stored.reportedLine memory str node = .ok printed ∧
      shownNumber printed = some (Assembler.stringGetLineNumber text
        (Assembler.stringFindLineStart text node.index)) ∧
      shownLine printed = (text.data.drop (Assembler.stringFindLineStart text node.index)).takeWhile
        (· != '\n'.toUInt8) := by
  obtain ⟨line, hline, hshown⟩ := h.printCharacters node.index (errorLength node)
    (i := Assembler.stringFindLineStart text node.index) rfl
  refine ⟨_, by simp only [Stored.reportedLine, printErrorLine, h.stringFindLineStart,
    h.stringGetLineNumber, h.length, hline, bind, Except.bind]; rfl, rfl, ?_⟩
  rw [← hshown]
  simp [shownLine]

end Reads

/-- Nothing is read through a pointer to a block that was given back. -/
theorem reportedLine_freed {memory : Memory} {str : StoredString}
    (hfreed : memory.block str.data = none) {node : ErrorNode} (hnode : node.index < str.length) :
    reportedLine memory str node = .error .freed := by
  have hread : ∀ {index : Nat}, index < str.length →
      stringCharAt memory str index = .error .freed := by
    intro index hindex
    rw [stringCharAt, if_pos hindex, Heap.load_of_freed hfreed]
  unfold reportedLine
  cases hindex : node.index with
  | zero =>
      obtain ⟨rounds, hrounds⟩ : ∃ n, str.length - 0 = n + 1 := ⟨str.length - 1, by omega⟩
      simp only [stringFindLineStart, printErrorLine, stringGetLineNumber, List.range_zero,
        List.foldlM_nil, hrounds, printCharacters, hread (hindex ▸ hnode), bind, Except.bind,
        pure, Except.pure]
  | succ index =>
      simp only [stringFindLineStart, hread (by omega : index < str.length), bind, Except.bind]

/-- An empty string has no line. -/
theorem reportedLine_empty {memory : Memory} {str : StoredString} (hempty : str.length = 0)
    {node : ErrorNode} {printed : List Printed}
    (hreported : reportedLine memory str node = .ok printed) : shownLine printed = [] := by
  unfold reportedLine at hreported
  cases hstart : stringFindLineStart memory str node.index with
  | error fault => simp [hstart, bind, Except.bind] at hreported
  | ok startIndex =>
      cases hnumber : stringGetLineNumber memory str startIndex with
      | error fault => simp [hstart, hnumber, printErrorLine, bind, Except.bind] at hreported
      | ok lineNumber =>
          simp only [hstart, hnumber, hempty, Nat.zero_sub, printErrorLine, printCharacters, bind,
            Except.bind] at hreported
          rw [← Except.ok.inj hreported]
          rfl

end Stored

/-! ## The line of a place -/

/-- The source line a place is in: what stands around it up to the newlines. -/
def lineAt (text : List UInt8) (index : Nat) : List UInt8 :=
  ((text.take index).reverse.takeWhile (· != '\n'.toUInt8)).reverse ++
    (text.drop index).takeWhile (· != '\n'.toUInt8)

/-- The part of the line in front of the place. -/
theorem take_drop_lineStart (source : CString) {index : Nat}
    (hindex : index ≤ source.data.length) :
    (source.data.take index).drop (stringFindLineStart source index) =
      ((source.data.take index).reverse.takeWhile (· != '\n'.toUInt8)).reverse := by
  induction index with
  | zero => rfl
  | succ index ih =>
      have hi : index < source.data.length := by omega
      have hchar : stringCharAt source index = source.data[index] := by
        rw [stringCharAt, List.getD_eq_getElem _ _ hi]
      have hle := stringFindLineStart_le source index
      have hlength : (source.data.take index).length = index := by
        rw [List.length_take, Nat.min_eq_left (by omega)]
      rw [List.take_succ_eq_append_getElem hi, List.reverse_append, List.reverse_singleton,
        List.singleton_append, List.takeWhile_cons, stringFindLineStart, hchar]
      by_cases hnewline : source.data[index] = '\n'.toUInt8
      · rw [if_neg (not_not_intro hnewline), if_neg (by simp [hnewline])]
        exact List.drop_eq_nil_of_le (by rw [List.length_append, hlength, List.length_singleton])
      · rw [if_pos hnewline, if_pos (bne_iff_ne.mpr hnewline), List.reverse_cons,
          List.drop_append_of_le_length (by omega), ih (by omega)]

/-- The line that begins where the error handler looks for it is that line. -/
theorem lineAt_eq (source : CString) {index : Nat} (hindex : index ≤ source.data.length) :
    (source.data.drop (stringFindLineStart source index)).takeWhile (· != '\n'.toUInt8) =
      lineAt source.data index := by
  have hle := stringFindLineStart_le source index
  have hsplit : source.data.drop (stringFindLineStart source index) =
      (source.data.take index).drop (stringFindLineStart source index) ++
        source.data.drop index := by
    rw [← List.drop_append_of_le_length (by simp; omega), List.take_append_drop]
  have hline : ∀ c ∈ ((source.data.take index).reverse.takeWhile
      (· != '\n'.toUInt8)).reverse, (c != '\n'.toUInt8) = true := by
    intro c hc
    have hchar := List.mem_takeWhile_imp (List.mem_reverse.mp hc)
    exact hchar
  rw [hsplit, take_drop_lineStart source hindex, List.takeWhile_append_of_pos hline]
  rfl

/-- What stands behind a place does not change the number of its line. -/
theorem stringGetLineNumber_congr {source source' : CString} {index : Nat}
    (h : ∀ i < index, stringCharAt source i = stringCharAt source' i) :
    stringGetLineNumber source index = stringGetLineNumber source' index := by
  induction index with
  | zero => rfl
  | succ index ih =>
      rw [stringGetLineNumber_succ, stringGetLineNumber_succ, h index (Nat.lt_succ_self index),
        ih fun i hi => h i (Nat.lt_succ_of_lt hi)]

/-! ## Where the errors of the lexer are -/

/-- No error begins with the end of a line or of the file. -/
theorem nextLexeme_error {c : UInt8} {cs : List UInt8} {error : LexemeError}
    (h : (nextLexeme c cs).error = some error) : c ≠ '\n'.toUInt8 ∧ c ≠ eofChar := by
  constructor
  · intro heq
    obtain rfl := heq
    rw [nextLexeme, if_neg (by decide), if_neg (by decide), if_pos rfl] at h
    cases h
  · intro heq
    obtain rfl := heq
    rw [nextLexeme, if_neg (by decide), if_neg (by decide), if_neg (by decide), if_pos rfl] at h
    cases h

/-- An error is at a character of the text that is no newline, and it has the
line of that character. -/
structure ErrorPlace (input : LexerInput) (node : ErrorNode) : Prop where
  index : node.index < input.text.length
  character : stringCharAt input.source node.index ≠ '\n'.toUInt8
  line : node.line = stringGetLineNumber input.source (stringFindLineStart input.source node.index)

/-- Every error of the lexer has its place in the source. -/
theorem LexerInput.error_place (input : LexerInput) {node : ErrorNode}
    (hnode : node ∈ input.errors) : ErrorPlace input node := by
  revert hnode
  unfold LexerInput.errors
  refine input.analyze_cases (P := fun l => node ∈ l.errorHandler.errorList → _) ?_ ?_
  · rw [input.atStart.errorList]
    exact fun _ hnode => absurd hnode List.not_mem_nil
  · intro xs hs hlex hnode
    rw [takeAll_errorList, input.atStart.errorList, List.nil_append] at hnode
    obtain ⟨v, hv, herror⟩ := List.mem_filterMap.mp hnode
    obtain ⟨hindex, hline, -⟩ := visitError_coordinates herror
    obtain ⟨ys, zs, -, hlexer⟩ := mem_visits hv
    have hlocated : v.1.Located := hlexer ▸ Lexer.Located.takeAll hs input.atStart.located ys
    have hsource : v.1.sourceCode = input.source := by rw [hlexer, takeAll_sourceCode]; rfl
    have hvisit := visits_lexerVisit (input.atStart.rest_eq.symm ▸ hlex) v hv
    obtain ⟨c, cs, hahead, hnext⟩ := hvisit.ahead
    obtain ⟨error, hsome, -⟩ := Option.map_eq_some_iff.mp herror
    rw [← hnext] at hsome
    obtain ⟨hnewline, heof⟩ := nextLexeme_error hsome
    have hchar : input.source.data[v.1.index]? = some c := by
      rw [← List.head?_drop]
      exact congrArg List.head? hahead
    refine ⟨?_, ?_, ?_⟩
    · have hlt := (List.getElem?_eq_some_iff.mp hchar).1
      rw [hindex]
      rcases input.source_data with htext | htext
      · rwa [htext] at hlt
      · by_contra hge
        rw [htext, List.length_append, List.length_singleton] at hlt
        have hlast : v.1.index = input.text.length := by omega
        rw [htext, hlast, List.getElem?_concat_length] at hchar
        exact heof (Option.some.inj hchar).symm
    · rw [hindex, stringCharAt, List.getD_eq_getElem?_getD, hchar]
      exact hnewline
    · rw [hline, hindex, ← hsource]
      exact hlocated.line

/-! ## What the initialisers leave -/

namespace Stored

/-- The end-of-file character behind a C string moves the text exactly when the
characters and the terminator fill a power of two. -/
theorem cstrCapacity_full_iff {len : Nat} :
    len + 1 = 2 ^ max len.size 3 ↔ ∃ k, 3 ≤ k ∧ len + 1 = 2 ^ k := by
  constructor
  · intro h
    exact ⟨_, Nat.le_max_right _ _, h⟩
  · intro hfacts
    obtain ⟨k, hk, h⟩ := hfacts
    have hsize : len.size = k := by
      apply Nat.le_antisymm (Nat.size_le.mpr (by omega))
      have hlow : k - 1 < len.size := by
        rw [Nat.lt_size]
        have hpow : 2 ^ k = 2 * 2 ^ (k - 1) := by
          rw [← Nat.pow_succ']
          exact congrArg (2 ^ ·) (by omega)
        have hpos := Nat.two_pow_pos (k - 1)
        omega
      omega
    rw [hsize, Nat.max_eq_left hk]
    exact h

/-- While the text does not move, the error handler keeps it. -/
theorem lexerInitializeFromCstr_keeps (memory : Memory) {sourceString : List UInt8}
    (hfits : (cstrText sourceString).length < 2 ^ 31)
    (hroom : ∀ k, 3 ≤ k → (cstrText sourceString).length + 1 ≠ 2 ^ k) :
    ∃ copies memory', lexerInitializeFromCstr memory sourceString = .ok (copies, memory') ∧
      Reads memory' copies.errorHandler (Assembler.stringCreateFromCstr sourceString) := by
  obtain ⟨str, middle, hcreate, hdenotes, hcapacity⟩ := stringCreateFromCstr_denotes memory hfits
  have hlt : (cstrText sourceString).length < str.capacity := hdenotes.room
  have hne : (cstrText sourceString).length + 1 ≠ str.capacity := by
    rw [hcapacity]
    intro h
    obtain ⟨k, hk, hpow⟩ := cstrCapacity_full_iff.mp h
    exact hroom k hk hpow
  obtain ⟨str', memory', happend, -, hreads⟩ :=
    stringAppendChar_inPlace hdenotes (show eofChar ≠ 0 by decide)
      (show (cstrText sourceString).length + 1 < str.capacity by omega)
  refine ⟨⟨str', str⟩, memory', ?_, hreads⟩
  simp [lexerInitializeFromCstr, hcreate, happend, bind, Except.bind]

/-- Where the text moves, the error handler is left with the old block. -/
theorem lexerInitializeFromCstr_moves {memory memory' : Memory} {sourceString : List UInt8}
    {copies : SourceCopies}
    (hinit : lexerInitializeFromCstr memory sourceString = .ok (copies, memory'))
    (hfits : (cstrText sourceString).length < 2 ^ 31)
    (hfull : ∃ k, 3 ≤ k ∧ (cstrText sourceString).length + 1 = 2 ^ k) :
    copies.errorHandler.length = (cstrText sourceString).length ∧
      memory'.block copies.errorHandler.data = none := by
  obtain ⟨str, middle, hcreate, hdenotes, hcapacity⟩ := stringCreateFromCstr_denotes memory hfits
  have hroom : (cstrText sourceString).length + 1 = str.capacity := by
    rw [hcapacity]
    exact cstrCapacity_full_iff.mpr hfull
  rcases Nat.lt_or_ge str.capacity (2 ^ 31) with hsmall | hlarge
  · obtain ⟨str', memory'', happend, -, hfreed⟩ :=
      stringAppendChar_moved hdenotes (show eofChar ≠ 0 by decide) hroom hsmall
    simp only [lexerInitializeFromCstr, hcreate, happend, bind, Except.bind, Except.ok.injEq,
      Prod.mk.injEq] at hinit
    obtain ⟨rfl, rfl⟩ := hinit
    exact ⟨hdenotes.length, hfreed⟩
  · have happend := stringAppendChar_full hdenotes (show eofChar ≠ 0 by decide) hroom
      (Nat.le_antisymm hdenotes.capacity_le.2 hlarge)
    simp [lexerInitializeFromCstr, hcreate, happend, bind, Except.bind] at hinit

/-- A text that is too long for a block cannot be copied. -/
theorem lexerInitializeFromCstr_full (memory : Memory) {sourceString : List UInt8}
    (hfull : 2 ^ 31 ≤ (cstrText sourceString).length) :
    lexerInitializeFromCstr memory sourceString = .error .outOfBounds := by
  simp [lexerInitializeFromCstr, stringCreateFromCstr_full memory hfull, bind, Except.bind]

/-- A file may be read in two parts. -/
theorem appendContents_append (memory : Memory) (str : StoredString)
    (contents contents' : List UInt8) :
    appendContents memory str (contents ++ contents') =
      (appendContents memory str contents).bind fun result =>
        appendContents result.2 result.1 contents' := by
  induction contents generalizing memory str with
  | nil => rfl
  | cons ch contents ih =>
      simp only [List.cons_append, appendContents, bind, Except.bind]
      cases stringAppendChar memory str ch with
      | error fault => rfl
      | ok result => exact ih result.2 result.1

/-- A file and its end are appended to a new string; the error handler is given the
string before anything is read. -/
theorem lexerInitializeFromFile_eq (memory : Memory) (contents : List UInt8) :
    lexerInitializeFromFile memory contents =
      (appendContents (stringCreate memory).2 (stringCreate memory).1
        (contents ++ [eofChar])).map fun result =>
          ({ sourceCode := result.1, errorHandler := (stringCreate memory).1 }, result.2) := by
  rw [appendContents_append]
  simp only [lexerInitializeFromFile, appendContents, bind, Except.bind]
  cases appendContents (stringCreate memory).2 (stringCreate memory).1 contents with
  | error fault => rfl
  | ok result =>
      dsimp only
      cases stringAppendChar result.2 result.1 eofChar with
      | error fault => rfl
      | ok last => rfl

/-- The handler's copy is the empty string of the start. -/
theorem lexerInitializeFromFile_handler {memory memory' : Memory} {contents : List UInt8}
    {copies : SourceCopies}
    (hinit : lexerInitializeFromFile memory contents = .ok (copies, memory')) :
    copies.errorHandler = (stringCreate memory).1 := by
  rw [lexerInitializeFromFile_eq] at hinit
  cases hrun : appendContents (stringCreate memory).2 (stringCreate memory).1
      (contents ++ [eofChar]) with
  | error fault =>
      rw [hrun] at hinit
      cases hinit
  | ok result =>
      rw [hrun] at hinit
      obtain ⟨rfl, -⟩ := Prod.mk.inj (Except.ok.inj hinit)
      rfl

/-- The error handler of a string is given the whole text. -/
theorem lexerInitializeFromString_keeps (memory : Memory) {source : CString}
    (hfits : source.data.length < 2 ^ 31) :
    ∃ copies memory', lexerInitializeFromString memory source = .ok (copies, memory') ∧
      copies.errorHandler = copies.sourceCode ∧
      Denotes memory' copies.sourceCode (stringAppend Assembler.stringCreate source) := by
  obtain ⟨str, memory', happend, hdenotes⟩ :=
    stringAppendCstr_denotes (stringCreate_denotes memory) source.data
      (by rw [cstrText_of_noNul source.noNul]; simpa using hfits)
  refine ⟨⟨str, str⟩, memory', ?_, rfl, hdenotes⟩
  simp [lexerInitializeFromString, happend, bind, Except.bind]

/-- A string that is too long cannot be copied either. -/
theorem lexerInitializeFromString_full (memory : Memory) {source : CString}
    (hfull : 2 ^ 31 ≤ source.data.length) :
    lexerInitializeFromString memory source = .error .noCells := by
  have happend := stringAppendCstr_full (stringCreate_denotes memory) source.data
    (by rw [cstrText_of_noNul source.noNul]; simpa using hfull)
  simp [lexerInitializeFromString, happend, bind, Except.bind]

/-- The string does not get shorter. -/
theorem length_le_foldl (text : CString) (contents : List UInt8) :
    text.data.length ≤ (contents.foldl Assembler.stringAppendChar text).data.length := by
  rw [foldl_stringAppendChar, List.length_append]
  exact Nat.le_add_right _ _

/-- Characters can be appended if the string fits in the end, and it stands for all
of them then. -/
theorem appendContents_exact {memory : Memory} {str : StoredString} {text : CString}
    (h : Denotes memory str text) (contents : List UInt8) :
    ((∃ result, appendContents memory str contents = .ok result) ↔
      StringFits (contents.foldl Assembler.stringAppendChar text)) ∧
    ∀ str' memory', appendContents memory str contents = .ok (str', memory') →
      Denotes memory' str' (contents.foldl Assembler.stringAppendChar text) := by
  induction contents generalizing memory str text with
  | nil =>
      refine ⟨iff_of_true ⟨_, rfl⟩ (Nat.lt_of_lt_of_le h.room h.capacity_le.2), ?_⟩
      intro str' memory' happend
      obtain ⟨rfl, rfl⟩ := Prod.mk.inj (Except.ok.inj happend)
      exact h
  | cons ch contents ih =>
      have hfirst := stringAppendChar_returns_iff h ch
      cases hrun : stringAppendChar memory str ch with
      | error fault =>
          rw [hrun] at hfirst
          have hlonger := length_le_foldl (Assembler.stringAppendChar text ch) contents
          simp only [appendContents, hrun, bind, Except.bind]
          refine ⟨iff_of_false (not_returns_of_error fault) fun hfits => ?_,
            fun str' memory' hend => by cases hend⟩
          exact not_returns_of_error fault (hfirst.mpr (Nat.lt_of_le_of_lt hlonger hfits))
      | ok result =>
          simp only [appendContents, hrun, bind, Except.bind]
          exact ih (stringAppendChar_denotes h hrun)

/-- A file is copied if it fits, and then exactly. -/
theorem lexerInitializeFromFile_exact (memory : Memory) (contents : List UInt8) :
    ((∃ result, lexerInitializeFromFile memory contents = .ok result) ↔
      StringFits (fileText contents)) ∧
    ∀ copies memory', lexerInitializeFromFile memory contents = .ok (copies, memory') →
      Denotes memory' copies.sourceCode (fileText contents) := by
  obtain ⟨hreturns, hdenotes⟩ :=
    appendContents_exact (stringCreate_denotes memory) (contents ++ [eofChar])
  have htext : (contents ++ [eofChar]).foldl Assembler.stringAppendChar
      Assembler.stringCreate = fileText contents := List.foldl_append
  rw [htext] at hreturns hdenotes
  rw [lexerInitializeFromFile_eq, ← hreturns]
  cases hrun : appendContents (stringCreate memory).2 (stringCreate memory).1
      (contents ++ [eofChar]) with
  | error fault =>
      exact ⟨iff_of_false (not_returns_of_error fault) (not_returns_of_error fault),
        fun copies memory' hend => by cases hend⟩
  | ok result =>
      refine ⟨iff_of_true ⟨_, rfl⟩ ⟨_, rfl⟩, fun copies memory' hend => ?_⟩
      obtain ⟨rfl, rfl⟩ := Prod.mk.inj (Except.ok.inj hend)
      exact hdenotes result.1 result.2 hrun

theorem lexerInitializeFromCstr_exact (memory : Memory) (sourceString : List UInt8) :
    ((∃ result, lexerInitializeFromCstr memory sourceString = .ok result) ↔
      StringFits (Assembler.stringAppendChar (Assembler.stringCreateFromCstr sourceString)
        eofChar)) ∧
    ∀ copies memory', lexerInitializeFromCstr memory sourceString = .ok (copies, memory') →
      Denotes memory' copies.sourceCode
        (Assembler.stringAppendChar (Assembler.stringCreateFromCstr sourceString) eofChar) := by
  rcases Nat.lt_or_ge (cstrText sourceString).length (2 ^ 31) with hfits | hlarge
  · obtain ⟨str, middle, hcreate, hdenotes, -⟩ := stringCreateFromCstr_denotes memory hfits
    rw [← stringAppendChar_returns_iff hdenotes eofChar]
    simp only [lexerInitializeFromCstr, hcreate, bind, Except.bind]
    cases happend : stringAppendChar middle str eofChar with
    | error fault =>
        exact ⟨iff_of_false (not_returns_of_error fault) (not_returns_of_error fault),
          fun copies memory' hend => by cases hend⟩
    | ok result =>
        refine ⟨iff_of_true ⟨_, rfl⟩ ⟨_, rfl⟩, fun copies memory' hend => ?_⟩
        obtain ⟨rfl, rfl⟩ := Prod.mk.inj (Except.ok.inj hend)
        exact stringAppendChar_denotes hdenotes happend
  · rw [lexerInitializeFromCstr_full memory hlarge]
    refine ⟨iff_of_false (not_returns_of_error _) ?_, fun copies memory' hend => by cases hend⟩
    rw [StringFits, stringAppendChar_data (by decide), List.length_append]
    have htext : (cstrText sourceString).length =
        (Assembler.stringCreateFromCstr sourceString).data.length := rfl
    omega

theorem lexerInitializeFromString_exact (memory : Memory) (source : CString) :
    ((∃ result, lexerInitializeFromString memory source = .ok result) ↔
      StringFits (stringAppend Assembler.stringCreate source)) ∧
    ∀ copies memory', lexerInitializeFromString memory source = .ok (copies, memory') →
      Denotes memory' copies.sourceCode (stringAppend Assembler.stringCreate source) := by
  have hlength : (stringAppend Assembler.stringCreate source).data.length =
      source.data.length := congrArg List.length (stringAppend_data _ _)
  rw [StringFits, hlength]
  rcases Nat.lt_or_ge source.data.length (2 ^ 31) with hfits | hlarge
  · obtain ⟨copies', memory'', hok, -, hdenotes⟩ := lexerInitializeFromString_keeps memory hfits
    refine ⟨iff_of_true ⟨_, hok⟩ hfits, fun copies memory' hinit => ?_⟩
    obtain ⟨rfl, rfl⟩ := Prod.mk.inj (Except.ok.inj (hok.symm.trans hinit))
    exact hdenotes
  · rw [lexerInitializeFromString_full memory hlarge]
    exact ⟨iff_of_false (not_returns_of_error _) (Nat.not_lt.mpr hlarge),
      fun copies memory' hend => by cases hend⟩

end Stored

/-! ## Which errors are shown with their line -/

open Blocks (MemoryFault)

/-- The copies of the source text that are made for an input. -/
def LexerInput.copies (memory : Stored.Memory) :
    LexerInput → Except MemoryFault (Stored.SourceCopies × Stored.Memory)
  | .cstr sourceString => Stored.lexerInitializeFromCstr memory sourceString
  | .file _ contents => Stored.lexerInitializeFromFile memory contents
  | .string _ sourceCode => Stored.lexerInitializeFromString memory sourceCode

/-- **The source text in memory.**  Each of the initialisers returns exactly if the
source text of the lexer fits in a string, and has that text in memory then. -/
theorem LexerInput.copies_exact (input : LexerInput) (memory : Stored.Memory) :
    ((∃ result, input.copies memory = .ok result) ↔ StringFits input.source) ∧
      ∀ copies memory', input.copies memory = .ok (copies, memory') →
        Stored.Denotes memory' copies.sourceCode input.source := by
  cases input with
  | cstr sourceString => exact Stored.lexerInitializeFromCstr_exact memory sourceString
  | file filePath contents => exact Stored.lexerInitializeFromFile_exact memory contents
  | string filePath sourceCode => exact Stored.lexerInitializeFromString_exact memory sourceCode

/-- Whatever else is allocated behind the initialiser, `print_error_line`
prints the source line of the error, under the line number of the error. -/
def ErrorShown (memory : Stored.Memory) (input : LexerInput) (node : ErrorNode) : Prop :=
  ∃ copies memory', input.copies memory = .ok (copies, memory') ∧
    ∀ memory'', memory'.Before memory'' → ∃ printed,
      Stored.reportedLine memory'' copies.errorHandler node = .ok printed ∧
        Stored.shownNumber printed = some node.line ∧
        Stored.shownLine printed = lineAt input.text node.index

/-- The error handler still has the text when the errors are reported: never
after a file, after a C string unless its characters and the terminator fill a
power of two, and always after a string that an `unsigned int` can count. -/
def LexerInput.KeepsText : LexerInput → Prop
  | .cstr sourceString => (cstrText sourceString).length < 2 ^ 31 ∧
      ∀ k, 3 ≤ k → (cstrText sourceString).length + 1 ≠ 2 ^ k
  | .file _ _ => False
  | .string _ sourceCode => sourceCode.data.length < 2 ^ 31

section Places

variable {input : LexerInput} {node : ErrorNode} (hplace : ErrorPlace input node)

include hplace

/-- The line and its number do not depend on the end-of-file character. -/
theorem ErrorPlace.text_line {text : CString} (htext : text.data = input.text) :
    node.line = stringGetLineNumber text (stringFindLineStart text node.index) := by
  have hsame : ∀ i < node.index, stringCharAt input.source i = stringCharAt text i := by
    intro i hi
    have hindex := hplace.index
    obtain ⟨behind, hfront⟩ := input.text_front
    rw [stringCharAt, stringCharAt, ← hfront, htext, List.getD_append _ _ _ _ (by omega)]
  rw [hplace.line, stringGetLineNumber_lineStart, stringGetLineNumber_lineStart,
    stringGetLineNumber_congr hsame]

/-- A string that has the text shows the error. -/
theorem ErrorPlace.shown {memory memory' : Stored.Memory} {copies : Stored.SourceCopies}
    {text : CString} (hinit : input.copies memory = .ok (copies, memory'))
    (hreads : Stored.Reads memory' copies.errorHandler text) (htext : text.data = input.text) :
    ErrorShown memory input node := by
  refine ⟨copies, memory', hinit, ?_⟩
  intro memory'' hlater
  obtain ⟨printed, hprinted, hnumber, hline⟩ := (hreads.before hlater).reportedLine node
  have hindex := hplace.index
  refine ⟨printed, hprinted, ?_, ?_⟩
  · rw [hnumber, hplace.text_line htext]
  · rw [hline, lineAt_eq text (by rw [htext]; omega), htext]

/-- The line of an error has at least the character of the error. -/
theorem ErrorPlace.lineAt_ne_nil : lineAt input.text node.index ≠ [] := by
  have hindex := hplace.index
  obtain ⟨behind, hfront⟩ := input.text_front
  have hchar : input.text[node.index] ≠ '\n'.toUInt8 := by
    have hcharacter := hplace.character
    rwa [stringCharAt, ← hfront, List.getD_append _ _ _ _ hindex,
      List.getD_eq_getElem _ _ hindex] at hcharacter
  rw [lineAt, List.drop_eq_getElem_cons hindex, List.takeWhile_cons,
    if_pos (bne_iff_ne.mpr hchar)]
  exact List.append_ne_nil_of_right_ne_nil _ (List.cons_ne_nil _ _)

/-- After a file no error is shown. -/
theorem ErrorPlace.not_shown_file {filePath : String} {contents : List UInt8}
    (hinput : input = .file filePath contents) (memory : Stored.Memory) :
    ¬ ErrorShown memory input node := by
  intro hfacts
  obtain ⟨copies, memory', hinit, hshown⟩ := hfacts
  obtain ⟨printed, hprinted, -, hline⟩ := hshown memory' (.refl memory')
  rw [hinput] at hinit
  have hempty : copies.errorHandler.length = 0 := by
    rw [Stored.lexerInitializeFromFile_handler hinit]
    rfl
  rw [Stored.reportedLine_empty hempty hprinted] at hline
  exact hplace.lineAt_ne_nil hline.symm

/-- After a C string that has moved no error is shown. -/
theorem ErrorPlace.not_shown_moved {sourceString : List UInt8}
    (hinput : input = .cstr sourceString) (hfits : (cstrText sourceString).length < 2 ^ 31)
    (hfull : ∃ k, 3 ≤ k ∧ (cstrText sourceString).length + 1 = 2 ^ k) (memory : Stored.Memory) :
    ¬ ErrorShown memory input node := by
  intro hfacts
  obtain ⟨copies, memory', hinit, hshown⟩ := hfacts
  obtain ⟨printed, hprinted, -, -⟩ := hshown memory' (.refl memory')
  have hindex := hplace.index
  rw [hinput] at hinit hindex
  obtain ⟨hlength, hfreed⟩ := Stored.lexerInitializeFromCstr_moves hinit hfits hfull
  rw [Stored.reportedLine_freed hfreed (by rw [hlength]; exact hindex)] at hprinted
  cases hprinted

end Places

/-- Where the copies cannot be made no error is shown. -/
theorem not_errorShown_of_fault {memory : Stored.Memory} {input : LexerInput} {node : ErrorNode}
    {fault : MemoryFault} (hinit : input.copies memory = .error fault) :
    ¬ ErrorShown memory input node := by
  intro hfacts
  obtain ⟨copies, memory', hok, -⟩ := hfacts
  rw [hinit] at hok
  cases hok

/-- **Excerpts.**  Every error of the lexer is shown with its own line, and the
number of that line, exactly when the error handler keeps the text. -/
theorem LexerInput.errorShown_iff (input : LexerInput) (memory : Stored.Memory)
    {node : ErrorNode} (hnode : node ∈ input.errors) :
    ErrorShown memory input node ↔ input.KeepsText := by
  have hplace := input.error_place hnode
  cases input with
  | cstr sourceString =>
      rcases Nat.lt_or_ge (cstrText sourceString).length (2 ^ 31) with hfits | hlarge
      · by_cases hfull : ∃ k, 3 ≤ k ∧ (cstrText sourceString).length + 1 = 2 ^ k
        · apply iff_of_false (hplace.not_shown_moved rfl hfits hfull memory)
          obtain ⟨k, hk, hpow⟩ := hfull
          exact fun h => h.2 k hk hpow
        · have hroom : ∀ k, 3 ≤ k → (cstrText sourceString).length + 1 ≠ 2 ^ k :=
            fun k hk hpow => hfull ⟨k, hk, hpow⟩
          refine iff_of_true ?_ ⟨hfits, hroom⟩
          obtain ⟨copies, memory', hinit, hreads⟩ :=
            Stored.lexerInitializeFromCstr_keeps memory hfits hroom
          exact hplace.shown hinit hreads rfl
      · refine iff_of_false ?_ (fun h => Nat.not_lt.mpr hlarge h.1)
        exact not_errorShown_of_fault (Stored.lexerInitializeFromCstr_full memory hlarge)
  | file filePath contents =>
      exact iff_of_false (hplace.not_shown_file rfl memory) id
  | string filePath sourceCode =>
      rcases Nat.lt_or_ge sourceCode.data.length (2 ^ 31) with hfits | hlarge
      · refine iff_of_true ?_ hfits
        obtain ⟨copies, memory', hinit, hsame, hdenotes⟩ :=
          Stored.lexerInitializeFromString_keeps memory hfits
        exact hplace.shown hinit (hsame ▸ hdenotes.toReads) (stringAppend_data _ _)
      · refine iff_of_false ?_ (Nat.not_lt.mpr hlarge)
        exact not_errorShown_of_fault (Stored.lexerInitializeFromString_full memory hlarge)

/-- An unknown character in the second line. -/
theorem LexerInput.errorShown_sample :
    ∃ node ∈ (LexerInput.string "sample" (stringCreateFromCstr (bytes "stop\n@"))).errors,
      node.line = 2 ∧ ErrorShown ⟨[]⟩
        (LexerInput.string "sample" (stringCreateFromCstr (bytes "stop\n@"))) node := by
  have herror : ∃ node ∈ (LexerInput.string "sample"
      (stringCreateFromCstr (bytes "stop\n@"))).errors, node.line = 2 := by decide +kernel
  obtain ⟨node, hnode, hline⟩ := herror
  exact ⟨node, hnode, hline, (LexerInput.errorShown_iff _ ⟨[]⟩ hnode).mpr
    (show (stringCreateFromCstr (bytes "stop\n@")).data.length < 2 ^ 31 by decide)⟩

/-- A file of one character that no token begins with, and a C string of seven
characters with such a character. -/
theorem error_not_shown :
    (∃ node ∈ (LexerInput.file "sample" (bytes "@")).errors,
      ¬ ErrorShown ⟨[]⟩ (LexerInput.file "sample" (bytes "@")) node) ∧
    ∃ node ∈ (LexerInput.cstr (bytes "prn #1@")).errors,
      ¬ ErrorShown ⟨[]⟩ (LexerInput.cstr (bytes "prn #1@")) node := by
  constructor
  · have herror : (LexerInput.file "sample" (bytes "@")).errors ≠ [] := by decide +kernel
    obtain ⟨node, hnode⟩ := List.exists_mem_of_ne_nil _ herror
    exact ⟨node, hnode, (LexerInput.error_place _ hnode).not_shown_file rfl ⟨[]⟩⟩
  · have herror : (LexerInput.cstr (bytes "prn #1@")).errors ≠ [] := by decide +kernel
    obtain ⟨node, hnode⟩ := List.exists_mem_of_ne_nil _ herror
    exact ⟨node, hnode, (LexerInput.error_place _ hnode).not_shown_moved rfl (by decide)
      ⟨3, by decide, by decide⟩ ⟨[]⟩⟩

end Assembler
