import CLab.Diagnostics
import CLab.DriverOutcome
import CLab.LinePlaces

/-!
# What the reports of the errors show

An error of the parser or of the analyzer is at a token of the file, and unless
that token is a string literal, or the end of a line or of the file, its report
shows the line that the token stands in with just the token coloured, and a
caret with tildes under the token (`placeReport`).
-/

namespace Assembler

/-! ## Tokens inside of a line -/

/-- A run of characters without a newline has none. -/
theorem not_newline_of_takeWhile {c : UInt8} {cs : List UInt8} {p : UInt8 → Bool}
    (hc : c ≠ '\n'.toUInt8) (hp : p '\n'.toUInt8 = false) :
    '\n'.toUInt8 ∉ c :: cs.takeWhile p := by
  intro hmem
  rcases List.mem_cons.mp hmem with heq | hmem
  · exact hc heq.symm
  · have hchar := List.mem_takeWhile_imp hmem
    exact absurd (hp.symm.trans hchar) (by decide)

/-- A token inside of a line has no newline, and does not begin with a quote. -/
theorem nextLexeme_insideLine {c : UInt8} {cs : List UInt8} {type : TokenType}
    (htype : (nextLexeme c cs).type = some type)
    (hinside : type ≠ .string ∧ type ≠ .eol ∧ type ≠ .eoft ∧ type ≠ .error) :
    c ≠ '\"'.toUInt8 ∧ '\n'.toUInt8 ∉ (nextLexeme c cs).text := by
  obtain ⟨hstring, heol, heoft, herror⟩ := hinside
  revert htype
  refine nextLexeme_cases (P := fun x => x.type = some type →
    c ≠ '\"'.toUInt8 ∧ '\n'.toUInt8 ∉ x.text) c cs ?_ ?_ ?_ ?_ ?_ ?_ ?_ ?_ ?_ ?_
  · exact fun _ h => by cases h
  · exact fun _ h => by cases h
  · exact fun _ h => absurd (Option.some.inj h).symm heol
  · exact fun _ h => absurd (Option.some.inj h).symm heoft
  · intro hsep _
    refine ⟨?_, ?_⟩
    · intro heq
      obtain rfl := heq
      exact absurd hsep (by decide)
    · intro hmem
      obtain rfl := List.mem_singleton.mp hmem
      exact absurd hsep (by decide)
  · intro hnumber _
    rw [numberLexeme_text]
    refine ⟨?_, not_newline_of_takeWhile ?_ (by decide)⟩ <;>
      (rintro rfl; exact absurd hnumber (by decide))
  · intro _ h
    unfold stringLexeme at h
    split at h
    · exact absurd (Option.some.inj h).symm hstring
    · exact absurd (Option.some.inj h).symm herror
  · intro hdot _
    rw [nonOpLexeme_text, hdot]
    exact ⟨by decide, not_newline_of_takeWhile (by decide) (by decide)⟩
  · intro hword _
    rw [wordLexeme_text]
    have hnewline : wordChar c '\n'.toUInt8 = false := by
      unfold wordChar
      split <;> decide
    refine ⟨?_, not_newline_of_takeWhile ?_ hnewline⟩ <;>
      (rintro rfl; exact absurd hword (by decide))
  · exact fun _ h => by cases h

/-- Where a token is, and what it is. -/
structure TokenPlace (source : CString) (token : Token) : Prop extends
    Coordinates source token.index token.line token.indexInLine where
  index_le : token.index ≤ source.data.length
  text : token.string.data <+: source.data.drop token.index
  text_pos : 0 < token.string.data.length
  newline : '\n'.toUInt8 ∉ token.string.data

/-- Every token inside a line has its place in the source. -/
theorem LexerInput.token_place (input : LexerInput) {token : Token}
    (htoken : token ∈ input.tokens) (hinside : InsideLine token) :
    TokenPlace input.source token := by
  revert htoken
  unfold LexerInput.tokens
  refine input.analyze_cases (P := fun l => token ∈ l.tokenList → _) ?_ ?_
  · rw [input.atStart.tokenList]
    exact fun _ htoken => absurd htoken List.not_mem_nil
  · intro xs hs hlex htoken
    rw [takeAll_tokenList, input.atStart.tokenList, List.nil_append, placeTokens_eq_visits]
      at htoken
    obtain ⟨v, hv, hvisited⟩ := List.mem_filterMap.mp htoken
    obtain ⟨ys, zs, -, hlexer⟩ := mem_visits hv
    have hlocated : v.1.Located := hlexer ▸ Lexer.Located.takeAll hs input.atStart.located ys
    have hsource : v.1.sourceCode = input.source := by
      rw [hlexer, takeAll_sourceCode]
      rfl
    have hvisit := visits_lexerVisit (input.atStart.rest_eq.symm ▸ hlex) v hv
    have hplaced := (coordinates_visit_iff hlocated).mpr
    obtain ⟨type, htype, rfl⟩ := Option.map_eq_some_iff.mp hvisited
    have hstring := (hvisit.token hvisited).2.2.1 hinside.2.2.1
    obtain ⟨c, cs, hahead, hnext⟩ := hvisit.ahead
    rw [← hnext] at htype
    obtain ⟨hquote, hnewline⟩ := nextLexeme_insideLine htype hinside
    obtain ⟨text, htext, -⟩ := nextLexeme_text c cs
    have hcoordinates := hplaced (fun hhead => by
      rw [← hnext, htext] at hhead
      exact absurd (Option.some.inj hhead) hquote)
    rw [hsource] at hcoordinates
    refine ⟨hcoordinates, hvisit.index_le, ?_, ?_, ?_⟩
    · rw [hstring]
      exact hvisit.text_front
    · rw [hstring]
      exact hvisit.text_pos
    · rw [hstring, ← hnext]
      exact hnewline

/-! ## What the error handler finds -/

/-- The start of the line is found from anywhere in it. -/
theorem stringFindLineStart_stays {source : CString} {start length : Nat}
    (hstart : stringFindLineStart source start = start)
    (hline : ∀ i < length, stringCharAt source (start + i) ≠ '\n'.toUInt8) :
    stringFindLineStart source (start + length) = start := by
  induction length with
  | zero => exact hstart
  | succ length ih =>
      rw [← Nat.add_assoc, stringFindLineStart, if_pos (hline length (Nat.lt_succ_self length))]
      exact ih fun i hi => hline i (Nat.lt_succ_of_lt hi)

/-- The number of a line counts the newlines in front of it. -/
theorem stringGetLineNumber_count {source : CString} {index : Nat}
    (hindex : index ≤ source.data.length) :
    stringGetLineNumber source index = (source.data.take index).count '\n'.toUInt8 + 1 := by
  induction index with
  | zero => rfl
  | succ index ih =>
      have hi : index < source.data.length := by omega
      have hchar : stringCharAt source index = source.data[index] := by
        rw [stringCharAt, List.getD_eq_getElem _ _ hi]
      rw [stringGetLineNumber_succ, hchar, ih (Nat.le_of_lt hi),
        List.take_succ_eq_append_getElem hi, List.count_append, List.count_singleton]
      by_cases hnewline : source.data[index] = '\n'.toUInt8
      · rw [if_pos hnewline, if_pos (beq_iff_eq.mpr hnewline)]
      · rw [if_neg hnewline, if_neg (fun h => hnewline (beq_iff_eq.mp h)), Nat.add_zero]

section Place

variable {source : CString} {mark : List UInt8}
  (place : LinePlaces.Place '\n'.toUInt8 source.data mark)

include place

/-- It lies behind the text in front. -/
theorem place_lineStart : stringFindLineStart source place.index = place.before.length := by
  apply stringFindLineStart_stays
  · cases hstart : place.before.length with
    | zero => rfl
    | succ index =>
        have hchar : stringCharAt source index = '\n'.toUInt8 := by
          rw [stringCharAt, List.getD_eq_getElem?_getD, place.getElem?_before hstart]
          rfl
        rw [stringFindLineStart, if_neg (not_not_intro hchar)]
  · intro i hi hchar
    rw [stringCharAt, List.getD_eq_getElem?_getD, place.getElem?_front hi,
      Option.getD_some] at hchar
    have hmem := List.getElem_mem hi
    rw [hchar] at hmem
    exact place.front_line hmem

theorem place_lineNumber :
    stringGetLineNumber source place.before.length = place.lineNumber := by
  rw [stringGetLineNumber_count place.before_le, place.take_before, LinePlaces.Place.lineNumber]

end Place

/-! ## What is printed -/

/-- Characters beside the marked ones are printed as they are. -/
theorem printCharacters_plain {errorIndex errorLength i : Nat} {text : List UInt8}
    (rest : List UInt8) (hnewline : '\n'.toUInt8 ∉ text)
    (hbeside : ∀ j < text.length, i + j ≠ errorIndex ∧ i + j + 1 ≠ errorIndex + errorLength) :
    printCharacters errorIndex errorLength i (text ++ rest) =
      text ++ printCharacters errorIndex errorLength (i + text.length) rest := by
  induction text generalizing i with
  | nil => rfl
  | cons c text ih =>
      rw [List.mem_cons, not_or] at hnewline
      obtain ⟨hfirst, hlast⟩ := hbeside 0 (Nat.succ_pos _)
      rw [Nat.add_zero] at hfirst hlast
      have hrest := ih (i := i + 1) hnewline.2 (fun j hj => by
        have hnext := hbeside (j + 1) (Nat.succ_lt_succ hj)
        omega)
      rw [List.cons_append, printCharacters, if_neg (fun h => hnewline.1 h.symm),
        if_neg hfirst, if_neg hlast, hrest, List.length_cons, List.cons_append]
      simp only [List.nil_append]
      congr 3
      omega

/-- The marked characters are printed between the two colours. -/
theorem printCharacters_mark {i : Nat} {mark : List UInt8} (rest : List UInt8)
    (hmark : 0 < mark.length) (hnewline : '\n'.toUInt8 ∉ mark) :
    printCharacters i mark.length i (mark ++ rest) =
      redColor ++ (mark ++ (resetColor ++
        printCharacters i mark.length (i + mark.length) rest)) := by
  cases mark with
  | nil => exact absurd hmark (Nat.lt_irrefl 0)
  | cons c cs =>
      rw [List.mem_cons, not_or] at hnewline
      rw [List.cons_append, printCharacters, if_neg (fun h => hnewline.1 h.symm), if_pos rfl]
      rcases List.eq_nil_or_concat cs with rfl | ⟨middle, last, rfl⟩
      · rw [if_pos (show i + 1 = i + [c].length from rfl)]
        rfl
      · rw [List.concat_eq_append, List.mem_append, not_or, List.mem_singleton] at hnewline
        rw [List.concat_eq_append]
        obtain ⟨-, hmiddle, hlast⟩ := hnewline
        have hlength : (c :: (middle ++ [last])).length = middle.length + 2 := by simp
        rw [hlength, if_neg (by omega), List.append_assoc,
          printCharacters_plain _ hmiddle (fun j hj => by omega), List.singleton_append,
          printCharacters, if_neg (fun h => hlast h.symm), if_neg (by omega), if_pos (by omega)]
        simp only [List.nil_append, List.cons_append, List.append_assoc]
        congr 6
        omega

/-- The printing stops at the end of the line. -/
theorem printCharacters_ends {errorIndex errorLength i : Nat} {after : List UInt8}
    (hends : after = [] ∨ ∃ lines, after = '\n'.toUInt8 :: lines) :
    printCharacters errorIndex errorLength i after = [] := by
  rcases hends with rfl | ⟨lines, rfl⟩
  · rfl
  · rw [printCharacters, if_pos rfl]

/-- `count_digits` counts what `%d` prints. -/
theorem countDigits_decimal {value : Nat} (h : 0 < value) :
    countDigits value = (decimal value).length := by
  have hdigits : countDigits value = (Nat.digits 10 value).length := by
    clear h
    induction value using Nat.strong_induction_on with
    | h value ih =>
        rw [countDigits]
        split_ifs with hzero
        · rw [hzero, Nat.digits_zero, List.length_nil]
        · rw [Nat.digits_def' (by omega) (by omega), List.length_cons,
            ih (value / 10) (by omega)]
  have hpos : 0 < (Nat.digits 10 value).length := by
    apply List.length_pos_iff.mpr
    exact Nat.digits_ne_nil_iff_ne_zero.mpr (by omega)
  simp only [hdigits, decimal, formatDecimal, Numerals.padded, List.length_map,
    List.length_reverse, List.length_append, List.length_replicate]
  omega

/-- The report of an error at a piece of a line. -/
def placeReport {text mark : List UInt8} (place : LinePlaces.Place '\n'.toUInt8 text mark)
    (path : String) (source : ErrorSource) (message : String) : List UInt8 :=
  bytes "Debug: Token Error - Line: " ++ decimal place.lineNumber ++ bytes ", IndexInLine: " ++
    decimal place.front.length ++ bytes ", Index: " ++ decimal place.index ++ bytes "\n" ++
    (printErrorLocation path place.lineNumber (place.front.length + 1) ++
      redColor ++ source.name ++ resetColor ++ bytes ": " ++ bytes message ++ bytes "\n" ++
      (bytes "    " ++ decimal place.lineNumber ++ bytes " | " ++
        (place.front ++ redColor ++ mark ++ resetColor ++ place.behind) ++ bytes "\n") ++
      (bytes "    " ++ List.replicate (decimal place.lineNumber).length ' '.toUInt8 ++
        bytes " | " ++ List.replicate place.front.length ' '.toUInt8 ++ redColor ++
        ('^'.toUInt8 :: List.replicate (mark.length - 1) '~'.toUInt8) ++ resetColor ++
        bytes "\n"))

/-- The line of a place is printed with just its piece coloured. -/
theorem printErrorLine_place {source : CString} {mark : List UInt8}
    (place : LinePlaces.Place '\n'.toUInt8 source.data mark) (hmark : 0 < mark.length) :
    printErrorLine source (stringFindLineStart source place.index) place.index mark.length =
      bytes "    " ++ decimal place.lineNumber ++ bytes " | " ++
        (place.front ++ redColor ++ mark ++ resetColor ++ place.behind) ++ bytes "\n" := by
  have hfront : ∀ j < place.front.length, place.before.length + j ≠ place.index ∧
      place.before.length + j + 1 ≠ place.index + mark.length := by
    intro j hj
    rw [LinePlaces.Place.index]
    omega
  have hprinted : printCharacters place.index mark.length place.before.length
      (place.front ++ (mark ++ (place.behind ++ place.after))) =
        place.front ++ redColor ++ mark ++ resetColor ++ place.behind := by
    rw [printCharacters_plain _ place.front_line hfront,
      show place.before.length + place.front.length = place.index from rfl,
      printCharacters_mark _ hmark place.piece_line,
      printCharacters_plain _ place.behind_line (fun j hj => by omega),
      printCharacters_ends place.ends]
    simp only [List.append_assoc, List.append_nil]
  rw [printErrorLine, place_lineStart place, place_lineNumber place, place.drop_before, hprinted]

/-- Under it stand a caret and tildes, as many as the piece has characters. -/
theorem printErrorPointer_place {lineNumber column length : Nat} (hline : 0 < lineNumber)
    (hlength : 0 < length) : printErrorPointer lineNumber column length =
      bytes "    " ++ List.replicate (decimal lineNumber).length ' '.toUInt8 ++ bytes " | " ++
        List.replicate column ' '.toUInt8 ++ redColor ++
        ('^'.toUInt8 :: List.replicate (length - 1) '~'.toUInt8) ++ resetColor ++
        bytes "\n" := by
  have hmarks : (List.range length).flatMap (fun i => if i = 0 then bytes "^" else bytes "~") =
      '^'.toUInt8 :: List.replicate (length - 1) '~'.toUInt8 := by
    obtain ⟨tildes, rfl⟩ : ∃ n, length = n + 1 := ⟨length - 1, by omega⟩
    rw [List.range_succ_eq_map, List.flatMap_cons, List.flatMap_map, Nat.add_sub_cancel]
    clear hlength
    induction tildes with
    | zero => rfl
    | succ tildes ih =>
        rw [List.range_succ, List.flatMap_append, ← List.append_assoc, ih,
          List.replicate_succ']
        rfl
  rw [printErrorPointer, errorPointerFront, countDigits_decimal hline, hmarks]

/-- **The report of a token inside of a line.** -/
theorem TokenPlace.report {source : CString} {token : Token} (h : TokenPlace source token) :
    ∃ place : LinePlaces.Place '\n'.toUInt8 source.data token.string.data,
      place.index = token.index ∧
      ∀ (handler : ErrorHandler) (stage : ErrorSource) (message : String),
        handler.string = source →
        reportError handler (.tokenError stage { token := token, message := message }) =
          placeReport place handler.filePath stage message := by
  obtain ⟨place, hindex⟩ := LinePlaces.Place.exists_at h.index_le h.text h.newline
  refine ⟨place, hindex, ?_⟩
  intro handler stage message hstring
  have hline : token.line = place.lineNumber := by
    rw [h.line, ← hindex, place_lineStart place, place_lineNumber place]
  have hcolumn : token.indexInLine = place.front.length := by
    rw [h.column, ← hindex, place_lineStart place, LinePlaces.Place.index, Nat.add_sub_cancel_left]
  have hpos : 0 < place.lineNumber := Nat.succ_pos _
  rw [reportError, reportAt, hstring, hline, hcolumn, ← hindex, stringLength,
    printErrorLine_place place h.text_pos, printErrorPointer_place hpos h.text_pos]
  rfl

/-! ## The stages behind the lexer -/

/-- No keyword is an error. -/
theorem keywordOf_ne_error {table : List (String × TokenType)} {text : List UInt8}
    {type : TokenType} (h : keywordOf table text = some type)
    (htable : ∀ entry ∈ table, entry.2 ≠ .error) : type ≠ .error := by
  obtain ⟨entry, hentry, rfl⟩ := Option.map_eq_some_iff.mp h
  exact htable entry (List.mem_of_find?_eq_some hentry)

/-- A malformed token comes with an error. -/
theorem nextLexeme_malformed {c : UInt8} {cs : List UInt8} (hc : c ≠ 0)
    (h : (nextLexeme c cs).type = some .error) : (nextLexeme c cs).error ≠ none := by
  revert h
  refine nextLexeme_cases (P := fun x => x.type = some .error → x.error ≠ none) c cs
    ?_ ?_ ?_ ?_ ?_ ?_ ?_ ?_ ?_ ?_
  · exact fun _ h => by cases h
  · exact fun _ h => by cases h
  · exact fun _ h => by cases h
  · exact fun _ h => by cases h
  · have hseparator : ∀ c : UInt8, c ≠ 0 → charExistsInString c (bytes ",:#*") = true →
        separatorType c ≠ .error := forall_char (by decide +kernel)
    exact fun hsep h => absurd (Option.some.inj h) (hseparator c hc hsep)
  · intro _ h
    rw [numberLexeme] at h ⊢
    split_ifs at h ⊢
    · exact Option.some_ne_none _
    · cases h
  · intro _ h
    rw [stringLexeme] at h ⊢
    split_ifs at h ⊢
    · cases h
    · exact Option.some_ne_none _
  · intro _ h
    unfold nonOpLexeme at h ⊢
    split at h
    · rename_i hkey
      exact absurd (Option.some.inj h) (keywordOf_ne_error hkey (by decide))
    · exact Option.some_ne_none _
  · intro _ h
    cases hkey : keywordOf keywords (c :: cs.takeWhile (wordChar c)) with
    | none => simp [wordLexeme, hkey] at h
    | some type =>
        simp only [wordLexeme, hkey, Option.getD_some, Option.some.injEq] at h
        exact absurd h (keywordOf_ne_error hkey (by decide))
  · exact fun _ h => by cases h

/-- Without an error of the lexer no token is malformed. -/
theorem LexerInput.token_wellFormed (input : LexerInput) (hclean : input.errors = [])
    {token : Token} (htoken : token ∈ input.tokens) : token.type ≠ .error := by
  obtain ⟨xs, htokens, herrors, hvisits, -, -⟩ := input.exists_visits
  rw [htokens] at htoken
  obtain ⟨v, hv, hvisited⟩ := List.mem_filterMap.mp htoken
  obtain ⟨type, htype, rfl⟩ := Option.map_eq_some_iff.mp hvisited
  intro hmalformed
  have hnoNul := (hvisits v hv).text_noNul
  obtain ⟨c, cs, -, hnext⟩ := (hvisits v hv).ahead
  have hc : c ≠ 0 := by
    obtain ⟨text, htext, -⟩ := nextLexeme_text c cs
    rw [← hnext, htext, List.mem_cons, not_or] at hnoNul
    exact Ne.symm hnoNul.1
  have hlexeme : (nextLexeme c cs).type = some .error := by
    rw [hnext, htype]
    exact congrArg some hmalformed
  obtain ⟨error, herror⟩ := Option.ne_none_iff_exists'.mp (nextLexeme_malformed hc hlexeme)
  have hmem : v.2.errorAt v.1 error ∈ input.errors := by
    rw [herrors]
    refine List.mem_filterMap.mpr ⟨v, hv, ?_⟩
    rw [visitError, ← hnext, herror]
    rfl
  rw [hclean] at hmem
  exact absurd hmem List.not_mem_nil

/-- The lexer keeps its source. -/
theorem LexerInput.analyze_sourceCode (input : LexerInput) :
    (lexerAnalyze input.lexer).sourceCode = input.source := by
  apply input.analyze_cases (P := fun l => l.sourceCode = input.source) (fun _ => rfl)
  intro xs _ _
  rw [takeAll_sourceCode]
  rfl

/-- A report shows a token of the file in its line. -/
def ShowsInLine (input : LexerInput) (path : String) (stage : ErrorSource)
    (printed : List UInt8) : Prop :=
  ∃ token ∈ input.tokens, ∃ (place : LinePlaces.Place '\n'.toUInt8 input.source.data
      token.string.data) (message : String),
    place.index = token.index ∧ printed = placeReport place path stage message

/-- A report is at a token that is a string literal, or the end of a line or of
the file. -/
def ShowsEnd (input : LexerInput) (path : String) (stage : ErrorSource)
    (printed : List UInt8) : Prop :=
  ∃ token ∈ input.tokens, ∃ message : String,
    (token.type = .string ∨ token.type = .eol ∨ token.type = .eoft) ∧
    printed = reportError (errorHandlerInitialize input.source path)
      (.tokenError stage { token := token, message := message })

/-- What the parser and the analyzer print: their headings and the reports of
their errors, where the analyzer runs only if the parser has reported nothing,
and its reports all show tokens in their lines. -/
structure Diagnosis (input : LexerInput) (path : String) (analyzed : Analyzed)
    (parsing analysis : List (List UInt8)) : Prop where
  text : analyzed.text = bytes "Parsing started...\n" ++ parsing.flatten ++
    if parsing = [] then bytes "Semantic analysis started...\n" ++ analysis.flatten else []
  parserReports : ∀ printed ∈ parsing, ShowsInLine input path .parser printed ∨
    ShowsEnd input path .parser printed
  analyzerReports : ∀ printed ∈ analysis, ShowsInLine input path .semanticAnalyzer printed
  accepted : analyzed.accepted ≠ none ↔ parsing = [] ∧ analysis = []

section Input

variable {input : LexerInput} {handler : ErrorHandler} {stage : ErrorSource}
  (hstring : handler.string = input.source)

include hstring

/-- An error at a token inside a line is shown in the line. -/
theorem showsInLine_of_insideLine {token : Token} (htoken : token ∈ input.tokens)
    (hinside : InsideLine token) (message : String) :
    ShowsInLine input handler.filePath stage
      (reportError handler (.tokenError stage { token := token, message := message })) := by
  obtain ⟨place, hindex, hreport⟩ := (input.token_place htoken hinside).report
  exact ⟨token, htoken, place, message, hindex, hreport handler stage message hstring⟩

theorem shows_of_atToken (hclean : input.errors = []) {node : ErrorNode}
    (hnode : AtToken stage input.tokens node) :
    ShowsInLine input handler.filePath stage (reportError handler node) ∨
      ShowsEnd input handler.filePath stage (reportError handler node) := by
  obtain ⟨token, htoken, message, rfl⟩ := hnode
  by_cases hinside : InsideLine token
  · exact Or.inl (showsInLine_of_insideLine hstring htoken hinside message)
  · have htype : token.type = .string ∨ token.type = .eol ∨ token.type = .eoft := by
      have hformed := input.token_wellFormed hclean htoken
      unfold InsideLine at hinside
      tauto
    refine Or.inr ⟨token, htoken, message, htype, ?_⟩
    rw [reportError, reportError, reportAt, reportAt, hstring]
    rfl

end Input

/-- **The reports.**  On a file without lexical errors whose tokens end with the
end of the file, the parser and the analyzer print nothing but reports at tokens
of the file. -/
theorem analyzeTokens_reports (input : LexerInput) (hclean : input.errors = [])
    (hends : EndsFile input.tokens) {analyzed : Analyzed}
    (hrun : analyzeTokens (lexerAnalyze input.lexer) = .ok analyzed) :
    ∃ parsing analysis, Diagnosis input (lexerAnalyze input.lexer).filePath analyzed
      parsing analysis := by
  obtain ⟨unit, hparse, hrest⟩ := exists_of_bind_eq_ok hrun
  have hblames := parseTranslationUnitContent_blames hends hparse
  have hstring : unit.errorHandler.string = input.source :=
    hblames.string.trans input.analyze_sourceCode
  have hparsing : ∀ printed ∈ unit.errorHandler.errorList.map (reportError unit.errorHandler),
      ShowsInLine input (lexerAnalyze input.lexer).filePath .parser printed ∨
        ShowsEnd input (lexerAnalyze input.lexer).filePath .parser printed := by
    intro printed hprinted
    obtain ⟨node, hnode, rfl⟩ := List.mem_map.mp hprinted
    have hshows := shows_of_atToken hstring hclean (hblames.of_empty rfl node hnode)
    rwa [hblames.filePath] at hshows
  have htext : stageText "Parsing started...\n" unit.errorHandler =
      bytes "Parsing started...\n" ++
        (unit.errorHandler.errorList.map (reportError unit.errorHandler)).flatten := rfl
  simp only at hrest
  split_ifs at hrest with herrors
  · rw [← Except.ok.inj hrest]
    have hne : unit.errorHandler.errorList.map (reportError unit.errorHandler) ≠ [] :=
      fun h => herrors (List.map_eq_nil_iff.mp h)
    refine ⟨_, [], ?_, hparsing, fun _ h => absurd h List.not_mem_nil, ?_⟩
    · rw [if_neg hne, List.append_nil]
      exact htext
    · exact iff_of_false (fun h => h rfl) (fun h => hne h.1)
  · rw [not_not] at herrors
    obtain ⟨analyzer, hanalyze, hrest⟩ := exists_of_bind_eq_ok hrest
    have hformed : UnitFormed (lexerAnalyze input.lexer).tokenList unit :=
      (show ParsedFrom (parserInitializeTranslationUnit (lexerAnalyze input.lexer)) unit from
        ⟨hparse, herrors⟩).formed
    have hanalyzes := analyzeTranslationUnit_blames hformed hanalyze
    have hsource : analyzer.errorHandler.string = input.source :=
      hanalyzes.string.trans input.analyze_sourceCode
    have hanalysis : ∀ printed ∈ analyzer.errorHandler.errorList.map
        (reportError analyzer.errorHandler),
        ShowsInLine input (lexerAnalyze input.lexer).filePath .semanticAnalyzer printed := by
      intro printed hprinted
      obtain ⟨node, hnode, rfl⟩ := List.mem_map.mp hprinted
      obtain ⟨token, htoken, message, rfl⟩ := hanalyzes.of_empty rfl node hnode
      obtain ⟨hmem, hinside⟩ := mem_lineTokens.mp htoken
      have hshows := @showsInLine_of_insideLine input _ .semanticAnalyzer hsource _ hmem hinside
        message
      rwa [hanalyzes.filePath] at hshows
    have hnil : unit.errorHandler.errorList.map (reportError unit.errorHandler) = [] := by
      rw [herrors, List.map_nil]
    refine ⟨_, analyzer.errorHandler.errorList.map (reportError analyzer.errorHandler), ?_,
      hparsing, hanalysis, ?_⟩
    · rw [if_pos hnil]
      split_ifs at hrest with hanalyzed
      · rw [← Except.ok.inj hrest, ← htext]
        rfl
      · rw [← Except.ok.inj hrest, ← htext]
        rfl
    · rw [List.map_eq_nil_iff, List.map_eq_nil_iff]
      split_ifs at hrest with hanalyzed
      · rw [← Except.ok.inj hrest]
        exact iff_of_false (fun h => h rfl) (fun h => hanalyzed h.2)
      · rw [not_not] at hanalyzed
        rw [← Except.ok.inj hrest]
        exact iff_of_true (Option.some_ne_none _) ⟨herrors, hanalyzed⟩

/-- A file with an operand too many. -/
def reportsSample : LexerInput := .file "a" (bytes "A: stop r2\n")

/-- A source with an error that only the analyzer finds. -/
theorem analyzeTokens_reports_sample : ∃ analyzed parsing analysis,
    analyzeTokens (lexerAnalyze reportsSample.lexer) = .ok analyzed ∧
      analyzed.accepted = none ∧
      Diagnosis reportsSample (lexerAnalyze reportsSample.lexer).filePath analyzed parsing
        analysis := by
  have hreturns : (match analyzeTokens (lexerAnalyze reportsSample.lexer) with
      | .ok analyzed => analyzed.accepted.isNone
      | .error _ => false) = true := by decide +kernel
  have hends : EndsFile reportsSample.tokens :=
    @lexedFile_endsFile "a" (bytes "A: stop r2\n") (by decide)
  cases hrun : analyzeTokens (lexerAnalyze reportsSample.lexer) with
  | error fault =>
      rw [hrun] at hreturns
      cases hreturns
  | ok analyzed =>
      rw [hrun] at hreturns
      obtain ⟨parsing, analysis, hreports⟩ :=
        analyzeTokens_reports reportsSample (by decide +kernel) hends hrun
      exact ⟨analyzed, parsing, analysis, rfl, Option.isNone_iff_eq_none.mp hreturns, hreports⟩

end Assembler
