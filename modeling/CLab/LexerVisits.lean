import CLab.LexerTokens

/-!
# The places where the lexer takes its lexemes

`Lexer.visits` lists, for a run of the lexer, the lexer at the start of each
lexeme together with that lexeme.  The tokens and the errors of the run are
read off this list (`placeTokens_eq_visits`, `takeAll_errorList`), the visits
follow each other without a gap (`visits_ordered`, `visits_cover`), and the
place of a visit says what is still ahead there (`LexerVisit`).

`LexerInput` is what a run of `lexer_analyze` starts from: a C string, a file
or a string of the program.
-/

namespace Assembler

/-- The lexer in front of each lexeme it takes, with that lexeme. -/
def Lexer.visits (lexer : Lexer) : List Lexeme → List (Lexer × Lexeme)
  | [] => []
  | x :: xs => (lexer, x) :: (lexer.take x).visits xs

/-- The token a visit leaves. -/
def visitToken (v : Lexer × Lexeme) : Option Token :=
  v.2.type.map (v.2.tokenAt v.1)

/-- The error a visit leaves. -/
def visitError (v : Lexer × Lexeme) : Option ErrorNode :=
  v.2.error.map (v.2.errorAt v.1)

/-- The tokens are those of the visits. -/
theorem placeTokens_eq_visits (lexer : Lexer) (xs : List Lexeme) :
    placeTokens lexer xs = (lexer.visits xs).filterMap visitToken := by
  induction xs generalizing lexer with
  | nil => rfl
  | cons x xs ih =>
      rw [placeTokens, ih, Lexer.visits, List.filterMap_cons]
      cases htype : x.type <;> simp [visitToken, htype]

theorem takeAll_errorList (lexer : Lexer) (xs : List Lexeme) :
    (lexer.takeAll xs).errorHandler.errorList =
      lexer.errorHandler.errorList ++ (lexer.visits xs).filterMap visitError := by
  induction xs generalizing lexer with
  | nil => simp [Lexer.visits]
  | cons x xs ih =>
      rw [takeAll_cons, ih, Lexer.visits, List.filterMap_cons]
      cases herror : x.error <;> simp [Lexer.take, visitError, herror]

/-- A visit splits the lexemes, and the lexer there has taken those in front. -/
theorem mem_visits {lexer : Lexer} {xs : List Lexeme} {v : Lexer × Lexeme}
    (h : v ∈ lexer.visits xs) : ∃ ys zs, xs = ys ++ v.2 :: zs ∧ v.1 = lexer.takeAll ys := by
  induction xs generalizing lexer with
  | nil => exact absurd h List.not_mem_nil
  | cons x xs ih =>
      rcases List.mem_cons.mp h with rfl | h
      · exact ⟨[], xs, rfl, rfl⟩
      · obtain ⟨ys, zs, rfl, hv⟩ := ih h
        exact ⟨x :: ys, zs, rfl, hv⟩

/-- A split of the lexemes is a visit. -/
theorem visits_mem {lexer : Lexer} (ys : List Lexeme) (x : Lexeme) (zs : List Lexeme) :
    (lexer.takeAll ys, x) ∈ lexer.visits (ys ++ x :: zs) := by
  induction ys generalizing lexer with
  | nil => exact List.mem_cons_self
  | cons y ys ih => exact List.mem_cons_of_mem _ ih

/-- No visit stands in front of the lexer. -/
theorem visits_index_le {lexer : Lexer} {xs : List Lexeme} :
    ∀ v ∈ lexer.visits xs, lexer.index ≤ v.1.index := by
  intro v hv
  obtain ⟨ys, zs, -, hlexer⟩ := mem_visits hv
  rw [hlexer, takeAll_index]
  omega

/-- **Order.**  A lexeme ends where or before every later one starts. -/
theorem visits_ordered (lexer : Lexer) (xs : List Lexeme) :
    (lexer.visits xs).Pairwise fun v w => v.1.index + v.2.text.length ≤ w.1.index := by
  induction xs generalizing lexer with
  | nil => exact List.Pairwise.nil
  | cons x xs ih =>
      refine List.Pairwise.cons ?_ (ih _)
      intro w hw
      have hle := visits_index_le w hw
      rw [take_index] at hle
      exact hle

/-- **No gap.**  Every character of the lexemes is in one of them. -/
theorem visits_cover (lexer : Lexer) (xs : List Lexeme) {i : Nat} (hi : lexer.index ≤ i)
    (hend : i < lexer.index + (lexemesText xs).length) :
    ∃ v ∈ lexer.visits xs, v.1.index ≤ i ∧ i < v.1.index + v.2.text.length := by
  induction xs generalizing lexer with
  | nil =>
      rw [lexemesText_nil, List.length_nil] at hend
      omega
  | cons x xs ih =>
      by_cases hlt : i < lexer.index + x.text.length
      · exact ⟨(lexer, x), List.mem_cons_self, hi, hlt⟩
      · rw [lexemesText_cons, List.length_append] at hend
        obtain ⟨v, hv, hin⟩ := ih (lexer.take x)
          (by rw [take_index]; omega) (by rw [take_index]; omega)
        exact ⟨v, List.mem_cons_of_mem _ hv, hin⟩

/-! ## The lexeme by its first character -/

/-- A semicolon begins a comment. -/
theorem nextLexeme_semicolon (cs : List UInt8) : nextLexeme ';'.toUInt8 cs =
    ⟨';'.toUInt8 :: cs.takeWhile (fun d => d != eofChar && d != '\n'.toUInt8), none, none⟩ := by
  rw [nextLexeme, if_neg (by decide), if_pos rfl]

theorem nextLexeme_quote (cs : List UInt8) :
    nextLexeme '\"'.toUInt8 cs = stringLexeme (quotedText cs) := by
  rw [nextLexeme, if_neg (by decide), if_neg (by decide), if_neg (by decide),
    if_neg (by decide), if_neg (by decide), if_neg (by decide), if_pos rfl]

theorem nextLexeme_dot (cs : List UInt8) : nextLexeme '.'.toUInt8 cs =
    nonOpLexeme ('.'.toUInt8 :: cs.takeWhile isValidIdentifierStart) := by
  rw [nextLexeme, if_neg (by decide), if_neg (by decide), if_neg (by decide),
    if_neg (by decide), if_neg (by decide), if_neg (by decide), if_neg (by decide), if_pos rfl]

theorem nextLexeme_number {c : UInt8}
    (hc : isDigit c = true ∨ charExistsInString c (bytes "+-") = true) (h0 : c ≠ 0)
    (cs : List UInt8) : nextLexeme c cs = numberLexeme (c :: cs.takeWhile isDigit) := by
  have hother : ∀ c : UInt8, c ≠ 0 →
      (isDigit c = true ∨ charExistsInString c (bytes "+-") = true) →
      isWhitespace c = false ∧ c ≠ ';'.toUInt8 ∧ c ≠ '\n'.toUInt8 ∧ c ≠ eofChar ∧
        charExistsInString c (bytes ",:#*") = false := forall_char (by decide +kernel)
  obtain ⟨hblank, hcomment, hnewline, heof, hsep⟩ := hother c h0 hc
  have hnum : (isDigit c || charExistsInString c (bytes "+-")) = true := by simpa using hc
  simp [nextLexeme, hblank, hcomment, hnewline, heof, hsep, hnum]

theorem nextLexeme_word {c : UInt8} (hc : isValidIdentifierStart c = true ∨ c = '_'.toUInt8)
    (cs : List UInt8) : nextLexeme c cs = wordLexeme (c :: cs.takeWhile (wordChar c)) := by
  have hother : ∀ c : UInt8, (isValidIdentifierStart c = true ∨ c = '_'.toUInt8) →
      isWhitespace c = false ∧ c ≠ ';'.toUInt8 ∧ c ≠ '\n'.toUInt8 ∧ c ≠ eofChar ∧
        charExistsInString c (bytes ",:#*") = false ∧ isDigit c = false ∧
        charExistsInString c (bytes "+-") = false ∧ c ≠ '\"'.toUInt8 ∧ c ≠ '.'.toUInt8 :=
    forall_char (by decide +kernel)
  obtain ⟨hblank, hcomment, hnewline, heof, hsep, hdigit, hsign, hquote, hdot⟩ := hother c hc
  have hword : (isValidIdentifierStart c || decide (c = '_'.toUInt8)) = true := by simpa using hc
  simp [nextLexeme, hblank, hcomment, hnewline, heof, hsep, hdigit, hsign, hquote, hdot, hword]

/-! ## What a visit finds -/

/-- The lexer stands in a text, in front of the lexeme that comes next there. -/
structure LexerVisit (source : List UInt8) (v : Lexer × Lexeme) : Prop where
  ahead : ∃ c cs, source.drop v.1.index = c :: cs ∧ nextLexeme c cs = v.2

/-- Every visit is at a lexeme of the source. -/
theorem visits_lexerVisit {lexer : Lexer} {xs : List Lexeme} (h : Lexes lexer.rest xs) :
    ∀ v ∈ lexer.visits xs, LexerVisit lexer.sourceCode.data v := by
  intro v hv
  obtain ⟨ys, zs, rfl, hlexer⟩ := mem_visits hv
  obtain ⟨rest, hrest, hlex⟩ := h.drop
  have hdrop : lexer.sourceCode.data.drop v.1.index = rest := by
    have hahead : lexer.rest.drop (lexemesText ys).length = rest := by
      rw [hrest, List.drop_left]
    rw [hlexer, takeAll_index, ← hahead, Lexer.rest, List.drop_drop]
  cases hlex with
  | cons hnext hsplit tail => exact ⟨⟨_, _, hdrop, hnext⟩⟩

/-- The lexeme of a visit is what stands there. -/
theorem LexerVisit.text_front {source : List UInt8} {v : Lexer × Lexeme}
    (h : LexerVisit source v) : v.2.text <+: source.drop v.1.index := by
  obtain ⟨c, cs, hdrop, hnext⟩ := h.ahead
  obtain ⟨t, htext, ht⟩ := nextLexeme_text c cs
  rw [hdrop, ← hnext, htext]
  exact List.prefix_cons_inj c |>.mpr ht

theorem LexerVisit.text_pos {source : List UInt8} {v : Lexer × Lexeme}
    (h : LexerVisit source v) : 0 < v.2.text.length := by
  obtain ⟨c, cs, -, hnext⟩ := h.ahead
  obtain ⟨t, htext, -⟩ := nextLexeme_text c cs
  rw [← hnext, htext, List.length_cons]
  omega

theorem LexerVisit.text_noNul {source : CString} {v : Lexer × Lexeme}
    (h : LexerVisit source.data v) : 0 ∉ v.2.text := fun hzero =>
  source.noNul (List.mem_of_mem_drop (h.text_front.subset hzero))

/-- A character of a lexeme is the character of the text there. -/
theorem LexerVisit.getElem? {source : List UInt8} {v : Lexer × Lexeme}
    (h : LexerVisit source v) {k : Nat} (hk : k < v.2.text.length) :
    source[v.1.index + k]? = v.2.text[k]? := by
  obtain ⟨rest, hrest⟩ := h.text_front
  rw [← List.getElem?_drop, ← hrest, List.getElem?_append_left hk]

/-! ## Scanning a text lexeme by lexeme -/

section Scan

variable {σ : Type*} {step : σ → UInt8 → σ} {code : σ}

/-- A text that does not move the state is passed over. -/
theorem foldl_stay {s : σ} {text : List UInt8} (h : ∀ d ∈ text, step s d = s) :
    text.foldl step s = s := by
  induction text with
  | nil => rfl
  | cons d text ih =>
      rw [List.foldl_cons, h d List.mem_cons_self]
      exact ih fun d hd => h d (List.mem_cons_of_mem _ hd)

/-- A run of characters ends in front of one that does not belong to it. -/
theorem head_behind_takeWhile {p : UInt8 → Bool} {cs rest : List UInt8}
    (hsplit : cs = cs.takeWhile p ++ rest) : ∀ d ∈ rest.head?, p d = false := by
  intro d hd
  have hdrop : cs.dropWhile p = rest :=
    List.append_cancel_left (List.takeWhile_append_dropWhile.trans hsplit)
  have hstop := List.head?_dropWhile_not p cs
  rw [hdrop, hd] at hstop
  exact hstop

/-- The character ahead is scanned as if the text began there. -/
def Settled (step : σ → UInt8 → σ) (code s : σ) (rest : List UInt8) : Prop :=
  ∀ d ∈ rest.head?, step s d = step code d

variable (hpiece : ∀ c cs rest, c :: cs = (nextLexeme c cs).text ++ rest →
  Settled step code ((nextLexeme c cs).text.foldl step code) rest)

include hpiece

/-- Behind any number of lexemes the scan is settled. -/
theorem Lexes.settled {text rest : List UInt8} {xs ys : List Lexeme}
    (h : Lexes text (xs ++ ys)) (htext : text = lexemesText xs ++ rest) {s : σ}
    (hs : Settled step code s text) :
    Settled step code ((lexemesText xs).foldl step s) rest := by
  induction xs generalizing text s with
  | nil =>
      rw [lexemesText_nil, List.nil_append] at htext
      exact htext ▸ hs
  | cons x xs ih =>
      cases h with
      | @cons c cs rest' _ _ hx hsplit tail =>
          have hrest : rest' = lexemesText xs ++ rest := by
            rw [hsplit, lexemesText_cons, List.append_assoc] at htext
            exact List.append_cancel_left htext
          subst hx
          obtain ⟨t, hxt, -⟩ := nextLexeme_text c cs
          have hfirst : (nextLexeme c cs).text.foldl step s =
              (nextLexeme c cs).text.foldl step code := by
            rw [hxt, List.foldl_cons, List.foldl_cons, hs c rfl]
          rw [lexemesText_cons, List.foldl_append, hfirst]
          exact ih tail hrest (hpiece c cs _ hsplit)

/-- **Every lexeme is scanned as if the text began with it.** -/
theorem visit_scan {lexer : Lexer} {xs : List Lexeme} (hstart : lexer.index = 0)
    (hlex : Lexes lexer.sourceCode.data xs) {v : Lexer × Lexeme} (hv : v ∈ lexer.visits xs) :
    Settled step code ((lexer.sourceCode.data.take v.1.index).foldl step code) v.2.text ∧
    ∀ k, 0 < k → k ≤ v.2.text.length →
      (lexer.sourceCode.data.take (v.1.index + k)).foldl step code =
        (v.2.text.take k).foldl step code := by
  obtain ⟨ys, zs, rfl, hlexer⟩ := mem_visits hv
  obtain ⟨rest, hrest, htail⟩ := hlex.drop
  have hsettled := hlex.settled hpiece hrest (s := code) fun d _ => rfl
  have hindex : v.1.index = (lexemesText ys).length := by
    rw [hlexer, takeAll_index, hstart, Nat.zero_add]
  cases htail with
  | @cons c cs behind _ _ hnext hsplit tail =>
      obtain ⟨t, htext, -⟩ := nextLexeme_text c cs
      rw [hnext] at htext
      have hfirst : ∀ d ∈ v.2.text.head?,
          step ((lexemesText ys).foldl step code) d = step code d := by
        rw [htext]
        exact hsettled
      rw [hindex, hrest]
      refine ⟨by rw [List.take_left]; exact hfirst, ?_⟩
      intro k hk hle
      obtain ⟨k, rfl⟩ : ∃ j, k = j + 1 := ⟨k - 1, by omega⟩
      rw [List.take_length_add_append, hsplit, List.take_append_of_le_length hle,
        List.foldl_append, htext, List.take_succ_cons, List.foldl_cons, List.foldl_cons,
        hfirst c (by rw [htext]; rfl)]

end Scan

/-! ## What the lexer can start from -/

/-- A run of the lexer starts from a C string, from the contents of a file that
could be opened, or from a string of the program. -/
inductive LexerInput
  | cstr (sourceString : List UInt8)
  | file (filePath : String) (contents : List UInt8)
  | string (filePath : String) (sourceCode : CString)

/-- The lexer as it is set up for an input. -/
def LexerInput.lexer : LexerInput → Lexer
  | .cstr sourceString => lexerInitializeFromCstr sourceString
  | .file filePath contents => lexerInitializeFromFile filePath contents
  | .string filePath sourceCode => lexerInitializeFromString filePath sourceCode

/-- The source text of the lexer. -/
def LexerInput.source (input : LexerInput) : CString := input.lexer.sourceCode

/-- The tokens of an input. -/
def LexerInput.tokens (input : LexerInput) : List Token :=
  (lexerAnalyze input.lexer).tokenList

/-- The errors of an input. -/
def LexerInput.errors (input : LexerInput) : List ErrorNode :=
  (lexerAnalyze input.lexer).errorHandler.errorList

/-- The characters that were handed to the lexer: all but the end-of-file
character that is put behind a C string and behind a file. -/
def LexerInput.text : LexerInput → List UInt8
  | .cstr sourceString => cstrText sourceString
  | .file _ contents => contents.filter (· != 0)
  | .string _ sourceCode => sourceCode.data

/-- A lexer in front of its text. -/
structure Lexer.AtStart (lexer : Lexer) : Prop where
  index : lexer.index = 0
  column : lexer.column = 0
  lineNumber : lexer.lineNumber = 1
  tokenList : lexer.tokenList = []
  errorList : lexer.errorHandler.errorList = []

/-- Every input is read from its start. -/
theorem LexerInput.atStart (input : LexerInput) : input.lexer.AtStart := by
  cases input <;> exact ⟨rfl, rfl, rfl, rfl, rfl⟩

/-- There the whole text lies ahead. -/
theorem Lexer.AtStart.rest_eq {lexer : Lexer} (h : lexer.AtStart) :
    lexer.rest = lexer.sourceCode.data := by
  rw [Lexer.rest, h.index, List.drop_zero]

/-- A file is copied without its NULs. -/
theorem foldl_stringAppendChar (contents : List UInt8) (str : CString) :
    (contents.foldl stringAppendChar str).data = str.data ++ contents.filter (· != 0) := by
  induction contents generalizing str with
  | nil => simp
  | cons ch contents ih =>
      rw [List.foldl_cons, ih, List.filter_cons]
      by_cases hch : ch = 0
      · simp [stringAppendChar, hch]
      · simp [stringAppendChar_data hch, hch]

/-- The source text is the text handed to the lexer, with an end-of-file
character behind it unless it was a string of the program. -/
theorem LexerInput.source_data (input : LexerInput) :
    input.source.data = input.text ∨ input.source.data = input.text ++ [eofChar] := by
  cases input with
  | cstr sourceString =>
      exact Or.inr (stringAppendChar_data (by decide))
  | file filePath contents =>
      refine Or.inr ((stringAppendChar_data (by decide)).trans ?_)
      rw [foldl_stringAppendChar]
      rfl
  | string filePath sourceCode =>
      exact Or.inl (stringAppend_data _ _)

/-- The text is the front of what is lexed. -/
theorem LexerInput.text_front (input : LexerInput) : input.text <+: input.source.data := by
  rcases input.source_data with h | h
  · exact ⟨[], by rw [h, List.append_nil]⟩
  · exact ⟨[eofChar], h.symm⟩

/-- The lexer stands at the first character of its text, unless it was set up
for an empty C string: the character it then looks at is the NUL. -/
theorem LexerInput.synced_or_nothing (input : LexerInput) :
    input.lexer.Synced ∨ input.text = [] ∧ input.lexer.currentChar = 0 := by
  cases input with
  | cstr sourceString =>
      cases hdata : cstrText sourceString with
      | nil =>
          refine Or.inr ⟨hdata, ?_⟩
          simp [LexerInput.lexer, lexerInitializeFromCstr, stringCharAt, stringCreateFromCstr,
            hdata]
      | cons ch rest =>
          apply Or.inl
          have hsource : (LexerInput.cstr sourceString).source.data =
              ch :: (rest ++ [eofChar]) := by
            show (stringAppendChar _ eofChar).data = _
            rw [stringAppendChar_data (by decide)]
            exact congrArg (· ++ [eofChar]) hdata
          show stringCharAt (stringCreateFromCstr sourceString) 0 =
            stringCharAt (LexerInput.cstr sourceString).source 0
          have hfirst : (stringCreateFromCstr sourceString).data = ch :: rest := hdata
          rw [stringCharAt, stringCharAt, hsource, hfirst]
          rfl
  | file filePath contents => exact Or.inl rfl
  | string filePath sourceCode => exact Or.inl rfl

/-- **A run of the lexer.**  Either nothing was handed to the lexer and it does
nothing, or it takes the lexemes of its source text. -/
theorem LexerInput.analyze_cases (input : LexerInput) {P : Lexer → Prop}
    (hnothing : input.text = [] → P input.lexer)
    (hrun : ∀ xs, input.lexer.Synced → Lexes input.source.data xs →
      P (input.lexer.takeAll xs)) :
    P (lexerAnalyze input.lexer) := by
  rcases input.synced_or_nothing with hs | ⟨htext, hchar⟩
  · obtain ⟨xs, hlex, heq⟩ := lexerAnalyze_eq hs
    rw [input.atStart.rest_eq] at hlex
    rw [heq]
    exact hrun xs hs hlex
  · have hexit : lexerAnalyze input.lexer = input.lexer :=
      While.loop_exit (by rw [hchar]; rfl)
    exact hexit.symm ▸ hnothing htext

/-- The visits of a run, which give its tokens and its errors: none when
nothing was handed to the lexer. -/
theorem LexerInput.exists_visits (input : LexerInput) : ∃ xs,
    input.tokens = (input.lexer.visits xs).filterMap visitToken ∧
    input.errors = (input.lexer.visits xs).filterMap visitError ∧
    (∀ v ∈ input.lexer.visits xs, LexerVisit input.source.data v) ∧
    lexemesText xs <+: input.source.data ∧ input.text.length ≤ (lexemesText xs).length := by
  refine input.analyze_cases (P := fun l => ∃ xs,
    l.tokenList = (input.lexer.visits xs).filterMap visitToken ∧
    l.errorHandler.errorList = (input.lexer.visits xs).filterMap visitError ∧
    (∀ v ∈ input.lexer.visits xs, LexerVisit input.source.data v) ∧
    lexemesText xs <+: input.source.data ∧ input.text.length ≤ (lexemesText xs).length) ?_ ?_
  · intro htext
    refine ⟨[], input.atStart.tokenList, input.atStart.errorList, ?_, List.nil_prefix, ?_⟩
    · exact fun v hv => absurd hv List.not_mem_nil
    · rw [htext]
      rfl
  · intro xs _ hlex
    refine ⟨xs, ?_, ?_, ?_, ?_, ?_⟩
    · rw [takeAll_tokenList, input.atStart.tokenList, List.nil_append, placeTokens_eq_visits]
    · rw [takeAll_errorList, input.atStart.errorList, List.nil_append]
    · exact visits_lexerVisit (input.atStart.rest_eq.symm ▸ hlex)
    · exact ⟨[], by rw [hlex.text_eq, List.append_nil]⟩
    · rw [hlex.text_eq]
      exact input.text_front.length_le

end Assembler
