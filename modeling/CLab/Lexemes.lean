import CLab.Lexer
import Mathlib.Data.List.TakeWhile
import Mathlib.Logic.Function.Iterate

/-!
# Lexemes: what the lexer computes

The lexer of the source is a loop over an index.  This file describes the same
computation by the text that is still ahead: `nextLexeme` reads one lexeme off
the front of a text, `Lexes` splits a whole text into lexemes, and
`lexerAnalyze_eq` says that `lexer_analyze` is exactly the lexemes of its
text, taken one after the other.
-/

namespace Assembler

/-- The characters from the current one on. -/
def Lexer.rest (lexer : Lexer) : List UInt8 :=
  lexer.sourceCode.data.drop lexer.index

/-- `current_char` is the character at the index.  Every initializer but the
one for an empty C string sets it up so, and advancing keeps it. -/
def Lexer.Synced (lexer : Lexer) : Prop :=
  lexer.currentChar = stringCharAt lexer.sourceCode lexer.index

/-- A step reads the character it stops at. -/
theorem Lexer.Synced.advance (lexer : Lexer) : (lexerAdvanceCharacter lexer).Synced := rfl

@[simp] theorem advance_sourceCode (n : Nat) (lexer : Lexer) :
    (lexerAdvanceCharacter^[n] lexer).sourceCode = lexer.sourceCode := by
  induction n generalizing lexer with
  | zero => rfl
  | succ n ih => rw [Function.iterate_succ_apply, ih]; rfl

@[simp] theorem advance_index (n : Nat) (lexer : Lexer) :
    (lexerAdvanceCharacter^[n] lexer).index = lexer.index + n := by
  induction n generalizing lexer with
  | zero => rfl
  | succ n ih =>
      rw [Function.iterate_succ_apply, ih]
      simp [lexerAdvanceCharacter]
      omega

@[simp] theorem advance_tokenList (n : Nat) (lexer : Lexer) :
    (lexerAdvanceCharacter^[n] lexer).tokenList = lexer.tokenList := by
  induction n generalizing lexer with
  | zero => rfl
  | succ n ih => rw [Function.iterate_succ_apply, ih]; rfl

@[simp] theorem advance_errorHandler (n : Nat) (lexer : Lexer) :
    (lexerAdvanceCharacter^[n] lexer).errorHandler = lexer.errorHandler := by
  induction n generalizing lexer with
  | zero => rfl
  | succ n ih => rw [Function.iterate_succ_apply, ih]; rfl

theorem advance_rest (n : Nat) (lexer : Lexer) :
    (lexerAdvanceCharacter^[n] lexer).rest = lexer.rest.drop n := by
  simp [Lexer.rest, Nat.add_comm]

/-- The lexer stays in step with its text. -/
theorem Lexer.Synced.advance_iterate {lexer : Lexer} (hs : lexer.Synced) (n : Nat) :
    (lexerAdvanceCharacter^[n] lexer).Synced := by
  cases n with
  | zero => exact hs
  | succ n => rw [Function.iterate_succ_apply']; rfl

/-- The current character is the first of the rest. -/
theorem Lexer.Synced.currentChar_eq {lexer : Lexer} (hs : lexer.Synced) :
    lexer.currentChar = lexer.rest.headD 0 := by
  rw [hs, stringCharAt, Lexer.rest]
  cases h : lexer.sourceCode.data.drop lexer.index with
  | nil => exact List.getD_eq_default _ _ (List.drop_eq_nil_iff.mp h)
  | cons c cs =>
      have hc : (lexer.sourceCode.data.drop lexer.index)[0]? = some c := by simp [h]
      rw [List.getElem?_drop, Nat.add_zero] at hc
      simp [List.getD, hc]

/-- No character ahead is NUL. -/
theorem rest_noNul (lexer : Lexer) : 0 ∉ lexer.rest := fun h =>
  lexer.sourceCode.noNul (List.mem_of_mem_drop h)

/-- The text ahead is empty exactly when the current character is NUL. -/
theorem Lexer.Synced.currentChar_eq_zero {lexer : Lexer} (hs : lexer.Synced) :
    lexer.currentChar = 0 ↔ lexer.rest = [] := by
  rw [hs.currentChar_eq]
  have hno := rest_noNul lexer
  cases h : lexer.rest with
  | nil => simp
  | cons c cs =>
      rw [h] at hno
      simp only [List.headD_cons, reduceCtorEq, iff_false]
      intro heq
      obtain rfl := heq
      exact hno List.mem_cons_self

/-- The character the lexer stands at is the first one ahead. -/
theorem Lexer.Synced.rest_eq_cons {lexer : Lexer} (hs : lexer.Synced)
    (hc : lexer.currentChar ≠ 0) :
    lexer.rest = lexer.currentChar :: (lexerAdvanceCharacter lexer).rest := by
  have hadv : (lexerAdvanceCharacter lexer).rest = lexer.rest.drop 1 := advance_rest 1 lexer
  rw [hadv]
  cases h : lexer.rest with
  | nil => exact absurd (hs.currentChar_eq_zero.mpr h) hc
  | cons c cs => simp [hs.currentChar_eq, h]

/-- A step leaves less text ahead. -/
theorem remaining_advance_lt {lexer : Lexer} (hs : lexer.Synced)
    (hc : lexer.currentChar ≠ 0) :
    (lexerAdvanceCharacter lexer).remaining < lexer.remaining := by
  rw [hs] at hc
  have hlt := stringCharAt_ne_zero_iff.mp hc
  simp only [Lexer.remaining, lexerAdvanceCharacter]
  omega

/-! ## Scanning -/

/-- The characters the copying loop takes off a text, after those in `text`. -/
def scanText (accepts : CString → UInt8 → Bool) (text : CString) : List UInt8 → List UInt8
  | [] => []
  | c :: cs =>
      if c != eofChar && accepts text c then
        c :: scanText accepts (stringAppendChar text c) cs
      else []

/-- The copying loop takes `scanText` off the text ahead, one character a
round. -/
theorem lexerScan_eq (accepts : CString → UInt8 → Bool) {lexer : Lexer} (hs : lexer.Synced) :
    (lexerScan accepts lexer).1.data = scanText accepts stringCreate lexer.rest ∧
    (lexerScan accepts lexer).2 =
      lexerAdvanceCharacter^[(scanText accepts stringCreate lexer.rest).length] lexer := by
  let rel : CString × Lexer → CString × Lexer → Prop := fun s r =>
    r.1.data = s.1.data ++ scanText accepts s.1 s.2.rest ∧
    r.2 = lexerAdvanceCharacter^[(scanText accepts s.1 s.2.rest).length] s.2
  have h : rel (stringCreate, lexer) (lexerScan accepts lexer) := by
    refine While.loop_induction (fun s => s.2.Synced)
      (fun s _ _ => Lexer.Synced.advance s.2) ?_ rel ?_ ?_ hs
    · intro s hg hsync
      exact remaining_advance_lt hsync (by simp at hg; exact hg.1.1)
    · intro s hg hsync
      have hstop : scanText accepts s.1 s.2.rest = [] := by
        by_cases hc : s.2.currentChar = 0
        · rw [hsync.currentChar_eq_zero.mp hc]; rfl
        · rw [hsync.rest_eq_cons hc]
          grind [scanText]
      simp [rel, hstop]
    · intro s r hg hsync hround
      have hc : s.2.currentChar ≠ 0 := by simp at hg; exact hg.1.1
      have hgo : scanText accepts s.1 s.2.rest = s.2.currentChar ::
          scanText accepts (stringAppendChar s.1 s.2.currentChar)
            (lexerAdvanceCharacter s.2).rest := by
        rw [hsync.rest_eq_cons hc]
        grind [scanText]
      refine ⟨?_, ?_⟩
      · rw [hgo, hround.1, stringAppendChar_data hc]
        simp
      · rw [hgo, hround.2, List.length_cons, Function.iterate_succ_apply]
  simpa [rel] using h

/-- A condition on the character alone, at least once the text copied so far
satisfies `ready`, takes the longest run of characters that meet it. -/
theorem scanText_eq_takeWhile {accepts : CString → UInt8 → Bool} {p : UInt8 → Bool}
    (ready : CString → Prop) (hready : ∀ text c, ready text → ready (stringAppendChar text c))
    (hp : ∀ text c, ready text → (c != eofChar && accepts text c) = p c)
    {text : CString} (htext : ready text) (cs : List UInt8) :
    scanText accepts text cs = cs.takeWhile p := by
  induction cs generalizing text with
  | nil => rfl
  | cons c cs ih =>
      rw [scanText, hp text c htext, List.takeWhile_cons]
      cases p c <;> simp [ih (hready text c htext)]

/-- Something has been copied. -/
def Started (text : CString) : Prop := 0 < text.data.length

/-- A text that is started stays so. -/
theorem Started.append {text : CString} (ht : Started text) (c : UInt8) :
    Started (stringAppendChar text c) := by
  unfold Started stringAppendChar at *
  split <;> simp_all

/-- One character is a start. -/
theorem started_single {c : UInt8} (hc : c ≠ 0) : Started (stringAppendChar stringCreate c) := by
  simp [Started, stringAppendChar_data hc]

/-- The characters in front of the next quote or end-of-file character. -/
def quotedBody (cs : List UInt8) : List UInt8 :=
  cs.takeWhile (fun d => d != '\"'.toUInt8 && d != eofChar)

/-- The characters of a string literal after its opening quote, and whether a
closing quote is among them. -/
def quotedText (cs : List UInt8) : List UInt8 × Bool :=
  if (cs.drop (quotedBody cs).length).head? = some '\"'.toUInt8 then
    (quotedBody cs ++ ['\"'.toUInt8], true)
  else (quotedBody cs, false)

/-- A plain character goes on with the string. -/
theorem quotedText_cons {d : UInt8} {ds : List UInt8}
    (hd : d ≠ '\"'.toUInt8) (he : d ≠ eofChar) :
    quotedText (d :: ds) = (d :: (quotedText ds).1, (quotedText ds).2) := by
  have hbody : quotedBody (d :: ds) = d :: quotedBody ds := by
    simp [quotedBody, hd, he]
  simp only [quotedText, hbody, List.length_cons, List.drop_succ_cons]
  split <;> rfl

theorem quotedText_eof (ds : List UInt8) : quotedText (eofChar :: ds) = ([], false) := by
  have hne : eofChar ≠ '\"'.toUInt8 := by decide
  simp [quotedText, quotedBody, hne]

theorem quotedText_quote (ds : List UInt8) :
    quotedText ('\"'.toUInt8 :: ds) = (['\"'.toUInt8], true) := by
  simp [quotedText, quotedBody]

/-- The string loop copies the quoted text, and notices the closing quote. -/
theorem scanText_string {text : CString} {cs : List UInt8} (ht : Started text)
    (hopen : closerStringFound text = false) (hno : 0 ∉ cs) :
    scanText stringAccepts text cs = (quotedText cs).1 ∧
    ∀ whole : CString, whole.data = text.data ++ (quotedText cs).1 →
      closerStringFound whole = (quotedText cs).2 := by
  induction cs generalizing text with
  | nil =>
      refine ⟨rfl, fun whole hw => ?_⟩
      have hsame : whole = text := CString.ext (by simpa [quotedText, quotedBody] using hw)
      rw [hsame, hopen]
      rfl
  | cons d ds ih =>
      have hd0 : d ≠ 0 := fun h => hno (h ▸ List.mem_cons_self)
      have hds : 0 ∉ ds := fun h => hno (List.mem_cons_of_mem _ h)
      by_cases he : d = eofChar
      · subst he
        rw [quotedText_eof]
        refine ⟨by simp [scanText], fun whole hw => ?_⟩
        have hsame : whole = text := CString.ext (by simpa using hw)
        rw [hsame, hopen]
      · have hgo : scanText stringAccepts text (d :: ds) =
            d :: scanText stringAccepts (stringAppendChar text d) ds := by
          simp [scanText, stringAccepts, hopen, he]
        by_cases hq : d = '\"'.toUInt8
        · subst hq
          have hclosed : ∀ whole : CString, whole.data = text.data ++ ['\"'.toUInt8] →
              closerStringFound whole = true := by
            intro whole hw
            have hlen : 0 < text.data.length := ht
            simp [closerStringFound, stringLength, hw, hlen]
          have hstop : scanText stringAccepts (stringAppendChar text '\"'.toUInt8) ds = [] := by
            have hc := hclosed (stringAppendChar text '\"'.toUInt8) (stringAppendChar_data hd0)
            cases ds <;> simp [scanText, stringAccepts, hc]
          rw [quotedText_quote]
          exact ⟨by rw [hgo, hstop], hclosed⟩
        · have hopen' : closerStringFound (stringAppendChar text d) = false := by
            simp [closerStringFound, stringAppendChar_data hd0, hq]
          obtain ⟨hscan, hfound⟩ := ih (ht.append d) hopen' hds
          rw [quotedText_cons hq he]
          refine ⟨by rw [hgo, hscan], fun whole hw => ?_⟩
          exact hfound whole (by simpa [stringAppendChar_data hd0] using hw)

/-! ## Lexemes -/

/-- The four errors of the lexer. -/
inductive LexemeError
  | unknownChar
  | loneSign
  | unclosedString
  | unknownNonOp
deriving DecidableEq

/-- The characters of one lexeme, the type of its token if it has one, and
its error. -/
structure Lexeme where
  text : List UInt8
  type : Option TokenType
  error : Option LexemeError
deriving DecidableEq

/-- A number, or the error of a sign without a digit. -/
def numberLexeme (text : List UInt8) : Lexeme :=
  if text = bytes "+" ∨ text = bytes "-" then ⟨text, some .error, some .loneSign⟩
  else ⟨text, some .number, none⟩

/-- A string, or the error of one that is not closed. -/
def stringLexeme (quoted : List UInt8 × Bool) : Lexeme :=
  if quoted.2 then ⟨'\"'.toUInt8 :: quoted.1, some .string, none⟩
  else ⟨'\"'.toUInt8 :: quoted.1, some .error, some .unclosedString⟩

/-- The type a table of keywords gives a list of characters. -/
def keywordOf (table : List (String × TokenType)) (text : List UInt8) : Option TokenType :=
  (table.find? (fun entry => text == bytes entry.1)).map Prod.snd

/-- A directive, or the error of a name that is none. -/
def nonOpLexeme (text : List UInt8) : Lexeme :=
  match keywordOf nonOpInstructions text with
  | some type => ⟨text, some type, none⟩
  | none => ⟨text, some .error, some .unknownNonOp⟩

/-- The characters that continue a word that begins with `c`. -/
def wordChar (c : UInt8) : UInt8 → Bool :=
  if c == '_'.toUInt8 then isValidMacroChar else isValidIdentifierChar

/-- A word: a mnemonic, a register or an identifier. -/
def wordLexeme (text : List UInt8) : Lexeme :=
  ⟨text, some ((keywordOf keywords text).getD .identifier), none⟩

/-- A lexeme has the text it is made from. -/
@[simp] theorem numberLexeme_text (text : List UInt8) : (numberLexeme text).text = text := by
  unfold numberLexeme
  split <;> rfl

@[simp] theorem stringLexeme_text (quoted : List UInt8 × Bool) :
    (stringLexeme quoted).text = '\"'.toUInt8 :: quoted.1 := by
  unfold stringLexeme
  split <;> rfl

@[simp] theorem nonOpLexeme_text (text : List UInt8) : (nonOpLexeme text).text = text := by
  unfold nonOpLexeme
  split <;> rfl

@[simp] theorem wordLexeme_text (text : List UInt8) : (wordLexeme text).text = text := rfl

/-- A character that none of the branches of `lexer_analyze` takes. -/
def isUnknownChar (c : UInt8) : Bool :=
  !(isWhitespace c || c == ';'.toUInt8 || c == '\n'.toUInt8 || c == eofChar ||
    charExistsInString c (bytes ",:#*") || isDigit c || charExistsInString c (bytes "+-") ||
    c == '\"'.toUInt8 || c == '.'.toUInt8 || isValidIdentifierStart c || c == '_'.toUInt8)

/-- The lexeme at the front of a text. -/
def nextLexeme (c : UInt8) (cs : List UInt8) : Lexeme :=
  if isWhitespace c then ⟨[c], none, none⟩
  else if c = ';'.toUInt8 then
    ⟨c :: cs.takeWhile (fun d => d != eofChar && d != '\n'.toUInt8), none, none⟩
  else if c = '\n'.toUInt8 then ⟨[c], some .eol, none⟩
  else if c = eofChar then ⟨[c], some .eoft, none⟩
  else if charExistsInString c (bytes ",:#*") then ⟨[c], some (separatorType c), none⟩
  else if isDigit c || charExistsInString c (bytes "+-") then
    numberLexeme (c :: cs.takeWhile isDigit)
  else if c = '\"'.toUInt8 then stringLexeme (quotedText cs)
  else if c = '.'.toUInt8 then nonOpLexeme (c :: cs.takeWhile isValidIdentifierStart)
  else if isValidIdentifierStart c || c = '_'.toUInt8 then
    wordLexeme (c :: cs.takeWhile (wordChar c))
  else ⟨[c], none, some .unknownChar⟩

/-- The token of a lexeme that starts where the lexer stands.  The string of an
end-of-file token is empty, and the column of a quoted one is the line number. -/
def Lexeme.tokenAt (x : Lexeme) (lexer : Lexer) (type : TokenType) : Token where
  type := type
  index := lexer.index
  indexInLine :=
    if x.text.head? = some '\"'.toUInt8 then lexer.lineNumber else lexer.column
  line := lexer.lineNumber
  string := if type = .eoft then stringCreate else stringCreateFromCstr x.text

/-- An error at the first character of a lexeme. -/
def Lexeme.charErrorAt (x : Lexeme) (lexer : Lexer) (message : String) : CharError where
  character := x.text.headD 0
  fileIndex := lexer.index
  lineIndex :=
    if x.text.head? = some '\"'.toUInt8 then lexer.lineNumber else lexer.column
  lineNumber := lexer.lineNumber
  message := message

/-- The error node of a lexeme, where the lexer stands. -/
def Lexeme.errorAt (x : Lexeme) (lexer : Lexer) : LexemeError → ErrorNode
  | .unknownChar =>
      .charError .lexer (x.charErrorAt lexer "unknown char (in the current context)")
  | .loneSign =>
      .charError .lexer (x.charErrorAt lexer
        "it seems that you have a ' - ' or ' + ' without any numerical chars after it")
  | .unclosedString =>
      .charError .lexer (x.charErrorAt lexer "There is no string after \"")
  | .unknownNonOp =>
      .tokenError .lexer
        { token := x.tokenAt lexer .error
          message := "Unknown non-operative instruction" }

/-- What the lexer is after it has taken a lexeme. -/
def Lexer.take (lexer : Lexer) (x : Lexeme) : Lexer :=
  { lexerAdvanceCharacter^[x.text.length] lexer with
    tokenList := lexer.tokenList ++ (x.type.map (x.tokenAt lexer)).toList
    errorHandler := { lexer.errorHandler with
      errorList := lexer.errorHandler.errorList ++ (x.error.map (x.errorAt lexer)).toList } }

/-! ## The tokenizers -/

/-- A text without NUL is copied whole. -/
theorem fromCstr_noNul {text : List UInt8} (h : 0 ∉ text) :
    (stringCreateFromCstr text).data = text :=
  cstrText_of_noNul h

/-- The token of a lexeme that does not begin with a quote is an ordinary one. -/
theorem tokenAt_eq (lexer : Lexer) {x : Lexeme} {type : TokenType} (ht : type ≠ .eoft)
    (hq : x.text.head? ≠ some '\"'.toUInt8) :
    x.tokenAt lexer type = tokenHere lexer type (stringCreateFromCstr x.text) := by
  simp [Lexeme.tokenAt, tokenHere, ht, hq]

/-- The token of a lexeme that begins with a quote has the line as its column. -/
theorem tokenAt_quoted (lexer : Lexer) {x : Lexeme} {type : TokenType} (ht : type ≠ .eoft)
    (hq : x.text.head? = some '\"'.toUInt8) :
    x.tokenAt lexer type =
      { tokenHere lexer type (stringCreateFromCstr x.text) with
        indexInLine := lexer.lineNumber } := by
  simp [Lexeme.tokenAt, tokenHere, ht, hq]

/-- Taking a lexeme without a token and without an error is advancing. -/
theorem take_skip (lexer : Lexer) (text : List UInt8) :
    lexer.take ⟨text, none, none⟩ = lexerAdvanceCharacter^[text.length] lexer := by
  have htok := advance_tokenList text.length lexer
  have herr := advance_errorHandler text.length lexer
  simp only [Lexer.take, Option.map_none, Option.toList_none, List.append_nil]
  rw [← htok, ← herr]

/-- Taking a lexeme without an error is advancing and adding its token. -/
theorem take_token (lexer : Lexer) (text : List UInt8) (type : TokenType) :
    lexer.take ⟨text, some type, none⟩ =
      addToken (lexerAdvanceCharacter^[text.length] lexer)
        (Lexeme.tokenAt ⟨text, some type, none⟩ lexer type) := by
  have herr := advance_errorHandler text.length lexer
  simp only [Lexer.take, addToken, Option.map_some, Option.toList_some, Option.map_none,
    Option.toList_none, List.append_nil, advance_tokenList]
  rw [← herr]

/-- An error node at the end of the list. -/
def addErrorNode (lexer : Lexer) (error : ErrorNode) : Lexer :=
  { lexer with errorHandler := { lexer.errorHandler with
      errorList := lexer.errorHandler.errorList ++ [error] } }

/-- Taking a lexeme with a token and an error adds both. -/
theorem take_error (lexer : Lexer) (text : List UInt8) (type : TokenType)
    (error : LexemeError) :
    lexer.take ⟨text, some type, some error⟩ =
      addToken (addErrorNode (lexerAdvanceCharacter^[text.length] lexer)
          (Lexeme.errorAt ⟨text, some type, some error⟩ lexer error))
        (Lexeme.tokenAt ⟨text, some type, some error⟩ lexer type) := by
  simp [Lexer.take, addToken, addErrorNode]

/-- The copying loop, as the text it takes and the lexer behind it. -/
theorem lexerScan_pair (accepts : CString → UInt8 → Bool) {lexer : Lexer} (hs : lexer.Synced)
    {text : List UInt8} (htext : scanText accepts stringCreate lexer.rest = text) :
    lexerScan accepts lexer =
      (stringCreateFromCstr text, lexerAdvanceCharacter^[text.length] lexer) := by
  obtain ⟨hdata, hlexer⟩ := lexerScan_eq accepts hs
  rw [htext] at hdata hlexer
  have hno : 0 ∉ text := hdata ▸ (lexerScan accepts lexer).1.noNul
  refine Prod.ext (CString.ext ?_) hlexer
  rw [hdata, fromCstr_noNul hno]

/-- A digit is neither the end of the file nor a quote. -/
theorem isDigit_ne {d : UInt8} (hd : isDigit d = true) :
    d ≠ eofChar ∧ d ≠ '\"'.toUInt8 := by
  constructor <;> rintro rfl <;> revert hd <;> decide

/-- A letter is no quote and no end of the file. -/
theorem isValidIdentifierStart_ne {d : UInt8} (hd : isValidIdentifierStart d = true) :
    d ≠ eofChar ∧ d ≠ '\"'.toUInt8 := by
  constructor <;> rintro rfl <;> revert hd <;> decide

theorem isValidMacroChar_ne {d : UInt8} (hd : isValidMacroChar d = true) :
    d ≠ eofChar ∧ d ≠ '\"'.toUInt8 := by
  constructor <;> rintro rfl <;> revert hd <;> decide

theorem isValidIdentifierChar_ne {d : UInt8} (hd : isValidIdentifierChar d = true) :
    d ≠ eofChar ∧ d ≠ '\"'.toUInt8 := by
  constructor <;> rintro rfl <;> revert hd <;> decide

theorem wordChar_ne {c d : UInt8} (hd : wordChar c d = true) :
    d ≠ eofChar ∧ d ≠ '\"'.toUInt8 := by
  unfold wordChar at hd
  split at hd
  · exact isValidMacroChar_ne hd
  · exact isValidIdentifierChar_ne hd

/-- A separator does not end the file. -/
theorem separatorType_ne (c : UInt8) : separatorType c ≠ .eoft := by
  unfold separatorType
  split_ifs <;> decide

/-- A keyword is looked up by its characters. -/
theorem lookupKeyword_fromCstr (table : List (String × TokenType)) {text : List UInt8}
    (hno : 0 ∉ text) :
    lookupKeyword table (stringCreateFromCstr text) = keywordOf table text := by
  simp [lookupKeyword, keywordOf, stringEqualsCstr, fromCstr_noNul hno]

/-- The type found in a table without end-of-file entries is not that type. -/
theorem keywordOf_ne {table : List (String × TokenType)} {text : List UInt8} {type : TokenType}
    (h : keywordOf table text = some type)
    (htable : ∀ entry ∈ table, entry.2 ≠ .eoft) : type ≠ .eoft := by
  obtain ⟨entry, hentry, rfl⟩ := Option.map_eq_some_iff.mp h
  exact htable entry (List.mem_of_find?_eq_some hentry)

/-- The first character of a copy. -/
theorem stringCharAt_fromCstr {text : List UInt8} (hno : 0 ∉ text) :
    stringCharAt (stringCreateFromCstr text) 0 = text.headD 0 := by
  rw [stringCharAt, fromCstr_noNul hno]
  cases text <;> rfl

/-- A line break is taken as a lexeme of one character. -/
theorem tokenizeNewline_eq (lexer : Lexer) :
    lexerTokenizeNewline lexer = lexer.take ⟨['\n'.toUInt8], some .eol, none⟩ := by
  rw [take_token, tokenAt_eq lexer (by decide) (by decide)]
  rfl

theorem tokenizeEof_eq (lexer : Lexer) :
    lexerTokenizeEof lexer = lexer.take ⟨[eofChar], some .eoft, none⟩ := by
  rw [take_token]
  rfl

/-- An unknown character is taken with its error and no token. -/
theorem skipUnknown_eq (lexer : Lexer) {c : UInt8} (hq : c ≠ '\"'.toUInt8) :
    lexerAdvanceCharacter
        (addCharError lexer
          { character := c
            fileIndex := lexer.index
            lineIndex := lexer.column
            lineNumber := lexer.lineNumber
            message := "unknown char (in the current context)" }) =
      lexer.take ⟨[c], none, some .unknownChar⟩ := by
  simp only [Lexer.take, Lexeme.errorAt, Lexeme.charErrorAt, addCharError,
    lexerAdvanceCharacter, errorHandlerAddCharError, List.length_singleton,
    Function.iterate_one, List.head?_cons, Option.some.injEq, hq, if_false, Option.map_none,
    Option.map_some, Option.toList_some, Option.toList_none, List.append_nil, List.headD_cons]
  rfl

section Tokenizers

variable {lexer : Lexer} {c : UInt8} {cs : List UInt8}
  (hs : lexer.Synced) (hrest : lexer.rest = c :: cs)

include hrest in
/-- The character the lexer stands at is not NUL. -/
theorem head_ne_zero : c ≠ 0 := fun h =>
  rest_noNul lexer (by rw [hrest, h]; exact List.mem_cons_self)

include hrest in
theorem tail_noNul : 0 ∉ cs := fun h =>
  rest_noNul lexer (by rw [hrest]; exact List.mem_cons_of_mem _ h)

include hrest in
theorem run_noNul (p : UInt8 → Bool) : 0 ∉ c :: cs.takeWhile p := by
  rw [List.mem_cons, not_or]
  exact ⟨(head_ne_zero hrest).symm, fun h =>
    tail_noNul hrest (List.takeWhile_subset p h)⟩

include hs hrest

/-- The lexer stands at the first character ahead. -/
theorem currentChar_eq_head : lexer.currentChar = c := by
  rw [hs.currentChar_eq, hrest]
  rfl

/-- A copying loop that takes the first character, and the later ones by a
condition `p` on each, takes a run of such characters. -/
theorem lexerScan_run (accepts : CString → UInt8 → Bool) (p : UInt8 → Bool)
    (hfirst : (c != eofChar && accepts stringCreate c) = true)
    (hp : ∀ text d, Started text → (d != eofChar && accepts text d) = p d) :
    lexerScan accepts lexer =
      (stringCreateFromCstr (c :: cs.takeWhile p),
        lexerAdvanceCharacter^[(c :: cs.takeWhile p).length] lexer) := by
  apply lexerScan_pair accepts hs
  rw [hrest, scanText, hfirst, if_pos rfl,
    scanText_eq_takeWhile Started (fun _ _ h => h.append _) hp
      (started_single (head_ne_zero hrest))]

/-- A comment is taken up to the line break and gives no token. -/
theorem tokenizeComment_eq (hc : c = ';'.toUInt8) :
    lexerTokenizeComment lexer = lexer.take
      ⟨c :: cs.takeWhile (fun d => d != eofChar && d != '\n'.toUInt8), none, none⟩ := by
  have hrun := lexerScan_run hs hrest commentAccepts
    (fun d => d != eofChar && d != '\n'.toUInt8) (by subst hc; decide)
    (fun _ _ _ => rfl)
  rw [lexerTokenizeComment, hrun, take_skip]

/-- A number is its first character and the digits behind it. -/
theorem tokenizeNumber_eq (hc : isDigit c = true ∨ charExistsInString c (bytes "+-") = true) :
    lexerTokenizeNumber lexer = lexer.take (numberLexeme (c :: cs.takeWhile isDigit)) := by
  have hsign : c = '+'.toUInt8 ∨ c = '-'.toUInt8 ∨ isDigit c = true := by
    have h0 := head_ne_zero hrest
    rcases hc with hc | hc
    · exact Or.inr (Or.inr hc)
    · simpa [charExistsInString, bytes, h0, or_assoc] using Or.inl hc
  have hne : c ≠ eofChar ∧ c ≠ '\"'.toUInt8 := by
    rcases hsign with rfl | rfl | hd
    · decide
    · decide
    · exact isDigit_ne hd
  have hfirst : (c != eofChar && numberAccepts stringCreate c) = true := by
    rcases hsign with rfl | rfl | hd
    · decide
    · decide
    · simp [numberAccepts, hd, hne.1]
  have hlater : ∀ text d, Started text → (d != eofChar && numberAccepts text d) = isDigit d := by
    intro text d ht
    have hlen : text.data.length ≠ 0 := Nat.pos_iff_ne_zero.mp ht
    by_cases hd : isDigit d = true
    · simp [numberAccepts, hd, (isDigit_ne hd).1]
    · simp [numberAccepts, hd, stringLength, List.length_eq_zero_iff.not.mp hlen]
  have hq : (c :: cs.takeWhile isDigit).head? ≠ some '\"'.toUInt8 := by simpa using hne.2
  have hno := run_noNul hrest isDigit
  rw [lexerTokenizeNumber, lexerScan_run hs hrest numberAccepts isDigit hfirst hlater]
  generalize c :: cs.takeWhile isDigit = text at hq hno
  have hlone : isLoneSign (stringCreateFromCstr text) = true ↔
      text = bytes "+" ∨ text = bytes "-" := by
    simp [isLoneSign, stringEqualsCstr, fromCstr_noNul hno]
  by_cases hl : isLoneSign (stringCreateFromCstr text) = true
  · rw [numberLexeme, if_pos (hlone.mp hl), take_error, tokenAt_eq lexer (by decide) hq]
    simp [hl, Lexeme.errorAt, Lexeme.charErrorAt, hq, addCharError, addErrorNode,
      errorHandlerAddCharError, stringCharAt_fromCstr hno]
  · rw [numberLexeme, if_neg (hlone.not.mp hl), take_token, tokenAt_eq lexer (by decide) hq]
    simp [hl]

/-- A string reaches to the next quote. -/
theorem tokenizeString_eq (hc : c = '\"'.toUInt8) :
    lexerTokenizeString lexer = lexer.take (stringLexeme (quotedText cs)) := by
  subst hc
  have hstart : Started (stringAppendChar stringCreate '\"'.toUInt8) :=
    started_single (by decide)
  obtain ⟨hscan, hfound⟩ := scanText_string hstart (by decide) (tail_noNul hrest)
  have htext : scanText stringAccepts stringCreate lexer.rest =
      '\"'.toUInt8 :: (quotedText cs).1 := by
    have hfirst : (('\"'.toUInt8 : UInt8) != eofChar &&
        stringAccepts stringCreate '\"'.toUInt8) = true := by decide
    rw [hrest, scanText, hfirst, if_pos rfl, hscan]
  have hno : 0 ∉ '\"'.toUInt8 :: (quotedText cs).1 := by
    obtain ⟨hdata, _⟩ := lexerScan_eq stringAccepts hs
    rw [htext] at hdata
    exact hdata ▸ (lexerScan stringAccepts lexer).1.noNul
  have hclosed := hfound (stringCreateFromCstr ('\"'.toUInt8 :: (quotedText cs).1))
    (by rw [fromCstr_noNul hno, stringAppendChar_data (by decide)]; rfl)
  have hq : ('\"'.toUInt8 :: (quotedText cs).1).head? = some '\"'.toUInt8 := rfl
  rw [lexerTokenizeString, lexerScan_pair stringAccepts hs htext, stringLexeme]
  simp only [hclosed]
  cases hfin : (quotedText cs).2 with
  | true =>
      simp only [if_true]
      rw [take_token, tokenAt_quoted lexer (by decide) hq]
  | false =>
      simp only [Bool.false_eq_true, if_false]
      rw [take_error, tokenAt_quoted lexer (by decide) hq]
      simp [Lexeme.errorAt, Lexeme.charErrorAt, addCharError, addErrorNode,
        errorHandlerAddCharError]

/-- A directive is its point and the letters behind it. -/
theorem tokenizeNonOpInstruction_eq (hc : c = '.'.toUInt8) :
    lexerTokenizeNonOpInstruction lexer =
      lexer.take (nonOpLexeme (c :: cs.takeWhile isValidIdentifierStart)) := by
  have hlater : ∀ text d, Started text →
      (d != eofChar && nonOpInstructionAccepts text d) = isValidIdentifierStart d := by
    intro text d ht
    have hlen : text.data.length ≠ 0 := Nat.pos_iff_ne_zero.mp ht
    by_cases hd : isValidIdentifierStart d = true
    · simp [nonOpInstructionAccepts, hd, (isValidIdentifierStart_ne hd).1]
    · simp [nonOpInstructionAccepts, hd, stringLength, List.length_eq_zero_iff.not.mp hlen]
  have hq : (c :: cs.takeWhile isValidIdentifierStart).head? ≠ some '\"'.toUInt8 := by
    subst hc
    simp only [List.head?_cons, ne_eq, Option.some.injEq]
    decide
  have hno := run_noNul hrest isValidIdentifierStart
  rw [lexerTokenizeNonOpInstruction,
    lexerScan_run hs hrest nonOpInstructionAccepts isValidIdentifierStart
      (by subst hc; decide) hlater]
  generalize c :: cs.takeWhile isValidIdentifierStart = text at hq hno
  simp only [lookupKeyword_fromCstr nonOpInstructions hno]
  cases hkey : keywordOf nonOpInstructions text with
  | some type =>
      have hne : type ≠ .eoft := keywordOf_ne hkey (by decide)
      simp only [nonOpLexeme, hkey]
      rw [take_token, tokenAt_eq lexer hne hq]
  | none =>
      simp only [nonOpLexeme, hkey]
      rw [take_error, tokenAt_eq lexer (by decide) hq]
      have htok := @tokenAt_eq lexer ⟨text, some .error, some .unknownNonOp⟩ .error
        (by decide) hq
      simp [Lexeme.errorAt, addErrorNode, errorHandlerAddTokenError, htok]

/-- A word is its first character and those that may follow it. -/
theorem tokenizeIdentifier_eq
    (hc : isValidIdentifierStart c = true ∨ c = '_'.toUInt8) :
    lexerTokenizeIdentifier lexer = lexer.take (wordLexeme (c :: cs.takeWhile (wordChar c))) := by
  have haccepts : ∀ text d, identifierAccepts (c == '_'.toUInt8) text d = wordChar c d := by
    intro text d
    cases hm : (c == '_'.toUInt8) <;> simp [identifierAccepts, wordChar, hm]
  have hwc : wordChar c c = true := by
    rcases hc with hc | rfl
    · by_cases hm : (c == '_'.toUInt8) = true
      · simp [wordChar, hm, isValidMacroChar, hc]
      · simp [wordChar, hm, isValidIdentifierChar, hc]
    · decide
  have hlater : ∀ text d, Started text →
      (d != eofChar && identifierAccepts (c == '_'.toUInt8) text d) = wordChar c d := by
    intro text d _
    by_cases hd : wordChar c d = true
    · simp [haccepts, hd, (wordChar_ne hd).1]
    · simp [haccepts, hd]
  have hq : (c :: cs.takeWhile (wordChar c)).head? ≠ some '\"'.toUInt8 := by
    simpa using (wordChar_ne hwc).2
  have hno := run_noNul hrest (wordChar c)
  have hrun := lexerScan_run hs hrest (identifierAccepts (c == '_'.toUInt8)) (wordChar c)
    (by simp [haccepts, hwc, (wordChar_ne hwc).1]) hlater
  rw [lexerTokenizeIdentifier, currentChar_eq_head hs hrest, hrun]
  generalize c :: cs.takeWhile (wordChar c) = text at hq hno
  have hne : (keywordOf keywords text).getD .identifier ≠ .eoft := by
    cases hkey : keywordOf keywords text with
    | none => decide
    | some type => exact keywordOf_ne hkey (by decide)
  simp only [lookupKeyword_fromCstr keywords hno]
  rw [wordLexeme, take_token, tokenAt_eq lexer hne hq]

/-- A separator is one character. -/
theorem tokenizeSeparator_eq (hq : c ≠ '\"'.toUInt8) :
    lexerTokenizeSeparator lexer = lexer.take ⟨[c], some (separatorType c), none⟩ := by
  have hno : 0 ∉ [c] := by simpa using (head_ne_zero hrest).symm
  have hstring : stringAppendChar stringCreate c = stringCreateFromCstr [c] := by
    apply CString.ext
    rw [stringAppendChar_data (head_ne_zero hrest), fromCstr_noNul hno]
    rfl
  rw [take_token, tokenAt_eq lexer (separatorType_ne c) (by simpa using hq),
    lexerTokenizeSeparator, currentChar_eq_head hs hrest, hstring]
  rfl

/-- **One round of the lexer is one lexeme.** -/
theorem lexerAnalyzeRound_eq : lexerAnalyzeRound lexer = lexer.take (nextLexeme c cs) := by
  simp only [lexerAnalyzeRound, nextLexeme, currentChar_eq_head hs hrest]
  by_cases hblank : isWhitespace c = true
  · simp only [if_pos hblank]
    exact (take_skip lexer [c]).symm
  simp only [if_neg hblank]
  by_cases hcomment : c = ';'.toUInt8
  · simp only [if_pos hcomment]
    exact tokenizeComment_eq hs hrest hcomment
  simp only [if_neg hcomment]
  by_cases hnewline : c = '\n'.toUInt8
  · simp only [if_pos hnewline]
    rw [hnewline]
    exact tokenizeNewline_eq lexer
  simp only [if_neg hnewline]
  by_cases heof : c = eofChar
  · simp only [if_pos heof]
    rw [heof]
    exact tokenizeEof_eq lexer
  simp only [if_neg heof]
  by_cases hsep : charExistsInString c (bytes ",:#*") = true
  · simp only [if_pos hsep]
    apply tokenizeSeparator_eq hs hrest
    intro heq
    obtain rfl := heq
    revert hsep
    decide
  simp only [if_neg hsep]
  by_cases hnum : (isDigit c || charExistsInString c (bytes "+-")) = true
  · simp only [if_pos hnum]
    exact tokenizeNumber_eq hs hrest (by simpa using hnum)
  simp only [if_neg hnum]
  by_cases hquote : c = '\"'.toUInt8
  · simp only [if_pos hquote]
    exact tokenizeString_eq hs hrest hquote
  simp only [if_neg hquote]
  by_cases hdot : c = '.'.toUInt8
  · simp only [if_pos hdot]
    exact tokenizeNonOpInstruction_eq hs hrest hdot
  simp only [if_neg hdot]
  by_cases hident : (isValidIdentifierStart c || decide (c = '_'.toUInt8)) = true
  · simp only [if_pos hident]
    exact tokenizeIdentifier_eq hs hrest (by simpa using hident)
  · simp only [if_neg hident]
    exact skipUnknown_eq lexer hquote

end Tokenizers

/-! ## The whole text -/

/-- A string is the front of the text it begins. -/
theorem quotedText_front (cs : List UInt8) : (quotedText cs).1 <+: cs := by
  have hpre : quotedBody cs <+: cs := List.takeWhile_prefix _
  unfold quotedText
  split
  · rename_i hq
    obtain ⟨ds, hds⟩ := List.head?_eq_some_iff.mp hq
    refine ⟨ds, ?_⟩
    rw [List.append_assoc, List.singleton_append, ← hds]
    exact List.prefix_iff_eq_append.mp hpre
  · exact hpre

/-- What comes next at the front of a text, as a function of what stands behind
its first character: one case for each branch. -/
theorem nextLexeme_branches {P : (List UInt8 → Lexeme) → Prop} (c : UInt8)
    (hblank : isWhitespace c = true → P fun _ => ⟨[c], none, none⟩)
    (hcomment : c = ';'.toUInt8 → P fun cs =>
      ⟨c :: cs.takeWhile (fun d => d != eofChar && d != '\n'.toUInt8), none, none⟩)
    (hnewline : c = '\n'.toUInt8 → P fun _ => ⟨[c], some .eol, none⟩)
    (heof : c = eofChar → P fun _ => ⟨[c], some .eoft, none⟩)
    (hsep : charExistsInString c (bytes ",:#*") = true →
      P fun _ => ⟨[c], some (separatorType c), none⟩)
    (hnumber : isDigit c = true ∨ charExistsInString c (bytes "+-") = true →
      P fun cs => numberLexeme (c :: cs.takeWhile isDigit))
    (hstring : c = '\"'.toUInt8 → P fun cs => stringLexeme (quotedText cs))
    (hnonOp : c = '.'.toUInt8 → P fun cs =>
      nonOpLexeme (c :: cs.takeWhile isValidIdentifierStart))
    (hword : isValidIdentifierStart c = true ∨ c = '_'.toUInt8 →
      P fun cs => wordLexeme (c :: cs.takeWhile (wordChar c)))
    (hunknown : isUnknownChar c = true → P fun _ => ⟨[c], none, some .unknownChar⟩) :
    P (nextLexeme c) := by
  show P fun cs => nextLexeme c cs
  simp only [nextLexeme]
  by_cases h1 : isWhitespace c = true
  · simp only [if_pos h1]
    exact hblank h1
  simp only [if_neg h1]
  by_cases h2 : c = ';'.toUInt8
  · simp only [if_pos h2]
    exact hcomment h2
  simp only [if_neg h2]
  by_cases h3 : c = '\n'.toUInt8
  · simp only [if_pos h3]
    exact hnewline h3
  simp only [if_neg h3]
  by_cases h4 : c = eofChar
  · simp only [if_pos h4]
    exact heof h4
  simp only [if_neg h4]
  by_cases h5 : charExistsInString c (bytes ",:#*") = true
  · simp only [if_pos h5]
    exact hsep h5
  simp only [if_neg h5]
  by_cases h6 : (isDigit c || charExistsInString c (bytes "+-")) = true
  · simp only [if_pos h6]
    exact hnumber (by simpa using h6)
  simp only [if_neg h6]
  by_cases h7 : c = '\"'.toUInt8
  · simp only [if_pos h7]
    exact hstring h7
  simp only [if_neg h7]
  by_cases h8 : c = '.'.toUInt8
  · simp only [if_pos h8]
    exact hnonOp h8
  simp only [if_neg h8]
  by_cases h9 : (isValidIdentifierStart c || decide (c = '_'.toUInt8)) = true
  · simp only [if_pos h9]
    exact hword (by simpa using h9)
  simp only [if_neg h9]
  apply hunknown
  simp only [Bool.or_eq_true, decide_eq_true_eq, not_or, Bool.not_eq_true] at h6 h9
  simp [isUnknownChar, h1, h2, h3, h4, h5, h6, h7, h8, h9]

/-- The lexeme at the front of a text, by its first character. -/
theorem nextLexeme_cases {P : Lexeme → Prop} (c : UInt8) (cs : List UInt8)
    (hblank : isWhitespace c = true → P ⟨[c], none, none⟩)
    (hcomment : c = ';'.toUInt8 →
      P ⟨c :: cs.takeWhile (fun d => d != eofChar && d != '\n'.toUInt8), none, none⟩)
    (hnewline : c = '\n'.toUInt8 → P ⟨[c], some .eol, none⟩)
    (heof : c = eofChar → P ⟨[c], some .eoft, none⟩)
    (hsep : charExistsInString c (bytes ",:#*") = true → P ⟨[c], some (separatorType c), none⟩)
    (hnumber : isDigit c = true ∨ charExistsInString c (bytes "+-") = true →
      P (numberLexeme (c :: cs.takeWhile isDigit)))
    (hstring : c = '\"'.toUInt8 → P (stringLexeme (quotedText cs)))
    (hnonOp : c = '.'.toUInt8 → P (nonOpLexeme (c :: cs.takeWhile isValidIdentifierStart)))
    (hword : isValidIdentifierStart c = true ∨ c = '_'.toUInt8 →
      P (wordLexeme (c :: cs.takeWhile (wordChar c))))
    (hunknown : c ≠ eofChar → P ⟨[c], none, some .unknownChar⟩) :
    P (nextLexeme c cs) := by
  refine nextLexeme_branches (P := fun f => P (f cs)) c hblank hcomment hnewline heof hsep
    hnumber hstring hnonOp hword ?_
  intro h
  apply hunknown
  intro heq
  obtain rfl := heq
  revert h
  decide

/-- A lexeme takes the first character and some of those after it. -/
theorem nextLexeme_text (c : UInt8) (cs : List UInt8) :
    ∃ t, (nextLexeme c cs).text = c :: t ∧ t <+: cs := by
  refine nextLexeme_cases (P := fun x => ∃ t, x.text = c :: t ∧ t <+: cs) c cs
    ?_ ?_ ?_ ?_ ?_ ?_ ?_ ?_ ?_ ?_
  · exact fun _ => ⟨[], rfl, List.nil_prefix⟩
  · exact fun _ => ⟨_, rfl, List.takeWhile_prefix _⟩
  · exact fun _ => ⟨[], rfl, List.nil_prefix⟩
  · exact fun _ => ⟨[], rfl, List.nil_prefix⟩
  · exact fun _ => ⟨[], rfl, List.nil_prefix⟩
  · exact fun _ => ⟨_, numberLexeme_text _, List.takeWhile_prefix isDigit⟩
  · exact fun hq => ⟨(quotedText cs).1, by simp [hq], quotedText_front cs⟩
  · exact fun _ => ⟨_, nonOpLexeme_text _, List.takeWhile_prefix isValidIdentifierStart⟩
  · exact fun _ => ⟨_, rfl, List.takeWhile_prefix _⟩
  · exact fun _ => ⟨[], rfl, List.nil_prefix⟩

/-- A text split into lexemes, each the next one of what is left. -/
inductive Lexes : List UInt8 → List Lexeme → Prop
  | nil : Lexes [] []
  | cons {c : UInt8} {cs rest : List UInt8} {x : Lexeme} {xs : List Lexeme}
      (hx : nextLexeme c cs = x) (hsplit : c :: cs = x.text ++ rest)
      (tail : Lexes rest xs) : Lexes (c :: cs) (x :: xs)

/-- A text has one split only. -/
theorem Lexes.unique {text : List UInt8} {xs ys : List Lexeme}
    (hx : Lexes text xs) (hy : Lexes text ys) : xs = ys := by
  induction hx generalizing ys with
  | nil => cases hy; rfl
  | cons hx hsplit _ ih =>
      cases hy with
      | cons hy hsplit' tail =>
          subst hx
          subst hy
          rw [hsplit] at hsplit'
          rw [ih (List.append_cancel_left hsplit' ▸ tail)]

/-- The lexer after a list of lexemes. -/
def Lexer.takeAll (lexer : Lexer) (xs : List Lexeme) : Lexer :=
  xs.foldl Lexer.take lexer

@[simp] theorem take_sourceCode (lexer : Lexer) (x : Lexeme) :
    (lexer.take x).sourceCode = lexer.sourceCode := advance_sourceCode _ _

@[simp] theorem take_index (lexer : Lexer) (x : Lexeme) :
    (lexer.take x).index = lexer.index + x.text.length := advance_index _ _

theorem take_rest (lexer : Lexer) (x : Lexeme) :
    (lexer.take x).rest = lexer.rest.drop x.text.length := advance_rest _ lexer

/-- The lexer stays in step with its text. -/
theorem Lexer.Synced.take {lexer : Lexer} (hs : lexer.Synced) (x : Lexeme) :
    (lexer.take x).Synced := hs.advance_iterate x.text.length

/-- **The lexer computes the lexemes of its text.** -/
theorem lexerAnalyze_eq {lexer : Lexer} (hs : lexer.Synced) :
    ∃ xs, Lexes lexer.rest xs ∧ lexerAnalyze lexer = lexer.takeAll xs := by
  let rel : Lexer → Lexer → Prop := fun l r => ∃ xs, Lexes l.rest xs ∧ r = l.takeAll xs
  have hround : ∀ l : Lexer, (l.currentChar != 0) = true → l.Synced →
      ∃ c cs, l.rest = c :: cs ∧ lexerAnalyzeRound l = l.take (nextLexeme c cs) := by
    intro l hl hsync
    have hrest := hsync.rest_eq_cons (by simpa using hl)
    exact ⟨_, _, hrest, lexerAnalyzeRound_eq hsync hrest⟩
  refine While.loop_induction Lexer.Synced ?_ ?_ rel ?_ ?_ hs
  · intro l hl hsync
    obtain ⟨c, cs, _, heq⟩ := hround l hl hsync
    rw [heq]
    exact hsync.take _
  · intro l hl hsync
    obtain ⟨c, cs, hrest, heq⟩ := hround l hl hsync
    obtain ⟨t, htext, _⟩ := nextLexeme_text c cs
    have hlen : l.sourceCode.data.length - l.index = cs.length + 1 := by
      have h := congrArg List.length hrest
      simpa [Lexer.rest] using h
    simp only [heq, Lexer.remaining, take_sourceCode, take_index, htext, List.length_cons]
    omega
  · intro l hl hsync
    refine ⟨[], ?_, rfl⟩
    rw [hsync.currentChar_eq_zero.mp (by simpa using hl)]
    exact Lexes.nil
  · intro l r hl hsync hrel
    obtain ⟨c, cs, hrest, heq⟩ := hround l hl hsync
    obtain ⟨xs, hlex, rfl⟩ := hrel
    rw [heq] at hlex ⊢
    obtain ⟨t, htext, rest, rfl⟩ := nextLexeme_text c cs
    refine ⟨nextLexeme c (t ++ rest) :: xs, ?_, rfl⟩
    rw [hrest]
    apply Lexes.cons rfl (by rw [htext]; rfl)
    rw [take_rest, htext, hrest] at hlex
    simpa using hlex

end Assembler
