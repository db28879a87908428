import CLab.Token
import CLab.While

/-!
# The lexer

`lexer.c`.  The lexer walks its source text with `lexer_advance_character`;
each tokenizer copies the characters of one token and appends the token to the
list.  The copying loops differ only in which character they still take, so
they are one loop, `lexerScan`, with that condition as a parameter.
-/

namespace Assembler

/-- A lexer: its text, where it stands in it, and the tokens and errors so far. -/
structure Lexer where
  sourceCode : CString
  index : Nat
  column : Nat
  currentChar : UInt8
  lineNumber : Nat
  filePath : String
  errorHandler : ErrorHandler
  tokenList : List Token

/-- The error handler keeps the text without the end-of-file character, and
`current_char` is read before that character is appended. -/
def lexerInitializeFromCstr (sourceString : List UInt8) : Lexer where
  sourceCode := stringAppendChar (stringCreateFromCstr sourceString) eofChar
  index := 0
  column := 0
  currentChar := stringCharAt (stringCreateFromCstr sourceString) 0
  lineNumber := 1
  filePath := "from_string.as"
  errorHandler := errorHandlerInitialize (stringCreateFromCstr sourceString) "from_string.as"
  tokenList := []

/-- The text of a file as it is read: its characters without the NULs, then
the end-of-file character. -/
def fileText (contents : List UInt8) : CString :=
  stringAppendChar (contents.foldl stringAppendChar stringCreate) eofChar

/-- A file that could be opened, with the given contents.  The error handler
is set up while the source text is still empty. -/
def lexerInitializeFromFile (filePath : String) (contents : List UInt8) : Lexer where
  sourceCode := fileText contents
  index := 0
  column := 0
  currentChar := stringCharAt (fileText contents) 0
  lineNumber := 1
  filePath := filePath ++ ".as"
  errorHandler := errorHandlerInitialize stringCreate (filePath ++ ".as")
  tokenList := []

/-- A text that is in a string already; no end-of-file character is appended. -/
def lexerInitializeFromString (filePath : String) (sourceCode : CString) : Lexer where
  sourceCode := stringAppend stringCreate sourceCode
  index := 0
  column := 0
  currentChar := stringCharAt (stringAppend stringCreate sourceCode) 0
  lineNumber := 1
  filePath := filePath
  errorHandler := errorHandlerInitialize (stringAppend stringCreate sourceCode) filePath
  tokenList := []

/-- `lexer_advance_character`: the line is counted when its break is left. -/
def lexerAdvanceCharacter (lexer : Lexer) : Lexer :=
  { lexer with
    lineNumber :=
      if lexer.currentChar = '\n'.toUInt8 then lexer.lineNumber + 1 else lexer.lineNumber
    column := if lexer.currentChar = '\n'.toUInt8 then 0 else lexer.column + 1
    index := lexer.index + 1
    currentChar := stringCharAt lexer.sourceCode (lexer.index + 1) }

/-- A token at the end of the list. -/
def addToken (lexer : Lexer) (token : Token) : Lexer :=
  { lexer with tokenList := lexer.tokenList ++ [token] }

/-- An error of the lexer at a character. -/
def addCharError (lexer : Lexer) (error : CharError) : Lexer :=
  { lexer with
    errorHandler := errorHandlerAddCharError lexer.errorHandler .lexer error }

/-- How much of the text lies ahead. -/
def Lexer.remaining (lexer : Lexer) : Nat :=
  lexer.sourceCode.data.length - lexer.index

/-- The copying loop of the tokenizers: up to the end of the text, up to an
end-of-file character, or up to the first character that `accepts` refuses
after the text copied so far. -/
def lexerScan (accepts : CString → UInt8 → Bool) (lexer : Lexer) : CString × Lexer :=
  While.loop
    (fun s => s.2.currentChar != 0 && s.2.currentChar != eofChar &&
      accepts s.1 s.2.currentChar)
    (fun s => (stringAppendChar s.1 s.2.currentChar, lexerAdvanceCharacter s.2))
    (fun s => s.2.remaining) (stringCreate, lexer)

/-- A token that starts where the lexer stands. -/
def tokenHere (lexer : Lexer) (type : TokenType) (string : CString) : Token where
  type := type
  index := lexer.index
  indexInLine := lexer.column
  line := lexer.lineNumber
  string := string

/-- A comment reaches to the line break. -/
def commentAccepts (_ : CString) (ch : UInt8) : Bool :=
  ch != '\n'.toUInt8

/-- Comments are dropped. -/
def lexerTokenizeComment (lexer : Lexer) : Lexer :=
  (lexerScan commentAccepts lexer).2

/-- `lexer_tokenize_newline`. -/
def lexerTokenizeNewline (lexer : Lexer) : Lexer :=
  addToken (lexerAdvanceCharacter lexer)
    (tokenHere lexer .eol (stringCreateFromCstr (bytes "\n")))

/-- The kinds of the four separators. -/
def separatorType (ch : UInt8) : TokenType :=
  if ch = ','.toUInt8 then .comma
  else if ch = ':'.toUInt8 then .colon
  else if ch = '#'.toUInt8 then .hashtag
  else if ch = '*'.toUInt8 then .star
  else .error

/-- `lexer_tokenize_separator`. -/
def lexerTokenizeSeparator (lexer : Lexer) : Lexer :=
  addToken (lexerAdvanceCharacter lexer)
    (tokenHere lexer (separatorType lexer.currentChar)
      (stringAppendChar stringCreate lexer.currentChar))

/-- A sign is accepted as the first character only. -/
def numberAccepts (text : CString) (ch : UInt8) : Bool :=
  isDigit ch ||
    (stringLength text == 0 && (ch == '+'.toUInt8 || ch == '-'.toUInt8))

/-- A sign with no digit after it. -/
def isLoneSign (text : CString) : Bool :=
  stringEqualsCstr text (bytes "+") || stringEqualsCstr text (bytes "-")

/-- `lexer_tokenize_number`: a sign without a digit is an error token. -/
def lexerTokenizeNumber (lexer : Lexer) : Lexer :=
  let (text, lexer') := lexerScan numberAccepts lexer
  if isLoneSign text then
    addToken
      (addCharError lexer'
        { character := stringCharAt text 0
          fileIndex := lexer.index
          lineIndex := lexer.column
          lineNumber := lexer.lineNumber
          message :=
            "it seems that you have a ' - ' or ' + ' without any numerical chars after it" })
      (tokenHere lexer .error text)
  else addToken lexer' (tokenHere lexer .number text)

/-- `closer_string_found`: a quote was copied after the first character. -/
def closerStringFound (text : CString) : Bool :=
  1 < stringLength text && text.data.getLast? == some '\"'.toUInt8

/-- A string goes on until its quote is copied. -/
def stringAccepts (text : CString) (_ : UInt8) : Bool :=
  !closerStringFound text

/-- The column of a string token is the line number: the source initializes
`index_in_line` from `line_number`. -/
def lexerTokenizeString (lexer : Lexer) : Lexer :=
  let (text, lexer') := lexerScan stringAccepts lexer
  if closerStringFound text then
    addToken lexer' { tokenHere lexer .string text with indexInLine := lexer.lineNumber }
  else
    addToken
      (addCharError lexer'
        { character := '\"'.toUInt8
          fileIndex := lexer.index
          lineIndex := lexer.lineNumber
          lineNumber := lexer.lineNumber
          message := "There is no string after \"" })
      { tokenHere lexer .error text with indexInLine := lexer.lineNumber }

/-- The type a table of keywords gives a text. -/
def lookupKeyword (table : List (String × TokenType)) (text : CString) : Option TokenType :=
  (table.find? (fun entry => stringEqualsCstr text (bytes entry.1))).map Prod.snd

/-- The four directives, in the order they are tested. -/
def nonOpInstructions : List (String × TokenType) :=
  [(".data", .dataIns), (".string", .stringIns), (".entry", .entryIns),
    (".extern", .externIns)]

/-- Behind the point there are letters. -/
def nonOpInstructionAccepts (text : CString) (ch : UInt8) : Bool :=
  stringLength text == 0 || isValidIdentifierStart ch

/-- `lexer_tokenize_non_op_instruction`: a name that is none is an error token. -/
def lexerTokenizeNonOpInstruction (lexer : Lexer) : Lexer :=
  let (text, lexer') := lexerScan nonOpInstructionAccepts lexer
  match lookupKeyword nonOpInstructions text with
  | some type => addToken lexer' (tokenHere lexer type text)
  | none =>
    addToken
      { lexer' with
        errorHandler := errorHandlerAddTokenError lexer'.errorHandler .lexer
          { token := tokenHere lexer .error text
            message := "Unknown non-operative instruction" } }
      (tokenHere lexer .error text)

/-- `isalnum(ch) || ch == '_'`, in the C locale. -/
def isValidMacroChar (ch : UInt8) : Bool :=
  isValidIdentifierStart ch || isDigit ch || ch == '_'.toUInt8

/-- Digits and, in a macro name, underscores may follow. -/
def identifierAccepts (isMacro : Bool) (_ : CString) (ch : UInt8) : Bool :=
  if isMacro then isValidMacroChar ch else isValidIdentifierChar ch

/-- The words that are not identifiers, in the order they are tested. -/
def keywords : List (String × TokenType) :=
  [("r0", .register), ("r1", .register), ("r2", .register), ("r3", .register),
    ("r4", .register), ("r5", .register), ("r6", .register), ("r7", .register),
    ("macr", .macr), ("endmacr", .endmacr), ("mov", .mov), ("cmp", .cmp),
    ("add", .add), ("sub", .sub), ("lea", .lea), ("clr", .clr), ("not", .not),
    ("inc", .inc), ("dec", .dec), ("jmp", .jmp), ("bne", .bne), ("red", .red),
    ("prn", .prn), ("jsr", .jsr), ("rts", .rts), ("stop", .stop)]

/-- `lexer_tokenize_identifier`: what is no keyword is an identifier. -/
def lexerTokenizeIdentifier (lexer : Lexer) : Lexer :=
  let (text, lexer') :=
    lexerScan (identifierAccepts (lexer.currentChar == '_'.toUInt8)) lexer
  addToken lexer' (tokenHere lexer ((lookupKeyword keywords text).getD .identifier) text)

/-- `lexer_tokenize_eof`; its text is the empty string. -/
def lexerTokenizeEof (lexer : Lexer) : Lexer :=
  addToken (lexerAdvanceCharacter lexer)
    (tokenHere lexer .eoft (stringCreateFromCstr [0]))

/-- One round of `lexer_analyze`. -/
def lexerAnalyzeRound (lexer : Lexer) : Lexer :=
  let ch := lexer.currentChar
  if isWhitespace ch then lexerAdvanceCharacter lexer
  else if ch = ';'.toUInt8 then lexerTokenizeComment lexer
  else if ch = '\n'.toUInt8 then lexerTokenizeNewline lexer
  else if ch = eofChar then lexerTokenizeEof lexer
  else if charExistsInString ch (bytes ",:#*") then lexerTokenizeSeparator lexer
  else if isDigit ch || charExistsInString ch (bytes "+-") then lexerTokenizeNumber lexer
  else if ch = '\"'.toUInt8 then lexerTokenizeString lexer
  else if ch = '.'.toUInt8 then lexerTokenizeNonOpInstruction lexer
  else if isValidIdentifierStart ch || ch = '_'.toUInt8 then lexerTokenizeIdentifier lexer
  else
    lexerAdvanceCharacter
      (addCharError lexer
        { character := ch
          fileIndex := lexer.index
          lineIndex := lexer.column
          lineNumber := lexer.lineNumber
          message := "unknown char (in the current context)" })

/-- `lexer_analyze`, up to the terminator of the text. -/
def lexerAnalyze (lexer : Lexer) : Lexer :=
  While.loop (fun l => l.currentChar != 0) lexerAnalyzeRound Lexer.remaining lexer

end Assembler
