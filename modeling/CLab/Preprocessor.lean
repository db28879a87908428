import CLab.Lexer

/-!
# The preprocessor

`preprocessor.c`: `preprocessor_generate_macro_list` walks the tokens and
records the macro definitions, `preprocessor_expand_macros` then copies the
source text, and `preprocessor_process` runs one after the other.  Both passes
move the same token cursor, `Preprocessor.tokens`.
-/

namespace Assembler

/-- A macro: its name, its text and the span of its definition in the source. -/
structure Macro where
  identifier : Token
  content : CString
  startIndex : Nat
  endIndex : Nat

/-- A preprocessor, with the tokens from where it stands. -/
structure Preprocessor where
  processedSource : CString
  macroList : List Macro
  errorHandler : ErrorHandler
  tokens : List Token

/-- A new preprocessor: no macros, and the tokens of the lexer. -/
def preprocessorInitialize (lexer : Lexer) (filePath : String) : Preprocessor where
  processedSource := stringCreate
  macroList := []
  errorHandler := errorHandlerInitialize lexer.sourceCode (filePath ++ ".am")
  tokens := lexer.tokenList

/-- An error of the preprocessor, filed under its own kind. -/
def Preprocessor.addError (preprocessor : Preprocessor) (token : Token) (message : String) :
    Preprocessor :=
  { preprocessor with
    errorHandler := errorHandlerAddTokenError preprocessor.errorHandler .preprocessor
      { token := token, message := message } }

/-- A macro at the end of the list. -/
def preprocessorAppendMacro (preprocessor : Preprocessor) (newMacro : Macro) : Preprocessor :=
  { preprocessor with macroList := preprocessor.macroList ++ [newMacro] }

/-- The search for the end of a macro: the first end of line in front of an
`endmacr` that ends its own line, and the token behind that `endmacr`. -/
def findEndmacr : List Token → Option (Token × Token)
  | current :: next :: nextNext :: rest =>
      if current.type = .eol ∧ next.type = .endmacr ∧
          (nextNext.type = .eol ∨ nextNext.type = .eoft) then
        some (current, nextNext)
      else findEndmacr (next :: nextNext :: rest)
  | _ => none

/-- The cursor stands on the `macr` token.  A list that ends in front of one
of the tokens read here is a `NULL` that is followed. -/
def preprocessorCreateMacro (preprocessor : Preprocessor) (source : CString) :
    Except Fault Preprocessor :=
  match preprocessor.tokens with
  | [] => .error .nullDereference
  | current :: rest =>
    if current.type ≠ .macr then
      .ok (preprocessor.addError current "Expected MACR token")
    else match rest with
    | [] => .error .nullDereference
    | identifier :: rest =>
      if identifier.type ≠ .identifier then
        .ok (preprocessor.addError identifier "Expected identifier after MACR")
      else if preprocessor.macroList.any
          (fun existing => stringEquals identifier.string existing.identifier.string) then
        .ok (preprocessor.addError identifier "Duplicate macro identifier")
      else match rest with
      | [] => .error .nullDereference
      | newline :: rest =>
        if newline.type ≠ .eol then
          .ok (preprocessor.addError newline "Expected newline after macro identifier")
        else match findEndmacr rest with
        | none => .ok (preprocessor.addError current "Invalid or missing ENDMACR")
        | some (last, closer) =>
          .ok (preprocessorAppendMacro preprocessor
            { identifier := identifier
              content := stringSubstring source (newline.index + 1) last.index
              startIndex := current.index
              endIndex := closer.index })

/-- The loop of `preprocessor_generate_macro_list`, over the tokens from
`current` on. -/
def generateMacroListFrom (preprocessor : Preprocessor) (source : CString) :
    List Token → Except Fault Preprocessor
  | [] => .ok { preprocessor with tokens := [] }
  | current :: rest =>
      if current.type = .eoft then .ok { preprocessor with tokens := current :: rest }
      else if current.type = .macr then do
        let preprocessor' ←
          preprocessorCreateMacro { preprocessor with tokens := current :: rest } source
        generateMacroListFrom preprocessor' source rest
      else generateMacroListFrom preprocessor source rest

/-- The cursor is left where the loop ended, not where it began. -/
def preprocessorGenerateMacroList (preprocessor : Preprocessor) (source : CString) :
    Except Fault Preprocessor :=
  generateMacroListFrom preprocessor source preprocessor.tokens

/-- What a token at an index is to the macro list: in the span of a
definition, a use of a macro, or neither (`none`). -/
inductive MacroUse
  | definition (endIndex : Nat)
  | expansion (content : CString)

/-- The first macro of the list that concerns the token decides. -/
def macroUse (macroList : List Macro) (i : Nat) (token : Token) : Option MacroUse :=
  macroList.findSome? fun m =>
    if m.startIndex ≤ i ∧ i ≤ m.endIndex then some (.definition m.endIndex)
    else if stringEquals m.identifier.string token.string then some (.expansion m.content)
    else none

/-- The local variables of `preprocessor_expand_macros`, with the text written
so far. -/
structure Expansion where
  index : Nat
  currentToken : List Token
  processedSource : CString

/-- One character of the source that is no token. -/
def copyCharacter (source : CString) (s : Expansion) : Expansion :=
  { s with
    processedSource := stringAppendChar s.processedSource (stringCharAt source s.index)
    index := s.index + 1 }

/-- One round of the expansion. -/
def expandRound (macroList : List Macro) (source : CString) (s : Expansion) : Expansion :=
  match s.currentToken with
  | [] => copyCharacter source s
  | token :: rest =>
    if s.index = token.index then
      match macroUse macroList s.index token with
      | some (.definition endIndex) =>
        { s with
          index := endIndex + 1
          currentToken := (token :: rest).dropWhile (fun t => t.index ≤ endIndex) }
      | some (.expansion content) =>
        let afterName := s.index + stringLength token.string
        match rest with
        | newline :: rest' =>
          { index := if newline.type = .eol then afterName + 1 else afterName
            currentToken := if newline.type = .eol then rest' else newline :: rest'
            processedSource := stringAppend s.processedSource content }
        | [] =>
          { index := afterName
            currentToken := []
            processedSource := stringAppend s.processedSource content }
      | none =>
        { index := s.index + stringLength token.string
          currentToken := rest
          processedSource := stringAppend s.processedSource token.string }
    else copyCharacter source s

/-- What the loop still has to go through: characters and tokens. -/
def Expansion.remaining (source : CString) (s : Expansion) : Nat :=
  (stringLength source - s.index) + s.currentToken.length

/-- The loop over the characters of the source. -/
def expandLoop (macroList : List Macro) (source : CString) (s : Expansion) : Expansion :=
  While.loop (fun s => decide (s.index < stringLength source)) (expandRound macroList source)
    (fun s => s.remaining source) s

/-- `preprocessor_expand_macros`. -/
def preprocessorExpandMacros (preprocessor : Preprocessor) (source : CString) : Preprocessor :=
  { preprocessor with
    processedSource := (expandLoop preprocessor.macroList source
      { index := 0
        currentToken := preprocessor.tokens
        processedSource := preprocessor.processedSource }).processedSource }

/-- The characters `write_string_to_file` puts into the file. -/
def writtenText (data : CString) : List UInt8 :=
  data.data.takeWhile (fun c => c != eofChar && c != 0)

/-- The preprocessor after `preprocessor_process`, and the text of the `.am`
file if one was written; `opens` says whether that file can be opened. -/
def preprocessorProcess (opens : Bool) (preprocessor : Preprocessor) (source : CString) :
    Except Fault (Preprocessor × Option (List UInt8)) := do
  let generated ← preprocessorGenerateMacroList preprocessor source
  if generated.errorHandler.errorList ≠ [] then .ok (generated, none)
  else
    let expanded := preprocessorExpandMacros generated source
    if opens then
      .ok ({ expanded with
        errorHandler := { expanded.errorHandler with string := expanded.processedSource } },
        some (writtenText expanded.processedSource))
    else .ok (expanded, none)

end Assembler
