import CLab.StringUtil

/-!
# Tokens and errors

`token.h` and the part of `error_handler.h` that the stages write to.  Tokens
are never modified after the lexer has made them, so a `Token *` of the source
is a token, and a `Token *` that may be `NULL` an optional one; a list of
`TokenNode`s is a list of tokens, and a `TokenNode *` cursor is the rest of the
list it points to.
-/

namespace Assembler

/-- `TokenType`, in the order of the source: the code of an instruction is its
distance from `mov`. -/
inductive TokenType
  | comment
  | register
  | identifier
  | number
  | string
  | mov | cmp | add | sub | lea | clr | not | inc
  | dec | jmp | bne | red | prn | jsr | rts | stop
  | macr
  | endmacr
  | dataIns
  | stringIns
  | entryIns
  | externIns
  | comma
  | colon
  | hashtag
  | star
  | error
  | eol
  | eoft
deriving DecidableEq

/-- A token: its kind and characters, and where it begins in the text and in its line. -/
structure Token where
  type : TokenType
  index : Nat
  indexInLine : Nat
  line : Nat
  string : CString
deriving DecidableEq

/-- `memset(&default_token, 0, sizeof(Token))`: the token attached to an error
where there is none. -/
def defaultToken : Token where
  type := .comment
  index := 0
  indexInLine := 0
  line := 0
  string := stringCreate

/-- The stage that reports an error. -/
inductive ErrorSource
  | lexer
  | preprocessor
  | parser
  | semanticAnalyzer
  | outputGenerator
deriving DecidableEq

/-- An error that a token is blamed for. -/
structure TokenError where
  token : Token
  message : String
deriving DecidableEq

/-- An error that a single character is blamed for. -/
structure CharError where
  character : UInt8
  fileIndex : Nat
  lineIndex : Nat
  lineNumber : Nat
  message : String
deriving DecidableEq

/-- An `ErrorNode` with its source. -/
inductive ErrorNode
  | tokenError (source : ErrorSource) (error : TokenError)
  | charError (source : ErrorSource) (error : CharError)
deriving DecidableEq

/-- The errors of a stage in the order of their reports, with the text and the path that
they are shown with. -/
structure ErrorHandler where
  string : CString
  filePath : String
  errorList : List ErrorNode

/-- A handler without errors keeps the string as it is at the moment. -/
def errorHandlerInitialize (sourceString : CString) (filePath : String) : ErrorHandler where
  string := sourceString
  filePath := filePath
  errorList := []

/-- An error goes behind those that were reported before. -/
def errorHandlerAddTokenError (handler : ErrorHandler) (source : ErrorSource)
    (error : TokenError) : ErrorHandler :=
  { handler with errorList := handler.errorList ++ [.tokenError source error] }

/-- The same for an error of a character. -/
def errorHandlerAddCharError (handler : ErrorHandler) (source : ErrorSource)
    (error : CharError) : ErrorHandler :=
  { handler with errorList := handler.errorList ++ [.charError source error] }

@[simp] theorem errorHandlerAddTokenError_errorList (handler : ErrorHandler)
    (source : ErrorSource) (error : TokenError) :
    (errorHandlerAddTokenError handler source error).errorList =
      handler.errorList ++ [.tokenError source error] := rfl

@[simp] theorem errorHandlerAddCharError_errorList (handler : ErrorHandler)
    (source : ErrorSource) (error : CharError) :
    (errorHandlerAddCharError handler source error).errorList =
      handler.errorList ++ [.charError source error] := rfl

/-- What stops a run of the C program without a result. -/
inductive Fault
  | nullDereference
  | invalidPointer
  | divergence
deriving DecidableEq

/-- Two steps that return have returned one after the other. -/
theorem exists_of_bind_eq_ok {α β : Type} {x : Except Fault α} {f : α → Except Fault β} {b : β}
    (h : x.bind f = .ok b) : ∃ a, x = .ok a ∧ f a = .ok b := by
  cases x with
  | error fault => exact absurd h (by simp [Except.bind])
  | ok a => exact ⟨a, rfl, h⟩

/-- A program that stops with an error does not return. -/
theorem not_returns_of_error {ε α : Type} (error : ε) :
    ¬ ∃ r, (Except.error error : Except ε α) = .ok r := by
  intro h
  obtain ⟨r, hr⟩ := h
  cases hr

end Assembler
