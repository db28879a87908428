import CLab.CodeGenerator
import CLab.FileSystem
import CLab.LexerCoordinates
import CLab.Parser
import CLab.Preprocessor

/-!
# The assembler as it is run

`main.c`, with `output_generate` and the reports of `error_handler.c`: the
stages are called one after the other on each argument, a stage that reports an
error ends the work on its argument, and an argument that passes them all gets a
directory with its files.  What is printed to the standard output is the result
of a program; the messages on the error output are left out.
-/

namespace Assembler

/-! ## `error_handler.c` -/

/-- The escape sequence that turns the colour on. -/
def redColor : List UInt8 := bytes "\x1b[1;91m"

/-- The escape sequence that turns it off. -/
def resetColor : List UInt8 := bytes "\x1b[0m"

/-- `%d` of a number that is not negative. -/
def decimal (n : Nat) : List UInt8 := formatDecimal 1 n

/-- What the stages are called in a report. -/
def ErrorSource.name : ErrorSource → List UInt8
  | .lexer => bytes "Lexer Error"
  | .preprocessor => bytes "Preprocessor Error"
  | .parser => bytes "Parser Error"
  | .semanticAnalyzer => bytes "AST Validator Error"
  | .outputGenerator => bytes "Output Generator Error"

/-- `print_error_location`. -/
def printErrorLocation (filePath : String) (line column : Nat) : List UInt8 :=
  bytes filePath ++ bytes ":" ++ decimal line ++ bytes ":" ++ decimal column ++ bytes ": "

/-- The loop of `print_error_line` over the rest of the text, at a place. -/
def printCharacters (errorIndex errorLength : Nat) : Nat → List UInt8 → List UInt8
  | _, [] => []
  | i, ch :: rest =>
      if ch = '\n'.toUInt8 then []
      else (if i = errorIndex then redColor else []) ++ ch ::
        ((if i + 1 = errorIndex + errorLength then resetColor else []) ++
          printCharacters errorIndex errorLength (i + 1) rest)

/-- `print_error_line`, up to the end of the line. -/
def printErrorLine (sourceString : CString) (startIndex errorIndex errorLength : Nat) :
    List UInt8 :=
  bytes "    " ++ decimal (stringGetLineNumber sourceString startIndex) ++ bytes " | " ++
    printCharacters errorIndex errorLength startIndex (sourceString.data.drop startIndex) ++
    bytes "\n"

/-- `print_error_pointer`, under the characters of the error. -/
def printErrorPointer (lineNumber errorIndex errorLength : Nat) : List UInt8 :=
  errorPointerFront lineNumber errorIndex ++ redColor ++
    (List.range errorLength).flatMap (fun i => if i = 0 then bytes "^" else bytes "~") ++
    resetColor ++ bytes "\n"

/-- The report of an error that marks a number of characters from a place on. -/
def reportAt (handler : ErrorHandler) (source : ErrorSource) (message : String)
    (lineNumber indexInLine index length : Nat) : List UInt8 :=
  printErrorLocation handler.filePath lineNumber (indexInLine + 1) ++
    redColor ++ source.name ++ resetColor ++ bytes ": " ++ bytes message ++ bytes "\n" ++
    printErrorLine handler.string (stringFindLineStart handler.string index) index length ++
    printErrorPointer lineNumber indexInLine length

/-- The text of one error. -/
def reportError (handler : ErrorHandler) : ErrorNode → List UInt8
  | .tokenError source error =>
      bytes "Debug: Token Error - Line: " ++ decimal error.token.line ++
        bytes ", IndexInLine: " ++ decimal error.token.indexInLine ++
        bytes ", Index: " ++ decimal error.token.index ++ bytes "\n" ++
        reportAt handler source error.message error.token.line error.token.indexInLine
          error.token.index (stringLength error.token.string)
  | .charError source error =>
      bytes "Debug: Char Error - Line: " ++ decimal error.lineNumber ++
        bytes ", LineIndex: " ++ decimal error.lineIndex ++
        bytes ", Index: " ++ decimal error.fileIndex ++ bytes "\n" ++
        reportAt handler source error.message error.lineNumber error.lineIndex error.fileIndex 1

/-- `error_handler_report_errors`, in the order of the list. -/
def errorHandlerReportErrors (handler : ErrorHandler) : List UInt8 :=
  handler.errorList.flatMap (reportError handler)

/-! ## `output_generate` -/

/-- What stops `main`: a fault of a stage, a text that is longer than the array it
is written to, or `safe_realloc`, which exits where it gets no memory. -/
inductive DriverFault
  | stage (fault : Fault)
  | bufferOverflow
  | memoryError
deriving DecidableEq

/-- What the driver does to the files, until it fails. -/
abbrev Driver := FileProgram DriverFault

/-- A stage of the assembler as a step of the driver. -/
def ofStage {α : Type} : Except Fault α → Driver α
  | .ok a => pure a
  | .error fault => throw (.stage fault)

/-- A string that a stage has put together.  It was only appended to, so its last
length says whether `safe_realloc` has given it memory each time. -/
def storeString (text : CString) : Driver Unit :=
  if StringFits text then pure () else throw .memoryError

/-- An output file, or the message that it could not be made. -/
def writeOutput (host : Host) (filePath extension contents ending : List UInt8) :
    Driver (List UInt8) := do
  let written ← writeFile host (filePath ++ extension) contents
  pure <|
    if written then []
    else redColor ++ bytes "Output Error:" ++ resetColor ++ bytes " couldn't create the \"" ++
      filePath ++ extension ++ bytes "\" file." ++ ending

/-- The files that are left out when there is nothing to write. -/
def writeSymbols (host : Host) (filePath extension : List UInt8) (file : CString)
    (ending : List UInt8) : Driver (List UInt8) :=
  if stringLength file ≠ 0 then writeOutput host filePath extension file.data ending else pure []

/-- The first line of the object file. -/
def objectHeader (instructionLines guidanceLines : Nat) : List UInt8 :=
  bytes " " ++ decimal instructionLines ++ bytes " " ++ decimal guidanceLines ++ bytes "\n"

/-- The three files, if no error was reported. -/
def writeOutputs (host : Host) (filePath : Path) (result : ObjectGenerated) :
    Driver (List UInt8) :=
  if result.generator.errorHandler.errorList ≠ [] then pure []
  else do
    let external ← writeSymbols host filePath (bytes ".ext") result.generator.externalFile
      (bytes "\n")
    let entry ← writeSymbols host filePath (bytes ".ent") result.generator.entryFile []
    let object ← writeOutput host filePath (bytes ".ob")
      (objectHeader result.instructionLines result.guidanceLines ++
        result.generator.objectFile.data) []
    pure (external ++ entry ++ object)

/-- `output_generate`: the object file and the externals are made, and then written. -/
def outputGenerate (host : Host) (generator : CodeGenerator) (analyzer : SemanticAnalyzer)
    (unit : TranslationUnit) (filePath : Path) : Driver (CodeGenerator × List UInt8) := do
  let result ← ofStage (generateObjectAndExternalFiles generator analyzer unit)
  storeString result.generator.objectFile
  storeString result.generator.externalFile
  let printed ← writeOutputs host filePath result
  pure (result.generator, printed)

/-! ## `main.c` -/

/-- `sprintf` into an array of 256 characters, the terminator among them. -/
def sprintfBuffer (text : List UInt8) : Driver (List UInt8) :=
  if text.length < 256 then pure text else throw .bufferOverflow

/-- What is behind the last `/`. -/
def baseName (path : Path) : List UInt8 :=
  match strrchr '/'.toUInt8 path with
  | none => path
  | some i => path.drop (i + 1)

/-- `if (dot) *dot = '\0'` at the last `.`. -/
def cutAtDot (text : List UInt8) : List UInt8 :=
  match strrchr '.'.toUInt8 text with
  | none => text
  | some i => text.take i

/-- The `char *` of a path where a stage keeps it. -/
def pathString (path : Path) : String := String.ofList (path.map (fun ch => Char.ofNat ch.toNat))

/-- The directory of an argument. -/
def outputDir (arg : Path) : Path := cutAtDot (baseName arg ++ bytes "_output")

/-- The name of the files of an argument, without their extensions. -/
def outputFile (arg : Path) : Path :=
  cutAtDot (outputDir arg ++ bytes "/" ++ baseName arg) ++ bytes ".ob"

/-- What was printed about an argument, and whether its work went on to the end
and not to the next argument. -/
structure Worked where
  text : List UInt8
  finished : Bool

/-- A program that the analyzer has accepted, and what the stages up to there
have printed. -/
structure Analyzed where
  text : List UInt8
  accepted : Option (Lexer × TranslationUnit × SemanticAnalyzer)

/-- The labels, the entries and the output files. -/
def generateFiles (host : Host) (arg : Path) (lexer : Lexer) (unit : TranslationUnit)
    (analyzer : SemanticAnalyzer) : Driver (List UInt8) := do
  let updated ← ofStage (codeGeneratorUpdateLabels (codeGeneratorInitialize lexer) unit)
  let entries ← ofStage (generateEntryFileString updated.1 analyzer updated.2)
  storeString entries.1.entryFile
  let _ ← sprintfBuffer (outputDir arg ++ bytes "/" ++ baseName arg)
  let path ← sprintfBuffer (outputFile arg)
  let output ← outputGenerate host entries.1 entries.2 updated.2 path
  pure (bytes "Code generation started...\n" ++ output.2 ++
    errorHandlerReportErrors output.1.errorHandler)

/-- From the directory on. -/
def generateCode (host : Host) (arg : Path) (lexer : Lexer) (unit : TranslationUnit)
    (analyzer : SemanticAnalyzer) : Driver Worked := do
  let _ ← sprintfBuffer (baseName arg ++ bytes "_output")
  let created ← createDirectory host (outputDir arg)
  if created then do
    let text ← generateFiles host arg lexer unit analyzer
    pure { text := text, finished := true }
  else
    pure
      { text := bytes "Failed to create output directory for " ++ arg ++ bytes "\n"
        finished := false }

/-- The reports of a stage behind its heading. -/
def stageText (heading : String) (handler : ErrorHandler) : List UInt8 :=
  bytes heading ++ errorHandlerReportErrors handler

/-- From the parser to the analyzer. -/
def analyzeTokens (lexer : Lexer) : Except Fault Analyzed := do
  let unit ← parseTranslationUnitContent (parserInitializeTranslationUnit lexer)
  let parsing := stageText "Parsing started...\n" unit.errorHandler
  if unit.errorHandler.errorList ≠ [] then .ok { text := parsing, accepted := none }
  else do
    let analyzer ← semanticAnalyzerAnalyzeTranslationUnit (semanticAnalyzerInitialize unit lexer)
      unit
    let text := parsing ++ stageText "Semantic analysis started...\n" analyzer.errorHandler
    if analyzer.errorHandler.errorList ≠ [] then .ok { text := text, accepted := none }
    else .ok { text := text, accepted := some (lexer, unit, analyzer) }

/-- The lexer of the text with its macros expanded. -/
def postprocessLexer (preprocessor : Preprocessor) : Lexer :=
  lexerAnalyze (lexerInitializeFromString preprocessor.errorHandler.filePath
    preprocessor.processedSource)

/-- The second lexer, and what comes behind it. -/
def analyzeProcessed (preprocessor : Preprocessor) : Except Fault Analyzed :=
  let lexer := postprocessLexer preprocessor
  let text := stageText "Lexical analysis (post-process) started...\n" lexer.errorHandler
  if lexer.errorHandler.errorList ≠ [] then .ok { text := text, accepted := none }
  else do
    let analyzed ← analyzeTokens lexer
    .ok { analyzed with text := text ++ analyzed.text }

/-- What is done with the text that the preprocessor writes. -/
def writeProcessed (host : Host) (arg : Path) : Option (List UInt8) → Driver Bool
  | none => pure false
  | some text => writeFile host (arg ++ bytes ".am") text

/-- The lexer of the source file. -/
def preprocessLexer (arg : Path) (contents : List UInt8) : Lexer :=
  lexerAnalyze (lexerInitializeFromFile (pathString arg) contents)

/-- The preprocessor, and what comes behind it. -/
def preprocessSource (host : Host) (arg : Path) (lexer : Lexer) : Driver Analyzed := do
  let opens ← opensForWriting host (arg ++ bytes ".am")
  let processed ← ofStage (preprocessorProcess opens
    (preprocessorInitialize lexer (pathString arg)) lexer.sourceCode)
  storeString processed.1.processedSource
  let _ ← writeProcessed host arg processed.2
  let text := stageText "Preprocessing started...\n" processed.1.errorHandler
  if processed.1.errorHandler.errorList ≠ [] then pure { text := text, accepted := none }
  else do
    let analyzed ← ofStage (analyzeProcessed processed.1)
    pure { analyzed with text := text ++ analyzed.text }

/-- A file that was opened, up to the analyzer. -/
def compileSource (host : Host) (arg : Path) (contents : List UInt8) : Driver Analyzed := do
  let lexer := preprocessLexer arg contents
  storeString lexer.sourceCode
  let text := stageText "Lexical analysis (pre-process) started...\n" lexer.errorHandler
  if lexer.errorHandler.errorList ≠ [] then pure { text := text, accepted := none }
  else do
    let analyzed ← preprocessSource host arg lexer
    pure { analyzed with text := text ++ analyzed.text }

/-- What comes behind the analyzer, if it has accepted the program. -/
def finishSource (host : Host) (arg : Path) (analyzed : Analyzed) : Driver Worked :=
  match analyzed.accepted with
  | none => pure { text := analyzed.text, finished := true }
  | some (lexer, unit, analyzer) => do
      let worked ← generateCode host arg lexer unit analyzer
      pure { worked with text := analyzed.text ++ worked.text }

/-- A file that could be opened, or none. -/
def workOn (host : Host) (arg : Path) : Option (List UInt8) → Driver Worked
  | none => pure { text := [], finished := true }
  | some contents => do
      let analyzed ← compileSource host arg contents
      finishSource host arg analyzed

/-- The work on an argument. -/
def processFile (host : Host) (arg : Path) : Driver (List UInt8) := do
  let source ← readFile host (arg ++ bytes ".as")
  let worked ← workOn host arg source
  pure (bytes "Processing file: " ++ arg ++ bytes "\n" ++ worked.text ++
    if worked.finished then bytes "Finished processing file: " ++ arg ++ bytes "\n\n" else [])

/-- `main`: what is printed, and the exit status. -/
def main (host : Host) (program : Path) (args : List Path) : Driver (List UInt8 × Nat) :=
  match args with
  | [] => pure (bytes "Usage: " ++ program ++ bytes " <file1.as> [file2.as ...]\n", 1)
  | _ => do
      let texts ← Footprints.runAll (processFile host) args
      pure (texts.flatten, 0)

end Assembler
