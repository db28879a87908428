import CLab.DriverRuns
import CLab.FrontEndTermination
import CLab.ParserReads
import CLab.SecondPass
import CLab.SourceText
import CLab.UnitLegality

/-!
# What the assembler does with a source file

The stages up to the analyzer return on every text file that fits in a string and
leave all places but the `.am` file as they are (`compileSource_run`), so it
depends on the stages behind them alone whether the work on such a file comes to
its end (`processFile_returns_iff`).  It leaves nothing else behind where a stage
reports something, and the three files of its words and symbols where none does
(`processFile_leaves`).
-/

namespace Assembler

open Footprints (run_bind run_bind_error)

/-! ## The parser behind the preprocessor -/

/-- The last token of a list on which the parser reads past the end. -/
theorem ReachesLoneEntry.last {tokens : List Token} (h : ReachesLoneEntry tokens) :
    ∃ t, tokens.getLast? = some t ∧ t.type = .entryIns := by
  have hne : ∀ {tokens : List Token}, ReachesLoneEntry tokens → tokens ≠ [] := by
    intro tokens h hnil
    subst hnil
    cases h
  have hbehind : ∀ {tokens rest : List Token}, rest <:+ tokens → ReachesLoneEntry rest →
      rest.getLast? = tokens.getLast? := by
    intro tokens rest hsuffix hrest
    obtain ⟨front, rfl⟩ := hsuffix
    rw [List.getLast?_append_of_ne_nil _ (hne hrest)]
  induction h with
  | @entry t ht => exact ⟨t, rfl, ht⟩
  | @blank t rest ht hrest ih =>
      rw [← hbehind (List.suffix_cons t rest) hrest]
      exact ih
  | @label name colon rest hlabel hrest ih =>
      have hsuffix : endOfLine (skipEol rest) <:+ name :: colon :: rest :=
        ((endOfLine_suffix _).trans (skipEol_suffix rest)).trans
          ((List.suffix_cons colon rest).trans (List.suffix_cons name _))
      rw [← hbehind hsuffix hrest]
      exact ih
  | @line t rest ht hplain hrest ih =>
      rw [← hbehind ((endOfLine_suffix rest).trans (List.suffix_cons t rest)) hrest]
      exact ih

/-- A definition that is recorded ends behind an `endmacr`. -/
theorem preprocessorCreateMacro_closer {preprocessor preprocessor' : Preprocessor}
    {source : CString} (h : preprocessorCreateMacro preprocessor source = .ok preprocessor') :
    preprocessor'.macroList = preprocessor.macroList ∨ ∃ m endmacr closer,
      preprocessor'.macroList = preprocessor.macroList ++ [m] ∧
        [endmacr, closer] <:+: preprocessor.tokens ∧ endmacr.type = .endmacr ∧
        m.endIndex = closer.index := by
  unfold preprocessorCreateMacro at h
  split at h
  · cases h
  rename_i opener rest htokens
  split at h
  · exact Or.inl (by rw [← Except.ok.inj h]; rfl)
  split at h
  · cases h
  rename_i name rest
  split at h
  · exact Or.inl (by rw [← Except.ok.inj h]; rfl)
  split at h
  · exact Or.inl (by rw [← Except.ok.inj h]; rfl)
  split at h
  · cases h
  rename_i newline rest
  split at h
  · exact Or.inl (by rw [← Except.ok.inj h]; rfl)
  split at h
  · exact Or.inl (by rw [← Except.ok.inj h]; rfl)
  rename_i last closer hfind
  obtain ⟨middle, endmacr, after, rfl, -, hendmacr, -⟩ := findEndmacr_eq_some hfind
  refine Or.inr ⟨_, endmacr, closer, by rw [← Except.ok.inj h]; rfl, ?_, hendmacr, rfl⟩
  rw [htokens]
  exact ⟨opener :: name :: newline :: (middle ++ [last]), after, by simp⟩

/-- Every macro that is added ends at a closing line of the tokens. -/
theorem generateMacroListFrom_closer {preprocessor generated : Preprocessor} {source : CString}
    {tokens : List Token} (h : generateMacroListFrom preprocessor source tokens = .ok generated) :
    ∀ m ∈ generated.macroList, m ∈ preprocessor.macroList ∨ ∃ endmacr closer,
      [endmacr, closer] <:+: tokens ∧ endmacr.type = .endmacr ∧ m.endIndex = closer.index := by
  induction tokens generalizing preprocessor with
  | nil =>
      obtain rfl := Except.ok.inj h
      exact fun m hm => Or.inl hm
  | cons t rest ih =>
      have hlonger : ∀ m : Macro, (∃ endmacr closer, [endmacr, closer] <:+: rest ∧
          endmacr.type = .endmacr ∧ m.endIndex = closer.index) →
            ∃ endmacr closer, [endmacr, closer] <:+: t :: rest ∧ endmacr.type = .endmacr ∧
              m.endIndex = closer.index := by
        intro m hm
        obtain ⟨endmacr, closer, hinfix, hclosed⟩ := hm
        exact ⟨endmacr, closer, hinfix.trans (List.suffix_cons t rest).isInfix, hclosed⟩
      by_cases ht : t.type = .macr
      · rw [generateMacroListFrom_macr ht] at h
        obtain ⟨created, hcreate, hrest⟩ := exists_of_bind_eq_ok h
        intro m hm
        rcases ih hrest m hm with hm | hm
        · rcases preprocessorCreateMacro_closer hcreate with
            hlist | ⟨m', endmacr, closer, hlist, hinfix, hclosed⟩
          · exact Or.inl (hlist ▸ hm)
          · rw [hlist] at hm
            rcases List.mem_append.mp hm with hm | hm
            · exact Or.inl hm
            · obtain rfl := List.mem_singleton.mp hm
              exact Or.inr ⟨endmacr, closer, hinfix, hclosed⟩
        · exact Or.inr (hlonger m hm)
      · rw [generateMacroListFrom] at h
        split at h
        · obtain rfl := Except.ok.inj h
          exact fun m hm => Or.inl hm
        · exact fun m hm => (ih h m hm).imp_right (hlonger m)

section Source

variable {path : String} {contents : List UInt8} (hplain : eofChar ∉ contents)

include hplain

/-- The tokens of a file end with its end. -/
theorem lexedFile_endsFile : EndsFile (lexedFile path contents).tokenList := by
  obtain ⟨ys, -, htokens, hend⟩ := @lexedFile_endToken path _ hplain
  exact ⟨_, _, htokens, hend.type⟩

/-- The preprocessor returns on every file. -/
theorem preprocessedFile_returns (opens : Bool) : ∃ preprocessor written,
    preprocessedFile opens path contents = .ok (preprocessor, written) := by
  obtain ⟨generated, hgen⟩ := @generateMacroListFrom_returns
    (preprocessorInitialize (lexedFile path contents) path) (lexedFile path contents).sourceCode _
    (lexedFile_endsFile hplain)
  obtain ⟨processed, written, hrun, -⟩ := @preprocessorProcess_of_generated opens
    (preprocessorInitialize (lexedFile path contents) path) _ _ hgen
  exact ⟨processed, written, hrun⟩

/-- The string that the preprocessor puts together is no longer than the text. -/
theorem preprocessedFile_stringFits (hfits : StringFits (fileText contents)) {opens : Bool}
    {preprocessor : Preprocessor} {written : Option (List UInt8)}
    (hrun : preprocessedFile opens path contents = .ok (preprocessor, written)) :
    StringFits preprocessor.processedSource := by
  obtain ⟨generated, hgen, hrest⟩ := exists_of_bind_eq_ok hrun
  by_cases herrors : generated.errorHandler.errorList = []
  · have hclean : preprocessor.errorHandler.errorList = [] := by
      simp only [herrors, ne_eq, not_true_eq_false, if_false] at hrest
      cases opens with
      | true =>
          obtain ⟨rfl, -⟩ := Prod.mk.inj (Except.ok.inj hrest)
          exact herrors
      | false =>
          obtain ⟨rfl, -⟩ := Prod.mk.inj (Except.ok.inj hrest)
          exact herrors
    obtain ⟨htext, -⟩ := preprocessedFile_copies hplain hrun hclean
    rw [StringFits, fileText_eq, List.length_append] at hfits
    rw [StringFits, htext, List.length_append]
    split
    · exact Nat.lt_of_le_of_lt (Nat.le_add_right _ _) hfits
    · exact hfits
  · simp only [herrors, ne_eq, not_false_eq_true, if_true] at hrest
    obtain ⟨rfl, -⟩ := Prod.mk.inj (Except.ok.inj hrest)
    rw [generateMacroListFrom_processedSource hgen]
    exact (by decide : StringFits stringCreate)

/-- The parser returns on what the second lexer reads, also where a definition has
taken the end of the file along: what is left ends in an `endmacr`. -/
theorem postprocessLexer_parses
    (hlexed : (lexedFile path contents).errorHandler.errorList = []) {opens : Bool}
    {preprocessor : Preprocessor} {written : Option (List UInt8)}
    (hrun : preprocessedFile opens path contents = .ok (preprocessor, written))
    (hclean : preprocessor.errorHandler.errorList = []) :
    ∃ unit, parseTranslationUnitContent
      (parserInitializeTranslationUnit (postprocessLexer preprocessor)) = .ok unit := by
  obtain ⟨-, front, eof, htokens, hend, hread⟩ :=
    postprocessLexer_reads hplain hlexed hrun hclean
  refine (contentLoop_returns_iff (parserInitializeTranslationUnit
    (postprocessLexer preprocessor)).cleared).mpr fun hreach => ?_
  obtain ⟨t, hlast, hentry⟩ := hreach.last
  have hlist : (postprocessLexer preprocessor).tokenList.getLast? = some t := hlast
  rw [hread] at hlist
  split at hlist
  · rename_i hclosed
    obtain ⟨m, hm, hmend⟩ := hclosed
    obtain ⟨generated, hgen, hmacros, -, -⟩ := preprocessedFile_generated hrun hclean
    rw [hmacros] at hm
    obtain ⟨endmacr, closer, hinfix, htype, hcloser⟩ :=
      (generateMacroListFrom_closer hgen m hm).resolve_left List.not_mem_nil
    have hall : (preprocessorInitialize (lexedFile path contents) path).tokens = front ++ [eof] :=
      htokens
    rw [hall] at hinfix
    obtain ⟨before, after, hsplit⟩ := hinfix
    -- the token behind the `endmacr` is the last one
    have hindex := hend.index
    rcases List.eq_nil_or_concat after with rfl | ⟨more, final, rfl⟩
    · have hfront : front = before ++ [endmacr] := by
        have hboth : (before ++ [endmacr]) ++ [closer] = front ++ [eof] := by simpa using hsplit
        exact (List.append_inj_left' hboth rfl).symm
      obtain rfl : endmacr = t := by simpa [hfront] using hlist
      rw [htype] at hentry
      cases hentry
    · have hboth : (before ++ [endmacr, closer] ++ more) ++ [final] = front ++ [eof] := by
        simpa using hsplit
      have hmem : closer ∈ front := by
        rw [← List.append_inj_left' hboth rfl]
        simp
      have hlt := (hend.front closer hmem).2
      omega
  · obtain rfl : eof = t := by simpa using hlist
    rw [hend.type] at hentry
    cases hentry

end Source

/-- Whether the `.am` file can be written is no matter to the second lexer. -/
theorem preprocessedFile_opens {path : String} {contents : List UInt8} {opens : Bool}
    {preprocessor : Preprocessor} {written : Option (List UInt8)}
    (hrun : preprocessedFile opens path contents = .ok (preprocessor, written))
    (hclean : preprocessor.errorHandler.errorList = []) (opens' : Bool) :
    ∃ preprocessor' written',
      preprocessedFile opens' path contents = .ok (preprocessor', written') ∧
      preprocessor'.errorHandler.errorList = [] ∧
      postprocessLexer preprocessor' = postprocessLexer preprocessor := by
  obtain ⟨generated, hgen, hrest⟩ := exists_of_bind_eq_ok hrun
  by_cases herrors : generated.errorHandler.errorList = []
  · have hopen : ∀ opens, ∃ processed written,
        preprocessedFile opens path contents = .ok (processed, written) ∧
          processed.errorHandler.errorList = [] ∧ postprocessLexer processed =
            postprocessLexer (preprocessorExpandMacros generated
              (lexedFile path contents).sourceCode) := by
      intro opens
      simp only [preprocessedFile, preprocessorProcess, hgen, bind, Except.bind, herrors, ne_eq,
        not_true_eq_false, if_false]
      cases opens with
      | true => exact ⟨_, _, rfl, herrors, rfl⟩
      | false => exact ⟨_, _, rfl, herrors, rfl⟩
    obtain ⟨processed, written', hrun', -, hlexer⟩ := hopen opens
    obtain ⟨rfl, -⟩ := Prod.mk.inj (Except.ok.inj (hrun.symm.trans hrun'))
    obtain ⟨processed', written'', hrun'', hclean', hlexer'⟩ := hopen opens'
    exact ⟨processed', written'', hrun'', hclean', hlexer'.trans hlexer.symm⟩
  · simp only [herrors, ne_eq, not_false_eq_true, if_true] at hrest
    obtain ⟨rfl, -⟩ := Prod.mk.inj (Except.ok.inj hrest)
    exact absurd hclean herrors

/-! ## Up to the analyzer -/

/-- A source on which no stage up to the analyzer reports anything, and what the
stages make of it. -/
structure FrontEnd (arg : Path) (contents : List UInt8) (lexer : Lexer) (unit : TranslationUnit)
    (analyzer : SemanticAnalyzer) : Prop where
  lexed : (preprocessLexer arg contents).errorHandler.errorList = []
  processed : ∃ opens preprocessor written,
    preprocessedFile opens (pathString arg) contents = .ok (preprocessor, written) ∧
      preprocessor.errorHandler.errorList = [] ∧ lexer = postprocessLexer preprocessor
  passed : Passed lexer unit analyzer

/-- The stages accept a unit exactly if it passes them. -/
theorem analyzeTokens_run {lexer : Lexer} (hlexed : LexerOutput lexer)
    (hparses : ∃ unit, parseTranslationUnitContent (parserInitializeTranslationUnit lexer) =
      .ok unit) :
    ∃ analyzed, analyzeTokens lexer = .ok analyzed ∧ ∀ lexer' unit analyzer,
      analyzed.accepted = some (lexer', unit, analyzer) ↔
        lexer' = lexer ∧ Passed lexer unit analyzer := by
  obtain ⟨unit, hparse⟩ := hparses
  by_cases herrors : unit.errorHandler.errorList = []
  case neg =>
    refine ⟨_, by simp only [analyzeTokens, hparse, bind, Except.bind, herrors, ne_eq,
      not_false_eq_true, if_true]; rfl, fun lexer' unit' analyzer => iff_of_false ?_ ?_⟩
    · exact fun h => by cases h
    · intro h
      obtain rfl := Except.ok.inj (hparse.symm.trans h.2.parsed.parse)
      exact herrors h.2.parsed.errors
  have hparsed : ParsedFrom (parserInitializeTranslationUnit lexer) unit := ⟨hparse, herrors⟩
  obtain ⟨analyzer, hanalyzed, -⟩ := analyzeTranslationUnit_exact hparsed.formed lexer
  simp only [analyzeTokens, hparse, hanalyzed, bind, Except.bind, herrors, ne_eq,
    not_true_eq_false, if_false]
  by_cases hclean : analyzer.errorHandler.errorList = []
  · simp only [hclean, not_true_eq_false, if_false]
    refine ⟨_, rfl, fun lexer' unit' analyzer' => ⟨fun h => ?_, fun h => ?_⟩⟩
    · obtain ⟨rfl, hrest⟩ := Prod.mk.inj (Option.some.inj h)
      obtain ⟨rfl, rfl⟩ := Prod.mk.inj hrest
      exact ⟨rfl, hlexed, hparsed, hanalyzed, hclean⟩
    · obtain ⟨rfl, hpassed⟩ := h
      obtain rfl := Except.ok.inj (hparse.symm.trans hpassed.parsed.parse)
      obtain rfl := Except.ok.inj (hanalyzed.symm.trans hpassed.analyzed)
      rfl
  · simp only [hclean, not_false_eq_true, if_true]
    refine ⟨_, rfl, fun lexer' unit' analyzer' => iff_of_false (fun h => by cases h) fun h => ?_⟩
    obtain rfl := Except.ok.inj (hparse.symm.trans h.2.parsed.parse)
    obtain rfl := Except.ok.inj (hanalyzed.symm.trans h.2.analyzed)
    exact hclean h.2.clean

/-- A text that fits is stored without a change to the files. -/
theorem storeString_run {text : CString} (h : StringFits text) (files : FileSystem) :
    storeString text files = .ok ((), files) := by
  rw [storeString, if_pos h]
  rfl

/-- A string that has grown too long ends the program. -/
theorem storeString_full {text : CString} (h : ¬ StringFits text) (files : FileSystem) :
    storeString text files = .error .memoryError := by
  rw [storeString, if_neg h]
  rfl

section Compile

variable (host : Host)

/-- The files behind an attempt to write one. -/
def withFile (files : FileSystem) (path : Path) (contents : List UInt8) : FileSystem :=
  if Opens host files path then Function.update files path (some (.file contents)) else files

/-- A write leaves all other places. -/
theorem withFile_of_ne {files : FileSystem} {path path' : Path} (h : path' ≠ path)
    (contents : List UInt8) : withFile host files path contents path' = files path' := by
  unfold withFile
  split
  · exact Function.update_of_ne h _ _
  · rfl

variable {arg : Path} {contents : List UInt8}

/-- The expanded source is written, if it is there. -/
theorem writeProcessed_run (text : Option (List UInt8)) (files : FileSystem) :
    ∃ written, writeProcessed host arg text files = .ok (written,
      text.elim files (fun contents => withFile host files (arg ++ bytes ".am") contents)) := by
  cases text with
  | none => exact ⟨false, rfl⟩
  | some contents => exact ⟨_, writeFile_run host contents⟩

/-- The `.am` file of a source that is accepted. -/
def processedFiles (arg : Path) (contents : List UInt8) (files : FileSystem) : FileSystem :=
  withFile host files (arg ++ bytes ".am") (contents.filter (· != 0))

/-- A source that is lexed without an error is preprocessed and analyzed. -/
theorem preprocessSource_run (hplain : eofChar ∉ contents)
    (hfits : StringFits (fileText contents))
    (hlexed : (preprocessLexer arg contents).errorHandler.errorList = []) (files : FileSystem) :
    ∃ analyzed files', preprocessSource host arg (preprocessLexer arg contents) files =
        .ok (analyzed, files') ∧
      (∀ path, path ≠ arg ++ bytes ".am" → files' path = files path) ∧
      ∀ lexer unit analyzer, (analyzed.accepted = some (lexer, unit, analyzer) ↔
        FrontEnd arg contents lexer unit analyzer) ∧
      (FrontEnd arg contents lexer unit analyzer →
        files' = processedFiles host arg contents files) := by
  obtain ⟨preprocessor, text, hrun⟩ := @preprocessedFile_returns (pathString arg) _ hplain
    (decide (Opens host files (arg ++ bytes ".am")))
  obtain ⟨written, hwrite⟩ := @writeProcessed_run host arg text files
  generalize hfiles' : text.elim files (fun contents =>
    withFile host files (arg ++ bytes ".am") contents) = files' at hwrite
  have hframe : ∀ path, path ≠ arg ++ bytes ".am" → files' path = files path := by
    intro path hpath
    rw [← hfiles']
    cases text with
    | none => rfl
    | some contents => exact withFile_of_ne host hpath contents
  have hstage : preprocessorProcess (decide (Opens host files (arg ++ bytes ".am")))
      (preprocessorInitialize (preprocessLexer arg contents) (pathString arg))
      (preprocessLexer arg contents).sourceCode = .ok (preprocessor, text) := hrun
  rw [preprocessSource, run_bind (opensForWriting_run host), hstage,
    run_bind (t := files) rfl,
    run_bind (storeString_run (preprocessedFile_stringFits hplain hfits hrun) files),
    run_bind hwrite]
  by_cases hclean : preprocessor.errorHandler.errorList = []
  case neg =>
    simp only [hclean, ne_eq, not_false_eq_true, if_true]
    have hrejected : ∀ lexer unit analyzer, ¬ FrontEnd arg contents lexer unit analyzer := by
      intro lexer unit analyzer h
      obtain ⟨opens, preprocessor', text', hrun', hclean', -⟩ := h.processed
      obtain ⟨again, _, hagain, hcleanAgain, -⟩ := preprocessedFile_opens hrun' hclean' _
      obtain ⟨rfl, -⟩ := Prod.mk.inj (Except.ok.inj (hagain.symm.trans hrun))
      exact hclean hcleanAgain
    exact ⟨_, files', rfl, hframe, fun lexer unit analyzer =>
      ⟨iff_of_false (fun h => by cases h) (hrejected lexer unit analyzer),
        fun h => absurd h (hrejected lexer unit analyzer)⟩⟩
  simp only [hclean, ne_eq, not_true_eq_false, if_false]
  have hparses := postprocessLexer_parses hplain hlexed hrun hclean
  obtain ⟨hrelexed, -⟩ := postprocessLexer_reads hplain hlexed hrun hclean
  obtain ⟨analyzed, hanalyzed, haccepted⟩ :=
    @analyzeTokens_run (postprocessLexer preprocessor) (.string _ _) hparses
  have hprocessed : analyzeProcessed preprocessor = .ok { analyzed with
      text := stageText "Lexical analysis (post-process) started...\n"
        (postprocessLexer preprocessor).errorHandler ++ analyzed.text } := by
    simp only [analyzeProcessed, hrelexed, ne_eq, not_true_eq_false, if_false, hanalyzed, bind,
      Except.bind]
  rw [hprocessed, run_bind (t := files') rfl]
  refine ⟨_, files', rfl, hframe, fun lexer unit analyzer =>
    ⟨(haccepted lexer unit analyzer).trans ?_, fun _ => ?_⟩⟩
  case refine_2 =>
    obtain ⟨-, hwritten⟩ := preprocessedFile_copies hplain hrun hclean
    rw [← hfiles', hwritten, processedFiles, withFile]
    by_cases hopens : Opens host files (arg ++ bytes ".am") <;> simp [hopens, withFile]
  constructor
  · intro h
    obtain ⟨rfl, hpassed⟩ := h
    exact ⟨hlexed, ⟨_, preprocessor, text, hrun, hclean, rfl⟩, hpassed⟩
  · intro h
    obtain ⟨opens, preprocessor', text', hrun', hclean', rfl⟩ := h.processed
    obtain ⟨again, _, hagain, -, hlexer⟩ := preprocessedFile_opens hrun' hclean' _
    obtain ⟨rfl, -⟩ := Prod.mk.inj (Except.ok.inj (hagain.symm.trans hrun))
    exact ⟨hlexer.symm, hlexer ▸ h.passed⟩

/-- The lexer keeps the text of the file. -/
theorem preprocessLexer_sourceCode : (preprocessLexer arg contents).sourceCode =
    fileText contents := lexedFile_source

/-- **The stages up to the analyzer** return on every text file that fits in a
string, write the `.am` file or nothing, and accept what they report nothing about. -/
theorem compileSource_run (hplain : eofChar ∉ contents) (hfits : StringFits (fileText contents))
    (files : FileSystem) :
    ∃ analyzed files', compileSource host arg contents files = .ok (analyzed, files') ∧
      (∀ path, path ≠ arg ++ bytes ".am" → files' path = files path) ∧
      ∀ lexer unit analyzer, (analyzed.accepted = some (lexer, unit, analyzer) ↔
        FrontEnd arg contents lexer unit analyzer) ∧
      (FrontEnd arg contents lexer unit analyzer →
        files' = processedFiles host arg contents files) := by
  rw [compileSource, preprocessLexer_sourceCode, run_bind (storeString_run hfits files)]
  by_cases hlexed : (preprocessLexer arg contents).errorHandler.errorList = []
  · obtain ⟨analyzed, files', hrun, hframe, haccepted⟩ :=
      preprocessSource_run host hplain hfits hlexed files
    simp only [hlexed, ne_eq, not_true_eq_false, if_false]
    exact ⟨_, files', run_bind hrun, hframe, haccepted⟩
  · simp only [hlexed, ne_eq, not_false_eq_true, if_true]
    exact ⟨_, files, rfl, fun _ _ => rfl, fun lexer unit analyzer =>
      ⟨iff_of_false (fun h => by cases h) fun h => hlexed h.lexed, fun h => absurd h.lexed hlexed⟩⟩

/-- A text that is too long for a string is not even lexed. -/
theorem compileSource_full (hfull : ¬ StringFits (fileText contents)) (files : FileSystem) :
    compileSource host arg contents files = .error .memoryError := by
  rw [compileSource, preprocessLexer_sourceCode]
  exact run_bind_error (storeString_full hfull files)

end Compile

/-! ## From the directory on -/

/-- The name of the directory fits in its array. -/
def DirectoryFits (arg : Path) : Prop := (baseName arg ++ bytes "_output").length < 256

/-- The names of the files fit in theirs, at each moment. -/
def FilesFit (arg : Path) : Prop :=
  (outputDir arg ++ bytes "/" ++ baseName arg).length < 256 ∧ (outputFile arg).length < 256

instance (arg : Path) : Decidable (DirectoryFits arg) := Nat.decLt _ _

instance (arg : Path) : Decidable (FilesFit arg) :=
  inferInstanceAs (Decidable (_ < 256 ∧ _ < 256))

/-- The end of the memory is crossed at a label node without a token. -/
def CrossesUnlabelled (unit : TranslationUnit) : Prop :=
  ∃ before node after, Crosses startingPosition unit.labels before node after ∧ node.label = none

/-- What the program goes on with behind an array that a text is put in. -/
theorem sprintfBuffer_bind {α : Type} {text : List UInt8} {f : List UInt8 → Driver α}
    {files : FileSystem} {r : α × FileSystem} :
    (sprintfBuffer text >>= f) files = .ok r ↔ text.length < 256 ∧ f text files = .ok r := by
  rw [sprintfBuffer]
  by_cases h : text.length < 256
  · rw [if_pos h]
    exact ⟨fun hrun => ⟨h, hrun⟩, fun hrun => hrun.2⟩
  · rw [if_neg h]
    exact iff_of_false (fun hrun => by cases hrun) fun hrun => h hrun.1

/-- What comes behind a stored text runs if the text fits. -/
theorem storeString_bind {α : Type} {text : CString} {f : Unit → Driver α}
    {files : FileSystem} {r : α × FileSystem} :
    (storeString text >>= f) files = .ok r ↔ StringFits text ∧ f () files = .ok r := by
  by_cases h : StringFits text
  · rw [run_bind (storeString_run h files)]
    exact ⟨fun hrun => ⟨h, hrun⟩, fun hrun => hrun.2⟩
  · rw [run_bind_error (storeString_full h files)]
    exact iff_of_false (fun hrun => by cases hrun) fun hrun => h hrun.1

section Generate

variable (host : Host)

/-- The files behind an attempt to make a directory. -/
def withDirectory (files : FileSystem) (path : Path) : FileSystem :=
  if files path = none ∧ Creates host files path then
    Function.update files path (some .directory)
  else files

/-- The files behind one that is left out when it is empty. -/
def withSymbols (files : FileSystem) (path : Path) (contents : List UInt8) : FileSystem :=
  if contents ≠ [] then withFile host files path contents else files

/-- The files behind the three output files. -/
def withOutputs (files : FileSystem) (filePath : Path) (external entry object : List UInt8) :
    FileSystem :=
  withFile host
    (withSymbols host (withSymbols host files (filePath ++ bytes ".ext") external)
      (filePath ++ bytes ".ent") entry)
    (filePath ++ bytes ".ob") object

/-- A list of symbols is written, if it has one. -/
theorem writeSymbols_run (files : FileSystem) (filePath extension : List UInt8) (file : CString)
    (ending : List UInt8) : ∃ text, writeSymbols host filePath extension file ending files =
      .ok (text, withSymbols host files (filePath ++ extension) file.data) := by
  rw [writeSymbols, withSymbols]
  by_cases hempty : file.data = []
  · exact ⟨[], by simp [hempty, stringLength]; rfl⟩
  · have hlength : stringLength file ≠ 0 := by simpa [stringLength] using hempty
    rw [if_pos hlength, if_pos hempty, writeOutput]
    exact ⟨_, run_bind (writeFile_run host file.data)⟩

/-- The files behind what is made of the two passes. -/
def withResult (files : FileSystem) (filePath : Path) (result : ObjectGenerated) : FileSystem :=
  if result.generator.errorHandler.errorList = [] then
    withOutputs host files filePath result.generator.externalFile.data
      result.generator.entryFile.data
      (objectHeader result.instructionLines result.guidanceLines ++
        result.generator.objectFile.data)
  else files

/-- The outputs are written one after the other. -/
theorem writeOutputs_run (files : FileSystem) (filePath : Path) (result : ObjectGenerated) :
    ∃ text, writeOutputs host filePath result files =
      .ok (text, withResult host files filePath result) := by
  by_cases hclean : result.generator.errorHandler.errorList = []
  · obtain ⟨external, hexternal⟩ := writeSymbols_run host files filePath (bytes ".ext")
      result.generator.externalFile (bytes "\n")
    obtain ⟨entry, hentry⟩ := writeSymbols_run host
      (withSymbols host files (filePath ++ bytes ".ext") result.generator.externalFile.data)
      filePath (bytes ".ent") result.generator.entryFile []
    have hclean' : ¬ result.generator.errorHandler.errorList ≠ [] := not_not_intro hclean
    rw [writeOutputs, if_neg hclean', run_bind hexternal, run_bind hentry, withResult,
      if_pos hclean]
    exact ⟨_, run_bind (run_bind (writeFile_run host _))⟩
  · rw [writeOutputs, if_pos hclean, withResult, if_neg hclean]
    exact ⟨[], rfl⟩

variable {arg : Path} {lexer : Lexer} {unit : TranslationUnit} {analyzer : SemanticAnalyzer}

/-- Behind the passes their texts have to fit in the strings and the names in the
arrays, and then the files are written. -/
theorem generateFiles_run {generator generator' : CodeGenerator} {placed : TranslationUnit}
    {analyzer' : SemanticAnalyzer} {result : ObjectGenerated}
    (hupdated : codeGeneratorUpdateLabels (codeGeneratorInitialize lexer) unit =
      .ok (generator, placed))
    (hentries : generateEntryFileString generator analyzer placed = .ok (generator', analyzer'))
    (hobject : generateObjectAndExternalFiles generator' analyzer' placed = .ok result)
    (files files' : FileSystem) :
    (∃ text, generateFiles host arg lexer unit analyzer files = .ok (text, files')) ↔
      (StringFits generator'.entryFile ∧ FilesFit arg ∧
        StringFits result.generator.objectFile ∧ StringFits result.generator.externalFile) ∧
      files' = withResult host files (outputFile arg) result := by
  obtain ⟨printed, hwrite⟩ := writeOutputs_run host files (outputFile arg) result
  have hstages : ∀ r, generateFiles host arg lexer unit analyzer files = .ok r ↔
      StringFits generator'.entryFile ∧
      (outputDir arg ++ bytes "/" ++ baseName arg).length < 256 ∧
      (outputFile arg).length < 256 ∧ StringFits result.generator.objectFile ∧
      StringFits result.generator.externalFile ∧
      r = (bytes "Code generation started...\n" ++ printed ++
        errorHandlerReportErrors result.generator.errorHandler,
        withResult host files (outputFile arg) result) := by
    intro r
    rw [generateFiles, hupdated, run_bind (t := files) rfl]
    simp only [hentries]
    rw [run_bind (t := files) rfl, storeString_bind, sprintfBuffer_bind, sprintfBuffer_bind,
      outputGenerate, hobject, bind_assoc, run_bind (t := files) rfl, bind_assoc,
      storeString_bind, bind_assoc, storeString_bind, bind_assoc, run_bind hwrite]
    have hends : ∀ {α : Type} (a b : α × FileSystem),
        (Except.ok a : Except DriverFault (α × FileSystem)) = .ok b ↔ b = a :=
      fun a b => ⟨fun h => (Except.ok.inj h).symm, fun h => h ▸ rfl⟩
    exact and_congr_right' (and_congr_right' (and_congr_right' (and_congr_right'
      (and_congr_right' (hends _ r)))))
  constructor
  · intro h
    obtain ⟨text, hrun⟩ := h
    obtain ⟨hentry, hpath, hfile, hobjectFits, hexternal, hr⟩ := (hstages _).mp hrun
    exact ⟨⟨hentry, ⟨hpath, hfile⟩, hobjectFits, hexternal⟩, (Prod.mk.inj hr).2⟩
  · intro h
    obtain ⟨⟨hentry, ⟨hpath, hfile⟩, hobjectFits, hexternal⟩, rfl⟩ := h
    exact ⟨_, (hstages _).mpr ⟨hentry, hpath, hfile, hobjectFits, hexternal, rfl⟩⟩

/-- The text of the object file of a placed program. -/
def objectFileText (analyzer : SemanticAnalyzer) (placed : TranslationUnit) : List UInt8 :=
  objectHeader placed.slots.length placed.values.length ++
    objectText (objectImage analyzer placed)

/-- The files behind the output files of a program. -/
def withProgram (files : FileSystem) (filePath : Path) (analyzer : SemanticAnalyzer)
    (placed : TranslationUnit) : FileSystem :=
  withOutputs host files filePath (symbolText (externalSymbols analyzer placed))
    (symbolText (entrySymbols placed)) (objectFileText analyzer placed)

/-- A program that leaves the memory at a label without a token stops the work. -/
theorem generateFiles_faults (h : Passed lexer unit analyzer) (hcrosses : CrossesUnlabelled unit)
    (files : FileSystem) :
    generateFiles host arg lexer unit analyzer files = .error (.stage .nullDereference) := by
  obtain ⟨before, node, after, hcross, hnone⟩ := hcrosses
  have hsized := h.parsed.labels_sized h.lexed
  rcases codeGeneratorUpdateLabels_crosses (codeGeneratorInitialize lexer) hsized hcross with
    ⟨-, hfault⟩ | ⟨token, placed, hsome, -⟩
  · rw [generateFiles, hfault]
    exact run_bind_error rfl
  · rw [hnone] at hsome
    cases hsome

/-- The texts of the three files fit in their strings, however far the first pass has
come. -/
structure TextsFit (analyzer : SemanticAnalyzer) (unit : TranslationUnit) : Prop where
  object : (objectText (objectImage analyzer unit.reached)).length < 2 ^ 31
  external : (symbolText (externalSymbols analyzer unit.reached)).length < 2 ^ 31
  entries : (symbolText (declaredEntries unit unit.reached
    (newNames [] unit.entryNames))).length < 2 ^ 31

/-- Every other program comes through if its texts fit: its files are written if its
words fit in the memory, and none is if they do not. -/
theorem generateFiles_comes (h : Passed lexer unit analyzer) (hcrosses : ¬ CrossesUnlabelled unit)
    (files files' : FileSystem) :
    (∃ text, generateFiles host arg lexer unit analyzer files = .ok (text, files')) ↔
      (FilesFit arg ∧ TextsFit analyzer unit) ∧
      files' = if unit.memoryUsed ≤ maxPosition then
          withProgram host files (outputFile arg) analyzer unit.placed
        else files := by
  have hsized := h.parsed.labels_sized h.lexed
  have hwords : unit.memoryUsed = startingPosition + wordsOf unit.labels := by
    rw [TranslationUnit.memoryUsed, h.parsed.formed.wordsOf_labels]
  obtain ⟨generator, hupdated, hempty, hclean⟩ : ∃ generator,
      codeGeneratorUpdateLabels (codeGeneratorInitialize lexer) unit =
        .ok (generator, unit.reached) ∧
      (generator.objectFile.data = [] ∧ generator.externalFile.data = []) ∧
      (generator.errorHandler.errorList = [] ↔ unit.memoryUsed ≤ maxPosition) := by
    by_cases hfits : unit.memoryUsed ≤ maxPosition
    · have hplaced := hwords ▸ hfits
      refine ⟨codeGeneratorInitialize lexer, ?_, ⟨rfl, rfl⟩, iff_of_true rfl hfits⟩
      rw [TranslationUnit.reached_eq_placed hplaced]
      exact codeGeneratorUpdateLabels_fits _ hsized hplaced
    · obtain ⟨before, node, after, hcross⟩ := exists_crosses (by decide)
        (hwords ▸ Nat.lt_of_not_le hfits)
      rcases codeGeneratorUpdateLabels_crosses (codeGeneratorInitialize lexer) hsized hcross with
        ⟨hnone, -⟩ | ⟨token, placed, -, hupdated⟩
      · exact absurd ⟨before, node, after, hcross, hnone⟩ hcrosses
      · obtain rfl := codeGeneratorUpdateLabels_reaches hsized hupdated
        refine ⟨_, hupdated, ⟨rfl, rfl⟩, iff_of_false ?_ hfits⟩
        simp [CodeGenerator.addError, errorHandlerAddTokenError]
  obtain ⟨generator', analyzer', result, hentries, hobject, hwritten⟩ :=
    h.secondPass unit.reached_relabelled hempty.1 hempty.2
  rw [generateFiles_run host hupdated hentries hobject files files']
  have htexts : (StringFits generator'.entryFile ∧ FilesFit arg ∧
      StringFits result.generator.objectFile ∧ StringFits result.generator.externalFile) ↔
        FilesFit arg ∧ TextsFit analyzer unit := by
    simp only [StringFits, hwritten.entries, hwritten.object, hwritten.external]
    exact ⟨fun h => ⟨h.2.1, h.2.2.1, h.2.2.2, h.1⟩, fun h => ⟨h.2.3, h.1, h.2.1, h.2.2⟩⟩
  have hresult : withResult host files (outputFile arg) result =
      if unit.memoryUsed ≤ maxPosition then
        withProgram host files (outputFile arg) analyzer unit.placed
      else files := by
    rw [withResult, hwritten.errors]
    by_cases hfits : unit.memoryUsed ≤ maxPosition
    · have hplaced := hwords ▸ hfits
      have haccepted : Accepted lexer unit analyzer (codeGeneratorInitialize lexer) unit.placed :=
        ⟨⟨h.lexed, h.parsed, codeGeneratorUpdateLabels_fits _ hsized hplaced, rfl⟩, h.analyzed,
          h.clean⟩
      rw [if_pos (hclean.mpr hfits), if_pos hfits, hwritten.entryFile, hwritten.entries,
        hwritten.object, hwritten.external, hwritten.instructionLines, hwritten.guidanceLines,
        TranslationUnit.reached_eq_placed hplaced, haccepted.declaredEntries_eq]
      rfl
    · rw [if_neg (fun herrors => hfits (hclean.mp herrors)), if_neg hfits]
  rw [htexts, hresult]

/-- The same from the directory on. -/
theorem generateCode_comes (h : Passed lexer unit analyzer) (files : FileSystem) :
    ((∃ r, generateCode host arg lexer unit analyzer files = .ok r) ↔
      DirectoryFits arg ∧ (Creates host files (outputDir arg) →
        FilesFit arg ∧ ¬ CrossesUnlabelled unit ∧ TextsFit analyzer unit)) ∧
    ∀ worked files', generateCode host arg lexer unit analyzer files = .ok (worked, files') →
      files' =
        if Creates host files (outputDir arg) then
          if unit.memoryUsed ≤ maxPosition then
            withProgram host (withDirectory host files (outputDir arg)) (outputFile arg) analyzer
              unit.placed
          else withDirectory host files (outputDir arg)
        else files := by
  by_cases hdirectory : DirectoryFits arg
  case neg =>
    have hfault : ∀ r, generateCode host arg lexer unit analyzer files ≠ .ok r :=
      fun r hrun => hdirectory (sprintfBuffer_bind.mp hrun).1
    refine ⟨iff_of_false ?_ fun hall => hdirectory hall.1,
      fun worked files' hrun => absurd hrun (hfault _)⟩
    intro hreturns
    obtain ⟨r, hr⟩ := hreturns
    exact hfault r hr
  have hstages : ∀ r, generateCode host arg lexer unit analyzer files = .ok r ↔
      (do
        let created ← createDirectory host (outputDir arg)
        if created then do
          let text ← generateFiles host arg lexer unit analyzer
          pure { text := text, finished := true }
        else
          pure
            { text := bytes "Failed to create output directory for " ++ arg ++ bytes "\n"
              finished := false } : Driver Worked) files = .ok r := by
    intro r
    rw [generateCode, sprintfBuffer_bind]
    exact and_iff_right hdirectory
  simp only [hstages]
  rw [run_bind (createDirectory_run host)]
  by_cases hcreates : Creates host files (outputDir arg)
  case neg =>
    simp only [hcreates, decide_false, Bool.false_eq_true, if_false, and_false]
    refine ⟨iff_of_true ⟨_, rfl⟩ ⟨hdirectory, fun h => absurd h id⟩, fun worked files' hrun => ?_⟩
    exact (Prod.mk.inj (Except.ok.inj hrun)).2.symm
  have hmade : (if files (outputDir arg) = none ∧ Creates host files (outputDir arg) then
      Function.update files (outputDir arg) (some Entry.directory) else files) =
        withDirectory host files (outputDir arg) := rfl
  rw [hmade]
  simp only [hcreates, decide_true, if_true]
  by_cases hcrosses : CrossesUnlabelled unit
  · rw [run_bind_error (generateFiles_faults host h hcrosses _)]
    exact ⟨iff_of_false (not_returns_of_error _) fun hall => (hall.2 trivial).2.1 hcrosses,
      fun worked files' hrun => by cases hrun⟩
  have hcomes := @generateFiles_comes host arg _ _ _ h hcrosses
    (withDirectory host files (outputDir arg))
  cases hrun : generateFiles host arg lexer unit analyzer
      (withDirectory host files (outputDir arg)) with
  | error fault =>
      rw [run_bind_error hrun]
      refine ⟨iff_of_false (not_returns_of_error fault) fun hall => ?_,
        fun worked files' hrun => by cases hrun⟩
      obtain ⟨hfiles, -, htexts⟩ := hall.2 trivial
      obtain ⟨text, hends⟩ := (hcomes _).mpr ⟨⟨hfiles, htexts⟩, rfl⟩
      rw [hrun] at hends
      cases hends
  | ok ended =>
      obtain ⟨⟨hfiles, htexts⟩, hleft⟩ := (hcomes ended.2).mp ⟨ended.1, hrun⟩
      rw [run_bind hrun]
      refine ⟨iff_of_true ⟨_, rfl⟩ ⟨hdirectory, fun _ => ⟨hfiles, hcrosses, htexts⟩⟩,
        fun worked files' hends => ?_⟩
      rw [← hleft]
      exact (Prod.mk.inj (Except.ok.inj hends)).2.symm

end Generate

/-! ## The work on a source file -/

/-- The name is no longer than the argument. -/
theorem baseName_length (arg : Path) : (baseName arg).length ≤ arg.length := by
  rw [baseName]
  cases strrchr '/'.toUInt8 arg with
  | none => exact Nat.le_refl _
  | some i => exact (List.drop_suffix (i + 1) arg).length_le

/-- The directory lies in the working directory. -/
theorem outputDir_no_slash (arg : Path) : '/'.toUInt8 ∉ outputDir arg := by
  intro hmem
  rcases List.mem_append.mp (cutAtDot_subset _ hmem) with hmem | hmem
  · exact baseName_no_slash arg hmem
  · exact absurd hmem (by decide)

/-- The directory of an argument is in the working directory. -/
theorem parent_outputDir (arg : Path) : parent (outputDir arg) = none := by
  rw [parent, strrchr_eq_none_iff.mpr (outputDir_no_slash arg)]
  rfl

/-- The directory is neither the source nor the `.am` file. -/
theorem outputDir_ne_source (arg : Path) {extension : List UInt8}
    (hextension : extension ∈ sourceExtensions) : outputDir arg ≠ arg ++ extension := by
  intro hsame
  obtain ⟨hlong, hdot⟩ : 0 < extension.length ∧ '.'.toUInt8 ∈ extension := by
    simp only [sourceExtensions, List.mem_cons, List.not_mem_nil, or_false] at hextension
    rcases hextension with rfl | rfl <;> decide
  rw [outputDir_eq] at hsame
  split at hsame
  · have hshort : (cutAtDot (baseName arg)).length ≤ arg.length := by
      refine Nat.le_trans ?_ (baseName_length arg)
      rw [cutAtDot]
      cases strrchr '.'.toUInt8 (baseName arg) with
      | none => exact Nat.le_refl _
      | some i => exact List.length_take_le' i _
    have hlength := congrArg List.length hsame
    rw [List.length_append] at hlength
    omega
  · rename_i hnone
    have hmem : '.'.toUInt8 ∈ baseName arg ++ bytes "_output" := by
      rw [hsame]
      exact List.mem_append_right _ hdot
    exact (List.mem_append.mp hmem).elim hnone (by decide)

section Work

variable {host : Host} {arg : Path} {files : FileSystem} {contents : List UInt8}

/-- Only what is in its place decides whether the directory can be made. -/
theorem creates_iff : Creates host files (outputDir arg) ↔
    files (outputDir arg) ≠ none ∨ host.creatable (outputDir arg) = true := by
  simp [Creates, parent_outputDir]

variable (hsource : files (arg ++ bytes ".as") = some (.file contents))
  (hreadable : host.readable (arg ++ bytes ".as") = true) (hplain : eofChar ∉ contents)

include hsource hreadable hplain

/-- The work on a source is what the stages up to the analyzer leave and, if they
accept it, what comes from the directory on. -/
theorem processFile_run (hfits : StringFits (fileText contents)) : ∃ compiled,
    (∀ path, path ≠ arg ++ bytes ".am" → compiled path = files path) ∧
    ((∃ text, processFile host arg files = .ok (text, compiled)) ∧
        (∀ lexer unit analyzer, ¬ FrontEnd arg contents lexer unit analyzer) ∨
      ∃ lexer unit analyzer, FrontEnd arg contents lexer unit analyzer ∧
        (∀ lexer' unit' analyzer', FrontEnd arg contents lexer' unit' analyzer' →
          unit' = unit ∧ analyzer' = analyzer) ∧
        compiled = processedFiles host arg contents files ∧
        (∀ worked files',
          generateCode host arg lexer unit analyzer compiled = .ok (worked, files') →
          ∃ text, processFile host arg files = .ok (text, files')) ∧
        ∀ fault, generateCode host arg lexer unit analyzer compiled = .error fault →
          processFile host arg files = .error fault) := by
  obtain ⟨analyzed, compiled, hcompile, hframe, haccepted⟩ :=
    @compileSource_run host arg contents hplain hfits files
  refine ⟨compiled, hframe, ?_⟩
  have hwork : processFile host arg files = (do
      let worked ← finishSource host arg analyzed
      pure (bytes "Processing file: " ++ arg ++ bytes "\n" ++ worked.text ++
        if worked.finished then bytes "Finished processing file: " ++ arg ++ bytes "\n\n"
        else []) : Driver (List UInt8)) compiled := by
    rw [processFile, run_bind (readFile_run host hsource hreadable), workOn, bind_assoc,
      run_bind hcompile]
  cases hresult : analyzed.accepted with
  | none =>
      refine Or.inl ⟨?_, fun lexer unit analyzer h => ?_⟩
      · rw [hwork, finishSource, hresult]
        exact ⟨_, rfl⟩
      · rw [(haccepted lexer unit analyzer).1.mpr h] at hresult
        cases hresult
  | some result =>
      obtain ⟨lexer, unit, analyzer⟩ := result
      have hfront := (haccepted lexer unit analyzer).1.mp hresult
      refine Or.inr ⟨lexer, unit, analyzer, hfront, fun lexer' unit' analyzer' h => ?_,
        (haccepted lexer unit analyzer).2 hfront, fun worked files' hgenerate => ?_,
        fun fault hgenerate => ?_⟩
      · rw [(haccepted lexer' unit' analyzer').1.mpr h] at hresult
        have hsame := Prod.mk.inj (Prod.mk.inj (Option.some.inj hresult)).2
        exact hsame
      · rw [hwork, finishSource, hresult]
        exact ⟨_, run_bind (run_bind hgenerate)⟩
      · rw [hwork, finishSource, hresult]
        exact run_bind_error (run_bind_error hgenerate)

omit hplain in
/-- A text that is too long for a string ends the program. -/
theorem processFile_full (hfull : ¬ StringFits (fileText contents)) :
    processFile host arg files = .error .memoryError := by
  rw [processFile, run_bind (readFile_run host hsource hreadable), workOn, bind_assoc]
  exact run_bind_error (compileSource_full host hfull files)

omit hplain in
/-- A source whose work comes to its end has a text that fits. -/
theorem processFile_stringFits {r : List UInt8 × FileSystem}
    (hrun : processFile host arg files = .ok r) : StringFits (fileText contents) := by
  by_contra hfull
  rw [processFile_full hsource hreadable hfull] at hrun
  cases hrun

/-- The files behind a source that has passed the stages up to the analyzer. -/
def assembledFiles (host : Host) (arg : Path) (contents : List UInt8)
    (analyzer : SemanticAnalyzer) (unit : TranslationUnit) (files : FileSystem) : FileSystem :=
  let compiled := processedFiles host arg contents files
  if Creates host compiled (outputDir arg) then
    if unit.memoryUsed ≤ maxPosition then
      withProgram host (withDirectory host compiled (outputDir arg)) (outputFile arg) analyzer
        unit.placed
    else withDirectory host compiled (outputDir arg)
  else compiled

/-- **What the work on a source leaves behind.**  Where a stage up to the analyzer
reports something, nothing but the `.am` file changes; a source that passes them
has its text copied to that file, its directory made and, if it fits in the
memory, exactly its words and symbols written there. -/
theorem processFile_leaves {text : List UInt8} {files' : FileSystem}
    (hrun : processFile host arg files = .ok (text, files')) :
    ((∀ lexer unit analyzer, ¬ FrontEnd arg contents lexer unit analyzer) →
      ∀ path, path ≠ arg ++ bytes ".am" → files' path = files path) ∧
    ∀ lexer unit analyzer, FrontEnd arg contents lexer unit analyzer →
      files' = assembledFiles host arg contents analyzer unit files := by
  obtain ⟨compiled, hframe, hcases⟩ := processFile_run hsource hreadable hplain
    (processFile_stringFits hsource hreadable hrun)
  rcases hcases with
    ⟨⟨text', hreject⟩, hrejected⟩ |
      ⟨lexer, unit, analyzer, hfront, hunique, hcompiled, hcomes, hfaults⟩
  · obtain ⟨-, rfl⟩ := Prod.mk.inj (Except.ok.inj (hrun.symm.trans hreject))
    exact ⟨fun _ => hframe, fun lexer unit analyzer h => absurd h (hrejected lexer unit analyzer)⟩
  refine ⟨fun h => absurd hfront (h lexer unit analyzer), fun lexer' unit' analyzer' hfront' => ?_⟩
  obtain ⟨rfl, rfl⟩ := hunique _ _ _ hfront'
  cases hcode : generateCode host arg lexer unit' analyzer' compiled with
  | error fault =>
      rw [hfaults fault hcode] at hrun
      cases hrun
  | ok worked =>
      obtain ⟨text', hgenerate⟩ := hcomes worked.1 worked.2 hcode
      obtain ⟨-, rfl⟩ := Prod.mk.inj (Except.ok.inj (hrun.symm.trans hgenerate))
      obtain ⟨-, hleaves⟩ := @generateCode_comes host arg _ _ _ hfront.passed compiled
      rw [assembledFiles, ← hcompiled]
      exact hleaves _ _ hcode

end Work

/-- A source that is one instruction: the object file has its word. -/
theorem processFile_leaves_sample : ∃ text files',
    processFile sampleHost (bytes "a") sampleFiles = .ok (text, files') ∧
      files' (bytes "a_output/a.ob.ob") = some (.file (bytes " 1 0\n0100 74004\n")) ∧
      ∀ lexer unit analyzer, FrontEnd (bytes "a") (bytes "A: stop\n") lexer unit analyzer →
        files' = assembledFiles sampleHost (bytes "a") (bytes "A: stop\n") analyzer unit
          sampleFiles := by
  have hreturns : (match processFile sampleHost (bytes "a") sampleFiles with
      | .ok (_, files') => decide (files' (bytes "a_output/a.ob.ob") =
          some (.file (bytes " 1 0\n0100 74004\n")))
      | .error _ => false) = true := by decide +kernel
  cases hrun : processFile sampleHost (bytes "a") sampleFiles with
  | error fault =>
      rw [hrun] at hreturns
      cases hreturns
  | ok result =>
      obtain ⟨text, files'⟩ := result
      rw [hrun] at hreturns
      have hsource : sampleFiles (bytes "a" ++ bytes ".as") =
          some (.file (bytes "A: stop\n")) := rfl
      obtain ⟨-, hleaves⟩ := processFile_leaves hsource rfl (by decide) hrun
      exact ⟨text, files', rfl, of_decide_eq_true hreturns, hleaves⟩

/-! ## Which sources pass -/

/-- Whether a unit is legal does not depend on the lexer. -/
theorem UnitLegal.of_lexer {lexer lexer' : Lexer} {blocks : List Block}
    (h : UnitLegal (lexer.unitOf blocks)) : UnitLegal (lexer'.unitOf blocks) :=
  ⟨h.distinct, h.entries, h.instructions, h.guidance⟩

/-- The tokens of a source that the parser gets: all of them, or all but the end
of the file where a definition has taken it along. -/
def parsedTokens (preprocessor : Preprocessor) (source : CString) (tokens : List Token) :
    List Token :=
  if ClosedByEof preprocessor.macroList source then tokens.dropLast else tokens

/-- **Which sources are accepted.**  Those without a lexical error and without a
broken definition whose own tokens, the lines of the definitions among them, are a
program that is legal: no use of a macro is ever replaced by its text. -/
theorem frontEnd_iff {arg : Path} {contents : List UInt8} (hplain : eofChar ∉ contents) :
    (∃ lexer unit analyzer, FrontEnd arg contents lexer unit analyzer) ↔
      (preprocessLexer arg contents).errorHandler.errorList = [] ∧
      ∃ preprocessor written ending blocks,
        preprocessedFile true (pathString arg) contents = .ok (preprocessor, written) ∧
        preprocessor.errorHandler.errorList = [] ∧
        Program ending (parsedTokens preprocessor (fileText contents)
          (preprocessLexer arg contents).tokenList) blocks ∧
        UnitLegal ((preprocessLexer arg contents).unitOf blocks) := by
  have hparsed : ∀ {preprocessor written}, (preprocessLexer arg contents).errorHandler.errorList =
      [] → preprocessedFile true (pathString arg) contents = .ok (preprocessor, written) →
      preprocessor.errorHandler.errorList = [] →
        (postprocessLexer preprocessor).tokenList = parsedTokens preprocessor (fileText contents)
          (preprocessLexer arg contents).tokenList := by
    intro preprocessor written hlexed hrun hclean
    obtain ⟨-, front, eof, htokens, -, hread⟩ :=
      @postprocessLexer_reads (pathString arg) _ hplain hlexed _ _ _ hrun hclean
    have hlist : (preprocessLexer arg contents).tokenList = front ++ [eof] := htokens
    rw [hread, parsedTokens, hlist, List.dropLast_concat]
  constructor
  · intro h
    obtain ⟨lexer, unit, analyzer, hfront⟩ := h
    obtain ⟨opens, preprocessor', written', hrun', hclean', hlexer⟩ := hfront.processed
    obtain ⟨preprocessor, written, hrun, hclean, hsame⟩ := preprocessedFile_opens hrun' hclean' true
    obtain ⟨ending, blocks, tokens, hprogram, rfl, -⟩ := parsedFrom_iff.mp hfront.passed.parsed
    obtain ⟨analyzer', hanalyzed, hlegal⟩ :=
      analyzeTranslationUnit_exact hfront.passed.parsed.formed lexer
    obtain rfl := Except.ok.inj (hfront.passed.analyzed.symm.trans hanalyzed)
    refine ⟨hfront.lexed, preprocessor, written, ending, blocks, hrun, hclean, ?_, ?_⟩
    · rw [← hparsed hfront.lexed hrun hclean, hsame, ← hlexer]
      exact hprogram
    · exact UnitLegal.of_lexer ((hlegal.mp hfront.passed.clean).setTokens [])
  · intro h
    obtain ⟨hlexed, preprocessor, written, ending, blocks, hrun, hclean, hprogram, hlegal⟩ := h
    rw [← hparsed hlexed hrun hclean] at hprogram
    obtain ⟨tokens, hparse⟩ :=
      @Program.parsed (parserInitializeTranslationUnit (postprocessLexer preprocessor)) _ _ hprogram
    have hunit := parsedFrom_iff.mpr ⟨ending, blocks, tokens, hprogram, rfl, hparse⟩
    obtain ⟨analyzer, hanalyzed, hexact⟩ :=
      analyzeTranslationUnit_exact hunit.formed (postprocessLexer preprocessor)
    exact ⟨_, _, analyzer, hlexed, ⟨true, preprocessor, written, hrun, hclean, rfl⟩,
      .string _ _, hunit, hanalyzed, hexact.mpr ((UnitLegal.of_lexer hlegal).setTokens tokens)⟩

/-- One line with a label. -/
theorem frontEnd_iff_sample :
    (∃ lexer unit analyzer, FrontEnd (bytes "a") (bytes "A: stop\n") lexer unit analyzer) ↔
      (preprocessLexer (bytes "a") (bytes "A: stop\n")).errorHandler.errorList = [] ∧
      ∃ preprocessor written ending blocks,
        preprocessedFile true (pathString (bytes "a")) (bytes "A: stop\n") =
          .ok (preprocessor, written) ∧
        preprocessor.errorHandler.errorList = [] ∧
        Program ending (parsedTokens preprocessor (fileText (bytes "A: stop\n"))
          (preprocessLexer (bytes "a") (bytes "A: stop\n")).tokenList) blocks ∧
        UnitLegal ((preprocessLexer (bytes "a") (bytes "A: stop\n")).unitOf blocks) :=
  frontEnd_iff (by decide)

end Assembler
