import CLab.MacroCollection
import CLab.ParserAccepts
import CLab.ParserReads
import Mathlib.Logic.Relation

/-!
# The front end terminates

Every loop of the lexer, the preprocessor and the parser is a loop of the model
with a bound.  Here the loops are taken as they are written, without a bound,
and end: the lexer on every text, the preprocessor on the tokens of a text that
end with the end of the file, wherever its cursor stands, and the parser on
every such list of tokens.
-/

namespace Assembler

open While (Exits)

/-! ## The lexer -/

/-- The copying loop of a tokenizer goes on. -/
def scanGoesOn (accepts : CString → UInt8 → Bool) (s : CString × Lexer) : Bool :=
  s.2.currentChar != 0 && s.2.currentChar != eofChar && accepts s.1 s.2.currentChar

/-- One character is copied. -/
def scanRound (s : CString × Lexer) : CString × Lexer :=
  (stringAppendChar s.1 s.2.currentChar, lexerAdvanceCharacter s.2)

/-- One round of `lexer_analyze` leads from one lexer to the other. -/
def LexerRound (lexer lexer' : Lexer) : Prop :=
  lexer.currentChar ≠ 0 ∧ lexer' = lexerAnalyzeRound lexer

/-- The main loop of the lexer ends, and so does the loop of every tokenizer
it may begin. -/
structure LexerTerminates (input : LexerInput) : Prop where
  analyze : Exits (fun l => l.currentChar != 0) lexerAnalyzeRound input.lexer
    (lexerAnalyze input.lexer)
  scan : ∀ lexer, Relation.ReflTransGen LexerRound input.lexer lexer → lexer.currentChar ≠ 0 →
    ∀ accepts, Exits (scanGoesOn accepts) scanRound (stringCreate, lexer)
      (lexerScan accepts lexer)

/-- A scan stops at the character that it does not accept. -/
theorem lexerScan_exits (accepts : CString → UInt8 → Bool) {lexer : Lexer}
    (hs : lexer.Synced) :
    Exits (scanGoesOn accepts) scanRound (stringCreate, lexer) (lexerScan accepts lexer) := by
  refine While.loop_exits (fun s : CString × Lexer => s.2.Synced) ?_ ?_ hs
  · intro s _ _
    exact Lexer.Synced.advance s.2
  · intro s hgo hsync
    apply remaining_advance_lt hsync
    simp only [scanGoesOn, Bool.and_eq_true, bne_iff_ne] at hgo
    exact hgo.1.1

/-- A round that is begun takes the next lexeme. -/
theorem Lexer.Synced.round {lexer : Lexer} (hs : lexer.Synced) (hc : lexer.currentChar ≠ 0) :
    ∃ c cs, lexer.rest = c :: cs ∧ lexerAnalyzeRound lexer = lexer.take (nextLexeme c cs) :=
  ⟨_, _, hs.rest_eq_cons hc, lexerAnalyzeRound_eq hs (hs.rest_eq_cons hc)⟩

/-- The lexer stops at the end of its text. -/
theorem lexerAnalyze_exits {lexer : Lexer} (hs : lexer.Synced) :
    Exits (fun l => l.currentChar != 0) lexerAnalyzeRound lexer (lexerAnalyze lexer) := by
  refine While.loop_exits Lexer.Synced ?_ ?_ hs
  · intro l hgo hsync
    obtain ⟨c, cs, -, hround⟩ := hsync.round (bne_iff_ne.mp hgo)
    rw [hround]
    exact hsync.take _
  · intro l hgo hsync
    obtain ⟨c, cs, hrest, hround⟩ := hsync.round (bne_iff_ne.mp hgo)
    obtain ⟨t, htext, -⟩ := nextLexeme_text c cs
    have hlt : l.index < l.sourceCode.data.length := by
      by_contra hge
      rw [Lexer.rest, List.drop_of_length_le (by omega)] at hrest
      cases hrest
    rw [hround, Lexer.remaining, Lexer.remaining, take_index, take_sourceCode, htext,
      List.length_cons]
    omega

/-- No round brings the lexer out of step. -/
theorem synced_of_rounds {start lexer : Lexer} (hs : start.Synced)
    (hreach : Relation.ReflTransGen LexerRound start lexer) : lexer.Synced := by
  induction hreach with
  | refl => exact hs
  | tail _ hround ih =>
      obtain ⟨hc, rfl⟩ := hround
      obtain ⟨c, cs, -, hround⟩ := ih.round hc
      rw [hround]
      exact ih.take _

/-- **The lexer terminates** on every text. -/
theorem LexerInput.terminates (input : LexerInput) : LexerTerminates input := by
  rcases input.synced_or_nothing with hs | ⟨-, hchar⟩
  · exact ⟨lexerAnalyze_exits hs, fun lexer hreach _ accepts =>
      lexerScan_exits accepts (synced_of_rounds hs hreach)⟩
  · -- no round is made
    have hexit : lexerAnalyze input.lexer = input.lexer :=
      While.loop_exit (by rw [hchar]; rfl)
    refine ⟨hexit.symm ▸ .done (by rw [hchar]; rfl), ?_⟩
    intro lexer hreach hc
    rcases hreach.cases_head with rfl | ⟨next, hround, -⟩
    · exact absurd hchar hc
    · exact absurd hchar hround.1

/-! ## The preprocessor -/

/-- Collecting the macros follows no `NULL`, and from any cursor among the
tokens the expansion ends. -/
def PreprocessorTerminates (input : LexerInput) (filePath : String) : Prop :=
  ∃ generated, preprocessorGenerateMacroList
      (preprocessorInitialize (lexerAnalyze input.lexer) filePath) input.source =
        .ok generated ∧
    ∀ cursor, cursor <:+ input.tokens →
      let start : Expansion :=
        { index := 0
          currentToken := cursor
          processedSource := generated.processedSource }
      ∃ last, Exits (fun s => decide (s.index < stringLength input.source))
          (expandRound generated.macroList input.source) start last ∧
        (preprocessorExpandMacros { generated with tokens := cursor }
          input.source).processedSource =
          last.processedSource

/-- The expansion ends whatever the macros and the cursor. -/
theorem expandLoop_exits (macroList : List Macro) (source : CString) (s : Expansion) :
    Exits (fun s => decide (s.index < stringLength source)) (expandRound macroList source) s
      (expandLoop macroList source s) :=
  While.loop_exits (fun _ => True) (fun _ _ _ => trivial)
    (fun _ hg _ => expandRound_remaining macroList (of_decide_eq_true hg)) trivial

/-- In front of the end of the file a definition has the tokens it reads. -/
theorem EndsFile.not_cutOff {defined : List Macro} {rest : List Token} (h : EndsFile rest) :
    ¬ CutOff defined rest := by
  intro hcases
  rcases hcases with hnil | ⟨name, hname, htype, -⟩
  · exact h.ne_nil hnil
  · rw [hname] at h
    have hrest := h.of_cons (by rw [htype]; decide)
    exact hrest.ne_nil rfl

/-- On a file the macros are collected without a fault. -/
theorem generateMacroListFrom_returns {preprocessor : Preprocessor} {source : CString}
    {tokens : List Token} (h : EndsFile tokens) :
    ∃ generated, generateMacroListFrom preprocessor source tokens = .ok generated := by
  induction tokens generalizing preprocessor with
  | nil => exact absurd rfl h.ne_nil
  | cons t rest ih =>
      by_cases heof : t.type = .eoft
      · exact ⟨_, by rw [generateMacroListFrom, if_pos heof]⟩
      have hrest := h.of_cons heof
      by_cases hmacr : t.type = .macr
      · rw [generateMacroListFrom_macr hmacr]
        have houtcome : CreateOutcome preprocessor source t rest _ :=
          preprocessorCreateMacro_outcome hmacr
        generalize preprocessorCreateMacro { preprocessor with tokens := t :: rest } source =
          result at houtcome
        cases houtcome with
        | cutOff hcut => exact absurd hcut hrest.not_cutOff
        | refused => exact ih hrest
        | recorded => exact ih hrest
        | missed => exact ih hrest
      · rw [generateMacroListFrom, if_neg heof, if_neg hmacr]
        exact ih hrest

/-- On a file all loops of the preprocessor stop. -/
theorem LexerInput.preprocessorTerminates (input : LexerInput) (filePath : String)
    (h : EndsFile input.tokens) : PreprocessorTerminates input filePath := by
  have hreturns : ∃ generated, preprocessorGenerateMacroList
      (preprocessorInitialize (lexerAnalyze input.lexer) filePath) input.source =
        .ok generated := generateMacroListFrom_returns h
  obtain ⟨generated, hgen⟩ := hreturns
  exact ⟨generated, hgen, fun cursor _ => ⟨_, expandLoop_exits _ _ _, rfl⟩⟩

/-! ## The parser -/

/-- The main loop of the parser and the loops of its lists end, the main loop
at the first end-of-file token. -/
structure ParserTerminates (unit : TranslationUnit) : Prop where
  content : ∃ unit', Exits contentGoesOn (fun run => run.bind contentRound)
      (.ok unit.cleared) (.ok unit') ∧
    parseTranslationUnitContent unit = .ok unit' ∧
    ∃ passed eof rest, unit.tokens = passed ++ eof :: rest ∧ (∀ t ∈ passed, t.type ≠ .eoft) ∧
      eof.type = .eoft ∧ unit'.tokens = eof :: rest
  instructionList : ∀ unit' : TranslationUnit,
    Exits (fun s => listGoesOn isInstructionToken s.1) instructionListRound (unit', [])
      (parserParseInstructionList unit')
  guidanceList : ∀ unit' : TranslationUnit,
    Exits (fun s => listGoesOn isGuidanceToken s.1) guidanceListRound (unit', [])
      (parserParseGuidanceList unit')

/-- The tokens from the first end-of-file token on. -/
def fromEoft (tokens : List Token) : List Token :=
  tokens.dropWhile fun t => t.type ≠ .eoft

/-- What is no end of file is passed over. -/
theorem fromEoft_cons {t : Token} {rest : List Token} (ht : t.type ≠ .eoft) :
    fromEoft (t :: rest) = fromEoft rest := by
  rw [fromEoft, List.dropWhile_cons_of_pos (by simpa using ht)]
  rfl

theorem fromEoft_endOfLine (tokens : List Token) :
    fromEoft (endOfLine tokens) = fromEoft tokens := by
  induction tokens with
  | nil => rfl
  | cons t rest ih =>
      rw [endOfLine]
      split_ifs with heol heof
      · exact (fromEoft_cons (by rw [heol]; decide)).symm
      · rfl
      · rw [ih, fromEoft_cons heof]

theorem fromEoft_skipEol (tokens : List Token) :
    fromEoft (skipEol tokens) = fromEoft tokens := by
  induction tokens with
  | nil => rfl
  | cons t rest ih =>
      by_cases heol : t.type = .eol
      · rw [skipEol_eol heol, ih, fromEoft_cons (by rw [heol]; decide)]
      · rw [skipEol_of_ne heol]

/-- Lines do not reach over an end-of-file token. -/
theorem fromEoft_invariant (target : List Token) :
    LineInvariant fun tokens => fromEoft tokens = target where
  blank := by
    intro t rest heol
    rw [fromEoft_cons (by rw [heol]; decide)]
  label := by
    intro name colon rest hlabel
    rw [fromEoft_cons (by rw [hlabel.labelType]; decide),
      fromEoft_cons (by rw [hlabel.colonType]; decide), fromEoft_endOfLine, fromEoft_skipEol]
  line := by
    intro t rest hne _ _
    rw [fromEoft_cons hne.2, fromEoft_endOfLine]

/-- At the end nothing is. -/
theorem fromEoft_atEnd {tokens : List Token} (h : AtEnd tokens) : fromEoft tokens = tokens := by
  rcases h with rfl | ⟨eof, rest, rfl, heof⟩
  · rfl
  · rw [fromEoft, List.dropWhile_cons_of_neg (by simp [heof])]

/-- In a list that ends with the end of the file there is a first such token. -/
theorem EndsFile.first {tokens : List Token} (h : EndsFile tokens) :
    ∃ passed eof rest, tokens = passed ++ eof :: rest ∧ (∀ t ∈ passed, t.type ≠ .eoft) ∧
      eof.type = .eoft ∧ fromEoft tokens = eof :: rest := by
  induction tokens with
  | nil => exact absurd rfl h.ne_nil
  | cons t rest ih =>
      by_cases heof : t.type = .eoft
      · exact ⟨[], t, rest, rfl, by simp, heof, fromEoft_atEnd (Or.inr ⟨t, rest, rfl, heof⟩)⟩
      · obtain ⟨passed, eof, rest', hsplit, hpassed, htype, hfirst⟩ := ih (h.of_cons heof)
        refine ⟨t :: passed, eof, rest', by rw [hsplit]; rfl, ?_, htype, ?_⟩
        · intro u hu
          rcases List.mem_cons.mp hu with rfl | hu
          · exact heof
          · exact hpassed u hu
        · rw [fromEoft_cons heof, hfirst]

/-- The loop over the unit stops where its condition fails. -/
theorem contentLoop_exits (run : Except Fault TranslationUnit) :
    Exits contentGoesOn (fun run => run.bind contentRound) run (contentLoop run) :=
  While.loop_exits (fun _ => True) (fun _ _ _ => trivial)
    (fun _ hg _ => contentRound_remaining hg) trivial

/-- The loop of a list ends. -/
theorem LineReader.loop_exits {α : Type}
    {Line : Ending → List Token → α → List Token → Prop} {accepts : TokenType → Bool}
    {round : TranslationUnit × List α → TranslationUnit × List α}
    (reader : LineReader Line accepts round) (s : TranslationUnit × List α) :
    Exits (fun s => listGoesOn accepts s.1) round s (listLoop accepts round s) :=
  While.loop_exits (fun _ => True) (fun _ _ _ => trivial)
    (fun _ hg _ => reader.round_length hg) trivial

/-- **The parser terminates** at the first end-of-file token. -/
theorem TranslationUnit.parserTerminates (unit : TranslationUnit) (h : EndsFile unit.tokens) :
    ParserTerminates unit where
  content := by
    have hreturns : ∃ unit', contentLoop (.ok unit.cleared) = .ok unit' := contentLoop_total h
    obtain ⟨unit', hloop⟩ := hreturns
    refine ⟨unit', hloop ▸ contentLoop_exits (.ok unit.cleared), hloop, ?_⟩
    obtain ⟨passed, eof, rest, hsplit, hpassed, heof, hfirst⟩ := h.first
    refine ⟨passed, eof, rest, hsplit, hpassed, heof, ?_⟩
    rcases (fromEoft_invariant (eof :: rest)).contentLoop unit.cleared with
      ⟨unit'', hloop', hend, hsame⟩ | ⟨hfault, -⟩
    · obtain rfl := Except.ok.inj (hloop.symm.trans hloop')
      rw [← fromEoft_atEnd hend]
      exact hsame.mpr hfirst
    · rw [hloop] at hfault
      cases hfault
  instructionList := by
    intro unit'
    rw [parserParseInstructionList_eq]
    exact instructionReader.loop_exits (unit', [])
  guidanceList := by
    intro unit'
    rw [parserParseGuidanceList_eq]
    exact guidanceReader.loop_exits (unit', [])

/-- **The front end terminates**: the lexer on every text, the preprocessor on
its tokens when they end with the end of the file, and the parser on every list
of tokens that does. -/
theorem frontEnd_terminates :
    (∀ input : LexerInput, LexerTerminates input) ∧
    (∀ (input : LexerInput) (filePath : String), EndsFile input.tokens →
      PreprocessorTerminates input filePath) ∧
    (∀ unit : TranslationUnit, EndsFile unit.tokens → ParserTerminates unit) :=
  ⟨LexerInput.terminates, LexerInput.preprocessorTerminates,
    TranslationUnit.parserTerminates⟩

/-- One line with a label. -/
theorem frontEnd_terminates_sample :
    EndsFile (LexerInput.file "sample" (bytes "A: stop\n")).tokens ∧
      PreprocessorTerminates (.file "sample" (bytes "A: stop\n")) "sample" ∧
      ParserTerminates (parserSample "A: stop\n") :=
  have hend : EndsFile (parserSample "A: stop\n").tokens := endsFile_of_getLast (by decide +kernel)
  ⟨hend, frontEnd_terminates.2.1 _ _ hend, frontEnd_terminates.2.2 _ hend⟩

end Assembler
