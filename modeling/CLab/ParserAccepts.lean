import CLab.ParserContent

/-!
# What the parser accepts

The tokens of a list tell how a program of it ends (`Program.ending_eq`), so a
list that is a program in one of the three ways is none in the others.  The
parser meets its grammar on every list that closes with the end of the file,
save the programs whose last `.data` line ends in a comma.
-/

namespace Assembler

/-- How a list ends: with its first end of the file, right behind a comma or
not, or without one.  A comma in a line of a macro counts as any token. -/
def endingFrom (skipping comma : Bool) : List Token → Ending
  | [] => .cut
  | token :: rest =>
      if token.type = .eoft then (if comma && !skipping then .comma else .closed)
      else if token.type = .eol then endingFrom false false rest
      else endingFrom (skipping || token.type = .macr || token.type = .endmacr)
        (token.type = .comma) rest

/-- The ending of a list from the start of a line. -/
def endingOf (tokens : List Token) : Ending := endingFrom false false tokens

/-- The ending of what a statement is followed by, unless it is cut off. -/
def endingBehind (ending : Ending) (rest : List Token) : Ending :=
  if ending = .closed then endingOf rest else ending

@[simp] theorem endingBehind_closed (rest : List Token) :
    endingBehind .closed rest = endingOf rest := rfl

/-- A token inside a line. -/
theorem endingFrom_cons {token : Token} (h : token.type ≠ .eoft ∧ token.type ≠ .eol ∧
    token.type ≠ .macr ∧ token.type ≠ .endmacr) (skipping comma : Bool) (rest : List Token) :
    endingFrom skipping comma (token :: rest) =
      endingFrom skipping (token.type = .comma) rest := by
  simp [endingFrom, h]

/-- A token inside a line that is no comma. -/
theorem endingFrom_plain {token : Token} (h : token.type ≠ .eoft ∧ token.type ≠ .eol ∧
    token.type ≠ .macr ∧ token.type ≠ .endmacr ∧ token.type ≠ .comma) (comma : Bool)
    (rest : List Token) : endingFrom false comma (token :: rest) = endingOf rest := by
  rw [endingFrom_cons ⟨h.1, h.2.1, h.2.2.1, h.2.2.2.1⟩, decide_eq_false h.2.2.2.2, endingOf]

/-- A line end does not change the ending. -/
theorem LineEnd.ending {after rest : List Token} (h : LineEnd after rest) :
    endingOf after = endingOf rest := by
  cases h with
  | eol heol => simp [endingOf, endingFrom, heol]
  | eoft => rfl
  | null => rfl

theorem Operand.ending {tokens rest : List Token} {operand : Token} {deref : Bool}
    (h : Operand tokens operand deref rest) (comma : Bool) :
    endingFrom false comma tokens = endingOf rest := by
  cases h with
  | immediate hhashtag hnumber =>
      rw [endingFrom_plain (by simp [hhashtag]), endingOf, endingFrom_plain (by simp [hnumber])]
  | direct hoperand =>
      exact endingFrom_plain (by rcases hoperand with h | h <;> simp [h]) comma _
  | dereferenced hstar hoperand =>
      rw [endingFrom_plain (by simp [hstar]), endingOf,
        endingFrom_plain (by rcases hoperand with h | h <;> simp [h])]

/-- A mnemonic is a plain token of its line. -/
theorem isInstructionToken_plain {type : TokenType} (h : isInstructionToken type = true) :
    type ≠ .eoft ∧ type ≠ .eol ∧ type ≠ .macr ∧ type ≠ .endmacr ∧ type ≠ .comma := by
  cases type <;> first | exact absurd h (by decide) | decide

/-- An instruction of the grammar has the ending that is read off the tokens. -/
theorem Instruction.ending_eq {ending : Ending} {tokens after : List Token}
    {node : InstructionNode} (h : Instruction ending tokens node after) :
    endingOf tokens = endingBehind ending after := by
  have hcomma : ∀ {comma : Token} {rest : List Token}, comma.type = .comma →
      endingOf (comma :: rest) = endingFrom false true rest := by
    intro comma rest hcomma
    rw [endingOf, endingFrom_cons (by simp [hcomma]), decide_eq_true hcomma]
  cases h with
  | noOperands hop _ => exact endingFrom_plain (isInstructionToken_plain hop) _ _
  | oneOperand hop hfirst _ =>
      rw [endingOf, endingFrom_plain (isInstructionToken_plain hop), endingOf, hfirst.ending]
      rfl
  | twoOperands hop hfirst htype hsecond _ =>
      rw [endingOf, endingFrom_plain (isInstructionToken_plain hop), endingOf, hfirst.ending,
        hcomma htype, hsecond.ending]
      rfl
  | cut hop hfirst htype =>
      rw [endingOf, endingFrom_plain (isInstructionToken_plain hop), endingOf, hfirst.ending,
        hcomma htype]
      rfl

theorem Numbers.ending_eq {ending : Ending} {tokens numbers rest : List Token}
    (h : Numbers ending tokens numbers rest) (comma : Bool) :
    endingFrom false comma tokens = endingBehind ending rest := by
  induction h generalizing comma with
  | last hnumber hend =>
      rw [endingFrom_plain (by simp [hnumber]), hend.ending]
      rfl
  | comma hnumber hcomma heof =>
      simp [endingFrom, hnumber, hcomma, heof, endingBehind]
  | cut hnumber hcomma => simp [endingFrom, hnumber, hcomma, endingBehind]
  | cons hnumber hcomma _ ih =>
      rw [endingFrom_plain (by simp [hnumber]), endingOf, endingFrom_cons (by simp [hcomma]),
        ih]

theorem GuidanceLine.ending_eq {ending : Ending} {tokens rest : List Token}
    {node : GuidanceNode} (h : GuidanceLine ending tokens node rest) :
    endingOf tokens = endingBehind ending rest := by
  cases h with
  | data hdirective hnumbers =>
      rw [endingOf, endingFrom_plain (by simp [hdirective]), endingOf, hnumbers.ending_eq]
  | string hdirective hstring hend =>
      rw [endingOf, endingFrom_plain (by simp [hdirective]), endingOf,
        endingFrom_plain (by simp [hstring]), hend.ending]
      rfl

theorem Lines.ending_eq {α : Type} {Line : Ending → List Token → α → List Token → Prop}
    (hline : ∀ {ending tokens node rest}, Line ending tokens node rest →
      endingOf tokens = endingBehind ending rest)
    {ending : Ending} {tokens rest : List Token} {nodes : List α}
    (h : Lines Line ending tokens nodes rest) :
    endingOf tokens = endingBehind ending rest := by
  induction h with
  | nil => rfl
  | blank heol _ ih =>
      rw [← ih]
      simp [endingOf, endingFrom, heol]
  | cons hread _ ih => rw [hline hread, endingBehind_closed, ih]
  | last _ hread => exact hline hread

theorem LabelColon.ending {label colon : Token} (h : LabelColon label colon)
    (rest : List Token) : endingOf (label :: colon :: rest) = endingOf rest := by
  rw [endingOf, endingFrom_plain (by simp [h.labelType]), endingOf,
    endingFrom_plain (by simp [h.colonType])]

theorem BlockLines.ending_eq {ending : Ending} {tokens rest : List Token} {block : Block}
    (h : BlockLines ending tokens block rest) :
    endingOf tokens = endingBehind ending rest := by
  cases h with
  | instructions hlabel hlines _ =>
      rw [hlabel.ending, hlines.ending_eq Instruction.ending_eq]
  | labelled hlabel hlines _ =>
      rw [hlabel.ending, hlines.ending_eq GuidanceLine.ending_eq]
  | unlabelled hlines _ => exact hlines.ending_eq GuidanceLine.ending_eq

/-- A line of a macro up to its end. -/
theorem endingFrom_skipped {line after rest : List Token} (hend : LineEnd after rest)
    (hline : ∀ t ∈ line, t.type ≠ .eol ∧ t.type ≠ .eoft) (comma : Bool) :
    endingFrom true comma (line ++ after) = endingOf rest := by
  induction line generalizing comma with
  | nil =>
      cases hend with
      | eol heol => simp [endingOf, endingFrom, heol]
      | eoft heoft => simp [endingOf, endingFrom, heoft]
      | null => rfl
  | cons token line ih =>
      have htoken := hline token (by simp)
      have hrest := fun comma => ih (fun t ht => hline t (by simp [ht])) comma
      simp [endingFrom, htoken, hrest]

/-- **The tokens of a program tell how it ends.** -/
theorem Program.ending_eq {ending : Ending} {tokens : List Token} {blocks : List Block}
    (h : Program ending tokens blocks) : endingOf tokens = ending := by
  induction h with
  | eoft heof => simp [endingOf, endingFrom, heof]
  | null => rfl
  | blank heol _ ih =>
      rw [← ih]
      simp [endingOf, endingFrom, heol]
  | skipped htoken hline hend _ ih =>
      rw [← ih, ← endingFrom_skipped hend hline false]
      rcases htoken with htoken | htoken <;> simp [endingOf, endingFrom, htoken]
  | external hdirective hlabel hend _ ih =>
      rw [endingOf, endingFrom_plain (by simp [hdirective]), endingOf,
        endingFrom_plain (by simp [hlabel]), hend.ending, ih]
  | entry hdirective hlabel hend _ ih =>
      rw [endingOf, endingFrom_plain (by simp [hdirective]), endingOf,
        endingFrom_plain (by simp [hlabel]), hend.ending, ih]
  | block hblock _ ih => rw [hblock.ending_eq, endingBehind_closed, ih]
  | lastBlock hending hblock => rw [hblock.ending_eq, endingBehind, if_neg hending]
  | labelCut hlabel hblanks =>
      rw [hlabel.ending]
      rename_i blanks
      induction blanks with
      | nil => rfl
      | cons blank blanks ih =>
          rw [← ih (fun t ht => hblanks t (by simp [ht]))]
          simp [endingOf, endingFrom, hblanks blank (by simp)]

/-- A list with an end of file is not cut off. -/
theorem endingFrom_of_eoft {tokens : List Token} {eof : Token} (hmem : eof ∈ tokens)
    (heof : eof.type = .eoft) (skipping comma : Bool) :
    endingFrom skipping comma tokens ≠ .cut := by
  induction tokens generalizing skipping comma with
  | nil => exact absurd hmem List.not_mem_nil
  | cons token rest ih =>
      rw [endingFrom]
      by_cases htype : token.type = .eoft
      · rw [if_pos htype]
        split_ifs <;> simp
      · have hrest : eof ∈ rest := by
          rcases List.mem_cons.mp hmem with rfl | hrest
          · exact absurd heof htype
          · exact hrest
        rw [if_neg htype]
        split_ifs
        · exact ih hrest _ _
        · exact ih hrest _ _

/-- So a file is not. -/
theorem EndsFile.not_cut {tokens : List Token} (h : EndsFile tokens) :
    endingOf tokens ≠ .cut := by
  obtain ⟨before, eof, rfl, heof⟩ := h
  exact endingFrom_of_eoft (by simp) heof _ _

/-! ## The grammar of the language -/

/-- The unit as the main loop starts with it. -/
def TranslationUnit.cleared (unit : TranslationUnit) : TranslationUnit :=
  { unit with
    externalList := []
    entryList := []
    instructionLabelList := []
    guidanceLabelList := [] }

/-- The parser is its loop on a cleared unit. -/
theorem parseTranslationUnitContent_eq (unit : TranslationUnit) :
    parseTranslationUnitContent unit = contentLoop (.ok unit.cleared) := rfl

/-- What the parser makes of a program. -/
theorem Program.parsed {unit : TranslationUnit} {ending : Ending} {blocks : List Block}
    (h : Program ending unit.tokens blocks) :
    ∃ tokens, parseTranslationUnitContent unit =
      .ok (unit.cleared.withBlocks (mergeBlocks blocks) tokens) := by
  obtain ⟨tokens, -, hloop⟩ := h.parses unit.cleared
  have hcursor : unit.cleared.setTokens unit.tokens = unit.cleared := rfl
  rw [hcursor] at hloop
  exact ⟨tokens, hloop⟩

/-- The parser returns, adds no error exactly if its list is a program that
ends with a closed line, and has then gathered the statements of the program. -/
def ReadsGrammar (unit : TranslationUnit) : Prop :=
  ∃ unit', parseTranslationUnitContent unit = .ok unit' ∧
    (unit'.errorHandler.errorList = unit.errorHandler.errorList ↔
      ∃ blocks, Program .closed unit.tokens blocks) ∧
    (unit'.errorHandler.errorList = unit.errorHandler.errorList →
      ∃ blocks, Program .closed unit.tokens blocks ∧
        unit' = unit.cleared.withBlocks (mergeBlocks blocks) unit'.tokens)

/-- A list without an error is a program of the grammar, with some ending. -/
theorem program_of_no_error {unit unit' : TranslationUnit}
    (hparse : parseTranslationUnitContent unit = .ok unit')
    (herrors : unit'.errorHandler.errorList = unit.errorHandler.errorList) :
    ∃ ending blocks, Program ending unit.tokens blocks :=
  (contentLoop_sound hparse).2 (congrArg List.length herrors)

/-- **The parser reads its grammar**, unless a `.data` line that ends in a comma
is all that is wrong with the list: at the end of the file nothing is expected
behind the comma, where in front of an end of line a number is. -/
theorem parseTranslationUnitContent_readsGrammar {unit : TranslationUnit}
    (hend : EndsFile unit.tokens) :
    ReadsGrammar unit ↔ ¬ ∃ blocks, Program .comma unit.tokens blocks := by
  constructor
  · intro h hcomma
    obtain ⟨unit', hparse, haccepts, -⟩ := h
    obtain ⟨blocks, hcomma⟩ := hcomma
    obtain ⟨tokens, hparsed⟩ := hcomma.parsed
    obtain rfl := Except.ok.inj (hparse.symm.trans hparsed)
    obtain ⟨blocks', hclosed⟩ := haccepts.mp rfl
    exact absurd (hcomma.ending_eq.symm.trans hclosed.ending_eq) (by decide)
  · intro hcomma
    have htotal : EndsFile unit.cleared.tokens := hend
    obtain ⟨unit', hparse⟩ := contentLoop_total htotal
    rw [← parseTranslationUnitContent_eq] at hparse
    have hclosed : unit'.errorHandler.errorList = unit.errorHandler.errorList →
        ∃ blocks, Program .closed unit.tokens blocks := by
      intro herrors
      obtain ⟨ending, blocks, hprogram⟩ := program_of_no_error hparse herrors
      have hcut := hend.not_cut
      rw [hprogram.ending_eq] at hcut
      cases ending with
      | closed => exact ⟨blocks, hprogram⟩
      | comma => exact absurd ⟨blocks, hprogram⟩ hcomma
      | cut => exact absurd rfl hcut
    have hread : ∀ {blocks}, Program .closed unit.tokens blocks →
        unit' = unit.cleared.withBlocks (mergeBlocks blocks) unit'.tokens := by
      intro blocks hprogram
      obtain ⟨tokens, hparsed⟩ := hprogram.parsed
      obtain rfl := Except.ok.inj (hparse.symm.trans hparsed)
      rfl
    refine ⟨unit', hparse, ⟨hclosed, ?_⟩, ?_⟩
    · intro h
      obtain ⟨blocks, hprogram⟩ := h
      rw [hread hprogram]
      rfl
    · intro herrors
      obtain ⟨blocks, hprogram⟩ := hclosed herrors
      exact ⟨blocks, hprogram, hread hprogram⟩

/-- The unit the parser starts with on a text. -/
def parserSample (text : String) : TranslationUnit :=
  parserInitializeTranslationUnit (lexerAnalyze (lexerInitializeFromFile "sample" (bytes text)))

/-- Whether a list ends a file is seen at its last token. -/
theorem endsFile_of_getLast {tokens : List Token}
    (h : (tokens.getLast?.map Token.type) = some .eoft) : EndsFile tokens := by
  obtain ⟨eof, hlast, heof⟩ := Option.map_eq_some_iff.mp h
  obtain ⟨before, hsplit⟩ := List.getLast?_eq_some_iff.mp hlast
  exact ⟨before, eof, hsplit, heof⟩

/-- Symbols, an unlabelled directive, instructions and labelled directives. -/
def sampleProgram : String :=
  ".extern E\n.data 3\nA: mov r1, X\njmp E\n.entry X\nX: .data 1, -2\n.string \"ab\"\n"

/-- The sample does. -/
theorem parserSample_endsFile : EndsFile (parserSample sampleProgram).tokens :=
  endsFile_of_getLast (by decide +kernel)

/-- Whether it is accepted is a question about the grammar. -/
theorem parserSample_readsGrammar : EndsFile (parserSample sampleProgram).tokens ∧
    (ReadsGrammar (parserSample sampleProgram) ↔
      ¬ ∃ blocks, Program .comma (parserSample sampleProgram).tokens blocks) :=
  ⟨parserSample_endsFile, parseTranslationUnitContent_readsGrammar parserSample_endsFile⟩

/-- A comma in front of the end of the file is accepted, and it ends no line of
the language. -/
theorem parser_accepts_trailing_comma :
    EndsFile (parserSample ".data 1,").tokens ∧ ¬ ReadsGrammar (parserSample ".data 1,") := by
  refine ⟨endsFile_of_getLast (by decide +kernel), ?_⟩
  intro h
  obtain ⟨unit', hparse, haccepts, -⟩ := h
  have hrun : ((parseTranslationUnitContent (parserSample ".data 1,")).toOption.map
      (fun unit => unit.errorHandler.errorList)) = some [] := by decide +kernel
  rw [hparse] at hrun
  have hnone : (parserSample ".data 1,").errorHandler.errorList = [] := rfl
  obtain ⟨blocks, hclosed⟩ := haccepts.mp ((Option.some.inj hrun).trans hnone.symm)
  have hending : endingOf (parserSample ".data 1,").tokens = .comma := by decide +kernel
  exact absurd (hclosed.ending_eq.symm.trans hending) (by decide)

end Assembler
