import CLab.LexerTokens
import CLab.Preprocessor
import Mathlib.Data.List.Basic

/-!
# What preprocessing does to a text

`MacroText` describes the token lists of texts whose macro definitions are
well formed, and `MacrosExpanded` says what a preprocessed text should be.
The pass that records the macros leaves the token cursor at the first
end-of-file token, so the pass that expands them copies everything in front of
it: the definitions of a text are never removed.
-/

namespace Assembler

/-! ## Texts with macros -/

/-- A definition: the name of the macro and the tokens of its body. -/
structure MacroDefinition where
  name : CString
  body : List Token

/-- The tokens of the body lines of a definition: none of them opens or closes
a definition, and the last line is ended. -/
structure BodyLines (body : List Token) : Prop where
  plain : ∀ t ∈ body, t.type ≠ .macr ∧ t.type ≠ .endmacr
  ended : body = [] ∨ ∃ lines eol, body = lines ++ [eol] ∧ eol.type = .eol

/-- The tokens of a text, its definitions in order, and the tokens outside of
them.  A definition starts at the start of a line, and its last line is ended
by an end of line, which belongs to it, or by the end of the file, which does
not. -/
inductive MacroText : Bool → List Token → List MacroDefinition → List Token → Prop
  | nil (lineStart : Bool) : MacroText lineStart [] [] []
  | token (lineStart : Bool) {t : Token} {tokens outside : List Token}
      {definitions : List MacroDefinition}
      (hplain : t.type ≠ .macr ∧ t.type ≠ .endmacr)
      (tail : MacroText (t.type = .eol) tokens definitions outside) :
      MacroText lineStart (t :: tokens) definitions (t :: outside)
  | definition {opener name newline closer eol : Token} {body tokens outside : List Token}
      {definitions : List MacroDefinition}
      (hopener : opener.type = .macr) (hname : name.type = .identifier)
      (hnewline : newline.type = .eol) (hbody : BodyLines body)
      (hcloser : closer.type = .endmacr) (heol : eol.type = .eol)
      (tail : MacroText true tokens definitions outside) :
      MacroText true (opener :: name :: newline :: (body ++ closer :: eol :: tokens))
        (⟨name.string, body⟩ :: definitions) outside
  | definitionAtEnd {opener name newline closer eof : Token} {body tokens outside : List Token}
      {definitions : List MacroDefinition}
      (hopener : opener.type = .macr) (hname : name.type = .identifier)
      (hnewline : newline.type = .eol) (hbody : BodyLines body)
      (hcloser : closer.type = .endmacr) (heof : eof.type = .eoft)
      (tail : MacroText true (eof :: tokens) definitions outside) :
      MacroText true (opener :: name :: newline :: (body ++ closer :: eof :: tokens))
        (⟨name.string, body⟩ :: definitions) outside

/-- What stands for a token outside the definitions: the body of the macro it
names, without the end of its last line, or the token itself. -/
def expandToken (definitions : List MacroDefinition) (t : Token) : List Token :=
  match definitions.find? (fun d => t.type = .identifier ∧ d.name = t.string) with
  | some d => d.body.dropLast
  | none => [t]

theorem expandToken_eof (definitions : List MacroDefinition) {t : Token} (ht : t.type = .eoft) :
    expandToken definitions t = [t] := by
  have hnone : definitions.find? (fun d => t.type = .identifier ∧ d.name = t.string) = none := by
    simp [ht]
  simp only [expandToken, hnone]

/-- The tokens `main` reads from a preprocessed text. -/
def processedTokens (processedSource : CString) : List Token :=
  (lexerAnalyze (lexerInitializeFromString "from_string.am" processedSource)).tokenList

/-- The text in which the definitions have been removed and every use of a
macro replaced by its body: the tokens it lexes to. -/
structure MacrosExpanded (definitions : List MacroDefinition) (outside : List Token)
    (processedSource : CString) : Prop where
  tokens : (processedTokens processedSource).map Token.kind =
    (outside.flatMap (expandToken definitions)).map Token.kind
  plain : ∀ t ∈ processedTokens processedSource, t.type ≠ .macr ∧ t.type ≠ .endmacr

/-- A text without definitions is all outside, and has no macro tokens. -/
theorem MacroText.no_definitions {lineStart : Bool} {tokens outside : List Token}
    (h : MacroText lineStart tokens [] outside) :
    outside = tokens ∧ ∀ t ∈ tokens, t.type ≠ .macr ∧ t.type ≠ .endmacr := by
  generalize hdefs : ([] : List MacroDefinition) = definitions at h
  induction h with
  | nil => simp
  | token _ hplain _ ih =>
      obtain ⟨rfl, hall⟩ := ih hdefs
      exact ⟨rfl, by simpa using ⟨hplain, hall⟩⟩
  | definition => cases hdefs
  | definitionAtEnd => cases hdefs

/-- The first definition of a text: its `macr` is the first, and a name comes
after it. -/
theorem MacroText.first_definition {lineStart : Bool} {tokens outside : List Token}
    {definitions : List MacroDefinition}
    (h : MacroText lineStart tokens definitions outside) (hdefs : definitions ≠ []) :
    ∃ before opener name after, tokens = before ++ opener :: name :: after ∧
      opener.type = .macr ∧ name.type = .identifier ∧
      ∀ t ∈ before, t.type ≠ .macr := by
  induction h with
  | nil => exact absurd rfl hdefs
  | @token _ t _ _ _ hplain _ ih =>
      obtain ⟨before, opener, name, after, rfl, hopener, hname, hbefore⟩ := ih hdefs
      exact ⟨t :: before, opener, name, after, rfl, hopener, hname,
        by simpa using ⟨hplain.1, hbefore⟩⟩
  | definition hopener hname =>
      exact ⟨[], _, _, _, rfl, hopener, hname, by simp⟩
  | definitionAtEnd hopener hname =>
      exact ⟨[], _, _, _, rfl, hopener, hname, by simp⟩

/-- The last token of a text with a definition in front is that of the text
behind the definition. -/
theorem getLast?_behind_definition (opener name newline closer : Token) (body : List Token)
    {tokens : List Token} (htokens : tokens ≠ []) :
    (opener :: name :: newline :: (body ++ closer :: tokens)).getLast? = tokens.getLast? := by
  have hsplit : opener :: name :: newline :: (body ++ closer :: tokens) =
      (opener :: name :: newline :: (body ++ [closer])) ++ tokens := by simp
  rw [hsplit, List.getLast?_append_of_ne_nil _ htokens]

/-- The end of the file is outside every definition. -/
theorem MacroText.eof_outside {lineStart : Bool} {tokens outside : List Token}
    {definitions : List MacroDefinition} {eof : Token}
    (h : MacroText lineStart tokens definitions outside)
    (hlast : tokens.getLast? = some eof) (heof : eof.type = .eoft) : eof ∈ outside := by
  induction h with
  | nil => simp at hlast
  | @token _ t tokens outside _ _ tail ih =>
      cases tokens with
      | nil =>
          obtain rfl : t = eof := by simpa using hlast
          exact List.mem_cons_self
      | cons next tokens =>
          rw [List.getLast?_cons_cons] at hlast
          exact List.mem_cons_of_mem _ (ih hlast)
  | @definition opener name newline closer eol body tokens outside _ _ _ _ _ _ heol _ ih =>
      rw [getLast?_behind_definition _ _ _ _ _ (List.cons_ne_nil _ _)] at hlast
      cases tokens with
      | nil =>
          obtain rfl : eol = eof := by simpa using hlast
          rw [heol] at heof
          exact absurd heof (by decide)
      | cons next tokens =>
          rw [List.getLast?_cons_cons] at hlast
          exact ih hlast
  | @definitionAtEnd opener name newline closer eof' body tokens outside _ _ _ _ _ _ _ _ ih =>
      rw [getLast?_behind_definition _ _ _ _ _ (List.cons_ne_nil _ _)] at hlast
      exact ih hlast

/-! ## The pass that records the macros -/

theorem generateMacroListFrom_tokens {preprocessor preprocessor' : Preprocessor}
    {source : CString} {tokens : List Token}
    (h : generateMacroListFrom preprocessor source tokens = .ok preprocessor') :
    preprocessor'.tokens = tokens.dropWhile (fun t => t.type != .eoft) := by
  induction tokens generalizing preprocessor with
  | nil =>
      obtain rfl := Except.ok.inj h
      rfl
  | cons current rest ih =>
      unfold generateMacroListFrom at h
      split at h
      · rename_i heof
        obtain rfl := Except.ok.inj h
        simp [heof]
      · rename_i heof
        have hdrop : (current :: rest).dropWhile (fun t => t.type != .eoft) =
            rest.dropWhile (fun t => t.type != .eoft) := by simp [heof]
        rw [hdrop]
        split at h
        · cases hcreate : preprocessorCreateMacro
              { preprocessor with tokens := current :: rest } source with
          | error fault =>
              rw [hcreate] at h
              cases h
          | ok created =>
              rw [hcreate] at h
              exact ih h
        · exact ih h

/-- Without a `macr` in front of the end of the file nothing is recorded. -/
theorem generateMacroListFrom_plain (preprocessor : Preprocessor) (source : CString)
    {tokens : List Token}
    (h : ∀ t ∈ tokens.takeWhile (fun t => t.type != .eoft), t.type ≠ .macr) :
    generateMacroListFrom preprocessor source tokens =
      .ok { preprocessor with tokens := tokens.dropWhile (fun t => t.type != .eoft) } := by
  induction tokens with
  | nil => rfl
  | cons current rest ih =>
      unfold generateMacroListFrom
      by_cases heof : current.type = .eoft
      · simp [heof]
      · have hcurrent : current.type ≠ .macr := h current (by simp [heof])
        have hrest : ∀ t ∈ rest.takeWhile (fun t => t.type != .eoft), t.type ≠ .macr :=
          fun t ht => h t (by simp [heof, ht])
        rw [if_neg heof, if_neg hcurrent, ih hrest]
        simp [heof]

/-! ## The pass that copies the text -/

/-- Every round of the expansion goes forward. -/
theorem expandRound_remaining (macroList : List Macro) {source : CString} {s : Expansion}
    (hs : s.index < stringLength source) :
    (expandRound macroList source s).remaining source < s.remaining source := by
  obtain ⟨index, tokens, processed⟩ := s
  unfold expandRound
  cases tokens with
  | nil =>
      simp only [Expansion.remaining, copyCharacter] at hs ⊢
      omega
  | cons token rest =>
      simp only
      split
      · rename_i hindex
        split
        · rename_i endIndex huse
          have hspan : index ≤ endIndex := by
            obtain ⟨m, -, hm⟩ := List.exists_of_findSome?_eq_some huse
            split at hm
            · rename_i hspan
              simp only [Option.some.injEq, MacroUse.definition.injEq] at hm
              omega
            · split at hm <;> simp at hm
          have hdrop := (List.dropWhile_suffix (l := token :: rest)
            (fun t => decide (t.index ≤ endIndex))).length_le
          simp only [Expansion.remaining] at hs ⊢
          omega
        · cases rest with
          | nil => simp only [Expansion.remaining, List.length_nil, List.length_cons]; omega
          | cons newline rest =>
              by_cases hnewline : newline.type = .eol
              all_goals
                simp only [Expansion.remaining, hnewline, if_true, if_false, List.length_cons]
                omega
        · simp only [Expansion.remaining, List.length_cons]
          omega
      · simp only [Expansion.remaining, copyCharacter, List.length_cons] at hs ⊢
        omega

/-- The text written is never taken back. -/
theorem expandRound_extends (macroList : List Macro) (source : CString) (s : Expansion) :
    s.processedSource.data <+: (expandRound macroList source s).processedSource.data := by
  have hcopy : ∀ c, s.processedSource.data <+: (stringAppendChar s.processedSource c).data := by
    intro c
    unfold stringAppendChar
    split
    · exact List.prefix_rfl
    · exact List.prefix_append _ _
  unfold expandRound
  split
  · exact hcopy _
  · split
    · split
      · exact List.prefix_rfl
      · split <;> simp
      · simp
    · exact hcopy _

theorem stringCharAt_append {source : CString} {i : Nat} (hi : i < source.data.length)
    {text : CString} (htext : text.data = source.data.take i) :
    (stringAppendChar text (stringCharAt source i)).data = source.data.take (i + 1) := by
  rw [stringAppendChar_data (stringCharAt_ne_zero_iff.mpr hi), htext, stringCharAt,
    List.getD_eq_getElem _ _ hi, List.take_append_getElem hi]

/-- The loop rule for the expansion: at the end the whole text has been gone
through. -/
theorem expandLoop_rule {macroList : List Macro} {source : CString} (inv : Expansion → Prop)
    (hbody : ∀ s, s.index < source.data.length → inv s → inv (expandRound macroList source s))
    {s : Expansion} (hs : inv s) :
    inv (expandLoop macroList source s) ∧
      source.data.length ≤ (expandLoop macroList source s).index := by
  have h : inv (expandLoop macroList source s) ∧
      decide ((expandLoop macroList source s).index < stringLength source) = false :=
    While.loop_rule inv (fun s hg hi => hbody s (of_decide_eq_true hg) hi)
      (fun s hg _ => expandRound_remaining macroList (of_decide_eq_true hg)) hs
  exact ⟨h.1, Nat.le_of_not_lt (of_decide_eq_false h.2)⟩

/-- **Everything in front of the first token of the cursor is copied.** -/
theorem expandLoop_copies (macroList : List Macro) {source : CString} (tokens : List Token)
    {k : Nat} (hk : k ≤ source.data.length) (htokens : ∀ t ∈ tokens.head?, t.index = k) :
    source.data.take k <+:
      (expandLoop macroList source
        { index := 0, currentToken := tokens, processedSource := stringCreate }
      ).processedSource.data := by
  let inv : Expansion → Prop := fun s =>
    (s.index ≤ k ∧ s.currentToken = tokens ∧ s.processedSource.data = source.data.take s.index) ∨
      source.data.take k <+: s.processedSource.data
  have hbody : ∀ s, s.index < source.data.length → inv s →
      inv (expandRound macroList source s) := by
    intro s hs hcases
    rcases hcases with ⟨hle, hcur, hproc⟩ | hpre
    · by_cases hlt : s.index < k
      · have hround : expandRound macroList source s = copyCharacter source s := by
          unfold expandRound
          rw [hcur]
          cases htok : tokens with
          | nil => rfl
          | cons token rest =>
              have hne : s.index ≠ token.index := by
                have := htokens token (by simp [htok])
                omega
              simp [hne]
        rw [hround]
        exact Or.inl ⟨hlt, hcur, stringCharAt_append hs hproc⟩
      · refine Or.inr (List.IsPrefix.trans ?_ (expandRound_extends macroList source s))
        have hsame : s.index = k := by omega
        exact (hproc.trans (by rw [hsame])).symm ▸ List.prefix_rfl
    · exact Or.inr (hpre.trans (expandRound_extends macroList source s))
  obtain ⟨⟨hle, -, hproc⟩ | hpre, hend⟩ := expandLoop_rule inv hbody
    (s := { index := 0, currentToken := tokens, processedSource := stringCreate })
    (Or.inl ⟨Nat.zero_le k, rfl, rfl⟩)
  · rw [hproc]
    exact List.take_prefix_take_left (by omega)
  · exact hpre

/-- **Without macros the expansion copies its text.** -/
theorem expandLoop_no_macros {source : CString} {tokens : List Token}
    (htokens : ∀ t ∈ tokens, TokenSlice source.data t) :
    (expandLoop [] source
      { index := 0, currentToken := tokens, processedSource := stringCreate }
    ).processedSource = source := by
  let inv : Expansion → Prop := fun s =>
    s.index ≤ source.data.length ∧ s.processedSource.data = source.data.take s.index ∧
      ∀ t ∈ s.currentToken, TokenSlice source.data t
  have hcopy : ∀ s, s.index < source.data.length → inv s → inv (copyCharacter source s) :=
    fun s hs h => ⟨hs, stringCharAt_append hs h.2.1, h.2.2⟩
  have hbody : ∀ s, s.index < source.data.length → inv s → inv (expandRound [] source s) := by
    intro s hs h
    unfold expandRound
    cases hcur : s.currentToken with
    | nil => exact hcopy s hs h
    | cons token rest =>
        by_cases hindex : s.index = token.index
        · have hslice : token.string.data <+: source.data.drop s.index :=
            hindex ▸ h.2.2 token (by rw [hcur]; exact List.mem_cons_self)
          have hlen := hslice.length_le
          rw [List.length_drop] at hlen
          simp only [hindex, if_true, macroUse, List.findSome?_nil]
          refine ⟨?_, ?_, fun t ht => h.2.2 t (by rw [hcur]; exact List.mem_cons_of_mem _ ht)⟩
          · simp only [stringLength]
            omega
          · simp only [stringAppend_data, stringLength]
            rw [h.2.1, List.take_add, ← hindex, ← List.prefix_iff_eq_take.mp hslice]
        · simp only [hindex, if_false]
          exact hcopy s hs h
  obtain ⟨⟨-, hproc, -⟩, hend⟩ := expandLoop_rule inv hbody
    (s := { index := 0, currentToken := tokens, processedSource := stringCreate })
    ⟨Nat.zero_le _, rfl, htokens⟩
  exact CString.ext (hproc.trans (List.take_of_length_le hend))

/-! ## Both passes -/

section Process

variable (opens : Bool) (path : String) (contents : List UInt8)

/-- The lexer `main` hands to the preprocessor. -/
def lexedFile : Lexer := lexerAnalyze (lexerInitializeFromFile path contents)

/-- The preprocessor of `main`, on the lexer's full token list. -/
def preprocessedFile : Except Fault (Preprocessor × Option (List UInt8)) :=
  preprocessorProcess opens (preprocessorInitialize (lexedFile path contents) path)
    (lexedFile path contents).sourceCode

theorem fileText_data : ∃ front, (fileText contents).data = front ++ [eofChar] :=
  ⟨_, stringAppendChar_data (by decide)⟩

/-- The lexemes behind the tokens of a file. -/
theorem lexedFile_lexes : ∃ xs, Lexes (fileText contents).data xs ∧
    (lexedFile path contents).tokenList =
      placeTokens (lexerInitializeFromFile path contents) xs ∧
    (lexedFile path contents).sourceCode = fileText contents := by
  obtain ⟨xs, hlex, heq⟩ := @lexerAnalyze_eq (lexerInitializeFromFile path contents) rfl
  refine ⟨xs, hlex, ?_, ?_⟩
  · rw [lexedFile, heq, takeAll_tokenList]
    rfl
  · rw [lexedFile, heq, takeAll_sourceCode]
    rfl

/-- The lexemes of a processed text. -/
theorem processedTokens_lexes (processedSource : CString) :
    ∃ xs, Lexes processedSource.data xs ∧
      (processedTokens processedSource).map Token.kind = xs.filterMap Lexeme.kind := by
  obtain ⟨xs, hlex, heq⟩ :=
    @lexerAnalyze_eq (lexerInitializeFromString "from_string.am" processedSource) rfl
  refine ⟨xs, by simpa [Lexer.rest, lexerInitializeFromString] using hlex, ?_⟩
  rw [processedTokens, heq, takeAll_tokenList, ← placeTokens_kind]
  rfl

/-- The last token of a file is an end-of-file token. -/
theorem lexedFile_eof : ∃ eof, (lexedFile path contents).tokenList.getLast? = some eof ∧
    eof.type = .eoft := by
  obtain ⟨xs, hlex, htokens, -⟩ := lexedFile_lexes path contents
  obtain ⟨front, hfront⟩ := fileText_data contents
  obtain ⟨ys, rfl⟩ := hlex.eof_last hfront
  refine ⟨Lexeme.tokenAt ⟨[eofChar], some .eoft, none⟩
    ((lexerInitializeFromFile path contents).takeAll ys) .eoft, ?_, rfl⟩
  rw [htokens, placeTokens_append]
  exact List.getLast?_append_of_ne_nil _ (List.cons_ne_nil _ _)

/-- Lexing the text of a file again gives the same tokens. -/
theorem processedTokens_fileText : (processedTokens (fileText contents)).map Token.kind =
    (lexedFile path contents).tokenList.map Token.kind := by
  refine lexerAnalyze_kind rfl rfl ?_ rfl rfl
  simp [Lexer.rest, lexerInitializeFromString, lexerInitializeFromFile]

variable {path contents}

/-- All that the reading of a definition can do: report one error, or record one
macro. -/
theorem preprocessorCreateMacro_cases {preprocessor preprocessor' : Preprocessor}
    {source : CString} (h : preprocessorCreateMacro preprocessor source = .ok preprocessor') :
    (∃ token message, preprocessor' = preprocessor.addError token message) ∨
      ∃ newMacro, preprocessor' = preprocessorAppendMacro preprocessor newMacro := by
  unfold preprocessorCreateMacro at h
  split at h
  · cases h
  split at h
  · exact Or.inl ⟨_, _, (Except.ok.inj h).symm⟩
  split at h
  · cases h
  split at h
  · exact Or.inl ⟨_, _, (Except.ok.inj h).symm⟩
  split at h
  · exact Or.inl ⟨_, _, (Except.ok.inj h).symm⟩
  split at h
  · cases h
  split at h
  · exact Or.inl ⟨_, _, (Except.ok.inj h).symm⟩
  split at h
  · exact Or.inl ⟨_, _, (Except.ok.inj h).symm⟩
  · exact Or.inr ⟨_, (Except.ok.inj h).symm⟩

theorem preprocessorCreateMacro_processedSource {preprocessor preprocessor' : Preprocessor}
    {source : CString} (h : preprocessorCreateMacro preprocessor source = .ok preprocessor') :
    preprocessor'.processedSource = preprocessor.processedSource := by
  obtain ⟨_, _, rfl⟩ | ⟨_, rfl⟩ := preprocessorCreateMacro_cases h <;> rfl

theorem generateMacroListFrom_processedSource {preprocessor preprocessor' : Preprocessor}
    {source : CString} {tokens : List Token}
    (h : generateMacroListFrom preprocessor source tokens = .ok preprocessor') :
    preprocessor'.processedSource = preprocessor.processedSource := by
  induction tokens generalizing preprocessor with
  | nil =>
      obtain rfl := Except.ok.inj h
      rfl
  | cons current rest ih =>
      unfold generateMacroListFrom at h
      split at h
      · obtain rfl := Except.ok.inj h
        rfl
      · split at h
        · cases hcreate : preprocessorCreateMacro
              { preprocessor with tokens := current :: rest } source with
          | error fault =>
              rw [hcreate] at h
              cases h
          | ok created =>
              rw [hcreate] at h
              rw [ih h, preprocessorCreateMacro_processedSource hcreate]
        · exact ih h

/-- `preprocessor_process` on a text whose macros have been recorded: with
errors nothing is written, without them the text is that of the expansion. -/
theorem preprocessorProcess_of_generated (opens : Bool) {preprocessor generated : Preprocessor}
    {source : CString} (h : preprocessorGenerateMacroList preprocessor source = .ok generated) :
    ∃ processed written,
      preprocessorProcess opens preprocessor source = .ok (processed, written) ∧
      processed.processedSource =
        if generated.errorHandler.errorList = [] then
          (preprocessorExpandMacros generated source).processedSource
        else generated.processedSource := by
  simp only [preprocessorProcess, h, bind, Except.bind]
  by_cases herrors : generated.errorHandler.errorList = []
  · simp only [herrors, ne_eq, not_true_eq_false, if_false, if_true]
    cases opens <;> exact ⟨_, _, rfl, rfl⟩
  · simp only [herrors, ne_eq, not_false_eq_true, if_true, if_false]
    exact ⟨_, _, rfl, rfl⟩

/-- A run of `preprocessor_process`: it stopped with errors and nothing
written, or its text is that of the expansion. -/
theorem preprocessedFile_ok {opens : Bool} {preprocessor : Preprocessor}
    {written : Option (List UInt8)}
    (h : preprocessedFile opens path contents = .ok (preprocessor, written)) :
    preprocessor.processedSource = stringCreate ∨
      ∃ generated, preprocessorGenerateMacroList
          (preprocessorInitialize (lexedFile path contents) path)
          (lexedFile path contents).sourceCode = .ok generated ∧
        preprocessor.processedSource = (expandLoop generated.macroList
          (lexedFile path contents).sourceCode
          { index := 0
            currentToken := generated.tokens
            processedSource := stringCreate }).processedSource := by
  cases hgen : preprocessorGenerateMacroList
      (preprocessorInitialize (lexedFile path contents) path)
      (lexedFile path contents).sourceCode with
  | error fault =>
      simp [preprocessedFile, preprocessorProcess, hgen, bind, Except.bind] at h
  | ok generated =>
      have hproc : generated.processedSource = stringCreate :=
        generateMacroListFrom_processedSource hgen
      obtain ⟨processed, _, hrun, htext⟩ := preprocessorProcess_of_generated opens hgen
      obtain ⟨rfl, -⟩ := Prod.mk.inj (Except.ok.inj (hrun.symm.trans h))
      split at htext
      · refine Or.inr ⟨generated, rfl, ?_⟩
        rw [htext, preprocessorExpandMacros, hproc]
      · exact Or.inl (htext.trans hproc)

/-- Without a `macr` in front of the first end-of-file token the text of a file
is left as it is. -/
theorem preprocessedFile_plain (opens : Bool)
    (h : ∀ t ∈ (lexedFile path contents).tokenList.takeWhile (fun t => t.type != .eoft),
      t.type ≠ .macr) :
    ∃ preprocessor written, preprocessedFile opens path contents = .ok (preprocessor, written) ∧
      preprocessor.processedSource = fileText contents := by
  obtain ⟨xs, hlex, htokens, hsource⟩ := lexedFile_lexes path contents
  have hgen : preprocessorGenerateMacroList (preprocessorInitialize (lexedFile path contents) path)
      (lexedFile path contents).sourceCode = _ :=
    generateMacroListFrom_plain _ (lexedFile path contents).sourceCode h
  have hslices : ∀ t ∈ (lexedFile path contents).tokenList.dropWhile (fun t => t.type != .eoft),
      TokenSlice (fileText contents).data t := by
    intro t ht
    apply @placeTokens_slice (lexerInitializeFromFile path contents) xs hlex t
    rw [← htokens]
    exact (List.dropWhile_suffix _).subset ht
  obtain ⟨processed, written, hrun, htext⟩ := preprocessorProcess_of_generated opens hgen
  refine ⟨processed, written, hrun, ?_⟩
  have herrors : (preprocessorInitialize (lexedFile path contents) path).errorHandler.errorList =
      [] := rfl
  rw [htext, if_pos herrors, hsource]
  exact expandLoop_no_macros hslices

/-- The cursor stands on the first end of the file, behind the name of a
definition that was met. -/
theorem generateMacroListFrom_cursor {generated : Preprocessor}
    (hgen : preprocessorGenerateMacroList (preprocessorInitialize (lexedFile path contents) path)
      (lexedFile path contents).sourceCode = .ok generated)
    {before after : List Token} {opener name : Token}
    (hsplit : (lexedFile path contents).tokenList = before ++ opener :: name :: after)
    (hopener : opener.type = .macr) (hname : name.type ≠ .eoft)
    (hbefore : ∀ t ∈ before, t.type ≠ .eoft) :
    ∃ between first behind, after = between ++ first :: behind ∧
      generated.tokens = first :: behind := by
  obtain ⟨eof, hlast, heof⟩ := lexedFile_eof path contents
  have hparts := List.takeWhile_append_dropWhile (p := fun t => t.type != .eoft) (l := after)
  cases hdrop : after.dropWhile (fun t => t.type != .eoft) with
  | nil =>
      have hall := List.dropWhile_eq_nil_iff.mp hdrop
      have hmem : eof ∈ before ++ opener :: name :: after :=
        hsplit ▸ List.mem_of_getLast? hlast
      simp only [List.mem_append, List.mem_cons] at hmem
      rcases hmem with hmem | rfl | rfl | hmem
      · exact absurd heof (hbefore eof hmem)
      · rw [hopener] at heof
        exact absurd heof (by decide)
      · exact absurd heof hname
      · simpa [heof] using hall eof hmem
  | cons first behind =>
      refine ⟨_, first, behind, hdrop ▸ hparts.symm, ?_⟩
      have htok : (preprocessorInitialize (lexedFile path contents) path).tokens =
          before ++ opener :: name :: after := hsplit
      rw [generateMacroListFrom_tokens hgen, htok,
        List.dropWhile_append_of_pos (by simpa using hbefore), ← hdrop]
      simp [hopener, hname]

/-- Two tokens and one behind them are lexemes in this order. -/
theorem placeTokens_pair {lexer : Lexer} {xs : List Lexeme} {before between behind : List Token}
    {opener name first : Token}
    (h : placeTokens lexer xs = before ++ opener :: name :: (between ++ first :: behind)) :
    ∃ us y v vs x zs, xs = us ++ y :: v :: vs ++ x :: zs ∧ y.type = some opener.type ∧
      first = x.tokenAt (lexer.takeAll (us ++ y :: v :: vs)) first.type := by
  rw [← List.cons_append, ← List.cons_append, ← List.append_assoc] at h
  obtain ⟨ys, x, zs, rfl, -, hfirst, hys, -⟩ := placeTokens_split h
  obtain ⟨us, y, vs, rfl, hy, -, -, hvs⟩ := placeTokens_split hys
  cases vs with
  | nil => simp [placeTokens] at hvs
  | cons v vs => exact ⟨us, y, v, vs, x, zs, rfl, hy, hfirst⟩

/-- **A definition in front of the first end-of-file token stays in the text**:
its `macr` is a token of the preprocessed text. -/
theorem preprocessedFile_keeps_macr {opens : Bool} {preprocessor : Preprocessor}
    {written : Option (List UInt8)}
    (h : preprocessedFile opens path contents = .ok (preprocessor, written))
    (hdone : preprocessor.processedSource ≠ stringCreate)
    {before after : List Token} {opener name : Token}
    (hsplit : (lexedFile path contents).tokenList = before ++ opener :: name :: after)
    (hopener : opener.type = .macr) (hname : name.type ≠ .eoft)
    (hbefore : ∀ t ∈ before, t.type ≠ .eoft) :
    ∃ t ∈ processedTokens preprocessor.processedSource, t.type = .macr := by
  obtain ⟨xs, hlex, htokens, hsource⟩ := lexedFile_lexes path contents
  obtain hnone | ⟨generated, hgen, hprocessed⟩ := preprocessedFile_ok h
  · exact absurd hnone hdone
  obtain ⟨between, first, behind, rfl, hcursor⟩ :=
    generateMacroListFrom_cursor hgen hsplit hopener hname hbefore
  rw [hsplit] at htokens
  obtain ⟨us, y, v, vs, x, zs, rfl, hy, hfirst⟩ := placeTokens_pair htokens.symm
  -- the lexemes of the `macr` and of the name end in front of the cursor
  have hv : 0 < v.text.length := hlex.text_pos v (by simp)
  have hindex : first.index = (lexemesText (us ++ y :: v :: vs)).length := by
    rw [hfirst]
    exact (takeAll_index _ _).trans (Nat.zero_add _)
  have hk : first.index ≤ (fileText contents).data.length := by
    rw [hindex, ← hlex.text_eq]
    simp
  have hpre := expandLoop_copies generated.macroList (first :: behind) hk (by simp)
  rw [← hcursor, ← hsource, ← hprocessed, hsource] at hpre
  have hlex' : Lexes (fileText contents).data ((us ++ [y]) ++ (v :: vs ++ x :: zs)) := by
    simpa using hlex
  obtain ⟨ws, hws⟩ := hlex'.keep_front (by rw [hindex]; simp; omega) hk hpre
  -- so the `macr` is read again
  obtain ⟨xs', hxs', hkinds⟩ := processedTokens_lexes preprocessor.processedSource
  rw [hxs'.unique hws] at hkinds
  have hmem : (TokenType.macr, stringCreateFromCstr y.text) ∈
      (processedTokens preprocessor.processedSource).map Token.kind := by
    rw [hkinds, List.mem_filterMap]
    exact ⟨y, by simp, by simp [Lexeme.kind, hy, hopener]⟩
  obtain ⟨t, ht, hkind⟩ := List.mem_map.mp hmem
  exact ⟨t, ht, congrArg Prod.fst hkind⟩

/-- A definition that is expanded still leaves a `macr` in the text. -/
theorem MacroText.keeps_macr {opens : Bool} {definitions : List MacroDefinition}
    {outside : List Token}
    (htext : MacroText true (lexedFile path contents).tokenList definitions outside)
    (hdefs : definitions ≠ []) {preprocessor : Preprocessor} {written : Option (List UInt8)}
    (hrun : preprocessedFile opens path contents = .ok (preprocessor, written))
    (hexpanded : MacrosExpanded definitions outside preprocessor.processedSource) :
    ∃ t ∈ processedTokens preprocessor.processedSource, t.type = .macr := by
  obtain ⟨before, opener, name, after, hsplit, hopener, hname, hbefore⟩ :=
    htext.first_definition hdefs
  by_cases heof : ∀ t ∈ before, t.type ≠ .eoft
  · refine preprocessedFile_keeps_macr hrun ?_ hsplit hopener (by simp [hname]) heof
    -- after errors the text is empty, and not even the end of the file is left
    intro hnone
    obtain ⟨eof, hlast, heof⟩ := lexedFile_eof path contents
    have houtside := htext.eof_outside hlast heof
    have hkept : eof ∈ outside.flatMap (expandToken definitions) :=
      List.mem_flatMap.mpr ⟨eof, houtside, by rw [expandToken_eof definitions heof]; simp⟩
    have htokens := hexpanded.tokens
    rw [hnone] at htokens
    have hempty : processedTokens stringCreate = [] := rfl
    rw [hempty, List.map_nil, eq_comm, List.map_eq_nil_iff] at htokens
    rw [htokens] at hkept
    exact List.not_mem_nil hkept
  · -- behind the first end of the file nothing is a definition
    have hplain : ∀ t ∈ (lexedFile path contents).tokenList.takeWhile
        (fun t => t.type != .eoft), t.type ≠ .macr := by
      intro t ht
      rw [hsplit, List.takeWhile_append] at ht
      split at ht
      · rename_i hlen
        have hall := List.takeWhile_eq_self_iff.mp
          ((List.takeWhile_prefix _).eq_of_length hlen)
        exact absurd (fun u hu => by simpa using hall u hu) heof
      · exact hbefore t (List.takeWhile_subset _ ht)
    obtain ⟨preprocessor', written', hrun', hsame⟩ := preprocessedFile_plain opens hplain
    obtain ⟨rfl, -⟩ := Prod.mk.inj (Except.ok.inj (hrun.symm.trans hrun'))
    have hmem : opener.kind ∈ (processedTokens preprocessor.processedSource).map Token.kind := by
      rw [hsame, processedTokens_fileText path, hsplit]
      simp
    obtain ⟨t, ht, hkind⟩ := List.mem_map.mp hmem
    exact ⟨t, ht, (congrArg Prod.fst hkind).trans hopener⟩

/-- A text without a definition is its own expansion. -/
theorem MacroText.expanded_of_no_definitions (opens : Bool) {outside : List Token}
    (htext : MacroText true (lexedFile path contents).tokenList [] outside) :
    ∃ preprocessor written,
      preprocessedFile opens path contents = .ok (preprocessor, written) ∧
        MacrosExpanded [] outside preprocessor.processedSource := by
  obtain ⟨rfl, hplain⟩ := htext.no_definitions
  obtain ⟨preprocessor, written, hrun, hsame⟩ := preprocessedFile_plain opens
    (fun t ht => (hplain t (List.takeWhile_subset _ ht)).1)
  refine ⟨preprocessor, written, hrun, ?_, ?_⟩
  · have hid : expandToken [] = fun t => [t] := rfl
    rw [hsame, processedTokens_fileText path, hid, List.flatMap_singleton']
  · intro t ht
    have hmem : t.kind ∈ (lexedFile path contents).tokenList.map Token.kind := by
      rw [← processedTokens_fileText path, ← hsame]
      exact List.mem_map_of_mem ht
    obtain ⟨u, hu, hkind⟩ := List.mem_map.mp hmem
    have htype : u.type = t.type := congrArg Prod.fst hkind
    exact htype ▸ hplain u hu

/-- **What preprocessing does to definitions.**  The preprocessed text of a file
is the text with its definitions removed and its macros expanded exactly when
there is no definition in it: any definition is left where it stands, because
the pass that records the macros leaves the cursor behind them. -/
theorem preprocessedFile_expanded_iff (opens : Bool) (path : String) (contents : List UInt8)
    {definitions : List MacroDefinition} {outside : List Token}
    (htext : MacroText true (lexedFile path contents).tokenList definitions outside) :
    (∃ preprocessor written,
      preprocessedFile opens path contents = .ok (preprocessor, written) ∧
        MacrosExpanded definitions outside preprocessor.processedSource) ↔ definitions = [] := by
  constructor
  · intro hfacts
    obtain ⟨preprocessor, written, hrun, hexpanded⟩ := hfacts
    by_contra hdefs
    obtain ⟨t, ht, hmacr⟩ := htext.keeps_macr hdefs hrun hexpanded
    exact (hexpanded.plain t ht).1 hmacr
  · intro heq
    obtain rfl := heq
    exact htext.expanded_of_no_definitions opens

end Process

/-! ## A text with one definition -/

def macroSample : List UInt8 := bytes "macr M\nstop\nendmacr\nM\n"

/-- A token of a text that is written out. -/
def sampleToken (type : TokenType) (line indexInLine index : Nat) (text : String) : Token where
  type := type
  index := index
  indexInLine := indexInLine
  line := line
  string := stringCreateFromCstr (bytes text)

theorem macroSample_lexed : (lexedFile "sample" macroSample).errorHandler.errorList = [] ∧
    (lexedFile "sample" macroSample).tokenList =
      [sampleToken .macr 1 0 0 "macr", sampleToken .identifier 1 5 5 "M",
        sampleToken .eol 1 6 6 "\n", sampleToken .stop 2 0 7 "stop",
        sampleToken .eol 2 4 11 "\n", sampleToken .endmacr 3 0 12 "endmacr",
        sampleToken .eol 3 7 19 "\n", sampleToken .identifier 4 0 20 "M",
        sampleToken .eol 4 1 21 "\n", sampleToken .eoft 5 0 22 ""] := by
  decide +kernel

/-- The sample is well formed: one definition, and one use of it. -/
theorem macroSample_text : ∃ definition outside, MacroText true
    (lexedFile "sample" macroSample).tokenList [definition] outside := by
  rw [macroSample_lexed.2]
  have hbody : BodyLines [sampleToken .stop 2 0 7 "stop", sampleToken .eol 2 4 11 "\n"] :=
    ⟨by decide, Or.inr ⟨[_], _, rfl, rfl⟩⟩
  have htail : MacroText true [sampleToken .identifier 4 0 20 "M", sampleToken .eol 4 1 21 "\n",
      sampleToken .eoft 5 0 22 ""] [] _ :=
    .token _ (by decide) (.token _ (by decide) (.token _ (by decide) (.nil _)))
  exact ⟨_, _, .definition rfl rfl rfl hbody rfl rfl htail⟩

/-- The theorem at a text with a definition. -/
theorem preprocessedFile_expanded_iff_sample : ∃ definition outside,
    MacroText true (lexedFile "sample" macroSample).tokenList [definition] outside ∧
      ¬ ∃ preprocessor written,
        preprocessedFile true "sample" macroSample = .ok (preprocessor, written) ∧
          MacrosExpanded [definition] outside preprocessor.processedSource := by
  obtain ⟨definition, outside, htext⟩ := macroSample_text
  refine ⟨definition, outside, htext, fun h => ?_⟩
  exact List.cons_ne_nil _ _ ((preprocessedFile_expanded_iff true "sample" macroSample htext).mp h)

/-- The sample lexes without errors and its one definition is well formed, and
yet the preprocessed text still has the definition in it. -/
theorem preprocessedFile_keeps_definition :
    (lexedFile "sample" macroSample).errorHandler.errorList = [] ∧
    ∃ definition outside,
      MacroText true (lexedFile "sample" macroSample).tokenList [definition] outside ∧
      ∀ preprocessor written,
        preprocessedFile true "sample" macroSample = .ok (preprocessor, written) →
          ¬ MacrosExpanded [definition] outside preprocessor.processedSource := by
  obtain ⟨definition, outside, htext⟩ := macroSample_text
  refine ⟨macroSample_lexed.1, definition, outside, htext, ?_⟩
  intro preprocessor written hrun hexpanded
  have htypes : ∃ type ∈ ((preprocessedFile true "sample" macroSample).toOption.map
      (fun run => (processedTokens run.1.processedSource).map Token.type)).getD [],
      type = .macr := by decide +kernel
  rw [hrun] at htypes
  obtain ⟨type, hmem, rfl⟩ := htypes
  obtain ⟨t, ht, htype⟩ := List.mem_map.mp hmem
  exact (hexpanded.plain t ht).1 htype

end Assembler
