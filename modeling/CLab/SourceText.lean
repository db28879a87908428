import CLab.Driver
import CLab.RecordedMacros

/-!
# What the preprocessor makes of a source

The first pass leaves the cursor on the end of the file, so the pass that copies
the text meets no token before the last one (`expandLoop_atEnd`).  A source
without an end-of-file character comes out as it went in, but for a definition
that goes up to the end of the file and takes its character along
(`preprocessedFile_copies`), and the second lexer reads what the first one has
read (`postprocessLexer_reads`).
-/

namespace Assembler

/-! ## The end of the file -/

/-- The token of the end of the file, in front of which no token is one. -/
structure EndToken (source : CString) (front : List Token) (eof : Token) : Prop where
  type : eof.type = .eoft
  string : eof.string = stringCreate
  index : eof.index + 1 = source.data.length
  front : ∀ t ∈ front, t.type ≠ .eoft ∧ t.index < eof.index

/-- A definition of the list goes up to the end of the file. -/
def ClosedByEof (macroList : List Macro) (source : CString) : Prop :=
  ∃ m ∈ macroList, m.endIndex + 1 = source.data.length

instance (macroList : List Macro) (source : CString) : Decidable (ClosedByEof macroList source) :=
  inferInstanceAs (Decidable (∃ m ∈ macroList, m.endIndex + 1 = source.data.length))

section AtEnd

variable {macroList : List Macro} {source : CString} {front : List Token} {eof : Token}
  (hend : EndToken source front eof)
  (hnamed : ∀ m ∈ macroList, m.identifier.string.data ≠ [])
  (hspans : ∀ m ∈ macroList, m.startIndex ≤ eof.index ∧ m.endIndex ≤ eof.index)

include hend hnamed hspans

/-- The token of the end of the file is no name, so it is either covered or copied. -/
theorem macroUse_atEnd : macroUse macroList eof.index eof =
    if ClosedByEof macroList source then some (.definition eof.index) else none := by
  have hindex := hend.index
  have hname : ∀ m ∈ macroList, stringEquals m.identifier.string eof.string = false := by
    intro m hm
    rw [hend.string]
    by_contra hequal
    rw [Bool.not_eq_false, stringEquals_iff] at hequal
    exact hnamed m hm (congrArg CString.data hequal)
  cases huse : macroUse macroList eof.index eof with
  | none =>
      have hnone := List.findSome?_eq_none_iff.mp huse
      rw [if_neg]
      intro hclosed
      obtain ⟨m, hm, hmend⟩ := hclosed
      have hcovers : m.startIndex ≤ eof.index ∧ eof.index ≤ m.endIndex :=
        ⟨(hspans m hm).1, by omega⟩
      have hfirst := hnone m hm
      rw [if_pos hcovers] at hfirst
      cases hfirst
  | some use =>
      obtain ⟨m, hm, hfirst⟩ := List.exists_of_findSome?_eq_some huse
      rw [hname m hm] at hfirst
      split at hfirst
      · rename_i hcovers
        have hlast : m.endIndex = eof.index := Nat.le_antisymm (hspans m hm).2 hcovers.2
        rw [if_pos ⟨m, hm, by omega⟩, ← hfirst, hlast]
      · cases hfirst

/-- **The pass that copies the text** begins at the end of the file: it copies
everything, but for an end-of-file character that a definition covers. -/
theorem expandLoop_atEnd :
    (expandLoop macroList source
      { index := 0, currentToken := [eof], processedSource := stringCreate }
    ).processedSource.data =
      if ClosedByEof macroList source then source.data.take eof.index else source.data := by
  have huse := macroUse_atEnd hend hnamed hspans
  have hindex := hend.index
  -- in front of the token, behind a token that is covered, behind one that is not
  let inv : Expansion → Prop := fun s =>
    (s.index ≤ eof.index ∧ s.currentToken = [eof] ∧
      s.processedSource.data = source.data.take s.index) ∨
    (ClosedByEof macroList source ∧ s.index = eof.index + 1 ∧
      s.processedSource.data = source.data.take eof.index) ∨
    (¬ ClosedByEof macroList source ∧ s.index ≤ eof.index + 1 ∧ s.currentToken = [] ∧
      s.processedSource.data = source.data.take s.index)
  have hbody : ∀ s, s.index < source.data.length → inv s →
      inv (expandRound macroList source s) := by
    intro s hs hinv
    rcases hinv with ⟨hle, hcursor, htext⟩ | ⟨-, hbehind, -⟩ | ⟨hopen, hle, hcursor, htext⟩
    · rw [expandRound, hcursor]
      simp only
      by_cases hat : s.index = eof.index
      · rw [if_pos hat, hat, huse]
        by_cases hclosed : ClosedByEof macroList source
        · rw [if_pos hclosed]
          exact Or.inr (Or.inl ⟨hclosed, rfl, by rw [htext, hat]⟩)
        · rw [if_neg hclosed]
          refine Or.inr (Or.inr ⟨hclosed, ?_, rfl, ?_⟩)
          · simp [hend.string, stringLength, stringCreate]
          · simp [hend.string, stringLength, stringCreate, htext, hat]
      · rw [if_neg hat]
        refine Or.inl ⟨?_, hcursor, stringCharAt_append hs htext⟩
        simp only [copyCharacter]
        omega
    · omega
    · rw [expandRound, hcursor]
      refine Or.inr (Or.inr ⟨hopen, ?_, hcursor, stringCharAt_append hs htext⟩)
      simp only [copyCharacter]
      omega
  obtain ⟨hinv, hdone⟩ := expandLoop_rule inv hbody
    (s := { index := 0, currentToken := [eof], processedSource := stringCreate })
    (Or.inl ⟨Nat.zero_le _, rfl, rfl⟩)
  rcases hinv with ⟨hle, -, -⟩ | ⟨hclosed, -, htext⟩ | ⟨hopen, -, -, htext⟩
  · omega
  · rw [if_pos hclosed, htext]
  · rw [if_neg hopen, htext, List.take_of_length_le hdone]

end AtEnd

/-! ## The tokens of a file -/

/-- The text of a file is what is no NUL in it, and its end. -/
theorem fileText_eq (contents : List UInt8) :
    (fileText contents).data = contents.filter (· != 0) ++ [eofChar] := by
  rw [fileText, stringAppendChar_data (by decide), foldl_stringAppendChar]
  rfl

/-- The visits of two runs, the second from where the first ends. -/
theorem visits_append (lexer : Lexer) (xs ys : List Lexeme) :
    lexer.visits (xs ++ ys) = lexer.visits xs ++ (lexer.takeAll xs).visits ys := by
  induction xs generalizing lexer with
  | nil => rfl
  | cons x xs ih =>
      rw [List.cons_append, Lexer.visits, Lexer.visits, ih, takeAll_cons, List.cons_append]

/-- The lexeme of a token that stands in front of other lexemes. -/
theorem placeTokens_visit {lexer : Lexer} {xs ys : List Lexeme}
    (h : Lexes lexer.rest (xs ++ ys)) {t : Token} (ht : t ∈ placeTokens lexer xs) :
    ∃ us x ws, xs = us ++ x :: ws ∧ visitToken (lexer.takeAll us, x) = some t ∧
      LexerVisit lexer.sourceCode.data (lexer.takeAll us, x) := by
  rw [placeTokens_eq_visits] at ht
  obtain ⟨v, hv, htoken⟩ := List.mem_filterMap.mp ht
  have hmem : v ∈ lexer.visits (xs ++ ys) := by
    rw [visits_append]
    exact List.mem_append_left _ hv
  have hvisit := visits_lexerVisit h v hmem
  obtain ⟨us, ws, hsplit, hlexer⟩ := mem_visits hv
  refine ⟨us, v.2, ws, hsplit, ?_⟩
  rw [← hlexer]
  exact ⟨htoken, hvisit⟩

/-- A token stands in front of the end of its text. -/
theorem placeTokens_index {lexer : Lexer} {xs ys : List Lexeme}
    (h : Lexes lexer.rest (xs ++ ys)) :
    ∀ t ∈ placeTokens lexer xs, t.index < lexer.index + (lexemesText xs).length := by
  intro t ht
  obtain ⟨us, x, ws, rfl, htoken, hvisit⟩ := placeTokens_visit h ht
  have hpos : 0 < x.text.length := hvisit.text_pos
  rw [(hvisit.token htoken).1, takeAll_index, lexemesText_append, lexemesText_cons]
  simp only [List.length_append]
  omega

/-- Where no character is an end-of-file character, no token is the end of the file. -/
theorem placeTokens_ne_eoft {lexer : Lexer} {xs ys : List Lexeme}
    (h : Lexes lexer.rest (xs ++ ys)) (hplain : eofChar ∉ lexemesText xs) :
    ∀ t ∈ placeTokens lexer xs, t.type ≠ .eoft := by
  intro t ht heof
  obtain ⟨us, x, ws, rfl, htoken, hvisit⟩ := placeTokens_visit h ht
  have htext : x.text = [eofChar] := (hvisit.token htoken).2.2.2 heof
  apply hplain
  rw [lexemesText_append, lexemesText_cons, htext]
  simp

/-- The end of a file, read behind its lexemes. -/
def eofAt (lexer : Lexer) : Token := Lexeme.tokenAt ⟨[eofChar], some .eoft, none⟩ lexer .eoft

section File

variable {path : String} {contents : List UInt8}

/-- The lexemes of a file without an end-of-file character, and its tokens. -/
theorem lexedFile_endToken (hplain : eofChar ∉ contents) : ∃ ys,
    Lexes (fileText contents).data (ys ++ [⟨[eofChar], some .eoft, none⟩]) ∧
      (lexedFile path contents).tokenList =
        placeTokens (lexerInitializeFromFile path contents) ys ++
          [eofAt ((lexerInitializeFromFile path contents).takeAll ys)] ∧
      EndToken (fileText contents) (placeTokens (lexerInitializeFromFile path contents) ys)
        (eofAt ((lexerInitializeFromFile path contents).takeAll ys)) := by
  obtain ⟨xs, hlex, htokens, -⟩ := lexedFile_lexes path contents
  obtain ⟨ys, rfl⟩ := hlex.eof_last (fileText_eq contents)
  have htext : lexemesText ys = contents.filter (· != 0) := by
    have hall := hlex.text_eq
    rw [lexemesText_append, fileText_eq] at hall
    exact List.append_cancel_right hall
  have hread : Lexes (lexerInitializeFromFile path contents).rest
      (ys ++ [⟨[eofChar], some .eoft, none⟩]) := hlex
  have hindex : (eofAt ((lexerInitializeFromFile path contents).takeAll ys)).index =
      (lexerInitializeFromFile path contents).index + (lexemesText ys).length :=
    takeAll_index _ ys
  have hstart : (lexerInitializeFromFile path contents).index = 0 := rfl
  refine ⟨ys, hlex, ?_, rfl, rfl, ?_, fun t ht => ⟨?_, ?_⟩⟩
  · rw [htokens, placeTokens_append]
    rfl
  · rw [hindex, hstart, fileText_eq, htext, List.length_append, List.length_singleton]
    omega
  · refine placeTokens_ne_eoft hread ?_ t ht
    rw [htext]
    exact fun hmem => hplain (List.mem_filter.mp hmem).1
  · rw [hindex]
    exact placeTokens_index hread t ht

/-- The lexer's name for the file is no matter. -/
theorem lexedFile_source : (lexedFile path contents).sourceCode = fileText contents := by
  obtain ⟨-, -, -, hsource⟩ := lexedFile_lexes path contents
  exact hsource

/-- What the first pass leaves of a file: the cursor on the end of the file, and
macros with names that stand in front of it. -/
theorem generateMacroList_file {front : List Token} {eof : Token}
    (htokens : (lexedFile path contents).tokenList = front ++ [eof])
    (hend : EndToken (fileText contents) front eof) {generated : Preprocessor}
    (hgen : preprocessorGenerateMacroList (preprocessorInitialize (lexedFile path contents) path)
      (lexedFile path contents).sourceCode = .ok generated) :
    generated.tokens = [eof] ∧ ∀ m ∈ generated.macroList, m.identifier.string.data ≠ [] ∧
      m.startIndex ≤ eof.index ∧ m.endIndex ≤ eof.index := by
  have hlist : (preprocessorInitialize (lexedFile path contents) path).tokens = front ++ [eof] :=
    htokens
  refine ⟨?_, ?_⟩
  · rw [generateMacroListFrom_tokens hgen, hlist,
      List.dropWhile_append_of_pos (fun t ht => by simpa using (hend.front t ht).1)]
    simp [hend.type]
  · intro m hm
    have hindex : ∀ t ∈ (lexedFile path contents).tokenList, t.index ≤ eof.index := by
      intro t ht
      rw [htokens] at ht
      rcases List.mem_append.mp ht with ht | ht
      · exact Nat.le_of_lt (hend.front t ht).2
      · rw [List.mem_singleton.mp ht]
    have hrecorded : m.Recorded (lexedFile path contents).sourceCode
        (lexedFile path contents).tokenList :=
      (generateMacroListFrom_recorded hgen m hm).resolve_left List.not_mem_nil
    obtain ⟨before, opener, name, newline, middle, last, endmacr, closer, after, hsplit, -, hname,
      -, -, -, rfl⟩ := hrecorded
    have hmem : opener ∈ (lexedFile path contents).tokenList ∧
        name ∈ (lexedFile path contents).tokenList ∧
        closer ∈ (lexedFile path contents).tokenList := by
      rw [hsplit]
      simp
    refine ⟨?_, hindex opener hmem.1, hindex closer hmem.2.2⟩
    obtain ⟨xs, hlex, hplaced, -⟩ := lexedFile_lexes path contents
    have hlexed : LexedToken name := by
      apply @placeTokens_lexed (lexerInitializeFromFile path contents) _ hlex name
      rw [← hplaced]
      exact hmem.2.1
    exact (hlexed.identifier hname).1

/-- The macros that a run without errors has recorded, and its text. -/
theorem preprocessedFile_generated {opens : Bool} {preprocessor : Preprocessor}
    {written : Option (List UInt8)}
    (hrun : preprocessedFile opens path contents = .ok (preprocessor, written))
    (hclean : preprocessor.errorHandler.errorList = []) :
    ∃ generated, preprocessorGenerateMacroList
        (preprocessorInitialize (lexedFile path contents) path)
        (lexedFile path contents).sourceCode = .ok generated ∧
      preprocessor.macroList = generated.macroList ∧
      preprocessor.processedSource = (expandLoop generated.macroList
        (lexedFile path contents).sourceCode
        { index := 0
          currentToken := generated.tokens
          processedSource := stringCreate }).processedSource ∧
      written = if opens then some (writtenText preprocessor.processedSource) else none := by
  obtain ⟨generated, hgen, hrest⟩ := exists_of_bind_eq_ok hrun
  have hempty : generated.processedSource = stringCreate :=
    generateMacroListFrom_processedSource hgen
  refine ⟨generated, hgen, ?_⟩
  by_cases herrors : generated.errorHandler.errorList = []
  · simp only [herrors, ne_eq, not_true_eq_false, if_false] at hrest
    cases opens with
    | true =>
        obtain ⟨rfl, rfl⟩ := Prod.mk.inj (Except.ok.inj hrest)
        refine ⟨rfl, ?_, rfl⟩
        simp only [preprocessorExpandMacros, hempty]
    | false =>
        obtain ⟨rfl, rfl⟩ := Prod.mk.inj (Except.ok.inj hrest)
        refine ⟨rfl, ?_, rfl⟩
        simp only [preprocessorExpandMacros, hempty]
  · simp only [herrors, ne_eq, not_false_eq_true, if_true] at hrest
    obtain ⟨rfl, -⟩ := Prod.mk.inj (Except.ok.inj hrest)
    exact absurd hclean herrors

/-- **The preprocessor copies.**  A file without an end-of-file character that it
reports nothing about comes out as it went in, its definitions among the rest;
a definition that goes up to the end takes the end-of-file character along. -/
theorem preprocessedFile_copies (hplain : eofChar ∉ contents) {opens : Bool}
    {preprocessor : Preprocessor} {written : Option (List UInt8)}
    (hrun : preprocessedFile opens path contents = .ok (preprocessor, written))
    (hclean : preprocessor.errorHandler.errorList = []) :
    preprocessor.processedSource.data = contents.filter (· != 0) ++
        (if ClosedByEof preprocessor.macroList (fileText contents) then [] else [eofChar]) ∧
      written = if opens then some (contents.filter (· != 0)) else none := by
  obtain ⟨generated, hgen, hmacros, htext, hwritten⟩ := preprocessedFile_generated hrun hclean
  obtain ⟨ys, hlex, htokens, hend⟩ := @lexedFile_endToken path _ hplain
  obtain ⟨hcursor, hrecorded⟩ := generateMacroList_file htokens hend hgen
  have hcopied := expandLoop_atEnd hend (fun m hm => (hrecorded m hm).1)
    fun m hm => (hrecorded m hm).2
  rw [hcursor, lexedFile_source] at htext
  rw [← htext, ← hmacros] at hcopied
  have hlength : (eofAt ((lexerInitializeFromFile path contents).takeAll ys)).index =
      (contents.filter (· != 0)).length := by
    have hindex := hend.index
    rw [fileText_eq, List.length_append, List.length_singleton] at hindex
    omega
  have hdata : preprocessor.processedSource.data = contents.filter (· != 0) ++
      (if ClosedByEof preprocessor.macroList (fileText contents) then [] else [eofChar]) := by
    rw [hcopied, fileText_eq]
    split
    · rw [hlength, List.take_left, List.append_nil]
    · rfl
  refine ⟨hdata, ?_⟩
  -- the file ends in front of the end-of-file character
  have hall : ∀ c ∈ contents.filter (· != 0), (c != eofChar && c != 0) = true := by
    intro c hc
    obtain ⟨hmem, hzero⟩ := List.mem_filter.mp hc
    have hne : c ≠ eofChar := fun heq => hplain (heq ▸ hmem)
    simpa [hne] using hzero
  have htaken : writtenText preprocessor.processedSource = contents.filter (· != 0) := by
    rw [writtenText, hdata, List.takeWhile_append_of_pos hall]
    split <;> simp
  rw [hwritten, htaken]

end File

/-! ## The second lexer -/

/-- Two lexers at one place, with the same text up to a point. -/
structure SameText (k : Nat) (lexer lexer' : Lexer) : Prop where
  index : lexer.index = lexer'.index
  column : lexer.column = lexer'.column
  lineNumber : lexer.lineNumber = lexer'.lineNumber
  text : ∀ i < k, stringCharAt lexer.sourceCode i = stringCharAt lexer'.sourceCode i
  synced : lexer.Synced ∧ lexer'.Synced

/-- Two lexers on the same front step alike. -/
theorem SameText.advance {k : Nat} {lexer lexer' : Lexer} (h : SameText k lexer lexer')
    (hlt : lexer.index < k) :
    SameText k (lexerAdvanceCharacter lexer) (lexerAdvanceCharacter lexer') := by
  have hchar : lexer.currentChar = lexer'.currentChar := by
    rw [h.synced.1, h.synced.2, ← h.index]
    exact h.text _ hlt
  refine ⟨?_, ?_, ?_, h.text, rfl, rfl⟩
  · simp only [lexerAdvanceCharacter, h.index]
  · simp only [lexerAdvanceCharacter, hchar, h.column]
  · simp only [lexerAdvanceCharacter, hchar, h.lineNumber]

theorem SameText.take {k : Nat} {lexer lexer' : Lexer} (h : SameText k lexer lexer') {x : Lexeme}
    (hle : lexer.index + x.text.length ≤ k) : SameText k (lexer.take x) (lexer'.take x) := by
  have hadvanced : ∀ n, lexer.index + n ≤ k →
      SameText k (lexerAdvanceCharacter^[n] lexer) (lexerAdvanceCharacter^[n] lexer') ∧
        (lexerAdvanceCharacter^[n] lexer).index = lexer.index + n := by
    intro n
    induction n with
    | zero => exact fun _ => ⟨h, rfl⟩
    | succ n ih =>
        intro hn
        obtain ⟨hsame, hindex⟩ := ih (by omega)
        rw [Function.iterate_succ_apply', Function.iterate_succ_apply']
        refine ⟨hsame.advance (by omega), ?_⟩
        simp only [lexerAdvanceCharacter, hindex]
        omega
  obtain ⟨⟨hindex, hcolumn, hline, htext, hsynced⟩, -⟩ := hadvanced _ hle
  exact ⟨hindex, hcolumn, hline, htext, hsynced⟩

/-- Tokens depend on the text in front of their end only. -/
theorem SameText.placeTokens {k : Nat} {lexer lexer' : Lexer} (h : SameText k lexer lexer')
    {xs : List Lexeme} (hle : lexer.index + (lexemesText xs).length ≤ k) :
    placeTokens lexer xs = placeTokens lexer' xs := by
  induction xs generalizing lexer lexer' with
  | nil => rfl
  | cons x xs ih =>
      rw [lexemesText_cons, List.length_append] at hle
      have htoken : x.tokenAt lexer = x.tokenAt lexer' := by
        funext type
        simp only [Lexeme.tokenAt, h.index, h.column, h.lineNumber]
      have hrest := ih (h.take (x := x) (by omega)) (by rw [take_index]; omega)
      rw [Assembler.placeTokens, Assembler.placeTokens, htoken, hrest]

/-- Lexemes without errors in front of others are the lexemes of their own text. -/
theorem Lexes.front {text : List UInt8} {xs ys : List Lexeme} (h : Lexes text (xs ++ ys))
    (hnoNul : 0 ∉ text) (hclean : ∀ x ∈ xs ++ ys, x.error = none) :
    Lexes (lexemesText xs) xs := by
  have hall : ∀ x ∈ xs ++ ys, x.Clean := by
    intro x hx
    obtain ⟨c, cs, h0, hread⟩ := h.read hnoNul x hx
    exact ⟨c, cs, h0, hread, Or.inl (hclean x hx)⟩
  have hstops : Seamless (xs ++ ys) := h.stops fun x hx _ => hall x hx
  have hfront : ∀ zs : List Lexeme, Seamless (zs ++ ys) → Seamless zs := by
    intro zs
    induction zs with
    | nil => exact fun _ => trivial
    | cons z zs ih =>
        intro hz
        refine ⟨fun _ hgo => hz.1 trivial ?_, ih hz.2⟩
        obtain ⟨d, hd, hcontinues⟩ := hgo
        refine ⟨d, ?_, hcontinues⟩
        show d ∈ (lexemesText (zs ++ ys)).head?
        rw [lexemesText_append, List.head?_append, Option.mem_def.mp hd]
        rfl
  exact (hfront xs hstops).lexes fun x hx => hall x (List.mem_append_left _ hx)

/-- The lexemes of a lexer that reports nothing have no errors. -/
theorem lexemes_errorFree {lexer : Lexer} {xs : List Lexeme}
    (h : (lexer.takeAll xs).errorHandler.errorList = []) : ∀ x ∈ xs, x.error = none := by
  intro x hx
  rw [takeAll_errorList, List.append_eq_nil_iff, List.filterMap_eq_nil_iff] at h
  obtain ⟨ys, zs, rfl⟩ := List.append_of_mem hx
  have hvisit : (lexer.takeAll ys, x) ∈ lexer.visits (ys ++ x :: zs) := by
    rw [visits_append]
    exact List.mem_append_right _ List.mem_cons_self
  exact Option.map_eq_none_iff.mp (h.2 _ hvisit)

/-- Lexemes without an error report none. -/
theorem takeAll_errorFree {lexer : Lexer} {xs : List Lexeme}
    (hstart : lexer.errorHandler.errorList = []) (h : ∀ x ∈ xs, x.error = none) :
    (lexer.takeAll xs).errorHandler.errorList = [] := by
  rw [takeAll_errorList, hstart, List.nil_append, List.filterMap_eq_nil_iff]
  intro v hv
  obtain ⟨ys, zs, hsplit, -⟩ := mem_visits hv
  rw [visitError, h v.2 (by rw [hsplit]; simp)]
  rfl

/-- **The second lexer reads what the first has read**: the same tokens, at the
same places, but for the end of a file that a definition has taken along. -/
theorem postprocessLexer_reads {path : String} {contents : List UInt8}
    (hplain : eofChar ∉ contents) (hlexed : (lexedFile path contents).errorHandler.errorList = [])
    {opens : Bool} {preprocessor : Preprocessor} {written : Option (List UInt8)}
    (hrun : preprocessedFile opens path contents = .ok (preprocessor, written))
    (hclean : preprocessor.errorHandler.errorList = []) :
    (postprocessLexer preprocessor).errorHandler.errorList = [] ∧
      ∃ front eof, (lexedFile path contents).tokenList = front ++ [eof] ∧
        EndToken (fileText contents) front eof ∧
        (postprocessLexer preprocessor).tokenList =
          if ClosedByEof preprocessor.macroList (fileText contents) then front
          else front ++ [eof] := by
  obtain ⟨htext, -⟩ := preprocessedFile_copies hplain hrun hclean
  obtain ⟨ys, hlex, htokens, hend⟩ := @lexedFile_endToken path _ hplain
  have hlexemes := hlex.text_eq
  rw [lexemesText_append, fileText_eq] at hlexemes
  have hys : lexemesText ys = contents.filter (· != 0) := List.append_cancel_right hlexemes
  have hfree : ∀ x ∈ ys ++ [⟨[eofChar], some .eoft, none⟩], x.error = none := by
    obtain ⟨xs, hxs, heq⟩ := @lexerAnalyze_eq (lexerInitializeFromFile path contents) rfl
    have hread : Lexes (fileText contents).data xs := hxs
    obtain rfl := hread.unique hlex
    rw [lexedFile, heq] at hlexed
    exact lexemes_errorFree hlexed
  -- what is left of the lexemes
  let kept : List Lexeme :=
    if ClosedByEof preprocessor.macroList (fileText contents) then ys
    else ys ++ [⟨[eofChar], some .eoft, none⟩]
  let lexer := lexerInitializeFromString preprocessor.errorHandler.filePath
    preprocessor.processedSource
  have hrest : lexer.rest = preprocessor.processedSource.data := by
    simp [lexer, Lexer.rest, lexerInitializeFromString]
  have hkept : Lexes lexer.rest kept ∧ lexemesText kept = preprocessor.processedSource.data := by
    rw [hrest, htext, ← hys]
    by_cases hclosed : ClosedByEof preprocessor.macroList (fileText contents)
    · simp only [kept, if_pos hclosed, List.append_nil]
      exact ⟨hlex.front (fileText contents).noNul hfree, trivial⟩
    · simp only [kept, if_neg hclosed]
      refine ⟨?_, by rw [lexemesText_append]; rfl⟩
      rw [hys, ← fileText_eq]
      exact hlex
  obtain ⟨xs, hxs, heq⟩ := @lexerAnalyze_eq lexer rfl
  obtain rfl := hxs.unique hkept.1
  have hsame : SameText preprocessor.processedSource.data.length
      (lexerInitializeFromFile path contents) lexer := by
    refine ⟨rfl, rfl, rfl, fun i hi => ?_, rfl, rfl⟩
    have hsource : lexer.sourceCode.data = preprocessor.processedSource.data := by
      simp [lexer, lexerInitializeFromString]
    have hfile : (lexerInitializeFromFile path contents).sourceCode.data =
        preprocessor.processedSource.data ++
          if ClosedByEof preprocessor.macroList (fileText contents) then [eofChar] else [] := by
      have hfileText : (lexerInitializeFromFile path contents).sourceCode.data =
        (fileText contents).data := rfl
      rw [hfileText, fileText_eq, htext]
      split <;> simp
    rw [stringCharAt, stringCharAt, hsource, hfile, List.getD_eq_getElem?_getD,
      List.getD_eq_getElem?_getD, List.getElem?_append_left hi]
  have hplaced : placeTokens (lexerInitializeFromFile path contents) kept =
      placeTokens lexer kept := by
    apply hsame.placeTokens
    rw [hkept.2]
    exact Nat.le_of_eq (Nat.zero_add _)
  have hpost : postprocessLexer preprocessor = lexer.takeAll kept := heq
  refine ⟨?_, _, _, htokens, hend, ?_⟩
  · rw [hpost]
    refine takeAll_errorFree rfl fun x hx => hfree x ?_
    simp only [kept] at hx
    split at hx
    · exact List.mem_append_left _ hx
    · exact hx
  · rw [hpost, takeAll_tokenList, ← hplaced]
    simp only [kept]
    split
    · rfl
    · rw [placeTokens_append]
      rfl

/-- **The macros of a source come to nothing.**  From a text file without lexical
errors whose definitions are in order, the preprocessor hands on the same text, so
that the second lexer finds the same tokens at the same places and reports nothing
either; the `.am` file is a copy.  Only a definition that goes up to the end of the
file takes the end-of-file character along. -/
theorem preprocessedFile_unchanged {path : String} {contents : List UInt8}
    (hplain : eofChar ∉ contents) (hlexed : (lexedFile path contents).errorHandler.errorList = [])
    {opens : Bool} {preprocessor : Preprocessor} {written : Option (List UInt8)}
    (hrun : preprocessedFile opens path contents = .ok (preprocessor, written))
    (hclean : preprocessor.errorHandler.errorList = []) :
    preprocessor.processedSource.data = contents.filter (· != 0) ++
        (if ClosedByEof preprocessor.macroList (fileText contents) then [] else [eofChar]) ∧
      written = (if opens then some (contents.filter (· != 0)) else none) ∧
      (postprocessLexer preprocessor).errorHandler.errorList = [] ∧
      (postprocessLexer preprocessor).tokenList =
        if ClosedByEof preprocessor.macroList (fileText contents) then
          (lexedFile path contents).tokenList.dropLast
        else (lexedFile path contents).tokenList := by
  obtain ⟨htext, hwritten⟩ := preprocessedFile_copies hplain hrun hclean
  obtain ⟨hreports, front, eof, htokens, -, hread⟩ :=
    postprocessLexer_reads hplain hlexed hrun hclean
  refine ⟨htext, hwritten, hreports, ?_⟩
  rw [hread, htokens, List.dropLast_concat]

/-- A definition and its use, both of which are handed on. -/
theorem preprocessedFile_unchanged_sample : ∃ preprocessor written,
    preprocessedFile true "sample" macroSample = .ok (preprocessor, written) ∧
      written = some macroSample ∧
      (postprocessLexer preprocessor).tokenList = (lexedFile "sample" macroSample).tokenList := by
  have hreturns : (match preprocessedFile true "sample" macroSample with
      | .ok (preprocessor, _) => preprocessor.errorHandler.errorList.isEmpty &&
          !decide (ClosedByEof preprocessor.macroList (fileText macroSample))
      | .error _ => false) = true := by decide +kernel
  cases hrun : preprocessedFile true "sample" macroSample with
  | error fault =>
      rw [hrun] at hreturns
      cases hreturns
  | ok result =>
      obtain ⟨preprocessor, written⟩ := result
      rw [hrun] at hreturns
      obtain ⟨hclean, hopen⟩ := Bool.and_eq_true_iff.mp hreturns
      obtain ⟨-, hwritten, -, htokens⟩ := preprocessedFile_unchanged (by decide +kernel)
        (by decide +kernel) hrun (List.isEmpty_iff.mp hclean)
      have hnot : ¬ ClosedByEof preprocessor.macroList (fileText macroSample) := by
        simpa using hopen
      rw [if_neg hnot] at htokens
      refine ⟨preprocessor, written, rfl, hwritten.trans ?_, htokens⟩
      decide +kernel

end Assembler
