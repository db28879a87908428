import CLab.LexerCoverage

/-!
# How far a word reaches

`char_util.h` documents letters, digits and underscores as the characters of an
identifier, but `is_valid_identifier_char` leaves the underscore out, and only
a word that begins with one is copied with `is_valid_macro_char`.  So a word is
as long as documented exactly when no underscore comes right behind a word that
begins with a letter: `LexerInput.maximalWords_iff`.
-/

namespace Assembler

/-- The characters of an identifier, as `char_util.h` documents them. -/
def isDocumentedIdentifierChar (ch : UInt8) : Bool :=
  isValidIdentifierStart ch || isDigit ch || ch == '_'.toUInt8

/-- The types of the tokens that are words: identifiers and keywords, registers
among them. -/
def IsWordType (type : TokenType) : Prop :=
  type = .identifier ∨ ∃ entry ∈ keywords, entry.2 = type

instance (type : TokenType) : Decidable (IsWordType type) :=
  inferInstanceAs (Decidable (_ ∨ _))

/-- Every word of a text is followed by the end of the text or by a character
that no identifier has. -/
def MaximalWords (source : List UInt8) (tokens : List Token) : Prop :=
  ∀ t ∈ tokens, IsWordType t.type →
    ∀ c ∈ source[t.index + stringLength t.string]?, isDocumentedIdentifierChar c = false

/-! ## Scanning for words -/

/-- What a character of a text belongs to; `word` begins with a letter, `name`
with an underscore. -/
inductive WordState
  | code
  | comment
  | quoted
  | directive
  | word
  | name
deriving DecidableEq

/-- The state behind the first character of a word. -/
def startState (c : UInt8) : WordState :=
  if c = ';'.toUInt8 then .comment
  else if c = '\"'.toUInt8 then .quoted
  else if c = '.'.toUInt8 then .directive
  else if isValidIdentifierStart c then .word
  else if c = '_'.toUInt8 then .name
  else .code

/-- What a character does to that state. -/
def wordStep (s : WordState) (c : UInt8) : WordState :=
  match s with
  | .code => startState c
  | .comment => if c = '\n'.toUInt8 ∨ c = eofChar then .code else .comment
  | .quoted => if c = '\"'.toUInt8 ∨ c = eofChar then .code else .quoted
  | .directive => if isValidIdentifierStart c then .directive else startState c
  | .word => if isValidIdentifierChar c then .word else startState c
  | .name => if isValidMacroChar c then .name else startState c

/-- An underscore right behind a word that begins with a letter, outside
comments and string literals. -/
def SplitsName (source : List UInt8) (i : Nat) : Prop :=
  source[i]? = some '_'.toUInt8 ∧ (source.take i).foldl wordStep .code = .word

instance (source : List UInt8) (i : Nat) : Decidable (SplitsName source i) :=
  inferInstanceAs (Decidable (_ ∧ _))

/-- The lexeme in front of `rest` is scanned as one piece, in the state `word`
if it begins with a letter and else never. -/
structure WordScanned (c : UInt8) (text rest : List UInt8) : Prop where
  settled : Settled wordStep .code (text.foldl wordStep .code) rest
  inside : ∀ k, 0 < k → k ≤ text.length → (text.take k).foldl wordStep .code = .word →
    isValidIdentifierStart c = true
  word : isValidIdentifierStart c = true → text.foldl wordStep .code = .word

/-- A word is one from its first letter on. -/
theorem startState_eq_word (c : UInt8) :
    startState c = .word ↔ isValidIdentifierStart c = true := by
  revert c
  exact forall_char (by decide +kernel)

/-- A lexeme whose characters all stay in the state of the first one. -/
theorem wordScanned_of_stay {c : UInt8} {t rest : List UInt8}
    (hstay : ∀ d ∈ t, wordStep (startState c) d = startState c)
    (hahead : Settled wordStep .code (startState c) rest) : WordScanned c (c :: t) rest := by
  have hwhole : (c :: t).foldl wordStep .code = startState c := foldl_stay hstay
  refine ⟨by rw [hwhole]; exact hahead, ?_,
    fun h => hwhole.trans ((startState_eq_word c).mpr h)⟩
  intro k hk _ hword
  obtain ⟨k, rfl⟩ : ∃ j, k = j + 1 := ⟨k - 1, by omega⟩
  have hfront : ((c :: t).take (k + 1)).foldl wordStep .code = startState c :=
    foldl_stay fun d hd => hstay d (List.mem_of_mem_take hd)
  exact (startState_eq_word c).mp (hfront.symm.trans hword)

/-- A run of characters of one class, behind a first character whose state
they keep. -/
theorem wordScanned_run {p : UInt8 → Bool} {c : UInt8} {cs rest : List UInt8}
    (hsplit : cs = cs.takeWhile p ++ rest)
    (hin : ∀ d, p d = true → wordStep (startState c) d = startState c)
    (hout : ∀ d, p d = false → wordStep (startState c) d = startState d) :
    WordScanned c (c :: cs.takeWhile p) rest :=
  wordScanned_of_stay (fun d hd => hin d (List.mem_takeWhile_imp hd))
    fun d hd => hout d (head_behind_takeWhile hsplit d hd)

/-- No word is scanned inside a string. -/
theorem wordScanned_string {cs rest : List UInt8} (hsplit : cs = (quotedText cs).1 ++ rest) :
    WordScanned '\"'.toUInt8 ('\"'.toUInt8 :: (quotedText cs).1) rest := by
  have hbody : ∀ d ∈ quotedBody cs, wordStep .quoted d = .quoted := by
    intro d hd
    have hchar := List.mem_takeWhile_imp hd
    simp only [Bool.and_eq_true, bne_iff_ne, ne_eq] at hchar
    simp [wordStep, hchar]
  unfold quotedText at hsplit ⊢
  split
  · rename_i hclosed
    have hwhole : ('\"'.toUInt8 :: (quotedBody cs ++ ['\"'.toUInt8])).foldl wordStep .code =
        .code := by
      rw [List.foldl_cons, List.foldl_append]
      show ['\"'.toUInt8].foldl wordStep ((quotedBody cs).foldl wordStep .quoted) = .code
      rw [foldl_stay hbody]
      rfl
    refine ⟨by rw [hwhole]; exact fun d _ => rfl, ?_, fun h => absurd h (by decide)⟩
    intro k hk hle hword
    -- behind the opening quote the state is `quoted`, behind the closing one `code`
    obtain ⟨k, rfl⟩ : ∃ j, k = j + 1 := ⟨k - 1, by omega⟩
    rw [List.length_cons, List.length_append, List.length_singleton] at hle
    rcases Nat.lt_or_ge (quotedBody cs).length k with hlt | hge
    · rw [List.take_of_length_le (by simp; omega), hwhole] at hword
      cases hword
    · rw [List.take_succ_cons, List.take_append_of_le_length hge, List.foldl_cons] at hword
      have hstay : ((quotedBody cs).take k).foldl wordStep .quoted = .quoted :=
        foldl_stay fun d hd => hbody d (List.mem_of_mem_take hd)
      exact absurd (hstay.symm.trans hword) (by decide)
  · rename_i hopen
    rw [if_neg hopen] at hsplit
    apply wordScanned_of_stay hbody
    intro d hd
    have hrest : cs.drop (quotedBody cs).length = rest :=
      (congrArg (List.drop _) hsplit).trans List.drop_left
    have hstop := head_behind_takeWhile hsplit d hd
    simp only [Bool.and_eq_false_iff, bne_eq_false_iff_eq] at hstop
    rcases hstop with rfl | rfl
    · exact absurd (hrest ▸ hd) hopen
    · decide

/-- A lexeme that begins in no other state is scanned as code. -/
theorem nextLexeme_code {c : UInt8} {cs : List UInt8} (hc : startState c = .code) :
    ∀ d ∈ (nextLexeme c cs).text, startState d = .code := by
  have hsingle : ∀ d ∈ [c], startState d = .code := by
    intro d hd
    obtain rfl := List.mem_singleton.mp hd
    exact hc
  refine nextLexeme_cases (P := fun x => ∀ d ∈ x.text, startState d = .code) c cs
    ?_ ?_ ?_ ?_ ?_ ?_ ?_ ?_ ?_ ?_
  · exact fun _ => hsingle
  · intro heq
    obtain rfl := heq
    exact absurd hc (by decide)
  · exact fun _ => hsingle
  · exact fun _ => hsingle
  · exact fun _ => hsingle
  · intro _
    have hdigit : ∀ d, isDigit d = true → startState d = .code := forall_char (by decide +kernel)
    rw [numberLexeme_text]
    intro d hd
    rcases List.mem_cons.mp hd with rfl | hd
    · exact hc
    · exact hdigit d (List.mem_takeWhile_imp hd)
  · intro heq
    obtain rfl := heq
    exact absurd hc (by decide)
  · intro heq
    obtain rfl := heq
    exact absurd hc (by decide)
  · intro hcases
    rcases hcases with hstart | rfl
    · rw [(startState_eq_word c).mpr hstart] at hc
      cases hc
    · exact absurd hc (by decide)
  · exact fun _ => hsingle

/-- Every lexeme is scanned as one piece. -/
theorem nextLexeme_wordScanned {c : UInt8} {cs rest : List UInt8}
    (hsplit : c :: cs = (nextLexeme c cs).text ++ rest) :
    WordScanned c (nextLexeme c cs).text rest := by
  cases hstate : startState c with
  | comment =>
      have hcomment : ∀ c, startState c = .comment → c = ';'.toUInt8 :=
        forall_char (by decide +kernel)
      obtain rfl := hcomment c hstate
      rw [nextLexeme_semicolon] at hsplit ⊢
      have hin : ∀ d, (d != eofChar && d != '\n'.toUInt8) = true →
          wordStep .comment d = .comment := forall_char (by decide +kernel)
      have hout : ∀ d, (d != eofChar && d != '\n'.toUInt8) = false →
          wordStep .comment d = startState d := forall_char (by decide +kernel)
      exact wordScanned_run (List.cons.inj hsplit).2 hin hout
  | quoted =>
      have hquote : ∀ c, startState c = .quoted → c = '\"'.toUInt8 :=
        forall_char (by decide +kernel)
      obtain rfl := hquote c hstate
      rw [nextLexeme_quote, stringLexeme_text] at hsplit ⊢
      exact wordScanned_string (List.cons.inj hsplit).2
  | directive =>
      have hdot : ∀ c, startState c = .directive → c = '.'.toUInt8 :=
        forall_char (by decide +kernel)
      obtain rfl := hdot c hstate
      rw [nextLexeme_dot, nonOpLexeme_text] at hsplit ⊢
      refine wordScanned_run (List.cons.inj hsplit).2 ?_ ?_
      · exact fun d hd => if_pos hd
      · exact fun d hd => if_neg (Bool.eq_false_iff.mp hd)
  | word =>
      have hstart := (startState_eq_word c).mp hstate
      have hclass : wordChar c = isValidIdentifierChar := by
        have hne : c ≠ '_'.toUInt8 := by
          intro heq
          obtain rfl := heq
          exact absurd hstart (by decide)
        simp [wordChar, hne]
      rw [nextLexeme_word (Or.inl hstart), wordLexeme_text, hclass] at hsplit ⊢
      refine wordScanned_run (List.cons.inj hsplit).2 ?_ ?_
      · exact fun d hd => by rw [hstate]; exact if_pos hd
      · exact fun d hd => by rw [hstate]; exact if_neg (Bool.eq_false_iff.mp hd)
  | name =>
      have hname : ∀ c, startState c = .name → c = '_'.toUInt8 :=
        forall_char (by decide +kernel)
      obtain rfl := hname c hstate
      rw [nextLexeme_word (Or.inr rfl), wordLexeme_text] at hsplit ⊢
      refine wordScanned_run (List.cons.inj hsplit).2 ?_ ?_
      · exact fun d hd => if_pos hd
      · exact fun d hd => if_neg (Bool.eq_false_iff.mp hd)
  | code =>
      have hcode : ∀ d ∈ (nextLexeme c cs).text, startState d = .code := nextLexeme_code hstate
      obtain ⟨t, htext, -⟩ := nextLexeme_text c cs
      rw [htext] at hcode ⊢
      refine wordScanned_of_stay ?_ ?_
      · rw [hstate]
        exact fun d hd => hcode d (List.mem_cons_of_mem _ hd)
      · rw [hstate]
        exact fun d _ => rfl

/-! ## The words of a text -/

/-- A word has a type of words. -/
theorem wordLexeme_type (text : List UInt8) :
    ∃ type, (wordLexeme text).type = some type ∧ IsWordType type := by
  refine ⟨_, rfl, ?_⟩
  cases hkey : keywordOf keywords text with
  | none => exact Or.inl rfl
  | some type =>
      obtain ⟨entry, hmem, -, htype⟩ := keywordOf_mem hkey
      exact Or.inr ⟨entry, hmem, htype⟩

/-- Only a letter or an underscore begins a word. -/
theorem nextLexeme_wordType {c : UInt8} {cs : List UInt8} {type : TokenType}
    (h : (nextLexeme c cs).type = some type) (hword : IsWordType type) :
    isValidIdentifierStart c = true ∨ c = '_'.toUInt8 := by
  revert h
  refine nextLexeme_cases (P := fun x => x.type = some type →
    isValidIdentifierStart c = true ∨ c = '_'.toUInt8) c cs ?_ ?_ ?_ ?_ ?_ ?_ ?_ ?_ ?_ ?_
  · exact fun _ h => by cases h
  · exact fun _ h => by cases h
  · exact fun _ h => by cases h; exact absurd hword (by decide)
  · exact fun _ h => by cases h; exact absurd hword (by decide)
  · intro _ h
    cases h
    unfold separatorType at hword
    split_ifs at hword <;> exact absurd hword (by decide)
  · intro _ h
    unfold numberLexeme at h
    split at h <;> cases h <;> exact absurd hword (by decide)
  · intro _ h
    unfold stringLexeme at h
    split at h <;> cases h <;> exact absurd hword (by decide)
  · intro _ h
    have hentries : ∀ entry ∈ nonOpInstructions, ¬ IsWordType entry.2 := by decide
    unfold nonOpLexeme at h
    split at h
    · rename_i hkey
      cases h
      obtain ⟨entry, hmem, -, rfl⟩ := keywordOf_mem hkey
      exact absurd hword (hentries entry hmem)
    · cases h
      exact absurd hword (by decide)
  · exact fun hc _ => hc
  · exact fun _ h => by cases h

/-- A word at a visit: its characters, and those behind it. -/
theorem LexerVisit.word {source : List UInt8} {v : Lexer × Lexeme} (h : LexerVisit source v)
    {c : UInt8} (hfirst : v.2.text.head? = some c)
    (hc : isValidIdentifierStart c = true ∨ c = '_'.toUInt8) :
    (∃ type, v.2.type = some type ∧ IsWordType type) ∧
    (∀ d ∈ v.2.text.tail, wordChar c d = true) ∧
    ∀ d ∈ source[v.1.index + v.2.text.length]?, wordChar c d = false := by
  obtain ⟨c', cs, hahead, hnext⟩ := h.ahead
  obtain ⟨t, htext, -⟩ := nextLexeme_text c' cs
  obtain rfl : c' = c := by
    rw [← hnext, htext] at hfirst
    exact Option.some.inj hfirst
  obtain ⟨rest, hrest⟩ := h.text_front
  have hbehind : source[v.1.index + v.2.text.length]? = rest.head? := by
    rw [← List.getElem?_drop, ← hrest, List.getElem?_append_right (Nat.le_refl _), Nat.sub_self,
      List.head?_eq_getElem?]
  rw [hbehind]
  rw [hahead, ← hnext, nextLexeme_word hc, wordLexeme_text] at hrest
  rw [← hnext, nextLexeme_word hc]
  refine ⟨wordLexeme_type _, ?_, ?_⟩
  · exact fun d hd => List.mem_takeWhile_imp hd
  · exact head_behind_takeWhile (List.cons.inj hrest).2.symm

section Run

variable {lexer : Lexer} {xs : List Lexeme} (hstart : lexer.index = 0)
  (hlex : Lexes lexer.sourceCode.data xs)
  (hvisits : ∀ v ∈ lexer.visits xs, LexerVisit lexer.sourceCode.data v)

include hstart hlex hvisits

/-- How a visit is scanned, by its first character. -/
theorem visit_wordScanned {v : Lexer × Lexeme} (hv : v ∈ lexer.visits xs) :
    ∃ c, v.2.text.head? = some c ∧ ∀ k, 0 < k → k ≤ v.2.text.length →
      ((lexer.sourceCode.data.take (v.1.index + k)).foldl wordStep .code = .word →
        isValidIdentifierStart c = true) ∧
      (isValidIdentifierStart c = true → k = v.2.text.length →
        (lexer.sourceCode.data.take (v.1.index + k)).foldl wordStep .code = .word) := by
  obtain ⟨-, hscan⟩ :=
    visit_scan (fun _ _ _ hsplit => (nextLexeme_wordScanned hsplit).settled) hstart hlex hv
  obtain ⟨c, cs, hahead, hnext⟩ := (hvisits v hv).ahead
  obtain ⟨rest, hrest⟩ := (hvisits v hv).text_front
  obtain ⟨t, htext, -⟩ := nextLexeme_text c cs
  have hscanned : WordScanned c (nextLexeme c cs).text rest :=
    nextLexeme_wordScanned (by rw [hnext, hrest, hahead])
  rw [hnext] at hscanned htext
  refine ⟨c, by rw [htext]; rfl, fun k hk hle => ?_⟩
  rw [hscan k hk hle]
  refine ⟨hscanned.inside k hk hle, fun hc hwhole => ?_⟩
  rw [hwhole, List.take_length]
  exact hscanned.word hc

/-- An underscore right behind a word that begins with a letter makes that word
end too early. -/
theorem not_maximalWords {i : Nat} (hsplits : SplitsName lexer.sourceCode.data i) :
    ¬ MaximalWords lexer.sourceCode.data ((lexer.visits xs).filterMap visitToken) := by
  intro hmax
  obtain ⟨hchar, hstate⟩ := hsplits
  have hlt : i < lexer.sourceCode.data.length := (List.getElem?_eq_some_iff.mp hchar).1
  have hpos : 0 < i := by
    rcases Nat.eq_zero_or_pos i with rfl | hpos
    · cases hstate
    · exact hpos
  -- the character in front of the underscore belongs to a word
  obtain ⟨v, hv, hin⟩ := visits_cover lexer xs (i := i - 1) (by omega)
    (by rw [hlex.text_eq]; omega)
  obtain ⟨k, hk⟩ := Nat.exists_eq_add_of_le hin.1
  obtain rfl : i = v.1.index + (k + 1) := by omega
  obtain ⟨c, hfirst, hscan⟩ := visit_wordScanned hstart hlex hvisits hv
  have hc := (hscan (k + 1) (by omega) (by omega)).1 hstate
  obtain ⟨⟨type, htype, hword⟩, hinside, -⟩ := (hvisits v hv).word hfirst (Or.inl hc)
  have hne : c ≠ '_'.toUInt8 := by
    intro heq
    obtain rfl := heq
    exact absurd hc (by decide)
  rcases Nat.lt_or_ge (k + 1) v.2.text.length with hlong | hend
  · rw [(hvisits v hv).getElem? hlong, ← List.getElem?_tail] at hchar
    have hclass := hinside _ (List.mem_of_getElem? hchar)
    simp only [wordChar, beq_iff_eq, hne, if_false] at hclass
    exact absurd hclass (by decide)
  · have htoken : visitToken v = some (v.2.tokenAt v.1 type) := by
      rw [visitToken, htype, Option.map_some]
    obtain ⟨hindex, -, hstring, -⟩ := (hvisits v hv).token htoken
    have hnoteof : (v.2.tokenAt v.1 type).type ≠ .eoft := by
      intro heq
      obtain rfl := heq
      exact absurd hword (by decide)
    have hplace : (v.2.tokenAt v.1 type).index + stringLength (v.2.tokenAt v.1 type).string =
        v.1.index + (k + 1) := by
      rw [hindex, stringLength, hstring hnoteof]
      omega
    have hdocumented := hmax _ (List.mem_filterMap.mpr ⟨v, hv, htoken⟩) hword
    rw [hplace] at hdocumented
    exact absurd (hdocumented _ hchar) (by decide)

/-- Without such an underscore every word reaches as far as documented. -/
theorem maximalWords_of_unsplit (hunsplit : ∀ i, ¬ SplitsName lexer.sourceCode.data i) :
    MaximalWords lexer.sourceCode.data ((lexer.visits xs).filterMap visitToken) := by
  intro t ht hword d hd
  obtain ⟨v, hv, htoken⟩ := List.mem_filterMap.mp ht
  obtain ⟨hindex, -, hstring, -⟩ := (hvisits v hv).token htoken
  have hnoteof : t.type ≠ .eoft := by
    intro h
    rw [h] at hword
    exact absurd hword (by decide)
  rw [hindex, stringLength, hstring hnoteof] at hd
  obtain ⟨type, htype, rfl⟩ := Option.map_eq_some_iff.mp htoken
  obtain ⟨c, hfirst, hscan⟩ := visit_wordScanned hstart hlex hvisits hv
  have hc : isValidIdentifierStart c = true ∨ c = '_'.toUInt8 := by
    obtain ⟨c', cs, -, hnext⟩ := (hvisits v hv).ahead
    obtain ⟨t, htext, -⟩ := nextLexeme_text c' cs
    rw [← hnext, htext] at hfirst
    obtain rfl := Option.some.inj hfirst
    exact nextLexeme_wordType (hnext ▸ htype) hword
  obtain ⟨-, -, hbehind⟩ := (hvisits v hv).word hfirst hc
  have hclass := hbehind d hd
  by_cases hunder : c = '_'.toUInt8
  · rw [wordChar, if_pos (by simpa using hunder)] at hclass
    exact hclass
  · have hletter := hc.resolve_right hunder
    have hstate := (hscan v.2.text.length (hvisits v hv).text_pos (Nat.le_refl _)).2 hletter rfl
    have hd_ : d ≠ '_'.toUInt8 := by
      intro heq
      obtain rfl := heq
      exact hunsplit _ ⟨hd, hstate⟩
    rw [wordChar, if_neg (by simpa using hunder)] at hclass
    rw [isValidIdentifierChar] at hclass
    rw [isDocumentedIdentifierChar, hclass]
    simpa using hd_

end Run

/-- **How far a word reaches.**  The words of a text are followed by no
character of an identifier exactly when no underscore stands right behind a
word that begins with a letter. -/
theorem LexerInput.maximalWords_iff (input : LexerInput) :
    MaximalWords input.source.data input.tokens ↔ ∀ i, ¬ SplitsName input.source.data i := by
  unfold LexerInput.tokens
  refine input.analyze_cases (P := fun l => MaximalWords input.source.data l.tokenList ↔ _) ?_ ?_
  · intro htext
    rw [input.atStart.tokenList]
    refine ⟨fun _ i hsplits => ?_, fun _ t ht => absurd ht List.not_mem_nil⟩
    -- the text is empty or an end-of-file character
    have hchar := List.mem_of_getElem? hsplits.1
    rcases input.source_data with h | h
    · rw [h, htext] at hchar
      exact absurd hchar List.not_mem_nil
    · rw [h, htext] at hchar
      exact absurd hchar (by decide)
  · intro xs _ hlex
    have hstart : input.lexer.index = 0 := input.atStart.index
    have hvisits := visits_lexerVisit (input.atStart.rest_eq.symm ▸ hlex)
    rw [takeAll_tokenList, input.atStart.tokenList, List.nil_append, placeTokens_eq_visits]
    constructor
    · intro hmax i hsplits
      exact not_maximalWords hstart hlex hvisits hsplits hmax
    · exact maximalWords_of_unsplit hstart hlex hvisits

/-- The name of a macro with an underscore in it is cut in front of the
underscore. -/
theorem maximalWords_complex_macro :
    ¬ MaximalWords (LexerInput.file "sample" (bytes "macr complex_macro\n")).source.data
      (LexerInput.file "sample" (bytes "macr complex_macro\n")).tokens := by
  intro hmax
  have hcut : ∃ t ∈ (LexerInput.file "sample" (bytes "macr complex_macro\n")).tokens,
      IsWordType t.type ∧ (LexerInput.file "sample"
        (bytes "macr complex_macro\n")).source.data[t.index + stringLength t.string]? =
          some '_'.toUInt8 := by
    decide +kernel
  obtain ⟨t, ht, hword, hchar⟩ := hcut
  exact absurd (hmax t ht hword _ hchar) (by decide)

end Assembler
