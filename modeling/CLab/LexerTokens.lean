import CLab.Lexemes

/-!
# The tokens of a text

What the later stages use about the lexer's token list: which characters stand
behind a token (`LexedToken`), that every token is a slice of the source
(`TokenSlice`), and that lexing is local: the lexemes in front of a character
do not depend on what comes after that character (`Lexes.change_tail`).
-/

namespace Assembler

/-- The tokens of a list of lexemes, the first of which starts where the lexer
stands. -/
def placeTokens (lexer : Lexer) : List Lexeme → List Token
  | [] => []
  | x :: xs => (x.type.map (x.tokenAt lexer)).toList ++ placeTokens (lexer.take x) xs

/-- The characters of a list of lexemes. -/
def lexemesText (xs : List Lexeme) : List UInt8 :=
  xs.flatMap Lexeme.text

@[simp] theorem lexemesText_nil : lexemesText [] = [] := rfl

@[simp] theorem lexemesText_cons (x : Lexeme) (xs : List Lexeme) :
    lexemesText (x :: xs) = x.text ++ lexemesText xs := rfl

@[simp] theorem lexemesText_append (xs ys : List Lexeme) :
    lexemesText (xs ++ ys) = lexemesText xs ++ lexemesText ys := by
  simp [lexemesText]

@[simp] theorem takeAll_nil (lexer : Lexer) : lexer.takeAll [] = lexer := rfl

@[simp] theorem takeAll_cons (lexer : Lexer) (x : Lexeme) (xs : List Lexeme) :
    lexer.takeAll (x :: xs) = (lexer.take x).takeAll xs := rfl

/-- The index moves by the length of the text. -/
theorem takeAll_index (lexer : Lexer) (xs : List Lexeme) :
    (lexer.takeAll xs).index = lexer.index + (lexemesText xs).length := by
  induction xs generalizing lexer with
  | nil => rfl
  | cons x xs ih =>
      rw [takeAll_cons, ih, take_index, lexemesText_cons, List.length_append]
      omega

@[simp] theorem takeAll_sourceCode (lexer : Lexer) (xs : List Lexeme) :
    (lexer.takeAll xs).sourceCode = lexer.sourceCode := by
  induction xs generalizing lexer with
  | nil => rfl
  | cons x xs ih => rw [takeAll_cons, ih, take_sourceCode]

/-- The tokens of the lexemes are added in order. -/
theorem takeAll_tokenList (lexer : Lexer) (xs : List Lexeme) :
    (lexer.takeAll xs).tokenList = lexer.tokenList ++ placeTokens lexer xs := by
  induction xs generalizing lexer with
  | nil => simp [placeTokens]
  | cons x xs ih =>
      rw [takeAll_cons, ih, placeTokens, ← List.append_assoc]
      rfl

/-- The tokens of two runs, the second from where the first ends. -/
theorem placeTokens_append (lexer : Lexer) (xs ys : List Lexeme) :
    placeTokens lexer (xs ++ ys) =
      placeTokens lexer xs ++ placeTokens (lexer.takeAll xs) ys := by
  induction xs generalizing lexer with
  | nil => rfl
  | cons x xs ih => simp [placeTokens, ih]

/-- The lexemes of a text are its characters. -/
theorem Lexes.text_eq {text : List UInt8} {xs : List Lexeme} (h : Lexes text xs) :
    lexemesText xs = text := by
  induction h with
  | nil => rfl
  | cons _ hsplit _ ih => rw [lexemesText_cons, ih, hsplit]

/-- Every lexeme of a text has characters. -/
theorem Lexes.text_pos {text : List UInt8} {xs : List Lexeme} (h : Lexes text xs) :
    ∀ x ∈ xs, 0 < x.text.length := by
  induction h with
  | nil => simp
  | @cons c cs _ _ _ hx _ _ ih =>
      obtain ⟨t, ht, _⟩ := nextLexeme_text c cs
      exact List.forall_mem_cons.mpr ⟨by rw [← hx, ht]; simp, ih⟩

/-- What is left after some of the lexemes is a text of its own. -/
theorem Lexes.drop {text : List UInt8} {xs ys : List Lexeme} (h : Lexes text (xs ++ ys)) :
    ∃ rest, text = lexemesText xs ++ rest ∧ Lexes rest ys := by
  induction xs generalizing text with
  | nil => exact ⟨text, rfl, h⟩
  | cons x xs ih =>
      cases h with
      | cons _ hsplit tail =>
          obtain ⟨rest, hrest, hys⟩ := ih tail
          exact ⟨rest, by rw [hsplit, hrest, lexemesText_cons, List.append_assoc], hys⟩

/-- The lexemes of a text, computed; `fuel` bounds its length. -/
def lexemesOf : Nat → List UInt8 → List Lexeme
  | 0, _ => []
  | _ + 1, [] => []
  | fuel + 1, c :: cs =>
      nextLexeme c cs :: lexemesOf fuel ((c :: cs).drop (nextLexeme c cs).text.length)

/-- With enough fuel the lexemes of a text can be computed. -/
theorem lexes_lexemesOf {fuel : Nat} {text : List UInt8} (h : text.length ≤ fuel) :
    Lexes text (lexemesOf fuel text) := by
  induction fuel generalizing text with
  | zero =>
      obtain rfl := List.length_eq_zero_iff.mp (Nat.le_zero.mp h)
      exact Lexes.nil
  | succ fuel ih =>
      cases text with
      | nil => exact Lexes.nil
      | cons c cs =>
          obtain ⟨t, htext, rest, hcs⟩ := nextLexeme_text c cs
          have hsplit : c :: cs = (nextLexeme c cs).text ++ rest := by rw [htext, ← hcs]; rfl
          have hdrop : (c :: cs).drop (nextLexeme c cs).text.length = rest := by
            rw [hsplit, List.drop_left]
          have hlength : rest.length ≤ fuel := by
            rw [← hcs, List.length_cons, List.length_append] at h
            omega
          rw [lexemesOf, hdrop]
          exact Lexes.cons rfl hsplit (ih hlength)

/-- Every text has lexemes. -/
theorem Lexes.exists (text : List UInt8) : ∃ xs, Lexes text xs :=
  ⟨_, lexes_lexemesOf (Nat.le_refl _)⟩

/-- The lexer, computed from the lexemes. -/
theorem lexerAnalyze_lexemesOf {lexer : Lexer} (hs : lexer.Synced) {fuel : Nat}
    (h : lexer.rest.length ≤ fuel) :
    lexerAnalyze lexer = lexer.takeAll (lexemesOf fuel lexer.rest) := by
  obtain ⟨xs, hlex, heq⟩ := lexerAnalyze_eq hs
  rw [heq, hlex.unique (lexes_lexemesOf h)]

/-- A token of the list is the token of a lexeme, and splits the lexemes where
it splits the tokens. -/
theorem placeTokens_split {lexer : Lexer} {xs : List Lexeme} {before after : List Token}
    {t : Token} (h : placeTokens lexer xs = before ++ t :: after) :
    ∃ ys x zs, xs = ys ++ x :: zs ∧ x.type = some t.type ∧
      t = x.tokenAt (lexer.takeAll ys) t.type ∧ placeTokens lexer ys = before ∧
      placeTokens (lexer.takeAll (ys ++ [x])) zs = after := by
  induction xs generalizing lexer before with
  | nil => simp [placeTokens] at h
  | cons x xs ih =>
      cases htype : x.type with
      | none =>
          simp only [placeTokens, htype, Option.map_none, Option.toList_none,
            List.nil_append] at h
          obtain ⟨ys, y, zs, rfl, hy, ht, hbefore, hafter⟩ := ih h
          exact ⟨x :: ys, y, zs, rfl, hy, ht, by simpa [placeTokens, htype] using hbefore, hafter⟩
      | some type =>
          simp only [placeTokens, htype, Option.map_some, Option.toList_some,
            List.singleton_append] at h
          cases before with
          | nil =>
              obtain ⟨rfl, rfl⟩ := List.cons.inj h
              exact ⟨[], x, xs, rfl, htype, rfl, rfl, rfl⟩
          | cons b before =>
              obtain ⟨hb, hrest⟩ := List.cons.inj h
              obtain ⟨ys, y, zs, rfl, hy, ht, hbefore, hafter⟩ := ih hrest
              exact ⟨x :: ys, y, zs, rfl, hy, ht,
                by simp [placeTokens, htype, hb, hbefore], hafter⟩

/-! ## Every token is a slice of the source -/

/-- The string of the token stands in the text at the token's index. -/
def TokenSlice (text : List UInt8) (t : Token) : Prop :=
  t.string.data <+: text.drop t.index

/-- A lexeme that starts where its text stands in the source gives a slice. -/
theorem tokenAt_slice {lexer : Lexer} {x : Lexeme} {type : TokenType}
    (hx : x.text <+: lexer.rest) : TokenSlice lexer.sourceCode.data (x.tokenAt lexer type) := by
  have hno : 0 ∉ x.text := fun h => rest_noNul lexer (hx.subset h)
  show (if type = .eoft then stringCreate else stringCreateFromCstr x.text).data <+: lexer.rest
  split
  · exact List.nil_prefix
  · rw [fromCstr_noNul hno]
    exact hx

/-- Every token is a slice of the source. -/
theorem placeTokens_slice {lexer : Lexer} {xs : List Lexeme} (h : Lexes lexer.rest xs) :
    ∀ t ∈ placeTokens lexer xs, TokenSlice lexer.sourceCode.data t := by
  induction xs generalizing lexer with
  | nil => simp [placeTokens]
  | cons x xs ih =>
      generalize hrest : lexer.rest = text at h
      cases h with
      | @cons _ _ rest _ _ _ hsplit tail =>
          have hx : x.text <+: lexer.rest := ⟨rest, by rw [hrest, hsplit]⟩
          have htail : Lexes (lexer.take x).rest xs := by
            rw [take_rest, hrest, hsplit, List.drop_left]
            exact tail
          intro t ht
          rcases List.mem_append.mp ht with ht | ht
          · obtain ⟨type, _, rfl⟩ := Option.map_eq_some_iff.mp (Option.mem_toList.mp ht)
            exact tokenAt_slice hx
          · exact take_sourceCode lexer x ▸ ih htail t ht

/-! ## Lexing is local -/

/-- A run that ends in time does not see what comes later. -/
theorem takeWhile_change_tail {p : UInt8 → Bool} {u v : List UInt8} {d : UInt8}
    (h : ((u ++ d :: v).takeWhile p).length ≤ u.length) (w : List UInt8) :
    (u ++ d :: w).takeWhile p = (u ++ d :: v).takeWhile p := by
  induction u with
  | nil =>
      by_cases hd : p d = true
      · simp [hd] at h
      · simp [hd]
  | cons a u ih =>
      by_cases ha : p a = true
      · simp only [List.cons_append, List.takeWhile_cons, ha, if_true, List.length_cons] at h ⊢
        rw [ih (by omega)]
      · simp [ha]

theorem quotedText_change_tail {u v : List UInt8} {d : UInt8}
    (h : (quotedText (u ++ d :: v)).1.length ≤ u.length) (w : List UInt8) :
    quotedText (u ++ d :: w) = quotedText (u ++ d :: v) := by
  induction u with
  | nil =>
      by_cases hq : d = '\"'.toUInt8
      · simp [hq, quotedText_quote]
      · by_cases he : d = eofChar
        · simp [he, quotedText_eof]
        · simp [quotedText_cons hq he] at h
  | cons a u ih =>
      by_cases hq : a = '\"'.toUInt8
      · simp [hq, quotedText_quote]
      · by_cases he : a = eofChar
        · simp [he, quotedText_eof]
        · simp only [List.cons_append, quotedText_cons hq he, List.length_cons] at h ⊢
          rw [ih (by omega)]

/-- A lexeme that ends in front of a character does not depend on what comes
after that character. -/
theorem nextLexeme_change_tail {c d : UInt8} {u v : List UInt8}
    (h : (nextLexeme c (u ++ d :: v)).text.length ≤ u.length + 1) (w : List UInt8) :
    nextLexeme c (u ++ d :: w) = nextLexeme c (u ++ d :: v) := by
  revert h
  refine nextLexeme_branches (P := fun f => (f (u ++ d :: v)).text.length ≤ u.length + 1 →
    f (u ++ d :: w) = f (u ++ d :: v)) c ?_ ?_ ?_ ?_ ?_ ?_ ?_ ?_ ?_ ?_
  · exact fun _ _ => rfl
  · intro _ h
    simp only
    rw [takeWhile_change_tail (by simpa using h) w]
  · exact fun _ _ => rfl
  · exact fun _ _ => rfl
  · exact fun _ _ => rfl
  · intro _ h
    simp only
    rw [takeWhile_change_tail (by simpa using h) w]
  · intro _ h
    simp only
    rw [quotedText_change_tail (by simpa using h) w]
  · intro _ h
    simp only
    rw [takeWhile_change_tail (by simpa using h) w]
  · intro _ h
    simp only
    rw [takeWhile_change_tail (by simpa using h) w]
  · exact fun _ _ => rfl

/-- **Locality.**  The lexemes in front of a character stay the same when the
text after that character changes. -/
theorem Lexes.change_tail {d : UInt8} {v w : List UInt8} {xs ys zs : List Lexeme}
    (h : Lexes (lexemesText xs ++ d :: v) (xs ++ ys)) (hw : Lexes (d :: w) zs) :
    Lexes (lexemesText xs ++ d :: w) (xs ++ zs) := by
  generalize htext : lexemesText xs ++ d :: v = text at h
  induction xs generalizing text with
  | nil => exact hw
  | cons x xs ih =>
      cases h with
      | @cons c cs rest _ _ hx hsplit tail =>
          obtain ⟨t, hxt, _⟩ := nextLexeme_text c cs
          rw [hx] at hxt
          have hrest : rest = lexemesText xs ++ d :: v := by
            rw [hsplit, lexemesText_cons, List.append_assoc] at htext
            exact (List.append_cancel_left htext).symm
          have hcs : cs = (t ++ lexemesText xs) ++ d :: v := by
            rw [hxt, hrest] at hsplit
            simpa using hsplit
          have hsame : nextLexeme c ((t ++ lexemesText xs) ++ d :: w) = x := by
            rw [← hx, hcs]
            refine nextLexeme_change_tail ?_ w
            rw [← hcs, hx, hxt]
            simp
          have hgoal : lexemesText (x :: xs) ++ d :: w =
              c :: ((t ++ lexemesText xs) ++ d :: w) := by
            simp [hxt]
          rw [hgoal]
          refine Lexes.cons hsame ?_ (ih rest hrest.symm tail)
          simp [hxt]

/-- The lexemes of a text that end before a point stay when only the text from
that point on changes. -/
theorem Lexes.keep_front {text changed : List UInt8} {xs ys : List Lexeme} {k : Nat}
    (h : Lexes text (xs ++ ys)) (hlt : (lexemesText xs).length < k) (hk : k ≤ text.length)
    (hpre : text.take k <+: changed) : ∃ zs, Lexes changed (xs ++ zs) := by
  have htext : lexemesText xs ++ lexemesText ys = text := by
    rw [← lexemesText_append, h.text_eq]
  cases hys : lexemesText ys with
  | nil =>
      rw [hys, List.append_nil] at htext
      rw [htext] at hlt
      omega
  | cons d v =>
      rw [hys] at htext
      have hfront : lexemesText xs ++ [d] <+: text.take k := by
        rw [List.prefix_take_iff, ← htext]
        exact ⟨⟨v, by simp⟩, by simp; omega⟩
      obtain ⟨w, rfl⟩ := hfront.trans hpre
      obtain ⟨zs, hzs⟩ := Lexes.exists (d :: w)
      refine ⟨zs, ?_⟩
      simpa using Lexes.change_tail (htext ▸ h) hzs

/-! ## What a token's type says about its characters -/

/-- The characters behind a token, as far as its type determines them. -/
structure LexedToken (t : Token) : Prop where
  register : t.type = .register →
    ∃ n < 8, t.string.data = ['r'.toUInt8, UInt8.ofNat (48 + n)]
  string : t.type = .string →
    ∃ body, t.string.data = '\"'.toUInt8 :: body ++ ['\"'.toUInt8]
  identifier : t.type = .identifier →
    t.string.data ≠ [] ∧ ∀ d ∈ t.string.data, isValidMacroChar d = true

/-- A string that is closed ends with a quote. -/
theorem quotedText_closed {cs : List UInt8} (h : (quotedText cs).2 = true) :
    ∃ body, (quotedText cs).1 = body ++ ['\"'.toUInt8] := by
  unfold quotedText at h ⊢
  split at h
  · rename_i hq
    exact ⟨quotedBody cs, by rw [if_pos hq]⟩
  · simp at h

/-- The keyword found for a text is an entry of the table with that text. -/
theorem keywordOf_mem {table : List (String × TokenType)} {text : List UInt8} {type : TokenType}
    (h : keywordOf table text = some type) :
    ∃ entry ∈ table, text = bytes entry.1 ∧ entry.2 = type := by
  obtain ⟨entry, hentry, rfl⟩ := Option.map_eq_some_iff.mp h
  exact ⟨entry, List.mem_of_find?_eq_some hentry,
    by simpa using List.find?_some hentry, rfl⟩

/-- What the type of a lexeme's token says about the characters. -/
def Lexeme.Shaped (x : Lexeme) : Prop :=
  (x.type = some .register → ∃ n < 8, x.text = ['r'.toUInt8, UInt8.ofNat (48 + n)]) ∧
  (x.type = some .string → ∃ body, x.text = '\"'.toUInt8 :: body ++ ['\"'.toUInt8]) ∧
  (x.type = some .identifier → ∀ d ∈ x.text, isValidMacroChar d = true)

/-- Only registers, strings and identifiers have a shape to keep. -/
theorem Lexeme.shaped_of_ne {x : Lexeme} (hr : x.type ≠ some .register)
    (hs : x.type ≠ some .string) (hi : x.type ≠ some .identifier) : x.Shaped :=
  ⟨fun h => absurd h hr, fun h => absurd h hs, fun h => absurd h hi⟩

/-- Separators need none. -/
theorem separatorType_shaped (c : UInt8) :
    Lexeme.Shaped ⟨[c], some (separatorType c), none⟩ := by
  unfold separatorType
  split_ifs <;> exact Lexeme.shaped_of_ne nofun nofun nofun

theorem nonOpLexeme_shaped (text : List UInt8) : (nonOpLexeme text).Shaped := by
  have hentries : ∀ entry ∈ nonOpInstructions,
      entry.2 ≠ .register ∧ entry.2 ≠ .string ∧ entry.2 ≠ .identifier := by decide
  unfold nonOpLexeme
  cases hkey : keywordOf nonOpInstructions text with
  | none => exact Lexeme.shaped_of_ne nofun nofun nofun
  | some type =>
      obtain ⟨entry, hmem, _, rfl⟩ := keywordOf_mem hkey
      obtain ⟨hr, hs, hi⟩ := hentries entry hmem
      exact Lexeme.shaped_of_ne (by simpa using hr) (by simpa using hs) (by simpa using hi)

theorem wordLexeme_shaped {text : List UInt8} (htext : ∀ d ∈ text, isValidMacroChar d = true) :
    (wordLexeme text).Shaped := by
  have hentries : ∀ entry ∈ keywords, entry.2 ≠ .string ∧ entry.2 ≠ .identifier ∧
      (entry.2 = .register → ∃ n < 8, bytes entry.1 = ['r'.toUInt8, UInt8.ofNat (48 + n)]) := by
    decide
  refine ⟨fun h => ?_, fun h => ?_, fun _ => htext⟩
  all_goals
    cases hkey : keywordOf keywords text with
    | none => simp [wordLexeme, hkey] at h
    | some type =>
        obtain ⟨entry, hmem, rfl, rfl⟩ := keywordOf_mem hkey
        obtain ⟨hs, _, hr⟩ := hentries entry hmem
        simp only [wordLexeme, hkey, Option.getD_some, Option.some.injEq] at h
        first | exact hr h | exact absurd h hs

theorem wordRun_macroChars {c : UInt8} (hc : isValidIdentifierStart c = true ∨ c = '_'.toUInt8)
    (cs : List UInt8) : ∀ d ∈ c :: cs.takeWhile (wordChar c), isValidMacroChar d = true := by
  intro d hd
  rcases List.mem_cons.mp hd with rfl | hd
  · rcases hc with hc | rfl
    · simp [isValidMacroChar, hc]
    · decide
  · have hword := List.mem_takeWhile_imp hd
    unfold wordChar at hword
    split at hword
    · exact hword
    · simp only [isValidIdentifierChar, Bool.or_eq_true] at hword
      simp only [isValidMacroChar, Bool.or_eq_true]
      exact Or.inl hword

/-- Strings have their quotes. -/
theorem stringLexeme_shaped (cs : List UInt8) : (stringLexeme (quotedText cs)).Shaped := by
  unfold stringLexeme
  split
  · rename_i hclosed
    obtain ⟨body, hbody⟩ := quotedText_closed hclosed
    exact ⟨nofun, fun _ => ⟨body, by rw [hbody]; rfl⟩, nofun⟩
  · exact Lexeme.shaped_of_ne nofun nofun nofun

theorem numberLexeme_shaped (text : List UInt8) : (numberLexeme text).Shaped := by
  unfold numberLexeme
  split <;> exact Lexeme.shaped_of_ne nofun nofun nofun

/-- So every lexeme has its shape. -/
theorem nextLexeme_shaped (c : UInt8) (cs : List UInt8) : (nextLexeme c cs).Shaped := by
  refine nextLexeme_cases c cs ?_ ?_ ?_ ?_ ?_ ?_ ?_ ?_ ?_ ?_
  · exact fun _ => Lexeme.shaped_of_ne nofun nofun nofun
  · exact fun _ => Lexeme.shaped_of_ne nofun nofun nofun
  · exact fun _ => Lexeme.shaped_of_ne nofun nofun nofun
  · exact fun _ => Lexeme.shaped_of_ne nofun nofun nofun
  · exact fun _ => separatorType_shaped c
  · exact fun _ => numberLexeme_shaped _
  · exact fun _ => stringLexeme_shaped cs
  · exact fun _ => nonOpLexeme_shaped _
  · exact fun hc => wordLexeme_shaped (wordRun_macroChars hc cs)
  · exact fun _ => Lexeme.shaped_of_ne nofun nofun nofun

/-- A token has the type and the characters of a lexeme that is read. -/
theorem placeTokens_read {lexer : Lexer} {xs : List Lexeme} (h : Lexes lexer.rest xs) :
    ∀ t ∈ placeTokens lexer xs, ∃ c cs, c ≠ 0 ∧ (nextLexeme c cs).type = some t.type ∧
      (t.type ≠ .eoft → t.string.data = (nextLexeme c cs).text) := by
  intro t ht
  obtain ⟨before, after, hsplit⟩ := List.append_of_mem ht
  obtain ⟨ys, x, zs, rfl, hx, htok, -, -⟩ := placeTokens_split hsplit
  obtain ⟨rest, hrest, hlex⟩ := h.drop
  cases hlex with
  | @cons c cs rest' _ _ hnext hsplit' tail =>
      subst hnext
      obtain ⟨u, hu, -⟩ := nextLexeme_text c cs
      have hno : 0 ∉ (nextLexeme c cs).text := by
        intro hz
        apply rest_noNul lexer
        rw [hrest, hsplit']
        simp [hz]
      refine ⟨c, cs, ?_, hx, fun hne => ?_⟩
      · intro heq
        obtain rfl := heq
        exact hno (by simp [hu])
      · rw [htok]
        simp [Lexeme.tokenAt, hne, fromCstr_noNul hno]

/-- **Every token the lexer makes is a lexed token.** -/
theorem placeTokens_lexed {lexer : Lexer} {xs : List Lexeme} (h : Lexes lexer.rest xs) :
    ∀ t ∈ placeTokens lexer xs, LexedToken t := by
  intro t ht
  obtain ⟨c, cs, -, hx, hstring⟩ := placeTokens_read h t ht
  obtain ⟨hreg, hstr, hid⟩ := nextLexeme_shaped c cs
  obtain ⟨u, hu, -⟩ := nextLexeme_text c cs
  refine ⟨fun hr => ?_, fun hs => ?_, fun hi => ?_⟩
  · rw [hstring (by simp [hr])]
    exact hreg (by rw [hx, hr])
  · rw [hstring (by simp [hs])]
    exact hstr (by rw [hx, hs])
  · rw [hstring (by simp [hi])]
    exact ⟨by simp [hu], hid (by rw [hx, hi])⟩

/-- A token as a later stage reads it, wherever it stands in the text. -/
def Token.kind (t : Token) : TokenType × CString := (t.type, t.string)

/-- The token a lexeme leaves, wherever it stands. -/
def Lexeme.kind (x : Lexeme) : Option (TokenType × CString) :=
  x.type.map fun type =>
    (type, if type = .eoft then stringCreate else stringCreateFromCstr x.text)

/-- What a text is split into does not depend on where the lexer stands. -/
theorem placeTokens_kind (lexer : Lexer) (xs : List Lexeme) :
    (placeTokens lexer xs).map Token.kind = xs.filterMap Lexeme.kind := by
  induction xs generalizing lexer with
  | nil => rfl
  | cons x xs ih =>
      rw [placeTokens, List.map_append, ih]
      cases htype : x.type with
      | none =>
          have hkind : x.kind = none := by simp [Lexeme.kind, htype]
          simp [hkind]
      | some type =>
          have hkind : x.kind = some (x.tokenAt lexer type).kind := by
            simp [Lexeme.kind, htype, Token.kind, Lexeme.tokenAt]
          simp [hkind]

/-- Lexing a text in two places gives the same tokens. -/
theorem lexerAnalyze_kind {lexer lexer' : Lexer} (hs : lexer.Synced) (hs' : lexer'.Synced)
    (hrest : lexer.rest = lexer'.rest) (hempty : lexer.tokenList = [])
    (hempty' : lexer'.tokenList = []) :
    (lexerAnalyze lexer).tokenList.map Token.kind =
      (lexerAnalyze lexer').tokenList.map Token.kind := by
  obtain ⟨xs, hlex, heq⟩ := lexerAnalyze_eq hs
  obtain ⟨xs', hlex', heq'⟩ := lexerAnalyze_eq hs'
  obtain rfl := hlex.unique (hrest ▸ hlex')
  rw [heq, heq', takeAll_tokenList, takeAll_tokenList, hempty, hempty']
  simp [placeTokens_kind]

/-! ## The end of the text -/

/-- No lexeme but the end-of-file one holds an end-of-file character. -/
theorem nextLexeme_eof {c : UInt8} {cs : List UInt8}
    (h : eofChar ∈ (nextLexeme c cs).text) :
    nextLexeme c cs = ⟨[eofChar], some .eoft, none⟩ := by
  have hrun : ∀ {p : UInt8 → Bool}, p eofChar = false → eofChar ∉ cs.takeWhile p := by
    intro p hp hmem
    have := List.mem_takeWhile_imp hmem
    simp [hp] at this
  have hquoted : eofChar ∉ (quotedText cs).1 := by
    have hbody : eofChar ∉ quotedBody cs := hrun (by simp)
    unfold quotedText
    split
    · simpa [hbody] using by decide
    · exact hbody
  revert h
  refine nextLexeme_cases (P := fun x => eofChar ∈ x.text →
    x = ⟨[eofChar], some .eoft, none⟩) c cs ?_ ?_ ?_ ?_ ?_ ?_ ?_ ?_ ?_ ?_
  · intro hblank hmem
    obtain rfl : eofChar = c := by simpa using hmem
    exact absurd hblank (by decide)
  · intro heq hmem
    obtain rfl := heq
    exact absurd hmem (by simpa using ⟨by decide, hrun (by simp)⟩)
  · intro heq hmem
    obtain rfl := heq
    exact absurd hmem (by decide)
  · intro heq _
    obtain rfl := heq
    rfl
  · intro hsep hmem
    obtain rfl : eofChar = c := by simpa using hmem
    exact absurd hsep (by decide)
  · intro hnum hmem
    rw [numberLexeme_text, List.mem_cons] at hmem
    rcases hmem with rfl | hmem
    · exact absurd hnum (by decide)
    · exact absurd hmem (hrun (by decide))
  · intro _ hmem
    rw [stringLexeme_text, List.mem_cons] at hmem
    exact absurd hmem (by simpa using ⟨by decide, hquoted⟩)
  · intro heq hmem
    obtain rfl := heq
    rw [nonOpLexeme_text, List.mem_cons] at hmem
    exact absurd hmem (by simpa using ⟨by decide, hrun (by decide)⟩)
  · intro hword hmem
    rw [wordLexeme_text] at hmem
    exact absurd (wordRun_macroChars hword cs _ hmem) (by decide)
  · intro hne hmem
    exact absurd (by simpa using hmem) (Ne.symm hne)

/-- A text that ends in an end-of-file character ends in its lexeme. -/
theorem Lexes.eof_last {text : List UInt8} {xs : List Lexeme} (h : Lexes text xs)
    {front : List UInt8} (htext : text = front ++ [eofChar]) :
    ∃ ys, xs = ys ++ [⟨[eofChar], some .eoft, none⟩] := by
  induction h generalizing front with
  | nil => simp at htext
  | @cons c cs rest x xs hx hsplit tail ih =>
      rw [hsplit] at htext
      cases hrest : rest.reverse with
      | nil =>
          have hnil : rest = [] := by simpa using hrest
          subst hnil
          have heof : x = ⟨[eofChar], some .eoft, none⟩ := by
            rw [← hx]
            apply nextLexeme_eof
            rw [hx, (by simpa using htext : x.text = front ++ [eofChar])]
            simp
          cases tail
          exact ⟨[], by simp [heof]⟩
      | cons last init =>
          have hrest' : rest = init.reverse ++ [last] := by
            simpa using congrArg List.reverse hrest
          have hlast : last = eofChar := by
            have h := congrArg List.getLast? htext
            simpa [hrest'] using h
          obtain ⟨ys, rfl⟩ := ih (hlast ▸ hrest')
          exact ⟨x :: ys, rfl⟩

/-- The lexer has gone over a text, a file or a string of the source. -/
inductive LexerOutput : Lexer → Prop
  | cstr (sourceString : List UInt8) :
      LexerOutput (lexerAnalyze (lexerInitializeFromCstr sourceString))
  | file (filePath : String) (contents : List UInt8) :
      LexerOutput (lexerAnalyze (lexerInitializeFromFile filePath contents))
  | string (filePath : String) (sourceCode : CString) :
      LexerOutput (lexerAnalyze (lexerInitializeFromString filePath sourceCode))

/-- What is true of the tokens of every text is true of those of the lexer. -/
theorem LexerOutput.forall_tokens {P : Token → Prop}
    (hplaced : ∀ {start : Lexer} {xs : List Lexeme}, Lexes start.rest xs →
      ∀ t ∈ placeTokens start xs, P t)
    {lexer : Lexer} (h : LexerOutput lexer) : ∀ t ∈ lexer.tokenList, P t := by
  have hanalyze : ∀ start : Lexer, start.Synced → start.tokenList = [] →
      ∀ t ∈ (lexerAnalyze start).tokenList, P t := by
    intro start hsynced hnone
    obtain ⟨xs, hlex, heq⟩ := lexerAnalyze_eq hsynced
    rw [heq, takeAll_tokenList, hnone, List.nil_append]
    exact hplaced hlex
  cases h with
  | cstr sourceString =>
      by_cases hempty : (stringCreateFromCstr sourceString).data = []
      · -- The current character of an empty text is its NUL, so nothing is read.
        have hsame : lexerAnalyze (lexerInitializeFromCstr sourceString) =
            lexerInitializeFromCstr sourceString := by
          apply While.loop_exit
          simp [lexerInitializeFromCstr, stringCharAt, hempty]
        rw [hsame]
        simp [lexerInitializeFromCstr]
      · refine hanalyze _ ?_ rfl
        obtain ⟨ch, rest, hdata⟩ := List.exists_cons_of_ne_nil hempty
        rw [Lexer.Synced]
        simp only [lexerInitializeFromCstr, stringCharAt,
          stringAppendChar_data (show eofChar ≠ 0 by decide), hdata]
        rfl
  | file filePath contents => exact hanalyze _ rfl rfl
  | string filePath sourceCode => exact hanalyze _ rfl rfl

/-- A lexer that has run has lexed tokens only. -/
theorem LexerOutput.lexed {lexer : Lexer} (h : LexerOutput lexer) :
    ∀ t ∈ lexer.tokenList, LexedToken t :=
  h.forall_tokens placeTokens_lexed

end Assembler
