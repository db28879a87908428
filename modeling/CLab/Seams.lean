import CLab.LexerCoverage

/-!
# Lexemes put next to each other

A lexeme may run on into the character that is put behind it: the digits of a
number, the letters of a directive or a word, the text of a comment.  Where
nothing runs on, lexemes from different places are read again one by one
(`Seamless.lexes`); where one does, the lexeme that is read is longer
(`nextLexeme_longer`).
-/

namespace Assembler

/-- The character goes on with a lexeme that begins with `c`. -/
def continues (c d : UInt8) : Bool :=
  if c = ';'.toUInt8 then d != eofChar && d != '\n'.toUInt8
  else if isDigit c || charExistsInString c (bytes "+-") then isDigit d
  else if c = '.'.toUInt8 then isValidIdentifierStart d
  else if isValidIdentifierStart c || c = '_'.toUInt8 then wordChar c d
  else false

/-- The lexeme goes on with the text behind it. -/
def Lexeme.RunsOn (x : Lexeme) (rest : List UInt8) : Prop :=
  ∃ d ∈ rest.head?, continues (x.text.headD 0) d = true

/-- No lexeme of a kind runs on into those behind it. -/
def Stops (kind : Lexeme → Prop) : List Lexeme → Prop
  | [] => True
  | x :: xs => (kind x → ¬ x.RunsOn (lexemesText xs)) ∧ Stops kind xs

/-- No lexeme runs on into those behind it. -/
def Seamless (xs : List Lexeme) : Prop := Stops (fun _ => True) xs

/-- No lexeme without a token runs on into those behind it. -/
def CommentsEnd (xs : List Lexeme) : Prop := Stops (fun x => x.type = none) xs

/-! ## The first character -/

/-- A comment goes on to the end of its line. -/
theorem continues_comment (d : UInt8) :
    continues ';'.toUInt8 d = (d != eofChar && d != '\n'.toUInt8) := if_pos rfl

theorem continues_number {c : UInt8} (h0 : c ≠ 0)
    (hc : isDigit c = true ∨ charExistsInString c (bytes "+-") = true) (d : UInt8) :
    continues c d = isDigit d := by
  have hother : ∀ c : UInt8, c ≠ 0 →
      (isDigit c = true ∨ charExistsInString c (bytes "+-") = true) → c ≠ ';'.toUInt8 :=
    forall_char (by decide +kernel)
  have hnumber : (isDigit c || charExistsInString c (bytes "+-")) = true := by simpa using hc
  rw [continues, if_neg (hother c h0 hc), if_pos hnumber]

theorem continues_dot (d : UInt8) : continues '.'.toUInt8 d = isValidIdentifierStart d := by
  rw [continues, if_neg (by decide), if_neg (by decide), if_pos rfl]

theorem continues_word {c : UInt8} (hc : isValidIdentifierStart c = true ∨ c = '_'.toUInt8)
    (d : UInt8) : continues c d = wordChar c d := by
  have hother : ∀ c : UInt8, (isValidIdentifierStart c = true ∨ c = '_'.toUInt8) →
      c ≠ ';'.toUInt8 ∧ (isDigit c || charExistsInString c (bytes "+-")) = false ∧
        c ≠ '.'.toUInt8 := forall_char (by decide +kernel)
  obtain ⟨hcomment, hnumber, hdot⟩ := hother c hc
  have hword : (isValidIdentifierStart c || decide (c = '_'.toUInt8)) = true := by simpa using hc
  rw [continues, if_neg hcomment, if_neg (by rw [hnumber]; simp), if_neg hdot, if_pos hword]

/-- An unknown character is a lexeme by itself. -/
theorem nextLexeme_unknown {c : UInt8} (hc : isUnknownChar c = true) (cs : List UInt8) :
    nextLexeme c cs = ⟨[c], none, some .unknownChar⟩ := by
  simp only [isUnknownChar, Bool.not_eq_true', Bool.or_eq_false_iff, beq_eq_false_iff_ne,
    ne_eq] at hc
  obtain ⟨⟨⟨⟨⟨⟨⟨⟨⟨⟨hblank, hcomment⟩, hnewline⟩, heof⟩, hsep⟩, hdigit⟩, hsign⟩, hquote⟩,
    hdot⟩, hstart⟩, hunder⟩ := hc
  simp [nextLexeme, hblank, hcomment, hnewline, heof, hsep, hdigit, hsign, hquote, hdot,
    hstart, hunder]

/-- Whether a lexeme has a token is decided by its first character. -/
theorem nextLexeme_untyped_iff {c : UInt8} (cs : List UInt8) :
    (nextLexeme c cs).type = none ↔
      isWhitespace c = true ∨ c = ';'.toUInt8 ∨ isUnknownChar c = true := by
  constructor
  · intro h
    rcases nextLexeme_untyped h with ⟨h, -⟩ | ⟨h, -⟩ | ⟨h, -⟩
    · exact Or.inl h
    · exact Or.inr (Or.inl h)
    · exact Or.inr (Or.inr h)
  · intro hcases
    rcases hcases with h | rfl | h
    · rw [nextLexeme, if_pos h]
    · rw [nextLexeme_semicolon]
    · rw [nextLexeme_unknown h]

/-- An end of line is a newline. -/
theorem nextLexeme_eol {c : UInt8} {cs : List UInt8}
    (h : (nextLexeme c cs).type = some .eol) : c = '\n'.toUInt8 := by
  revert h
  have hnonOp : ∀ entry ∈ nonOpInstructions, entry.2 ≠ .eol := by decide
  have hkeywords : ∀ entry ∈ keywords, entry.2 ≠ .eol := by decide
  refine nextLexeme_cases (P := fun x => x.type = some .eol → c = '\n'.toUInt8) c cs
    ?_ ?_ ?_ ?_ ?_ ?_ ?_ ?_ ?_ ?_
  · exact fun _ h => by cases h
  · exact fun _ h => by cases h
  · exact fun h _ => h
  · exact fun _ h => by cases h
  · intro _ h
    have htype : separatorType c = .eol := Option.some.inj h
    unfold separatorType at htype
    split_ifs at htype
  · intro _ h
    unfold numberLexeme at h
    split at h <;> cases h
  · intro _ h
    unfold stringLexeme at h
    split at h <;> cases h
  · intro _ h
    unfold nonOpLexeme at h
    split at h
    · rename_i hkey
      obtain ⟨entry, hmem, -, htype⟩ := keywordOf_mem hkey
      exact absurd (htype.trans (Option.some.inj h)) (hnonOp entry hmem)
    · cases h
  · intro _ h
    cases hkey : keywordOf keywords (c :: cs.takeWhile (wordChar c)) with
    | none => simp [wordLexeme, hkey] at h
    | some type =>
        obtain ⟨entry, hmem, -, htype⟩ := keywordOf_mem hkey
        simp only [wordLexeme, hkey, Option.getD_some, Option.some.injEq] at h
        exact absurd (htype.trans h) (hkeywords entry hmem)
  · exact fun _ h => by cases h

/-! ## Reading a lexeme again -/

/-- A run stops where it did, if nothing continues it. -/
theorem takeWhile_stops {p : UInt8 → Bool} (cs : List UInt8) {rest : List UInt8}
    (hrest : ∀ d ∈ rest.head?, p d = false) :
    (cs.takeWhile p ++ rest).takeWhile p = cs.takeWhile p := by
  rw [List.takeWhile_append_of_pos fun d hd => List.mem_takeWhile_imp hd]
  cases rest with
  | nil => exact List.append_nil _
  | cons d rest =>
      rw [List.takeWhile_cons, if_neg (Bool.eq_false_iff.mp (hrest d rfl)), List.append_nil]

theorem takeWhile_goes {p : UInt8 → Bool} (cs : List UInt8) {d : UInt8} (hd : p d = true)
    (rest : List UInt8) :
    (cs.takeWhile p).length < ((cs.takeWhile p ++ d :: rest).takeWhile p).length := by
  rw [List.takeWhile_append_of_pos fun d hd => List.mem_takeWhile_imp hd, List.takeWhile_cons,
    if_pos hd, List.length_append, List.length_cons]
  omega

/-- A closed literal is the same literal whatever follows it. -/
theorem quotedText_closed_append {cs : List UInt8} (h : (quotedText cs).2 = true)
    (rest : List UInt8) : quotedText ((quotedText cs).1 ++ rest) = quotedText cs := by
  induction cs with
  | nil => cases h
  | cons d ds ih =>
      by_cases hq : d = '\"'.toUInt8
      · subst hq
        rw [quotedText_quote]
        exact quotedText_quote rest
      · by_cases he : d = eofChar
        · subst he
          rw [quotedText_eof] at h
          cases h
        · rw [quotedText_cons hq he] at h ⊢
          rw [List.cons_append, quotedText_cons hq he, ih h]

/-- A line break is a lexeme by itself. -/
theorem nextLexeme_newline (cs : List UInt8) :
    nextLexeme '\n'.toUInt8 cs = ⟨['\n'.toUInt8], some .eol, none⟩ := by
  rw [nextLexeme, if_neg (by decide), if_neg (by decide), if_pos rfl]

theorem nextLexeme_eofChar (cs : List UInt8) :
    nextLexeme eofChar cs = ⟨[eofChar], some .eoft, none⟩ := by
  rw [nextLexeme, if_neg (by decide), if_neg (by decide), if_neg (by decide), if_pos rfl]

theorem nextLexeme_separator {c : UInt8} (hc : charExistsInString c (bytes ",:#*") = true)
    (h0 : c ≠ 0) (cs : List UInt8) :
    nextLexeme c cs = ⟨[c], some (separatorType c), none⟩ := by
  have hother : ∀ c : UInt8, c ≠ 0 → charExistsInString c (bytes ",:#*") = true →
      isWhitespace c = false ∧ c ≠ ';'.toUInt8 ∧ c ≠ '\n'.toUInt8 ∧ c ≠ eofChar :=
    forall_char (by decide +kernel)
  obtain ⟨hblank, hcomment, hnewline, heof⟩ := hother c h0 hc
  simp [nextLexeme, hblank, hcomment, hnewline, heof, hc]

/-- **A lexeme that does not run on is read again**, unless it has a token with
an error. -/
theorem nextLexeme_again {c : UInt8} {cs rest : List UInt8} (h0 : c ≠ 0)
    (herror : (nextLexeme c cs).error = none ∨ (nextLexeme c cs).type = none)
    (hstop : ∀ d ∈ rest.head?, continues c d = false) :
    ∃ t, (nextLexeme c cs).text = c :: t ∧ nextLexeme c (t ++ rest) = nextLexeme c cs := by
  by_cases htype : (nextLexeme c cs).type = none
  · rcases nextLexeme_untyped htype with ⟨hblank, hlexeme⟩ | ⟨rfl, hlexeme⟩ | ⟨hunknown, hlexeme⟩
    · rw [hlexeme]
      refine ⟨[], rfl, ?_⟩
      rw [nextLexeme, if_pos hblank]
    · rw [hlexeme]
      refine ⟨_, rfl, ?_⟩
      have hrun := takeWhile_stops (p := fun d => d != eofChar && d != '\n'.toUInt8) cs
        fun d hd => (continues_comment d).symm.trans (hstop d hd)
      rw [nextLexeme_semicolon, hrun]
    · rw [hlexeme]
      refine ⟨[], rfl, ?_⟩
      exact nextLexeme_unknown hunknown _
  · have herror' := herror.resolve_right htype
    revert htype herror'
    refine nextLexeme_cases (P := fun x => x.type ≠ none → x.error = none →
      ∃ t, x.text = c :: t ∧ nextLexeme c (t ++ rest) = x) c cs ?_ ?_ ?_ ?_ ?_ ?_ ?_ ?_ ?_ ?_
    · exact fun _ h _ => absurd rfl h
    · exact fun _ h _ => absurd rfl h
    · intro heq _ _
      obtain rfl := heq
      exact ⟨[], rfl, nextLexeme_newline _⟩
    · intro heq _ _
      obtain rfl := heq
      exact ⟨[], rfl, nextLexeme_eofChar _⟩
    · exact fun hsep _ _ => ⟨[], rfl, nextLexeme_separator hsep h0 _⟩
    · intro hnumber _ _
      refine ⟨cs.takeWhile isDigit, numberLexeme_text _, ?_⟩
      have hrun := takeWhile_stops cs fun d hd =>
        (continues_number h0 hnumber d).symm.trans (hstop d hd)
      rw [nextLexeme_number hnumber h0, hrun]
    · intro heq
      obtain rfl := heq
      intro _ herror
      refine ⟨(quotedText cs).1, stringLexeme_text _, ?_⟩
      have hclosed : (quotedText cs).2 = true := by
        unfold stringLexeme at herror
        split at herror
        · rename_i hclosed
          exact hclosed
        · cases herror
      rw [nextLexeme_quote, quotedText_closed_append hclosed]
    · intro heq _ _
      obtain rfl := heq
      refine ⟨cs.takeWhile isValidIdentifierStart, nonOpLexeme_text _, ?_⟩
      have hrun := takeWhile_stops cs fun d hd => (continues_dot d).symm.trans (hstop d hd)
      rw [nextLexeme_dot, hrun]
    · intro hword _ _
      refine ⟨cs.takeWhile (wordChar c), rfl, ?_⟩
      have hrun := takeWhile_stops cs fun d hd =>
        (continues_word hword d).symm.trans (hstop d hd)
      rw [nextLexeme_word hword, hrun]
    · exact fun _ h _ => absurd rfl h

/-- **A lexeme that runs on is read longer.** -/
theorem nextLexeme_longer {c d : UInt8} (cs : List UInt8) (h0 : c ≠ 0)
    (hgo : continues c d = true) (rest : List UInt8) :
    ∃ t, (nextLexeme c cs).text = c :: t ∧
      (nextLexeme c cs).text.length < (nextLexeme c (t ++ d :: rest)).text.length := by
  revert hgo
  unfold continues
  split_ifs with hcomment hnumber hdot hword
  · subst hcomment
    intro hgo
    rw [nextLexeme_semicolon]
    refine ⟨_, rfl, ?_⟩
    rw [nextLexeme_semicolon]
    exact Nat.succ_lt_succ (takeWhile_goes cs hgo rest)
  · intro hgo
    have hc : isDigit c = true ∨ charExistsInString c (bytes "+-") = true := by
      simpa using hnumber
    rw [nextLexeme_number hc h0, numberLexeme_text]
    refine ⟨_, rfl, ?_⟩
    rw [nextLexeme_number hc h0, numberLexeme_text]
    exact Nat.succ_lt_succ (takeWhile_goes cs hgo rest)
  · subst hdot
    intro hgo
    rw [nextLexeme_dot, nonOpLexeme_text]
    refine ⟨_, rfl, ?_⟩
    rw [nextLexeme_dot, nonOpLexeme_text]
    exact Nat.succ_lt_succ (takeWhile_goes cs hgo rest)
  · intro hgo
    have hc : isValidIdentifierStart c = true ∨ c = '_'.toUInt8 := by simpa using hword
    rw [nextLexeme_word hc]
    refine ⟨_, rfl, ?_⟩
    rw [nextLexeme_word hc]
    exact Nat.succ_lt_succ (takeWhile_goes cs hgo rest)
  · intro hgo
    cases hgo

/-- Nothing goes on with the end of a line or of the file. -/
theorem continues_lineEnd (c : UInt8) {d : UInt8} (hd : d = '\n'.toUInt8 ∨ d = eofChar) :
    continues c d = false := by
  have hcomment : (d != eofChar && d != '\n'.toUInt8) = false := by
    rcases hd with rfl | rfl <;> decide
  have hdigit : isDigit d = false := by rcases hd with rfl | rfl <;> decide
  have hstart : isValidIdentifierStart d = false := by rcases hd with rfl | rfl <;> decide
  have hword : wordChar c d = false := by
    unfold wordChar
    split <;> rcases hd with rfl | rfl <;> decide
  unfold continues
  split_ifs
  · exact hcomment
  · exact hdigit
  · exact hstart
  · exact hword
  · rfl

/-- A blank, the end of a line or of the file, or an unknown character is a
lexeme by itself. -/
theorem continues_single {c : UInt8} (h0 : c ≠ 0)
    (hc : isWhitespace c = true ∨ isUnknownChar c = true ∨ c = '\n'.toUInt8 ∨ c = eofChar)
    (d : UInt8) : continues c d = false := by
  have hother : ∀ c : UInt8, c ≠ 0 →
      (isWhitespace c = true ∨ isUnknownChar c = true ∨ c = '\n'.toUInt8 ∨ c = eofChar) →
      c ≠ ';'.toUInt8 ∧ (isDigit c || charExistsInString c (bytes "+-")) = false ∧
        c ≠ '.'.toUInt8 ∧ (isValidIdentifierStart c || decide (c = '_'.toUInt8)) = false :=
    forall_char (by decide +kernel)
  obtain ⟨hcomment, hnumber, hdot, hword⟩ := hother c h0 hc
  rw [continues, if_neg hcomment, if_neg (by rw [hnumber]; simp), if_neg hdot,
    if_neg (by rw [hword]; simp)]

/-- Only a comment goes on with a space. -/
theorem continues_space {c : UInt8} (hc : c ≠ ';'.toUInt8) : continues c ' '.toUInt8 = false := by
  have hword : wordChar c ' '.toUInt8 = false := by
    unfold wordChar
    split <;> decide
  rw [continues, if_neg hc]
  split_ifs
  · decide
  · decide
  · exact hword
  · rfl

/-! ## Lists of lexemes -/

/-- The lexeme is read somewhere, and if it has a token, then without an error. -/
def Lexeme.Clean (x : Lexeme) : Prop :=
  ∃ c cs, c ≠ 0 ∧ nextLexeme c cs = x ∧ (x.error = none ∨ x.type = none)

/-- A lexeme that stops is read again from its own text. -/
theorem Lexeme.Clean.again {x : Lexeme} (h : x.Clean) :
    ∃ c t, x.text = c :: t ∧ ∀ rest, ¬ x.RunsOn rest → nextLexeme c (t ++ rest) = x := by
  obtain ⟨c, cs, h0, rfl, herror⟩ := h
  obtain ⟨t, htext, -⟩ := nextLexeme_text c cs
  refine ⟨c, t, htext, fun rest hstop => ?_⟩
  have hstop' : ∀ d ∈ rest.head?, continues c d = false := by
    intro d hd
    refine Bool.eq_false_iff.mpr fun hgo => hstop ⟨d, hd, ?_⟩
    rwa [htext, List.headD_cons]
  obtain ⟨t', htext', hagain⟩ := nextLexeme_again h0 herror hstop'
  obtain rfl : t = t' := (List.cons.inj (htext.symm.trans htext')).2
  exact hagain

/-- One that runs on is read longer. -/
theorem Lexeme.Clean.longer {x : Lexeme} (h : x.Clean) {rest : List UInt8} (hgo : x.RunsOn rest) :
    ∃ c t, x.text = c :: t ∧ x.text.length < (nextLexeme c (t ++ rest)).text.length := by
  obtain ⟨c, cs, h0, rfl, -⟩ := h
  obtain ⟨t, htext, -⟩ := nextLexeme_text c cs
  obtain ⟨d, hd, hgo⟩ := hgo
  rw [htext, List.headD_cons] at hgo
  obtain ⟨rest, rfl⟩ : ∃ rest', rest = d :: rest' := by
    cases rest with
    | nil => cases hd
    | cons d' rest =>
        obtain rfl := Option.some.inj hd
        exact ⟨rest, rfl⟩
  obtain ⟨t', htext', hlonger⟩ := nextLexeme_longer cs h0 hgo rest
  obtain rfl : t = t' := (List.cons.inj (htext.symm.trans htext')).2
  exact ⟨c, t, htext, hlonger⟩

/-- The lexemes of a text have been read there. -/
theorem Lexes.read {text : List UInt8} {xs : List Lexeme} (h : Lexes text xs)
    (hnoNul : 0 ∉ text) : ∀ x ∈ xs, ∃ c cs, c ≠ 0 ∧ nextLexeme c cs = x := by
  induction h with
  | nil => exact nofun
  | @cons c cs rest x xs hx hsplit tail ih =>
      have hc : c ≠ 0 := fun h => hnoNul (by rw [h]; exact List.mem_cons_self)
      rw [hsplit] at hnoNul
      exact List.forall_mem_cons.mpr
        ⟨⟨c, cs, hc, hx⟩, ih fun h => hnoNul (List.mem_append_right _ h)⟩

/-- An empty text has no lexemes, whatever the fuel. -/
theorem lexemesOf_nil (fuel : Nat) : lexemesOf fuel [] = [] := by
  cases fuel <;> rfl

/-- **Lexemes without seams.**  Lexemes that are read again wherever they do not
run on are the lexemes of their text if none runs on. -/
theorem Seamless.lexes {xs : List Lexeme} (h : Seamless xs) (hclean : ∀ x ∈ xs, x.Clean) :
    Lexes (lexemesText xs) xs := by
  induction xs with
  | nil => exact Lexes.nil
  | cons x xs ih =>
      obtain ⟨c, t, htext, hread⟩ := (hclean x List.mem_cons_self).again
      have htail := ih h.2 fun y hy => hclean y (List.mem_cons_of_mem _ hy)
      rw [lexemesText_cons, htext]
      exact Lexes.cons (hread _ (h.1 trivial)) (by rw [htext]; rfl) htail

/-- The lexemes of a text stop where they end. -/
theorem Lexes.stops {kind : Lexeme → Prop} {text : List UInt8} {xs : List Lexeme}
    (h : Lexes text xs) (hclean : ∀ x ∈ xs, kind x → x.Clean) : Stops kind xs := by
  induction h with
  | nil => trivial
  | @cons c cs rest x xs hx hsplit tail ih =>
      refine ⟨fun hkind hgo => ?_, ih fun y hy => hclean y (List.mem_cons_of_mem _ hy)⟩
      rw [tail.text_eq] at hgo
      obtain ⟨c', t, htext, hlonger⟩ := (hclean x List.mem_cons_self hkind).longer hgo
      rw [htext, List.cons_append] at hsplit
      obtain ⟨rfl, rfl⟩ := List.cons.inj hsplit
      rw [hx] at hlonger
      exact Nat.lt_irrefl _ hlonger

/-- Two runs stop if their seam does. -/
theorem Stops.append {kind : Lexeme → Prop} {xs ys : List Lexeme} (hxs : Stops kind xs)
    (hpos : ∀ x ∈ xs, 0 < x.text.length)
    (hlast : ∀ x ∈ xs.getLast?, kind x → ¬ x.RunsOn (lexemesText ys)) (hys : Stops kind ys) :
    Stops kind (xs ++ ys) := by
  induction xs with
  | nil => exact hys
  | cons x xs ih =>
      cases xs with
      | nil => exact ⟨hlast x rfl, hys⟩
      | cons y xs =>
          have hrest := ih hxs.2 (fun z hz => hpos z (List.mem_cons_of_mem _ hz))
            fun z hz => hlast z (by rwa [List.getLast?_cons_cons])
          refine ⟨fun hkind hgo => hxs.1 hkind ?_, hrest⟩
          obtain ⟨c, t, htext⟩ := List.exists_cons_of_length_pos (hpos y (by simp))
          have hgo' : x.RunsOn (y.text ++ lexemesText (xs ++ ys)) := hgo
          rw [htext] at hgo'
          rw [lexemesText_cons, htext]
          exact hgo'

/-- The end of a run stops as the run does. -/
theorem Stops.behind {kind : Lexeme → Prop} {xs ys : List Lexeme} (h : Stops kind (xs ++ ys)) :
    Stops kind ys := by
  induction xs with
  | nil => exact h
  | cons x xs ih => exact ih h.2

end Assembler
