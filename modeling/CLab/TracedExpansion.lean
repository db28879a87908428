import CLab.MacroCollection
import CLab.Seams

/-!
# Where the expanded text comes from

`preprocessor_expand_macros` once more, with the place in the source of every
character it writes (`tracedLoop_expansion`: the places change nothing), and what
its rounds do to the text and to the places: they copy a character or a token,
skip a definition, or put a content in place of a name.
-/

namespace Assembler

/-! ## The loop with places -/

/-- Where a character of the new text comes from: it was copied from its place
in the source, or it is in a content, which has its place in the definition. -/
inductive Place
  | copied (i : Nat)
  | content (i : Nat)
deriving DecidableEq

/-- The index in the source that a place stands for. -/
def Place.index : Place → Nat
  | .copied i => i
  | .content i => i

/-- The expansion, and the place of each character written so far. -/
structure TracedExpansion where
  expansion : Expansion
  places : List Place

/-- The first macro of the list that concerns a token at an index. -/
def concernedMacro (macroList : List Macro) (i : Nat) (token : Token) : Option Macro :=
  macroList.find? fun m => (decide (m.startIndex ≤ i ∧ i ≤ m.endIndex)) ||
    stringEquals m.identifier.string token.string

/-- The macro whose content the round puts in place of its name. -/
def replacingMacro (macroList : List Macro) (s : Expansion) : Option Macro :=
  match s.currentToken with
  | [] => none
  | token :: _ =>
      if s.index = token.index then
        (concernedMacro macroList s.index token).filter fun m =>
          !decide (m.startIndex ≤ s.index ∧ s.index ≤ m.endIndex)
      else none

/-- The place of a content: behind the token that comes behind the name in the
definition. -/
def contentStart (tokens : List Token) (m : Macro) : Nat :=
  match tokens.find? fun t => m.identifier.index < t.index with
  | some newline => newline.index + 1
  | none => 0

/-- The places of the `n` characters that a round writes. -/
def writtenFrom (macroList : List Macro) (tokens : List Token) (s : Expansion) (n : Nat) :
    List Place :=
  match replacingMacro macroList s with
  | some m => (List.range n).map fun k => Place.content (contentStart tokens m + k)
  | none => (List.range n).map fun k => Place.copied (s.index + k)

/-- One round of the expansion, with the places it copies from. -/
def tracedRound (macroList : List Macro) (tokens : List Token) (source : CString)
    (s : TracedExpansion) : TracedExpansion where
  expansion := expandRound macroList source s.expansion
  places := s.places ++ writtenFrom macroList tokens s.expansion
    (stringLength (expandRound macroList source s.expansion).processedSource -
      stringLength s.expansion.processedSource)

/-- The loop over the source, with the places. -/
def tracedLoop (macroList : List Macro) (tokens : List Token) (source : CString)
    (s : TracedExpansion) : TracedExpansion :=
  While.loop (fun s => decide (s.expansion.index < stringLength source))
    (tracedRound macroList tokens source) (fun s => s.expansion.remaining source) s

/-- A token is in a definition or is expanded, by the macro it concerns. -/
theorem macroUse_eq (macroList : List Macro) (i : Nat) (token : Token) :
    macroUse macroList i token = (concernedMacro macroList i token).map fun m =>
      if m.startIndex ≤ i ∧ i ≤ m.endIndex then .definition m.endIndex
      else .expansion m.content := by
  unfold macroUse concernedMacro
  induction macroList with
  | nil => rfl
  | cons m macroList ih =>
      rw [List.findSome?_cons, List.find?_cons]
      by_cases hspan : m.startIndex ≤ i ∧ i ≤ m.endIndex
      · simp [hspan]
      · cases hname : stringEquals m.identifier.string token.string with
        | true => simp [hspan]
        | false => simpa [hspan] using ih

/-- The places change nothing about the expansion. -/
theorem tracedLoop_expansion (macroList : List Macro) (tokens : List Token) (source : CString)
    (s : TracedExpansion) :
    (tracedLoop macroList tokens source s).expansion = expandLoop macroList source s.expansion := by
  let goesOn : Expansion → Bool := fun s => decide (s.index < stringLength source)
  have hgoesOn : ∀ s : TracedExpansion,
      goesOn s.expansion = decide (s.expansion.index < stringLength source) := fun _ => rfl
  have hround : ∀ s, (tracedRound macroList tokens source s).expansion =
      expandRound macroList source s.expansion := fun _ => rfl
  have hremaining : ∀ s : TracedExpansion,
      Expansion.remaining source s.expansion = s.expansion.remaining source := fun _ => rfl
  exact While.loop_map TracedExpansion.expansion hgoesOn hround hremaining s

/-! ## Runs of the loop -/

section Steps

variable (macroList : List Macro) (tokens : List Token) (source : CString)

/-- Where the loop stands at an index with a cursor, it writes a text with its
places and then stands at another index with another cursor. -/
def Steps (i : Nat) (cursor : List Token) (text : List UInt8) (places : List Place)
    (i' : Nat) (cursor' : List Token) : Prop :=
  ∀ s : TracedExpansion, s.expansion.index = i → s.expansion.currentToken = cursor →
    ∃ s' : TracedExpansion,
      tracedLoop macroList tokens source s = tracedLoop macroList tokens source s' ∧
      s'.expansion.index = i' ∧ s'.expansion.currentToken = cursor' ∧
      s'.expansion.processedSource.data = s.expansion.processedSource.data ++ text ∧
      s'.places = s.places ++ places

/-- Where the loop stands at an index with a cursor, it writes a text with its
places and then ends. -/
def Finishes (i : Nat) (cursor : List Token) (text : List UInt8) (places : List Place) :
    Prop :=
  ∀ s : TracedExpansion, s.expansion.index = i → s.expansion.currentToken = cursor →
    (tracedLoop macroList tokens source s).expansion.processedSource.data =
        s.expansion.processedSource.data ++ text ∧
      (tracedLoop macroList tokens source s).places = s.places ++ places

variable {macroList tokens source}
variable {i i' i'' : Nat} {cursor cursor' cursor'' : List Token} {text text' : List UInt8}
  {places places' : List Place}

/-- Without a round nothing is copied. -/
theorem Steps.refl : Steps macroList tokens source i cursor [] [] i cursor := by
  intro s hi hcursor
  exact ⟨s, rfl, hi, hcursor, (List.append_nil _).symm, (List.append_nil _).symm⟩

/-- Rounds behind rounds copy one behind the other. -/
theorem Steps.trans (h : Steps macroList tokens source i cursor text places i' cursor')
    (h' : Steps macroList tokens source i' cursor' text' places' i'' cursor'') :
    Steps macroList tokens source i cursor (text ++ text') (places ++ places') i'' cursor'' := by
  intro s hi hcursor
  obtain ⟨s', hloop, hi', hcursor', htext, hplaces⟩ := h s hi hcursor
  obtain ⟨s'', hloop', hi'', hcursor'', htext', hplaces'⟩ := h' s' hi' hcursor'
  refine ⟨s'', hloop.trans hloop', hi'', hcursor'', ?_, ?_⟩
  · rw [htext', htext, List.append_assoc]
  · rw [hplaces', hplaces, List.append_assoc]

/-- Rounds that lead to the end of the loop are the front of it. -/
theorem Steps.finishes (h : Steps macroList tokens source i cursor text places i' cursor')
    (h' : Finishes macroList tokens source i' cursor' text' places') :
    Finishes macroList tokens source i cursor (text ++ text') (places ++ places') := by
  intro s hi hcursor
  obtain ⟨s', hloop, hi', hcursor', htext, hplaces⟩ := h s hi hcursor
  obtain ⟨htext', hplaces'⟩ := h' s' hi' hcursor'
  rw [hloop, htext', hplaces', htext, hplaces, List.append_assoc, List.append_assoc]
  exact ⟨rfl, rfl⟩

/-- Behind the text the loop is finished. -/
theorem finishes_end (hi : source.data.length ≤ i) :
    Finishes macroList tokens source i cursor [] [] := by
  intro s hs _
  have hexit : tracedLoop macroList tokens source s = s :=
    While.loop_exit (decide_eq_false (by rw [hs]; exact Nat.not_lt.mpr hi))
  rw [hexit, List.append_nil, List.append_nil]
  exact ⟨rfl, rfl⟩

/-- One round. -/
theorem steps_round (hi : i < source.data.length)
    (hround : ∀ s : Expansion, s.index = i → s.currentToken = cursor →
      (expandRound macroList source s).index = i' ∧
      (expandRound macroList source s).currentToken = cursor' ∧
      (expandRound macroList source s).processedSource.data = s.processedSource.data ++ text ∧
      writtenFrom macroList tokens s text.length = places) :
    Steps macroList tokens source i cursor text places i' cursor' := by
  intro s hs hcursor
  obtain ⟨hindex, htoken, htext, hplaces⟩ := hround s.expansion hs hcursor
  refine ⟨tracedRound macroList tokens source s, ?_, hindex, htoken, htext, ?_⟩
  · refine While.loop_step (fun _ => True) (fun _ _ _ => trivial) (fun s hgo _ => ?_) trivial ?_
    · exact expandRound_remaining macroList (of_decide_eq_true hgo)
    · exact decide_eq_true (hs ▸ hi)
  · have hlength : stringLength (expandRound macroList source s.expansion).processedSource -
        stringLength s.expansion.processedSource = text.length := by
      rw [stringLength, stringLength, htext, List.length_append]
      omega
    rw [tracedRound, hlength, hplaces]

/-- A character that is no token. -/
theorem steps_character (hi : i < source.data.length) (hcursor : ∀ t ∈ cursor.head?, i < t.index) :
    Steps macroList tokens source i cursor ((source.data.drop i).take 1) [Place.copied i] (i + 1)
      cursor := by
  apply steps_round hi
  intro s heq heq'
  obtain rfl := heq
  obtain rfl := heq'
  have hround : expandRound macroList source s = copyCharacter source s := by
    unfold expandRound
    cases htokens : s.currentToken with
    | nil => rfl
    | cons token rest =>
        have hlt := hcursor token (by rw [htokens]; rfl)
        exact if_neg (by omega)
  have hname : replacingMacro macroList s = none := by
    unfold replacingMacro
    cases htokens : s.currentToken with
    | nil => rfl
    | cons token rest =>
        have hlt := hcursor token (by rw [htokens]; rfl)
        exact if_neg (by omega)
  have hone : (source.data.drop s.index).take 1 = [stringCharAt source s.index] := by
    rw [List.drop_eq_getElem_cons hi, List.take_succ_cons, List.take_zero, stringCharAt,
      List.getD_eq_getElem _ _ hi]
  rw [hround, hone]
  refine ⟨rfl, rfl, stringAppendChar_data (stringCharAt_ne_zero_iff.mpr hi), ?_⟩
  simp [writtenFrom, hname]

/-- Characters in front of the next token. -/
theorem steps_characters {n : Nat} (hn : i + n ≤ source.data.length)
    (hcursor : ∀ t ∈ cursor.head?, i + n ≤ t.index) :
    Steps macroList tokens source i cursor ((source.data.drop i).take n)
      ((List.range n).map fun k => Place.copied (i + k)) (i + n) cursor := by
  induction n with
  | zero => exact Steps.refl
  | succ n ih =>
      have hfront := ih (by omega) fun t ht => by have := hcursor t ht; omega
      have hlast : Steps macroList tokens source (i + n) cursor _ _ _ _ :=
        steps_character (by omega) fun t ht => by have := hcursor t ht; omega
      have hsteps := hfront.trans hlast
      have htext : (source.data.drop i).take (n + 1) =
          (source.data.drop i).take n ++ (source.data.drop (i + n)).take 1 := by
        rw [List.take_add, List.drop_drop]
      have hplaces : (List.range (n + 1)).map (fun k => Place.copied (i + k)) =
          (List.range n).map (fun k => Place.copied (i + k)) ++ [Place.copied (i + n)] := by
        rw [List.range_succ, List.map_append, List.map_singleton]
      rw [htext, hplaces]
      exact hsteps

variable {t : Token} {rest : List Token}

/-- A token that is copied. -/
theorem steps_token (hi : i < source.data.length) (hindex : t.index = i)
    (huse : macroUse macroList i t = none) :
    Steps macroList tokens source i (t :: rest) t.string.data
      ((List.range t.string.data.length).map fun k => Place.copied (i + k))
      (i + t.string.data.length) rest := by
  apply steps_round hi
  intro s heq hcursor
  obtain rfl := heq
  have hname : replacingMacro macroList s = none := by
    rw [macroUse_eq, Option.map_eq_none_iff] at huse
    simp only [replacingMacro, hcursor, hindex, if_true, huse, Option.filter_none]
  have hround : expandRound macroList source s =
      { index := s.index + stringLength t.string
        currentToken := rest
        processedSource := stringAppend s.processedSource t.string } := by
    simp only [expandRound, hcursor, hindex, if_true, huse]
  rw [hround]
  refine ⟨rfl, rfl, stringAppend_data _ _, ?_⟩
  simp [writtenFrom, hname]

/-- A definition is skipped. -/
theorem steps_definition {endIndex : Nat} (hi : i < source.data.length) (hindex : t.index = i)
    (huse : macroUse macroList i t = some (.definition endIndex)) :
    Steps macroList tokens source i (t :: rest) [] [] (endIndex + 1)
      ((t :: rest).dropWhile fun u => u.index ≤ endIndex) := by
  apply steps_round hi
  intro s heq hcursor
  obtain rfl := heq
  have hname : replacingMacro macroList s = none := by
    rw [macroUse_eq] at huse
    obtain ⟨m, hm, huse⟩ := Option.map_eq_some_iff.mp huse
    split at huse
    · rename_i hspan
      simp [replacingMacro, hcursor, hindex, hm, hspan]
    · cases huse
  have hround : expandRound macroList source s =
      { s with
        index := endIndex + 1
        currentToken := (t :: rest).dropWhile (fun u => u.index ≤ endIndex) } := by
    simp only [expandRound, hcursor, hindex, if_true, huse]
  rw [hround]
  refine ⟨rfl, rfl, (List.append_nil _).symm, ?_⟩
  simp [writtenFrom, hname]

/-- A content is put in place of a name. -/
theorem steps_expansion {m : Macro} (hi : i < source.data.length) (hindex : t.index = i)
    (hm : concernedMacro macroList i t = some m)
    (hspan : ¬ (m.startIndex ≤ i ∧ i ≤ m.endIndex)) :
    Steps macroList tokens source i (t :: rest) m.content.data
      ((List.range m.content.data.length).map fun k => Place.content (contentStart tokens m + k))
      (if rest.head?.any (fun u => u.type = .eol) then i + t.string.data.length + 1
        else i + t.string.data.length)
      (if rest.head?.any (fun u => u.type = .eol) then rest.tail else rest) := by
  apply steps_round hi
  intro s heq hcursor
  obtain rfl := heq
  have huse : macroUse macroList s.index t = some (.expansion m.content) := by
    rw [macroUse_eq, hm, Option.map_some, if_neg hspan]
  have hname : replacingMacro macroList s = some m := by
    simp only [replacingMacro, hcursor, hindex, if_true, hm, Option.filter_some,
      decide_eq_false hspan, Bool.not_false]
  have hround : expandRound macroList source s =
      { index := if rest.head?.any (fun u => u.type = .eol) then
          s.index + t.string.data.length + 1 else s.index + t.string.data.length
        currentToken := if rest.head?.any (fun u => u.type = .eol) then rest.tail else rest
        processedSource := stringAppend s.processedSource m.content } := by
    simp only [expandRound, hcursor, hindex, if_true, huse]
    cases rest with
    | nil => rfl
    | cons newline rest =>
        by_cases heol : newline.type = .eol
        · simp [heol, stringLength]
        · simp [heol, stringLength]
  rw [hround]
  refine ⟨rfl, rfl, stringAppend_data _ _, ?_⟩
  simp only [writtenFrom, hname]

end Steps

section Visit

variable {source : CString} {macroList : List Macro} {v : Lexer × Lexeme}
  (hv : LexerVisit source.data v)

include hv

/-- The text of a lexeme stands at its index. -/
theorem LexerVisit.text_take : (source.data.drop v.1.index).take v.2.text.length = v.2.text :=
  (List.prefix_iff_eq_take.mp hv.text_front).symm

theorem LexerVisit.end_le : v.1.index + v.2.text.length ≤ source.data.length := by
  have hle := hv.text_front.length_le
  have hpos := hv.text_pos
  rw [List.length_drop] at hle
  omega

/-- The token that ends a line is a newline. -/
theorem LexerVisit.text_of_eol {t : Token} (htoken : visitToken v = some t)
    (heol : t.type = .eol) : v.2.text = ['\n'.toUInt8] := by
  obtain ⟨c, cs, -, hread⟩ := hv.ahead
  obtain ⟨type, htype, rfl⟩ := Option.map_eq_some_iff.mp htoken
  obtain rfl : type = .eol := heol
  rw [← hread] at htype ⊢
  obtain rfl := nextLexeme_eol htype
  rw [nextLexeme_newline]

/-- A lexeme without a token is copied. -/
theorem steps_untyped {cursor : List Token}
    (hcursor : ∀ t ∈ cursor.head?, v.1.index + v.2.text.length ≤ t.index) :
    Steps macroList tokens source v.1.index cursor v.2.text
      ((List.range v.2.text.length).map fun k => Place.copied (v.1.index + k))
      (v.1.index + v.2.text.length) cursor := by
  have hsteps : Steps macroList tokens source v.1.index cursor _ _ _ cursor :=
    steps_characters hv.end_le hcursor
  rwa [hv.text_take] at hsteps

/-- A token that is no name is copied, the end of the file behind its token. -/
theorem steps_typed {t : Token} {rest : List Token} (htoken : visitToken v = some t)
    (huse : macroUse macroList v.1.index t = none)
    (hrest : ∀ u ∈ rest.head?, v.1.index + v.2.text.length ≤ u.index) :
    Steps macroList tokens source v.1.index (t :: rest) v.2.text
      ((List.range v.2.text.length).map fun k => Place.copied (v.1.index + k))
      (v.1.index + v.2.text.length) rest := by
  obtain ⟨hindex, -, hstring, -⟩ := hv.token htoken
  have hend := hv.end_le
  have hpos := hv.text_pos
  have hsteps : Steps macroList tokens source v.1.index (t :: rest) _ _ _ rest :=
    steps_token (by omega) hindex huse
  by_cases heof : t.type = .eoft
  · have hempty : t.string.data = [] := by
      obtain ⟨type, -, rfl⟩ := Option.map_eq_some_iff.mp htoken
      have hstr : (v.2.tokenAt v.1 type).string = stringCreate := if_pos heof
      rw [hstr]
      rfl
    rw [hempty] at hsteps
    exact hsteps.trans (steps_untyped hv hrest)
  · rwa [hstring heof] at hsteps

end Visit

end Assembler
