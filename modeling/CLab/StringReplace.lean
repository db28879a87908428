import CLab.StringCalls
import CLab.Replacement

/-!
# `string_replace`

The scan of `string_replace` behind which the string that is made takes the
place of the one that was scanned.  Nothing says that the scan ends: where the
pattern is empty, an occurrence takes it no further.  So the call is a relation,
between what it is given and the outcome it ends with, if it ends.
-/

namespace Assembler

namespace Stored

open Blocks (Heap MemoryFault exists_of_bind)
open Replacement (Replaces occurrences)

/-- `strncmp(a, b, n) == 0` for the characters at two places. -/
def strncmpEqual (memory : Memory) (p : Nat) : Nat → Nat → Nat → Nat → Except MemoryFault Bool
  | _, _, _, 0 => .ok true
  | i, q, j, n + 1 => do
      let a ← memory.load p i
      let b ← memory.load q j
      if a ≠ b then .ok false
      else if a = 0 then .ok true
      else strncmpEqual memory p (i + 1) q (j + 1) n

/-- `strncmp(str->data + i, pattern.data, pattern.length) == 0` -/
def patternAt (memory : Memory) (str pattern : StoredString) (i : BitVec 32) :
    Except MemoryFault Bool :=
  if i.toInt < 0 then .error .outOfBounds
  else strncmpEqual memory str.data i.toNat pattern.data 0 pattern.length

/-- `i < str->length`, a comparison of unsigned numbers. -/
def replaceGoesOn (str : StoredString) (s : Building) : Bool :=
  s.i.toNat < str.length

def replaceRound (str pattern replacement : StoredString) (s : Building) :
    Except MemoryFault Building := do
  if ← patternAt s.memory str pattern s.i then
    let (result, memory) ← stringAppend s.memory s.result replacement
    .ok { i := s.i + BitVec.ofNat 32 pattern.length, result := result, memory := memory }
  else
    let ch ← loadAt s.memory str.data s.i
    let (result, memory) ← stringAppendChar s.memory s.result ch
    .ok { i := s.i + 1, result := result, memory := memory }

/-- The pointer of a `String` that was made is never `NULL`. -/
def stringFree (memory : Memory) (str : StoredString) : Except MemoryFault Memory :=
  memory.free str.data

/-- The loop of `string_replace` ends in this way. -/
def ReplaceExits (str pattern replacement : StoredString) :
    Building → Except MemoryFault Building → Prop :=
  While.ExitsE (fun s => .ok (replaceGoesOn str s)) (replaceRound str pattern replacement)

def replaceStart (memory : Memory) : Building :=
  { i := 0, result := (stringCreate memory).1, memory := (stringCreate memory).2 }

/-- `string_replace(&str, pattern, replacement)` ends, with the string that is now
`str` and the memory, or with a fault. -/
def StringReplace (memory : Memory) (str pattern replacement : StoredString)
    (outcome : Except MemoryFault (StoredString × Memory)) : Prop :=
  ∃ last, ReplaceExits str pattern replacement (replaceStart memory) last ∧
    outcome = last.bind fun s => (stringFree s.memory str).map fun memory => (s.result, memory)

/-- A call does not end in two ways. -/
theorem StringReplace.unique {memory : Memory} {str pattern replacement : StoredString}
    {outcome outcome' : Except MemoryFault (StoredString × Memory)}
    (h : StringReplace memory str pattern replacement outcome)
    (h' : StringReplace memory str pattern replacement outcome') : outcome = outcome' := by
  obtain ⟨last, hexits, rfl⟩ := h
  obtain ⟨last', hexits', rfl⟩ := h'
  rw [While.ExitsE.unique hexits hexits']

/-- The call ends, and leaves a well-formed string with the text in which the
occurrences of the pattern are replaced. -/
def ReplacesAll (memory : Memory) (str pattern replacement : StoredString)
    (text patternText replacementText : CString) : Prop :=
  ∃ str' memory' result,
    StringReplace memory str pattern replacement (.ok (str', memory')) ∧
      WellFormed memory' str' result ∧
        Replaces patternText.data replacementText.data text.data result.data

/-! ## Comparing -/

section Comparing

variable {memory : Memory} {str pattern : StoredString} {text patternText : CString}
  (hstr : WellFormed memory str text) (hpattern : WellFormed memory pattern patternText)

include hstr hpattern

/-- A comparison does not go beyond the terminator: the pattern has no NUL. -/
theorem strncmpEqual_eq {i j n : Nat} (hi : i ≤ text.data.length)
    (hn : j + n = patternText.data.length) :
    strncmpEqual memory str.data i pattern.data j n =
      .ok (decide (patternText.data.drop j <+: text.data.drop i)) := by
  induction n generalizing i j with
  | zero =>
      rw [strncmpEqual, List.drop_eq_nil_of_le (by omega)]
      simp
  | succ n ih =>
      have hj : j < patternText.data.length := by omega
      have hb := hpattern.load hj
      have hnul := patternText.getElem_ne_zero hj
      rcases Nat.lt_or_eq_of_le hi with hlt | rfl
      · have ha := hstr.load hlt
        have hprefix : patternText.data.drop j <+: text.data.drop i ↔
            patternText.data[j] = text.data[i] ∧
              patternText.data.drop (j + 1) <+: text.data.drop (i + 1) := by
          rw [List.drop_eq_getElem_cons hj, List.drop_eq_getElem_cons hlt,
            List.cons_prefix_cons]
        by_cases heq : text.data[i] = patternText.data[j]
        · have hrest := ih (i := i + 1) (j := j + 1) hlt (by omega)
          simp [strncmpEqual, ha, hb, heq, hnul, hrest, hprefix, bind, Except.bind]
        · simp [strncmpEqual, ha, hb, heq, Ne.symm heq, hprefix, bind, Except.bind]
      · have ha := hstr.terminator
        rw [hstr.length] at ha
        simp [strncmpEqual, ha, hb, hnul.symm, hj, bind, Except.bind]

/-- The comparison finds the pattern where it stands. -/
theorem patternAt_eq {i : BitVec 32} (hi : i.toNat < text.data.length) :
    patternAt memory str pattern i =
      .ok (decide (patternText.data <+: text.data.drop i.toNat)) := by
  have hle := hstr.capacity_le
  have hroom := hstr.room
  have hcompared := strncmpEqual_eq hstr hpattern (j := 0) (Nat.le_of_lt hi)
    (Nat.zero_add _)
  rw [patternAt, if_neg (not_negative (by omega)), hpattern.length, hcompared, List.drop_zero]

end Comparing

/-! ## The scan -/

section Scan

variable {memory : Memory} {str pattern replacement : StoredString}
  {text patternText replacementText : CString} (hstr : WellFormed memory str text)
  (hpattern : WellFormed memory pattern patternText)
  (hreplacement : WellFormed memory replacement replacementText)

include hstr

theorem replaceGoesOn_iff (s : Building) :
    replaceGoesOn str s = true ↔ s.i.toNat < text.data.length := by
  rw [replaceGoesOn, decide_eq_true_eq, hstr.length]

include hpattern

/-- Where the pattern does not stand, the character is kept. -/
theorem replaceRound_skip {s : Building} {part : CString}
    (happears : Appears memory s.memory s.result part) (hi : s.i.toNat < text.data.length)
    (hskip : ¬ patternText.data <+: text.data.drop s.i.toNat)
    (hfits : part.data.length + 1 < 2 ^ 31) :
    ∃ s' part', replaceRound str pattern replacement s = .ok s' ∧
      s'.i.toNat = s.i.toNat + 1 ∧ part'.data = part.data ++ [text.data[s.i.toNat]] ∧
        Appears memory s'.memory s'.result part' := by
  have hle := hstr.capacity_le
  have hroom := hstr.room
  have hcompared := patternAt_eq (hstr.appears happears) (hpattern.appears happears) hi
  obtain ⟨ch, result, memory', part', hload, happend, hpart', happears'⟩ :=
    hstr.copyChar happears hi hfits
  refine ⟨{ i := s.i + 1, result := result, memory := memory' }, part', ?_,
    toNat_next (i := s.i) (by omega), hpart', happears'⟩
  simp [replaceRound, hcompared, hskip, hload, happend, bind, Except.bind]

include hreplacement

/-- Where it stands, the replacement is put in its place. -/
theorem replaceRound_here {s : Building} {part : CString}
    (happears : Appears memory s.memory s.result part) (hi : s.i.toNat < text.data.length)
    (hhere : patternText.data <+: text.data.drop s.i.toNat)
    (hfits : part.data.length + replacementText.data.length < 2 ^ 31) :
    ∃ s' part', replaceRound str pattern replacement s = .ok s' ∧
      s'.i.toNat = s.i.toNat + patternText.data.length ∧
      part'.data = part.data ++ replacementText.data ∧
        Appears memory s'.memory s'.result part' := by
  have hle := hstr.capacity_le
  have hroom := hstr.room
  have hlength := hpattern.length
  have hinside := hhere.length_le
  rw [List.length_drop] at hinside
  have hcompared := patternAt_eq (hstr.appears happears) (hpattern.appears happears) hi
  obtain ⟨cells, hcells⟩ := hreplacement.exists_block
  obtain ⟨result, memory', happend, hbecomes⟩ :=
    stringAppend_becomes happears.wellFormed (hreplacement.appears happears)
      (happears.makes.others hcells).1 hfits
  refine ⟨{ i := s.i + BitVec.ofNat 32 pattern.length, result := result, memory := memory' }, _,
    ?_, ?_, stringAppend_data part replacementText, happears.becomes hbecomes⟩
  · simp [replaceRound, hcompared, hhere, happend, bind, Except.bind]
  · show (s.i + BitVec.ofNat 32 pattern.length).toNat = _
    rw [BitVec.toNat_add, BitVec.toNat_ofNat, hlength]
    omega

/-- **The scan** of a pattern that is not empty replaces its occurrences in what
is left of the text. -/
theorem scan_exits (hnonempty : patternText.data ≠ []) {rest done : List UInt8} {s : Building}
    {part : CString} (happears : Appears memory s.memory s.result part)
    (hrest : text.data.drop s.i.toNat = rest)
    (hreplaces : Replaces patternText.data replacementText.data rest done)
    (hfits : part.data.length + done.length < 2 ^ 31) :
    ∃ s' result, ReplaceExits str pattern replacement s (.ok s') ∧
      result.data = part.data ++ done ∧ Appears memory s'.memory s'.result result := by
  induction rest using Replacement.scan_induction hnonempty generalizing done s part with
  | hnil =>
      have hge := List.drop_eq_nil_iff.mp hrest
      obtain rfl := Replacement.replaces_nil.mp hreplaces
      have hdone : replaceGoesOn str s = false := by
        rw [← Bool.not_eq_true, replaceGoesOn_iff hstr]
        omega
      exact ⟨s, part, .done (congrArg Except.ok hdone), (List.append_nil _).symm, happears⟩
  | hhere a rest hhere ih =>
      obtain ⟨back, rfl, hback⟩ := (Replacement.replaces_cons_here hhere).mp hreplaces
      rw [List.length_append] at hfits
      have hi := List.length_lt_of_drop_ne_nil (by rw [hrest]; exact List.cons_ne_nil a rest)
      obtain ⟨next, part', hround, hnext, hpart', happears'⟩ :=
        replaceRound_here hstr hpattern hreplacement happears hi (hrest ▸ hhere) (by omega)
      obtain ⟨s', result, hexits, hresult, hlast⟩ := ih happears'
        (by rw [hnext, ← hrest, List.drop_drop]) hback
        (by rw [hpart', List.length_append]; omega)
      have hgo := (replaceGoesOn_iff hstr s).mpr hi
      refine ⟨s', result, .round (congrArg Except.ok hgo) hround hexits, ?_, hlast⟩
      rw [hresult, hpart', List.append_assoc]
  | hskip a rest hskip ih =>
      obtain ⟨back, rfl, hback⟩ := (Replacement.replaces_cons_skip hskip).mp hreplaces
      rw [List.length_cons] at hfits
      have hi := List.length_lt_of_drop_ne_nil (by rw [hrest]; exact List.cons_ne_nil a rest)
      obtain ⟨next, part', hround, hnext, hpart', happears'⟩ :=
        replaceRound_skip hstr hpattern happears hi (hrest ▸ hskip) (by omega)
      rw [List.drop_eq_getElem_cons hi] at hrest
      obtain ⟨rfl, htail⟩ := List.cons.inj hrest
      obtain ⟨s', result, hexits, hresult, hlast⟩ := ih happears' (hnext ▸ htail) hback
        (by rw [hpart', List.length_append, List.length_singleton]; omega)
      have hgo := (replaceGoesOn_iff hstr s).mpr hi
      refine ⟨s', result, .round (congrArg Except.ok hgo) hround hexits, ?_, hlast⟩
      rw [hresult, hpart', List.append_assoc, List.singleton_append]

end Scan

/-! ## The call -/

section Call

variable {memory : Memory} {str pattern replacement : StoredString}
  {text patternText replacementText : CString}

/-- The block of the string is given back once the scan is over. -/
theorem stringReplace_of_exits {result : CString} (hstr : WellFormed memory str text)
    {last : Building}
    (hexits : ReplaceExits str pattern replacement (replaceStart memory) (.ok last))
    (happears : Appears memory last.memory last.result result) :
    ∃ memory', StringReplace memory str pattern replacement (.ok (last.result, memory')) ∧
      WellFormed memory' last.result result := by
  obtain ⟨cells, hcells⟩ := hstr.exists_block
  obtain ⟨hne, hkept⟩ := happears.makes.others hcells
  obtain ⟨memory', hfree, hothers⟩ := Heap.free_of_block hkept
  refine ⟨memory', ⟨.ok last, hexits, ?_⟩, happears.wellFormed.of_block (hothers hne.symm)⟩
  simp [stringFree, hfree, Except.bind, Except.map]

/-- An empty pattern is found everywhere, and takes the scan no further. -/
theorem replaceRound_stays (hempty : pattern.length = 0) {s s' : Building} (hs : s.i = 0)
    (hround : replaceRound str pattern replacement s = .ok s') : s'.i = 0 := by
  have hfound : patternAt s.memory str pattern s.i = .ok true := by
    rw [patternAt, hs, hempty]
    rfl
  obtain ⟨found, hpattern, hrest⟩ := exists_of_bind hround
  rw [hfound] at hpattern
  obtain rfl := Except.ok.inj hpattern
  obtain ⟨made, -, hresult⟩ := exists_of_bind hrest
  rw [← Except.ok.inj hresult]
  show s.i + BitVec.ofNat 32 pattern.length = 0
  rw [hs, hempty]
  rfl

/-- So a text that is not empty is never scanned to its end. -/
theorem not_replacesAll_of_nil (hstr : WellFormed memory str text)
    (hpattern : WellFormed memory pattern patternText) (hempty : patternText.data = [])
    (htext : text.data ≠ []) :
    ¬ ReplacesAll memory str pattern replacement text patternText replacementText := by
  intro hfacts
  obtain ⟨str', memory', result, ⟨last, hexits, houtcome⟩, -, -⟩ := hfacts
  have hlength : pattern.length = 0 := by
    rw [hpattern.length, hempty]
    rfl
  have hgoesOn : ∀ s : Building, s.i = 0 → (.ok (replaceGoesOn str s) : Except MemoryFault Bool) =
      .ok true := by
    intro s hs
    have hgo : replaceGoesOn str s = true := by
      rw [replaceGoesOn_iff hstr, hs]
      exact List.length_pos_iff.mpr htext
    rw [hgo]
  obtain ⟨fault, hfault⟩ := While.ExitsE.fails (fun s : Building => s.i = 0) hgoesOn
    (fun _ _ hs hround => replaceRound_stays hlength hs hround) hexits rfl
  rw [hfault] at houtcome
  cases houtcome

/-- **`string_replace`** is right for a pattern that is not empty, and for an empty
text, if an `int` can count the result. -/
theorem stringReplace_iff (hstr : WellFormed memory str text)
    (hpattern : WellFormed memory pattern patternText)
    (hreplacement : WellFormed memory replacement replacementText) :
    ReplacesAll memory str pattern replacement text patternText replacementText ↔
      (patternText.data ≠ [] ∨ text.data = []) ∧
        text.data.length +
            occurrences patternText.data text.data * replacementText.data.length <
          2 ^ 31 + occurrences patternText.data text.data * patternText.data.length := by
  have hempty := stringCreate_appears memory
  by_cases htext : text.data = []
  · have hdone : replaceGoesOn str (replaceStart memory) = false := by
      rw [← Bool.not_eq_true, replaceGoesOn_iff hstr, htext]
      exact Nat.not_lt_zero _
    have hexits : ReplaceExits str pattern replacement (replaceStart memory)
        (.ok (replaceStart memory)) := .done (congrArg Except.ok hdone)
    obtain ⟨memory', hcall, hresult⟩ := stringReplace_of_exits hstr hexits hempty
    rw [htext]
    constructor
    · intro _
      exact ⟨Or.inr rfl, by simp [occurrences, Replacement.scan]⟩
    · intro _
      exact ⟨_, memory', _, hcall, hresult, htext ▸ Replacement.replaces_nil.mpr rfl⟩
  by_cases hpatternText : patternText.data = []
  · constructor
    · intro h
      exact absurd h (not_replacesAll_of_nil hstr hpattern hpatternText htext)
    · intro hfacts
      obtain ⟨hnonempty | hnil, -⟩ := hfacts
      · exact absurd hpatternText hnonempty
      · exact absurd hnil htext
  constructor
  · intro hfacts
    obtain ⟨str', memory', result, -, hresult, hreplaces⟩ := hfacts
    have hlength := hreplaces.length_eq hpatternText
    have hle := hresult.capacity_le
    have hroom := hresult.room
    exact ⟨Or.inl hpatternText, by omega⟩
  · intro hfacts
    obtain ⟨-, hfits⟩ := hfacts
    obtain ⟨done, hreplaces⟩ :=
      Replacement.exists_replaces hpatternText replacementText.data text.data
    have hlength := hreplaces.length_eq hpatternText
    obtain ⟨last, result, hexits, hdata, happears⟩ := scan_exits hstr hpattern hreplacement
      hpatternText (s := replaceStart memory) hempty rfl hreplaces (by
        show 0 + done.length < _
        omega)
    obtain ⟨memory', hcall, hresult⟩ := stringReplace_of_exits hstr hexits happears
    rw [stringCreate_data, List.nil_append] at hdata
    exact ⟨_, memory', result, hcall, hresult, hdata ▸ hreplaces⟩

end Call

/-! ## Short texts in memory -/

/-- Texts in blocks of their own, each with a terminator. -/
def memoryOf (texts : List CString) : Memory :=
  ⟨texts.map fun text => some
    (text.data.map some ++ List.replicate (8 - text.data.length) (some 0))⟩

def shortString (text : CString) (p : Nat) : StoredString :=
  { capacity := 8, length := text.data.length, data := p }

theorem shortString_wellFormed {texts : List CString} {p : Nat} {text : CString}
    (htext : texts[p]? = some text) (hshort : text.data.length < 8) :
    WellFormed (memoryOf texts) (shortString text p) text := by
  have hblock : (memoryOf texts).block p =
      some (text.data.map some ++ List.replicate (8 - text.data.length) (some 0)) := by
    simp [Heap.block, memoryOf, htext]
  refine ⟨⟨⟨rfl, _, hblock⟩, ⟨3, by decide, by decide, rfl⟩, hshort, ?_⟩, ?_⟩
  · intro cells hcells
    rw [show (shortString text p).data = p from rfl, hblock] at hcells
    rw [← Option.some.inj hcells, List.length_append, List.length_map, List.length_replicate]
    exact Nat.add_sub_cancel' (Nat.le_of_lt hshort)
  · have hcell : (text.data.map some ++
        List.replicate (8 - text.data.length) (some 0))[text.data.length]? = some (some 0) := by
      rw [List.getElem?_append_right (by simp), List.length_map, Nat.sub_self,
        List.getElem?_replicate, if_pos (Nat.sub_pos_of_lt hshort)]
    show (memoryOf texts).load p text.data.length = .ok 0
    simp only [Heap.load, hblock, hcell]

/-- Of `aaaba` the first two characters are an occurrence of `aa`, the second and
the third are not. -/
theorem stringReplace_iff_sample :
    ReplacesAll (memoryOf [⟨[97, 97, 97, 98, 97], by decide⟩, ⟨[97, 97], by decide⟩,
        ⟨[120], by decide⟩])
      (shortString ⟨[97, 97, 97, 98, 97], by decide⟩ 0) (shortString ⟨[97, 97], by decide⟩ 1)
      (shortString ⟨[120], by decide⟩ 2) ⟨[97, 97, 97, 98, 97], by decide⟩
      ⟨[97, 97], by decide⟩ ⟨[120], by decide⟩ :=
  (stringReplace_iff (shortString_wellFormed rfl (by decide))
    (shortString_wellFormed rfl (by decide)) (shortString_wellFormed rfl (by decide))).mpr
    ⟨Or.inl (by decide), by decide⟩

/-- The empty pattern in `a` is found again and again at the same place. -/
theorem stringReplace_nil_pattern :
    ¬ ∀ (memory : Memory) (str pattern replacement : StoredString)
      (text patternText replacementText : CString), WellFormed memory str text →
      WellFormed memory pattern patternText → WellFormed memory replacement replacementText →
      ReplacesAll memory str pattern replacement text patternText replacementText := by
  intro hclaim
  have htext : WellFormed (memoryOf [⟨[97], by decide⟩, ⟨[], by decide⟩, ⟨[120], by decide⟩])
      (shortString ⟨[97], by decide⟩ 0) ⟨[97], by decide⟩ :=
    shortString_wellFormed rfl (by decide)
  have hpattern : WellFormed (memoryOf [⟨[97], by decide⟩, ⟨[], by decide⟩, ⟨[120], by decide⟩])
      (shortString ⟨[], by decide⟩ 1) ⟨[], by decide⟩ :=
    shortString_wellFormed rfl (by decide)
  have hreplacement : WellFormed
      (memoryOf [⟨[97], by decide⟩, ⟨[], by decide⟩, ⟨[120], by decide⟩])
      (shortString ⟨[120], by decide⟩ 2) ⟨[120], by decide⟩ :=
    shortString_wellFormed rfl (by decide)
  exact not_replacesAll_of_nil htext hpattern rfl (List.cons_ne_nil _ _)
    (hclaim _ _ _ _ _ _ _ htext hpattern hreplacement)

end Stored

end Assembler
