import CLab.Runs
import CLab.StringUtil
import CLab.While

/-!
# The compression of sequences

`findSequence.c` writes three or more characters that follow each other as the
first and the last of them with a hyphen between.  `findSequence_reversible_iff`:
the printed text can be expanded again and fits the buffer, but for a string
that ends in the characters -2 and -1: then the terminator behind them is taken
for the next character of the sequence.
-/

namespace Sequences

open Assembler (bytes charToInt charToInt_bounds cstrText)
open Runs (Piece Consecutive)

/-- What stands for the characters between. -/
def hyphen : UInt8 := '-'.toUInt8

/-- The room in `dst`. -/
def dstSize : Nat := 100

/-- `str[i]`, the terminator behind the last character included. -/
def charAt (str : List UInt8) (i : Nat) : UInt8 :=
  str.getD i 0

/-- The inner loop goes on: no digit and no slash here, and the next character
behind it. -/
def goesOn (str : List UInt8) (k : Nat) : Bool :=
  !(47 ≤ charToInt (charAt str k) && charToInt (charAt str k) ≤ 57) &&
    charToInt (charAt str (k + 1)) == charToInt (charAt str k) + 1

/-- The inner loop. -/
def sequenceEnd (str : List UInt8) (i : Nat) : Nat :=
  While.loop (fun k => k < str.length && goesOn str k) (fun k => k + 1)
    (fun k => str.length - k) i

/-- The variables of the outer loop; `dst` is what has been stored, so `j` is
its length. -/
structure Scan where
  i : Nat
  dst : List UInt8

/-- One round of the outer loop, with the `i++` behind it. -/
def Scan.round (str : List UInt8) (s : Scan) : Scan :=
  let k := sequenceEnd str s.i
  if s.i + 2 ≤ k then
    { i := k + 1, dst := s.dst ++ [charAt str s.i, hyphen, charAt str k] }
  else { i := s.i + 1, dst := s.dst ++ [charAt str s.i] }

/-- What `dst` holds in front of the terminator. -/
def findSequence (str : List UInt8) : List UInt8 :=
  (While.loop (fun s => decide (s.i < str.length)) (Scan.round str)
    (fun s => str.length - s.i) { i := 0, dst := [] }).dst

/-- What is printed: `dst` up to the first NUL. -/
def printed (str : List UInt8) : List UInt8 :=
  cstrText (findSequence str)

/-! ## Expanding -/

/-- All characters from one to another. -/
def charsBetween (first last : UInt8) : List UInt8 :=
  (List.range (charToInt last - charToInt first + 1).toNat).map fun d => first + UInt8.ofNat d

/-- Every `x-y` replaced by the characters from `x` to `y`. -/
def expand : List UInt8 → List UInt8 :=
  Runs.expand hyphen charsBetween

/-- A character that is stepped on without wrapping. -/
theorem charToInt_add {ch : UInt8} {d : Nat} (h : charToInt ch + d ≤ 127) :
    charToInt (ch + UInt8.ofNat d) = charToInt ch + d := by
  have hlt := ch.toNat_lt
  have hsum : (ch + UInt8.ofNat d).toNat = (ch.toNat + d) % 256 := by
    simp [UInt8.toNat_add]
  simp only [charToInt, hsum] at h ⊢
  split_ifs at h ⊢ <;> omega

/-- Every `char` has its own value. -/
theorem charToInt_injective : Function.Injective charToInt := by
  intro a b h
  have ha := a.toNat_lt
  have hb := b.toNat_lt
  apply UInt8.toNat_inj.mp
  simp only [charToInt] at h
  split_ifs at h <;> omega

/-- The expansion of `x-y` is the sequence with these ends. -/
theorem charsBetween_eq {first : UInt8} {run : List UInt8}
    (h : Consecutive charToInt (first :: run)) :
    charsBetween first ((first :: run).getLast (List.cons_ne_nil first run)) = first :: run := by
  have hlast := h.rank_getLast
  have hbounds := charToInt_bounds ((first :: run).getLast (List.cons_ne_nil first run))
  have hcount : (charToInt ((first :: run).getLast (List.cons_ne_nil first run)) -
      charToInt first + 1).toNat = run.length + 1 := by omega
  rw [charsBetween, hcount]
  refine (h.eq_map_range charToInt_injective ?_).symm
  intro d hd
  apply charToInt_add
  omega

/-! ## The inner loop -/

section Loop

variable {str : List UInt8}

/-- **The inner loop.**  It stops at the end of the string or where the
sequence does. -/
theorem sequenceEnd_spec (str : List UInt8) {i : Nat} (hi : i ≤ str.length) :
    i ≤ sequenceEnd str i ∧ sequenceEnd str i ≤ str.length ∧
      (∀ m, i ≤ m → m < sequenceEnd str i → goesOn str m = true) ∧
      (sequenceEnd str i < str.length → goesOn str (sequenceEnd str i) = false) := by
  have hrule : (i ≤ sequenceEnd str i ∧ sequenceEnd str i ≤ str.length ∧
      ∀ m, i ≤ m → m < sequenceEnd str i → goesOn str m = true) ∧
      (decide (sequenceEnd str i < str.length) && goesOn str (sequenceEnd str i)) = false := by
    refine While.loop_rule
      (fun k => i ≤ k ∧ k ≤ str.length ∧ ∀ m, i ≤ m → m < k → goesOn str m = true) ?_ ?_
      ⟨le_refl i, hi, by omega⟩
    · intro k hgo hk
      simp only [Bool.and_eq_true, decide_eq_true_eq] at hgo
      refine ⟨by omega, by omega, ?_⟩
      intro m him hmk
      by_cases hm : m = k
      · rw [hm]
        exact hgo.2
      · exact hk.2.2 m him (by omega)
    · intro k hgo _
      simp only [Bool.and_eq_true, decide_eq_true_eq] at hgo
      omega
  obtain ⟨⟨hle, hlength, hgoes⟩, hstop⟩ := hrule
  refine ⟨hle, hlength, hgoes, ?_⟩
  intro hlt
  rcases Bool.and_eq_false_iff.mp hstop with hend | hend
  · exact absurd hlt (of_decide_eq_false hend)
  · exact hend

/-- The characters of the string are read from it. -/
theorem charAt_eq {k : Nat} (hk : k < str.length) : charAt str k = str[k] :=
  List.getD_eq_getElem _ _ hk

/-- The run goes on with the next character in order. -/
theorem charToInt_next {k : Nat} (h : goesOn str k = true) :
    charToInt (charAt str (k + 1)) = charToInt (charAt str k) + 1 := by
  simp only [goesOn, Bool.and_eq_true, beq_iff_eq] at h
  exact h.2

/-- The characters over which the inner loop has gone. -/
theorem exists_run {i k : Nat} (hik : i ≤ k) (hk : k < str.length)
    (hgoes : ∀ m, i ≤ m → m < k → goesOn str m = true) :
    ∃ run, Consecutive charToInt (charAt str i :: run) ∧
      (charAt str i :: run).getLast (List.cons_ne_nil _ run) = charAt str k ∧
      str.take (k + 1) = str.take i ++ charAt str i :: run := by
  induction k, hik using Nat.le_induction with
  | base =>
      refine ⟨[], List.isChain_singleton _, rfl, ?_⟩
      rw [List.take_add_one, List.getElem?_eq_getElem hk, charAt_eq hk]
      rfl
  | succ k hik ih =>
      obtain ⟨run, hrun, hlast, htake⟩ := ih (by omega) fun m him hmk => hgoes m him (by omega)
      have hnext := charToInt_next (hgoes k hik (by omega))
      refine ⟨run ++ [charAt str (k + 1)], ?_, ?_, ?_⟩
      · rw [← List.cons_append]
        apply List.IsChain.append hrun (List.isChain_singleton _)
        intro x hx y hy
        rw [List.getLast?_eq_getLast_of_ne_nil (List.cons_ne_nil _ run), hlast] at hx
        obtain rfl := Option.some.inj hx
        obtain rfl := Option.some.inj hy
        exact hnext
      · simp
      · rw [List.take_add_one, htake, List.getElem?_eq_getElem hk, charAt_eq hk]
        simp

/-! ## The end of the string -/

/-- The string ends in the characters -2 and -1. -/
def EndsTorn (str : List UInt8) : Prop :=
  [254, 255] <:+ str

theorem charAt_length (str : List UInt8) : charAt str str.length = 0 :=
  List.getD_eq_default _ _ (le_refl _)

/-- Behind -1 the terminator is taken for the next character. -/
theorem endsTorn_iff : EndsTorn str ↔ 2 ≤ str.length ∧
    goesOn str (str.length - 2) = true ∧ goesOn str (str.length - 1) = true := by
  constructor
  · intro h
    obtain ⟨front, hfront⟩ := h
    have hlength : str.length = front.length + 2 := by rw [← hfront]; simp
    have hat : ∀ k, charAt str (front.length + k) = charAt [254, 255] k := by
      intro k
      rw [← hfront, charAt, charAt, List.getD_append_right _ _ _ _ (by omega)]
      simp
    have h0 := hat 0
    have h1 := hat 1
    have h2 := hat 2
    refine ⟨by omega, ?_, ?_⟩
    · rw [hlength, Nat.add_sub_cancel, goesOn, h1]
      rw [Nat.add_zero] at h0
      rw [h0]
      decide
    · have hlast : str.length - 1 = front.length + 1 := by omega
      rw [hlast, goesOn, h1, h2]
      decide
  · intro h
    obtain ⟨hlength, hbefore, hlast⟩ := h
    have hlast' : charAt str (str.length - 1) = 255 := by
      have hnext := charToInt_next hlast
      rw [Nat.sub_add_cancel (by omega), charAt_length] at hnext
      apply charToInt_injective
      have hzero : charToInt 0 = 0 := by decide
      have hminus : charToInt 255 = -1 := by decide
      omega
    have hbefore' : charAt str (str.length - 2) = 254 := by
      have hnext := charToInt_next hbefore
      have hsucc : str.length - 2 + 1 = str.length - 1 := by omega
      rw [hsucc, hlast'] at hnext
      apply charToInt_injective
      have hminus : charToInt 255 = -1 := by decide
      have hminus' : charToInt 254 = -2 := by decide
      omega
    have hdrop : str.drop (str.length - 2) = [254, 255] := by
      rw [List.drop_eq_getElem_cons (by omega), ← charAt_eq, hbefore']
      have hsucc : str.length - 2 + 1 = str.length - 1 := by omega
      rw [hsucc, List.drop_eq_getElem_cons (by omega), ← charAt_eq, hlast',
        Nat.sub_add_cancel (by omega), List.drop_length]
    rw [EndsTorn, ← hdrop]
    exact List.drop_suffix _ str

/-- The inner loop does not stop at an end that would be torn. -/
theorem EndsTorn.stop {k : Nat} (h : EndsTorn str) (hk : k < str.length)
    (hstop : goesOn str k = false) : k + 3 ≤ str.length := by
  obtain ⟨-, hbefore, hlast⟩ := endsTorn_iff.mp h
  by_contra hnot
  have hend : k = str.length - 2 ∨ k = str.length - 1 := by omega
  rcases hend with hend | hend
  · rw [hend, hbefore] at hstop
    cases hstop
  · rw [hend, hlast] at hstop
    cases hstop

/-! ## The outer loop -/

/-- What has been stored stands for the first characters of the string. -/
structure Written (str : List UInt8) (s : Scan) (ps : List (Piece UInt8)) : Prop where
  text : s.dst = ps.flatMap (Piece.text hyphen)
  content : ps.flatMap (Piece.content charsBetween) = str.take s.i
  first : ∀ p ∈ ps, p.first ∈ str
  noNul : 0 ∉ s.dst
  length : s.dst.length ≤ s.i

/-- The terminator has been stored as the end of a sequence. -/
def Torn (str : List UInt8) (s : Scan) : Prop :=
  ∃ (before : Scan) (ps : List (Piece UInt8)), Written str before ps ∧
    before.i < str.length ∧ s.dst = before.dst ++ [charAt str before.i, hyphen, 0]

/-- What is read inside the string is in it. -/
theorem charAt_mem {k : Nat} (hk : k < str.length) : charAt str k ∈ str := by
  rw [charAt_eq hk]
  exact List.getElem_mem hk

/-- A piece that is written for the next part of the string. -/
theorem Written.append {s s' : Scan} {ps : List (Piece UInt8)} (h : Written str s ps)
    (hnoNul : 0 ∉ str) {p : Piece UInt8} (hdst : s'.dst = s.dst ++ p.text hyphen)
    (hcontent : str.take s'.i = str.take s.i ++ p.content charsBetween)
    (hchars : ∀ ch ∈ p.text hyphen, ch = hyphen ∨ ch ∈ str) (hfirst : p.first ∈ str)
    (hlength : (p.text hyphen).length + s.i ≤ s'.i) : Written str s' (ps ++ [p]) where
  text := by rw [hdst, h.text]; simp
  content := by rw [hcontent, ← h.content]; simp
  first := by
    intro q hq
    rcases List.mem_append.mp hq with hq | hq
    · exact h.first q hq
    · rw [List.mem_singleton.mp hq]
      exact hfirst
  noNul := by
    rw [hdst]
    intro hmem
    rcases List.mem_append.mp hmem with hmem | hmem
    · exact h.noNul hmem
    · rcases hchars 0 hmem with hzero | hzero
      · exact absurd hzero (by decide)
      · exact hnoNul hzero
  length := by
    have hbound := h.length
    rw [hdst, List.length_append]
    omega

/-- **One round.**  It writes a piece more and leaves an end that would be torn
whole, or it tears it. -/
theorem round_written {s : Scan} {ps : List (Piece UInt8)} (hnoNul : 0 ∉ str)
    (h : Written str s ps) (hi : s.i < str.length) :
    ((∃ p, Written str (s.round str) (ps ++ [p])) ∧ (s.round str).i ≤ str.length ∧
      (EndsTorn str → s.i + 2 ≤ str.length → (s.round str).i + 2 ≤ str.length)) ∨
    (EndsTorn str ∧ str.length < (s.round str).i ∧ Torn str (s.round str)) := by
  obtain ⟨hik, hlength, hgoes, hstop⟩ := sequenceEnd_spec str (Nat.le_of_lt hi)
  by_cases hthree : s.i + 2 ≤ sequenceEnd str s.i
  case neg =>
    have hround : s.round str = ⟨s.i + 1, s.dst ++ [charAt str s.i]⟩ := by
      rw [Scan.round]
      exact if_neg hthree
    rw [hround]
    refine Or.inl ⟨⟨.one (charAt str s.i), ?_⟩, hi, ?_⟩
    · refine h.append hnoNul rfl ?_ ?_ (charAt_mem hi) (by simp [Piece.text]; omega)
      · rw [List.take_add_one, List.getElem?_eq_getElem hi, charAt_eq hi]
        rfl
      · intro ch hch
        rw [List.mem_singleton.mp hch]
        exact Or.inr (charAt_mem hi)
    · intro htorn hroom
      have hend := htorn.stop (by omega) (hstop (by omega))
      simp only
      omega
  have hround : s.round str = ⟨sequenceEnd str s.i + 1,
      s.dst ++ [charAt str s.i, hyphen, charAt str (sequenceEnd str s.i)]⟩ := by
    rw [Scan.round]
    exact if_pos hthree
  rw [hround]
  by_cases hend : sequenceEnd str s.i < str.length
  · obtain ⟨run, hrun, hlast, htake⟩ := exists_run hik hend hgoes
    refine Or.inl ⟨⟨.range (charAt str s.i) (charAt str (sequenceEnd str s.i)), ?_⟩, hend, ?_⟩
    · refine h.append hnoNul rfl ?_ ?_ (charAt_mem hi) (by simp [Piece.text]; omega)
      · rw [htake, Piece.content, ← hlast, charsBetween_eq hrun]
      · intro ch hch
        simp only [Piece.text, List.mem_cons, List.not_mem_nil, or_false] at hch
        rcases hch with hch | hch | hch
        · exact Or.inr (hch ▸ charAt_mem hi)
        · exact Or.inl hch
        · exact Or.inr (hch ▸ charAt_mem hend)
    · intro htorn hroom
      have hwhole := htorn.stop hend (hstop hend)
      simp only
      omega
  · have hk : sequenceEnd str s.i = str.length := by omega
    have htorn : EndsTorn str := by
      apply endsTorn_iff.mpr
      exact ⟨by omega, hgoes _ (by omega) (by omega), hgoes _ (by omega) (by omega)⟩
    refine Or.inr ⟨htorn, by simp only; omega, s, ps, h, hi, ?_⟩
    rw [hk, charAt_length]

/-- What holds in front of every round: the string is written up to here and
an end that would be torn lies ahead, or it has been torn. -/
def Progress (str : List UInt8) (s : Scan) : Prop :=
  (∃ ps, Written str s ps ∧ s.i ≤ str.length ∧ (EndsTorn str → s.i + 2 ≤ str.length)) ∨
    (EndsTorn str ∧ str.length < s.i ∧ Torn str s)

/-- **The run.** -/
theorem loop_progress (hnoNul : 0 ∉ str) :
    ∃ s, findSequence str = s.dst ∧ str.length ≤ s.i ∧ Progress str s := by
  have hrule : ∀ s, s = While.loop (fun s => decide (s.i < str.length)) (Scan.round str)
      (fun s => str.length - s.i) ⟨0, []⟩ →
      Progress str s ∧ decide (s.i < str.length) = false := by
    intro s hs
    rw [hs]
    refine While.loop_rule (Progress str) ?_ ?_ ?_
    · intro s hgo hs
      have hi : s.i < str.length := of_decide_eq_true hgo
      rcases hs with ⟨ps, hwritten, -, hwhole⟩ | ⟨-, hend, -⟩
      · rcases round_written hnoNul hwritten hi with ⟨⟨p, hnext⟩, hlength, hstays⟩ | htorn
        · exact Or.inl ⟨ps ++ [p], hnext, hlength, fun h => hstays h (hwhole h)⟩
        · exact Or.inr htorn
      · omega
    · intro s hgo _
      have hi : s.i < str.length := of_decide_eq_true hgo
      have hmoves : s.i < (s.round str).i := by
        have hk := (sequenceEnd_spec str (Nat.le_of_lt hi)).1
        simp only [Scan.round]
        split_ifs <;> simp only <;> omega
      omega
    · refine Or.inl ⟨[], ⟨rfl, rfl, by simp, by simp, le_refl _⟩, Nat.zero_le _, ?_⟩
      intro h
      exact (endsTorn_iff.mp h).1
  obtain ⟨hprogress, hstop⟩ := hrule _ rfl
  exact ⟨_, rfl, Nat.not_lt.mp (of_decide_eq_false hstop), hprogress⟩

end Loop

/-! ## Reversibility -/

/-- What `findSequence` is meant to do: the text it prints can be expanded to
the string again, and the text with its terminator fits the buffer. -/
structure Reversible (str : List UInt8) : Prop where
  expands : expand (printed str) = str
  fits : (findSequence str).length + 1 ≤ dstSize

/-- What is written for a whole string is read back. -/
theorem Written.reversible {str : List UInt8} {s : Scan} {ps : List (Piece UInt8)}
    (h : Written str s ps) (hhyphen : hyphen ∉ str) (hroom : str.length < dstSize)
    (hdst : findSequence str = s.dst) (hi : s.i = str.length) : Reversible str := by
  have hps : ∀ p ∈ ps, p.first ≠ hyphen := fun p hp heq => hhyphen (heq ▸ h.first p hp)
  constructor
  · have hprinted : printed str = ps.flatMap (Piece.text hyphen) ++ [] := by
      rw [printed, hdst, Assembler.cstrText_of_noNul h.noNul, h.text, List.append_nil]
    have hread := Runs.expand_append charsBetween hps
      (show ([] : List UInt8).head? ≠ some hyphen by simp)
    rw [hprinted, expand, hread, h.content, hi, List.take_length]
    simp [Runs.expand]
  · have hbound := h.length
    rw [hdst]
    omega

/-- What is printed for a torn end has a hyphen left after its expansion. -/
theorem Torn.not_reversible {str : List UInt8} {s : Scan} (h : Torn str s) (hnoNul : 0 ∉ str)
    (hhyphen : hyphen ∉ str) (hdst : findSequence str = s.dst) : ¬ Reversible str := by
  obtain ⟨before, ps, hwritten, hi, htorn⟩ := h
  have hps : ∀ p ∈ ps, p.first ≠ hyphen := fun p hp heq => hhyphen (heq ▸ hwritten.first p hp)
  have hchar := charAt_mem hi
  have hnext : charAt str before.i ≠ hyphen := fun heq => hhyphen (heq ▸ hchar)
  have hprinted : printed str =
      ps.flatMap (Piece.text hyphen) ++ [charAt str before.i, hyphen] := by
    have hsplit : s.dst = (before.dst ++ [charAt str before.i, hyphen]) ++ [0] := by
      rw [htorn]
      simp
    have hclean : ∀ ch ∈ before.dst ++ [charAt str before.i, hyphen], (ch != 0) = true := by
      intro ch hch
      rw [bne_iff_ne]
      intro hzero
      rw [hzero] at hch
      rcases List.mem_append.mp hch with hmem | hmem
      · exact hwritten.noNul hmem
      · simp only [List.mem_cons, List.not_mem_nil, or_false] at hmem
        rcases hmem with hmem | hmem
        · exact hnoNul (hmem ▸ hchar)
        · exact absurd hmem (by decide)
    rw [printed, hdst, hsplit, cstrText, List.takeWhile_append_of_pos hclean, ← hwritten.text]
    simp
  intro hreversible
  have hexpands := hreversible.expands
  have hread := Runs.expand_append charsBetween hps
    (show [charAt str before.i, hyphen].head? ≠ some hyphen by simpa using hnext)
  rw [hprinted, expand, hread] at hexpands
  apply hhyphen
  rw [← hexpands]
  simp [Runs.expand]

/-- **Compression is reversible** for every string without hyphens that has
room, unless it ends in the characters -2 and -1. -/
theorem findSequence_reversible_iff {str : List UInt8} (hnoNul : 0 ∉ str)
    (hhyphen : hyphen ∉ str) (hroom : str.length < dstSize) :
    Reversible str ↔ ¬ [254, 255] <:+ str := by
  obtain ⟨s, hdst, hend, hprogress⟩ := loop_progress hnoNul
  rcases hprogress with ⟨ps, hwritten, hlength, hwhole⟩ | ⟨htorn, -, hlost⟩
  · have hi : s.i = str.length := by omega
    apply iff_of_true (hwritten.reversible hhyphen hroom hdst hi)
    intro htorn
    have hahead := hwhole htorn
    omega
  · exact iff_of_false (hlost.not_reversible hnoNul hhyphen hdst) (not_not.mpr htorn)

/-- Adjacent sequences, one up to the end of the string. -/
theorem findSequence_reversible_sample :
    Reversible (bytes "abcxyz/0123") ∧ printed (bytes "abcxyz/0123") = bytes "a-cx-z/0123" :=
  ⟨(findSequence_reversible_iff (by decide) (by decide) (by decide)).mpr (by decide),
    by decide +kernel⟩

/-- The string `-2, -1` is printed as `-2` and a hyphen. -/
theorem findSequence_tears : printed [254, 255] = [254, hyphen] ∧ ¬ Reversible [254, 255] := by
  have hprinted : printed [254, 255] = [254, hyphen] := by decide +kernel
  refine ⟨hprinted, ?_⟩
  intro h
  have hexpands := h.expands
  rw [hprinted] at hexpands
  exact absurd hexpands (by decide +kernel)

end Sequences
