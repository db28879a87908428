import Mathlib.Data.Set.Lattice
import Mathlib.Data.List.Basic
import Mathlib.Data.List.Forall2

/-!
# Programs and what they touch

A program over a store of keys reads some keys, changes some keys, and may fail
(`Within`).  Bounds of this kind are composed along the program.  Programs whose
bounds keep clear of each other do not notice each other: run one after the
other, each does what it would have done alone (`runAll_alone`), so their order
does not matter.
-/

namespace Footprints

universe u

variable {Key Value Error α β ι : Type u}

/-- A program that reads and changes a store, and may fail. -/
abbrev Program (Key Value Error α : Type u) : Type u := StateT (Key → Value) (Except Error) α

/-- What a program comes to from two stores: the same error, or the same result
and the same changes, all of them at the given keys. -/
inductive Alike (writes : Set Key) (s t : Key → Value) :
    Except Error (α × (Key → Value)) → Except Error (α × (Key → Value)) → Prop
  | failed (error : Error) : Alike writes s t (.error error) (.error error)
  | returned (a : α) {s' t' : Key → Value}
      (changed : ∀ key, s' key = t' key ∨ s' key = s key ∧ t' key = t key)
      (frame : ∀ key ∉ writes, s' key = s key ∧ t' key = t key) :
      Alike writes s t (.ok (a, s')) (.ok (a, t'))

/-- A program that looks at nothing but the keys it reads, and changes nothing but
the keys it writes. -/
def Within (reads writes : Set Key) (p : Program Key Value Error α) : Prop :=
  ∀ s t : Key → Value, (∀ key ∈ reads, s key = t key) → Alike writes s t (p s) (p t)

/-! ## Bounds of programs -/

section Bounds

variable {reads reads' writes writes' : Set Key} {p : Program Key Value Error α}

/-- A program stays within larger sets. -/
theorem Within.mono (h : Within reads writes p) (hreads : reads ⊆ reads')
    (hwrites : writes ⊆ writes') : Within reads' writes' p := by
  intro s t hagree
  have hrun := h s t fun key hkey => hagree key (hreads hkey)
  generalize p s = left at hrun
  generalize p t = right at hrun
  cases hrun with
  | failed error => exact .failed error
  | returned a changed frame =>
      exact .returned a changed fun key hkey => frame key fun hmem => hkey (hwrites hmem)

/-- What is not written stays. -/
theorem Within.frame (h : Within reads writes p) {s s' : Key → Value} {a : α}
    (hrun : p s = .ok (a, s')) {key : Key} (hkey : key ∉ writes) : s' key = s key := by
  have hself := h s s fun _ _ => rfl
  rw [hrun] at hself
  cases hself with
  | returned _ _ frame => exact (frame key hkey).1

/-- Returning touches nothing. -/
theorem within_pure (a : α) : Within reads writes (pure a : Program Key Value Error α) :=
  fun _ _ _ => .returned a (fun _ => Or.inr ⟨rfl, rfl⟩) fun _ _ => ⟨rfl, rfl⟩

theorem within_throw (error : Error) :
    Within reads writes (throw error : Program Key Value Error α) :=
  fun _ _ _ => .failed error

/-- **One program behind another** touches what either of them does. -/
theorem Within.bind {f : α → Program Key Value Error β} (h : Within reads writes p)
    (hf : ∀ a, Within reads writes (f a)) : Within reads writes (p >>= f) := by
  intro s t hagree
  have hrun := h s t hagree
  show Alike writes s t ((p s).bind fun r => f r.1 r.2) ((p t).bind fun r => f r.1 r.2)
  generalize p s = left at hrun
  generalize p t = right at hrun
  cases hrun with
  | failed error => exact .failed error
  | @returned a s' t' changed frame =>
      have hagree' : ∀ key ∈ reads, s' key = t' key := by
        intro key hkey
        rcases changed key with hsame | ⟨hs, ht⟩
        · exact hsame
        · rw [hs, ht, hagree key hkey]
      have hrun' := hf a s' t' hagree'
      show Alike writes s t (f a s') (f a t')
      generalize f a s' = left at hrun'
      generalize f a t' = right at hrun'
      cases hrun' with
      | failed error => exact .failed error
      | returned b changed' frame' =>
          refine .returned b (fun key => ?_) fun key hkey => ?_
          · rcases changed' key with hsame | ⟨hs, ht⟩
            · exact Or.inl hsame
            · rcases changed key with hsame | ⟨hs', ht'⟩
              · exact Or.inl (hs.trans (hsame.trans ht.symm))
              · exact Or.inr ⟨hs.trans hs', ht.trans ht'⟩
          · obtain ⟨hs, ht⟩ := frame key hkey
            obtain ⟨hs', ht'⟩ := frame' key hkey
            exact ⟨hs'.trans hs, ht'.trans ht⟩

/-- Returning leaves the state. -/
theorem run_pure (a : α) (s : Key → Value) :
    (pure a : Program Key Value Error α) s = .ok (a, s) := rfl

/-- What comes behind runs in the state that was left. -/
theorem run_bind {f : α → Program Key Value Error β} {s t : Key → Value} {a : α}
    (h : p s = .ok (a, t)) : (p >>= f) s = f a t := by
  show (p s).bind (fun r => f r.1 r.2) = f a t
  rw [h]
  rfl

theorem run_bind_error {f : α → Program Key Value Error β} {s : Key → Value} {error : Error}
    (h : p s = .error error) : (p >>= f) s = .error error := by
  show (p s).bind (fun r => f r.1 r.2) = .error error
  rw [h]
  rfl

/-- A look at one key. -/
def look (key : Key) : Program Key Value Error Value := fun s => .ok (s key, s)

/-- Looking gives the value and leaves the state. -/
theorem run_look (key : Key) (f : Value → Program Key Value Error β) (s : Key → Value) :
    (look key >>= f) s = f (s key) s := rfl

/-- It touches its key only. -/
theorem within_look {key : Key} (hkey : key ∈ reads) :
    Within reads writes (look key : Program Key Value Error Value) := by
  intro s t hagree
  rw [look, look, hagree key hkey]
  exact .returned _ (fun _ => Or.inr ⟨rfl, rfl⟩) fun _ _ => ⟨rfl, rfl⟩

variable [DecidableEq Key]

/-- A new value for one key. -/
def put (key : Key) (value : Value) : Program Key Value Error PUnit :=
  fun s => .ok (⟨⟩, Function.update s key value)

theorem within_put {key : Key} (hkey : key ∈ writes) (value : Value) :
    Within reads writes (put key value : Program Key Value Error PUnit) := by
  intro s t _
  refine .returned _ (fun key' => ?_) fun key' hkey' => ?_
  · by_cases hsame : key' = key
    · exact Or.inl (by rw [hsame, Function.update_self, Function.update_self])
    · exact Or.inr ⟨Function.update_of_ne hsame _ _, Function.update_of_ne hsame _ _⟩
  · have hne : key' ≠ key := fun hsame => hkey' (hsame ▸ hkey)
    exact ⟨Function.update_of_ne hne _ _, Function.update_of_ne hne _ _⟩

end Bounds

/-! ## Properties of all parts -/

/-- A property that a program has if its parts have it. -/
structure Composes (has : ∀ {α : Type u}, Program Key Value Error α → Prop) : Prop where
  returns : ∀ {α : Type u} (a : α), has (pure a)
  fails : ∀ {α : Type u} (error : Error), has (throw error : Program Key Value Error α)
  behind : ∀ {α β : Type u} {p : Program Key Value Error α} {f : α → Program Key Value Error β},
    has p → (∀ a, has (f a)) → has (p >>= f)

/-- Programs within two sets can be composed. -/
theorem composes_within (reads writes : Set Key) :
    Composes (Within reads writes : ∀ {α : Type u}, Program Key Value Error α → Prop) where
  returns := within_pure
  fails := within_throw
  behind := Within.bind

/-- What is true of a store is true of the one that the program leaves. -/
def Keeps (holds : (Key → Value) → Prop) (p : Program Key Value Error α) : Prop :=
  ∀ s a t, holds s → p s = .ok (a, t) → holds t

theorem composes_keeps (holds : (Key → Value) → Prop) :
    Composes (Keeps holds : ∀ {α : Type u}, Program Key Value Error α → Prop) where
  returns a := by
    intro s b t hs hrun
    obtain ⟨-, rfl⟩ := Prod.mk.inj (Except.ok.inj hrun)
    exact hs
  fails error := by
    intro s a t hs hrun
    cases hrun
  behind {_ _} p f h hf := by
    intro s b u hs hrun
    cases hfirst : p s with
    | error error =>
        rw [run_bind_error hfirst] at hrun
        cases hrun
    | ok first =>
        rw [run_bind hfirst] at hrun
        exact hf first.1 first.2 b u (h s first.1 first.2 hs hfirst) hrun

/-! ## Programs that keep clear of each other -/

/-- Neither of two footprints writes what the other one touches. -/
structure Apart (reads writes reads' writes' : Set Key) : Prop where
  left : ∀ key ∈ writes, key ∉ reads' ∧ key ∉ writes'
  right : ∀ key ∈ writes', key ∉ reads ∧ key ∉ writes

/-- The programs of a list, one after the other, with their results. -/
def runAll (p : ι → Program Key Value Error α) : List ι → Program Key Value Error (List α)
  | [] => pure []
  | i :: rest => do
      let a ← p i
      let results ← runAll p rest
      pure (a :: results)

section Alone

variable {p : ι → Program Key Value Error α} {reads writes : ι → Set Key}

/-- What the programs of a list do together is what each of them does alone: the
results are those from the first store, every key that a program writes has the
value that this program alone gives it, and every other key its first value. -/
structure Together (p : ι → Program Key Value Error α) (writes : ι → Set Key) (ops : List ι)
    (s : Key → Value) (results : List α) (s' : Key → Value) : Prop where
  alone : List.Forall₂ (fun i a => ∃ final, p i s = .ok (a, final) ∧
    ∀ key ∈ writes i, s' key = final key) ops results
  frame : ∀ key, (∀ i ∈ ops, key ∉ writes i) → s' key = s key

/-- The first of several runs before the others. -/
theorem runAll_cons (i : ι) (rest : List ι) (s : Key → Value) :
    runAll p (i :: rest) s = (p i s).bind fun first =>
      (runAll p rest first.2).bind fun others => .ok (first.1 :: others.1, others.2) := rfl

/-- A program that runs behind one that keeps clear of it, and alone. -/
theorem Within.behind {i : ι} (h : Within (reads i) (writes i) (p i)) {touched : Set Key}
    {s middle : Key → Value} (hframe : ∀ key ∉ touched, middle key = s key)
    (hclear : ∀ key ∈ touched, key ∉ reads i ∧ key ∉ writes i) :
    Alike (writes i) middle s (p i middle) (p i s) := by
  refine h middle s fun key hkey => hframe key fun hmem => ?_
  exact (hclear key hmem).1 hkey

/-- **Programs that keep clear of each other** all return when they are run one
after the other exactly if each of them returns alone, and then do together what
they do alone. -/
theorem runAll_alone {ops : List ι} (hwithin : ∀ i ∈ ops, Within (reads i) (writes i) (p i))
    (hapart : ops.Pairwise fun i j => Apart (reads i) (writes i) (reads j) (writes j))
    (s : Key → Value) :
    ((∃ results s', runAll p ops s = .ok (results, s')) ↔ ∀ i ∈ ops, ∃ r, p i s = .ok r) ∧
      ∀ results s', runAll p ops s = .ok (results, s') → Together p writes ops s results s' := by
  induction ops generalizing s with
  | nil =>
      refine ⟨iff_of_true ⟨[], s, rfl⟩ (by simp), fun results s' hrun => ?_⟩
      obtain ⟨rfl, rfl⟩ := Prod.mk.inj (Except.ok.inj hrun)
      exact ⟨.nil, fun _ _ => rfl⟩
  | cons i rest ih =>
      obtain ⟨hfirst, hrest⟩ := List.pairwise_cons.mp hapart
      have hi := hwithin i List.mem_cons_self
      rw [runAll_cons]
      cases hrun : p i s with
      | error error =>
          refine ⟨iff_of_false ?_ fun hall => ?_, fun results s' h => ?_⟩
          · intro hfacts
            obtain ⟨results, s', h⟩ := hfacts
            cases h
          · obtain ⟨r, hr⟩ := hall i List.mem_cons_self
            rw [hrun] at hr
            cases hr
          · cases h
      | ok first =>
          obtain ⟨a, middle⟩ := first
          obtain ⟨hreturns, htogether⟩ :=
            ih (fun j hj => hwithin j (List.mem_cons_of_mem _ hj)) hrest middle
          -- behind the first program the others still do what they do alone
          have hframe : ∀ key ∉ writes i, middle key = s key := fun key hkey => hi.frame hrun hkey
          have hbehind : ∀ j ∈ rest, Alike (writes j) middle s (p j middle) (p j s) :=
            fun j hj => (hwithin j (List.mem_cons_of_mem _ hj)).behind hframe (hfirst j hj).left
          refine ⟨?_, fun results s' h => ?_⟩
          · have hsame : (∀ j ∈ rest, ∃ r, p j middle = .ok r) ↔
                ∀ j ∈ rest, ∃ r, p j s = .ok r := by
              refine forall₂_congr fun j hj => ?_
              have halike := hbehind j hj
              generalize p j middle = left at halike
              generalize p j s = right at halike
              cases halike with
              | failed error => exact Iff.rfl
              | returned b => exact iff_of_true ⟨_, rfl⟩ ⟨_, rfl⟩
            rw [List.forall_mem_cons, hrun, ← hsame, ← hreturns]
            constructor
            · intro hfacts
              obtain ⟨results, s', h⟩ := hfacts
              refine ⟨⟨_, rfl⟩, ?_⟩
              cases hothers : runAll p rest middle with
              | error error =>
                  rw [Except.bind, hothers] at h
                  cases h
              | ok others => exact ⟨others.1, others.2, rfl⟩
            · intro hfacts
              obtain ⟨-, results, s', h⟩ := hfacts
              exact ⟨a :: results, s', by simp only [Except.bind, h]⟩
          · cases hothers : runAll p rest middle with
            | error error =>
                rw [Except.bind, hothers] at h
                cases h
            | ok others =>
                simp only [Except.bind, hothers] at h
                obtain ⟨rfl, rfl⟩ := Prod.mk.inj (Except.ok.inj h)
                obtain ⟨halone, hkeep⟩ := htogether _ _ hothers
                refine ⟨.cons ⟨middle, hrun, fun key hkey => ?_⟩ ?_, fun key hkey => ?_⟩
                · exact hkeep key fun j hj => ((hfirst j hj).left key hkey).2
                · have hmem : ∀ j ∈ rest, ∀ b, (∃ final, p j middle = .ok (b, final) ∧
                      ∀ key ∈ writes j, others.2 key = final key) →
                        ∃ final, p j s = .ok (b, final) ∧
                          ∀ key ∈ writes j, others.2 key = final key := by
                    intro j hj b hfacts
                    obtain ⟨final, hfinal, hvalues⟩ := hfacts
                    have halike := hbehind j hj
                    rw [hfinal] at halike
                    generalize p j s = right at halike
                    cases halike with
                    | @returned _ _ final' changed frame =>
                        refine ⟨final', rfl, fun key hkey => (hvalues key hkey).trans ?_⟩
                        rcases changed key with hsame | ⟨hleft, hright⟩
                        · exact hsame
                        · rw [hleft, hright]
                          exact hframe key ((hfirst j hj).right key hkey).2
                  have hboth := (List.forall₂_and_left (p := fun j => j ∈ rest) rest _).mpr
                    ⟨fun j hj => hj, halone⟩
                  exact hboth.imp fun j b hb => hmem j hb.1 b hb.2
                · rw [List.forall_mem_cons] at hkey
                  rw [hkeep key hkey.2, hframe key hkey.1]

end Alone

/-! ## Programs that are run again -/

section Again

variable {p : Program Key Value Error α} {reads writes : Set Key} {s t : Key → Value}

/-- From where the run has ended another one comes to the same result, and leaves
everything as it is. -/
def Settles (p : Program Key Value Error α) (s : Key → Value) : Prop :=
  ∀ a t, p s = .ok (a, t) → p t = .ok (a, t)

/-- Stores that are the same at the keys a program touches. -/
def AgreeAt (reads writes : Set Key) (s t : Key → Value) : Prop :=
  ∀ key, key ∈ reads ∨ key ∈ writes → s key = t key

/-- A run that changes nothing does not depend on the keys it does not touch. -/
theorem Within.again (h : Within reads writes p) {a : α} (hsame : p s = .ok (a, s))
    (hagree : AgreeAt reads writes t s) : p t = .ok (a, t) := by
  have hrun := h t s fun key hkey => hagree key (Or.inl hkey)
  rw [hsame] at hrun
  generalize p t = left at hrun
  cases hrun with
  | @returned _ t' _ changed frame =>
      have hkept : t' = t := by
        funext key
        by_cases hkey : key ∈ writes
        · rcases changed key with h | h
          · exact h.trans (hagree key (Or.inr hkey)).symm
          · exact h.1
        · exact (frame key hkey).1
      rw [hkept]

/-- A program settles in a state that agrees on what it touches. -/
theorem Settles.agree (h : Settles p s) (hwithin : Within reads writes p)
    (hagree : AgreeAt reads writes t s) : Settles p t := by
  intro a t' hrun
  have halike := hwithin t s fun key hkey => hagree key (Or.inl hkey)
  rw [hrun] at halike
  generalize hother : p s = right at halike
  cases halike with
  | @returned _ _ s' changed frame =>
      apply hwithin.again (h a s' hother)
      intro key hkey
      rcases changed key with h | h
      · exact h
      · exact h.1.trans ((hagree key hkey).trans h.2.symm)

/-- Returning settles. -/
theorem settles_pure (a : α) (s : Key → Value) :
    Settles (pure a : Program Key Value Error α) s := by
  intro b t hrun
  obtain ⟨rfl, rfl⟩ := Prod.mk.inj (Except.ok.inj hrun)
  rfl

theorem settles_throw (error : Error) (s : Key → Value) :
    Settles (throw error : Program Key Value Error α) s := by
  intro a t hrun
  cases hrun

/-- **One program behind another** settles if both do and the first one is not
told apart by what the second one changes. -/
theorem Settles.bind {f : α → Program Key Value Error β}
    (hf : ∀ a t, p s = .ok (a, t) → Settles (f a) t ∧
      ∀ b u, f a t = .ok (b, u) → p u = .ok (a, u)) :
    Settles (p >>= f) s := by
  intro b u hrun
  cases hfirst : p s with
  | error error =>
      rw [run_bind_error hfirst] at hrun
      cases hrun
  | ok first =>
      obtain ⟨a, t⟩ := first
      rw [run_bind hfirst] at hrun
      obtain ⟨hsettles, hagain⟩ := hf a t hfirst
      rw [run_bind (hagain b u hrun)]
      exact hsettles b u hrun

/-- What is done with the result is no matter. -/
theorem Settles.map (h : Settles p s) (f : α → β) : Settles (p >>= fun a => pure (f a)) s := by
  intro b t hrun
  cases hfirst : p s with
  | error error =>
      rw [run_bind_error hfirst] at hrun
      cases hrun
  | ok first =>
      rw [run_bind hfirst, run_pure] at hrun
      obtain ⟨rfl, rfl⟩ := Prod.mk.inj (Except.ok.inj hrun)
      rw [run_bind (h first.1 first.2 hfirst), run_pure]

/-- What the second one does not write it leaves alone. -/
theorem Within.agreeAt {reads' writes' : Set Key} (h : Within reads' writes' p)
    (hclear : ∀ key ∈ writes', key ∉ reads ∧ key ∉ writes) {a : α} (hrun : p s = .ok (a, t)) :
    AgreeAt reads writes t s := by
  intro key hkey
  apply h.frame hrun
  intro hmem
  obtain ⟨hreads, hwrites⟩ := hclear key hmem
  exact hkey.elim hreads hwrites

/-- A program behind one that it keeps clear of. -/
theorem Settles.behind {reads' writes' : Set Key} {f : α → Program Key Value Error β}
    (h : Settles p s) (hwithin : Within reads writes p)
    (hf : ∀ a, Within reads' writes' (f a))
    (hclear : ∀ key ∈ writes', key ∉ reads ∧ key ∉ writes)
    (hsettles : ∀ a t, p s = .ok (a, t) → Settles (f a) t) : Settles (p >>= f) s := by
  apply Settles.bind
  intro a t hrun
  refine ⟨hsettles a t hrun, fun b u hrun' => ?_⟩
  exact hwithin.again (h a t hrun) ((hf a).agreeAt hclear hrun')

/-- **Programs that keep clear of each other** settle together if each of them
does. -/
theorem settles_runAll {p : ι → Program Key Value Error α} {reads writes : ι → Set Key}
    {ops : List ι} (hwithin : ∀ i ∈ ops, Within (reads i) (writes i) (p i))
    (hapart : ops.Pairwise fun i j => Apart (reads i) (writes i) (reads j) (writes j))
    (hsettles : ∀ i ∈ ops, Settles (p i) s) : Settles (runAll p ops) s := by
  induction ops generalizing s with
  | nil => exact settles_pure [] s
  | cons i rest ih =>
      obtain ⟨hfirst, hrest⟩ := List.pairwise_cons.mp hapart
      have hi := hwithin i List.mem_cons_self
      have hothers : ∀ j ∈ rest, Within (reads j) (writes j) (p j) :=
        fun j hj => hwithin j (List.mem_cons_of_mem _ hj)
      apply Settles.bind
      intro a t hrun
      have hlater : ∀ j ∈ rest, Settles (p j) t := fun j hj =>
        (hsettles j (List.mem_cons_of_mem _ hj)).agree (hothers j hj)
          (hi.agreeAt (hfirst j hj).left hrun)
      refine ⟨(ih hothers hrest hlater).map (List.cons a), fun results u hrun' => ?_⟩
      apply hi.again (hsettles i List.mem_cons_self a t hrun)
      intro key hkey
      cases hthen : runAll p rest t with
      | error error =>
          rw [run_bind_error hthen] at hrun'
          cases hrun'
      | ok others =>
          rw [run_bind hthen, run_pure] at hrun'
          obtain ⟨-, rfl⟩ := Prod.mk.inj (Except.ok.inj hrun')
          apply ((runAll_alone hothers hrest t).2 others.1 others.2 hthen).frame
          intro j hj hmem
          obtain ⟨hreads, hwrites⟩ := (hfirst j hj).right key hmem
          exact hkey.elim hreads hwrites

end Again

end Footprints
