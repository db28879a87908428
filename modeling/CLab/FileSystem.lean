import CLab.Footprints
import CLab.StringUtil

/-!
# Files

The calls of the C library that the assembler's `main` makes: `fopen`, `fgetc`
up to the end, `fprintf` and `fclose`, `stat`, `mkdir`, and the string functions
that cut a path up.  A file system is a store whose keys are the paths; two
different paths are two different places.
-/

namespace Assembler

/-- A path, as the characters of a C string. -/
abbrev Path := List UInt8

/-- What there is at a path. -/
inductive Entry
  | directory
  | file (contents : List UInt8)
deriving DecidableEq

/-- `none` where there is nothing. -/
abbrev FileSystem := Path → Option Entry

/-- What the system the program runs on permits. -/
structure Host where
  readable : Path → Bool
  writable : Path → Bool
  creatable : Path → Bool

/-- A program that works on files. -/
abbrev FileProgram (Error : Type) := Footprints.Program Path (Option Entry) Error

/-! ## Paths -/

/-- `strrchr`: the place of the last such character. -/
def strrchr (ch : UInt8) : List UInt8 → Option Nat
  | [] => none
  | c :: rest =>
      match strrchr ch rest with
      | some i => some (i + 1)
      | none => if c = ch then some 0 else none

/-- Nothing is found exactly where the character is not. -/
theorem strrchr_eq_none_iff {ch : UInt8} {text : List UInt8} :
    strrchr ch text = none ↔ ch ∉ text := by
  induction text with
  | nil => simp [strrchr]
  | cons c rest ih =>
      rw [strrchr, List.mem_cons, not_or, ← ih]
      cases hrest : strrchr ch rest with
      | some i => simp
      | none =>
          by_cases hc : c = ch
          · simp [hc]
          · simp [hc, Ne.symm hc]

/-- The last of the characters, with none behind it. -/
theorem strrchr_eq_some_iff {ch : UInt8} {text : List UInt8} {i : Nat} :
    strrchr ch text = some i ↔
      ∃ front back, text = front ++ ch :: back ∧ ch ∉ back ∧ front.length = i := by
  induction text generalizing i with
  | nil => simp [strrchr]
  | cons c rest ih =>
      rw [strrchr]
      cases hrest : strrchr ch rest with
      | some j =>
          obtain ⟨front, back, hsplit, hback, hlength⟩ := ih.mp hrest
          constructor
          · intro h
            obtain rfl := Option.some.inj h
            exact ⟨c :: front, back, by rw [hsplit]; rfl, hback, by simp [hlength]⟩
          · intro h
            obtain ⟨front', back', hsplit', hback', hlength'⟩ := h
            cases front' with
            | nil =>
                have hmem : ch ∈ rest := by rw [hsplit]; simp
                exact absurd ((List.cons.inj hsplit').2 ▸ hmem) hback'
            | cons d front' =>
                have hfound : strrchr ch rest = some front'.length :=
                  ih.mpr ⟨front', back', (List.cons.inj hsplit').2, hback', rfl⟩
                rw [hrest] at hfound
                have hsame := Option.some.inj hfound
                rw [← hlength', List.length_cons, hsame]
      | none =>
          have hnot := strrchr_eq_none_iff.mp hrest
          constructor
          · intro h
            by_cases hc : c = ch
            · rw [if_pos hc] at h
              exact ⟨[], rest, by rw [hc]; rfl, hnot, Option.some.inj h⟩
            · rw [if_neg hc] at h
              cases h
          · intro h
            obtain ⟨front, back, hsplit, -, hlength⟩ := h
            cases front with
            | nil =>
                rw [if_pos (List.cons.inj hsplit).1]
                exact congrArg some hlength
            | cons d front =>
                exact absurd ((List.cons.inj hsplit).2 ▸ by simp) hnot

/-- The directory that a path names a member of; a path without a `/` is one in
the working directory, which is always there. -/
def parent (path : Path) : Option Path :=
  (strrchr '/'.toUInt8 path).map (fun i => path.take i)

/-! ## Calls -/

section Calls

open Footprints (look put)

variable {Error : Type} (host : Host)

/-- `fopen(path, "r")` and all that is read up to the end.  A directory can be
opened, and nothing is read from it. -/
def readFile (path : Path) : FileProgram Error (Option (List UInt8)) := do
  let entry ← look path
  pure <| match entry with
    | none => none
    | some .directory => if host.readable path then some [] else none
    | some (.file contents) => if host.readable path then some contents else none

/-- Whether there is a directory for the path to be in. -/
def hasParent (path : Path) : FileProgram Error Bool :=
  match parent path with
  | none => pure true
  | some directory => do
      let entry ← look directory
      pure (entry = some .directory)

/-- Whether `fopen(path, "w")` returns a file. -/
def opensForWriting (path : Path) : FileProgram Error Bool := do
  let there ← hasParent path
  let entry ← look path
  pure (there && host.writable path && decide (entry ≠ some .directory))

/-- `fopen(path, "w")`, the text, and `fclose`: whether there is a file now. -/
def writeFile (path : Path) (contents : List UInt8) : FileProgram Error Bool := do
  let opens ← opensForWriting host path
  if opens then
    put path (some (.file contents))
    pure true
  else pure false

/-- `stat` finds something at the path, or `mkdir` makes a directory there. -/
def createDirectory (path : Path) : FileProgram Error Bool := do
  let entry ← look path
  if entry ≠ none then pure true
  else
    let there ← hasParent path
    if there && host.creatable path then
      put path (some .directory)
      pure true
    else pure false

/-! ## What the calls come to -/

/-- What `fopen` for writing needs: a directory to be in, leave, and no directory
in the place. -/
def Opens (files : FileSystem) (path : Path) : Prop :=
  (∀ directory, parent path = some directory → files directory = some .directory) ∧
    host.writable path = true ∧ files path ≠ some .directory

instance (files : FileSystem) (path : Path) : Decidable (Opens host files path) :=
  inferInstanceAs (Decidable ((∀ directory ∈ parent path, files directory = some .directory) ∧
    host.writable path = true ∧ files path ≠ some .directory))

/-- What `create_directory` needs: something in the place, or leave to make a
directory there. -/
def Creates (files : FileSystem) (path : Path) : Prop :=
  files path ≠ none ∨ (∀ directory, parent path = some directory →
    files directory = some .directory) ∧ host.creatable path = true

instance (files : FileSystem) (path : Path) : Decidable (Creates host files path) :=
  inferInstanceAs (Decidable (files path ≠ none ∨
    (∀ directory ∈ parent path, files directory = some .directory) ∧ host.creatable path = true))

section Runs

open Footprints (run_bind run_look run_pure)

variable {files : FileSystem} {path : Path}

/-- A file that is there and may be read is read. -/
theorem readFile_run {contents : List UInt8} (hfile : files path = some (.file contents))
    (hreadable : host.readable path = true) :
    (readFile host path : FileProgram Error _) files = .ok (some contents, files) := by
  rw [readFile, run_look, hfile]
  simp only [hreadable, if_true]
  rfl

/-- Asking for the directory looks at it and changes nothing. -/
theorem hasParent_run : (hasParent path : FileProgram Error _) files =
    .ok (decide (∀ directory, parent path = some directory →
      files directory = some .directory), files) := by
  unfold hasParent
  cases parent path with
  | none => simp [run_pure]
  | some directory =>
      simp only [run_look]
      simp [run_pure]

/-- Asking whether a file opens changes nothing either. -/
theorem opensForWriting_run : (opensForWriting host path : FileProgram Error _) files =
    .ok (decide (Opens host files path), files) := by
  rw [opensForWriting, run_bind hasParent_run, run_look]
  have hsame : (decide (∀ directory, parent path = some directory →
      files directory = some .directory) && host.writable path &&
        decide (files path ≠ some .directory)) = decide (Opens host files path) := by
    rw [Bool.eq_iff_iff, Bool.and_eq_true, Bool.and_eq_true, decide_eq_true_iff,
      decide_eq_true_iff, decide_eq_true_iff, and_assoc]
    exact Iff.rfl
  rw [← hsame]
  rfl

/-- A write puts its text in place, if the file opens. -/
theorem writeFile_run (contents : List UInt8) :
    (writeFile host path contents : FileProgram Error _) files =
      .ok (decide (Opens host files path),
        if Opens host files path then Function.update files path (some (.file contents))
        else files) := by
  rw [writeFile, run_bind (opensForWriting_run host)]
  by_cases hopens : Opens host files path <;> simp only [hopens, decide_true, decide_false] <;> rfl

/-- A directory is made where nothing was and one may be. -/
theorem createDirectory_run :
    (createDirectory host path : FileProgram Error _) files =
      .ok (decide (Creates host files path),
        if files path = none ∧ Creates host files path then
          Function.update files path (some .directory)
        else files) := by
  rw [createDirectory, run_look]
  by_cases hentry : files path = none
  · have hcreates : Creates host files path ↔ (∀ directory, parent path = some directory →
        files directory = some .directory) ∧ host.creatable path = true := by
      simp [Creates, hentry]
    simp only [hentry, ne_eq, not_true_eq_false, if_false]
    rw [run_bind hasParent_run]
    by_cases hboth : Creates host files path
    · have hgo := hcreates.mp hboth
      simp only [hboth, decide_true, true_and, if_true, decide_eq_true hgo.1, hgo.2,
        Bool.and_self]
      rfl
    · have hstop : (decide (∀ directory, parent path = some directory →
          files directory = some .directory) && host.creatable path) = false := by
        rw [← Bool.not_eq_true, Bool.and_eq_true, decide_eq_true_iff]
        exact mt hcreates.mpr hboth
      simp only [hboth, decide_false, and_false, if_false, hstop]
      rfl
  · have hcreates : Creates host files path := Or.inl hentry
    simp only [hentry, hcreates, ne_eq, not_false_eq_true, if_true, false_and, if_false,
      decide_true]
    rfl

end Runs

/-! ## What the calls touch -/

open Footprints

variable {reads writes : Set Path} {path : Path}

/-- A read looks at its path only. -/
theorem readFile_within (hpath : path ∈ reads) :
    Within reads writes (readFile host path : FileProgram Error _) :=
  (within_look hpath).bind fun _ => within_pure _

theorem hasParent_within (hparent : ∀ directory, parent path = some directory → directory ∈ reads) :
    Within reads writes (hasParent path : FileProgram Error _) := by
  rw [hasParent]
  cases hdirectory : parent path with
  | none => exact within_pure _
  | some directory => exact (within_look (hparent directory hdirectory)).bind fun _ => within_pure _

/-- A call that writes at the path looks at and changes no other places. -/
structure Covers (reads writes : Set Path) (path : Path) : Prop where
  looked : path ∈ reads
  holder : ∀ directory, parent path = some directory → directory ∈ reads
  written : path ∈ writes

variable (hcovers : Covers reads writes path)

include hcovers

theorem opensForWriting_within :
    Within reads writes (opensForWriting host path : FileProgram Error _) :=
  (hasParent_within hcovers.holder).bind fun _ =>
    (within_look hcovers.looked).bind fun _ => within_pure _

/-- A write changes its path only. -/
theorem writeFile_within (contents : List UInt8) :
    Within reads writes (writeFile host path contents : FileProgram Error _) := by
  refine (opensForWriting_within host hcovers).bind fun opens => ?_
  cases opens with
  | true => exact (within_put hcovers.written _).bind fun _ => within_pure _
  | false => exact within_pure _

theorem createDirectory_within :
    Within reads writes (createDirectory host path : FileProgram Error _) := by
  refine (within_look hcovers.looked).bind fun entry => ?_
  split
  · exact within_pure _
  · refine (hasParent_within hcovers.holder).bind fun there => ?_
    split
    · exact (within_put hcovers.written _).bind fun _ => within_pure _
    · exact within_pure _

end Calls

end Assembler
