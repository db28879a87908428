import CLab.ReadBack

/-!
# Runs that are repeated

A run leaves nothing that the next one on the same arguments would take for
something else: the sources are not written to, a directory is made once, and a
file is written with the same text again (`main_again`).
-/

namespace Assembler

open Footprints

/-! ## The places of the files -/

/-- What holds a path is shorter than the path. -/
theorem parent_shorter {path directory : Path} (h : parent path = some directory) :
    directory.length < path.length := by
  obtain ⟨i, hplace, rfl⟩ := Option.map_eq_some_iff.mp h
  obtain ⟨front, back, rfl, -, hlength⟩ := strrchr_eq_some_iff.mp hplace
  simp [← hlength]

/-- A directory is not one of its members. -/
theorem parent_ne {path directory : Path} (h : parent path = some directory) :
    directory ≠ path := by
  intro hsame
  have hshorter := parent_shorter h
  rw [hsame] at hshorter
  omega

/-- An extension does not change what holds a path. -/
theorem parent_extension (path : Path) {extension : List UInt8}
    (hslash : '/'.toUInt8 ∉ extension) : parent (path ++ extension) = parent path := by
  rw [parent, parent, strrchr_append, strrchr_eq_none_iff.mpr hslash]
  cases hplace : strrchr '/'.toUInt8 path with
  | none => rfl
  | some i =>
      obtain ⟨front, back, rfl, -, hlength⟩ := strrchr_eq_some_iff.mp hplace
      refine congrArg some (List.take_append_of_le_length ?_)
      simp [← hlength]

/-- The directory is no output file. -/
theorem outputDir_ne_outputFile (arg : Path) (extension : List UInt8) :
    outputDir arg ≠ outputFile arg ++ extension := by
  intro hsame
  have hlength := congrArg List.length hsame
  have hone : (bytes "/").length = 1 := by decide
  rw [outputFile_eq] at hlength
  simp only [List.length_append] at hlength
  omega

/-- An extension has no slash. -/
theorem slash_not_mem_extension {extension : List UInt8}
    (hextension : extension ∈ outputExtensions) : '/'.toUInt8 ∉ extension := by
  simp only [outputExtensions, List.mem_cons, List.not_mem_nil, or_false] at hextension
  rcases hextension with rfl | rfl | rfl <;> decide

/-- What a call that writes at one of the paths looks at. -/
def placesOf (paths : List Path) : Set Path :=
  {place | place ∈ paths ∨ ∃ path ∈ paths, parent path = some place}

/-- A program whose calls are for these paths. -/
def WorksAt (paths : List Path) {α : Type} (p : Driver α) : Prop :=
  Footprints.Within (placesOf paths) {place | place ∈ paths} p

/-- Working at some places is kept by every step. -/
theorem worksAt_parts (paths : List Path) :
    Composes fun {α : Type} (p : Driver α) => WorksAt paths p :=
  composes_within _ _

/-- A place is looked at with what holds it. -/
theorem covers_places {paths : List Path} {path : Path} (h : path ∈ paths) :
    Covers (placesOf paths) {place | place ∈ paths} path where
  looked := Or.inl h
  holder := fun _ hparent => Or.inr ⟨path, h, hparent⟩
  written := h

/-- A program behind one whose places it does not write to. -/
theorem settles_behindAt {α β : Type} {paths paths' : List Path} {files : FileSystem}
    {p : Driver α} {f : α → Driver β} (h : Settles p files) (hp : WorksAt paths p)
    (hf : ∀ a, WorksAt paths' (f a)) (hclear : ∀ path ∈ paths', path ∉ placesOf paths)
    (hsettles : ∀ a files', p files = .ok (a, files') → Settles (f a) files') :
    Settles (p >>= f) files := by
  refine Settles.behind h hp hf (fun path hpath => ?_) hsettles
  exact ⟨hclear path hpath, fun hmem => hclear path hpath (Or.inl hmem)⟩

/-- The output files with these extensions. -/
def outputsOf (arg : Path) (extensions : List (List UInt8)) : List Path :=
  extensions.map (outputFile arg ++ ·)

/-- The places of an output file are not those of the other ones. -/
theorem outputsOf_clear (arg : Path) {extension : List UInt8} {extensions : List (List UInt8)}
    (hextension : extension ∈ outputExtensions) (hother : extension ∉ extensions) :
    ∀ path ∈ outputsOf arg extensions, path ∉ placesOf (outputsOf arg [extension]) := by
  intro path hpath hplace
  obtain ⟨extension', hmem, rfl⟩ := List.mem_map.mp hpath
  rcases hplace with hplace | hplace
  · have hsame := List.append_cancel_left (List.mem_singleton.mp hplace)
    exact hother (hsame ▸ hmem)
  · obtain ⟨path, hpath, hparent⟩ := hplace
    rw [List.mem_singleton.mp hpath,
      parent_outputFile arg (slash_not_mem_extension hextension)] at hparent
    exact outputDir_ne_outputFile arg extension' (Option.some.inj hparent)

/-! ## The calls -/

section Calls

variable (host : Host) (files : FileSystem)

/-- A file that could be opened can be opened after a write. -/
theorem opens_update {path : Path} (hopens : Opens host files path) (contents : List UInt8) :
    Opens host (Function.update files path (some (.file contents))) path := by
  obtain ⟨hparent, hwritable, -⟩ := hopens
  refine ⟨fun directory hdirectory => ?_, hwritable, ?_⟩
  · rw [Function.update_of_ne (parent_ne hdirectory)]
    exact hparent directory hdirectory
  · rw [Function.update_self]
    simp

/-- A file that was written is written with the same text again. -/
theorem settles_writeFile (path : Path) (contents : List UInt8) :
    Settles (writeFile host path contents : Driver Bool) files := by
  intro written files' hrun
  rw [writeFile_run] at hrun
  obtain ⟨rfl, rfl⟩ := Prod.mk.inj (Except.ok.inj hrun)
  rw [writeFile_run]
  by_cases hopens : Opens host files path
  · have hagain := opens_update host files hopens contents
    rw [if_pos hopens, decide_eq_true hopens, if_pos hagain, decide_eq_true hagain,
      Function.update_idem]
  · rw [if_neg hopens, if_neg hopens]

/-- A directory that was made is found. -/
theorem settles_createDirectory (path : Path) :
    Settles (createDirectory host path : Driver Bool) files := by
  intro created files' hrun
  rw [createDirectory_run] at hrun
  obtain ⟨rfl, rfl⟩ := Prod.mk.inj (Except.ok.inj hrun)
  rw [createDirectory_run]
  by_cases hmake : files path = none ∧ Creates host files path
  · have hentry : Function.update files path (some Entry.directory) path ≠ none := by
      rw [Function.update_self]
      exact Option.some_ne_none _
    have hagain : Creates host (Function.update files path (some Entry.directory)) path :=
      Or.inl hentry
    have hfound : ¬ (Function.update files path (some Entry.directory) path = none ∧
        Creates host (Function.update files path (some Entry.directory)) path) :=
      fun hnone => hentry hnone.1
    rw [if_pos hmake, if_neg hfound, decide_eq_true hagain, decide_eq_true hmake.2]
  · rw [if_neg hmake, if_neg hmake]

/-- A write keeps the directories. -/
theorem keeps_writeFile (directory path : Path) (contents : List UInt8) :
    Keeps (fun files : FileSystem => files directory = some .directory)
      (writeFile host path contents : Driver Bool) := by
  intro files written files' hdirectory hrun
  rw [writeFile_run] at hrun
  obtain ⟨-, rfl⟩ := Prod.mk.inj (Except.ok.inj hrun)
  split_ifs with hopens
  · have hne : directory ≠ path := fun hsame => hopens.2.2 (hsame ▸ hdirectory)
    rw [Function.update_of_ne hne]
    exact hdirectory
  · exact hdirectory

theorem keeps_createDirectory (directory path : Path) :
    Keeps (fun files : FileSystem => files directory = some .directory)
      (createDirectory host path : Driver Bool) := by
  intro files created files' hdirectory hrun
  rw [createDirectory_run] at hrun
  obtain ⟨-, rfl⟩ := Prod.mk.inj (Except.ok.inj hrun)
  split_ifs with hmake
  · by_cases hsame : directory = path
    · rw [hsame, Function.update_self]
    · rw [Function.update_of_ne hsame]
      exact hdirectory
  · exact hdirectory

/-- Whether the file can be written does not depend on whether it was. -/
theorem keeps_opens (path : Path) (contents : List UInt8) (answer : Prop) :
    Keeps (fun files : FileSystem => Opens host files path ↔ answer)
      (writeFile host path contents : Driver Bool) := by
  intro files written files' hanswer hrun
  rw [writeFile_run] at hrun
  obtain ⟨-, rfl⟩ := Prod.mk.inj (Except.ok.inj hrun)
  split_ifs with hopens
  · exact iff_of_true (opens_update host files hopens contents) (hanswer.mp hopens)
  · exact hanswer

/-- Asking changes nothing. -/
theorem keeps_opensForWriting (holds : FileSystem → Prop) (path : Path) :
    Keeps holds (opensForWriting host path : Driver Bool) := by
  intro files opens files' hfiles hrun
  rw [opensForWriting_run] at hrun
  obtain ⟨-, rfl⟩ := Prod.mk.inj (Except.ok.inj hrun)
  exact hfiles

/-- What every call keeps a run keeps. -/
theorem keeps_parts (holds : FileSystem → Prop) :
    Composes fun {α : Type} (p : Driver α) => Keeps holds p :=
  composes_keeps holds

/-- A stage settles with what comes behind it. -/
theorem settles_ofStage_bind {α β : Type} (x : Except Fault α) {f : α → Driver β}
    (h : ∀ a, Settles (f a) files) : Settles (ofStage x >>= f) files := by
  cases x with
  | ok a => exact h a
  | error fault => exact settles_throw _ files

/-- Whether a string fits does not depend on the files. -/
theorem settles_storeString_bind {β : Type} (text : CString) {f : Unit → Driver β}
    (h : Settles (f ()) files) : Settles (storeString text >>= f) files := by
  unfold storeString
  split
  · exact h
  · exact settles_throw _ files

theorem settles_sprintfBuffer_bind {β : Type} (text : List UInt8) {f : List UInt8 → Driver β}
    (h : Settles (f text) files) : Settles (sprintfBuffer text >>= f) files := by
  unfold sprintfBuffer
  split
  · exact h
  · exact settles_throw _ files

end Calls

/-! ## The stages -/

section Stages

variable (host : Host) (arg : Path) (files : FileSystem)

/-- An output settles. -/
theorem settles_writeOutput (filePath extension contents ending : List UInt8) :
    Settles (writeOutput host filePath extension contents ending) files :=
  (settles_writeFile host files _ contents).map _

theorem settles_writeSymbols (filePath extension : List UInt8) (file : CString)
    (ending : List UInt8) :
    Settles (writeSymbols host filePath extension file ending) files := by
  unfold writeSymbols
  split
  · exact settles_writeOutput host files _ _ _ _
  · exact settles_pure _ files

/-- A write works at its place. -/
theorem writeFile_worksAt {paths : List Path} {path : Path} (h : path ∈ paths)
    (contents : List UInt8) : WorksAt paths (writeFile host path contents) :=
  writeFile_within host (covers_places h) contents

/-- The three files are written one after the other, each clear of the others. -/
theorem settles_writeOutputs (result : ObjectGenerated) :
    Settles (writeOutputs host (outputFile arg) result) files := by
  have hparts := fun extensions => worksAt_parts (outputsOf arg extensions)
  have hwrite : ∀ {extension : List UInt8} {extensions : List (List UInt8)},
      extension ∈ extensions → ∀ contents, WorksAt (outputsOf arg extensions)
        (writeFile host (outputFile arg ++ extension) contents) :=
    fun hmem => writeFile_worksAt host (List.mem_map_of_mem hmem)
  unfold writeOutputs
  split
  · exact settles_pure _ files
  · apply settles_behindAt (settles_writeSymbols host files _ _ _ _)
      (writeSymbols_composes (hparts [bytes ".ext"]) host (hwrite (by simp)) _ _)
    · intro external
      apply (hparts [bytes ".ent", bytes ".ob"]).behind
        (writeSymbols_composes (hparts _) host (hwrite (by simp)) _ _)
      intro entry
      exact (hparts _).behind (writeOutput_composes (hparts _) host (hwrite (by simp)) _ _)
        fun object => within_pure _
    · exact outputsOf_clear arg (by decide) (by decide)
    · intro external made hexternal
      apply settles_behindAt (settles_writeSymbols host made _ _ _ _)
        (writeSymbols_composes (hparts [bytes ".ent"]) host (hwrite (by simp)) _ _)
      · intro entry
        exact (hparts [bytes ".ob"]).behind
          (writeOutput_composes (hparts _) host (hwrite (by simp)) _ _) fun object => within_pure _
      · exact outputsOf_clear arg (by decide) (by decide)
      · intro entry made' hentry
        exact (settles_writeOutput host made' _ _ _ _).map _

/-- Writing the three files settles. -/
theorem settles_generateFiles (lexer : Lexer) (unit : TranslationUnit)
    (analyzer : SemanticAnalyzer) :
    Settles (generateFiles host arg lexer unit analyzer) files := by
  apply settles_ofStage_bind
  intro updated
  apply settles_ofStage_bind
  intro entries
  apply settles_storeString_bind
  apply settles_sprintfBuffer_bind
  apply settles_sprintfBuffer_bind
  refine Settles.map ?_ _
  apply settles_ofStage_bind
  intro result
  apply settles_storeString_bind
  apply settles_storeString_bind
  exact (settles_writeOutputs host arg files result).map _

/-- The directory is made before the files, and none of them is in its place. -/
theorem settles_generateCode (lexer : Lexer) (unit : TranslationUnit)
    (analyzer : SemanticAnalyzer) :
    Settles (generateCode host arg lexer unit analyzer) files := by
  apply settles_sprintfBuffer_bind
  have hdirectory : WorksAt [outputDir arg] (createDirectory host (outputDir arg)) :=
    createDirectory_within host (covers_places (List.mem_singleton_self _))
  apply settles_behindAt (settles_createDirectory host files (outputDir arg)) hdirectory
  · intro created
    split
    · have hfiles : WorksAt (outputsOf arg outputExtensions)
          (generateFiles host arg lexer unit analyzer) :=
        generateFiles_composes (worksAt_parts _) host
          (fun _ hmem => writeFile_worksAt host (List.mem_map_of_mem hmem)) _ _ _
      exact (worksAt_parts _).behind hfiles fun text => within_pure _
    · exact within_pure _
  · intro path hpath hplace
    obtain ⟨extension, hmem, rfl⟩ := List.mem_map.mp hpath
    rcases hplace with hplace | hplace
    · exact outputDir_ne_outputFile arg extension (List.mem_singleton.mp hplace).symm
    · obtain ⟨path, hpath, hparent⟩ := hplace
      rw [List.mem_singleton.mp hpath, parent_outputDir] at hparent
      cases hparent
  · intro created made hcreated
    split
    · exact (settles_generateFiles host arg made lexer unit analyzer).map _
    · exact settles_pure _ made

/-- What comes behind the analyzer settles. -/
theorem settles_finishSource (analyzed : Analyzed) :
    Settles (finishSource host arg analyzed) files := by
  unfold finishSource
  split
  · exact settles_pure _ files
  · exact (settles_generateCode host arg files _ _ _).map _

/-- The expanded source settles. -/
theorem settles_writeProcessed (text : Option (List UInt8)) :
    Settles (writeProcessed host arg text) files := by
  cases text with
  | none => exact settles_pure _ files
  | some text => exact settles_writeFile host files _ text

/-- The file is opened for writing again, with the same answer. -/
theorem settles_preprocessSource (lexer : Lexer) :
    Settles (preprocessSource host arg lexer) files := by
  apply Settles.bind
  intro opens files' hopens
  have hfirst := hopens
  rw [opensForWriting_run] at hopens
  obtain ⟨rfl, rfl⟩ := Prod.mk.inj (Except.ok.inj hopens)
  refine ⟨?_, fun analyzed last hrest => ?_⟩
  · apply settles_ofStage_bind
    intro processed
    apply settles_storeString_bind
    have hwritten : WorksAt [arg ++ bytes ".am"] (writeProcessed host arg processed.2) :=
      writeProcessed_composes (worksAt_parts _) host
        (writeFile_worksAt host (List.mem_singleton_self _)) _
    -- nothing behind the file touches a place
    apply settles_behindAt (settles_writeProcessed host arg files processed.2) hwritten
    · intro written
      dsimp only
      split
      · exact (worksAt_parts []).returns _
      · exact (worksAt_parts []).behind (ofStage_composes (worksAt_parts _) _)
          fun analyzed => (worksAt_parts []).returns _
    · intro path hpath
      cases hpath
    · intro written made hmade
      dsimp only
      split
      · exact settles_pure _ made
      · apply settles_ofStage_bind
        intro analyzed
        exact settles_pure _ made
  · have hkeeps := preprocessSource_composes
      (keeps_parts fun last => Opens host last (arg ++ bytes ".am") ↔
        Opens host files (arg ++ bytes ".am")) host
      (fun contents => keeps_opens host _ contents _) (keeps_opensForWriting host _ _) lexer
    have hrun : preprocessSource host arg lexer files = .ok (analyzed, last) := by
      rw [preprocessSource, run_bind hfirst]
      exact hrest
    rw [opensForWriting_run, decide_eq_decide.mpr (hkeeps files analyzed last Iff.rfl hrun)]

/-- Everything up to the analyzer settles. -/
theorem settles_compileSource (contents : List UInt8) :
    Settles (compileSource host arg contents) files := by
  unfold compileSource
  dsimp only
  apply settles_storeString_bind
  split
  · exact settles_pure _ files
  · exact (settles_preprocessSource host arg files _).map _

end Stages

/-! ## Whole runs -/

section Work

variable (host : Host) {arg : Path} {files : FileSystem}

/-- A program whose calls are for the places of an argument never turns a
directory into something else. -/
theorem keeps_compileSource (directory : Path) (contents : List UInt8) :
    Keeps (fun files : FileSystem => files directory = some .directory)
      (compileSource host arg contents) :=
  compileSource_composes (keeps_parts _) host (keeps_writeFile host directory _)
    (keeps_opensForWriting host _ _) contents

/-- What comes behind the analyzer keeps the directories. -/
theorem keeps_finishSource (directory : Path) (analyzed : Analyzed) :
    Keeps (fun files : FileSystem => files directory = some .directory)
      (finishSource host arg analyzed) :=
  finishSource_composes (keeps_parts _) host (fun _ _ => keeps_writeFile host directory _)
    (keeps_createDirectory host directory _) analyzed

/-- The `.am` file is not written to behind the analyzer. -/
theorem finishSource_frame {analyzed : Analyzed} {worked : Worked} {files' : FileSystem}
    (hrun : finishSource host arg analyzed files = .ok (worked, files')) :
    files' (arg ++ bytes ".am") = files (arg ++ bytes ".am") := by
  have hplaces : WorksAt (outputDir arg :: outputsOf arg outputExtensions)
      (finishSource host arg analyzed) :=
    finishSource_composes (worksAt_parts _) host
      (fun _ hmem => writeFile_worksAt host (List.mem_cons_of_mem _ (List.mem_map_of_mem hmem)))
      (createDirectory_within host (covers_places List.mem_cons_self)) analyzed
  apply Footprints.Within.frame hplaces hrun
  intro hmem
  rcases List.mem_cons.mp hmem with hsame | hmem
  · exact outputDir_ne_source arg (by decide) hsame.symm
  · obtain ⟨extension, hextension, hsame⟩ := List.mem_map.mp hmem
    exact outputFile_ne_source arg hextension (by decide) hsame

/-- The stages up to the analyzer are not told apart by what is written behind
them, if the source is in a directory. -/
theorem settles_workOn
    (hheld : ∀ directory, parent arg = some directory → files directory = some .directory)
    (contents : List UInt8) : Settles (workOn host arg (some contents)) files := by
  apply Settles.bind
  intro analyzed files' hcompile
  refine ⟨settles_finishSource host arg files' analyzed, fun worked last hfinish => ?_⟩
  have hplaces : WorksAt [arg ++ bytes ".am"] (compileSource host arg contents) :=
    compileSource_composes (worksAt_parts _) host
      (writeFile_worksAt host (List.mem_singleton_self _))
      (opensForWriting_within host (covers_places (List.mem_singleton_self _))) contents
  have hfile := finishSource_frame host hfinish
  have hdirectory : ∀ directory, parent (arg ++ bytes ".am") = some directory →
      last directory = files' directory := by
    intro directory hparent
    rw [parent_extension arg (by decide)] at hparent
    have hthere := keeps_compileSource host directory contents files analyzed files'
      (hheld directory hparent) hcompile
    rw [hthere, keeps_finishSource host directory analyzed files' worked last hthere hfinish]
  have hsame := settles_compileSource host arg files contents analyzed files' hcompile
  apply Footprints.Within.again hplaces hsame
  intro path hpath
  rcases hpath with (hpath | hpath) | hpath
  · rw [List.mem_singleton.mp hpath, hfile]
  · obtain ⟨path', hmem, hparent⟩ := hpath
    rw [List.mem_singleton.mp hmem] at hparent
    exact hdirectory path hparent
  · rw [List.mem_singleton.mp hpath, hfile]

/-- The source is never written. -/
theorem source_not_written (arg : Path) : arg ++ bytes ".as" ∉ written arg := by
  intro hmem
  simp only [written, writtenPaths, Set.mem_ofPred_eq, List.mem_cons, List.not_mem_nil,
    or_false] at hmem
  rcases hmem with hsame | hsame | hsame | hsame | hsame
  · exact absurd (List.append_cancel_left hsame) (by decide)
  · exact outputDir_ne_source arg (by decide) hsame.symm
  · exact outputFile_ne_source arg (by decide) (by decide) hsame.symm
  · exact outputFile_ne_source arg (by decide) (by decide) hsame.symm
  · exact outputFile_ne_source arg (by decide) (by decide) hsame.symm

/-- What is there is in a directory. -/
def Rooted (files : FileSystem) : Prop :=
  ∀ path, files path ≠ none → ∀ directory, parent path = some directory →
    files directory = some .directory

/-- **The work on an argument settles**: done again it does the same. -/
theorem settles_processFile (hrooted : Rooted files) : Settles (processFile host arg) files := by
  have hread : Footprints.Within {path | path = arg ++ bytes ".as"} ∅
      (readFile host (arg ++ bytes ".as") : Driver _) := readFile_within host rfl
  have hsettles : Settles (readFile host (arg ++ bytes ".as") : Driver _) files := by
    intro source files' hrun
    obtain ⟨rfl, rfl⟩ := Prod.mk.inj (Except.ok.inj hrun)
    rfl
  apply hsettles.behind hread
  · intro source
    exact (workOn_within host source).bind fun worked => within_pure _
  · intro path hpath
    refine ⟨fun hsource => ?_, id⟩
    exact source_not_written arg (hsource ▸ hpath)
  · intro source files' hrun
    obtain ⟨hsource, rfl⟩ := Prod.mk.inj (Except.ok.inj hrun)
    cases source with
    | none => exact (settles_pure _ files).map _
    | some contents =>
        have hthere : files (arg ++ bytes ".as") ≠ none := by
          intro hnone
          rw [hnone] at hsource
          cases hsource
        refine (settles_workOn host (fun directory hparent => ?_) contents).map _
        apply hrooted _ hthere
        rw [parent_extension arg (by decide)]
        exact hparent

/-- **A run can be repeated.**  Where no argument writes what another one touches,
`main` prints the same again from the files that it has left, and leaves them as
they are. -/
theorem main_again {program : Path} {args : List Path} (hapart : args.Pairwise KeptApart)
    (hrooted : Rooted files) {result : List UInt8 × Nat} {files' : FileSystem}
    (hrun : main host program args files = .ok (result, files')) :
    main host program args files' = .ok (result, files') := by
  have hsettles : Settles (runAll (processFile host) args) files :=
    settles_runAll (fun arg _ => processFile_within host arg) (hapart.imp fun h => h.apart)
      fun arg _ => settles_processFile host hrooted
  cases args with
  | nil => exact settles_pure _ files result files' hrun
  | cons arg rest => exact hsettles.map _ result files' hrun

end Work

/-- Two sources that are assembled twice. -/
theorem main_again_sample : ∃ result files',
    main sampleHost (bytes "assembler") [bytes "a", bytes "b"] sampleFiles =
        .ok (result, files') ∧
      main sampleHost (bytes "assembler") [bytes "a", bytes "b"] files' =
        .ok (result, files') := by
  have hreturns : (main sampleHost (bytes "assembler") [bytes "a", bytes "b"]
      sampleFiles).toOption.isSome = true := by decide +kernel
  have hrooted : Rooted sampleFiles := by
    intro path hpath directory hparent
    have hnone : parent path = none := by
      rw [sampleFiles] at hpath
      split at hpath
      · rename_i hname
        rcases hname with rfl | rfl <;> decide
      · exact absurd rfl hpath
    rw [hnone] at hparent
    cases hparent
  cases hrun : main sampleHost (bytes "assembler") [bytes "a", bytes "b"] sampleFiles with
  | error fault =>
      rw [hrun] at hreturns
      cases hreturns
  | ok ended =>
      exact ⟨ended.1, ended.2, rfl, main_again sampleHost (by decide +kernel) hrooted hrun⟩

end Assembler
