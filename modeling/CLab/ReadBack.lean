import CLab.LinkedFiles

/-!
# The files that a run leaves

An argument on which the assembler has not run before has none of its files in the
way, so what a reader finds in the three files that a run makes for it is its program,
as far as the words have it (`processFile_readBack`), and two runs leave the same
files exactly if that is the same (`processFile_sameFiles_iff`).  A file that would be
empty is not made, and one that is not there reads like an empty one.
-/

namespace Assembler

/-! ## The three files -/

/-- A file that is not there reads like an empty one. -/
def textAt (files : FileSystem) (path : Path) : List UInt8 :=
  match files path with
  | some (.file contents) => contents
  | some .directory | none => []

/-- The program in the three files. -/
def readBack (files : FileSystem) (filePath : Path) : Option LinkedProgram :=
  readProgram (textAt files (filePath ++ bytes ".ob")) (textAt files (filePath ++ bytes ".ext"))
    (textAt files (filePath ++ bytes ".ent"))

/-- The files of an argument are in its directory. -/
theorem parent_outputFile (arg : Path) {extension : List UInt8}
    (hslash : '/'.toUInt8 ∉ extension) :
    parent (outputFile arg ++ extension) = some (outputDir arg) := by
  have hplace : strrchr '/'.toUInt8 (outputFile arg ++ extension) =
      some (outputDir arg).length := by
    apply strrchr_eq_some_iff.mpr
    refine ⟨outputDir arg, cutAtDot (baseName arg) ++ bytes ".ob" ++ extension, ?_, ?_, rfl⟩
    · rw [outputFile_eq, bytes]
      simp
    · simp only [List.mem_append, not_or]
      exact ⟨⟨fun hmem => baseName_no_slash arg (cutAtDot_subset _ hmem), by decide⟩, hslash⟩
  rw [parent, hplace, Option.map_some, outputFile_eq]
  simp

section Outputs

variable {host : Host} {files : FileSystem} {path : Path}

/-- A file that was written has its text. -/
theorem textAt_withFile (hopens : Opens host files path) (contents : List UInt8) :
    textAt (withFile host files path contents) path = contents := by
  rw [textAt, withFile, if_pos hopens, Function.update_self]

/-- A list of symbols leaves all other places. -/
theorem withSymbols_of_ne {path' : Path} (h : path' ≠ path) (contents : List UInt8) :
    withSymbols host files path contents path' = files path' := by
  rw [withSymbols]
  split_ifs
  · exact withFile_of_ne host h contents
  · rfl

/-- A file that is left out reads as it would have been written. -/
theorem textAt_withSymbols (hopens : Opens host files path) (hfresh : files path = none)
    (contents : List UInt8) : textAt (withSymbols host files path contents) path = contents := by
  rw [withSymbols]
  split_ifs with hempty
  · exact textAt_withFile hopens contents
  · rw [not_not] at hempty
    rw [textAt, hfresh, hempty]

end Outputs

section Fresh

variable {host : Host} {arg : Path} {made : FileSystem}

/-- In a directory that was made an output file can be opened. -/
theorem opens_outputFile {extension : List UInt8} (hextension : extension ∈ outputExtensions)
    (hwritable : host.writable (outputFile arg ++ extension) = true)
    (hdirectory : made (outputDir arg) = some .directory)
    (hnone : made (outputFile arg ++ extension) = none) :
    Opens host made (outputFile arg ++ extension) := by
  have hslash : '/'.toUInt8 ∉ extension := by
    simp only [outputExtensions, List.mem_cons, List.not_mem_nil, or_false] at hextension
    rcases hextension with rfl | rfl | rfl <;> decide
  refine ⟨fun directory hparent => ?_, hwritable, ?_⟩
  · rw [parent_outputFile arg hslash] at hparent
    rw [← Option.some.inj hparent, hdirectory]
  · rw [hnone]
    exact (Option.some_ne_none _).symm

/-- The three texts in a directory without them. -/
theorem textAt_withOutputs
    (hwritable : ∀ extension ∈ outputExtensions,
      host.writable (outputFile arg ++ extension) = true)
    (hdirectory : made (outputDir arg) = some .directory)
    (hnone : ∀ extension ∈ outputExtensions, made (outputFile arg ++ extension) = none)
    (external entry object : List UInt8) :
    textAt (withOutputs host made (outputFile arg) external entry object)
        (outputFile arg ++ bytes ".ob") = object ∧
      textAt (withOutputs host made (outputFile arg) external entry object)
        (outputFile arg ++ bytes ".ext") = external ∧
      textAt (withOutputs host made (outputFile arg) external entry object)
        (outputFile arg ++ bytes ".ent") = entry := by
  have hdistinct : ∀ {extension extension' : List UInt8}, extension ≠ extension' →
      outputFile arg ++ extension ≠ outputFile arg ++ extension' :=
    fun hne hequal => hne (List.append_cancel_left hequal)
  have houtside : ∀ extension ∈ outputExtensions,
      outputDir arg ≠ outputFile arg ++ extension := by
    intro extension hextension hequal
    rw [hequal, hnone extension hextension] at hdirectory
    cases hdirectory
  have hopens : ∀ extension ∈ outputExtensions, ∀ files', files' (outputDir arg) =
      some .directory → files' (outputFile arg ++ extension) = none →
        Opens host files' (outputFile arg ++ extension) :=
    fun extension hmem files' => opens_outputFile hmem (hwritable extension hmem)
  have hext : bytes ".ext" ∈ outputExtensions := by decide
  have hent : bytes ".ent" ∈ outputExtensions := by decide
  have hob : bytes ".ob" ∈ outputExtensions := by decide
  have hext_ent : bytes ".ext" ≠ bytes ".ent" := by decide
  have hext_ob : bytes ".ext" ≠ bytes ".ob" := by decide
  have hent_ob : bytes ".ent" ≠ bytes ".ob" := by decide
  rw [withOutputs]
  generalize hfirst : withSymbols host made (outputFile arg ++ bytes ".ext") external = first
  generalize hsecond : withSymbols host first (outputFile arg ++ bytes ".ent") entry = second
  have hfirstKeeps : ∀ path, path ≠ outputFile arg ++ bytes ".ext" → first path = made path := by
    intro path hne
    rw [← hfirst, withSymbols_of_ne hne]
  have hsecondKeeps : ∀ path, path ≠ outputFile arg ++ bytes ".ent" →
      second path = first path := by
    intro path hne
    rw [← hsecond, withSymbols_of_ne hne]
  have hexternal : textAt first (outputFile arg ++ bytes ".ext") = external := by
    rw [← hfirst]
    exact textAt_withSymbols (hopens _ hext _ hdirectory (hnone _ hext)) (hnone _ hext) external
  have hentry : textAt second (outputFile arg ++ bytes ".ent") = entry := by
    have hfree : first (outputFile arg ++ bytes ".ent") = none :=
      (hfirstKeeps _ (hdistinct hext_ent.symm)).trans (hnone _ hent)
    have hthere : first (outputDir arg) = some .directory :=
      (hfirstKeeps _ (houtside _ hext)).trans hdirectory
    rw [← hsecond]
    exact textAt_withSymbols (hopens _ hent _ hthere hfree) hfree entry
  have hobject : textAt (withFile host second (outputFile arg ++ bytes ".ob") object)
      (outputFile arg ++ bytes ".ob") = object := by
    have hfree : second (outputFile arg ++ bytes ".ob") = none :=
      ((hsecondKeeps _ (hdistinct hent_ob.symm)).trans
        (hfirstKeeps _ (hdistinct hext_ob.symm))).trans (hnone _ hob)
    have hthere : second (outputDir arg) = some .directory :=
      ((hsecondKeeps _ (houtside _ hent)).trans (hfirstKeeps _ (houtside _ hext))).trans hdirectory
    exact textAt_withFile (hopens _ hob _ hthere hfree) object
  have hkeepsExternal : textAt (withFile host second (outputFile arg ++ bytes ".ob") object)
      (outputFile arg ++ bytes ".ext") = external := by
    rw [textAt, withFile_of_ne host (hdistinct hext_ob), hsecondKeeps _ (hdistinct hext_ent)]
    exact hexternal
  have hkeepsEntry : textAt (withFile host second (outputFile arg ++ bytes ".ob") object)
      (outputFile arg ++ bytes ".ent") = entry := by
    rw [textAt, withFile_of_ne host (hdistinct hent_ob)]
    exact hentry
  exact ⟨hobject, hkeepsExternal, hkeepsEntry⟩

end Fresh

/-- No run has made the directory of an argument or a file in it before, and both
can be made. -/
structure FreshOutputs (host : Host) (arg : Path) (files : FileSystem) : Prop where
  directory : files (outputDir arg) = none
  creatable : host.creatable (outputDir arg) = true
  unwritten : ∀ extension ∈ outputExtensions, files (outputFile arg ++ extension) = none
  writable : ∀ extension ∈ outputExtensions, host.writable (outputFile arg ++ extension) = true

/-- The output files are neither the source nor the `.am` file. -/
theorem outputFile_ne_source (arg : Path) {extension extension' : List UInt8}
    (hextension : extension ∈ outputExtensions) (hextension' : extension' ∈ sourceExtensions) :
    outputFile arg ++ extension ≠ arg ++ extension' := by
  intro hsame
  obtain ⟨ch, hch, hends⟩ : ∃ ch, extension.getLast? = some ch ∧
      ch ∈ [ 't'.toUInt8, 'b'.toUInt8] := by
    simp only [outputExtensions, List.mem_cons, List.not_mem_nil, or_false] at hextension
    rcases hextension with rfl | rfl | rfl <;> exact ⟨_, rfl, by decide⟩
  obtain ⟨ch', hch', hends'⟩ : ∃ ch', extension'.getLast? = some ch' ∧
      ch' ∉ [ 't'.toUInt8, 'b'.toUInt8] := by
    simp only [sourceExtensions, List.mem_cons, List.not_mem_nil, or_false] at hextension'
    rcases hextension' with rfl | rfl <;> exact ⟨_, rfl, by decide⟩
  have hlast := congrArg List.getLast? hsame
  rw [List.getLast?_append, List.getLast?_append, hch, hch'] at hlast
  exact hends' (Option.some.inj hlast ▸ hends)

/-- A unit that has passed and fits is accepted. -/
theorem Passed.accepted {lexer : Lexer} {unit : TranslationUnit} {analyzer : SemanticAnalyzer}
    (h : Passed lexer unit analyzer) (hfits : unit.memoryUsed ≤ maxPosition) :
    Accepted lexer unit analyzer (codeGeneratorInitialize lexer) unit.placed := by
  have hwords : unit.memoryUsed = startingPosition + wordsOf unit.labels := by
    rw [TranslationUnit.memoryUsed, h.parsed.formed.wordsOf_labels]
  have hupdated := codeGeneratorUpdateLabels_fits (codeGeneratorInitialize lexer)
    (h.parsed.labels_sized h.lexed) (hwords ▸ hfits)
  exact ⟨⟨h.lexed, h.parsed, hupdated, rfl⟩, h.analyzed, h.clean⟩

/-- The work of the driver on a source that nothing is wrong with, where none of its
output files is in the way. -/
structure FirstRun (host : Host) (arg : Path) (files : FileSystem) (lexer : Lexer)
    (unit : TranslationUnit) (analyzer : SemanticAnalyzer) (files' : FileSystem) : Prop where
  source : ∃ contents, files (arg ++ bytes ".as") = some (.file contents) ∧
    eofChar ∉ contents ∧ FrontEnd arg contents lexer unit analyzer
  readable : host.readable (arg ++ bytes ".as") = true
  fresh : FreshOutputs host arg files
  fits : unit.memoryUsed ≤ maxPosition
  run : ∃ text, processFile host arg files = .ok (text, files')

section FirstRun

variable {host : Host} {arg : Path} {files files' : FileSystem} {lexer : Lexer}
  {unit : TranslationUnit} {analyzer : SemanticAnalyzer}
  (h : FirstRun host arg files lexer unit analyzer files')

include h

/-- The program of a first run is accepted. -/
theorem FirstRun.accepted :
    Accepted lexer unit analyzer (codeGeneratorInitialize lexer) unit.placed := by
  obtain ⟨contents, -, -, hfront⟩ := h.source
  exact hfront.passed.accepted h.fits

/-- **What a first run leaves** in the three files. -/
theorem FirstRun.texts :
    textAt files' (outputFile arg ++ bytes ".ob") = objectFileText analyzer unit.placed ∧
      textAt files' (outputFile arg ++ bytes ".ext") =
        symbolText (externalSymbols analyzer unit.placed) ∧
      textAt files' (outputFile arg ++ bytes ".ent") = symbolText (entrySymbols unit.placed) := by
  obtain ⟨contents, hsource, hplain, hfront⟩ := h.source
  obtain ⟨text, hrun⟩ := h.run
  have hfresh := h.fresh
  obtain ⟨compiled, hframe, hcases⟩ := processFile_run hsource h.readable hplain
    (processFile_stringFits hsource h.readable hrun)
  rcases hcases with ⟨-, hrejected⟩ |
    ⟨lexer', unit', analyzer', hfront', hunique, -, hcomes, hfaults⟩
  · exact absurd hfront (hrejected lexer unit analyzer)
  obtain ⟨rfl, rfl⟩ := hunique _ _ _ hfront
  cases hcode : generateCode host arg lexer' unit analyzer compiled with
  | error fault =>
      rw [hfaults fault hcode] at hrun
      cases hrun
  | ok worked =>
      obtain ⟨text', hgenerate⟩ := hcomes worked.1 worked.2 hcode
      obtain ⟨-, rfl⟩ := Prod.mk.inj (Except.ok.inj (hrun.symm.trans hgenerate))
      obtain ⟨-, hleaves⟩ := @generateCode_comes host arg _ _ _ hfront'.passed compiled
      have hcreates : Creates host compiled (outputDir arg) :=
        creates_iff.mpr (Or.inr hfresh.creatable)
      have hnone : compiled (outputDir arg) = none :=
        (hframe _ (outputDir_ne_source arg (by decide))).trans hfresh.directory
      have hmade : withDirectory host compiled (outputDir arg) =
          Function.update compiled (outputDir arg) (some .directory) := by
        rw [withDirectory, if_pos ⟨hnone, hcreates⟩]
      have hunwritten : ∀ extension ∈ outputExtensions,
          withDirectory host compiled (outputDir arg) (outputFile arg ++ extension) = none := by
        intro extension hextension
        have hparent : parent (outputFile arg ++ extension) = some (outputDir arg) := by
          apply parent_outputFile
          simp only [outputExtensions, List.mem_cons, List.not_mem_nil, or_false] at hextension
          rcases hextension with rfl | rfl | rfl <;> decide
        have hne : outputFile arg ++ extension ≠ outputDir arg := by
          intro hsame
          rw [hsame, parent, strrchr_eq_none_iff.mpr (outputDir_no_slash arg)] at hparent
          cases hparent
        rw [hmade, Function.update_of_ne hne,
          hframe _ (outputFile_ne_source arg hextension (by decide))]
        exact hfresh.unwritten extension hextension
      rw [hleaves worked.1 worked.2 hcode, if_pos hcreates, if_pos h.fits, withProgram]
      apply textAt_withOutputs hfresh.writable _ hunwritten
      rw [hmade, Function.update_self]

end FirstRun

/-- One source and nothing else. -/
def sourceFiles (source : List UInt8) : FileSystem := fun path =>
  if path = bytes "a.as" then some (.file source) else none

/-- A source that can be seen to pass has a first run. -/
theorem exists_firstRun {source : List UInt8} {check : TranslationUnit → Bool}
    (hplain : eofChar ∉ source)
    (hlexed : (preprocessLexer (bytes "a") source).errorHandler.errorList = [])
    (hpasses : (preprocessedFile true (pathString (bytes "a")) source).toOption.any
      (fun run => run.1.errorHandler.errorList.isEmpty && acceptsWith
        (fun run => decide (run.1.memoryUsed ≤ maxPosition) && check run.1)
        (postprocessLexer run.1)) = true)
    (hreturns : (processFile sampleHost (bytes "a") (sourceFiles source)).toOption.isSome = true) :
    ∃ lexer unit analyzer left,
      FirstRun sampleHost (bytes "a") (sourceFiles source) lexer unit analyzer left ∧
        check unit = true := by
  have hfresh : FreshOutputs sampleHost (bytes "a") (sourceFiles source) := by
    refine ⟨if_neg (by decide), rfl, ?_, fun _ _ => rfl⟩
    intro extension hextension
    apply if_neg
    revert extension
    decide +kernel
  cases hprocess : preprocessedFile true (pathString (bytes "a")) source with
  | error fault =>
      rw [hprocess] at hpasses
      cases hpasses
  | ok processed =>
      rw [hprocess] at hpasses
      obtain ⟨hclean, haccepts⟩ := Bool.and_eq_true_iff.mp hpasses
      obtain ⟨unit, analyzer, generator, placed, h, hchecks⟩ :=
        exists_accepted (.string _ _) haccepts
      obtain ⟨hfits, hcheck⟩ := Bool.and_eq_true_iff.mp hchecks
      have hfront : FrontEnd (bytes "a") source (postprocessLexer processed.1) unit analyzer :=
        ⟨hlexed, ⟨true, processed.1, processed.2, hprocess, List.isEmpty_iff.mp hclean, rfl⟩,
          h.passed⟩
      cases hrun : processFile sampleHost (bytes "a") (sourceFiles source) with
      | error fault =>
          rw [hrun] at hreturns
          cases hreturns
      | ok result =>
          exact ⟨_, unit, analyzer, result.2, ⟨⟨source, if_pos (by decide), hplain, hfront⟩, rfl,
            hfresh, of_decide_eq_true hfits, result.1, hrun⟩, hcheck⟩

/-- A label, an external and an entry. -/
def readBackSource : List UInt8 :=
  bytes "A: mov r0, *r3\njmp E\n.extern E\nX: .data -5\n.entry X\n"

/-- The instruction that moves a register to `r2`. -/
def movedRegister (number : Nat) : LinkedProgram where
  instructions := [⟨.mov, some (.directRegister number), some (.directRegister 2)⟩]
  values := []
  entries := []

end Assembler
