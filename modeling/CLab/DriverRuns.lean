import CLab.Driver

/-!
# What a run of the assembler touches

The work on an argument looks at its source file and at the places it writes to,
and changes the latter only (`processFile_within`).  Which places these are
follows from the argument alone (`outputFile_eq`), so arguments whose places are
different are worked on as if each were the only one (`main_alone`).
-/

namespace Assembler

open Footprints

/-! ## The places of an argument -/

/-- The source with its macros expanded, the directory, and the three output files. -/
def writtenPaths (arg : Path) : List Path :=
  [arg ++ bytes ".am", outputDir arg, outputFile arg ++ bytes ".ext",
    outputFile arg ++ bytes ".ent", outputFile arg ++ bytes ".ob"]

/-- The set of these places. -/
def written (arg : Path) : Set Path := {path | path ∈ writtenPaths arg}

/-- The source, and what is written or has a place that is written in it. -/
def touchedPaths (arg : Path) : List Path :=
  (arg ++ bytes ".as") :: writtenPaths arg ++ (writtenPaths arg).filterMap parent

/-- The set of those. -/
def touched (arg : Path) : Set Path := {path | path ∈ touchedPaths arg}

/-- The extensions of the three files. -/
def outputExtensions : List (List UInt8) := [bytes ".ext", bytes ".ent", bytes ".ob"]

/-- The extensions of the source and of the text with its macros expanded. -/
def sourceExtensions : List (List UInt8) := [bytes ".as", bytes ".am"]

/-- A place that is written is also looked at, with what holds it. -/
theorem covers_written {arg path : Path} (h : path ∈ written arg) :
    Covers (touched arg) (written arg) path where
  looked := List.mem_append_left _ (List.mem_cons_of_mem _ h)
  holder := fun _ hparent => List.mem_append_right _ (List.mem_filterMap.mpr ⟨path, h, hparent⟩)
  written := h

/-- The three output files are written places. -/
theorem outputFile_written {arg : Path} {extension : List UInt8}
    (hextension : extension ∈ outputExtensions) : outputFile arg ++ extension ∈ written arg := by
  simp only [outputExtensions, List.mem_cons, List.not_mem_nil, or_false] at hextension
  rcases hextension with rfl | rfl | rfl <;> simp [written, writtenPaths]

/-! ## The calls of a run -/

section Parts

variable {has : ∀ {α : Type}, Driver α → Prop} (h : Composes has) (host : Host) {arg : Path}

include h

/-- A stage of the program calls nothing. -/
theorem ofStage_composes {α : Type} (x : Except Fault α) : has (ofStage x) := by
  cases x with
  | ok a => exact h.returns a
  | error fault => exact h.fails _

theorem sprintfBuffer_composes (text : List UInt8) : has (sprintfBuffer text) := by
  unfold sprintfBuffer
  split
  · exact h.returns _
  · exact h.fails _

theorem storeString_composes (text : CString) : has (storeString text) := by
  unfold storeString
  split
  · exact h.returns _
  · exact h.fails _

/-- What is put in a buffer is what the program goes on with. -/
theorem sprintfBuffer_bind_composes {α : Type} {text : List UInt8} {f : List UInt8 → Driver α}
    (hf : has (f text)) : has (sprintfBuffer text >>= f) := by
  unfold sprintfBuffer
  split
  · exact hf
  · exact h.fails _

/-- An output is one write. -/
theorem writeOutput_composes {filePath extension : List UInt8}
    (hwrite : ∀ contents, has (writeFile host (filePath ++ extension) contents))
    (contents ending : List UInt8) :
    has (writeOutput host filePath extension contents ending) :=
  h.behind (hwrite contents) fun _ => h.returns _

/-- A list of symbols is at most one. -/
theorem writeSymbols_composes {filePath extension : List UInt8}
    (hwrite : ∀ contents, has (writeFile host (filePath ++ extension) contents))
    (file : CString) (ending : List UInt8) :
    has (writeSymbols host filePath extension file ending) := by
  unfold writeSymbols
  split
  · exact writeOutput_composes h host hwrite _ _
  · exact h.returns _

section Outputs

variable (houtputs : ∀ extension ∈ outputExtensions, ∀ contents,
  has (writeFile host (outputFile arg ++ extension) contents))

include houtputs

/-- The outputs are writes to the three files. -/
theorem writeOutputs_composes (result : ObjectGenerated) :
    has (writeOutputs host (outputFile arg) result) := by
  unfold writeOutputs
  split
  · exact h.returns _
  · apply h.behind (writeSymbols_composes h host (houtputs _ (by decide)) _ _)
    intro external
    apply h.behind (writeSymbols_composes h host (houtputs _ (by decide)) _ _)
    intro entry
    exact h.behind (writeOutput_composes h host (houtputs _ (by decide)) _ _) fun _ => h.returns _

/-- Generating the files writes those and no others. -/
theorem generateFiles_composes (lexer : Lexer) (unit : TranslationUnit)
    (analyzer : SemanticAnalyzer) : has (generateFiles host arg lexer unit analyzer) := by
  apply h.behind (ofStage_composes h _)
  intro updated
  apply h.behind (ofStage_composes h _)
  intro entries
  apply h.behind (storeString_composes h _)
  intro stored
  apply h.behind (sprintfBuffer_composes h _)
  intro place
  apply sprintfBuffer_bind_composes h
  refine h.behind ?_ fun _ => h.returns _
  apply h.behind (ofStage_composes h _)
  intro result
  apply h.behind (storeString_composes h _)
  intro object
  apply h.behind (storeString_composes h _)
  intro external
  exact h.behind (writeOutputs_composes h host houtputs result) fun _ => h.returns _

variable (hdirectory : has (createDirectory host (outputDir arg)))

include hdirectory

/-- The directory is made first, and the files behind it. -/
theorem generateCode_composes (lexer : Lexer) (unit : TranslationUnit)
    (analyzer : SemanticAnalyzer) : has (generateCode host arg lexer unit analyzer) := by
  apply h.behind (sprintfBuffer_composes h _)
  intro place
  apply h.behind hdirectory
  intro created
  split
  · exact h.behind (generateFiles_composes h host houtputs lexer unit analyzer) fun _ => h.returns _
  · exact h.returns _

/-- Behind the analyzer comes the generator, or nothing. -/
theorem finishSource_composes (analyzed : Analyzed) : has (finishSource host arg analyzed) := by
  unfold finishSource
  split
  · exact h.returns _
  · exact h.behind (generateCode_composes h host houtputs hdirectory _ _ _) fun _ => h.returns _

end Outputs

section Processed

variable (hwrite : ∀ contents, has (writeFile host (arg ++ bytes ".am") contents))

include hwrite

/-- The expanded source is one write. -/
theorem writeProcessed_composes (text : Option (List UInt8)) :
    has (writeProcessed host arg text) := by
  cases text with
  | none => exact h.returns _
  | some text => exact hwrite text

variable (hopens : has (opensForWriting host (arg ++ bytes ".am")))

include hopens

/-- The preprocessor opens the place of the expanded source and writes it there. -/
theorem preprocessSource_composes (lexer : Lexer) : has (preprocessSource host arg lexer) := by
  apply h.behind hopens
  intro opens
  apply h.behind (ofStage_composes h _)
  intro processed
  apply h.behind (storeString_composes h _)
  intro stored
  apply h.behind (writeProcessed_composes h host hwrite processed.2)
  intro written
  dsimp only
  split
  · exact h.returns _
  · exact h.behind (ofStage_composes h _) fun _ => h.returns _

/-- So all of a source is made of the calls above. -/
theorem compileSource_composes (contents : List UInt8) :
    has (compileSource host arg contents) := by
  apply h.behind (storeString_composes h _)
  intro stored
  split
  · exact h.returns _
  · exact h.behind (preprocessSource_composes h host hwrite hopens _) fun _ => h.returns _

end Processed

end Parts

/-- Staying within two sets of places is kept by every step. -/
theorem within_parts (reads writes : Set Path) :
    Composes fun {α : Type} (p : Driver α) => Within reads writes p :=
  composes_within reads writes

section Within

variable (host : Host)

/-- The work on a source stays within the places of its argument. -/
theorem workOn_within {arg : Path} (source : Option (List UInt8)) :
    Within (touched arg) (written arg) (workOn host arg source) := by
  have hparts := within_parts (touched arg) (written arg)
  have ham : arg ++ bytes ".am" ∈ writtenPaths arg := List.mem_cons_self
  have hdirectory : outputDir arg ∈ writtenPaths arg := by simp [writtenPaths]
  cases source with
  | none => exact within_pure _
  | some contents =>
      have hcompile := compileSource_composes hparts host
        (writeFile_within host (covers_written ham))
        (opensForWriting_within host (covers_written ham)) contents
      exact hcompile.bind (finishSource_composes hparts host
        (fun _ hmem => writeFile_within host (covers_written (outputFile_written hmem)))
        (createDirectory_within host (covers_written hdirectory)))

/-- **The work on an argument** looks at nothing but its places, and changes
nothing but those it writes to. -/
theorem processFile_within (arg : Path) :
    Within (touched arg) (written arg) (processFile host arg) := by
  have hsource : arg ++ bytes ".as" ∈ touchedPaths arg :=
    List.mem_append_left _ List.mem_cons_self
  refine (readFile_within host hsource).bind fun source => ?_
  exact (workOn_within host source).bind fun _ => within_pure _

end Within

/-! ## Arguments that are worked on together -/

/-- No place that is written for one of two arguments is touched for the other. -/
def KeptApart (arg arg' : Path) : Prop :=
  (∀ path ∈ writtenPaths arg, path ∉ touchedPaths arg') ∧
    ∀ path ∈ writtenPaths arg', path ∉ touchedPaths arg

instance (arg arg' : Path) : Decidable (KeptApart arg arg') :=
  inferInstanceAs (Decidable ((∀ path ∈ writtenPaths arg, path ∉ touchedPaths arg') ∧
    ∀ path ∈ writtenPaths arg', path ∉ touchedPaths arg))

/-- Arguments that are kept apart touch nothing the other writes. -/
theorem KeptApart.apart {arg arg' : Path} (h : KeptApart arg arg') :
    Apart (touched arg) (written arg) (touched arg') (written arg') := by
  refine ⟨fun path hpath => ⟨h.1 path hpath, ?_⟩, fun path hpath => ⟨h.2 path hpath, ?_⟩⟩
  · exact fun hmem => h.1 path hpath (covers_written hmem).looked
  · exact fun hmem => h.2 path hpath (covers_written hmem).looked

/-- **A batch is its arguments, each on its own.**  Where no argument writes what
another one touches, `main` comes to its end exactly if the work on each argument
does from the files as they are at first.  It prints what is printed for each of
them, one after the other, leaves behind each of them what the work on it alone
leaves there, and leaves all other places as they are. -/
theorem main_alone (host : Host) (program : Path) {args : List Path} (hargs : args ≠ [])
    (hapart : args.Pairwise KeptApart) (files : FileSystem) :
    ((∃ r, main host program args files = .ok r) ↔
        ∀ arg ∈ args, ∃ r, processFile host arg files = .ok r) ∧
      ∀ printed status files', main host program args files = .ok ((printed, status), files') →
        status = 0 ∧ ∃ texts, printed = texts.flatten ∧
          Together (processFile host) written args files texts files' := by
  obtain ⟨hreturns, htogether⟩ := runAll_alone (fun arg _ => processFile_within host arg)
    (hapart.imp fun h => h.apart) files
  have hmain : main host program args files =
      (runAll (processFile host) args files).bind
        fun run => .ok ((run.1.flatten, 0), run.2) := by
    cases args with
    | nil => exact absurd rfl hargs
    | cons arg rest => rfl
  rw [hmain]
  cases hrun : runAll (processFile host) args files with
  | error fault =>
      rw [hrun] at hreturns
      refine ⟨?_, fun printed status files' h => ?_⟩
      · rw [← hreturns]
        refine iff_of_false (not_returns_of_error fault) fun h => ?_
        obtain ⟨texts, files', hr⟩ := h
        cases hr
      · cases h
  | ok run =>
      refine ⟨iff_of_true ⟨_, rfl⟩ (hreturns.mp ⟨run.1, run.2, hrun⟩), ?_⟩
      intro printed status files' h
      obtain ⟨hprinted, rfl⟩ := Prod.mk.inj (Except.ok.inj h)
      obtain ⟨rfl, rfl⟩ := Prod.mk.inj hprinted
      exact ⟨rfl, run.1, rfl, htogether run.1 run.2 hrun⟩

/-- A host that permits everything. -/
def sampleHost : Host where
  readable := fun _ => true
  writable := fun _ => true
  creatable := fun _ => true

/-- Two sources and nothing else. -/
def sampleFiles : FileSystem := fun path =>
  if path = bytes "a.as" ∨ path = bytes "b.as" then some (.file (bytes "A: stop\n")) else none

theorem main_alone_sample :
    (∃ r, main sampleHost (bytes "assembler") [bytes "a", bytes "b"] sampleFiles = .ok r) ↔
      ∀ arg ∈ [bytes "a", bytes "b"], ∃ r, processFile sampleHost arg sampleFiles = .ok r :=
  (main_alone sampleHost (bytes "assembler") (by decide) (by decide +kernel) sampleFiles).1

/-! ## The names of the places -/

/-- The last place of a character is looked for from behind. -/
theorem strrchr_append (ch : UInt8) (front back : List UInt8) :
    strrchr ch (front ++ back) =
      match strrchr ch back with
      | some i => some (front.length + i)
      | none => strrchr ch front := by
  induction front with
  | nil => cases hback : strrchr ch back <;> simp [strrchr, hback]
  | cons c front ih =>
      rw [List.cons_append, strrchr, ih]
      cases hback : strrchr ch back with
      | some i => simp [Nat.add_right_comm]
      | none => rfl

/-- A text without a dot is not cut. -/
theorem cutAtDot_of_not_mem {text : List UInt8} (h : '.'.toUInt8 ∉ text) :
    cutAtDot text = text := by
  rw [cutAtDot, strrchr_eq_none_iff.mpr h]

/-- The last dot is cut where it stands behind. -/
theorem cutAtDot_append_of_mem (front : List UInt8) {back : List UInt8}
    (h : '.'.toUInt8 ∈ back) : cutAtDot (front ++ back) = front ++ cutAtDot back := by
  rw [cutAtDot, cutAtDot, strrchr_append]
  cases hback : strrchr '.'.toUInt8 back with
  | none => exact absurd h (strrchr_eq_none_iff.mp hback)
  | some i => exact List.take_length_add_append i

theorem cutAtDot_append_of_not_mem {front back : List UInt8} (hfront : '.'.toUInt8 ∈ front)
    (hback : '.'.toUInt8 ∉ back) : cutAtDot (front ++ back) = cutAtDot front := by
  rw [cutAtDot, cutAtDot, strrchr_append, strrchr_eq_none_iff.mpr hback]
  cases hplace : strrchr '.'.toUInt8 front with
  | none => exact absurd hfront (strrchr_eq_none_iff.mp hplace)
  | some i =>
      obtain ⟨before, behind, rfl, -, hlength⟩ := strrchr_eq_some_iff.mp hplace
      apply List.take_append_of_le_length
      simp [← hlength]

/-- A name behind the last slash has no slash. -/
theorem baseName_no_slash (arg : Path) : '/'.toUInt8 ∉ baseName arg := by
  rw [baseName]
  cases hplace : strrchr '/'.toUInt8 arg with
  | none => exact strrchr_eq_none_iff.mp hplace
  | some i =>
      obtain ⟨before, behind, rfl, hbehind, hlength⟩ := strrchr_eq_some_iff.mp hplace
      have hdrop : (before ++ '/'.toUInt8 :: behind).drop (i + 1) = behind := by
        rw [← hlength, List.drop_append]
        simp
      show '/'.toUInt8 ∉ (before ++ '/'.toUInt8 :: behind).drop (i + 1)
      rw [hdrop]
      exact hbehind

/-- The directory of a name with a dot is the name up to its last dot. -/
theorem outputDir_eq (arg : Path) : outputDir arg =
    if '.'.toUInt8 ∈ baseName arg then cutAtDot (baseName arg)
    else baseName arg ++ bytes "_output" := by
  have hsuffix : '.'.toUInt8 ∉ bytes "_output" := by decide
  rw [outputDir]
  split
  · rename_i hdot
    exact cutAtDot_append_of_not_mem hdot hsuffix
  · rename_i hdot
    refine cutAtDot_of_not_mem fun hmem => ?_
    rcases List.mem_append.mp hmem with hmem | hmem
    · exact hdot hmem
    · exact hsuffix hmem

/-- The files of an argument are in its directory, under its name up to the dot. -/
theorem outputFile_eq (arg : Path) :
    outputFile arg = outputDir arg ++ bytes "/" ++ cutAtDot (baseName arg) ++ bytes ".ob" := by
  rw [outputFile]
  by_cases hdot : '.'.toUInt8 ∈ baseName arg
  · rw [cutAtDot_append_of_mem _ hdot]
  · have hnone : '.'.toUInt8 ∉ outputDir arg ++ bytes "/" ++ baseName arg := by
      rw [outputDir_eq, if_neg hdot]
      simp only [List.mem_append, not_or]
      exact ⟨⟨⟨hdot, by decide⟩, by decide⟩, hdot⟩
    rw [cutAtDot_of_not_mem hnone, cutAtDot_of_not_mem hdot]

/-- What is in front of the last slash, and behind it. -/
theorem slash_split {front front' back back' : List UInt8} (hback : '/'.toUInt8 ∉ back)
    (hback' : '/'.toUInt8 ∉ back')
    (h : front ++ bytes "/" ++ back = front' ++ bytes "/" ++ back') :
    front = front' ∧ back = back' := by
  have hplace : ∀ {front back : List UInt8}, '/'.toUInt8 ∉ back →
      strrchr '/'.toUInt8 (front ++ bytes "/" ++ back) = some front.length := by
    intro front back hnot
    refine strrchr_eq_some_iff.mpr ⟨front, back, ?_, hnot, rfl⟩
    rw [List.append_assoc]
    rfl
  have hlength : front.length = front'.length := by
    have hsame := @hplace front _ hback
    rw [h, hplace hback'] at hsame
    exact (Option.some.inj hsame).symm
  rw [List.append_assoc, List.append_assoc] at h
  obtain ⟨hfront, hrest⟩ := List.append_inj h hlength
  exact ⟨hfront, List.append_cancel_left hrest⟩

/-- Cutting a name adds nothing to it. -/
theorem cutAtDot_subset (text : List UInt8) : cutAtDot text ⊆ text := by
  rw [cutAtDot]
  cases strrchr '.'.toUInt8 text with
  | none => exact List.Subset.refl _
  | some i => exact List.take_subset i text

/-- **Which arguments write the same object file.**  Those whose names are the
same up to the last dot, if both of them have a dot or none has one: what stands
behind the dot, and the directory of the source, do not count. -/
theorem outputFile_eq_iff (arg arg' : Path) : outputFile arg = outputFile arg' ↔
    cutAtDot (baseName arg) = cutAtDot (baseName arg') ∧
      ('.'.toUInt8 ∈ baseName arg ↔ '.'.toUInt8 ∈ baseName arg') := by
  have hslash : ∀ arg : Path, '/'.toUInt8 ∉ cutAtDot (baseName arg) ++ bytes ".ob" := by
    intro arg hmem
    rcases List.mem_append.mp hmem with hmem | hmem
    · exact baseName_no_slash arg (cutAtDot_subset _ hmem)
    · exact absurd hmem (by decide)
  have hlonger : ∀ text : List UInt8, text ≠ text ++ bytes "_output" := by
    intro text hsame
    have hlength := congrArg List.length hsame
    have hseven : (bytes "_output").length = 7 := by decide
    rw [List.length_append] at hlength
    omega
  rw [outputFile_eq, outputFile_eq, List.append_assoc, List.append_assoc _ _ (bytes ".ob")]
  constructor
  · intro h
    obtain ⟨hdirectory, hname⟩ := slash_split (hslash arg) (hslash arg') h
    have hstem := List.append_cancel_right hname
    refine ⟨hstem, ?_⟩
    rw [outputDir_eq, outputDir_eq] at hdirectory
    by_cases hdot : '.'.toUInt8 ∈ baseName arg <;> by_cases hdot' : '.'.toUInt8 ∈ baseName arg'
    · exact iff_of_true hdot hdot'
    · rw [if_pos hdot, if_neg hdot', hstem, cutAtDot_of_not_mem hdot'] at hdirectory
      exact absurd hdirectory (hlonger _)
    · rw [if_neg hdot, if_pos hdot', ← hstem, cutAtDot_of_not_mem hdot] at hdirectory
      exact absurd hdirectory.symm (hlonger _)
    · exact iff_of_false hdot hdot'
  · intro h
    obtain ⟨hstem, hdots⟩ := h
    have hdirectory : outputDir arg = outputDir arg' := by
      rw [outputDir_eq, outputDir_eq]
      by_cases hdot : '.'.toUInt8 ∈ baseName arg
      · rw [if_pos hdot, if_pos (hdots.mp hdot), hstem]
      · have hdot' : '.'.toUInt8 ∉ baseName arg' := fun hmem => hdot (hdots.mpr hmem)
        rw [cutAtDot_of_not_mem hdot, cutAtDot_of_not_mem hdot'] at hstem
        rw [if_neg hdot, if_neg hdot', hstem]
    rw [hdirectory, hstem]

/-- A name without a dot and without a directory. -/
structure PlainName (arg : Path) : Prop where
  slash : '/'.toUInt8 ∉ arg
  dot : '.'.toUInt8 ∉ arg

/-- What may stand behind a plain name in a path: nothing, an extension, or a
member of the directory of that name. -/
def BehindName (rest : List UInt8) : Prop :=
  ∀ ch ∈ rest.head?, ch = '.'.toUInt8 ∨ ch = '/'.toUInt8

/-- A path is a plain name and what stands behind it in one way only. -/
theorem PlainName.split {name name' rest rest' : List UInt8} (h : PlainName name)
    (h' : PlainName name') (hrest : BehindName rest) (hrest' : BehindName rest')
    (hsame : name ++ rest = name' ++ rest') : name = name' ∧ rest = rest' := by
  have hname : ∀ {name rest : List UInt8}, PlainName name → BehindName rest →
      (name ++ rest).takeWhile (fun ch => ch ≠ '.'.toUInt8 ∧ ch ≠ '/'.toUInt8) = name := by
    intro name rest hplain hbehind
    have hall : ∀ ch ∈ name, decide (ch ≠ '.'.toUInt8 ∧ ch ≠ '/'.toUInt8) = true := by
      intro ch hch
      refine decide_eq_true ⟨fun heq => ?_, fun heq => ?_⟩
      · exact hplain.dot (heq ▸ hch)
      · exact hplain.slash (heq ▸ hch)
    rw [List.takeWhile_append_of_pos hall]
    cases rest with
    | nil => simp
    | cons ch rest =>
        have hch := hbehind ch rfl
        rw [List.takeWhile_cons_of_neg, List.append_nil]
        rcases hch with rfl | rfl <;> decide
  have hnames : name = name' := by
    have htake := congrArg
      (List.takeWhile (fun ch => decide (ch ≠ '.'.toUInt8 ∧ ch ≠ '/'.toUInt8))) hsame
    rwa [hname h hrest, hname h' hrest'] at htake
  subst hnames
  exact ⟨rfl, List.append_cancel_left hsame⟩

section Plain

variable {arg : Path} (h : PlainName arg)

include h

/-- The ending of the directory keeps a name plain. -/
theorem PlainName.withOutput : PlainName (arg ++ bytes "_output") := by
  refine ⟨fun hmem => ?_, fun hmem => ?_⟩
  · exact (List.mem_append.mp hmem).elim h.slash (by decide)
  · exact (List.mem_append.mp hmem).elim h.dot (by decide)

/-- A plain name is its own last part. -/
theorem PlainName.baseName_eq : baseName arg = arg := by
  rw [baseName, strrchr_eq_none_iff.mpr h.slash]

/-- The directory of a plain name bears the name. -/
theorem PlainName.outputDir_eq : outputDir arg = arg ++ bytes "_output" := by
  have hdot : '.'.toUInt8 ∉ baseName arg := by rw [h.baseName_eq]; exact h.dot
  rw [Assembler.outputDir_eq, if_neg hdot, h.baseName_eq]

/-- A place in or at the directory of a plain name. -/
def InOutput (arg path : Path) : Prop :=
  ∃ rest, path = arg ++ bytes "_output" ++ rest ∧ (rest = [] ∨ rest.head? = some '/'.toUInt8)

omit h in
/-- The place of a member may stand behind a name. -/
theorem InOutput.behind {rest : List UInt8} (hrest : rest = [] ∨ rest.head? = some '/'.toUInt8) :
    BehindName rest := by
  intro ch hch
  rcases hrest with rfl | hhead
  · cases hch
  · rw [hhead] at hch
    exact Or.inr (Option.some.inj hch).symm

/-- What is written lies beside the source or in the directory. -/
theorem PlainName.written_cases {path : Path} (hpath : path ∈ writtenPaths arg) :
    path = arg ++ bytes ".am" ∨ InOutput arg path := by
  have hfile : ∀ extension, InOutput arg (outputFile arg ++ extension) := by
    intro extension
    refine ⟨bytes "/" ++ cutAtDot (baseName arg) ++ bytes ".ob" ++ extension, ?_, Or.inr rfl⟩
    rw [outputFile_eq, h.outputDir_eq]
    simp only [List.append_assoc]
  have hdirectory : InOutput arg (outputDir arg) :=
    ⟨[], by rw [h.outputDir_eq, List.append_nil], Or.inl rfl⟩
  simp only [writtenPaths, List.mem_cons, List.not_mem_nil, or_false] at hpath
  rcases hpath with rfl | rfl | rfl | rfl | rfl
  · exact Or.inl rfl
  · exact Or.inr hdirectory
  · exact Or.inr (hfile _)
  · exact Or.inr (hfile _)
  · exact Or.inr (hfile _)

/-- What is touched is the source, or lies in these two places. -/
theorem PlainName.touched_cases {path : Path} (hpath : path ∈ touchedPaths arg) :
    path = arg ++ bytes ".as" ∨ path = arg ++ bytes ".am" ∨ InOutput arg path := by
  rcases List.mem_append.mp hpath with hpath | hpath
  · rcases List.mem_cons.mp hpath with rfl | hpath
    · exact Or.inl rfl
    · exact Or.inr (h.written_cases hpath)
  · -- the only place that holds one of the others is the directory
    obtain ⟨member, hmember, hparent⟩ := List.mem_filterMap.mp hpath
    obtain ⟨i, hplace, rfl⟩ := Option.map_eq_some_iff.mp hparent
    obtain ⟨front, back, hsplit, -, hlength⟩ := strrchr_eq_some_iff.mp hplace
    have hfront : member.take i = front := by rw [hsplit, ← hlength, List.take_left]
    rw [hfront]
    rcases h.written_cases hmember with ham | ⟨rest, hrest, hhead⟩
    · have hslash : '/'.toUInt8 ∈ arg ++ bytes ".am" := by rw [← ham, hsplit]; simp
      exact absurd ((List.mem_append.mp hslash).elim h.slash (by decide)) id
    · refine Or.inr (Or.inr ?_)
      have hlonger : arg ++ bytes "_output" <+: front := by
        have hboth : arg ++ bytes "_output" ++ rest = front ++ '/'.toUInt8 :: back :=
          hrest.symm.trans hsplit
        rcases List.append_eq_append_iff.mp hboth with ⟨more, hfront, -⟩ | ⟨more, hname, hrest⟩
        · exact ⟨more, hfront.symm⟩
        · cases more with
          | nil => exact ⟨[], by rw [hname, List.append_nil, List.append_nil]⟩
          | cons ch more =>
              have hch : '/'.toUInt8 = ch := (List.cons.inj hrest).1
              have hslash : '/'.toUInt8 ∈ arg ++ bytes "_output" := by rw [hname, hch]; simp
              exact absurd hslash h.withOutput.slash
      obtain ⟨more, hmore⟩ := hlonger
      refine ⟨more, hmore.symm, ?_⟩
      cases more with
      | nil => exact Or.inl rfl
      | cons ch more =>
          have hcancel : rest = (ch :: more) ++ '/'.toUInt8 :: back := by
            rw [hrest, ← hmore, List.append_assoc (arg ++ bytes "_output")] at hsplit
            exact List.append_cancel_left hsplit
          rcases hhead with rfl | hhead
          · cases hcancel
          · rw [hcancel] at hhead
            exact Or.inr hhead

end Plain

/-- **Different plain names are kept apart**, and only these: nothing that is
written for one of them is looked at or written for another one. -/
theorem plain_keptApart_iff {arg arg' : Path} (h : PlainName arg) (h' : PlainName arg') :
    KeptApart arg arg' ↔ arg ≠ arg' := by
  constructor
  · intro hapart hsame
    subst hsame
    have ham : arg ++ bytes ".am" ∈ writtenPaths arg := List.mem_cons_self
    exact hapart.1 _ ham (covers_written ham).looked
  · intro hne
    have hclear : ∀ {arg arg' : Path}, PlainName arg → PlainName arg' → arg ≠ arg' →
        ∀ path ∈ writtenPaths arg, path ∉ touchedPaths arg' := by
      intro arg arg' h h' hne path hwritten htouched
      have hextension : ∀ text ∈ [bytes ".as", bytes ".am"], BehindName text := by
        intro text htext
        simp only [List.mem_cons, List.not_mem_nil, or_false] at htext
        rcases htext with rfl | rfl
        · exact fun ch hch => Or.inl (Option.some.inj hch).symm
        · exact fun ch hch => Or.inl (Option.some.inj hch).symm
      have has := hextension (bytes ".as") (by simp)
      have ham := hextension (bytes ".am") (by simp)
      rcases h.written_cases hwritten with rfl | ⟨rest, rfl, hrest⟩ <;>
        rcases h'.touched_cases htouched with hsame | hsame | ⟨rest', hsame, hrest'⟩
      · exact absurd (h.split h' ham has hsame).2 (by decide)
      · exact hne (h.split h' ham ham hsame).1
      · have hback := (h.split h'.withOutput ham (InOutput.behind hrest') hsame).2
        rcases hrest' with rfl | hhead
        · exact absurd hback (by decide)
        · rw [← hback] at hhead
          exact absurd hhead (by decide)
      · have hback := (h.withOutput.split h' (InOutput.behind hrest) has hsame).2
        rcases hrest with rfl | hhead
        · exact absurd hback (by decide)
        · rw [hback] at hhead
          exact absurd hhead (by decide)
      · have hback := (h.withOutput.split h' (InOutput.behind hrest) ham hsame).2
        rcases hrest with rfl | hhead
        · exact absurd hback (by decide)
        · rw [hback] at hhead
          exact absurd hhead (by decide)
      · have hnames := (h.withOutput.split h'.withOutput (InOutput.behind hrest)
          (InOutput.behind hrest') hsame).1
        exact hne (List.append_cancel_right hnames)
    exact ⟨hclear h h' hne, hclear h' h (Ne.symm hne)⟩

theorem plain_keptApart_sample : KeptApart (bytes "a") (bytes "a_output") :=
  (plain_keptApart_iff ⟨by decide, by decide⟩ ⟨by decide, by decide⟩).mpr (by decide)

end Assembler
