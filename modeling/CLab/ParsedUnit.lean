import CLab.ParserAccepts

/-!
# The nodes of a unit that was parsed without an error

Every pointer that the later stages follow leads to a token of the list, of the
type they expect.  Only the last instruction of a list that has no end of the
file can be unfinished.
-/

namespace Assembler

/-- An operand that the parser can have read. -/
structure OperandFormed (source : List Token) (operand : Token) (deref : Bool) : Prop where
  mem : operand ∈ source
  type : (operand.type = .number ∧ deref = false) ∨ operand.type = .register ∨
    operand.type = .identifier

/-- An instruction that the parser can have read. -/
structure InstructionFormed (source : List Token) (node : InstructionNode) : Prop where
  operation : ∃ t ∈ source, node.operation = some t ∧ isInstructionToken t.type = true
  first : ∀ t, node.firstOperand = some t →
    OperandFormed source t node.isFirstOperandDerefrenced
  second : ∀ t, node.secondOperand = some t →
    OperandFormed source t node.isSecondOperandDerefrenced
  ordered : node.secondOperand ≠ none → node.firstOperand ≠ none

/-- A directive that the parser can have read. -/
def GuidanceFormed (source : List Token) : GuidanceNode → Prop
  | .dataNode node => node.dataNumbers ≠ [] ∧
      (∀ number ∈ node.dataNumbers, ∃ t ∈ source, number = some t ∧ t.type = .number) ∧
      node.hasParserError = false
  | .stringNode node => (∃ t ∈ source, node.stringLabel = some t ∧ t.type = .string) ∧
      node.hasParserError = false

/-- A name of the list. -/
structure NameFormed (source : List Token) (name : Token) : Prop where
  mem : name ∈ source
  type : name.type = .identifier

/-- A unit whose nodes are all well formed. -/
structure UnitFormed (source : List Token) (unit : TranslationUnit) : Prop where
  externals : ∀ node ∈ unit.externalList, node.hasParserError = false ∧
    ∃ t, node.externalLabel = some t ∧ NameFormed source t
  entries : ∀ node ∈ unit.entryList, node.hasParserError = false ∧
    ∃ t, node.entryLabel = some t ∧ NameFormed source t
  instructionNames : ∀ node ∈ unit.instructionLabelList,
    ∃ t, node.label = some t ∧ NameFormed source t
  instructions : ∀ node ∈ unit.instructionLabelList, node.guidanceList = [] ∧
    node.instructionList ≠ [] ∧
      ∀ instruction ∈ node.instructionList, InstructionFormed source instruction
  guidanceNames : ∀ node ∈ unit.guidanceLabelList, ∀ t, node.label = some t →
    NameFormed source t
  guidance : ∀ node ∈ unit.guidanceLabelList, node.instructionList = [] ∧
    node.guidanceList ≠ [] ∧ ∀ directive ∈ node.guidanceList, GuidanceFormed source directive

/-! ## Statements of the grammar are well formed -/

section Source

variable {source : List Token}

/-- An operand of the grammar is well formed. -/
theorem Operand.formed {tokens rest : List Token} {operand : Token} {deref : Bool}
    (h : Operand tokens operand deref rest) (hsource : tokens ⊆ source) :
    OperandFormed source operand deref := by
  cases h with
  | immediate _ hnumber => exact ⟨hsource (by simp), Or.inl ⟨hnumber, rfl⟩⟩
  | direct hoperand => exact ⟨hsource (by simp), Or.inr hoperand⟩
  | dereferenced _ hoperand => exact ⟨hsource (by simp), Or.inr hoperand⟩

/-- So is an instruction of the grammar. -/
theorem Instruction.formed {ending : Ending} {tokens after : List Token}
    {node : InstructionNode} (h : Instruction ending tokens node after)
    (hsource : tokens ⊆ source) : InstructionFormed source node := by
  cases h with
  | noOperands hop _ =>
      exact ⟨⟨_, hsource (by simp), rfl, hop⟩, by simp [InstructionNode.zero],
        by simp [InstructionNode.zero], by simp [InstructionNode.zero]⟩
  | oneOperand hop hfirst _ =>
      have hformed := hfirst.formed (fun _ ht => hsource (List.mem_cons_of_mem _ ht))
      exact ⟨⟨_, hsource (by simp), rfl, hop⟩, by simpa [InstructionNode.zero] using hformed,
        by simp [InstructionNode.zero], by simp [InstructionNode.zero]⟩
  | twoOperands hop hfirst _ hsecond _ =>
      have htokens : _ ⊆ source := fun _ ht => hsource (List.mem_cons_of_mem _ ht)
      have hrest := List.Subset.trans hfirst.behind.suffix.subset htokens
      have hformed' := hsecond.formed (fun _ ht => hrest (List.mem_cons_of_mem _ ht))
      exact ⟨⟨_, hsource (by simp), rfl, hop⟩, by simpa using hfirst.formed htokens,
        by simpa using hformed', by simp⟩
  | cut hop hfirst _ =>
      have hformed := hfirst.formed (fun _ ht => hsource (List.mem_cons_of_mem _ ht))
      exact ⟨⟨_, hsource (by simp), rfl, hop⟩, by simpa [InstructionNode.zero] using hformed,
        by simp [InstructionNode.zero], by simp [InstructionNode.zero]⟩

theorem Instruction.hasParserError {ending : Ending} {tokens after : List Token}
    {node : InstructionNode} (h : Instruction ending tokens node after)
    (hending : ending ≠ .cut) : node.hasParserError = false := by
  cases h with
  | cut => exact absurd rfl hending
  | _ => rfl

/-- The numbers of the grammar are numbers of the source. -/
theorem Numbers.formed {ending : Ending} {tokens numbers rest : List Token}
    (h : Numbers ending tokens numbers rest) (hsource : tokens ⊆ source) :
    ∀ t ∈ numbers, t ∈ source ∧ t.type = .number := by
  induction h with
  | cons hnumber _ _ ih =>
      intro t ht
      rcases List.mem_cons.mp ht with rfl | ht
      · exact ⟨hsource (by simp), hnumber⟩
      · refine ih (fun _ hu => hsource ?_) t ht
        exact List.mem_cons_of_mem _ (List.mem_cons_of_mem _ hu)
  | last hnumber _ =>
      intro t ht
      obtain rfl := List.mem_singleton.mp ht
      exact ⟨hsource (by simp), hnumber⟩
  | comma hnumber _ _ =>
      intro t ht
      obtain rfl := List.mem_singleton.mp ht
      exact ⟨hsource (by simp), hnumber⟩
  | cut hnumber _ =>
      intro t ht
      obtain rfl := List.mem_singleton.mp ht
      exact ⟨hsource (by simp), hnumber⟩

/-- A directive of the grammar is well formed. -/
theorem GuidanceLine.formed {ending : Ending} {tokens rest : List Token} {node : GuidanceNode}
    (h : GuidanceLine ending tokens node rest) (hsource : tokens ⊆ source) :
    GuidanceFormed source node := by
  cases h with
  | data _ hnumbers =>
      refine ⟨by simpa using hnumbers.ne_nil, ?_, rfl⟩
      intro number hnumber
      obtain ⟨t, ht, rfl⟩ := List.mem_map.mp hnumber
      obtain ⟨hmem, htype⟩ :=
        hnumbers.formed (fun _ hu => hsource (List.mem_cons_of_mem _ hu)) t ht
      exact ⟨t, hmem, rfl, htype⟩
  | string _ hstring _ => exact ⟨⟨_, hsource (by simp), rfl, hstring⟩, rfl⟩

/-- What is true of every line of a reader is true of lists of lines. -/
theorem LineReader.lines_all {α : Type} {Line : Ending → List Token → α → List Token → Prop}
    {accepts : TokenType → Bool} {round : TranslationUnit × List α → TranslationUnit × List α}
    (reader : LineReader Line accepts round) {P : Ending → α → Prop}
    (hline : ∀ {ending tokens node rest}, Line ending tokens node rest → tokens ⊆ source →
      P ending node) {ending : Ending} {tokens rest : List Token} {nodes : List α}
    (h : Lines Line ending tokens nodes rest) (hsource : tokens ⊆ source) :
    ∀ node ∈ nodes, P .closed node ∨ P ending node := by
  induction h with
  | nil => simp
  | blank _ _ ih => exact ih (fun _ ht => hsource (List.mem_cons_of_mem _ ht))
  | cons hread _ ih =>
      intro node hnode
      rcases List.mem_cons.mp hnode with rfl | hnode
      · exact Or.inl (hline hread hsource)
      · exact ih (List.Subset.trans (reader.behind hread).suffix.subset hsource) node hnode
  | last _ hread =>
      intro node hnode
      obtain rfl := List.mem_singleton.mp hnode
      exact Or.inr (hline hread hsource)

/-- A well-formed block; `finished` says that no instruction of it is cut off. -/
def Block.Formed (source : List Token) (finished : Prop) : Block → Prop
  | .skipped => True
  | .external label => NameFormed source label
  | .entry label => NameFormed source label
  | .instructions label nodes => NameFormed source label ∧ nodes ≠ [] ∧
      ∀ node ∈ nodes, InstructionFormed source node ∧ (finished → node.hasParserError = false)
  | .guidance label nodes => (∀ t, label = some t → NameFormed source t) ∧ nodes ≠ [] ∧
      ∀ node ∈ nodes, GuidanceFormed source node

/-- The lines of a block make a well-formed block. -/
theorem BlockLines.formed {ending : Ending} {tokens rest : List Token} {block : Block}
    (h : BlockLines ending tokens block rest) (hsource : tokens ⊆ source) :
    block.Formed source (ending ≠ .cut) := by
  have hguidance : ∀ {tokens' nodes}, Lines GuidanceLine ending tokens' nodes rest →
      tokens' ⊆ source → ∀ node ∈ nodes, GuidanceFormed source node := by
    intro tokens' nodes hlines hsource' node hnode
    have hformed := guidanceReader.lines_all (P := fun _ node => GuidanceFormed source node)
      (fun hread => hread.formed) hlines hsource' node hnode
    exact hformed.elim id id
  cases h with
  | instructions hlabel hlines hnodes =>
      have hbehind : _ ⊆ source := fun _ ht =>
        hsource (List.mem_cons_of_mem _ (List.mem_cons_of_mem _ ht))
      refine ⟨⟨hsource (by simp), hlabel.labelType⟩, hnodes, ?_⟩
      intro node hnode
      have hall := instructionReader.lines_all
        (P := fun ending node => InstructionFormed source node ∧
          (ending ≠ .cut → node.hasParserError = false))
        (fun hread hsource' => ⟨hread.formed hsource', hread.hasParserError⟩) hlines hbehind
        node hnode
      rcases hall with ⟨hformed, hdone⟩ | hall
      · exact ⟨hformed, fun _ => hdone (by decide)⟩
      · exact hall
  | labelled hlabel hlines hnodes =>
      have hbehind : _ ⊆ source := fun _ ht =>
        hsource (List.mem_cons_of_mem _ (List.mem_cons_of_mem _ ht))
      refine ⟨?_, hnodes, hguidance hlines hbehind⟩
      intro t ht
      obtain rfl := Option.some.inj ht
      exact ⟨hsource (by simp), hlabel.labelType⟩
  | unlabelled hlines hnodes =>
      exact ⟨fun _ ht => absurd ht (by simp), hnodes, hguidance hlines hsource⟩

/-- A well-formed block stays one under a weaker condition. -/
theorem Block.Formed.mono {finished finished' : Prop} {block : Block}
    (h : block.Formed source finished) (himp : finished' → finished) :
    block.Formed source finished' := by
  cases block with
  | instructions label nodes =>
      obtain ⟨hname, hnodes, hall⟩ := h
      exact ⟨hname, hnodes, fun node hnode =>
        ⟨(hall node hnode).1, fun hfinished => (hall node hnode).2 (himp hfinished)⟩⟩
  | _ => exact h

/-- All blocks of a program are well formed. -/
theorem Program.formed {ending : Ending} {tokens : List Token} {blocks : List Block}
    (h : Program ending tokens blocks) (hsource : tokens ⊆ source) :
    ∀ block ∈ blocks, block.Formed source (ending ≠ .cut) := by
  have hcons : ∀ {block : Block} {blocks : List Block},
      block.Formed source (ending ≠ .cut) →
      (∀ block ∈ blocks, block.Formed source (ending ≠ .cut)) →
      ∀ block' ∈ block :: blocks, block'.Formed source (ending ≠ .cut) := by
    intro block blocks hblock hblocks block' hmem
    rcases List.mem_cons.mp hmem with rfl | hmem
    · exact hblock
    · exact hblocks block' hmem
  induction h with
  | eoft => simp
  | null => simp
  | labelCut => simp
  | blank _ _ ih => exact ih (fun _ ht => hsource (List.mem_cons_of_mem _ ht)) hcons
  | skipped _ _ hend _ ih =>
      have hrest := List.Subset.trans hend.suffix.subset
        (fun _ ht => hsource (List.mem_cons_of_mem _ (List.mem_append_right _ ht)))
      exact hcons trivial (ih hrest hcons)
  | external _ hlabel hend _ ih =>
      have hrest := List.Subset.trans hend.suffix.subset
        (fun _ ht => hsource (List.mem_cons_of_mem _ (List.mem_cons_of_mem _ ht)))
      exact hcons ⟨hsource (by simp), hlabel⟩ (ih hrest hcons)
  | entry _ hlabel hend _ ih =>
      have hrest := List.Subset.trans hend.suffix.subset
        (fun _ ht => hsource (List.mem_cons_of_mem _ (List.mem_cons_of_mem _ ht)))
      exact hcons ⟨hsource (by simp), hlabel⟩ (ih hrest hcons)
  | block hblock _ ih =>
      exact hcons ((hblock.formed hsource).mono (fun _ => by decide))
        (ih (List.Subset.trans hblock.behind.suffix.subset hsource) hcons)
  | lastBlock _ hblock => exact hcons (hblock.formed hsource) (by simp)

/-- Joining a block to its neighbour keeps that. -/
theorem joinBlock_formed {finished : Prop} {block : Block} {blocks : List Block}
    (hblock : block.Formed source finished)
    (hblocks : ∀ block ∈ blocks, block.Formed source finished) :
    ∀ block' ∈ joinBlock block blocks, block'.Formed source finished := by
  intro block' hmem
  unfold joinBlock at hmem
  split at hmem
  · rename_i label nodes nodes' rest
    rcases List.mem_cons.mp hmem with rfl | hmem
    · obtain ⟨hlabel, hnodes, hall⟩ := hblock
      obtain ⟨-, -, hall'⟩ := hblocks _ (List.mem_cons_self ..)
      refine ⟨hlabel, by simp [hnodes], ?_⟩
      intro node hnode
      rcases List.mem_append.mp hnode with hnode | hnode
      · exact hall node hnode
      · exact hall' node hnode
    · exact hblocks block' (List.mem_cons_of_mem _ hmem)
  · rcases List.mem_cons.mp hmem with rfl | hmem
    · exact hblock
    · exact hblocks block' hmem

theorem mergeBlocks_formed {finished : Prop} {blocks : List Block}
    (h : ∀ block ∈ blocks, block.Formed source finished) :
    ∀ block ∈ mergeBlocks blocks, block.Formed source finished := by
  induction blocks with
  | nil => exact h
  | cons block blocks ih =>
      exact joinBlock_formed (h block (by simp)) (ih (fun b hb => h b (by simp [hb])))

/-! ## Units -/

/-- A unit that is built of well-formed blocks is well formed. -/
theorem withBlocks_formed {finished : Prop} {blocks : List Block}
    (h : ∀ block ∈ blocks, block.Formed source finished) (unit : TranslationUnit)
    (tokens : List Token) : UnitFormed source (unit.cleared.withBlocks blocks tokens) := by
  have hmem : ∀ {β : Type} {f : Block → Option β} {node : β},
      node ∈ [] ++ blocks.filterMap f → ∃ block ∈ blocks, f block = some node := by
    intro β f node hnode
    rw [List.nil_append] at hnode
    exact List.mem_filterMap.mp hnode
  constructor
  case externals =>
    intro node hnode
    obtain ⟨block, hblock, hsome⟩ := hmem hnode
    cases block <;> simp only [Block.externalNode, reduceCtorEq] at hsome
    obtain rfl := Option.some.inj hsome
    exact ⟨rfl, _, rfl, h _ hblock⟩
  case entries =>
    intro node hnode
    obtain ⟨block, hblock, hsome⟩ := hmem hnode
    cases block <;> simp only [Block.entryNode, reduceCtorEq] at hsome
    obtain rfl := Option.some.inj hsome
    exact ⟨rfl, _, rfl, h _ hblock⟩
  case instructionNames =>
    intro node hnode
    obtain ⟨block, hblock, hsome⟩ := hmem hnode
    cases block <;> simp only [Block.instructionLabel, reduceCtorEq] at hsome
    obtain rfl := Option.some.inj hsome
    exact ⟨_, rfl, (h _ hblock).1⟩
  case instructions =>
    intro node hnode
    obtain ⟨block, hblock, hsome⟩ := hmem hnode
    cases block <;> simp only [Block.instructionLabel, reduceCtorEq] at hsome
    obtain rfl := Option.some.inj hsome
    obtain ⟨-, hnodes, hall⟩ := h _ hblock
    exact ⟨rfl, hnodes, fun node hnode => (hall node hnode).1⟩
  case guidanceNames =>
    intro node hnode
    obtain ⟨block, hblock, hsome⟩ := hmem hnode
    cases block <;> simp only [Block.guidanceLabel, reduceCtorEq] at hsome
    obtain rfl := Option.some.inj hsome
    exact (h _ hblock).1
  case guidance =>
    intro node hnode
    obtain ⟨block, hblock, hsome⟩ := hmem hnode
    cases block <;> simp only [Block.guidanceLabel, reduceCtorEq] at hsome
    obtain rfl := Option.some.inj hsome
    obtain ⟨-, hnodes, hall⟩ := h _ hblock
    exact ⟨rfl, hnodes, hall⟩

end Source

/-- A unit that was parsed without an error, from any list of tokens. -/
structure ParsedFrom (source : TranslationUnit) (unit : TranslationUnit) : Prop where
  parse : parseTranslationUnitContent source = .ok unit
  errors : unit.errorHandler.errorList = source.errorHandler.errorList

/-- The blocks of such a unit. -/
theorem ParsedFrom.blocks {source unit : TranslationUnit} (h : ParsedFrom source unit) :
    ∃ ending blocks, Program ending source.tokens blocks ∧
      unit = source.cleared.withBlocks (mergeBlocks blocks) unit.tokens := by
  obtain ⟨ending, blocks, hprogram⟩ := program_of_no_error h.parse h.errors
  obtain ⟨tokens, hparsed⟩ := hprogram.parsed
  refine ⟨ending, blocks, hprogram, ?_⟩
  obtain rfl := Except.ok.inj (h.parse.symm.trans hparsed)
  rfl

/-- **A parse without an error builds a well-formed unit.** -/
theorem ParsedFrom.formed {source unit : TranslationUnit} (h : ParsedFrom source unit) :
    UnitFormed source.tokens unit := by
  obtain ⟨ending, blocks, hprogram, hunit⟩ := h.blocks
  rw [hunit]
  exact withBlocks_formed (mergeBlocks_formed (hprogram.formed (List.Subset.refl _))) source _

/-- Only without an end of the file an instruction can be cut off. -/
theorem ParsedFrom.finished {source unit : TranslationUnit} (h : ParsedFrom source unit)
    (hend : EndsFile source.tokens) : ∀ node ∈ unit.instructionLabelList,
      ∀ instruction ∈ node.instructionList, instruction.hasParserError = false := by
  obtain ⟨ending, blocks, hprogram, hunit⟩ := h.blocks
  have hcut := hend.not_cut
  rw [hprogram.ending_eq] at hcut
  have hformed := mergeBlocks_formed (hprogram.formed (List.Subset.refl _))
  intro node hnode instruction hinstruction
  rw [hunit] at hnode
  have hmem : node ∈ (mergeBlocks blocks).filterMap Block.instructionLabel := by
    simpa [TranslationUnit.withBlocks, TranslationUnit.cleared] using hnode
  obtain ⟨block, hblock, hsome⟩ := List.mem_filterMap.mp hmem
  have hblockFormed := hformed block hblock
  cases block <;> simp only [Block.instructionLabel, reduceCtorEq] at hsome
  obtain rfl := Option.some.inj hsome
  exact (hblockFormed.2.2 instruction hinstruction).2 hcut

end Assembler
