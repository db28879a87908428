import CLab.BlankLines
import CLab.DriverOutcome

/-!
# Where the tokens stand

The stages behind the lexer read the places of the tokens for one purpose only:
the colon of a label has to touch it.  Tokens of the same types and texts whose
colons touch the same labels are therefore accepted together and assembled to
the same files, whatever blanks, comments and empty columns there are between
them (`generateCode_sameTokens`).
-/

namespace Assembler

/-! ## Other places for the tokens -/

/-- A change of the places of tokens. -/
structure Respacing where
  move : Token → Token
  type : ∀ token, (move token).type = token.type
  string : ∀ token, (move token).string = token.string

attribute [simp] Respacing.type Respacing.string

/-- The tokens of an instruction are moved. -/
def InstructionNode.respace (r : Respacing) (node : InstructionNode) : InstructionNode :=
  { node with
    operation := node.operation.map r.move
    firstOperand := node.firstOperand.map r.move
    secondOperand := node.secondOperand.map r.move }

/-- The tokens of a directive are moved. -/
def GuidanceNode.respace (r : Respacing) : GuidanceNode → GuidanceNode
  | .dataNode node =>
      .dataNode { node with dataNumbers := node.dataNumbers.map (Option.map r.move) }
  | .stringNode node => .stringNode { node with stringLabel := node.stringLabel.map r.move }

/-- The tokens of a label and of all that stands under it are moved. -/
def LabelNode.respace (r : Respacing) (label : LabelNode) : LabelNode :=
  { label with
    label := label.label.map r.move
    instructionList := label.instructionList.map (InstructionNode.respace r)
    guidanceList := label.guidanceList.map (GuidanceNode.respace r) }

/-- The name of an external is moved. -/
def ExternalNode.respace (r : Respacing) (node : ExternalNode) : ExternalNode :=
  { node with externalLabel := node.externalLabel.map r.move }

/-- The name of an entry is moved. -/
def EntryNode.respace (r : Respacing) (node : EntryNode) : EntryNode :=
  { node with entryLabel := node.entryLabel.map r.move }

/-- A block with all its tokens moved. -/
def Block.respace (r : Respacing) : Block → Block
  | .skipped => .skipped
  | .external label => .external (r.move label)
  | .entry label => .entry (r.move label)
  | .instructions label nodes =>
      .instructions (r.move label) (nodes.map (InstructionNode.respace r))
  | .guidance label nodes => .guidance (label.map r.move) (nodes.map (GuidanceNode.respace r))

/-! ## The grammar -/

section Grammar

variable (r : Respacing)

/-- The end of a line stays one. -/
theorem LineEnd.respace {after rest : List Token} (h : LineEnd after rest) :
    LineEnd (after.map r.move) (rest.map r.move) := by
  cases h with
  | eol heol => exact .eol ((r.type _).trans heol)
  | eoft heoft => exact .eoft ((r.type _).trans heoft)
  | null => exact .null

theorem atLineEnd_respace (tokens : List Token) :
    atLineEnd (tokens.map r.move) = atLineEnd tokens := by
  cases tokens with
  | nil => rfl
  | cons token rest => simp [atLineEnd]

/-- An operand is read by the types of its tokens. -/
theorem Operand.respace {tokens rest : List Token} {operand : Token} {deref : Bool}
    (h : Operand tokens operand deref rest) :
    Operand (tokens.map r.move) (r.move operand) deref (rest.map r.move) := by
  cases h with
  | immediate hhashtag hnumber =>
      exact .immediate (by simpa using hhashtag) (by simpa using hnumber)
  | direct hoperand => exact .direct (by simpa using hoperand)
  | dereferenced hstar hoperand =>
      exact .dereferenced (by simpa using hstar) (by simpa using hoperand)

/-- So is an instruction, with every number of operands. -/
theorem Instruction.respace {ending : Ending} {tokens after : List Token}
    {node : InstructionNode} (h : Instruction ending tokens node after) :
    Instruction ending (tokens.map r.move) (node.respace r) (after.map r.move) := by
  cases h with
  | noOperands hop hend =>
      exact .noOperands (by simpa using hop) ((atLineEnd_respace r _).trans hend)
  | oneOperand hop hfirst hend =>
      exact .oneOperand (by simpa using hop) (hfirst.respace r) ((atLineEnd_respace r _).trans hend)
  | twoOperands hop hfirst hcomma hsecond hend =>
      exact .twoOperands (by simpa using hop) (hfirst.respace r) (by simpa using hcomma)
        (hsecond.respace r) ((atLineEnd_respace r _).trans hend)
  | cut hop hfirst hcomma =>
      exact .cut (by simpa using hop) (hfirst.respace r) (by simpa using hcomma)

theorem Numbers.respace {ending : Ending} {tokens numbers rest : List Token}
    (h : Numbers ending tokens numbers rest) :
    Numbers ending (tokens.map r.move) (numbers.map r.move) (rest.map r.move) := by
  induction h with
  | last hnumber hend => exact .last (by simpa using hnumber) (hend.respace r)
  | comma hnumber hcomma heof =>
      exact .comma (by simpa using hnumber) (by simpa using hcomma) (by simpa using heof)
  | cut hnumber hcomma => exact .cut (by simpa using hnumber) (by simpa using hcomma)
  | cons hnumber hcomma _ ih => exact .cons (by simpa using hnumber) (by simpa using hcomma) ih

theorem GuidanceLine.respace {ending : Ending} {tokens rest : List Token} {node : GuidanceNode}
    (h : GuidanceLine ending tokens node rest) :
    GuidanceLine ending (tokens.map r.move) (node.respace r) (rest.map r.move) := by
  cases h with
  | data hdirective hnumbers =>
      have hline := GuidanceLine.data ((r.type _).trans hdirective) (hnumbers.respace r)
      rw [List.map_map] at hline
      rw [GuidanceNode.respace, List.map_map]
      exact hline
  | string hdirective hstring hend =>
      exact .string (by simpa using hdirective) (by simpa using hstring) (hend.respace r)

/-- Lines of either kind, if one line of it can be moved. -/
theorem Lines.respace {α : Type} {Line : Ending → List Token → α → List Token → Prop}
    {respaceNode : α → α} (hrespace : ∀ {ending tokens node rest}, Line ending tokens node rest →
      Line ending (tokens.map r.move) (respaceNode node) (rest.map r.move))
    {ending : Ending} {tokens rest : List Token} {nodes : List α}
    (h : Lines Line ending tokens nodes rest) :
    Lines Line ending (tokens.map r.move) (nodes.map respaceNode) (rest.map r.move) := by
  induction h with
  | nil tokens => exact .nil _
  | blank heol _ ih => exact .blank (by simpa using heol) ih
  | cons hline _ ih => exact .cons (hrespace hline) ih
  | last hending hline => exact .last hending (hrespace hline)

/-- The colons that touch their labels do so in their new places. -/
def Respacing.KeepsColons (source : List Token) : Prop :=
  ∀ label ∈ source, ∀ colon ∈ source, LabelColon label colon →
    LabelColon (r.move label) (r.move colon)

variable {r} {source : List Token} (hcolons : r.KeepsColons source)

include hcolons

/-- A block needs its colon to touch the label in the new place too. -/
theorem BlockLines.respace {ending : Ending} {tokens rest : List Token} {block : Block}
    (h : BlockLines ending tokens block rest) (hsource : tokens ⊆ source) :
    BlockLines ending (tokens.map r.move) (block.respace r) (rest.map r.move) := by
  cases h with
  | instructions hlabel hlines hnodes =>
      exact .instructions (hcolons _ (hsource (by simp)) _ (hsource (by simp)) hlabel)
        (Lines.respace r (fun hline => hline.respace r) hlines) (by simpa using hnodes)
  | labelled hlabel hlines hnodes =>
      exact .labelled (hcolons _ (hsource (by simp)) _ (hsource (by simp)) hlabel)
        (Lines.respace r (fun hline => hline.respace r) hlines) (by simpa using hnodes)
  | unlabelled hlines hnodes =>
      exact .unlabelled (Lines.respace r (fun hline => hline.respace r) hlines)
        (by simpa using hnodes)

/-- **A program with its tokens moved** is a program. -/
theorem Program.respace {ending : Ending} {tokens : List Token} {blocks : List Block}
    (h : Program ending tokens blocks) (hsource : tokens ⊆ source) :
    Program ending (tokens.map r.move) (blocks.map (Block.respace r)) := by
  induction h with
  | eoft heof => exact .eoft (by simpa using heof)
  | null => exact .null
  | blank heol _ ih =>
      exact .blank (by simpa using heol) (ih fun _ ht => hsource (List.mem_cons_of_mem _ ht))
  | skipped htoken hline hend _ ih =>
      have hrest := List.Subset.trans hend.suffix.subset
        (fun _ ht => hsource (List.mem_cons_of_mem _ (List.mem_append_right _ ht)))
      rw [List.map_cons, List.map_append]
      refine .skipped (by simpa using htoken) ?_ (hend.respace r) (ih hrest)
      intro t ht
      obtain ⟨original, hmem, rfl⟩ := List.mem_map.mp ht
      simpa using hline original hmem
  | external hdirective hlabel hend _ ih =>
      have hrest := List.Subset.trans hend.suffix.subset
        (fun _ ht => hsource (List.mem_cons_of_mem _ (List.mem_cons_of_mem _ ht)))
      exact .external (by simpa using hdirective) (by simpa using hlabel) (hend.respace r)
        (ih hrest)
  | entry hdirective hlabel hend _ ih =>
      have hrest := List.Subset.trans hend.suffix.subset
        (fun _ ht => hsource (List.mem_cons_of_mem _ (List.mem_cons_of_mem _ ht)))
      exact .entry (by simpa using hdirective) (by simpa using hlabel) (hend.respace r)
        (ih hrest)
  | block hblock _ ih =>
      exact .block (hblock.respace hcolons hsource)
        (ih (List.Subset.trans hblock.behind.suffix.subset hsource))
  | lastBlock hending hblock => exact .lastBlock hending (hblock.respace hcolons hsource)
  | labelCut hlabel hblanks =>
      refine .labelCut (hcolons _ (hsource (by simp)) _ (hsource (by simp)) hlabel) ?_
      intro t ht
      obtain ⟨original, hmem, rfl⟩ := List.mem_map.mp ht
      simpa using hblanks original hmem

end Grammar

/-! ## Units -/

/-- A unit with its tokens moved; where it has been read from is another text. -/
structure Respaced (r : Respacing) (unit unit' : TranslationUnit) : Prop where
  externals : unit'.externalList = unit.externalList.map (ExternalNode.respace r)
  entries : unit'.entryList = unit.entryList.map (EntryNode.respace r)
  instructions : unit'.instructionLabelList = unit.instructionLabelList.map (LabelNode.respace r)
  guidance : unit'.guidanceLabelList = unit.guidanceLabelList.map (LabelNode.respace r)

section Blocks

variable (r : Respacing)

/-- Whether a block belongs to the one in front of it is a matter of kinds. -/
theorem joinBlock_respace (block : Block) (blocks : List Block) :
    joinBlock (block.respace r) (blocks.map (Block.respace r)) =
      (joinBlock block blocks).map (Block.respace r) := by
  cases block with
  | guidance label nodes =>
      cases blocks with
      | nil => rfl
      | cons next rest =>
          cases next with
          | guidance label' nodes' =>
              cases label' with
              | none => simp [joinBlock, Block.respace]
              | some _ => rfl
          | _ => rfl
  | _ => rfl

theorem mergeBlocks_respace (blocks : List Block) :
    mergeBlocks (blocks.map (Block.respace r)) = (mergeBlocks blocks).map (Block.respace r) := by
  induction blocks with
  | nil => rfl
  | cons block blocks ih =>
      have hjoin := joinBlock_respace r block (mergeBlocks blocks)
      rw [← ih] at hjoin
      exact hjoin

/-- Nodes of one kind are picked out of moved blocks. -/
theorem filterMap_respace {α : Type} (f : Block → Option α) (respaceNode : α → α)
    (hnode : ∀ block, f (block.respace r) = (f block).map respaceNode) (blocks : List Block) :
    (blocks.map (Block.respace r)).filterMap f = (blocks.filterMap f).map respaceNode := by
  rw [List.filterMap_map, List.map_filterMap]
  exact List.filterMap_congr fun block _ => hnode block

/-- The unit of moved blocks. -/
theorem unitOf_respaced (lexer lexer' : Lexer) (blocks : List Block) (tokens tokens' : List Token) :
    Respaced r ((lexer.unitOf blocks).setTokens tokens)
      ((lexer'.unitOf (blocks.map (Block.respace r))).setTokens tokens') := by
  have hmerged := mergeBlocks_respace r blocks
  constructor
  case externals =>
    have hlist := filterMap_respace r Block.externalNode (ExternalNode.respace r)
      (fun block => by cases block <;> rfl) (mergeBlocks blocks)
    rw [← hmerged] at hlist
    exact hlist
  case entries =>
    have hlist := filterMap_respace r Block.entryNode (EntryNode.respace r)
      (fun block => by cases block <;> rfl) (mergeBlocks blocks)
    rw [← hmerged] at hlist
    exact hlist
  case instructions =>
    have hlist := filterMap_respace r Block.instructionLabel (LabelNode.respace r)
      (fun block => by cases block <;> rfl) (mergeBlocks blocks)
    rw [← hmerged] at hlist
    exact hlist
  case guidance =>
    have hlist := filterMap_respace r Block.guidanceLabel (LabelNode.respace r)
      (fun block => by cases block <;> rfl) (mergeBlocks blocks)
    rw [← hmerged] at hlist
    exact hlist

end Blocks

/-! ## What the later stages read -/

/-- A slot with the tokens that its word is made of moved. -/
def Slot.respace (r : Respacing) : Slot → Slot
  | .operation node => .operation (node.respace r)
  | .operand token isDerefrenced isDst => .operand (r.move token) isDerefrenced isDst
  | .registers source destination => .registers (r.move source) (r.move destination)

section Nodes

variable {r : Respacing}

/-- The type of an operand stays. -/
theorem operandIs_respace {type : TokenType} {operand : Option Token} :
    OperandIs type (operand.map r.move) ↔ OperandIs type operand := by
  cases operand with
  | none => simp [OperandIs]
  | some token => simp [OperandIs]

/-- The operands are those before, moved. -/
theorem operands_respace (node : InstructionNode) : (node.respace r).operands =
    node.operands.map (fun operand => (r.move operand.1, operand.2)) := by
  obtain ⟨operation, first, second, firstDeref, secondDeref, failed⟩ := node
  cases first <;> cases second <;> rfl

/-- Legal kinds of operands stay legal. -/
theorem KindsLegal.respace {operation : TokenType} {node : InstructionNode}
    (h : KindsLegal operation node) : KindsLegal operation (node.respace r) where
  lea hop := ⟨operandIs_respace.mpr (h.lea hop).1, operandIs_respace.mpr (h.lea hop).2⟩
  jump hop := (h.jump hop).imp operandIs_respace.mpr
    fun hregister => ⟨operandIs_respace.mpr hregister.1, hregister.2⟩
  compare hop hboth := h.compare hop
    ⟨operandIs_respace.mp hboth.1, operandIs_respace.mp hboth.2⟩
  written hop hnumber := h.written hop (operandIs_respace.mp hnumber)

/-- An instruction passes its checks as before. -/
theorem InstructionPasses.respace {names : List CString} {node : InstructionNode}
    (h : InstructionPasses names node) : InstructionPasses names (node.respace r) := by
  obtain ⟨operation, hoperation, hkinds, hcount, hwrites⟩ := h.operation
  constructor
  case immediates =>
    intro operand hoperand htype
    rw [operands_respace] at hoperand
    obtain ⟨original, hmem, rfl⟩ := List.mem_map.mp hoperand
    rw [r.type] at htype
    rw [r.string]
    exact h.immediates original hmem htype
  case identifiers =>
    intro operand hoperand htype
    rw [operands_respace] at hoperand
    obtain ⟨original, hmem, rfl⟩ := List.mem_map.mp hoperand
    rw [r.type] at htype
    rw [r.string]
    exact h.identifiers original hmem htype
  case operation =>
    refine ⟨r.move operation, by rw [InstructionNode.respace, hoperation]; rfl, ?_, ?_, ?_⟩
    · rw [r.type]
      exact hkinds.respace
    · rw [operands_respace, List.length_map, r.type]
      exact hcount
    · rw [r.type]
      intro hop hboth
      exact hwrites hop ⟨operandIs_respace.mp hboth.1, operandIs_respace.mp hboth.2⟩

theorem guidanceAccepted_respace {node : GuidanceNode} (h : GuidanceAccepted node) :
    GuidanceAccepted (node.respace r) := by
  cases node with
  | stringNode node => exact trivial
  | dataNode node =>
      intro token htoken
      obtain ⟨original, hmem, hsome⟩ := List.mem_map.mp htoken
      obtain ⟨number, rfl, rfl⟩ := Option.map_eq_some_iff.mp hsome
      rw [NumberAccepted, r.string]
      exact h number hmem

/-- The words an instruction has room for. -/
theorem instructionSlots_respace (node : InstructionNode) :
    instructionSlots (node.respace r) = (instructionSlots node).map (Slot.respace r) := by
  obtain ⟨operation, first, second, firstDeref, secondDeref, failed⟩ := node
  cases first with
  | none => cases second <;> rfl
  | some first =>
      cases second with
      | none => rfl
      | some second =>
          simp only [instructionSlots, InstructionNode.respace, Option.map_some, r.type]
          split_ifs <;> rfl

/-- A directive has the same values. -/
theorem guidanceValues_respace (node : GuidanceNode) :
    guidanceValues (node.respace r) = guidanceValues node := by
  cases node with
  | dataNode node =>
      simp only [GuidanceNode.respace, guidanceValues, List.map_map]
      refine List.map_congr_left fun number _ => ?_
      cases number with
      | none => rfl
      | some token => simp
  | stringNode node =>
      obtain ⟨label, failed⟩ := node
      cases label with
      | none => rfl
      | some token => simp [GuidanceNode.respace, guidanceValues]

/-- The mode of an operand is read off its type. -/
theorem determineAddressingMode_respace (token : Token) (isDerefrenced : Bool) :
    determineAddressingMode (r.move token) isDerefrenced =
      determineAddressingMode token isDerefrenced := by
  rw [determineAddressingMode, r.type, determineAddressingMode]

/-- The first word has no place of a token in it. -/
theorem operationMemory_respace (node : InstructionNode) :
    operationMemory (node.respace r) = operationMemory node := by
  obtain ⟨operation, first, second, firstDeref, secondDeref, failed⟩ := node
  cases operation <;> cases first <;> cases second <;>
    simp [operationMemory, InstructionNode.respace, determineAddressingMode_respace]

theorem labelSlots_respace (label : LabelNode) :
    (label.respace r).instructionList.flatMap instructionSlots =
      (label.instructionList.flatMap instructionSlots).map (Slot.respace r) := by
  rw [LabelNode.respace, List.flatMap_map, List.map_flatMap]
  exact congrArg (List.flatMap · _) (funext instructionSlots_respace)

theorem labelValues_respace (label : LabelNode) :
    (label.respace r).guidanceList.flatMap guidanceValues =
      label.guidanceList.flatMap guidanceValues := by
  rw [LabelNode.respace, List.flatMap_map]
  exact congrArg (List.flatMap · _) (funext guidanceValues_respace)

/-- A label takes the same number of words. -/
theorem labelWords_respace (label : LabelNode) :
    labelWords (label.respace r) = labelWords label := by
  rw [labelWords, labelSlots_respace, labelValues_respace, List.length_map, labelWords]

theorem name_respace (label : LabelNode) : (label.respace r).name = label.name := by
  simp only [LabelNode.name, LabelNode.respace, Option.map_map]
  exact congrArg (Option.map · label.label) (funext r.string)

/-- The labels get the same positions. -/
theorem placeLabels_respace (position : Nat) (labels : List LabelNode) :
    placeLabels position (labels.map (LabelNode.respace r)) =
      (placeLabels position labels).map (LabelNode.respace r) := by
  induction labels generalizing position with
  | nil => rfl
  | cons label rest ih =>
      rw [List.map_cons, placeLabels, placeLabels, labelWords_respace, ih, List.map_cons]
      rfl

theorem reachLabels_respace (position : Nat) (labels : List LabelNode) :
    reachLabels position (labels.map (LabelNode.respace r)) =
      (reachLabels position labels).map (LabelNode.respace r) := by
  induction labels generalizing position with
  | nil => rfl
  | cons label rest ih =>
      rw [List.map_cons, reachLabels, reachLabels, labelWords_respace, ih, List.map_cons]
      split <;> rfl

/-- All labels together take as many words. -/
theorem wordsOf_respace (labels : List LabelNode) :
    wordsOf (labels.map (LabelNode.respace r)) = wordsOf labels := by
  rw [wordsOf, List.map_map, wordsOf]
  exact congrArg List.sum (List.map_congr_left fun label _ => labelWords_respace label)

end Nodes

section Units

variable {r : Respacing} {unit unit' : TranslationUnit} (h : Respaced r unit unit')

include h

/-- The labels of the moved unit. -/
theorem Respaced.labels : unit'.labels = unit.labels.map (LabelNode.respace r) := by
  rw [TranslationUnit.labels, h.instructions, h.guidance, ← List.map_append,
    TranslationUnit.labels]

/-- A moved unit is placed like the other one. -/
theorem Respaced.placed : Respaced r unit.placed unit'.placed where
  externals := h.externals
  entries := h.entries
  instructions := by
    simp only [TranslationUnit.placed, h.instructions]
    exact placeLabels_respace _ _
  guidance := by
    simp only [TranslationUnit.placed, h.instructions, h.guidance, wordsOf_respace]
    exact placeLabels_respace _ _

/-- The first pass comes as far. -/
theorem Respaced.reached : Respaced r unit.reached unit'.reached where
  externals := h.externals
  entries := h.entries
  instructions := by
    simp only [TranslationUnit.reached, h.instructions]
    exact reachLabels_respace _ _
  guidance := by
    simp only [TranslationUnit.reached, h.instructions, h.guidance, wordsOf_respace]
    split
    · rfl
    · exact reachLabels_respace _ _

/-- Its words are those before, moved. -/
theorem Respaced.slots : unit'.slots = unit.slots.map (Slot.respace r) := by
  rw [TranslationUnit.slots, h.instructions, List.flatMap_map, TranslationUnit.slots,
    List.map_flatMap]
  exact congrArg (List.flatMap · _) (funext labelSlots_respace)

/-- Its data is the same. -/
theorem Respaced.values : unit'.values = unit.values := by
  rw [TranslationUnit.values, h.guidance, List.flatMap_map, TranslationUnit.values]
  exact congrArg (List.flatMap · _) (funext labelValues_respace)

/-- It takes as much memory. -/
theorem Respaced.memoryUsed : unit'.memoryUsed = unit.memoryUsed := by
  rw [TranslationUnit.memoryUsed, h.slots, h.values, List.length_map, TranslationUnit.memoryUsed]

/-- It has the same labels. -/
theorem Respaced.labelNames : unit'.labelNames = unit.labelNames := by
  rw [TranslationUnit.labelNames, h.instructions, h.guidance, ← List.map_append,
    List.filterMap_map, TranslationUnit.labelNames]
  exact List.filterMap_congr fun label _ => name_respace label

theorem Respaced.externalNames : unit'.externalNames = unit.externalNames := by
  rw [TranslationUnit.externalNames, h.externals, List.filterMap_map,
    TranslationUnit.externalNames]
  refine List.filterMap_congr fun node _ => ?_
  simp only [Function.comp_apply, ExternalNode.respace, Option.map_map]
  exact congrArg (Option.map · node.externalLabel) (funext r.string)

theorem Respaced.entryNames : unit'.entryNames = unit.entryNames := by
  rw [TranslationUnit.entryNames, h.entries, List.filterMap_map, TranslationUnit.entryNames]
  refine List.filterMap_congr fun node _ => ?_
  simp only [Function.comp_apply, EntryNode.respace, Option.map_map]
  exact congrArg (Option.map · node.entryLabel) (funext r.string)

omit h in
/-- A label is entered in the table under its name alone. -/
theorem labelCells_respace (value : Nat → IdentifierValue) (index : Nat)
    (labels : List LabelNode) : labelCells value index (labels.map (LabelNode.respace r)) =
      labelCells value index labels := by
  induction labels generalizing index with
  | nil => rfl
  | cons label rest ih =>
      cases hlabel : label.label <;> simp [labelCells, LabelNode.respace, hlabel, ih]

omit h in
theorem externalCells_respace (index : Nat) (externals : List ExternalNode) :
    externalCells index (externals.map (ExternalNode.respace r)) =
      externalCells index externals := by
  induction externals generalizing index with
  | nil => rfl
  | cons node rest ih =>
      cases hlabel : node.externalLabel <;> simp [externalCells, ExternalNode.respace, hlabel, ih]

/-- So the declarations are the same. -/
theorem Respaced.declarations : unit'.declarations = unit.declarations := by
  rw [TranslationUnit.declarations, h.instructions, h.guidance, h.externals, labelCells_respace,
    labelCells_respace, externalCells_respace, TranslationUnit.declarations]

/-- Moved tokens are as legal as before. -/
theorem Respaced.legal (hlegal : UnitLegal unit) : UnitLegal unit' := by
  have hnames : unit'.declaredNames = unit.declaredNames := by
    rw [TranslationUnit.declaredNames, h.labelNames, h.externalNames,
      TranslationUnit.declaredNames]
  constructor
  case distinct =>
    rw [hnames]
    exact hlegal.distinct
  case entries =>
    rw [h.entryNames, h.labelNames]
    exact hlegal.entries
  case instructions =>
    intro label hlabel node hnode
    rw [h.instructions] at hlabel
    obtain ⟨original, hmem, rfl⟩ := List.mem_map.mp hlabel
    obtain ⟨instruction, hinstruction, rfl⟩ := List.mem_map.mp hnode
    rw [hnames]
    exact (hlegal.instructions original hmem instruction hinstruction).respace
  case guidance =>
    intro label hlabel node hnode
    rw [h.guidance] at hlabel
    obtain ⟨original, hmem, rfl⟩ := List.mem_map.mp hlabel
    obtain ⟨directive, hdirective, rfl⟩ := List.mem_map.mp hnode
    exact guidanceAccepted_respace (hlegal.guidance original hmem directive hdirective)

/-- The memory is left at the same label. -/
theorem Respaced.crossesUnlabelled : CrossesUnlabelled unit' ↔ CrossesUnlabelled unit := by
  have hcrosses : ∀ {before node after},
      Crosses startingPosition (unit.labels.map (LabelNode.respace r))
        (before.map (LabelNode.respace r)) (node.respace r) (after.map (LabelNode.respace r)) ↔
        unit.labels.map (LabelNode.respace r) =
          (before ++ node :: after).map (LabelNode.respace r) ∧
        startingPosition + wordsOf before ≤ maxPosition ∧
        maxPosition < startingPosition + wordsOf before + labelWords node := by
    intro before node after
    constructor
    · intro hcross
      refine ⟨?_, wordsOf_respace before ▸ hcross.fits, ?_⟩
      · rw [hcross.split, List.map_append, List.map_cons]
      · have hpast := hcross.crossed
        rwa [wordsOf_respace, labelWords_respace] at hpast
    · intro hall
      refine ⟨?_, (wordsOf_respace before).symm ▸ hall.2.1, ?_⟩
      · rw [hall.1, List.map_append, List.map_cons]
      · rw [wordsOf_respace, labelWords_respace]
        exact hall.2.2
  rw [CrossesUnlabelled, CrossesUnlabelled, h.labels]
  constructor
  · intro hcrossed
    obtain ⟨before', node', after', hcross, hnone⟩ := hcrossed
    obtain ⟨before, behind, hlabels, rfl, hbehind⟩ := List.map_eq_append_iff.mp hcross.split
    obtain ⟨node, after, rfl, rfl, rfl⟩ := List.map_eq_cons_iff.mp hbehind
    obtain ⟨-, hfits, hpast⟩ := hcrosses.mp hcross
    exact ⟨before, node, after, ⟨hlabels, hfits, hpast⟩, Option.map_eq_none_iff.mp hnone⟩
  · intro hcrossed
    obtain ⟨before, node, after, hcross, hnone⟩ := hcrossed
    refine ⟨before.map (LabelNode.respace r), node.respace r, after.map (LabelNode.respace r),
      hcrosses.mpr ⟨by rw [hcross.split], hcross.fits, hcross.crossed⟩, ?_⟩
    rw [LabelNode.respace, hnone, Option.map_none]

/-- A pointer leads to the moved label. -/
theorem Respaced.labelAt (value : IdentifierValue) :
    unit'.labelAt value = (unit.labelAt value).map (LabelNode.respace r) := by
  cases value with
  | instructionLabel index => rw [TranslationUnit.labelAt, h.instructions, List.getElem?_map]; rfl
  | guidanceLabel index => rw [TranslationUnit.labelAt, h.guidance, List.getElem?_map]; rfl
  | external index => rfl

/-- A name is at the same place. -/
theorem Respaced.positionOf (name : CString) : unit'.positionOf name = unit.positionOf name := by
  have hnamed : (fun label : LabelNode => decide (label.name = some name)) ∘ LabelNode.respace r =
      fun label => decide (label.name = some name) := by
    funext label
    rw [Function.comp_apply, name_respace]
  rw [TranslationUnit.positionOf, h.labels, List.find?_map, hnamed, TranslationUnit.positionOf]
  cases unit.labels.find? _ <;> rfl

/-- The lines of the entries are the same. -/
theorem Respaced.entrySymbols : entrySymbols unit' = entrySymbols unit := by
  rw [Assembler.entrySymbols, h.entryNames, Assembler.entrySymbols]
  exact List.map_congr_left fun name _ => by rw [h.positionOf]

/-- Every word of a program and the name it refers to stay the same. -/
theorem Respaced.slotEmission {analyzer analyzer' : SemanticAnalyzer}
    (hlookup : ∀ name, analyzer'.lookup name = analyzer.lookup name) (slot : Slot) :
    slotEmission analyzer' unit' (slot.respace r) = slotEmission analyzer unit slot := by
  have hposition : unit'.positionAt = unit.positionAt := by
    funext value
    rw [TranslationUnit.positionAt, h.labelAt, TranslationUnit.positionAt]
    cases unit.labelAt value <;> rfl
  have hmemory : directMemory analyzer' unit' = directMemory analyzer unit := by
    funext name
    rw [directMemory, directMemory, hlookup, hposition]
  cases slot with
  | operation node =>
      simp only [Assembler.slotEmission, Slot.respace, slotWord, slotReference,
        operationMemory_respace]
  | registers source destination =>
      simp only [Assembler.slotEmission, Slot.respace, slotWord, slotReference, handleRegisterMode,
        r.string]
  | operand token isDerefrenced isDst =>
      simp only [Assembler.slotEmission, Slot.respace, slotWord, slotReference, operandMemory,
        operandReference, determineAddressingMode_respace, handleRegisterMode, hmemory, hlookup,
        r.type, r.string]

/-- The words of a program, and its external references. -/
theorem Respaced.files {analyzer analyzer' : SemanticAnalyzer}
    (hlookup : ∀ name, analyzer'.lookup name = analyzer.lookup name) :
    objectImage analyzer' unit' = objectImage analyzer unit ∧
      externalSymbols analyzer' unit' = externalSymbols analyzer unit := by
  have hemissions : unit'.slots.map (Assembler.slotEmission analyzer' unit') =
      unit.slots.map (Assembler.slotEmission analyzer unit) := by
    rw [h.slots, List.map_map]
    exact List.map_congr_left fun slot _ => h.slotEmission hlookup slot
  have hwords : unit'.slots.map (slotWord analyzer' unit') =
      unit.slots.map (slotWord analyzer unit) := by
    have hemitted := congrArg (List.map Emission.word) hemissions
    rwa [List.map_map, List.map_map] at hemitted
  have hcount : unit'.slots.length = unit.slots.length := by
    rw [h.slots, List.length_map]
  constructor
  · rw [objectImage, objectImage, hwords, hcount, h.values]
  · rw [externalSymbols, externalSymbols, hemissions]

/-- The text of the object file with its first line. -/
theorem Respaced.objectFileText {analyzer analyzer' : SemanticAnalyzer}
    (hlookup : ∀ name, analyzer'.lookup name = analyzer.lookup name) :
    objectFileText analyzer' unit' = objectFileText analyzer unit := by
  rw [Assembler.objectFileText, (h.files hlookup).1, h.slots, List.length_map, h.values,
    Assembler.objectFileText]

/-- The entries are declared at the same places. -/
theorem Respaced.declaredEntries {placed placed' : TranslationUnit}
    (hplaced : Respaced r placed placed') (names : List CString) :
    declaredEntries unit' placed' names = declaredEntries unit placed names := by
  refine List.map_congr_left fun name _ => ?_
  rw [TranslationUnit.declaredPosition, h.declarations, TranslationUnit.declaredPosition]
  cases firstDeclaration unit.declarations name with
  | none => rfl
  | some cell =>
      rw [Option.bind_some, Option.bind_some, hplaced.labelAt]
      cases placed.labelAt cell.value <;> rfl

/-- The texts of the files are as long. -/
theorem Respaced.textsFit {analyzer analyzer' : SemanticAnalyzer}
    (hlookup : ∀ name, analyzer'.lookup name = analyzer.lookup name) :
    TextsFit analyzer' unit' ↔ TextsFit analyzer unit := by
  obtain ⟨himage, hsymbols⟩ := h.reached.files hlookup
  have hentries := h.declaredEntries h.reached (newNames [] unit.entryNames)
  constructor
  · intro hfits
    obtain ⟨hobject, hexternal, hlisted⟩ := hfits
    rw [himage] at hobject
    rw [hsymbols] at hexternal
    rw [h.entryNames, hentries] at hlisted
    exact ⟨hobject, hexternal, hlisted⟩
  · intro hfits
    refine ⟨himage ▸ hfits.object, hsymbols ▸ hfits.external, ?_⟩
    rw [h.entryNames, hentries]
    exact hfits.entries

end Units

/-! ## The same tokens in two files -/

/-- Two files have the same tokens, but for blank lines, and the colons of the
one touch their labels if those of the other do. -/
structure SameTokens (tokens tokens' : List Token) : Prop where
  kinds : (squeeze tokens').map (fun token => (token.type, token.string)) =
    (squeeze tokens).map (fun token => (token.type, token.string))
  colons : ∀ (i : Nat) (label colon label' colon' : Token),
    (squeeze tokens)[i]? = some label → (squeeze tokens)[i + 1]? = some colon →
    (squeeze tokens')[i]? = some label' → (squeeze tokens')[i + 1]? = some colon' →
      LabelColon label colon → LabelColon label' colon'

/-- The tokens of the one list to those of the other. -/
def Respacing.between (tokens tokens' : List Token)
    (hkinds : tokens'.map (fun token => (token.type, token.string)) =
      tokens.map (fun token => (token.type, token.string))) : Respacing :=
  have hsame : ∀ token : Token,
      ((tokens'[tokens.idxOf token]?).getD token).type = token.type ∧
        ((tokens'[tokens.idxOf token]?).getD token).string = token.string := by
    intro token
    cases hfind : tokens'[tokens.idxOf token]? with
    | none => exact ⟨rfl, rfl⟩
    | some token' =>
        have hlength : tokens'.length = tokens.length := by
          have hmapped := congrArg List.length hkinds
          rwa [List.length_map, List.length_map] at hmapped
        have hlt : tokens.idxOf token < tokens.length := by
          rw [← hlength]
          exact (List.getElem?_eq_some_iff.mp hfind).1
        have hat : tokens[tokens.idxOf token]? = some token :=
          List.getElem?_idxOf (List.idxOf_lt_length_iff.mp hlt)
        have hkind := congrArg (fun kinds => kinds[tokens.idxOf token]?) hkinds
        simp only [List.getElem?_map, hfind, hat, Option.map_some, Option.some.injEq,
          Prod.mk.injEq] at hkind
        exact hkind
  { move := fun token => (tokens'[tokens.idxOf token]?).getD token
    type := fun token => (hsame token).1
    string := fun token => (hsame token).2 }

/-- The change between two lists turns the one into the other. -/
theorem Respacing.between_map {tokens tokens' : List Token} (hnodup : tokens.Nodup)
    (hkinds : tokens'.map (fun token => (token.type, token.string)) =
      tokens.map (fun token => (token.type, token.string))) :
    tokens.map (Respacing.between tokens tokens' hkinds).move = tokens' := by
  have hlength : tokens'.length = tokens.length := by
    have hmapped := congrArg List.length hkinds
    rwa [List.length_map, List.length_map] at hmapped
  apply List.ext_getElem
  · rw [List.length_map, hlength]
  · intro i hi hi'
    have hi'' : i < tokens.length := by rwa [List.length_map] at hi
    rw [List.getElem_map]
    show (tokens'[tokens.idxOf tokens[i]]?).getD tokens[i] = tokens'[i]
    rw [hnodup.idxOf_getElem i hi'', List.getElem?_eq_getElem hi', Option.getD_some]

/-- What a lexer puts out comes from one of its inputs. -/
theorem LexerOutput.exists_input {lexer : Lexer} (h : LexerOutput lexer) :
    ∃ input : LexerInput, lexer = lexerAnalyze input.lexer := by
  cases h with
  | cstr sourceString => exact ⟨.cstr sourceString, rfl⟩
  | file filePath contents => exact ⟨.file filePath contents, rfl⟩
  | string filePath sourceCode => exact ⟨.string filePath sourceCode, rfl⟩

section Lexed

variable {lexer : Lexer} (hlexed : LexerOutput lexer)

include hlexed

/-- The tokens of a file stand one behind the other. -/
theorem squeeze_ordered : (squeeze lexer.tokenList).Pairwise
    fun t u => t.index < u.index ∧ t.index + spanLength t ≤ u.index := by
  obtain ⟨input, rfl⟩ := hlexed.exists_input
  exact input.lossless.ordered.sublist (squeezeFrom_sublist true _)

/-- No token stands twice in a file. -/
theorem squeeze_nodup : (squeeze lexer.tokenList).Nodup := by
  rw [List.Nodup]
  apply (squeeze_ordered hlexed).imp
  intro t u hlt heq
  rw [heq] at hlt
  exact Nat.lt_irrefl _ hlt.1

/-- A colon that touches its label is the next token. -/
theorem LabelColon.next {label colon : Token} (h : LabelColon label colon)
    (hlabel : label ∈ squeeze lexer.tokenList) (hcolon : colon ∈ squeeze lexer.tokenList) :
    ∃ i, (squeeze lexer.tokenList)[i]? = some label ∧
      (squeeze lexer.tokenList)[i + 1]? = some colon := by
  have hordered := List.pairwise_iff_getElem.mp (squeeze_ordered hlexed)
  obtain ⟨i, hi, rfl⟩ := List.getElem_of_mem hlabel
  obtain ⟨j, hj, rfl⟩ := List.getElem_of_mem hcolon
  generalize squeeze lexer.tokenList = tokens at hordered hi hj h
  have hspan : spanLength tokens[i] = stringLength tokens[i].string := by
    rw [spanLength, if_neg (by rw [h.labelType]; decide)]
  have hadjacent := h.adjacent
  have hlt : i < j := by
    rcases Nat.lt_trichotomy i j with hlt | heq | hgt
    · exact hlt
    · subst heq
      have hboth := h.labelType.symm.trans h.colonType
      cases hboth
    · have hbefore := (hordered j i hj hi hgt).1
      omega
  have hnext : j = i + 1 := by
    by_contra hne
    have hfirst := hordered i (i + 1) hi (by omega) (by omega)
    have hsecond := hordered (i + 1) j (by omega) hj (by omega)
    omega
  exact ⟨i, List.getElem?_eq_getElem hi, hnext ▸ List.getElem?_eq_getElem hj⟩

/-- The change from the tokens of one file to those of another. -/
theorem SameTokens.respacing {tokens' : List Token} (h : SameTokens lexer.tokenList tokens') :
    ∃ r : Respacing, (squeeze lexer.tokenList).map r.move = squeeze tokens' ∧
      r.KeepsColons (squeeze lexer.tokenList) := by
  obtain ⟨r, hmap⟩ : ∃ r : Respacing,
      (squeeze lexer.tokenList).map r.move = squeeze tokens' :=
    ⟨_, Respacing.between_map (squeeze_nodup hlexed) h.kinds⟩
  refine ⟨r, hmap, ?_⟩
  intro label hlabel colon hcolon htouches
  obtain ⟨i, hi, hi'⟩ := htouches.next hlexed hlabel hcolon
  apply h.colons i label colon _ _ hi hi' _ _ htouches
  · rw [← hmap, List.getElem?_map, hi, Option.map_some]
  · rw [← hmap, List.getElem?_map, hi', Option.map_some]

end Lexed

/-- A file with the same tokens is accepted as well. -/
theorem Passed.sameTokens {lexer lexer' : Lexer} {unit : TranslationUnit}
    {analyzer : SemanticAnalyzer} (h : Passed lexer unit analyzer) (hlexed : LexerOutput lexer')
    (hsame : SameTokens lexer.tokenList lexer'.tokenList) :
    ∃ r unit' analyzer', Passed lexer' unit' analyzer' ∧ Respaced r unit unit' := by
  obtain ⟨r, hmap, hcolons⟩ := hsame.respacing h.lexed
  obtain ⟨ending, blocks, tokens, hprogram, rfl, -⟩ := parsedFrom_iff.mp h.parsed
  have hsqueezed := (program_squeeze_iff.mpr hprogram).respace hcolons (List.Subset.refl _)
  rw [hmap, program_squeeze_iff] at hsqueezed
  obtain ⟨tokens', hparse⟩ :=
    @Program.parsed (parserInitializeTranslationUnit lexer') _ _ hsqueezed
  have hunit := parsedFrom_iff.mpr ⟨ending, _, tokens', hsqueezed, rfl, hparse⟩
  have hrespaced := unitOf_respaced r lexer lexer' blocks tokens tokens'
  obtain ⟨analyzer₁, hanalyzed, hlegal⟩ := analyzeTranslationUnit_exact h.parsed.formed lexer
  obtain rfl := Except.ok.inj (h.analyzed.symm.trans hanalyzed)
  obtain ⟨analyzer', hanalyzed', hlegal'⟩ := analyzeTranslationUnit_exact hunit.formed lexer'
  exact ⟨r, _, analyzer', ⟨hlexed, hunit, hanalyzed',
    hlegal'.mpr (hrespaced.legal (hlegal.mp h.clean))⟩, hrespaced⟩

/-- **The same tokens give the same files.**  A file that has the tokens of an
accepted one, and colons that touch the same labels, is accepted as well, and
from there on both come to an end or neither does, with the same files
behind. -/
theorem generateCode_sameTokens {lexer lexer' : Lexer} {unit : TranslationUnit}
    {analyzer : SemanticAnalyzer} (h : Passed lexer unit analyzer) (hlexed : LexerOutput lexer')
    (hsame : SameTokens lexer.tokenList lexer'.tokenList) :
    ∃ unit' analyzer', Passed lexer' unit' analyzer' ∧
      ∀ (host : Host) (arg : Path) (files : FileSystem),
        ((∃ done, generateCode host arg lexer' unit' analyzer' files = .ok done) ↔
          ∃ done, generateCode host arg lexer unit analyzer files = .ok done) ∧
        ∀ worked worked' left left',
          generateCode host arg lexer unit analyzer files = .ok (worked, left) →
          generateCode host arg lexer' unit' analyzer' files = .ok (worked', left') →
            left' = left := by
  obtain ⟨r, unit', analyzer', hpassed, hrespaced⟩ := h.sameTokens hlexed hsame
  refine ⟨unit', analyzer', hpassed, fun host arg files => ?_⟩
  have hlookup : ∀ name, analyzer'.lookup name = analyzer.lookup name := by
    intro name
    rw [hpassed.table.1.lookup, h.table.1.lookup, hrespaced.declarations]
  have hobject := hrespaced.placed.objectFileText hlookup
  have hexternal := (hrespaced.placed.files hlookup).2
  have hprogram : ∀ written, withProgram host written (outputFile arg) analyzer' unit'.placed =
      withProgram host written (outputFile arg) analyzer unit.placed := by
    intro written
    rw [withProgram, hobject, hexternal, hrespaced.placed.entrySymbols, withProgram]
  obtain ⟨hreturns, hleaves⟩ := @generateCode_comes host arg _ _ _ h files
  obtain ⟨hreturns', hleaves'⟩ := @generateCode_comes host arg _ _ _ hpassed files
  constructor
  · rw [hreturns, hreturns', hrespaced.crossesUnlabelled, hrespaced.textsFit hlookup]
  · intro worked worked' left left' hrun hrun'
    rw [hleaves worked left hrun, hleaves' worked' left' hrun', hrespaced.memoryUsed, hprogram]

instance (label colon : Token) : Decidable (LabelColon label colon) :=
  decidable_of_iff (label.type = .identifier ∧ colon.type = .colon ∧
      label.index + stringLength label.string = colon.index)
    ⟨fun h => ⟨h.1, h.2.1, h.2.2⟩, fun h => ⟨h.labelType, h.colonType, h.adjacent⟩⟩

/-- A comment, a blank line and some blanks more. -/
theorem generateCode_sameTokens_sample : ∃ unit analyzer unit' analyzer',
    Passed (sampleLexer "A: mov r1,r2\n") unit analyzer ∧
      Passed (sampleLexer ";c\n\nA:  mov r1 , r2 ;x\n") unit' analyzer' ∧
      ∀ (host : Host) (arg : Path) (files : FileSystem),
        ((∃ done, generateCode host arg (sampleLexer ";c\n\nA:  mov r1 , r2 ;x\n") unit' analyzer'
            files = .ok done) ↔
          ∃ done, generateCode host arg (sampleLexer "A: mov r1,r2\n") unit analyzer files =
            .ok done) ∧
        ∀ worked worked' left left',
          generateCode host arg (sampleLexer "A: mov r1,r2\n") unit analyzer files =
            .ok (worked, left) →
          generateCode host arg (sampleLexer ";c\n\nA:  mov r1 , r2 ;x\n") unit' analyzer' files =
            .ok (worked', left') →
            left' = left := by
  have haccepts : acceptsWith (fun _ => true) (sampleLexer "A: mov r1,r2\n") = true := by
    decide +kernel
  obtain ⟨unit, analyzer, generator, placed, h, -⟩ := exists_accepted (.file _ _) haccepts
  have hsame : SameTokens (sampleLexer "A: mov r1,r2\n").tokenList
      (sampleLexer ";c\n\nA:  mov r1 , r2 ;x\n").tokenList := by
    constructor
    · decide +kernel
    · intro i label colon label' colon' hlabel hcolon hlabel' hcolon'
      have hall : ∀ i < (squeeze (sampleLexer "A: mov r1,r2\n").tokenList).length,
          ∀ label ∈ (squeeze (sampleLexer "A: mov r1,r2\n").tokenList)[i]?,
          ∀ colon ∈ (squeeze (sampleLexer "A: mov r1,r2\n").tokenList)[i + 1]?,
          ∀ label' ∈ (squeeze (sampleLexer ";c\n\nA:  mov r1 , r2 ;x\n").tokenList)[i]?,
          ∀ colon' ∈ (squeeze (sampleLexer ";c\n\nA:  mov r1 , r2 ;x\n").tokenList)[i + 1]?,
          LabelColon label colon → LabelColon label' colon' := by decide +kernel
      exact hall i (List.getElem?_eq_some_iff.mp hlabel).1 label hlabel colon hcolon
        label' hlabel' colon' hcolon'
  obtain ⟨unit', analyzer', hpassed, hfiles⟩ :=
    generateCode_sameTokens h.passed (.file _ _) hsame
  exact ⟨unit, analyzer, unit', analyzer', h.passed, hpassed, hfiles⟩

end Assembler
