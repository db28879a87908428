import CLab.Parser

/-!
# The grammar of the parser

The token lists `parse_translation_unit_content` accepts, and the statements in
them, as derivations.  Every relation reads a statement off the front of a token
list and keeps what is left.  A list may end in three ways (`Ending`): with the
end of the file behind a closed line, with a `.data` line whose comma stands
directly in front of the end of the file, or without an end-of-file token.  The
lists of the first kind are the programs of the language; the parser accepts
the other two as well.
-/

namespace Assembler

/-- How a token list ends. -/
inductive Ending
  | closed
  | comma
  | cut
deriving DecidableEq

/-- The end of a line: an end of line, which is taken, or the end of the file,
which stays. -/
inductive LineEnd : List Token → List Token → Prop
  | eol {token : Token} {rest : List Token} (heol : token.type = .eol) :
      LineEnd (token :: rest) rest
  | eoft {token : Token} {rest : List Token} (heoft : token.type = .eoft) :
      LineEnd (token :: rest) (token :: rest)
  | null : LineEnd [] []

/-- An operand: its token, whether it is dereferenced, and what is left. -/
inductive Operand : List Token → Token → Bool → List Token → Prop
  | immediate {hashtag number : Token} {rest : List Token}
      (hhashtag : hashtag.type = .hashtag) (hnumber : number.type = .number) :
      Operand (hashtag :: number :: rest) number false rest
  | direct {operand : Token} {rest : List Token}
      (hoperand : operand.type = .register ∨ operand.type = .identifier) :
      Operand (operand :: rest) operand false rest
  | dereferenced {star operand : Token} {rest : List Token} (hstar : star.type = .star)
      (hoperand : operand.type = .register ∨ operand.type = .identifier) :
      Operand (star :: operand :: rest) operand true rest

/-- An instruction up to the end of its line.  At the end of a list without an
end of the file the second operand may be missing behind its comma. -/
inductive Instruction : Ending → List Token → InstructionNode → List Token → Prop
  | noOperands {operation : Token} {after : List Token}
      (hop : isInstructionToken operation.type = true) (hend : atLineEnd after = true) :
      Instruction .closed (operation :: after)
        { InstructionNode.zero with operation := some operation } after
  | oneOperand {operation first : Token} {tokens after : List Token} {firstDeref : Bool}
      (hop : isInstructionToken operation.type = true)
      (hfirst : Operand tokens first firstDeref after) (hend : atLineEnd after = true) :
      Instruction .closed (operation :: tokens)
        { InstructionNode.zero with
          operation := some operation
          firstOperand := some first
          isFirstOperandDerefrenced := firstDeref } after
  | twoOperands {operation first comma second : Token} {tokens tokens' after : List Token}
      {firstDeref secondDeref : Bool}
      (hop : isInstructionToken operation.type = true)
      (hfirst : Operand tokens first firstDeref (comma :: tokens'))
      (hcomma : comma.type = .comma)
      (hsecond : Operand tokens' second secondDeref after) (hend : atLineEnd after = true) :
      Instruction .closed (operation :: tokens)
        { operation := some operation
          firstOperand := some first
          secondOperand := some second
          isFirstOperandDerefrenced := firstDeref
          isSecondOperandDerefrenced := secondDeref
          hasParserError := false } after
  | cut {operation first comma : Token} {tokens : List Token} {firstDeref : Bool}
      (hop : isInstructionToken operation.type = true)
      (hfirst : Operand tokens first firstDeref [comma]) (hcomma : comma.type = .comma) :
      Instruction .cut (operation :: tokens)
        { InstructionNode.zero with
          operation := some operation
          firstOperand := some first
          isFirstOperandDerefrenced := firstDeref
          hasParserError := true } []

/-- The numbers of a `.data` line and the end of the line. -/
inductive Numbers : Ending → List Token → List Token → List Token → Prop
  | last {number : Token} {after rest : List Token}
      (hnumber : number.type = .number) (hend : LineEnd after rest) :
      Numbers .closed (number :: after) [number] rest
  | comma {number comma eof : Token} {rest : List Token}
      (hnumber : number.type = .number) (hcomma : comma.type = .comma)
      (heof : eof.type = .eoft) :
      Numbers .comma (number :: comma :: eof :: rest) [number] (eof :: rest)
  | cut {number comma : Token}
      (hnumber : number.type = .number) (hcomma : comma.type = .comma) :
      Numbers .cut [number, comma] [number] []
  | cons {ending : Ending} {number comma : Token} {tokens numbers rest : List Token}
      (hnumber : number.type = .number) (hcomma : comma.type = .comma)
      (tail : Numbers ending tokens numbers rest) :
      Numbers ending (number :: comma :: tokens) (number :: numbers) rest

/-- A `.data` or a `.string` line. -/
inductive GuidanceLine : Ending → List Token → GuidanceNode → List Token → Prop
  | data {ending : Ending} {directive : Token} {tokens numbers rest : List Token}
      (hdirective : directive.type = .dataIns)
      (hnumbers : Numbers ending tokens numbers rest) :
      GuidanceLine ending (directive :: tokens)
        (.dataNode { dataNumbers := numbers.map some, hasParserError := false }) rest
  | string {directive string : Token} {after rest : List Token}
      (hdirective : directive.type = .stringIns) (hstring : string.type = .string)
      (hend : LineEnd after rest) :
      GuidanceLine .closed (directive :: string :: after)
        (.stringNode { stringLabel := some string, hasParserError := false }) rest

section Lines

variable {α : Type} (Line : Ending → List Token → α → List Token → Prop)

/-- Lines of one kind, and blank lines; the end of line that an instruction
leaves counts as one.  Only the last line may end otherwise than closed. -/
inductive Lines : Ending → List Token → List α → List Token → Prop
  | nil (tokens : List Token) : Lines .closed tokens [] tokens
  | blank {ending : Ending} {eol : Token} {tokens rest : List Token} {nodes : List α}
      (heol : eol.type = .eol) (tail : Lines ending tokens nodes rest) :
      Lines ending (eol :: tokens) nodes rest
  | cons {ending : Ending} {tokens middle rest : List Token} {node : α} {nodes : List α}
      (hline : Line .closed tokens node middle) (tail : Lines ending middle nodes rest) :
      Lines ending tokens (node :: nodes) rest
  | last {ending : Ending} {tokens rest : List Token} {node : α}
      (hending : ending ≠ .closed) (hline : Line ending tokens node rest) :
      Lines ending tokens [node] rest

end Lines

/-- What a line, or a block of lines, stands for. -/
inductive Block
  | skipped
  | external (label : Token)
  | entry (label : Token)
  | instructions (label : Token) (nodes : List InstructionNode)
  | guidance (label : Option Token) (nodes : List GuidanceNode)

/-- A label and the colon that touches it. -/
structure LabelColon (label colon : Token) : Prop where
  labelType : label.type = .identifier
  colonType : colon.type = .colon
  adjacent : label.index + stringLength label.string = colon.index

/-- A block: a label and instructions, or directives, with or without a label.
A run of lines may be preceded by blank lines. -/
inductive BlockLines : Ending → List Token → Block → List Token → Prop
  | instructions {ending : Ending} {label colon : Token} {tokens rest : List Token}
      {nodes : List InstructionNode}
      (hlabel : LabelColon label colon)
      (hlines : Lines Instruction ending tokens nodes rest) (hnodes : nodes ≠ []) :
      BlockLines ending (label :: colon :: tokens) (.instructions label nodes) rest
  | labelled {ending : Ending} {label colon : Token} {tokens rest : List Token}
      {nodes : List GuidanceNode}
      (hlabel : LabelColon label colon)
      (hlines : Lines GuidanceLine ending tokens nodes rest) (hnodes : nodes ≠ []) :
      BlockLines ending (label :: colon :: tokens) (.guidance (some label) nodes) rest
  | unlabelled {ending : Ending} {tokens rest : List Token} {nodes : List GuidanceNode}
      (hlines : Lines GuidanceLine ending tokens nodes rest) (hnodes : nodes ≠ []) :
      BlockLines ending tokens (.guidance none nodes) rest

/-- A token list that the parser accepts, and its blocks.  Nothing behind the
end of the file is read. -/
inductive Program : Ending → List Token → List Block → Prop
  | eoft {eof : Token} {rest : List Token} (heof : eof.type = .eoft) :
      Program .closed (eof :: rest) []
  | null : Program .cut [] []
  | blank {ending : Ending} {eol : Token} {tokens : List Token} {blocks : List Block}
      (heol : eol.type = .eol) (tail : Program ending tokens blocks) :
      Program ending (eol :: tokens) blocks
  | skipped {ending : Ending} {token : Token} {line after rest : List Token}
      {blocks : List Block}
      (htoken : token.type = .macr ∨ token.type = .endmacr)
      (hline : ∀ t ∈ line, t.type ≠ .eol ∧ t.type ≠ .eoft)
      (hend : LineEnd after rest) (tail : Program ending rest blocks) :
      Program ending (token :: (line ++ after)) (.skipped :: blocks)
  | external {ending : Ending} {directive label : Token} {after rest : List Token}
      {blocks : List Block}
      (hdirective : directive.type = .externIns) (hlabel : label.type = .identifier)
      (hend : LineEnd after rest) (tail : Program ending rest blocks) :
      Program ending (directive :: label :: after) (.external label :: blocks)
  | entry {ending : Ending} {directive label : Token} {after rest : List Token}
      {blocks : List Block}
      (hdirective : directive.type = .entryIns) (hlabel : label.type = .identifier)
      (hend : LineEnd after rest) (tail : Program ending rest blocks) :
      Program ending (directive :: label :: after) (.entry label :: blocks)
  | block {ending : Ending} {tokens rest : List Token} {block : Block} {blocks : List Block}
      (hblock : BlockLines .closed tokens block rest) (tail : Program ending rest blocks) :
      Program ending tokens (block :: blocks)
  | lastBlock {ending : Ending} {tokens rest : List Token} {block : Block}
      (hending : ending ≠ .closed) (hblock : BlockLines ending tokens block rest) :
      Program ending tokens [block]
  | labelCut {label colon : Token} {blanks : List Token}
      (hlabel : LabelColon label colon) (hblanks : ∀ t ∈ blanks, t.type = .eol) :
      Program .cut (label :: colon :: blanks) []

/-! ## The lists of a program -/

/-- A block in front of others: directives without a label belong to the
directives in front of them. -/
def joinBlock (block : Block) (blocks : List Block) : List Block :=
  match block, blocks with
  | .guidance label nodes, .guidance none nodes' :: rest =>
      .guidance label (nodes ++ nodes') :: rest
  | block, blocks => block :: blocks

/-- The blocks as the parser builds them, with runs of directives as long as
they can be. -/
def mergeBlocks (blocks : List Block) : List Block :=
  blocks.foldr joinBlock []

/-- The node of an external. -/
def Block.externalNode : Block → Option ExternalNode
  | .external label => some { externalLabel := some label, hasParserError := false }
  | _ => none

/-- The node of an entry. -/
def Block.entryNode : Block → Option EntryNode
  | .entry label => some { entryLabel := some label, hasParserError := false }
  | _ => none

/-- The node of a label with instructions. -/
def Block.instructionLabel : Block → Option LabelNode
  | .instructions label nodes =>
      some { LabelNode.zero with label := some label, instructionList := nodes }
  | _ => none

/-- The node of a label with directives. -/
def Block.guidanceLabel : Block → Option LabelNode
  | .guidance label nodes =>
      some { LabelNode.zero with label := label, guidanceList := nodes }
  | _ => none

/-- The unit with the statements of the given blocks behind its own, and the
cursor at the given tokens. -/
def TranslationUnit.withBlocks (unit : TranslationUnit) (blocks : List Block)
    (tokens : List Token) : TranslationUnit :=
  { externalList := unit.externalList ++ blocks.filterMap Block.externalNode
    entryList := unit.entryList ++ blocks.filterMap Block.entryNode
    instructionLabelList :=
      unit.instructionLabelList ++ blocks.filterMap Block.instructionLabel
    guidanceLabelList := unit.guidanceLabelList ++ blocks.filterMap Block.guidanceLabel
    errorHandler := unit.errorHandler
    tokens := tokens }

end Assembler
