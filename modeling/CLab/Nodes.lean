import CLab.Token

/-!
# The nodes of a parsed program

`nodes.h`.  A pointer to a token that may be `NULL` is an optional token, and a
linked list is a list, empty where the source has `NULL`.  The tag of a guidance
node is its constructor.
-/

namespace Assembler

/-- An `.entry` line: its name, and whether the parser found fault with it. -/
structure EntryNode where
  entryLabel : Option Token
  hasParserError : Bool
deriving DecidableEq

/-- An `.extern` line, in the same way. -/
structure ExternalNode where
  externalLabel : Option Token
  hasParserError : Bool
deriving DecidableEq

/-- A `.data` line: a token for each number. -/
structure DataNode where
  dataNumbers : List (Option Token)
  hasParserError : Bool
deriving DecidableEq

/-- A `.string` line: the token of its literal. -/
structure StringNode where
  stringLabel : Option Token
  hasParserError : Bool
deriving DecidableEq

/-- What `parse_operand` gives back: a token, and whether a star stood in front of it. -/
structure InstructionOperand where
  operand : Option Token
  isDereferenced : Bool
deriving DecidableEq

/-- An instruction: the token of the operation, up to two operands, and whether they are
dereferenced. -/
structure InstructionNode where
  operation : Option Token
  firstOperand : Option Token
  secondOperand : Option Token
  isFirstOperandDerefrenced : Bool
  isSecondOperandDerefrenced : Bool
  hasParserError : Bool
deriving DecidableEq

/-- The union of the two kinds of directives. -/
inductive GuidanceNode
  | dataNode (node : DataNode)
  | stringNode (node : StringNode)
deriving DecidableEq

/-- Sizes and positions count characters and tokens of a text whose length is
an `int`, so they never wrap. -/
structure LabelNode where
  label : Option Token
  instructionList : List InstructionNode
  guidanceList : List GuidanceNode
  size : Nat
  position : Nat
deriving DecidableEq

/-- What the parser builds, with the tokens it has not read yet and the errors so far. -/
structure TranslationUnit where
  externalList : List ExternalNode
  entryList : List EntryNode
  instructionLabelList : List LabelNode
  guidanceLabelList : List LabelNode
  errorHandler : ErrorHandler
  tokens : List Token

/-- All fields zero. -/
def InstructionNode.zero : InstructionNode where
  operation := none
  firstOperand := none
  secondOperand := none
  isFirstOperandDerefrenced := false
  isSecondOperandDerefrenced := false
  hasParserError := false

/-- A node whose fields are all zero, as `parse_labeled_statement` begins with it. -/
def LabelNode.zero : LabelNode where
  label := none
  instructionList := []
  guidanceList := []
  size := 0
  position := 0

end Assembler
