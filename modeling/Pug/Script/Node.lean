import Pug.Expression.Basic

/-!
# Nodes of JavaScript

What is told about a piece of JavaScript: the kind of its outermost construct, and whether that is
a call of a plain name.
-/

namespace Pug.Script

/-- The kinds of constructs. -/
inductive NodeKind where
  | identifier
  | number
  | string
  | templateString
  | array
  | object
  | memberExpression
  | subscriptExpression
  | callExpression
  | newExpression
  | unaryExpression
  | updateExpression
  | binaryExpression
  | assignmentExpression
  | augmentedAssignmentExpression
  | ternaryExpression
  | arrowFunction
  | functionExpression
  | parenthesizedExpression
  | sequenceExpression
  | null
  | undefined
  | true
  | false
  | this
  | comment
  | expressionStatement
  | variableDeclaration
  | lexicalDeclaration
  | functionDeclaration
  | returnStatement
  | throwStatement
  | ifStatement
  | whileStatement
  | forStatement
  | forInStatement
  | breakStatement
  | continueStatement
  | labeledStatement
  | statementBlock
  | emptyStatement
deriving DecidableEq, Repr

/-- The name of a kind. -/
def NodeKind.name : NodeKind → String
  | identifier => "identifier"
  | number => "number"
  | string => "string"
  | templateString => "template_string"
  | array => "array"
  | object => "object"
  | memberExpression => "member_expression"
  | subscriptExpression => "subscript_expression"
  | callExpression => "call_expression"
  | newExpression => "new_expression"
  | unaryExpression => "unary_expression"
  | updateExpression => "update_expression"
  | binaryExpression => "binary_expression"
  | assignmentExpression => "assignment_expression"
  | augmentedAssignmentExpression => "augmented_assignment_expression"
  | ternaryExpression => "ternary_expression"
  | arrowFunction => "arrow_function"
  | functionExpression => "function_expression"
  | parenthesizedExpression => "parenthesized_expression"
  | sequenceExpression => "sequence_expression"
  | null => "null"
  | undefined => "undefined"
  | true => "true"
  | false => "false"
  | this => "this"
  | comment => "comment"
  | expressionStatement => "expression_statement"
  | variableDeclaration => "variable_declaration"
  | lexicalDeclaration => "lexical_declaration"
  | functionDeclaration => "function_declaration"
  | returnStatement => "return_statement"
  | throwStatement => "throw_statement"
  | ifStatement => "if_statement"
  | whileStatement => "while_statement"
  | forStatement => "for_statement"
  | forInStatement => "for_in_statement"
  | breakStatement => "break_statement"
  | continueStatement => "continue_statement"
  | labeledStatement => "labeled_statement"
  | statementBlock => "statement_block"
  | emptyStatement => "empty_statement"

/-- What is told about a piece of JavaScript. -/
structure Node where
  kind : NodeKind
  /-- A call whose callee is a plain name. -/
  callsName : Bool
deriving DecidableEq, Repr

namespace Node

/-- A node that is no call of a plain name. -/
def ofKind (kind : NodeKind) : Node := ⟨kind, .false⟩

/-- The shape of a node. -/
def shape (n : Node) : Shape :=
  if n.kind = .identifier then .identifier
  else if n.callsName then .callOnIdentifier
  else .other

end Node

/-- The part that a piece of JavaScript can play in a pattern, which takes a value apart and assigns
or binds the pieces. -/
inductive PatternRole where
  | none
  /-- Something that a value is assigned to. -/
  | target
  /-- A target with the value that it has by default. -/
  | defaulted
deriving DecidableEq, Repr

/-- A piece of JavaScript that was read before it is known what it is used for: a value, or a part
of a pattern. -/
structure Phrase where
  node : Node
  isValue : Bool
  role : PatternRole
  /-- How many patterns there are in the phrase if it is one. -/
  parts : Nat
deriving DecidableEq, Repr

namespace Phrase

/-- A value that no pattern can hold. -/
def value (kind : NodeKind) : Phrase := ⟨.ofKind kind, .true, .none, 0⟩

/-- A value that can be assigned to. -/
def place (kind : NodeKind) : Phrase := ⟨.ofKind kind, .true, .target, 0⟩

/-- An assignment to a phrase. As a part of a pattern it is a target and its default. -/
def assignment (p : Phrase) : Phrase :=
  ⟨.ofKind .assignmentExpression, .true, if p.role = .target then .defaulted else .none, 0⟩

/-- A call of a phrase. -/
def call (p : Phrase) : Phrase :=
  ⟨⟨.callExpression, p.node.kind = .identifier⟩, .true, .none, 0⟩

/-- A value can be assigned to the phrase. -/
def isAssignable (p : Phrase) : Bool :=
  p.role = .target || p.node.kind = .parenthesizedExpression

/-- The result of an operation can be assigned to the phrase which is its first operand. -/
def isAugmentable (p : Phrase) : Bool :=
  match p.node.kind with
  | .identifier | .memberExpression | .subscriptExpression | .parenthesizedExpression => .true
  | _ => .false

/-- The phrase can be constructed by a `new`. -/
def isConstructible (p : Phrase) : Bool :=
  p.node.kind ≠ .unaryExpression && p.node.kind ≠ .updateExpression

/-- A template string can stand behind the phrase. -/
def takesTemplate (p : Phrase) : Bool :=
  p.node.kind ≠ .updateExpression

/-- Arguments can stand behind the phrase and a `?.`. -/
def takesOptionalArguments (p : Phrase) : Bool :=
  p.node.kind ≠ .updateExpression && p.node.kind ≠ .newExpression

end Phrase

/-- What an operand is read for. -/
inductive Operand where
  /-- All that belongs to it. -/
  | whole
  /-- The operand of an operator that steps a value. Another one behind it steps the new value. -/
  | unstepped
  /-- What a `new` constructs. Arguments behind it are those of the `new`. -/
  | constructor
deriving DecidableEq, Repr

namespace Operand

/-- An assignment to the operand belongs to it. -/
def assigns (o : Operand) : Bool := o ≠ .constructor

/-- An operator that steps the value of `p` belongs to the operand which starts with `p`. -/
def steps (o : Operand) (p : Phrase) : Bool :=
  o = .whole || (o = .constructor && p.node.kind = .updateExpression)

/-- Arguments behind `p` belong to the operand which starts with `p`. -/
def calls (o : Operand) (p : Phrase) : Bool :=
  o ≠ .constructor || p.node.kind = .updateExpression

/-- A member of `p` belongs to the operand which starts with `p`. -/
def selects (o : Operand) (p : Phrase) : Bool :=
  o ≠ .constructor || p.node.kind ≠ .newExpression

end Operand

/-- What brackets or braces and all in them can be used as. -/
structure Uses where
  asValue : Bool
  asPattern : Bool
  /-- How many patterns there are in a pattern. -/
  parts : Nat
deriving DecidableEq, Repr

namespace Uses

/-- A value that no pattern can hold. -/
def onlyValue : Uses := ⟨.true, .false, 0⟩

/-- A pattern that is no value, with so many patterns in it. -/
def onlyPattern (parts : Nat) : Uses := ⟨.false, .true, parts⟩

/-- Anything. -/
def all : Uses := ⟨.true, .true, 0⟩

/-- What both of two parts can be used as. -/
def and (u v : Uses) : Uses :=
  ⟨u.asValue && v.asValue, u.asPattern && v.asPattern, u.parts + v.parts⟩

@[simp] theorem all_and (u : Uses) : all.and u = u := by
  simp [all, and]

@[simp] theorem and_all (u : Uses) : u.and all = u := by
  simp [all, and]

theorem and_assoc (u v w : Uses) : (u.and v).and w = u.and (v.and w) := by
  simp [and, Bool.and_assoc, Nat.add_assoc]

/-- The uses of an element, or of the value of a key. -/
def ofPhrase (p : Phrase) : Uses := ⟨p.isValue, p.role ≠ .none, p.parts + 1⟩

/-- The uses of what stands behind three dots. It has no default. -/
def ofRest (p : Phrase) : Uses := ⟨p.isValue, p.role = .target, p.parts + 1⟩

/-- Brackets or braces with these uses. -/
def phrase (u : Uses) (kind : NodeKind) : Phrase :=
  ⟨.ofKind kind, u.asValue, if u.asPattern then .target else .none, u.parts⟩

end Uses

end Pug.Script
