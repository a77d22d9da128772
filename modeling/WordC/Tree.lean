/-!
# Syntax trees

The rules of the grammar that a source text went through, down to the texts of its tokens.
-/

namespace WordC

inductive Rule where
  | program
  | globalDeclaration
  | enumDeclaration
  | functionDeclaration
  | parameters
  | block
  | localDeclaration
  | ifStatement
  | whileStatement
  | returnStatement
  | expressionStatement
  | assignment
  | logicalOr
  | logicalAnd
  | bitOr
  | bitXor
  | bitAnd
  | equality
  | relational
  | additive
  | multiplicative
  | unary
  | call
deriving DecidableEq, Inhabited

namespace Rule

def all : List Rule := [
  program, globalDeclaration, enumDeclaration, functionDeclaration, parameters, block,
  localDeclaration, ifStatement, whileStatement, returnStatement, expressionStatement, assignment,
  logicalOr, logicalAnd, bitOr, bitXor, bitAnd, equality, relational, additive, multiplicative,
  unary, call]

def name : Rule → String
  | program => "program"
  | globalDeclaration => "global_declaration"
  | enumDeclaration => "enum_declaration"
  | functionDeclaration => "function_declaration"
  | parameters => "parameters"
  | block => "block"
  | localDeclaration => "local_declaration"
  | ifStatement => "if_statement"
  | whileStatement => "while_statement"
  | returnStatement => "return_statement"
  | expressionStatement => "expression_statement"
  | assignment => "assignment"
  | logicalOr => "logical_or"
  | logicalAnd => "logical_and"
  | bitOr => "bit_or"
  | bitXor => "bit_xor"
  | bitAnd => "bit_and"
  | equality => "equality"
  | relational => "relational"
  | additive => "additive"
  | multiplicative => "multiplicative"
  | unary => "unary"
  | call => "call"

/-- Levels of an expression, which do not show where they have a single child. -/
def isTransparent : Rule → Bool
  | logicalOr | logicalAnd | bitOr | bitXor | bitAnd | equality | relational | additive
  | multiplicative | unary => true
  | _ => false

end Rule

inductive Tree where
  | node (rule : Rule) (children : List Tree)
  | terminal (text : String)
deriving Inhabited

namespace Tree

def rule? : Tree → Option Rule
  | node rule _ => some rule
  | terminal _ => none

def children : Tree → List Tree
  | node _ children => children
  | terminal _ => []

mutual

/-- The texts of the tokens, from left to right. -/
def terminals : Tree → List String
  | node _ children => forestTerminals children
  | terminal text => [text]

def forestTerminals : List Tree → List String
  | [] => []
  | tree :: rest => tree.terminals ++ forestTerminals rest

end

/-- A node of the rule, or its only child where the rule does not show. -/
def ofRule (rule : Rule) (children : List Tree) : Tree :=
  match rule.isTransparent, children with
  | true, [child] => child
  | _, _ => node rule children

end Tree

end WordC
