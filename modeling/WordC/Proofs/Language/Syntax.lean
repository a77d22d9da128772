import WordC.Instruction
import WordC.Token.Kind

/-!
# The grammar

A tree of this module is a derivation of the grammar: each constructor is a production and `tokens`
is the text it derives, as kinds of tokens. Two rules go beyond productions. Operators bind by rank,
which `isGrammatical` checks against the rank of their operands, and an `else` belongs to the
nearest `if`, so the branch in front of it may not end in an `if` that could take it.
-/

namespace WordC.Syntax

/-- Parts with a comma in front of each. -/
def further (parts : List (List Token.Kind)) : List Token.Kind :=
  parts.flatMap (.punctuator .comma :: ·)

/-- Parts with a comma between each two. -/
def separated : List (List Token.Kind) → List Token.Kind
  | [] => []
  | part :: rest => part ++ further rest

/-! ## Expressions -/

inductive Literal where
  | number (value : Word)
  | character (c : Char)

def Literal.kind : Literal → Token.Kind
  | number value => .number value
  | character c => .character c

def Literal.value : Literal → Word
  | number value => value
  | character c => Word.ofCount c.toNat

inductive Unary where
  | minus
  | plus
  | bang
  | tilde
  /-- The word at an address. -/
  | star

def Unary.mark : Unary → Punctuator
  | minus => .minus
  | plus => .plus
  | bang => .bang
  | tilde => .tilde
  | star => .star

/-- Operators that evaluate their right operand only if the left one leaves the result open. -/
inductive Connective where
  | disjunction
  | conjunction

inductive Binary where
  | logical (connective : Connective)
  | word (operator : Operator)

def Binary.mark : Binary → Punctuator
  | logical .disjunction => .pipePipe
  | logical .conjunction => .ampAmp
  | word .or => .pipe
  | word .xor => .caret
  | word .and => .amp
  | word .eq => .equalEqual
  | word .ne => .bangEqual
  | word .lt => .less
  | word .gt => .greater
  | word .le => .lessEqual
  | word .ge => .greaterEqual
  | word .add => .plus
  | word .sub => .minus
  | word .mul => .star
  | word .div => .slash
  | word .mod => .percent

/-- How tightly an operator binds. -/
def Binary.rank : Binary → Nat
  | logical .disjunction => 0
  | logical .conjunction => 1
  | word .or => 2
  | word .xor => 3
  | word .and => 4
  | word .eq | word .ne => 5
  | word .lt | word .gt | word .le | word .ge => 6
  | word .add | word .sub => 7
  | word .mul | word .div | word .mod => 8

/-- The rank of expressions that are no binary operation. -/
def operandRank : Nat := 9

inductive Expr where
  | literal (value : Literal)
  | string (text : String)
  | sizeof (type : TypeName)
  | name (identifier : String)
  | addressOf (identifier : String)
  | unary (op : Unary) (operand : Expr)
  | binary (op : Binary) (left right : Expr)
  | call (callee : String) (arguments : List Expr)
  | group (inner : Expr)

namespace Expr

def rank : Expr → Nat
  | binary op _ _ => op.rank
  | _ => operandRank

mutual

def tokens : Expr → List Token.Kind
  | literal value => [value.kind]
  | string text => [.string text]
  | sizeof type =>
      [.keyword .sizeofKw, .punctuator .leftParen, .keyword (.type type), .punctuator .rightParen]
  | name identifier => [.identifier identifier]
  | addressOf identifier => [.punctuator .amp, .identifier identifier]
  | unary op operand => .punctuator op.mark :: operand.tokens
  | binary op left right => left.tokens ++ .punctuator op.mark :: right.tokens
  | call callee arguments =>
      .identifier callee :: .punctuator .leftParen ::
        (argumentTokens arguments ++ [.punctuator .rightParen])
  | group inner => .punctuator .leftParen :: (inner.tokens ++ [.punctuator .rightParen])

def argumentTokens : List Expr → List Token.Kind
  | [] => []
  | argument :: rest => argument.tokens ++ furtherTokens rest

def furtherTokens : List Expr → List Token.Kind
  | [] => []
  | argument :: rest => .punctuator .comma :: (argument.tokens ++ furtherTokens rest)

end

mutual

/-- Whether every operand binds at least as tightly as its place demands. Operators of one rank
associate to the left. -/
def isGrammatical : Expr → Bool
  | unary _ operand => operand.rank == operandRank && operand.isGrammatical
  | binary op left right =>
      decide (op.rank ≤ left.rank) && decide (op.rank < right.rank) &&
        left.isGrammatical && right.isGrammatical
  | call _ arguments => areGrammatical arguments
  | group inner => inner.isGrammatical
  | _ => true

def areGrammatical : List Expr → Bool
  | [] => true
  | argument :: rest => argument.isGrammatical && areGrammatical rest

end

end Expr

/-! ## Statements -/

/-- A variable in a declaration. -/
structure Declarator where
  name : String
  initial : Option Expr

def Declarator.tokens (declarator : Declarator) : List Token.Kind :=
  .identifier declarator.name ::
    match declarator.initial with
    | none => []
    | some value => .punctuator .equal :: value.tokens

def Declarator.isGrammatical (declarator : Declarator) : Bool :=
  declarator.initial.all Expr.isGrammatical

structure Declaration where
  type : TypeName
  first : Declarator
  rest : List Declarator

namespace Declaration

def declarators (declaration : Declaration) : List Declarator :=
  declaration.first :: declaration.rest

def tokens (declaration : Declaration) : List Token.Kind :=
  .keyword (.type declaration.type) ::
    (separated (declaration.declarators.map Declarator.tokens) ++ [.punctuator .semicolon])

def isGrammatical (declaration : Declaration) : Bool :=
  declaration.declarators.all Declarator.isGrammatical

end Declaration

inductive Stmt where
  | empty
  | block (declarations : List Declaration) (body : List Stmt)
  | ifThen (condition : Expr) (consequence : Stmt)
  | ifElse (condition : Expr) (consequence alternative : Stmt)
  | whileLoop (condition : Expr) (body : Stmt)
  | leave (value : Option Expr)
  | assign (target : String) (value : Expr)
  | evaluate (value : Expr)

namespace Stmt

mutual

def tokens : Stmt → List Token.Kind
  | empty => [.punctuator .semicolon]
  | block declarations body =>
      .punctuator .leftBrace ::
        (declarations.flatMap Declaration.tokens ++ bodyTokens body ++ [.punctuator .rightBrace])
  | ifThen condition consequence =>
      .keyword .ifKw :: .punctuator .leftParen ::
        (condition.tokens ++ .punctuator .rightParen :: consequence.tokens)
  | ifElse condition consequence alternative =>
      .keyword .ifKw :: .punctuator .leftParen ::
        (condition.tokens ++ .punctuator .rightParen ::
          (consequence.tokens ++ .keyword .elseKw :: alternative.tokens))
  | whileLoop condition body =>
      .keyword .whileKw :: .punctuator .leftParen ::
        (condition.tokens ++ .punctuator .rightParen :: body.tokens)
  | leave none => [.keyword .returnKw, .punctuator .semicolon]
  | leave (some value) => .keyword .returnKw :: (value.tokens ++ [.punctuator .semicolon])
  | assign target value =>
      .identifier target :: .punctuator .equal :: (value.tokens ++ [.punctuator .semicolon])
  | evaluate value => value.tokens ++ [.punctuator .semicolon]

def bodyTokens : List Stmt → List Token.Kind
  | [] => []
  | statement :: rest => statement.tokens ++ bodyTokens rest

end

/-- Whether the statement ends in an `if` that an `else` behind it would belong to. -/
def endsOpen : Stmt → Bool
  | ifThen _ _ => true
  | ifElse _ _ alternative => alternative.endsOpen
  | whileLoop _ body => body.endsOpen
  | _ => false

mutual

def isGrammatical : Stmt → Bool
  | empty => true
  | block declarations body => declarations.all Declaration.isGrammatical && areGrammatical body
  | ifThen condition consequence => condition.isGrammatical && consequence.isGrammatical
  | ifElse condition consequence alternative =>
      condition.isGrammatical && consequence.isGrammatical && !consequence.endsOpen &&
        alternative.isGrammatical
  | whileLoop condition body => condition.isGrammatical && body.isGrammatical
  | leave value => value.all Expr.isGrammatical
  | assign _ value => value.isGrammatical
  | evaluate value => value.isGrammatical

def areGrammatical : List Stmt → Bool
  | [] => true
  | statement :: rest => statement.isGrammatical && areGrammatical rest

end

end Stmt

/-! ## Files -/

/-- An integer or a character, which may be negated. -/
structure Constant where
  negative : Bool
  literal : Literal

def Constant.tokens (constant : Constant) : List Token.Kind :=
  (if constant.negative then [.punctuator .minus] else []) ++ [constant.literal.kind]

def Constant.value (constant : Constant) : Word :=
  if constant.negative then -constant.literal.value else constant.literal.value

structure Enumerator where
  name : String
  value : Option Constant

def Enumerator.tokens (enumerator : Enumerator) : List Token.Kind :=
  .identifier enumerator.name ::
    match enumerator.value with
    | none => []
    | some constant => .punctuator .equal :: constant.tokens

inductive Parameters where
  /-- A lone `void`. -/
  | void
  | list (parameters : List (TypeName × String))

namespace Parameters

def tokens : Parameters → List Token.Kind
  | void => [.keyword (.type .void)]
  | list parameters =>
      separated (parameters.map fun (type, name) => [.keyword (.type type), .identifier name])

def names : Parameters → List String
  | void => []
  | list parameters => parameters.map (·.2)

end Parameters

/-- The name of a function and its parameters, behind the variables of the same declaration. -/
structure Heading where
  type : TypeName
  before : List Declarator
  name : String
  parameters : Parameters

namespace Heading

def tokens (heading : Heading) : List Token.Kind :=
  .keyword (.type heading.type) ::
    (heading.before.flatMap (·.tokens ++ [.punctuator .comma]) ++
      .identifier heading.name :: .punctuator .leftParen ::
        (heading.parameters.tokens ++ [.punctuator .rightParen]))

def arity (heading : Heading) : Nat :=
  heading.parameters.names.length

def isGrammatical (heading : Heading) : Bool :=
  heading.before.all Declarator.isGrammatical

end Heading

inductive Item where
  /-- The tag of an enumeration names nothing, and a comma may stand behind the last member. -/
  | enumeration (tag : Option String) (members : List Enumerator) (trailing : Bool)
  | objects (declaration : Declaration)
  | prototype (heading : Heading)
  | function (heading : Heading) (declarations : List Declaration) (body : List Stmt)

namespace Item

def tokens : Item → List Token.Kind
  | enumeration tag members trailing =>
      .keyword .enumKw :: (tag.toList.map Token.Kind.identifier ++
        .punctuator .leftBrace :: (separated (members.map Enumerator.tokens) ++
          (if trailing then [.punctuator .comma] else []) ++
          [.punctuator .rightBrace, .punctuator .semicolon]))
  | objects declaration => declaration.tokens
  | prototype heading => heading.tokens ++ [.punctuator .semicolon]
  | function heading declarations body =>
      heading.tokens ++ (Stmt.block declarations body).tokens

def isGrammatical : Item → Bool
  | enumeration _ members trailing => !trailing || !members.isEmpty
  | objects declaration => declaration.isGrammatical
  | prototype heading => heading.isGrammatical
  | function heading declarations body =>
      heading.isGrammatical && (Stmt.block declarations body).isGrammatical

end Item

abbrev File := List Item

namespace File

def tokens (file : File) : List Token.Kind :=
  file.flatMap Item.tokens

def isGrammatical (file : File) : Bool :=
  file.all Item.isGrammatical

end File

end WordC.Syntax
