import Mathlib.Data.List.Basic
import WordC.Proofs.Language.Syntax
import WordC.Proofs.Token.Brackets

/-!
# Brackets of the grammar

The brackets of a file match, and a type outside of them begins an item. So wherever no bracket
waits in front of a type, an item ends.
-/

namespace WordC

namespace Syntax

open Token (Nested Kind meetAll?)

/-- Any token but a type. -/
def IsInner (kind : Kind) : Prop :=
  ∀ type, kind ≠ .keyword (.type type)

theorem nested_singleton {kind : Kind} (hplain : kind.isBracket = false) (hinner : IsInner kind) :
    Nested IsInner [kind] :=
  .plain hplain hinner .nil

theorem nested_separated {test : Kind → Prop} {parts : List (List Kind)}
    (hcomma : test (.punctuator .comma)) (h : ∀ part ∈ parts, Nested test part) :
    Nested test (separated parts) := by
  cases parts with
  | nil => exact .nil
  | cons part rest =>
      obtain ⟨hpart, hrest⟩ := List.forall_mem_cons.1 h
      exact hpart.append (.flatMap fun part hmem => .plain rfl hcomma (hrest part hmem))

theorem Literal.nested (value : Literal) : Nested IsInner [value.kind] := by
  cases value <;> exact nested_singleton rfl nofun

namespace Expr

mutual

theorem nested : ∀ e : Expr, Nested IsInner e.tokens
  | literal value => value.nested
  | string _ | name _ => .plain rfl nofun .nil
  | sizeof type => by
      rw [tokens]
      have htype : Nested (fun _ => True) [.keyword (.type type)] := .plain rfl trivial .nil
      exact .plain rfl nofun (htype.enclosed rfl)
  | addressOf _ => .plain rfl nofun (.plain rfl nofun .nil)
  | unary op operand => by
      rw [tokens]
      exact .plain (by cases op <;> rfl) nofun operand.nested
  | binary op left right => by
      rw [tokens]
      have hmark : (Kind.punctuator op.mark).isBracket = false := by
        cases op with
        | logical connective => cases connective <;> rfl
        | word operator => cases operator <;> rfl
      exact left.nested.append (.plain hmark nofun right.nested)
  | call callee arguments => by
      rw [tokens]
      exact .plain rfl nofun ((nested_argumentTokens arguments).enclosed rfl)
  | group inner => by
      rw [tokens]
      exact inner.nested.enclosed rfl

theorem nested_argumentTokens : ∀ arguments : List Expr, Nested IsInner (argumentTokens arguments)
  | [] => .nil
  | argument :: rest => by
      rw [argumentTokens]
      exact argument.nested.append (nested_furtherTokens rest)

theorem nested_furtherTokens : ∀ arguments : List Expr, Nested IsInner (furtherTokens arguments)
  | [] => .nil
  | argument :: rest => by
      rw [furtherTokens]
      exact .plain rfl nofun (argument.nested.append (nested_furtherTokens rest))

end

end Expr

theorem Declarator.nested (declarator : Declarator) : Nested IsInner declarator.tokens := by
  refine .plain rfl nofun ?_
  cases declarator.initial with
  | none => exact .nil
  | some value => exact .plain rfl nofun value.nested

/-- What is behind the type of a declaration. -/
theorem Declaration.nested (declaration : Declaration) :
    Nested IsInner
      (separated (declaration.declarators.map Declarator.tokens) ++ [.punctuator .semicolon]) := by
  refine (nested_separated nofun fun part hmem => ?_).append (nested_singleton rfl nofun)
  obtain ⟨declarator, -, rfl⟩ := List.mem_map.1 hmem
  exact declarator.nested

namespace Stmt

theorem nested_block {test : Kind → Prop} (declarations : List Declaration) {body : List Stmt}
    (hbody : Nested (fun _ => True) (bodyTokens body)) :
    Nested test (block declarations body).tokens := by
  rw [tokens]
  have hdeclarations : Nested (fun _ => True) (declarations.flatMap Declaration.tokens) :=
    .flatMap fun declaration _ => .plain rfl trivial declaration.nested.any
  exact (hdeclarations.append hbody).enclosed rfl

mutual

theorem nested : ∀ statement : Stmt, Nested (fun _ => True) statement.tokens
  | empty => .plain rfl trivial .nil
  | block declarations body => nested_block declarations (nested_bodyTokens body)
  | ifThen condition consequence => by
      rw [tokens]
      exact .plain rfl trivial (.pair rfl condition.nested.any consequence.nested)
  | ifElse condition consequence alternative => by
      rw [tokens]
      exact .plain rfl trivial (.pair rfl condition.nested.any
        (consequence.nested.append (.plain rfl trivial alternative.nested)))
  | whileLoop condition body => by
      rw [tokens]
      exact .plain rfl trivial (.pair rfl condition.nested.any body.nested)
  | leave none => .plain rfl trivial (.plain rfl trivial .nil)
  | leave (some value) => by
      rw [tokens]
      exact .plain rfl trivial (value.nested.any.append (.plain rfl trivial .nil))
  | assign _ value => by
      rw [tokens]
      exact .plain rfl trivial (.plain rfl trivial
        (value.nested.any.append (.plain rfl trivial .nil)))
  | evaluate value => by
      rw [tokens]
      exact value.nested.any.append (.plain rfl trivial .nil)

theorem nested_bodyTokens : ∀ body : List Stmt, Nested (fun _ => True) (bodyTokens body)
  | [] => .nil
  | statement :: rest => by
      rw [bodyTokens]
      exact statement.nested.append (nested_bodyTokens rest)

end

end Stmt

theorem Parameters.nested (parameters : Parameters) : Nested (fun _ => True) parameters.tokens := by
  cases parameters with
  | void => exact .plain rfl trivial .nil
  | list parameters =>
      refine nested_separated trivial fun part hmem => ?_
      obtain ⟨⟨type, name⟩, -, rfl⟩ := List.mem_map.1 hmem
      exact .plain rfl trivial (.plain rfl trivial .nil)

theorem Enumerator.nested (enumerator : Enumerator) : Nested IsInner enumerator.tokens := by
  refine .plain rfl nofun ?_
  cases enumerator.value with
  | none => exact .nil
  | some constant =>
      refine .plain rfl nofun ?_
      rw [Constant.tokens]
      split
      · exact .plain rfl nofun constant.literal.nested
      · exact constant.literal.nested

/-- What is behind the type of a heading. -/
theorem Heading.exists_nested (heading : Heading) :
    ∃ rest, heading.tokens = .keyword (.type heading.type) :: rest ∧ Nested IsInner rest := by
  refine ⟨_, rfl, Nested.append (.flatMap fun declarator _ => ?_) ?_⟩
  · exact declarator.nested.append (nested_singleton rfl nofun)
  · exact .plain rfl nofun (heading.parameters.nested.enclosed rfl)

/-- The tokens at which items end. -/
def endings : List Kind :=
  [.punctuator .semicolon, .punctuator .rightBrace]

/-- An item is a keyword, tokens with types in brackets only, and an end. -/
structure Framed (kinds : List Kind) : Prop where
  cons : ∃ word rest, kinds = .keyword word :: rest ∧ Nested IsInner rest
  last : ∃ last ∈ endings, kinds.getLast? = some last

theorem Item.framed (item : Item) : Framed item.tokens := by
  cases item with
  | enumeration tag members trailing =>
      refine ⟨⟨.enumKw, _, rfl, Nested.append ?_ (.pair rfl (Nested.append
        (nested_separated trivial fun part hmem => ?_) ?_) (nested_singleton rfl nofun))⟩,
        .punctuator .semicolon, by decide, by simp [tokens, List.getLast?_cons]⟩
      · cases tag with
        | none => exact .nil
        | some name => exact nested_singleton rfl nofun
      · obtain ⟨enumerator, -, rfl⟩ := List.mem_map.1 hmem
        exact enumerator.nested.any
      · cases trailing with
        | false => exact .nil
        | true => exact .plain rfl trivial .nil
  | objects declaration =>
      exact ⟨⟨_, _, rfl, declaration.nested⟩, .punctuator .semicolon, by decide, by
        simp [tokens, Declaration.tokens, List.getLast?_cons]⟩
  | prototype heading =>
      obtain ⟨rest, hheading, hrest⟩ := heading.exists_nested
      refine ⟨⟨.type heading.type, rest ++ [.punctuator .semicolon], ?_,
        hrest.append (nested_singleton rfl nofun)⟩, .punctuator .semicolon, by decide, by
        simp [tokens]⟩
      rw [tokens, hheading, List.cons_append]
  | function heading declarations body =>
      obtain ⟨rest, hheading, hrest⟩ := heading.exists_nested
      have hbody : Nested IsInner (Stmt.block declarations body).tokens :=
        Stmt.nested_block declarations (Stmt.nested_bodyTokens body)
      refine ⟨⟨.type heading.type, rest ++ (Stmt.block declarations body).tokens, ?_,
        hrest.append hbody⟩, .punctuator .rightBrace, by decide, by
        simp [tokens, Stmt.tokens, List.getLast?_cons]⟩
      rw [tokens, hheading, List.cons_append]

theorem Framed.meetAll? {kinds : List Kind} (h : Framed kinds) (waiting : List Punctuator) :
    Token.meetAll? waiting kinds = some waiting := by
  obtain ⟨word, rest, rfl, hrest⟩ := h.cons
  exact Nested.meetAll? (.plain rfl trivial hrest.any) waiting

/-- The brackets of a file match. -/
theorem File.meetAll? (file : File) (waiting : List Punctuator) :
    Token.meetAll? waiting file.tokens = some waiting := by
  induction file with
  | nil => rfl
  | cons item rest ih =>
      rw [File.tokens, List.flatMap_cons, Token.meetAll?_append, item.framed.meetAll?,
        Option.bind_some]
      exact ih

/-- Where no bracket waits in front of a type, an item ends. -/
theorem File.getLast?_mem {file : File} {front back : List Kind} {type : TypeName}
    (hsplit : file.tokens = front ++ .keyword (.type type) :: back)
    (hfront : Token.meetAll? [] front = some []) : ∀ last ∈ front.getLast?, last ∈ endings := by
  induction file generalizing front with
  | nil => exact absurd hsplit.symm (by simp [File.tokens])
  | cons item rest ih =>
      have hitem := item.framed
      obtain ⟨ending, hending, hlast⟩ := hitem.last
      have hwhole : item.tokens ++ File.tokens rest = front ++ .keyword (.type type) :: back :=
        hsplit
      have hitself : ∀ last ∈ item.tokens.getLast?, last ∈ endings := by
        rw [hlast]
        rintro last ⟨⟩
        exact hending
      rcases List.append_eq_append_iff.1 hwhole with
        ⟨front, rfl, hrest⟩ | ⟨middle, hmiddle, hbehind⟩
      · -- The type stands behind the item.
        rw [Token.meetAll?_append, hitem.meetAll?, Option.bind_some] at hfront
        by_cases hnil : front = []
        · rwa [hnil, List.append_nil]
        · rw [List.getLast?_append_of_ne_nil _ hnil]
          exact ih hrest hfront
      cases middle with
      | nil =>
          rw [List.append_nil] at hmiddle
          rwa [← hmiddle]
      | cons kind middle =>
          -- The type stands in the item, which begins with it.
          obtain ⟨rfl, -⟩ := List.cons.inj hbehind
          obtain ⟨word, inner, hword, hinner⟩ := hitem.cons
          cases front with
          | nil => exact nofun
          | cons first front =>
              rw [hword] at hmiddle
              obtain ⟨rfl, hinside⟩ := List.cons.inj hmiddle
              have hwaits := hinner.meetAll?_ne (fun htype => htype type rfl) rfl hinside
              exact absurd hfront hwaits

end Syntax

end WordC
