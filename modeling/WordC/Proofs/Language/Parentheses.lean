import WordC.Proofs.Language.Spine

/-!
# Trees and their texts

A tree has many texts: parentheses may be put around every operand, and they have to be put where an
operator binds less tightly than its place demands. The texts of a tree are told here apart from the
grammar, by recursion over the tree alone. Each of them derives from an expression of the grammar
that stands for the same.
-/

namespace WordC.Syntax

open WordC.Core (Env)

def parenthesized (text : List Token.Kind) : List Token.Kind :=
  .punctuator .leftParen :: (text ++ [.punctuator .rightParen])

/-- The texts of a tree at a place that demands a rank. Operators of one rank associate to the left,
so the right operand has to bind more tightly than its operator. -/
inductive Prints : Nat → Expr → List Token.Kind → Prop
  | literal {rank : Nat} (value : Literal) : Prints rank (.literal value) [value.kind]
  | string {rank : Nat} (text : String) : Prints rank (.string text) [.string text]
  | sizeof {rank : Nat} (type : TypeName) :
      Prints rank (.sizeof type)
        (.keyword .sizeofKw :: parenthesized [.keyword (.type type)])
  | name {rank : Nat} (identifier : String) :
      Prints rank (.name identifier) [.identifier identifier]
  | addressOf {rank : Nat} (identifier : String) :
      Prints rank (.addressOf identifier) [.punctuator .amp, .identifier identifier]
  | unary {rank : Nat} (op : Unary) {operand : Expr} {text : List Token.Kind}
      (hoperand : Prints operandRank operand text) :
      Prints rank (.unary op operand) (.punctuator op.mark :: text)
  | binary {rank : Nat} (op : Binary) {left right : Expr} {front back : List Token.Kind}
      (hrank : rank ≤ op.rank) (hleft : Prints op.rank left front)
      (hright : Prints (op.rank + 1) right back) :
      Prints rank (.binary op left right) (front ++ .punctuator op.mark :: back)
  | call {rank : Nat} (callee : String) {arguments : List Expr} {texts : List (List Token.Kind)}
      (hlength : texts.length = arguments.length)
      (harguments : ∀ pair ∈ arguments.zip texts, Prints 0 pair.1 pair.2) :
      Prints rank (.call callee arguments)
        (.identifier callee :: parenthesized (separated texts))
  | group {rank : Nat} {inner : Expr} {text : List Token.Kind} (hinner : Prints 0 inner text) :
      Prints rank (.group inner) (parenthesized text)
  /-- Parentheses may stand around everything. -/
  | enclosed {rank : Nat} {e : Expr} {text : List Token.Kind} (h : Prints 0 e text) :
      Prints rank e (parenthesized text)

/-! ## The shortest text -/

namespace Expr

mutual

/-- The text of a tree with parentheses where they are needed and nowhere else. -/
def print (rank : Nat) : Expr → List Token.Kind
  | literal value => [value.kind]
  | string text => [.string text]
  | sizeof type => .keyword .sizeofKw :: parenthesized [.keyword (.type type)]
  | name identifier => [.identifier identifier]
  | addressOf identifier => [.punctuator .amp, .identifier identifier]
  | unary op operand => .punctuator op.mark :: operand.print operandRank
  | binary op left right =>
      let text := left.print op.rank ++ .punctuator op.mark :: right.print (op.rank + 1)
      if rank ≤ op.rank then text else parenthesized text
  | call callee arguments => .identifier callee :: parenthesized (separated (printAll arguments))
  | group inner => parenthesized (inner.print 0)

def printAll : List Expr → List (List Token.Kind)
  | [] => []
  | argument :: rest => argument.print 0 :: printAll rest

end

theorem length_printAll (arguments : List Expr) :
    (printAll arguments).length = arguments.length := by
  induction arguments with
  | nil => rfl
  | cons argument rest ih => rw [printAll, List.length_cons, List.length_cons, ih]

mutual

theorem prints_print (rank : Nat) : ∀ e : Expr, Prints rank e (e.print rank)
  | literal value => by
      rw [print]
      exact .literal value
  | string text => by
      rw [print]
      exact .string text
  | sizeof type => by
      rw [print]
      exact .sizeof type
  | name identifier => by
      rw [print]
      exact .name identifier
  | addressOf identifier => by
      rw [print]
      exact .addressOf identifier
  | unary op operand => by
      rw [print]
      exact .unary op (prints_print operandRank operand)
  | binary op left right => by
      have hleft := prints_print op.rank left
      have hright := prints_print (op.rank + 1) right
      rw [print]
      by_cases hrank : rank ≤ op.rank
      · rw [if_pos hrank]
        exact .binary op hrank hleft hright
      · rw [if_neg hrank]
        exact .enclosed (.binary op (Nat.zero_le _) hleft hright)
  | call callee arguments => by
      rw [print]
      exact .call callee (length_printAll arguments) (prints_printAll arguments)
  | group inner => by
      rw [print]
      exact .group (prints_print 0 inner)

theorem prints_printAll : ∀ (arguments : List Expr), ∀ pair ∈ arguments.zip (printAll arguments),
    Prints 0 pair.1 pair.2
  | [] => by
      intro pair hpair
      rw [List.zip_nil_left] at hpair
      cases hpair
  | argument :: rest => by
      intro pair hpair
      rw [printAll, List.zip_cons_cons] at hpair
      rcases List.mem_cons.1 hpair with rfl | hrest
      · exact prints_print 0 argument
      · exact prints_printAll rest pair hrest

end

/-- A place can demand a pair of parentheses and no more. -/
theorem length_print_le_add_two (rank : Nat) (e : Expr) :
    (e.print rank).length ≤ (e.print 0).length + 2 := by
  cases e with
  | binary op left right =>
      rw [print, print, if_pos (Nat.zero_le op.rank)]
      by_cases hrank : rank ≤ op.rank
      · rw [if_pos hrank]
        exact Nat.le_add_right _ _
      · rw [if_neg hrank, parenthesized, List.length_cons, List.length_append]
        exact Nat.le_refl _
  | _ => simp [print]

theorem length_separated (texts : List (List Token.Kind)) :
    (separated texts).length = texts.flatten.length + (texts.length - 1) := by
  cases texts with
  | nil => rfl
  | cons text rest =>
      have hfurther : (further rest).length = rest.flatten.length + rest.length := by
        induction rest with
        | nil => rfl
        | cons text rest ih =>
            rw [further, List.flatMap_cons, List.length_append, ← further, ih]
            simp only [List.length_cons, List.flatten_cons, List.length_append]
            omega
      rw [separated, List.length_append, hfurther, List.flatten_cons, List.length_append,
        List.length_cons]
      omega

theorem length_printAll_le {arguments : List Expr} {texts : List (List Token.Kind)}
    (hlength : texts.length = arguments.length)
    (h : ∀ pair ∈ arguments.zip texts, (pair.1.print 0).length ≤ pair.2.length) :
    (printAll arguments).flatten.length ≤ texts.flatten.length := by
  induction arguments generalizing texts with
  | nil => exact Nat.zero_le _
  | cons argument rest ih =>
      cases texts with
      | nil => cases hlength
      | cons text others =>
          have hfirst := h (argument, text) List.mem_cons_self
          have hrest := ih (Nat.succ.inj hlength) fun pair hpair =>
            h pair (List.mem_cons_of_mem _ hpair)
          rw [printAll, List.flatten_cons, List.flatten_cons, List.length_append,
            List.length_append]
          exact Nat.add_le_add hfirst hrest

end Expr

/-- No text of a tree is shorter. -/
theorem Prints.length_print_le {rank : Nat} {e : Expr} {text : List Token.Kind}
    (h : Prints rank e text) : (e.print rank).length ≤ text.length := by
  induction h with
  | unary op _ ih =>
      rw [Expr.print, List.length_cons, List.length_cons]
      exact Nat.succ_le_succ ih
  | binary op hrank _ _ ihleft ihright =>
      rw [Expr.print, if_pos hrank]
      simp only [List.length_append, List.length_cons]
      omega
  | call callee hlength _ ih =>
      have hflatten := Expr.length_printAll_le hlength ih
      have hsame := (Expr.length_printAll _).trans hlength.symm
      rw [Expr.print]
      simp only [parenthesized, List.length_cons, List.length_append, Expr.length_separated]
      omega
  | group _ ih =>
      rw [Expr.print]
      simp only [parenthesized, List.length_cons, List.length_append]
      omega
  | @enclosed rank e text _ ih =>
      have hplace := e.length_print_le_add_two rank
      simp only [parenthesized, List.length_cons, List.length_append, List.length_nil]
      omega
  | _ => simp [Expr.print]

/-! ## Texts and the grammar -/

/-- An expression of the grammar that a text of a tree derives from. -/
structure Derives (rank : Nat) (tree : Expr) (text : List Token.Kind) (e : Expr) : Prop where
  tokens : e.tokens = text
  isGrammatical : e.isGrammatical
  rank : rank ≤ e.rank
  data : e.data = tree.data
  resolve? : ∀ env start, e.resolve? env start = tree.resolve? env start

namespace Derives

variable {rank : Nat} {tree e : Expr} {text : List Token.Kind}

/-- What is no operation and has no parts derives from itself. -/
theorem leaf (htokens : tree.tokens = text) (hgrammatical : tree.isGrammatical)
    (hrank : rank ≤ tree.rank) : Derives rank tree text tree :=
  ⟨htokens, hgrammatical, hrank, rfl, fun _ _ => rfl⟩

theorem enclosed (h : Derives 0 tree text e) (hrank : rank ≤ operandRank) :
    Derives rank tree (parenthesized text) (.group e) where
  tokens := by rw [Expr.tokens, h.tokens, parenthesized]
  isGrammatical := by
    rw [Expr.isGrammatical]
    exact h.isGrammatical
  rank := hrank
  data := by rw [Expr.data, h.data]
  resolve? := fun env start => by rw [Expr.resolve?, h.resolve?]

theorem unary (op : Unary) (h : Derives operandRank tree text e) (hrank : rank ≤ operandRank) :
    Derives rank (.unary op tree) (.punctuator op.mark :: text) (.unary op e) where
  tokens := by rw [Expr.tokens, h.tokens]
  isGrammatical := by
    rw [Expr.isGrammatical, Bool.and_eq_true, beq_iff_eq]
    exact ⟨Nat.le_antisymm e.rank_le h.rank, h.isGrammatical⟩
  rank := hrank
  data := by rw [Expr.data, Expr.data, h.data]
  resolve? := fun env start => by rw [Expr.resolve?, Expr.resolve?, h.resolve?]

theorem binary (op : Binary) {left right left' right' : Expr} {front back : List Token.Kind}
    (hleft : Derives op.rank left front left') (hright : Derives (op.rank + 1) right back right')
    (hrank : rank ≤ op.rank) :
    Derives rank (.binary op left right) (front ++ .punctuator op.mark :: back)
      (.binary op left' right') where
  tokens := by rw [Expr.tokens, hleft.tokens, hright.tokens]
  isGrammatical := by
    simp only [Expr.isGrammatical, Bool.and_eq_true, decide_eq_true_eq]
    exact ⟨⟨⟨hleft.rank, hright.rank⟩, hleft.isGrammatical⟩, hright.isGrammatical⟩
  rank := hrank
  data := by rw [Expr.data, Expr.data, hleft.data, hright.data]
  resolve? := fun env start => by
    rw [Expr.resolve?, Expr.resolve?, hleft.resolve?, hright.resolve?, hleft.data]

end Derives

theorem Expr.argumentTokens_eq (arguments : List Expr) :
    argumentTokens arguments = separated (arguments.map tokens) := by
  have hfurther : ∀ rest : List Expr, furtherTokens rest = further (rest.map tokens) := by
    intro rest
    induction rest with
    | nil => rfl
    | cons argument rest ih =>
        rw [furtherTokens, ih, List.map_cons, further, further, List.flatMap_cons]
        rfl
  cases arguments with
  | nil => rfl
  | cons argument rest => rw [argumentTokens, hfurther, List.map_cons, separated]

/-- Expressions that arguments derive from, one by one. -/
theorem exists_arguments {arguments : List Expr} {texts : List (List Token.Kind)}
    (hlength : texts.length = arguments.length)
    (h : ∀ pair ∈ arguments.zip texts, ∃ e, Derives 0 pair.1 pair.2 e) :
    ∃ es : List Expr, es.map Expr.tokens = texts ∧ Expr.areGrammatical es ∧
      Expr.argumentData es = Expr.argumentData arguments ∧
      ∀ env start, Expr.resolveArguments? env start es =
        Expr.resolveArguments? env start arguments := by
  induction arguments generalizing texts with
  | nil =>
      cases List.length_eq_zero_iff.1 hlength
      exact ⟨[], rfl, rfl, rfl, fun _ _ => rfl⟩
  | cons argument rest ih =>
      cases texts with
      | nil => cases hlength
      | cons text others =>
          obtain ⟨e, he⟩ := h (argument, text) List.mem_cons_self
          obtain ⟨es, htokens, hgrammatical, hdata, hresolve⟩ := ih (Nat.succ.inj hlength)
            fun pair hpair => h pair (List.mem_cons_of_mem _ hpair)
          refine ⟨e :: es, ?_, ?_, ?_, fun env start => ?_⟩
          · rw [List.map_cons, he.tokens, htokens]
          · rw [Expr.areGrammatical, Bool.and_eq_true]
            exact ⟨he.isGrammatical, hgrammatical⟩
          · rw [Expr.argumentData, Expr.argumentData, he.data, hdata]
          · rw [Expr.resolveArguments?, Expr.resolveArguments?, he.resolve?, he.data, hresolve]

/-- Every text of a tree derives from the grammar, and nothing about the parentheses matters. -/
theorem Prints.derives {rank : Nat} {tree : Expr} {text : List Token.Kind}
    (h : Prints rank tree text) (hrank : rank ≤ operandRank) : ∃ e, Derives rank tree text e := by
  induction h with
  | literal value => exact ⟨_, .leaf (by rw [Expr.tokens]) rfl hrank⟩
  | string text => exact ⟨_, .leaf (by rw [Expr.tokens]) rfl hrank⟩
  | sizeof type => exact ⟨_, .leaf (by rw [Expr.tokens]; rfl) rfl hrank⟩
  | name identifier => exact ⟨_, .leaf (by rw [Expr.tokens]) rfl hrank⟩
  | addressOf identifier => exact ⟨_, .leaf (by rw [Expr.tokens]) rfl hrank⟩
  | unary op _ ih =>
      obtain ⟨e, he⟩ := ih (Nat.le_refl _)
      exact ⟨_, he.unary op hrank⟩
  | binary op hplace _ _ ihleft ihright =>
      obtain ⟨left, hleft⟩ := ihleft (Nat.le_of_lt op.rank_lt)
      obtain ⟨right, hright⟩ := ihright op.rank_lt
      exact ⟨_, .binary op hleft hright hplace⟩
  | call callee hlength _ ih =>
      obtain ⟨es, htokens, hgrammatical, hdata, hresolve⟩ := exists_arguments hlength
        fun pair hpair => ih pair hpair (Nat.zero_le _)
      refine ⟨.call callee es, ⟨?_, ?_, hrank, ?_, fun env start => ?_⟩⟩
      · rw [Expr.tokens, Expr.argumentTokens_eq, htokens, parenthesized]
      · rw [Expr.isGrammatical]
        exact hgrammatical
      · rw [Expr.data, Expr.data, hdata]
      · rw [Expr.resolve?, Expr.resolve?, hresolve]
  | group _ ih =>
      obtain ⟨e, he⟩ := ih (Nat.zero_le _)
      have hgroup := he.enclosed hrank
      refine ⟨.group e, hgroup.tokens, hgroup.isGrammatical, hgroup.rank, ?_, fun env start => ?_⟩
      · rw [hgroup.data, Expr.data]
      · rw [hgroup.resolve?, Expr.resolve?]
  | enclosed _ ih =>
      obtain ⟨e, he⟩ := ih (Nat.zero_le _)
      exact ⟨_, he.enclosed hrank⟩

end WordC.Syntax
