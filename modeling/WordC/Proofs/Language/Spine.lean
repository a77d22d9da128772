import WordC.Proofs.Target.Resolve

/-!
# The left spine of an expression

A parser meets the operand at the left end of an expression first and learns of the operators around
it afterwards. An expression is split here into that operand and the tokens behind it, and the
tokens that can stand at its two ends are told.
-/

namespace WordC.Syntax

open WordC.Core (Env)

/-- Whether an expression can begin with the token. -/
def opensExpression : Token.Kind → Bool
  | .number _ | .character _ | .string _ | .identifier _ | .keyword .sizeofKw => true
  | .punctuator mark => mark ∈ [.minus, .plus, .bang, .tilde, .star, .amp, .leftParen]
  | _ => false

/-- Whether no operator that binds at least that tightly stands at the front. -/
def Closes (rank : Nat) (rest : List Token.Kind) : Prop :=
  ∀ op : Binary, rest.head? = some (.punctuator op.mark) → op.rank < rank

theorem Binary.mark_injective {op op' : Binary} (h : op.mark = op'.mark) : op = op' := by
  cases op with
  | logical connective =>
      cases op' with
      | logical connective' => cases connective <;> cases connective' <;> simp_all [mark]
      | word operator => cases connective <;> cases operator <;> simp [mark] at h
  | word operator =>
      cases op' with
      | logical connective => cases connective <;> cases operator <;> simp [mark] at h
      | word operator' => cases operator <;> cases operator' <;> simp_all [mark]

theorem Binary.rank_lt (op : Binary) : op.rank < operandRank := by
  cases op with
  | logical connective => cases connective <;> decide
  | word operator => cases operator <;> decide

theorem closes_operandRank (rest : List Token.Kind) : Closes operandRank rest :=
  fun op _ => op.rank_lt

theorem Closes.mono {rank rank' : Nat} {rest : List Token.Kind} (h : Closes rank rest)
    (hle : rank ≤ rank') : Closes rank' rest :=
  fun op hop => Nat.lt_of_lt_of_le (h op hop) hle

theorem closes_operator (op : Binary) (rest : List Token.Kind) :
    Closes (op.rank + 1) (.punctuator op.mark :: rest) := by
  intro op' hop
  have hmark : op.mark = op'.mark := by simpa using hop
  rw [Binary.mark_injective hmark]
  exact Nat.lt_succ_self _

/-- A token that is no operator ends an expression of any rank. -/
theorem closes_of_ne {rank : Nat} {kind : Token.Kind} {rest : List Token.Kind}
    (h : ∀ op : Binary, kind ≠ .punctuator op.mark) : Closes rank (kind :: rest) := by
  intro op hop
  exact absurd (Option.some.inj hop) (h op)

theorem Binary.mark_mem (op : Binary) :
    op.mark ∈ [Punctuator.pipePipe, .ampAmp, .pipe, .caret, .amp, .equalEqual, .bangEqual, .less,
      .greater, .lessEqual, .greaterEqual, .plus, .minus, .star, .slash, .percent] := by
  cases op with
  | logical connective => cases connective <;> decide
  | word operator => cases operator <;> decide

theorem closes_mark {rank : Nat} {mark : Punctuator} {rest : List Token.Kind}
    (h : mark ∉ [Punctuator.pipePipe, .ampAmp, .pipe, .caret, .amp, .equalEqual, .bangEqual, .less,
      .greater, .lessEqual, .greaterEqual, .plus, .minus, .star, .slash, .percent]) :
    Closes rank (.punctuator mark :: rest) := by
  refine closes_of_ne fun op heq => h ?_
  rw [Token.Kind.punctuator.inj heq]
  exact op.mark_mem

namespace Expr

/-- The operand at the left end. -/
def leading : Expr → Expr
  | binary _ left _ => left.leading
  | e => e

/-- The tokens behind the operand at the left end. -/
def trailing : Expr → List Token.Kind
  | binary op left right => left.trailing ++ .punctuator op.mark :: right.tokens
  | _ => []

theorem tokens_eq_leading (e : Expr) : e.tokens = e.leading.tokens ++ e.trailing := by
  induction e using leading.induct with
  | case1 op left right ih => rw [tokens, leading, trailing, ih, List.append_assoc]
  | case2 e h =>
      cases e with
      | binary op left right => exact absurd rfl (h op left right)
      | _ => simp [leading, trailing]

theorem rank_leading (e : Expr) : e.leading.rank = operandRank := by
  induction e using leading.induct with
  | case1 op left right ih => exact ih
  | case2 e h =>
      cases e with
      | binary op left right => exact absurd rfl (h op left right)
      | _ => rfl

theorem rank_le (e : Expr) : e.rank ≤ operandRank := by
  cases e with
  | binary op left right => exact Nat.le_of_lt op.rank_lt
  | _ => exact Nat.le_refl _

theorem leading_eq_self {e : Expr} (h : operandRank ≤ e.rank) :
    e.leading = e ∧ e.trailing = [] := by
  cases e with
  | binary op left right =>
      have := op.rank_lt
      simp only [rank] at h
      omega
  | _ => exact ⟨rfl, rfl⟩

theorem isGrammatical_leading {e : Expr} (h : e.isGrammatical) : e.leading.isGrammatical := by
  induction e using leading.induct with
  | case1 op left right ih =>
      simp only [isGrammatical, Bool.and_eq_true] at h
      exact ih h.1.2
  | case2 e hne =>
      cases e with
      | binary op left right => exact absurd rfl (hne op left right)
      | _ => exact h

/-- An expression is not empty and begins like one. -/
theorem tokens_eq_cons (e : Expr) :
    ∃ kind rest, e.tokens = kind :: rest ∧ opensExpression kind = true := by
  induction e using leading.induct with
  | case1 op left right ih =>
      obtain ⟨kind, rest, htokens, hopens⟩ := ih
      exact ⟨kind, rest ++ .punctuator op.mark :: right.tokens, by simp [tokens, htokens], hopens⟩
  | case2 e hne =>
      cases e with
      | binary op left right => exact absurd rfl (hne op left right)
      | literal value => cases value <;> exact ⟨_, _, rfl, rfl⟩
      | unary op operand => cases op <;> exact ⟨_, _, rfl, rfl⟩
      | string text => exact ⟨_, _, rfl, rfl⟩
      | sizeof type => exact ⟨_, _, rfl, rfl⟩
      | name identifier => exact ⟨_, _, rfl, rfl⟩
      | addressOf identifier => exact ⟨_, _, rfl, rfl⟩
      | call callee arguments => exact ⟨_, _, by rw [tokens], rfl⟩
      | group inner => exact ⟨_, _, by rw [tokens], rfl⟩

theorem tokens_ne_nil (e : Expr) : e.tokens ≠ [] := by
  obtain ⟨kind, rest, htokens, _⟩ := e.tokens_eq_cons
  rw [htokens]
  exact List.cons_ne_nil _ _

/-- Behind the left end of an expression stands an operator, or the expression is over. -/
theorem trailing_eq (e : Expr) :
    e.trailing = [] ∨ ∃ op rest, e.trailing = .punctuator (Binary.mark op) :: rest := by
  induction e using leading.induct with
  | case1 op left right ih =>
      refine .inr ?_
      rcases ih with hnil | ⟨op', rest, hcons⟩
      · exact ⟨op, right.tokens, by rw [trailing, hnil]; rfl⟩
      · exact ⟨op', rest ++ .punctuator op.mark :: right.tokens, by rw [trailing, hcons]; rfl⟩
  | case2 e hne =>
      cases e with
      | binary op left right => exact absurd rfl (hne op left right)
      | _ => exact .inl rfl

/-- A name at the left end is not assigned to. -/
theorem head?_behind_name {e : Expr} {identifier : String} {rest : List Token.Kind}
    (h : e.tokens = .identifier identifier :: rest) :
    rest.head? ≠ some (.punctuator .equal) := by
  rw [tokens_eq_leading] at h
  have hrank := e.rank_leading
  cases hleading : e.leading with
  | name other =>
      rw [hleading] at h
      obtain ⟨_, rfl⟩ := List.cons_eq_cons.1 h
      rcases e.trailing_eq with hnil | ⟨op, more, hcons⟩
      · simp [hnil]
      · rw [show ([] : List Token.Kind).append e.trailing = e.trailing from rfl, hcons]
        intro hequal
        have hmark : op.mark = .equal := by simpa using hequal
        have hmem := op.mark_mem
        rw [hmark] at hmem
        revert hmem
        decide
  | call callee args =>
      rw [hleading, tokens] at h
      obtain ⟨_, rfl⟩ := List.cons_eq_cons.1 h
      simp
  | literal literal => rw [hleading] at h; cases literal <;> cases h
  | string text => rw [hleading] at h; cases h
  | sizeof type => rw [hleading] at h; cases h
  | addressOf other => rw [hleading] at h; cases h
  | unary op operand => rw [hleading, tokens] at h; cases h
  | group inner => rw [hleading, tokens] at h; cases h
  | binary op left right =>
      rw [hleading] at hrank
      exact absurd hrank (Nat.ne_of_lt op.rank_lt)

end Expr

/-- Whether a statement can begin with the token. -/
def opensStatement : Token.Kind → Bool
  | .punctuator .semicolon | .punctuator .leftBrace | .keyword .ifKw | .keyword .whileKw
  | .keyword .returnKw => true
  | kind => opensExpression kind

theorem opensStatement_of_opensExpression {kind : Token.Kind} (h : opensExpression kind = true) :
    opensStatement kind = true := by
  unfold opensStatement
  split <;> first | rfl | exact h

namespace Stmt

theorem tokens_eq_cons (statement : Stmt) :
    ∃ kind rest, statement.tokens = kind :: rest ∧ opensStatement kind = true := by
  cases statement with
  | evaluate value =>
      obtain ⟨kind, rest, htokens, hopens⟩ := value.tokens_eq_cons
      exact ⟨kind, rest ++ [.punctuator .semicolon], by rw [tokens, htokens]; rfl,
        opensStatement_of_opensExpression hopens⟩
  | leave value => cases value <;> exact ⟨_, _, by rw [tokens], rfl⟩
  | _ => exact ⟨_, _, by rw [tokens], rfl⟩

/-- Behind the declarations of a block stands a statement or the closing brace. -/
theorem head_bodyTokens (body : List Stmt) (rest : List Token.Kind) :
    ∃ kind more, bodyTokens body ++ .punctuator .rightBrace :: rest = kind :: more ∧
      kind.isType = false ∧ kind ≠ .keyword .elseKw := by
  cases body with
  | nil => exact ⟨_, _, rfl, rfl, nofun⟩
  | cons statement others =>
      obtain ⟨kind, more, htokens, hopens⟩ := statement.tokens_eq_cons
      refine ⟨kind, _, by rw [bodyTokens, htokens]; rfl, ?_, ?_⟩
      · cases kind with
        | keyword word => cases word <;> first | rfl | cases hopens
        | _ => rfl
      · rintro rfl
        cases hopens

mutual

theorem le_peak (used : Nat) : ∀ statement : Stmt, used ≤ statement.peak used
  | block declarations body => by
      rw [peak]
      exact Nat.le_trans (Nat.le_add_right _ _) (le_bodyPeak _ body)
  | ifThen _ consequence => by
      rw [peak]
      exact le_peak used consequence
  | ifElse _ consequence alternative => by
      rw [peak]
      exact Nat.le_trans (le_peak used consequence) (Nat.le_max_left _ _)
  | whileLoop _ body => by
      rw [peak]
      exact le_peak used body
  | empty | leave _ | assign _ _ | evaluate _ => by simp [peak]

theorem le_bodyPeak (used : Nat) : ∀ body : List Stmt, used ≤ bodyPeak used body
  | [] => Nat.le_refl _
  | statement :: rest => by
      rw [bodyPeak]
      exact Nat.le_trans (le_peak used statement) (Nat.le_max_left _ _)

end

end Stmt

theorem Item.tokens_eq_cons (item : Item) :
    ∃ keyword rest, item.tokens = .keyword keyword :: rest := by
  cases item with
  | enumeration => exact ⟨_, _, rfl⟩
  | objects => exact ⟨_, _, rfl⟩
  | prototype => exact ⟨_, _, rfl⟩
  | function => exact ⟨_, _, rfl⟩

end WordC.Syntax
