import WordC.Compiler.Expression
import WordC.Proofs.Compile.Names
import WordC.Proofs.Language.Spine

/-!
# Binary operators

Each level of the compiler reads the operators of one rank. An expression is compiled from its left
end: once an operand stands, its operators and their right operands are added to it one by one, and
what has been written so far is always the code of an expression.
-/

namespace WordC.Compiler

open WordC.Core (Cell Instr)
open Syntax (Binary Closes Expr operandRank)

variable {α : Type} {origin : Origin} {a b : Sketch}

/-- What the compiler does with an operator. -/
def linkOf : Binary → Link
  | .logical connective => .decides (Core.jumpOf connective)
  | .word operator => .combines operator

theorem link?_mark {level : Level} {op : Binary} (hlevel : levels[op.rank]? = some level) :
    level.link? (.punctuator op.mark) = some (linkOf op) := by
  cases op with
  | logical connective =>
      cases connective
      all_goals
        cases hlevel
        rfl
  | word operator =>
      cases operator
      all_goals
        cases hlevel
        rfl

/-- The operators of each rank. -/
def operatorsOf : Nat → List Binary
  | 0 => [.logical .disjunction]
  | 1 => [.logical .conjunction]
  | 2 => [.word .or]
  | 3 => [.word .xor]
  | 4 => [.word .and]
  | 5 => [.word .eq, .word .ne]
  | 6 => [.word .lt, .word .gt, .word .le, .word .ge]
  | 7 => [.word .add, .word .sub]
  | 8 => [.word .mul, .word .div, .word .mod]
  | _ => []

theorem rank_of_mem_operatorsOf {rank : Nat} {op : Binary} (h : op ∈ operatorsOf rank) :
    op.rank = rank := by
  have hall : (operatorsOf rank).all (·.rank == rank) = true := by
    rcases rank with _ | _ | _ | _ | _ | _ | _ | _ | _ | rank
    all_goals rfl
  exact eq_of_beq (List.all_eq_true.1 hall op h)

theorem operators_eq {level : Level} {rank : Nat} (hlevel : levels[rank]? = some level) :
    level.operators = (operatorsOf rank).map fun op => (op.mark, linkOf op) := by
  rcases rank with _ | _ | _ | _ | _ | _ | _ | _ | _ | rank
  all_goals
    cases hlevel
    try rfl

theorem rank_of_link? {level : Level} {rank : Nat} {kind : Token.Kind} {link : Link}
    (hlevel : levels[rank]? = some level) (hlink : level.link? kind = some link) :
    ∃ op : Binary, op.rank = rank ∧ kind = .punctuator op.mark ∧ link = linkOf op := by
  cases kind with
  | punctuator mark =>
      change level.operators.lookup mark = some link at hlink
      obtain ⟨front, back, hsplit, _⟩ := List.lookup_eq_some_iff.1 hlink
      have hmem : (mark, link) ∈ level.operators := by
        rw [hsplit]
        exact List.mem_append_right _ List.mem_cons_self
      rw [operators_eq hlevel] at hmem
      obtain ⟨op, hop, heq⟩ := List.mem_map.1 hmem
      cases heq
      exact ⟨op, rank_of_mem_operatorsOf hop, rfl, rfl⟩
  | _ => cases hlink

/-- The sketch behind an expression. -/
def Sketch.value (a : Sketch) (rest : List Token.Kind) (value : Core.Expr) (data : List Word) :
    Sketch :=
  a.after rest (Core.cells (value.code a.here)) data

/-- The action compiles every expression of that rank which it finds ahead, if less than `bound`
tokens are ahead. -/
def Compiles (origin : Origin) (rank bound : Nat) (action : Compile Unit) : Prop :=
  ∀ (a : Sketch) (e : Expr) (rest : List Token.Kind) (value : Core.Expr),
    rank ≤ e.rank → e.isGrammatical → a.ahead = e.tokens ++ rest → Closes rank rest →
    a.ahead.length < bound → e.resolve? a.env a.dataHere = some value →
    Does origin a action () (a.value rest value e.data)

/-- An operator and its right operand are added to the left one. -/
theorem does_linkOperand {op : Binary} {operand : Compile Unit} {bound : Nat} {right : Expr}
    {rest : List Token.Kind} {first second : Core.Expr} {data : List Word}
    (hoperand : Compiles origin (op.rank + 1) bound operand) (hrank : op.rank < right.rank)
    (hgrammatical : right.isGrammatical) (hcloses : Closes (op.rank + 1) rest)
    (hbound : (right.tokens ++ rest).length < bound)
    (hresolve : right.resolve? a.env (a.dataHere + data.length) = some second) :
    Does origin (a.value (right.tokens ++ rest) first data) (linkOperand operand (linkOf op)) ()
      (a.value rest (op.resolve first second) (data ++ right.data)) := by
  have hright : ∀ cells : List Cell, Does origin (a.after (right.tokens ++ rest) cells data) operand
      () (a.after rest (cells ++ Core.cells (second.code (a.here + cells.length)))
        (data ++ right.data)) := by
    intro cells
    have h := hoperand (a.after (right.tokens ++ rest) cells data) right rest second hrank
      hgrammatical rfl hcloses hbound (by rw [Sketch.dataHere_after]; exact hresolve)
    rw [Sketch.value, Sketch.after_after, Sketch.here_after] at h
    exact h
  cases op with
  | word operator =>
      refine does_emit.bind ?_
      rw [Sketch.value, Sketch.after_after, List.append_nil, Sketch.ahead_after]
      refine (hright _).bind ?_
      refine does_emit.reaches ⟨rfl, ?_⟩
      simp [Sketch.value, Binary.resolve, Core.Expr.code, Core.length_cells, Nat.add_assoc]
  | logical connective =>
      refine does_emitPending.bind ?_
      rw [Sketch.value, Sketch.after_after, List.append_nil, Sketch.ahead_after]
      refine (hright _).bind ?_
      have hcells : Core.cells (first.code a.here) ++
          [Cell.known (Core.jumpOf connective).word, Cell.hole] ++
          Core.cells (second.code (a.here + (Core.cells (first.code a.here) ++
            [Cell.known (Core.jumpOf connective).word, Cell.hole]).length)) =
          (Core.cells (first.code a.here) ++ [Cell.known (Core.jumpOf connective).word]) ++
            Cell.hole ::
              Core.cells (second.code (a.here + Core.size (first.code a.here) + 2)) := by
        simp [Core.length_cells, Nat.add_assoc]
      rw [hcells]
      refine (does_patchHere (by simp [Nat.add_assoc])).bind ?_
      refine does_emit.bind ?_
      refine does_emitWith.bind ?_
      refine does_emit.reaches ⟨rfl, ?_⟩
      simp [Sketch.value, Binary.resolve, Core.Expr.code, Core.length_cells, Nat.add_assoc]

/-- The action compiles the operand at the left end of an expression. -/
def Starts (origin : Origin) (a : Sketch) (first : Compile Unit) (e : Expr)
    (rest : List Token.Kind) : Prop :=
  ∀ lead, e.leading.resolve? a.env a.dataHere = some lead →
    Does origin a first () (a.value (e.trailing ++ rest) lead e.leading.data)

/-- The action compiles every expression of that rank at whose left end `first` compiles the
operand. -/
def Continues (origin : Origin) (a : Sketch) (rank bound : Nat) (first action : Compile Unit) :
    Prop :=
  ∀ (e : Expr) (rest : List Token.Kind) (value : Core.Expr),
    rank ≤ e.rank → e.isGrammatical → Closes rank rest → (e.trailing ++ rest).length < bound →
    e.resolve? a.env a.dataHere = some value → Starts origin a first e rest →
    Does origin a action () (a.value rest value e.data)

theorem chain_succ (level : Level) (operand : Compile Unit) (rounds : Nat) :
    chain level operand (rounds + 1) = peek >>= fun kind =>
      match level.link? kind with
      | none => pure ()
      | some link => advance >>= fun _ => linkOperand operand link >>= fun _ =>
          chain level operand rounds :=
  rfl

/-- A level goes on along the left spine of an expression: what it reaches from the expression, it
reaches from the left end. -/
theorem reaches_spine {level : Level} {rank bound : Nat} {first inner operand : Compile Unit}
    {post : Unit → Sketch → Prop} (hlevel : levels[rank]? = some level)
    (hinner : Continues origin a (rank + 1) bound first inner)
    (hoperand : Compiles origin (rank + 1) bound operand) (e : Expr) :
    ∀ (rest : List Token.Kind) (value : Core.Expr), rank ≤ e.rank → e.isGrammatical →
      Closes (rank + 1) rest → (e.trailing ++ rest).length < bound →
      e.resolve? a.env a.dataHere = some value → Starts origin a first e rest →
      (∀ rounds, rest.length < rounds →
        Reaches origin (a.value rest value e.data) (chain level operand rounds) post) →
      Reaches origin a (inner >>= fun _ => view (·.bound) >>= chain level operand) post := by
  induction e using WordC.Syntax.Expr.leading.induct with
  | case2 e hne =>
      intro rest value _ hgrammatical hcloses hbound hresolve hstarts hchain
      have hrank' : rank + 1 ≤ e.rank := by
        have hrank : rank < levels.length := (List.getElem?_eq_some_iff.1 hlevel).1
        change rank < operandRank at hrank
        cases e with
        | binary op left right => exact absurd rfl (hne op left right)
        | _ => exact hrank
      refine (hinner e rest value hrank' hgrammatical hcloses hbound hresolve hstarts).bind ?_
      refine reaches_bound.bind ?_
      rintro rounds b ⟨rfl, hrounds⟩
      exact hchain rounds hrounds
  | case1 op left right ih =>
      intro rest value hrank hgrammatical hcloses hbound hresolve hstarts hchain
      rcases Nat.lt_or_eq_of_le hrank with hlt | heq
      · refine (hinner _ rest value hlt hgrammatical hcloses hbound hresolve hstarts).bind ?_
        refine reaches_bound.bind ?_
        rintro rounds b ⟨rfl, hrounds⟩
        exact hchain rounds hrounds
      · change rank = op.rank at heq
        subst heq
        simp only [Expr.isGrammatical, Bool.and_eq_true, decide_eq_true_eq] at hgrammatical
        obtain ⟨⟨⟨hleftRank, hrightRank⟩, hleft⟩, hright⟩ := hgrammatical
        simp only [Expr.resolve?, Option.bind_eq_bind, Option.bind_eq_some_iff,
          Option.some.injEq] at hresolve
        obtain ⟨firstValue, hfirst, secondValue, hsecond, rfl⟩ := hresolve
        have htrailing : (Expr.binary op left right).trailing ++ rest =
            left.trailing ++ .punctuator op.mark :: (right.tokens ++ rest) := by
          simp [Expr.trailing]
        rw [htrailing] at hbound
        refine ih (.punctuator op.mark :: (right.tokens ++ rest)) firstValue hleftRank hleft
          (Syntax.closes_operator op _) hbound hfirst ?_ ?_
        · intro lead hlead
          rw [← htrailing]
          exact hstarts lead hlead
        · intro rounds hrounds
          cases rounds with
          | zero => omega
          | succ rounds =>
              have hbehind : (right.tokens ++ rest).length < bound := by
                rw [List.length_append, List.length_cons] at hbound
                omega
              rw [List.length_cons, List.length_append] at hrounds
              rw [chain_succ]
              refine does_peek.bind ?_
              rw [show (a.value (.punctuator op.mark :: (right.tokens ++ rest)) firstValue
                left.data).current = .punctuator op.mark from rfl, link?_mark hlevel]
              refine (does_advance rfl).bind ?_
              rw [Sketch.value, Sketch.after_after, List.append_nil, List.append_nil]
              refine (does_linkOperand hoperand hrightRank hright hcloses hbehind hsecond).bind ?_
              exact hchain rounds (by omega)

/-- Behind an expression that is over, the level stops. -/
theorem does_chain_of_closes {level : Level} {rank : Nat} {operand : Compile Unit}
    (hlevel : levels[rank]? = some level) (hcloses : Closes rank a.ahead) {rounds : Nat}
    (hrounds : a.ahead.length < rounds) : Does origin a (chain level operand rounds) () a := by
  cases rounds with
  | zero => exact absurd hrounds (Nat.not_lt_zero _)
  | succ rounds =>
      rw [chain_succ]
      refine does_peek.bind ?_
      cases hlink : level.link? a.current with
      | none => exact Does.pure
      | some link =>
          obtain ⟨op, hrank, hkind, _⟩ := rank_of_link? hlevel hlink
          obtain ⟨rest, hahead⟩ := Sketch.ahead_of_current hkind Token.Kind.noConfusion
          have hlt := hcloses op (by rw [hahead]; rfl)
          omega

theorem cascade_cons (first operand : Compile Unit) (level : Level) (tighter : List Level) :
    cascade first operand (level :: tighter) =
      (openRule level.rule >>= fun _ =>
        (cascade first operand tighter >>= fun _ =>
          view (·.bound) >>= chain level (cascade operand operand tighter)) >>= fun _ =>
        closeRule) := by
  simp only [cascade, bind_assoc]

/-- What goes on from an operand compiles from the start if the operand is read there. -/
theorem Continues.compiles {rank bound : Nat} {operand action : Compile Unit}
    (hoperand : Compiles origin operandRank bound operand)
    (haction : ∀ a, Continues origin a rank bound operand action) :
    Compiles origin rank bound action := by
  intro a e rest value hrank hgrammatical hahead hcloses hbound hresolve
  have htokens : a.ahead = e.leading.tokens ++ (e.trailing ++ rest) := by
    rw [hahead, e.tokens_eq_leading, List.append_assoc]
  refine haction a e rest value hrank hgrammatical hcloses ?_ hresolve ?_
  · rw [htokens, List.length_append] at hbound
    omega
  · intro lead hlead
    exact hoperand a e.leading (e.trailing ++ rest) lead (Nat.le_of_eq e.rank_leading.symm)
      (Expr.isGrammatical_leading hgrammatical) htokens (Syntax.closes_operandRank _) hbound hlead

/-- The levels from some rank on compile the expressions of that rank. -/
theorem continues_cascade {bound : Nat} {operand : Compile Unit}
    (hoperand : Compiles origin operandRank bound operand) (tighter : List Level) :
    ∀ (rank : Nat) (a : Sketch) (first : Compile Unit), levels.drop rank = tighter →
      Continues origin a rank bound first (cascade first operand tighter) := by
  induction tighter with
  | nil =>
      intro rank a first hdrop e rest value hrank _ _ _ hresolve hstarts
      have hlength : operandRank ≤ rank := List.drop_eq_nil_iff.1 hdrop
      obtain ⟨hleading, htrailing⟩ := Expr.leading_eq_self (Nat.le_trans hlength hrank)
      unfold Starts at hstarts
      rw [hleading, htrailing] at hstarts
      exact hstarts value hresolve
  | cons level tighter ih =>
      intro rank a first hdrop
      have hlevel : levels[rank]? = some level := by
        rw [← List.head?_drop, hdrop]
        rfl
      have hdrop' : levels.drop (rank + 1) = tighter := by
        rw [← List.tail_drop, hdrop]
        rfl
      have hright : Compiles origin (rank + 1) bound (cascade operand operand tighter) :=
        Continues.compiles hoperand fun b => ih (rank + 1) b operand hdrop'
      intro e rest value hrank hgrammatical hcloses hbound hresolve hstarts
      rw [cascade_cons]
      refine does_openRule.bind ?_
      refine @Does.bind _ _ _ _ (a.value rest value e.data) _ _ () _ ?_ does_closeRule
      refine reaches_spine hlevel (ih (rank + 1) a first hdrop') hright e rest value hrank
        hgrammatical (hcloses.mono (Nat.le_succ rank)) hbound hresolve hstarts ?_
      intro rounds hrounds
      exact does_chain_of_closes hlevel hcloses hrounds

/-- An expression is compiled as its operands are. -/
theorem compiles_cascade {bound : Nat} {operand : Compile Unit}
    (hoperand : Compiles origin operandRank bound operand) :
    Compiles origin 0 bound (cascade operand operand levels) :=
  Continues.compiles hoperand fun a => continues_cascade hoperand levels 0 a operand rfl

end WordC.Compiler
