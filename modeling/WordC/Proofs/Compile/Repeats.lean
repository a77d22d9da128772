import WordC.Compiler.Expression
import WordC.Proofs.Compile.Yields
import WordC.Proofs.Tree.Grafts

/-!
# Compiling an expression elsewhere

What an expression compiles to depends neither on the rules around it in the tree nor on how deep
its operands may nest, as long as they may nest deeper than there are tokens. It leaves the names in
scope and the slots of the frame alone. There is one lemma for each rule of the language.
-/

namespace WordC.Compiler

variable {α β : Type}

/-- The number of tokens that can still be taken. -/
def supply (compiler : Compiler) : Nat :=
  compiler.upcoming.length + if compiler.current.kind = .endOfInput then 0 else 1

/-- What an expression leaves alone. -/
def footing (compiler : Compiler) : Symbol.Table × Frame :=
  (compiler.symbols, compiler.frame)

def onto (compiler : Compiler) (context : Tree.Builder) : Compiler :=
  { compiler with tree := compiler.tree.into context }

/-- The state with its tree inside of a context. -/
def State.onto (s : State) (context : Tree.Builder) : State :=
  { s with compiler := s.compiler.onto context }

/-- The result with the tree of its state inside of a context. -/
def resultOnto (context : Tree.Builder) :
    EStateM.Result Error State α → EStateM.Result Error State α
  | .ok value s => .ok value (s.onto context)
  | .error error s => .error error (s.onto context)

/-- A construct may repeat `bound` times, no more than `n` tokens can be taken, and `depth` rules
are open inside the outermost. -/
structure Stands (bound n depth : Nat) (s : State) : Prop where
  bound : s.compiler.bound = bound
  supply : s.compiler.supply ≤ n
  depth : s.compiler.tree.outer.length = depth

/-- From this state the second action does inside of every context what the first one does outside.
-/
structure Echoes (s : State) (bound n depth : Nat) (action other : Compile α) : Prop where
  same : ∀ context, other (s.onto context) = resultOnto context (action s)
  stands : ∀ value s', action s = .ok value s' →
    Stands bound n depth s' ∧ s'.compiler.footing = s.compiler.footing

def Repeats (bound n depth depth' : Nat) (action other : Compile α) : Prop :=
  ∀ s, Stands bound n depth s → Echoes s bound n depth' action other

/-- The same in front of a token of this kind. -/
def RepeatsAt (kind : Token.Kind) (bound n depth depth' : Nat) (action other : Compile α) : Prop :=
  ∀ s, Stands bound n depth s → s.compiler.current.kind = kind →
    Echoes s bound n depth' action other

/-- An action that is about neither the tree nor the tokens. -/
abbrev Stays (action : Compile α) : Prop :=
  ∀ {bound n depth : Nat}, Repeats bound n depth depth action action

variable {bound n depth depth' middle : Nat} {kind : Token.Kind} {s : State}

theorem Echoes.bind {action other : Compile α} {next next' : α → Compile β}
    (haction : Echoes s bound n middle action other)
    (hnext : ∀ value, Repeats bound n middle depth (next value) (next' value)) :
    Echoes s bound n depth (action >>= next) (other >>= next') := by
  have hsame := haction.same
  constructor
  · intro context
    specialize hsame context
    cases hresult : action s with
    | ok value s' =>
        rw [hresult] at hsame
        rw [bind_run_of_ok hsame, bind_run_of_ok hresult]
        exact (hnext value s' (haction.stands value s' hresult).1).same context
    | error error s' =>
        rw [hresult] at hsame
        rw [bind_run_of_error hsame, bind_run_of_error hresult]
        rfl
  · intro value s' hok
    obtain ⟨first, between, hfirst, hsecond⟩ := bind_eq_ok.1 hok
    obtain ⟨hstands, hfooting⟩ := haction.stands first between hfirst
    obtain ⟨hstands', hfooting'⟩ := (hnext first between hstands).stands value s' hsecond
    exact ⟨hstands', hfooting'.trans hfooting⟩

theorem Echoes.mono {m : Nat} {action other : Compile α} (h : Echoes s bound m depth action other)
    (hle : m ≤ n) : Echoes s bound n depth action other where
  same := h.same
  stands := fun value s' hok =>
    let ⟨hstands, hfooting⟩ := h.stands value s' hok
    ⟨{ hstands with supply := Nat.le_trans hstands.supply hle }, hfooting⟩

namespace Repeats

theorem bind {action other : Compile α} {next next' : α → Compile β}
    (haction : Repeats bound n depth middle action other)
    (hnext : ∀ value, Repeats bound n middle depth' (next value) (next' value)) :
    Repeats bound n depth depth' (action >>= next) (other >>= next') :=
  fun s hs => (haction s hs).bind hnext

theorem pure (value : α) : Stays (Pure.pure value : Compile α) := by
  intro bound n depth s hs
  refine ⟨fun _ => rfl, ?_⟩
  rintro _ _ ⟨⟩
  exact ⟨hs, rfl⟩

theorem throw (error : Error) :
    Repeats bound n depth depth' (throw error : Compile α) (throw error) :=
  fun _ _ => ⟨fun _ => rfl, fun _ _ hok => absurd hok throw_ne_ok⟩

theorem ite {condition : Prop} [Decidable condition] {first first' second second' : Compile α}
    (hfirst : Repeats bound n depth depth' first first')
    (hsecond : Repeats bound n depth depth' second second') :
    Repeats bound n depth depth' (if condition then first else second)
      (if condition then first' else second') := by
  by_cases h : condition
  · rwa [if_pos h, if_pos h]
  · rwa [if_neg h, if_neg h]

theorem guard {condition : Prop} [Decidable condition] {error : Error} {next next' : Compile α}
    (hnext : Repeats bound n depth depth' next next') :
    Repeats bound n depth depth'
      (if condition then ((MonadExcept.throw error : Compile PUnit) >>= fun _ => next) else next)
      (if condition then ((MonadExcept.throw error : Compile PUnit) >>= fun _ => next')
        else next') := by
  have hthrow : Repeats bound n depth depth (MonadExcept.throw error : Compile PUnit)
      (MonadExcept.throw error) := throw error
  exact .ite (hthrow.bind fun _ => hnext) hnext

theorem onMachine (action : Action α) : Stays (onMachine action) := by
  rintro bound n depth ⟨machine, compiler⟩ hs
  constructor
  · intro context
    unfold Compiler.onMachine State.onto
    simp only
    cases action machine <;> rfl
  · intro value s' hok
    unfold Compiler.onMachine at hok
    simp only at hok
    cases hresult : action machine with
    | ok result machine' =>
        rw [hresult] at hok
        cases hok
        exact ⟨⟨hs.bound, hs.supply, hs.depth⟩, rfl⟩
    | error error machine' =>
        rw [hresult] at hok
        cases hok

theorem view {field : Compiler → α}
    (h : ∀ compiler context, field (compiler.onto context) = field compiler) :
    Stays (view field) := by
  intro bound n depth s hs
  refine ⟨fun context => ?_, ?_⟩
  · change EStateM.Result.ok (field (s.compiler.onto context)) _ = _
    rw [h]
    rfl
  · rintro _ _ ⟨⟩
    exact ⟨hs, rfl⟩

theorem update {change : Compiler → Compiler}
    (h : ∀ s context, Stands bound n depth s →
      (change s.compiler).onto context = change (s.compiler.onto context))
    (hstands : ∀ s, Stands bound n depth s → Stands bound n depth' ⟨s.machine, change s.compiler⟩)
    (hfooting : ∀ compiler, (change compiler).footing = compiler.footing) :
    Repeats bound n depth depth' (update change) (update change) := by
  refine fun s hs => ⟨fun context => ?_, ?_⟩
  · change EStateM.Result.ok () (State.mk s.machine (change (s.compiler.onto context))) = _
    rw [← h s context hs]
    rfl
  · rintro _ _ ⟨⟩
    exact ⟨hstands s hs, hfooting _⟩

theorem ofExcept (result : Except Error α) : Stays (ofExcept result) := by
  cases result with
  | ok value => exact pure value
  | error error => exact throw error

theorem repeatsAt {action other : Compile α} (h : Repeats bound n depth depth' action other) :
    RepeatsAt kind bound n depth depth' action other :=
  fun s hs _ => h s hs

end Repeats

/-! ## Tokens, rules and names -/

theorem repeats_openRule (rule : Rule) :
    Repeats bound n depth (depth + 1) (openRule rule) (openRule rule) :=
  .update (fun _ _ _ => rfl) (fun _ hs => ⟨hs.bound, hs.supply, congrArg (· + 1) hs.depth⟩)
    fun _ => rfl

theorem repeats_closeRule : Repeats bound n (depth + 1) depth closeRule closeRule := by
  have houter : ∀ s, Stands bound n (depth + 1) s → s.compiler.tree.outer ≠ [] := by
    intro s hs hnil
    have hlength := hs.depth
    rw [hnil] at hlength
    cases hlength
  refine .update (fun s context hs => ?_) (fun s hs => ⟨hs.bound, hs.supply, ?_⟩) fun _ => rfl
  · simp only [onto, Tree.Builder.into_closeRule (houter s hs)]
  · have hlength := hs.depth
    simp only [Tree.Builder.closeRule]
    split
    next hnil => exact absurd hnil (houter s hs)
    next hcons =>
      rw [hcons] at hlength
      exact Nat.succ.inj hlength

theorem repeats_record (token : Token) : Stays (record token) :=
  .update (fun _ _ _ => by simp only [onto, Tree.Builder.into_terminal])
    (fun _ hs => ⟨hs.bound, hs.supply, hs.depth⟩) fun _ => rfl

theorem repeats_peek : Stays peek :=
  .view fun _ _ => rfl

theorem repeats_locate (token : Token) : Stays (locate token) :=
  (Repeats.view (fun _ _ => rfl)).bind fun _ => .pure _

theorem repeats_unexpected (expected : Expected) :
    Repeats bound n depth depth' (unexpected expected : Compile α) (unexpected expected) :=
  (Repeats.view (fun _ _ => rfl)).bind fun _ => (repeats_locate _).bind fun _ => .throw _

/-- A token that is taken cannot be taken again. -/
theorem Stands.take {token : Token} {s' : State} (h : Stands bound n depth s)
    (hkind : s.compiler.current.kind ≠ .endOfInput) (hok : Compiler.take s = .ok token s') :
    n ≠ 0 ∧ Stands bound (n - 1) depth s' := by
  obtain ⟨machine, source, current, upcoming, rounds, symbols, tree, frame, startup, pending⟩ := s
  have hsupply := h.supply
  simp only [Compiler.supply, if_neg hkind] at hsupply
  refine ⟨by omega, ?_⟩
  cases upcoming with
  | failed error => cases hok
  | done offset =>
      cases hok
      exact ⟨h.bound, Nat.zero_le _, h.depth⟩
  | cons next rest =>
      cases hok
      refine ⟨h.bound, ?_, h.depth⟩
      simp only [Compiler.supply, Token.Stream.length] at hsupply ⊢
      split <;> omega

theorem repeats_take : Stays take := by
  rintro bound n depth
    ⟨machine, source, current, upcoming, rounds, symbols, tree, frame, startup, pending⟩
    ⟨hbound, hsupply, hdepth⟩
  cases upcoming with
  | failed error => exact ⟨fun _ => rfl, fun _ _ hok => by cases hok⟩
  | done offset =>
      refine ⟨fun _ => rfl, ?_⟩
      rintro _ _ ⟨⟩
      exact ⟨⟨hbound, Nat.zero_le _, hdepth⟩, rfl⟩
  | cons next rest =>
      refine ⟨fun _ => rfl, ?_⟩
      rintro _ _ ⟨⟩
      refine ⟨⟨hbound, ?_, hdepth⟩, rfl⟩
      simp only [supply, Token.Stream.length] at hsupply ⊢
      split <;> omega

/-- Behind a token that is taken one token fewer can be taken. -/
theorem repeatsAt_take {next next' : Token → Compile α} (hkind : kind ≠ .endOfInput)
    (hnext : ∀ token m, m < n → Repeats bound m depth depth' (next token) (next' token)) :
    RepeatsAt kind bound n depth depth' (take >>= next) (take >>= next') := by
  intro s hs hcurrent
  have htake := repeats_take s hs
  cases hresult : Compiler.take s with
  | error error s' =>
      refine ⟨fun context => ?_, fun value s'' hok => ?_⟩
      · have hsame := htake.same context
        rw [hresult] at hsame
        rw [bind_run_of_error hsame, bind_run_of_error hresult]
        rfl
      · rw [bind_run_of_error hresult] at hok
        cases hok
  | ok token s' =>
      obtain ⟨hn, hstands⟩ := hs.take (hcurrent ▸ hkind) hresult
      have hless : Echoes s bound (n - 1) depth take take :=
        ⟨htake.same, fun token' s'' hok => ⟨(hs.take (hcurrent ▸ hkind) hok).2,
          (htake.stands token' s'' hok).2⟩⟩
      exact (hless.bind fun token => hnext token (n - 1) (by omega)).mono (Nat.sub_le n 1)

theorem repeats_advance : Stays advance :=
  (repeats_take).bind fun _ => repeats_record _

theorem repeatsAt_advance {next next' : Compile α} (hkind : kind ≠ .endOfInput)
    (hnext : ∀ m, m < n → Repeats bound m depth depth' next next') :
    RepeatsAt kind bound n depth depth' (advance >>= fun _ => next)
      (advance >>= fun _ => next') := by
  have htake : RepeatsAt kind bound n depth depth'
      (take >>= fun token => record token >>= fun _ => next)
      (take >>= fun token => record token >>= fun _ => next') :=
    repeatsAt_take hkind fun token m hm => (repeats_record token).bind fun _ => hnext m hm
  simpa only [advance, bind_assoc] using htake

theorem repeats_peek_bind {next next' : Token.Kind → Compile α}
    (hnext : ∀ kind, RepeatsAt kind bound n depth depth' (next kind) (next' kind)) :
    Repeats bound n depth depth' (peek >>= next) (peek >>= next') := by
  intro s hs
  have hechoes := hnext s.compiler.current.kind s hs rfl
  exact ⟨hechoes.same, hechoes.stands⟩

theorem repeats_atKind (kind : Token.Kind) : Stays (atKind kind) :=
  (repeats_peek).bind fun _ => .pure _

theorem repeats_atMark (mark : Punctuator) : Stays (atMark mark) :=
  repeats_atKind _

theorem repeats_expect (kind : Token.Kind) : Stays (expect kind) :=
  (repeats_atKind kind).bind fun _ =>
    .ite (repeats_advance) (repeats_unexpected _)

theorem repeats_expectMark (mark : Punctuator) : Stays (expectMark mark) :=
  repeats_expect _

theorem repeats_expectIdentifier : Stays expectIdentifier := by
  refine (Repeats.view (fun _ _ => rfl)).bind fun token => ?_
  cases token.kind with
  | identifier name =>
      exact (repeats_locate token).bind fun _ => (repeats_advance).bind fun _ => .pure _
  | _ => exact repeats_unexpected _

theorem repeats_expectType : Stays expectType := by
  refine (repeats_peek).bind fun kind => ?_
  cases kind.typeName? with
  | some type => exact (repeats_advance).bind fun _ => .pure type
  | none => exact repeats_unexpected _

theorem repeats_resolve (name : String) (position : Position) : Stays (resolve name position) :=
  (Repeats.view (fun _ _ => rfl)).bind fun _ => .ofExcept _

/-! ## Instructions -/

theorem repeats_here : Stays here := by
  intro bound n depth s hs
  refine ⟨fun _ => rfl, ?_⟩
  rintro _ _ ⟨⟩
  exact ⟨hs, rfl⟩

theorem repeats_emit (opcode : Opcode) : Stays (emit opcode) :=
  (Repeats.onMachine _).bind fun _ => .pure _

theorem repeats_emitWith (opcode : Opcode) (operand : Word) : Stays (emitWith opcode operand) :=
  (repeats_emit opcode).bind fun _ => (Repeats.onMachine _).bind fun _ =>
    .pure _

theorem repeats_emitPending (opcode : Opcode) : Stays (emitPending opcode) :=
  (repeats_emit opcode).bind fun _ => .onMachine _

theorem repeats_patchHere (site : Nat) : Stays (patchHere site) :=
  (repeats_here).bind fun _ => .onMachine _

theorem repeats_emitAddress (symbol : Symbol) : Stays (emitAddress symbol) :=
  repeats_emitWith _ _

/-! ## Expressions -/

variable {operand operand' argument argument' : Compile Unit}

theorem repeats_linkOperand (hoperand : ∀ depth, Repeats bound n depth depth operand operand')
    (link : Link) :
    Repeats bound n depth depth (linkOperand operand link) (linkOperand operand' link) := by
  cases link with
  | combines operator =>
      exact (repeats_emit _).bind fun _ => (hoperand _).bind fun _ => repeats_emit _
  | decides jump =>
      exact (repeats_emitPending _).bind fun _ => (hoperand _).bind fun _ =>
        (repeats_patchHere _).bind fun _ => (repeats_emit _).bind fun _ =>
        (repeats_emitWith _ _).bind fun _ => repeats_emit _

theorem repeats_chain (level : Level)
    (hoperand : ∀ depth, Repeats bound n depth depth operand operand') (rounds : Nat) :
    Repeats bound n depth depth (chain level operand rounds) (chain level operand' rounds) := by
  induction rounds with
  | zero => exact .throw _
  | succ rounds ih =>
      refine (repeats_peek).bind fun kind => ?_
      cases level.link? kind with
      | none => exact .pure _
      | some link =>
          exact (repeats_advance).bind fun _ =>
            (repeats_linkOperand hoperand link).bind fun _ => ih

theorem repeats_cascade {first first' : Compile Unit}
    (hfirst : ∀ depth, Repeats bound n depth depth first first')
    (hoperand : ∀ depth, Repeats bound n depth depth operand operand') (levels : List Level) :
    Repeats bound n depth depth (cascade first operand levels)
      (cascade first' operand' levels) := by
  induction levels generalizing depth first first' with
  | nil => exact hfirst depth
  | cons level tighter ih =>
      exact (repeats_openRule _).bind fun _ => (ih hfirst).bind fun _ =>
        (Repeats.view (fun _ _ => rfl)).bind fun _ =>
        (repeats_chain level (fun _ => ih hoperand) _).bind fun _ => repeats_closeRule

theorem repeats_arguments (hargument : ∀ depth, Repeats bound n depth depth argument argument')
    (rounds : Nat) :
    Repeats bound n depth depth (arguments argument rounds) (arguments argument' rounds) := by
  induction rounds with
  | zero => exact .throw _
  | succ rounds ih =>
      exact (hargument _).bind fun _ => (repeats_emit _).bind fun _ =>
        (repeats_atMark _).bind fun _ =>
        .ite ((repeats_advance).bind fun _ => ih.bind fun _ => .pure _) (.pure _)

theorem repeats_emitCall (callee : Symbol) (given : Nat) (position : Position) :
    Stays (emitCall callee given position) := by
  intro bound n depth
  have hadjust : Stays
      (if 0 < given then emitWith .adj (Word.ofCount given) else Pure.pure ()) :=
    .ite (repeats_emitWith _ _) (.pure _)
  refine .ite ?_ (.ite ?_ ?_)
  · cases (Opcode.ofWord? callee.value).filter (·.isTrap) with
    | some trap => exact repeats_emitWith _ _
    | none => exact .throw _
  · exact (repeats_emitWith _ _).bind fun _ => hadjust
  · exact (repeats_emitPending _).bind fun _ =>
      (Repeats.update (by intros; rfl) (fun _ hs => ⟨hs.bound, hs.supply, hs.depth⟩)
        (by intro; rfl)).bind fun _ => hadjust

theorem repeats_call (hargument : ∀ depth, Repeats bound n depth depth argument argument')
    (callee : Symbol) (position : Position) :
    Repeats bound n depth depth (call argument callee position)
      (call argument' callee position) := by
  refine (repeats_expectMark _).bind fun _ => (repeats_atMark _).bind fun _ =>
    .ite ((Repeats.pure 0).bind fun given => ?_)
      ((Repeats.view (fun _ _ => rfl)).bind fun _ =>
        (repeats_arguments hargument _).bind fun given => ?_)
  all_goals
    refine (repeats_expectMark _).bind fun _ => ?_
    cases callee.params with
    | some expected => exact .guard (repeats_emitCall callee given position)
    | none => exact repeats_emitCall callee given position

theorem repeats_nameValue (hargument : ∀ depth, Repeats bound n depth depth argument argument')
    (token : Token) :
    Repeats bound n depth depth (nameValue argument token) (nameValue argument' token) := by
  refine (repeats_locate token).bind fun position => ?_
  cases token.kind with
  | identifier name =>
      refine (repeats_resolve name position).bind fun symbol => ?_
      have hcall : Repeats bound n depth depth
          (do
            openRule .call
            record token
            call argument symbol position
            closeRule)
          (do
            openRule .call
            record token
            call argument' symbol position
            closeRule) :=
        (repeats_openRule _).bind fun _ => (repeats_record token).bind fun _ =>
          (repeats_call hargument symbol position).bind fun _ => repeats_closeRule
      cases symbol.cls with
      | object =>
          exact (repeats_record token).bind fun _ =>
            (repeats_emitAddress symbol).bind fun _ => repeats_emit _
      | constant =>
          exact (repeats_record token).bind fun _ => repeats_emitWith _ _
      | function => exact hcall
      | system => exact hcall
  | _ => exact repeats_unexpected _

theorem repeats_addressOf : Stays addressOf := by
  refine (repeats_expectIdentifier).bind fun found =>
    (repeats_resolve _ _).bind fun symbol => ?_
  exact .guard (repeats_emitAddress symbol)

/-- Operands are nested behind a token only. -/
theorem repeats_primary {nested nested' : Compile Unit}
    (hnested : ∀ m, m < n → ∀ depth, Repeats bound m depth depth nested nested') :
    Repeats bound n depth depth (primary nested) (primary nested') := by
  have hload (word : Word) : Stays (advance >>= fun _ => emitWith .imm word) :=
    (repeats_advance).bind fun _ => repeats_emitWith _ _
  refine repeats_peek_bind fun kind => ?_
  cases kind with
  | number value => exact (hload value).repeatsAt
  | character c => exact (hload _).repeatsAt
  | string text => exact ((Repeats.onMachine _).bind fun _ => hload _).repeatsAt
  | identifier name =>
      exact repeatsAt_take (by nofun) fun token m hm => repeats_nameValue (hnested m hm) token
  | punctuator mark =>
      cases mark with
      | leftParen =>
          exact repeatsAt_advance (by nofun) fun m hm =>
            (hnested m hm _).bind fun _ => repeats_expectMark _
      | _ => exact (repeats_unexpected _).repeatsAt
  | _ => exact (repeats_unexpected _).repeatsAt

/-- How deep operands may nest makes no difference if it is deeper than there are tokens. -/
theorem repeats_unary {most most' : Nat}
    (hmost : most = most' ∨ n < most ∧ n < most') :
    Repeats bound n depth depth (unary most) (unary most') := by
  induction most generalizing n depth most' with
  | zero =>
      obtain rfl : 0 = most' := by omega
      exact .throw _
  | succ most ih =>
      obtain ⟨most', rfl⟩ := Nat.exists_eq_add_one_of_ne_zero (show most' ≠ 0 by omega)
      have hinner : ∀ m, m < n → ∀ depth, Repeats bound m depth depth (unary most) (unary most') :=
        fun m hm _ => ih (by omega)
      have hnested : ∀ m, m < n → ∀ depth, Repeats bound m depth depth
          (cascade (unary most) (unary most) levels)
          (cascade (unary most') (unary most') levels) :=
        fun m hm _ => repeats_cascade (hinner m hm) (hinner m hm) levels
      have hclose (word : Word) (operator : Operator) (m : Nat) :
          Repeats bound m (depth + 1) depth
            (do
              emit .push
              emitWith .imm word
              emit (.binary operator)
              closeRule)
            (do
              emit .push
              emitWith .imm word
              emit (.binary operator)
              closeRule) :=
        (repeats_emit _).bind fun _ => (repeats_emitWith _ _).bind fun _ =>
          (repeats_emit _).bind fun _ => repeats_closeRule
      have hprimary {kind : Token.Kind} : RepeatsAt kind bound n (depth + 1) depth
          (do
            primary (cascade (unary most) (unary most) levels)
            closeRule)
          (do
            primary (cascade (unary most') (unary most') levels)
            closeRule) :=
        ((repeats_primary hnested).bind fun _ => repeats_closeRule).repeatsAt
      refine (repeats_openRule _).bind fun _ => repeats_peek_bind fun kind => ?_
      cases kind with
      | punctuator mark =>
          cases mark with
          | minus =>
              exact repeatsAt_advance (by nofun) fun m hm => (repeats_emitWith _ _).bind fun _ =>
                (repeats_emit _).bind fun _ => (hinner m hm _).bind fun _ =>
                (repeats_emit _).bind fun _ => repeats_closeRule
          | plus =>
              exact repeatsAt_advance (by nofun) fun m hm => (hinner m hm _).bind fun _ =>
                repeats_closeRule
          | bang =>
              exact repeatsAt_advance (by nofun) fun m hm => (hinner m hm _).bind fun _ =>
                hclose 0 .eq m
          | tilde =>
              exact repeatsAt_advance (by nofun) fun m hm => (hinner m hm _).bind fun _ =>
                hclose (-1) .xor m
          | star =>
              exact repeatsAt_advance (by nofun) fun m hm => (hinner m hm _).bind fun _ =>
                (repeats_emit _).bind fun _ => repeats_closeRule
          | amp =>
              exact repeatsAt_advance (by nofun) fun m hm => (repeats_addressOf).bind fun _ =>
                repeats_closeRule
          | _ => exact hprimary
      | keyword word =>
          cases word with
          | sizeofKw =>
              exact repeatsAt_advance (by nofun) fun m hm => (repeats_expectMark _).bind fun _ =>
                (repeats_expectType).bind fun _ => (repeats_expectMark _).bind fun _ =>
                (repeats_emitWith _ _).bind fun _ => repeats_closeRule
          | _ => exact hprimary
      | _ => exact hprimary

theorem repeats_expression : Stays expression :=
  (Repeats.view (fun _ _ => rfl)).bind fun _ =>
    repeats_cascade (fun _ => repeats_unary (.inl rfl)) (fun _ => repeats_unary (.inl rfl)) levels

/-- An expression is the cascade of all levels with a bound of any size. -/
theorem repeats_expression_cascade {most : Nat} (hbound : n < bound) (hmost : n < most) :
    Repeats bound n depth depth expression (cascade (unary most) (unary most) levels) := by
  have hcascade : Repeats bound n depth depth (cascade (unary bound) (unary bound) levels)
      (cascade (unary most) (unary most) levels) :=
    repeats_cascade (fun _ => repeats_unary (.inr ⟨hbound, hmost⟩))
      (fun _ => repeats_unary (.inr ⟨hbound, hmost⟩)) levels
  intro s hs
  have hexpression : expression s = cascade (unary bound) (unary bound) levels s := by
    rw [← hs.bound]
    rfl
  have hechoes := hcascade s hs
  exact ⟨fun context => hexpression ▸ hechoes.same context,
    fun value s' hok => hechoes.stands value s' (hexpression ▸ hok)⟩

theorem repeats_expressionFrom (head : Token) : Stays (expressionFrom head) :=
  (Repeats.view (fun _ _ => rfl)).bind fun _ =>
    repeats_cascade (fun _ => repeats_nameValue (fun _ => repeats_expression) head)
      (fun _ => repeats_unary (.inl rfl)) levels

end WordC.Compiler
