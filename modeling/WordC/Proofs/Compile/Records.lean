import WordC.Compiler.Declaration
import WordC.Proofs.Compile.Sketch
import WordC.Proofs.Tree.Builder

/-!
# Recording tokens

At any time of a compilation each token of the source has been recorded in the tree, has been taken
and is held, or is still to be taken, in this order. A rule records what it takes, and the name that
it is handed, before it takes the next token.
-/

namespace WordC

/-- The texts of the tokens. -/
def Token.Stream.texts : Token.Stream → List String
  | done _ => []
  | failed _ => []
  | cons token rest => token.text :: rest.texts

theorem Token.Stream.length_texts (stream : Token.Stream) :
    stream.texts.length = stream.length := by
  induction stream with
  | done => rfl
  | failed => rfl
  | cons token rest ih => rw [texts, length, List.length_cons, ih]

namespace Compiler

variable {α β : Type} {held : List String} {kind : Token.Kind} {stream : Token.Stream} {least : Nat}
  {s s' : State}

/-- The texts of the tokens that are still to be taken. -/
def remaining (compiler : Compiler) : List String :=
  if compiler.current.kind = .endOfInput then []
  else compiler.current.text :: compiler.upcoming.texts

/-- The parts of the compiler that records are about. -/
def parsing (compiler : Compiler) : Token × Token.Stream × Nat × Tree.Builder :=
  (compiler.current, compiler.upcoming, compiler.bound, compiler.tree)

/-- The tokens of the stream are those recorded, those held and those to be taken; at least so many
have been recorded. -/
structure Recorded (stream : Token.Stream) (held : List String) (least : Nat) (s : State) :
    Prop where
  texts : s.compiler.tree.terminals ++ (held ++ s.compiler.remaining) = stream.texts
  least : least ≤ s.compiler.tree.terminals.length
  collapsed : s.compiler.tree.Collapsed
  failure : s.compiler.upcoming.failure? = stream.failure?
  proper : .endOfInput ∉ s.compiler.upcoming.kinds
  ended : s.compiler.current.kind = .endOfInput → stream.failure? = none
  bound : stream.texts.length < s.compiler.bound

theorem Recorded.mono {more : Nat} (h : Recorded stream held more s) (hle : least ≤ more) :
    Recorded stream held least s :=
  { h with least := Nat.le_trans hle h.least }

/-- What holds after an action that gives a result. -/
def Turns (pre : State → Prop) (action : Compile α) (post : α → State → Prop) : Prop :=
  ∀ ⦃s value s'⦄, pre s → action s = .ok value s' → post value s'

theorem Turns.bind {pre : State → Prop} {action : Compile α} {middle : α → State → Prop}
    {next : α → Compile β} {post : β → State → Prop} (haction : Turns pre action middle)
    (hnext : ∀ value, Turns (middle value) (next value) post) :
    Turns pre (action >>= next) post := by
  intro s value s' hpre hok
  obtain ⟨first, between, hfirst, hsecond⟩ := bind_eq_ok.1 hok
  exact hnext first (haction hpre hfirst) hsecond

theorem Turns.ite {pre : State → Prop} {post : α → State → Prop} {condition : Prop}
    [Decidable condition] {first second : Compile α} (hfirst : Turns pre first post)
    (hsecond : Turns pre second post) : Turns pre (if condition then first else second) post := by
  by_cases h : condition
  · rwa [if_pos h]
  · rwa [if_neg h]

/-- An action that neither takes nor records a token. -/
structure Keeps (action : Compile α) : Prop where
  current : ∀ ⦃s value s'⦄, action s = .ok value s' → s'.compiler.current = s.compiler.current
  recorded : ∀ stream held least, Turns (Recorded stream held least) action fun _ =>
    Recorded stream held least

/-- An action that records the tokens it takes, behind the one that is held. -/
def Settles (held : List String) (action : Compile α) : Prop :=
  ∀ stream least, Turns (Recorded stream held least) action fun _ => Recorded stream [] least

/-- An action that does so in front of a token of this kind. -/
def SettlesAt (kind : Token.Kind) (action : Compile α) : Prop :=
  ∀ stream least, Turns (fun s => Recorded stream [] least s ∧ s.compiler.current.kind = kind) action
    fun _ => Recorded stream [] least

/-- An action that does so and takes a token at least. -/
def Gains (action : Compile α) : Prop :=
  ∀ stream least, Turns (Recorded stream [] least) action fun _ => Recorded stream [] (least + 1)

namespace Keeps

theorem pure (value : α) : Keeps (Pure.pure value : Compile α) where
  current := by
    rintro s _ s' ⟨⟩
    rfl
  recorded := by
    rintro stream held least s _ s' hrecorded ⟨⟩
    exact hrecorded

theorem throw (error : Error) : Keeps (throw error : Compile α) where
  current := fun _ _ _ hok => absurd hok throw_ne_ok
  recorded := fun _ _ _ _ _ _ _ hok => absurd hok throw_ne_ok

theorem bind {action : Compile α} {next : α → Compile β} (haction : Keeps action)
    (hnext : ∀ value, Keeps (next value)) : Keeps (action >>= next) where
  current := by
    intro s value s' hok
    obtain ⟨first, between, hfirst, hsecond⟩ := bind_eq_ok.1 hok
    exact ((hnext first).current hsecond).trans (haction.current hfirst)
  recorded := fun stream held least =>
    (haction.recorded stream held least).bind fun value => (hnext value).recorded stream held least

theorem ite {condition : Prop} [Decidable condition] {first second : Compile α}
    (hfirst : Keeps first) (hsecond : Keeps second) :
    Keeps (if condition then first else second) := by
  by_cases h : condition
  · rwa [if_pos h]
  · rwa [if_neg h]

theorem guard {condition : Prop} [Decidable condition] {error : Error} {next : Compile α}
    (hnext : Keeps next) :
    Keeps (if condition then ((MonadExcept.throw error : Compile PUnit) >>= fun _ => next)
      else next) :=
  .ite ((throw error).bind fun _ => hnext) hnext

theorem onMachine (action : Action α) : Keeps (onMachine action) := by
  have hok : ∀ {s value s'}, Compiler.onMachine action s = .ok value s' →
      s'.compiler = s.compiler := by
    rintro ⟨machine, compiler⟩ value s' hok
    unfold Compiler.onMachine at hok
    simp only at hok
    cases hresult : action machine with
    | ok result machine' =>
        rw [hresult] at hok
        cases hok
        rfl
    | error error machine' =>
        rw [hresult] at hok
        cases hok
  refine ⟨fun s value s' h => by rw [hok h], fun stream held least s value s' hrecorded h => ?_⟩
  have hcompiler := hok h
  obtain ⟨htexts, hleast, hcollapsed, hfailure, hproper, hended, hbound⟩ := hrecorded
  rw [← hcompiler] at htexts hleast hcollapsed hfailure hproper hended hbound
  exact ⟨htexts, hleast, hcollapsed, hfailure, hproper, hended, hbound⟩

theorem view (field : Compiler → α) : Keeps (view field) where
  current := by
    rintro s _ s' ⟨⟩
    rfl
  recorded := by
    rintro stream held least s _ s' hrecorded ⟨⟩
    exact hrecorded

/-- A change of the tree keeps its texts and makes no level with a single child. -/
theorem updateTree {change : Compiler → Compiler}
    (hcurrent : ∀ compiler, (change compiler).current = compiler.current)
    (hupcoming : ∀ compiler, (change compiler).upcoming = compiler.upcoming)
    (hbound : ∀ compiler, (change compiler).bound = compiler.bound)
    (hterminals : ∀ compiler, (change compiler).tree.terminals = compiler.tree.terminals)
    (hcollapsed : ∀ compiler, compiler.tree.Collapsed → (change compiler).tree.Collapsed) :
    Keeps (update change) where
  current := by
    rintro s _ s' ⟨⟩
    exact hcurrent _
  recorded := by
    rintro stream held least s _ s' hrecorded ⟨⟩
    exact
      { texts := by
          change (change s.compiler).tree.terminals ++ (held ++ (change s.compiler).remaining) = _
          rw [remaining, hcurrent, hupcoming, hterminals]
          exact hrecorded.texts
        least := Nat.le_trans hrecorded.least
          (Nat.le_of_eq (congrArg List.length (hterminals _)).symm)
        collapsed := hcollapsed _ hrecorded.collapsed
        failure := (congrArg Token.Stream.failure? (hupcoming _)).trans hrecorded.failure
        proper := by
          change _ ∉ (change s.compiler).upcoming.kinds
          rw [hupcoming]
          exact hrecorded.proper
        ended := by
          change (change s.compiler).current.kind = _ → _
          rw [hcurrent]
          exact hrecorded.ended
        bound := Nat.lt_of_lt_of_eq hrecorded.bound (hbound _).symm }

theorem update {change : Compiler → Compiler}
    (h : ∀ compiler, (change compiler).parsing = compiler.parsing) : Keeps (update change) :=
  updateTree (fun compiler => congrArg (·.1) (h compiler))
    (fun compiler => congrArg (·.2.1) (h compiler))
    (fun compiler => congrArg (·.2.2.1) (h compiler))
    (fun compiler => congrArg (·.2.2.2.terminals) (h compiler))
    fun compiler hcollapsed => congrArg (·.2.2.2.Collapsed) (h compiler) ▸ hcollapsed

theorem ofExcept (result : Except Error α) : Keeps (ofExcept result) := by
  cases result with
  | ok value => exact pure value
  | error error => exact throw error

theorem settles {action : Compile α} (h : Keeps action) : Settles [] action :=
  fun stream least => h.recorded stream [] least

end Keeps

namespace Settles

theorem bind {action : Compile α} {next : α → Compile β} (haction : Settles held action)
    (hnext : ∀ value, Settles [] (next value)) : Settles held (action >>= next) :=
  fun stream least => (haction stream least).bind fun value => hnext value stream least

theorem ite {condition : Prop} [Decidable condition] {first second : Compile α}
    (hfirst : Settles held first) (hsecond : Settles held second) :
    Settles held (if condition then first else second) :=
  fun stream least => (hfirst stream least).ite (hsecond stream least)

theorem settlesAt {action : Compile α} (h : Settles [] action) : SettlesAt kind action :=
  fun stream least _ _ _ hpre => h stream least hpre.1

end Settles

theorem Keeps.next {action : Compile α} {next : α → Compile β} (haction : Keeps action)
    (hnext : ∀ value, Settles held (next value)) : Settles held (action >>= next) :=
  fun stream least => (haction.recorded stream held least).bind fun value => hnext value stream least

theorem Keeps.turns {action : Compile α} {next : α → Compile β} {post : β → State → Prop}
    (haction : Keeps action)
    (hnext : ∀ value, Turns (fun s => Recorded stream [] least s ∧ s.compiler.current.kind = kind)
      (next value) post) :
    Turns (fun s => Recorded stream [] least s ∧ s.compiler.current.kind = kind) (action >>= next)
      post := by
  intro s value s' hpre hok
  obtain ⟨first, between, hfirst, hsecond⟩ := bind_eq_ok.1 hok
  refine hnext first ⟨haction.recorded stream [] least hpre.1 hfirst, ?_⟩ hsecond
  rw [haction.current hfirst, hpre.2]

theorem Keeps.nextAt {action : Compile α} {next : α → Compile β} (haction : Keeps action)
    (hnext : ∀ value, SettlesAt kind (next value)) : SettlesAt kind (action >>= next) :=
  fun stream least => haction.turns fun value => hnext value stream least

theorem Keeps.nextGains {action : Compile α} {next : α → Compile β} (haction : Keeps action)
    (hnext : ∀ value, Gains (next value)) : Gains (action >>= next) :=
  fun stream least => (haction.recorded stream [] least).bind fun value => hnext value stream least

theorem Gains.bind {action : Compile α} {next : α → Compile β} (haction : Gains action)
    (hnext : ∀ value, Settles [] (next value)) : Gains (action >>= next) :=
  fun stream least => (haction stream least).bind fun value => hnext value stream (least + 1)

theorem Gains.settles {action : Compile α} (h : Gains action) : Settles [] action :=
  fun stream least _ _ _ hpre hok => (h stream least hpre hok).mono (Nat.le_succ least)

theorem SettlesAt.bind {action : Compile α} {next : α → Compile β} (haction : SettlesAt kind action)
    (hnext : ∀ value, Settles [] (next value)) : SettlesAt kind (action >>= next) :=
  fun stream least => (haction stream least).bind fun value => hnext value stream least

/-! ## Tokens -/

theorem keeps_openRule (rule : Rule) : Keeps (openRule rule) :=
  .updateTree (fun _ => rfl) (fun _ => rfl) (fun _ => rfl)
    (fun _ => Tree.Builder.terminals_openRule _ rule)
    fun _ h => h.openRule rule

theorem keeps_closeRule : Keeps closeRule :=
  .updateTree (fun _ => rfl) (fun _ => rfl) (fun _ => rfl)
    (fun _ => Tree.Builder.terminals_closeRule _)
    fun _ h => h.closeRule

theorem keeps_peek : Keeps peek :=
  .view _

theorem keeps_locate (token : Token) : Keeps (locate token) :=
  (Keeps.view _).bind fun _ => .pure _

/-- What throws an error settles whatever is held. -/
theorem settles_unexpected (expected : Expected) :
    Settles held (unexpected expected : Compile α) := by
  intro stream least s value s' _ hok
  cases hok

theorem settlesAt_unexpected (expected : Expected) {next : α → Compile β} :
    SettlesAt kind (unexpected expected >>= next) := by
  intro stream least s value s' _ hok
  obtain ⟨_, _, hfirst, -⟩ := bind_eq_ok.1 hok
  cases hfirst

theorem keeps_atKind (kind : Token.Kind) : Keeps (atKind kind) :=
  keeps_peek.bind fun _ => .pure _

theorem keeps_atMark (mark : Punctuator) : Keeps (atMark mark) :=
  keeps_atKind _

/-- A token that is taken is held. -/
theorem turns_take (hkind : kind ≠ .endOfInput) (stream : Token.Stream) (least : Nat) :
    Turns (fun s => Recorded stream [] least s ∧ s.compiler.current.kind = kind) take
      fun token s => token.kind = kind ∧ Recorded stream [token.text] least s := by
  rintro ⟨machine, source, current, upcoming, bound, symbols, tree, frame, startup, pending⟩ token s'
    ⟨⟨htexts, hleast, hcollapsed, hfailure, hproper, -, hbound⟩, hcurrent⟩ hok
  change current.kind = kind at hcurrent
  subst hcurrent
  simp only [List.nil_append, remaining, if_neg hkind] at htexts
  cases upcoming with
  | failed error => cases hok
  | done offset =>
      cases hok
      exact ⟨rfl, ⟨htexts, hleast, hcollapsed, hfailure, List.not_mem_nil, fun _ => hfailure.symm,
        hbound⟩⟩
  | cons next rest =>
      cases hok
      rw [Token.Stream.kinds, List.mem_cons, not_or] at hproper
      have hnext : next.kind ≠ .endOfInput := Ne.symm hproper.1
      refine ⟨rfl, ⟨?_, hleast, hcollapsed, hfailure, hproper.2, fun h => absurd h hnext,
        hbound⟩⟩
      simp only [remaining, if_neg hnext]
      exact htexts

theorem turns_record (token : Token) (stream : Token.Stream) (least : Nat) :
    Turns (Recorded stream [token.text] least) (record token) fun _ =>
      Recorded stream [] (least + 1) := by
  rintro s _ s' ⟨htexts, hleast, hcollapsed, hfailure, hproper, hended, hbound⟩ ⟨⟩
  refine ⟨?_, ?_, hcollapsed.terminal token.text, hfailure, hproper, hended, hbound⟩
  · simpa [remaining] using htexts
  · simpa using hleast

theorem settles_record (token : Token) : Settles [token.text] (record token) :=
  fun stream least _ _ _ hpre hok =>
    (turns_record token stream least hpre hok).mono (Nat.le_succ least)

theorem turns_advance (hkind : kind ≠ .endOfInput) (stream : Token.Stream) (least : Nat) :
    Turns (fun s => Recorded stream [] least s ∧ s.compiler.current.kind = kind) advance fun _ =>
      Recorded stream [] (least + 1) := by
  refine (turns_take hkind stream least).bind fun token s _ s' htoken hok => ?_
  exact turns_record token stream least htoken.2 hok

theorem settlesAt_advance (hkind : kind ≠ .endOfInput) : SettlesAt kind advance :=
  fun stream least _ _ _ hpre hok =>
    (turns_advance hkind stream least hpre hok).mono (Nat.le_succ least)

/-- A name that is taken is handed on. -/
theorem settlesAt_take {next : Token → Compile α}
    (hnext : ∀ token, token.kind = kind → Settles [token.text] (next token))
    (hkind : kind ≠ .endOfInput) :
    SettlesAt kind (take >>= next) :=
  fun stream least => (turns_take hkind stream least).bind fun token _ _ _ htoken =>
    hnext token htoken.1 stream least htoken.2

theorem settles_peek {next : Token.Kind → Compile α} (hnext : ∀ kind, SettlesAt kind (next kind)) :
    Settles [] (peek >>= next) := by
  intro stream least s value s' hpre hok
  exact hnext s.compiler.current.kind stream least ⟨hpre, rfl⟩ hok

theorem settles_atKind {next : Bool → Compile α} (hyes : SettlesAt kind (next true))
    (hno : Settles [] (next false)) : Settles [] (atKind kind >>= next) := by
  have hpeek : Settles [] (peek >>= fun found => next (decide (found = kind))) := by
    refine settles_peek fun found => ?_
    by_cases h : found = kind
    · rw [decide_eq_true h, h]
      exact hyes
    · rw [decide_eq_false h]
      exact hno.settlesAt
  exact hpeek

theorem settles_atMark {mark : Punctuator} {next : Bool → Compile α}
    (hyes : SettlesAt (.punctuator mark) (next true)) (hno : Settles [] (next false)) :
    Settles [] (atMark mark >>= next) :=
  settles_atKind hyes hno

/-- Where a token decides, it is taken. -/
theorem settles_ifKind {yes no : Compile α} (hyes : Settles [] yes) (hno : Settles [] no)
    (hkind : kind ≠ .endOfInput) :
    Settles [] (atKind kind >>= fun found =>
      if found = true then advance >>= fun _ => yes else no) :=
  settles_atKind ((settlesAt_advance hkind).bind fun _ => hyes) hno

theorem settles_ifMark {mark : Punctuator} {yes no : Compile α} (hyes : Settles [] yes)
    (hno : Settles [] no) :
    Settles [] (atMark mark >>= fun found =>
      if found = true then advance >>= fun _ => yes else no) :=
  settles_ifKind hyes hno (by nofun)

theorem gains_expect (kind : Token.Kind) (hkind : kind ≠ .endOfInput) :
    Gains (expect kind) := by
  intro stream least s value s' hpre hok
  have hexpect : expect kind s =
      (if s.compiler.current.kind = kind then advance else unexpected (.kind kind)) s := by
    change (if decide (s.compiler.current.kind = kind) = true then advance
      else unexpected (.kind kind)) s = _
    simp only [decide_eq_true_eq]
  rw [hexpect] at hok
  split at hok
  · next h => exact turns_advance hkind stream least ⟨hpre, h⟩ hok
  · cases hok

theorem gains_expectMark (mark : Punctuator) : Gains (expectMark mark) :=
  gains_expect _ (by nofun)

theorem settles_expectMark (mark : Punctuator) : Settles [] (expectMark mark) :=
  (gains_expectMark mark).settles

theorem settles_expect (kind : Token.Kind) (hkind : kind ≠ .endOfInput) :
    Settles [] (expect kind) :=
  (gains_expect kind hkind).settles

theorem settles_viewCurrent {next : Token → Compile α}
    (hnext : ∀ token, SettlesAt token.kind (next token)) :
    Settles [] (view (·.current) >>= next) := by
  intro stream least s value s' hpre hok
  exact hnext s.compiler.current stream least ⟨hpre, rfl⟩ hok

theorem settles_expectIdentifier : Settles [] expectIdentifier := by
  refine settles_viewCurrent fun token => ?_
  cases token.kind with
  | identifier name =>
      exact (keeps_locate token).nextAt fun _ =>
        (settlesAt_advance (by nofun)).bind fun _ => (Keeps.pure _).settles
  | _ => exact (settles_unexpected _).settlesAt

theorem gains_expectType : Gains expectType := by
  intro stream least s value s' hpre hok
  obtain ⟨kind, between, hpeek, hnext⟩ := bind_eq_ok.1 hok
  cases hpeek
  cases htype : s.compiler.current.kind.typeName? with
  | none =>
      rw [htype] at hnext
      cases hnext
  | some type =>
      rw [htype] at hnext
      obtain ⟨_, last, hadvance, hpure⟩ := bind_eq_ok.1 hnext
      obtain ⟨-, rfl⟩ := pure_eq_ok.1 hpure
      have hkind : s.compiler.current.kind ≠ .endOfInput := by
        intro hend
        rw [hend] at htype
        cases htype
      exact turns_advance hkind stream least ⟨hpre, rfl⟩ hadvance

/-! ## Names and instructions -/

theorem keeps_declare (symbol : Symbol) : Keeps (declare symbol) :=
  (Keeps.view _).bind fun _ => (Keeps.ofExcept _).bind fun _ =>
    (Keeps.update (by intro; rfl)).bind fun _ => .pure _

theorem keeps_resolve (name : String) (position : Position) : Keeps (resolve name position) :=
  (Keeps.view _).bind fun _ => .ofExcept _

theorem keeps_enterScope : Keeps enterScope :=
  .update fun _ => rfl

theorem keeps_leaveScope : Keeps leaveScope := by
  refine (Keeps.view _).bind fun symbols => ?_
  cases symbols.leave? with
  | some outside => exact .update fun _ => rfl
  | none => exact .throw _

theorem keeps_here : Keeps here where
  current := by
    rintro s _ s' ⟨⟩
    rfl
  recorded := by
    rintro stream held least s _ s' hrecorded ⟨⟩
    exact hrecorded

theorem keeps_emit (opcode : Opcode) : Keeps (emit opcode) :=
  (Keeps.onMachine _).bind fun _ => .pure _

theorem keeps_emitWith (opcode : Opcode) (operand : Word) : Keeps (emitWith opcode operand) :=
  (keeps_emit opcode).bind fun _ => (Keeps.onMachine _).bind fun _ => .pure _

theorem keeps_emitPending (opcode : Opcode) : Keeps (emitPending opcode) :=
  (keeps_emit opcode).bind fun _ => .onMachine _

theorem keeps_patch (site : Nat) (word : Word) : Keeps (patch site word) :=
  .onMachine _

theorem keeps_patchHere (site : Nat) : Keeps (patchHere site) :=
  keeps_here.bind fun _ => keeps_patch site _

theorem keeps_emitAddress (symbol : Symbol) : Keeps (emitAddress symbol) :=
  keeps_emitWith _ _

/-! ## Expressions -/

variable {operand argument statement : Compile Unit}

theorem settles_linkOperand (hoperand : Settles [] operand) (link : Link) :
    Settles [] (linkOperand operand link) := by
  cases link with
  | combines operator =>
      exact (keeps_emit _).next fun _ => hoperand.bind fun _ => (keeps_emit _).settles
  | decides jump =>
      exact (keeps_emitPending _).next fun _ => hoperand.bind fun _ => (keeps_patchHere _).next
        fun _ => (keeps_emit _).next fun _ => (keeps_emitWith _ _).next fun _ =>
        (keeps_emit _).settles

theorem settles_chain (level : Level) (hoperand : Settles [] operand) (rounds : Nat) :
    Settles [] (chain level operand rounds) := by
  induction rounds with
  | zero => exact (Keeps.throw _).settles
  | succ rounds ih =>
      refine settles_peek fun kind => ?_
      cases hlink : level.link? kind with
      | none => exact (Keeps.pure _).settles.settlesAt
      | some link =>
          have hkind : kind ≠ .endOfInput := by
            rintro rfl
            cases hlink
          exact (settlesAt_advance hkind).bind fun _ =>
            (settles_linkOperand hoperand link).bind fun _ => ih

/-- The first operand may be handed a name; the rules of the levels open in front of it. -/
theorem settles_cascade {first : Compile Unit} (hfirst : Settles held first)
    (hoperand : Settles [] operand) (levels : List Level) :
    Settles held (cascade first operand levels) := by
  induction levels generalizing held first with
  | nil => exact hfirst
  | cons level tighter ih =>
      exact (keeps_openRule _).next fun _ => (ih hfirst).bind fun _ => (Keeps.view _).next fun _ =>
        (settles_chain level (ih hoperand) _).bind fun _ => keeps_closeRule.settles

theorem settles_arguments (hargument : Settles [] argument) (rounds : Nat) :
    Settles [] (arguments argument rounds) := by
  induction rounds with
  | zero => exact (Keeps.throw _).settles
  | succ rounds ih =>
      exact hargument.bind fun _ => (keeps_emit _).next fun _ =>
        settles_ifMark (ih.bind fun _ => (Keeps.pure _).settles) (Keeps.pure _).settles

theorem keeps_emitCall (callee : Symbol) (given : Nat) (position : Position) :
    Keeps (emitCall callee given position) := by
  have hadjust : Keeps
      (if 0 < given then emitWith .adj (Word.ofCount given) else Pure.pure ()) :=
    .ite (keeps_emitWith _ _) (.pure _)
  refine .ite ?_ (.ite ?_ ?_)
  · cases (Opcode.ofWord? callee.value).filter (·.isTrap) with
    | some trap => exact keeps_emitWith _ _
    | none => exact .throw _
  · exact (keeps_emitWith _ _).bind fun _ => hadjust
  · exact (keeps_emitPending _).bind fun _ =>
      (Keeps.update (by intro; rfl)).bind fun _ => hadjust

theorem settles_call (hargument : Settles [] argument) (callee : Symbol) (position : Position) :
    Settles [] (call argument callee position) := by
  refine (settles_expectMark _).bind fun _ => (keeps_atMark _).next fun _ =>
    .ite ((Keeps.pure 0).next fun given => ?_)
      ((Keeps.view _).next fun _ => (settles_arguments hargument _).bind fun given => ?_)
  all_goals
    refine (settles_expectMark _).bind fun _ => ?_
    cases callee.params with
    | some expected => exact (Keeps.guard (keeps_emitCall callee given position)).settles
    | none => exact (keeps_emitCall callee given position).settles

theorem settles_nameValue (hargument : Settles [] argument) (token : Token) :
    Settles [token.text] (nameValue argument token) := by
  refine (keeps_locate token).next fun position => ?_
  cases token.kind with
  | identifier name =>
      refine (keeps_resolve name position).next fun symbol => ?_
      have hcall : Settles [token.text] (do
          openRule .call
          record token
          call argument symbol position
          closeRule) :=
        (keeps_openRule _).next fun _ => (settles_record token).bind fun _ =>
          (settles_call hargument symbol position).bind fun _ => keeps_closeRule.settles
      cases symbol.cls with
      | object =>
          exact (settles_record token).bind fun _ => (keeps_emitAddress symbol).next fun _ =>
            (keeps_emit _).settles
      | constant => exact (settles_record token).bind fun _ => (keeps_emitWith _ _).settles
      | function => exact hcall
      | system => exact hcall
  | _ => exact settles_unexpected _

theorem settles_addressOf : Settles [] addressOf := by
  refine settles_expectIdentifier.bind fun found => (keeps_resolve _ _).next fun symbol => ?_
  exact (Keeps.guard (keeps_emitAddress symbol)).settles

theorem settles_primary {nested : Compile Unit} (hnested : Settles [] nested) :
    Settles [] (primary nested) := by
  have hload {kind : Token.Kind} (word : Word) (hkind : kind ≠ .endOfInput) :
      SettlesAt kind (advance >>= fun _ => emitWith .imm word) :=
    (settlesAt_advance hkind).bind fun _ => (keeps_emitWith _ _).settles
  refine settles_peek fun kind => ?_
  cases kind with
  | number value => exact hload value (by nofun)
  | character c => exact hload _ (by nofun)
  | string text => exact (Keeps.onMachine _).nextAt fun _ => hload _ (by nofun)
  | identifier name =>
      exact settlesAt_take (fun token _ => settles_nameValue hnested token) (by nofun)
  | punctuator mark =>
      cases mark with
      | leftParen =>
          exact (settlesAt_advance (by nofun)).bind fun _ =>
            hnested.bind fun _ => settles_expectMark _
      | _ => exact (settles_unexpected _).settlesAt
  | _ => exact (settles_unexpected _).settlesAt

theorem settles_unary (depth : Nat) : Settles [] (unary depth) := by
  induction depth with
  | zero => exact (Keeps.throw _).settles
  | succ depth ih =>
      refine (keeps_openRule _).next fun _ => settles_peek fun kind => ?_
      have hclose (word : Word) (operator : Operator) : Settles [] (do
          emit .push
          emitWith .imm word
          emit (.binary operator)
          closeRule) :=
        (keeps_emit _).next fun _ => (keeps_emitWith _ _).next fun _ => (keeps_emit _).next fun _ =>
          keeps_closeRule.settles
      have hprimary {kind : Token.Kind} : SettlesAt kind (do
          primary (cascade (unary depth) (unary depth) levels)
          closeRule) :=
        ((settles_primary (settles_cascade ih ih levels)).bind fun _ =>
          keeps_closeRule.settles).settlesAt
      cases kind with
      | punctuator mark =>
          cases mark with
          | minus =>
              exact (settlesAt_advance (by nofun)).bind fun _ => (keeps_emitWith _ _).next fun _ =>
                (keeps_emit _).next fun _ => ih.bind fun _ => (keeps_emit _).next fun _ =>
                keeps_closeRule.settles
          | plus =>
              exact (settlesAt_advance (by nofun)).bind fun _ => ih.bind fun _ =>
                keeps_closeRule.settles
          | bang => exact (settlesAt_advance (by nofun)).bind fun _ => ih.bind fun _ => hclose 0 .eq
          | tilde =>
              exact (settlesAt_advance (by nofun)).bind fun _ => ih.bind fun _ => hclose (-1) .xor
          | star =>
              exact (settlesAt_advance (by nofun)).bind fun _ =>
                ih.bind fun _ => (keeps_emit _).next fun _ =>
                keeps_closeRule.settles
          | amp =>
              exact (settlesAt_advance (by nofun)).bind fun _ => settles_addressOf.bind fun _ =>
                keeps_closeRule.settles
          | _ => exact hprimary
      | keyword word =>
          cases word with
          | sizeofKw =>
              exact (settlesAt_advance (by nofun)).bind fun _ =>
                (settles_expectMark _).bind fun _ =>
                gains_expectType.settles.bind fun _ => (settles_expectMark _).bind fun _ =>
                (keeps_emitWith _ _).next fun _ => keeps_closeRule.settles
          | _ => exact hprimary
      | _ => exact hprimary

theorem settles_expression : Settles [] expression :=
  (Keeps.view _).next fun depth => settles_cascade (settles_unary depth) (settles_unary depth) levels

theorem settles_expressionFrom (head : Token) : Settles [head.text] (expressionFrom head) :=
  (Keeps.view _).next fun depth => settles_cascade (settles_nameValue settles_expression head)
    (settles_unary depth) levels

end Compiler

end WordC
