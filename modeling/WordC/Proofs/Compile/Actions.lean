import WordC.Proofs.Compile.Sketch

/-!
# Single actions

What each action of the compiler does to a sketch: writing and patching words, taking tokens, and
declaring and resolving names.
-/

namespace WordC.Compiler

open WordC.Core (Binding Cell Env Instr Place)

variable {α : Type} {origin : Origin} {a b : Sketch}

/-! ## The state at large -/

namespace Sketch.Fits

variable {s : State}

/-- The tokens and tables of a compilation matter, its tree does not. -/
theorem congr {s' : State} (h : a.Fits origin s) (hmachine : s'.machine = s.machine)
    (hcurrent : s'.compiler.current = s.compiler.current)
    (hupcoming : s'.compiler.upcoming = s.compiler.upcoming)
    (hbound : s'.compiler.bound = s.compiler.bound)
    (hsymbols : s'.compiler.symbols = s.compiler.symbols)
    (hframe : s'.compiler.frame = s.compiler.frame)
    (hstartup : s'.compiler.startup = s.compiler.startup)
    (hpending : s'.compiler.pendingCalls = s.compiler.pendingCalls) : a.Fits origin s' := by
  obtain ⟨m, source, current, upcoming, bound, symbols, tree, frame, startup, pending⟩ := s
  obtain ⟨m', source', current', upcoming', bound', symbols', tree', frame', startup', pending'⟩ :=
    s'
  subst hmachine hcurrent hupcoming hbound hsymbols hframe hstartup hpending
  exact
    { h with
      ahead := { h.ahead with }
      pending := h.pending }

end Sketch.Fits

/-- What is known of a part of the compiler in every state that fits. -/
theorem reaches_view {field : Compiler → α} (known : α → Prop)
    (hsome : a.Tabled → ∃ value, known value)
    (hknown : ∀ s, a.Fits origin s → known (field s.compiler)) :
    Reaches origin a (view field) fun value b => b = a ∧ known value where
  attains := by
    intro htabled
    obtain ⟨value, hvalue⟩ := hsome htabled
    exact ⟨value, a, ⟨rfl, hvalue⟩, .refl a, htabled⟩
  yields := fun s hfits => ⟨a, ⟨rfl, hknown s hfits⟩, hfits⟩

theorem ends_view {field : Compiler → α} :
    Ends origin a (view field) fun value b =>
      b = a ∧ ∃ s, a.Fits origin s ∧ value = field s.compiler := by
  rintro s hfits _ _ ⟨⟩
  exact ⟨a, ⟨rfl, s, hfits, rfl⟩, hfits⟩

theorem does_view {field : Compiler → α} {value : α}
    (h : ∀ s, a.Fits origin s → field s.compiler = value) :
    Does origin a (view field) value a :=
  .intro (.refl a) id fun s hfits => ⟨h s hfits, hfits⟩

theorem reaches_seen {field : Compiler → α} (value : α) :
    Reaches origin a (view field) fun _ b => b = a :=
  (reaches_view (fun _ => True) (fun _ => ⟨value, trivial⟩) fun _ _ => trivial).weaken
    fun _ _ h => h.1

theorem reaches_bound :
    Reaches origin a (view (·.bound)) fun bound b => b = a ∧ a.ahead.length < bound :=
  reaches_view _ (fun _ => ⟨_, Nat.lt_succ_self _⟩) fun _ hfits => hfits.ahead.bound

/-- A change of the compiler that no sketch shows. -/
theorem does_unseen {action : Compile Unit}
    (h : ∀ s, a.Fits origin s → ∃ s', action s = .ok () s' ∧ a.Fits origin s') :
    Does origin a action () a := by
  refine .intro (.refl a) id fun s hfits => ?_
  obtain ⟨s', hrun, hfits'⟩ := h s hfits
  unfold Yields
  rw [hrun]
  exact ⟨rfl, hfits'⟩

theorem does_tree (change : Tree.Builder → Tree.Builder) :
    Does origin a (update fun compiler => { compiler with tree := change compiler.tree }) () a :=
  does_unseen fun _ hfits => ⟨_, rfl, hfits.congr rfl rfl rfl rfl rfl rfl rfl rfl⟩

theorem does_openRule {rule : Rule} : Does origin a (openRule rule) () a :=
  does_tree fun tree => tree.openRule rule

theorem does_closeRule : Does origin a closeRule () a :=
  does_tree Tree.Builder.closeRule

theorem does_record {token : Token} : Does origin a (record token) () a :=
  does_tree fun tree => tree.terminal token.text

theorem reaches_locate {token : Token} :
    Reaches origin a (locate token) fun _ b => b = a := by
  refine (reaches_seen "").bind ?_
  rintro source b rfl
  exact Reaches.pure rfl

theorem ends_unexpected {expected : Expected} {post : α → Sketch → Prop} :
    Ends origin a (unexpected expected) post := by
  refine ends_view.bind ?_
  rintro token b ⟨rfl, -⟩
  refine reaches_locate.ends.bind ?_
  rintro position b rfl
  exact Ends.throw

theorem needs_unexpected {expected : Expected} {condition : Prop} :
    Needs origin a (unexpected expected : Compile α) condition :=
  @Needs.of_ends _ _ _ _ (fun _ _ => False) _ ends_unexpected fun _ _ h => h.elim

/-! ## Tokens -/

theorem does_peek : Does origin a peek a.current a :=
  does_view fun _ hfits => hfits.ahead.current

theorem does_atKind {kind : Token.Kind} :
    Does origin a (atKind kind) (decide (a.current = kind)) a :=
  does_peek.bind Does.pure

theorem does_atMark {mark : Punctuator} :
    Does origin a (atMark mark) (decide (a.current = .punctuator mark)) a :=
  does_atKind

/-- The state in front of the next token. -/
theorem Ahead.next {failure? : Option Error} {compiler : Compiler} {kind : Token.Kind}
    {rest : List Token.Kind} (h : Ahead failure? compiler (kind :: rest)) :
    match compiler.upcoming with
    | .failed error => failure? = some error
    | .done offset => Ahead failure? { compiler with current := .endAt offset } rest
    | .cons next upcoming => Ahead failure? { compiler with current := next, upcoming } rest := by
  have hupcoming := h.upcoming
  have hfailure := h.failure
  have hproper := h.proper
  have hbound := h.bound
  rw [List.tail_cons] at hupcoming
  rw [List.mem_cons, not_or] at hproper
  rw [List.length_cons] at hbound
  cases hstream : compiler.upcoming with
  | failed error =>
      rw [hstream] at hfailure
      exact hfailure.symm
  | done offset =>
      rw [hstream] at hupcoming hfailure
      have hrest : rest = [] := hupcoming.symm
      subst hrest
      exact
        { current := rfl
          upcoming := rfl
          failure := hfailure
          ended := fun _ => hfailure.symm
          proper := hproper.2
          bound := Nat.lt_of_succ_lt hbound }
  | cons next upcoming =>
      rw [hstream] at hupcoming hfailure
      have hrest : rest = next.kind :: upcoming.kinds := hupcoming.symm
      subst hrest
      exact
        { current := rfl
          upcoming := rfl
          failure := hfailure
          ended := fun hnil => absurd hnil (List.cons_ne_nil _ _)
          proper := hproper.2
          bound := Nat.lt_of_succ_lt hbound }

theorem Sketch.Fits.next {s : State} {compiler : Compiler} {rest : List Token.Kind}
    (h : a.Fits origin s) (hahead : Ahead origin.failure? compiler rest)
    (hsymbols : compiler.symbols = s.compiler.symbols) (hframe : compiler.frame = s.compiler.frame)
    (hstartup : compiler.startup = s.compiler.startup)
    (hpending : compiler.pendingCalls = s.compiler.pendingCalls) :
    (a.after rest [] []).Fits origin ⟨s.machine, compiler⟩ := by
  have hafter : a.after rest [] [] = { a with ahead := rest } := by simp [Sketch.after]
  rw [hafter]
  exact
    { h with
      ahead := hahead
      models := hsymbols ▸ h.models
      functions := hsymbols ▸ h.functions
      frame := hframe.trans h.frame
      startup := hstartup.trans h.startup
      cells := hpending ▸ h.cells
      pending := hpending ▸ h.pending }

theorem reaches_take {kind : Token.Kind} {rest : List Token.Kind}
    (hahead : a.ahead = kind :: rest) :
    Reaches origin a take fun token b => token.kind = kind ∧ b = a.after rest [] [] := by
  have hprecedes : a.Precedes (a.after rest [] []) :=
    Sketch.precedes_after fun _ => hahead ▸ List.cons_ne_nil _ _
  refine ⟨fun htabled => ⟨⟨kind, "", 0⟩, _, ⟨rfl, rfl⟩, hprecedes, htabled⟩, fun s hfits => ?_⟩
  have h := hfits.ahead
  rw [hahead] at h
  have hnext := h.next
  have hcurrent : s.compiler.current.kind = kind := h.current
  obtain ⟨machine, source, current, upcoming, bound, symbols, tree, frame, startup, pending⟩ := s
  cases upcoming with
  | failed error =>
      have hfailed : origin.failure? = some error := hnext
      have hrest : rest = [] := h.upcoming.symm
      refine ⟨.inr hfailed, ⟨kind, "", 0⟩, _, ⟨rfl, rfl⟩, hfits.tabled, fun hwithin => ?_⟩
      exact hwithin.scanned (hfailed ▸ Option.some_ne_none error) hrest
  | done offset => exact ⟨_, ⟨hcurrent, rfl⟩, hfits.next hnext rfl rfl rfl rfl⟩
  | cons next upcoming => exact ⟨_, ⟨hcurrent, rfl⟩, hfits.next hnext rfl rfl rfl rfl⟩

theorem does_advance {kind : Token.Kind} {rest : List Token.Kind}
    (hahead : a.ahead = kind :: rest) :
    Does origin a advance () (a.after rest [] []) := by
  refine (reaches_take hahead).bind ?_
  rintro token b ⟨-, rfl⟩
  exact does_record

theorem Sketch.ahead_of_current {kind : Token.Kind} (hcurrent : a.current = kind)
    (hkind : kind ≠ .endOfInput) : ∃ rest, a.ahead = kind :: rest := by
  unfold Sketch.current at hcurrent
  cases hahead : a.ahead with
  | nil =>
      rw [hahead] at hcurrent
      exact absurd hcurrent.symm hkind
  | cons first rest =>
      rw [hahead] at hcurrent
      exact ⟨rest, by rw [← hcurrent]; rfl⟩

theorem Sketch.current_of_ahead {kind : Token.Kind} {rest : List Token.Kind}
    (hahead : a.ahead = kind :: rest) : a.current = kind := by
  unfold current
  rw [hahead]
  rfl

theorem Sketch.current_ne {kind : Token.Kind} (hkind : kind ≠ .endOfInput)
    (hhead : a.ahead.head? ≠ some kind) : a.current ≠ kind := by
  intro hcurrent
  obtain ⟨rest, hahead⟩ := Sketch.ahead_of_current hcurrent hkind
  rw [hahead] at hhead
  exact hhead rfl

theorem does_atMark_of_ahead {mark : Punctuator} {rest : List Token.Kind}
    (hahead : a.ahead = .punctuator mark :: rest) : Does origin a (atMark mark) true a := by
  rw [show true = decide (a.current = .punctuator mark) from
    (decide_eq_true (Sketch.current_of_ahead hahead)).symm]
  exact does_atMark

theorem does_atMark_of_ne {mark : Punctuator}
    (hhead : a.ahead.head? ≠ some (.punctuator mark)) : Does origin a (atMark mark) false a := by
  rw [show false = decide (a.current = .punctuator mark) from
    (decide_eq_false (Sketch.current_ne Token.Kind.noConfusion hhead)).symm]
  exact does_atMark

/-- The next token is taken, and others may be behind it. -/
theorem needs_advance {kind : Token.Kind} {next : Unit → Compile α} {condition : Prop}
    (hcurrent : a.current = kind) (hkind : kind ≠ .endOfInput)
    (hnext : ∀ rest, a.ahead = kind :: rest →
      Needs origin (a.after rest [] []) (next ()) condition) :
    Needs origin a (advance >>= next) condition := by
  obtain ⟨rest, hahead⟩ := Sketch.ahead_of_current hcurrent hkind
  exact (does_advance hahead).needs (hnext rest hahead)

/-- Either the token is ahead or it is not. -/
theorem ends_atKind {β : Type} {kind : Token.Kind} {next : Bool → Compile β}
    {post : β → Sketch → Prop} (hkind : kind ≠ .endOfInput)
    (hyes : ∀ rest, a.ahead = kind :: rest → Ends origin a (next true) post)
    (hno : a.ahead.head? ≠ some kind → Ends origin a (next false) post) :
    Ends origin a (atKind kind >>= next) post := by
  refine does_atKind.ends ?_
  by_cases hcurrent : a.current = kind
  · obtain ⟨rest, hahead⟩ := Sketch.ahead_of_current hcurrent hkind
    rw [decide_eq_true hcurrent]
    exact hyes rest hahead
  · rw [decide_eq_false hcurrent]
    refine hno fun hhead => hcurrent ?_
    obtain ⟨rest, hahead⟩ := List.head?_eq_some_iff.1 hhead
    exact Sketch.current_of_ahead hahead

theorem needs_atKind {β : Type} {kind : Token.Kind} {next : Bool → Compile β} {condition : Prop}
    (hkind : kind ≠ .endOfInput)
    (hyes : ∀ rest, a.ahead = kind :: rest → Needs origin a (next true) condition)
    (hno : a.ahead.head? ≠ some kind → Needs origin a (next false) condition) :
    Needs origin a (atKind kind >>= next) condition := by
  refine does_atKind.needs ?_
  by_cases hcurrent : a.current = kind
  · obtain ⟨rest, hahead⟩ := Sketch.ahead_of_current hcurrent hkind
    rw [decide_eq_true hcurrent]
    exact hyes rest hahead
  · rw [decide_eq_false hcurrent]
    refine hno fun hhead => hcurrent ?_
    obtain ⟨rest, hahead⟩ := List.head?_eq_some_iff.1 hhead
    exact Sketch.current_of_ahead hahead

theorem ends_atMark {β : Type} {mark : Punctuator} {next : Bool → Compile β}
    {post : β → Sketch → Prop}
    (hyes : ∀ rest, a.ahead = .punctuator mark :: rest → Ends origin a (next true) post)
    (hno : a.ahead.head? ≠ some (.punctuator mark) → Ends origin a (next false) post) :
    Ends origin a (atMark mark >>= next) post :=
  ends_atKind Token.Kind.noConfusion hyes hno

theorem needs_atMark {β : Type} {mark : Punctuator} {next : Bool → Compile β} {condition : Prop}
    (hyes : ∀ rest, a.ahead = .punctuator mark :: rest → Needs origin a (next true) condition)
    (hno : a.ahead.head? ≠ some (.punctuator mark) → Needs origin a (next false) condition) :
    Needs origin a (atMark mark >>= next) condition :=
  needs_atKind Token.Kind.noConfusion hyes hno

theorem does_expect {kind : Token.Kind} {rest : List Token.Kind} (hahead : a.ahead = kind :: rest) :
    Does origin a (expect kind) () (a.after rest [] []) := by
  refine does_atKind.bind ?_
  rw [if_pos (decide_eq_true (Sketch.current_of_ahead hahead))]
  exact does_advance hahead

theorem ends_expect {kind : Token.Kind} (hkind : kind ≠ .endOfInput) :
    Ends origin a (expect kind) fun _ b =>
      ∃ rest, a.ahead = kind :: rest ∧ b = a.after rest [] [] := by
  refine does_atKind.ends ?_
  by_cases hcurrent : a.current = kind
  · rw [if_pos (decide_eq_true hcurrent)]
    obtain ⟨rest, hahead⟩ := Sketch.ahead_of_current hcurrent hkind
    exact (does_advance hahead).ends_of ⟨rest, hahead, rfl⟩
  · rw [if_neg (by simpa using hcurrent)]
    exact ends_unexpected

theorem ends_expectMark {mark : Punctuator} :
    Ends origin a (expectMark mark) fun _ b =>
      ∃ rest, a.ahead = .punctuator mark :: rest ∧ b = a.after rest [] [] :=
  ends_expect Token.Kind.noConfusion

theorem reaches_expectIdentifier {name : String} {rest : List Token.Kind}
    (hahead : a.ahead = .identifier name :: rest) :
    Reaches origin a expectIdentifier fun found b => found.1 = name ∧ b = a.after rest [] [] := by
  refine (reaches_view (fun token => token.kind = .identifier name)
    (fun _ => ⟨⟨_, "", 0⟩, rfl⟩)
    fun _ hfits => hfits.ahead.current.trans (Sketch.current_of_ahead hahead)).bind ?_
  rintro token b ⟨rfl, hkind⟩
  rw [hkind]
  refine reaches_locate.bind ?_
  rintro position b rfl
  exact (does_advance hahead).bind (Reaches.pure ⟨rfl, rfl⟩)

theorem ends_expectIdentifier :
    Ends origin a expectIdentifier fun found b =>
      ∃ rest, a.ahead = .identifier found.1 :: rest ∧ b = a.after rest [] [] := by
  refine ends_view.bind ?_
  rintro token b ⟨rfl, s, hfits, rfl⟩
  have hkind : s.compiler.current.kind = b.current := hfits.ahead.current
  cases hcurrent : s.compiler.current.kind with
  | identifier name =>
      rw [hcurrent] at hkind
      obtain ⟨rest, hahead⟩ := Sketch.ahead_of_current hkind.symm Token.Kind.noConfusion
      refine reaches_locate.ends.bind ?_
      rintro position b rfl
      exact (does_advance hahead).ends (Ends.pure ⟨rest, hahead, rfl⟩)
  | _ => exact ends_unexpected

theorem does_expectType {type : TypeName} {rest : List Token.Kind}
    (hahead : a.ahead = .keyword (.type type) :: rest) :
    Does origin a expectType type (a.after rest [] []) := by
  refine does_peek.bind ?_
  rw [Sketch.current_of_ahead hahead]
  exact (does_advance hahead).bind Does.pure

theorem typeName?_eq_some {kind : Token.Kind} {type : TypeName}
    (h : kind.typeName? = some type) : kind = .keyword (.type type) := by
  unfold Token.Kind.typeName? at h
  split at h
  · cases h
    rfl
  · cases h

theorem ends_expectType :
    Ends origin a expectType fun type b =>
      ∃ rest, a.ahead = .keyword (.type type) :: rest ∧ b = a.after rest [] [] := by
  refine does_peek.ends ?_
  cases htype : a.current.typeName? with
  | none => exact ends_unexpected
  | some type =>
      obtain ⟨rest, hahead⟩ :=
        Sketch.ahead_of_current (typeName?_eq_some htype) Token.Kind.noConfusion
      exact (does_advance hahead).ends (Ends.pure ⟨rest, hahead, rfl⟩)

/-! ## Words of text and data -/

theorem Sketch.Fits.textEnd_le {s : State} (h : a.Fits origin s) :
    a.here ≤ origin.base.layout.text.stop := by
  rw [← h.textEnd, ← h.machine.layout]
  exact h.machine.sound.textStop

theorem Sketch.Fits.textStop_le {s : State} (h : a.Fits origin s) :
    origin.base.layout.text.stop ≤ a.dataStart := by
  rw [h.dataStart, ← origin.sound.ordered.data]
  exact origin.sound.dataStart

theorem Sketch.Fits.size {s : State} (h : a.Fits origin s) :
    s.machine.memory.size = origin.base.layout.poolSize := by
  rw [h.machine.sound.size, h.machine.layout]

/-- A word of text has been written, a known one or one that is still to be patched. -/
theorem Sketch.Fits.emitted {s : State} {word : Word} {cell : Cell} (h : a.Fits origin s)
    (hcell : cell = .known word ∨ cell = .hole)
    (hroom : s.machine.textEnd < s.machine.layout.text.stop) :
    (a.after a.ahead [cell] []).Fits origin
      ⟨{ s.machine.setWord s.machine.textEnd word with
        textEnd := s.machine.textEnd + 1
        status := if s.machine.status = .idle then .loaded else s.machine.status }, s.compiler⟩ := by
  have hhere := h.textEnd
  have hdata := h.textStop_le
  have hsize := h.size
  have hpool := origin.sound.ordered.text_lt_poolSize
  rw [h.machine.layout] at hroom
  have hother : ∀ address, address ≠ s.machine.textEnd →
      (s.machine.setWord s.machine.textEnd word).memory[address]? = s.machine.memory[address]? :=
    fun address hne => Array.getElem?_setIfInBounds_ne (Ne.symm hne)
  exact
    { h with
      machine :=
        { h.machine with
          sound :=
            { h.machine.sound with
              size := Array.size_setIfInBounds.trans h.machine.sound.size
              textStop := by
                simp only [Machine.setWord, h.machine.layout]
                omega }
          isRunnable := by
            rw [← h.machine.isRunnable]
            by_cases hidle : s.machine.status = .idle
            · simp only [hidle]
              rfl
            · simp only [if_neg hidle] }
      textEnd := by rw [hhere, Sketch.here_after, List.length_singleton]
      dataEnd := by
        rw [Sketch.dataHere_after, List.length_nil, Nat.add_zero]
        exact h.dataEnd
      cells := by
        intro index other hindex
        rcases Nat.lt_or_ge index a.cells.length with hlt | hge
        · rw [Sketch.after, List.getElem?_append_left hlt] at hindex
          refine (h.cells index other hindex).congr (hother _ ?_)
          rw [hhere, Sketch.here]
          omega
        · rw [Sketch.after, List.getElem?_append_right hge, List.getElem?_singleton] at hindex
          obtain ⟨hlast, heq⟩ := Option.ite_none_right_eq_some.1 hindex
          have haddress : a.textStart + index = s.machine.textEnd := by
            rw [hhere, Sketch.here]
            omega
          rw [← Option.some.inj heq]
          rcases hcell with rfl | rfl
          · simp only [Cell.WrittenAt, Sketch.after, Machine.setWord, haddress]
            exact Array.getElem?_setIfInBounds_self_of_lt (by omega)
          · trivial
      pending := by
        intro call hcall
        obtain ⟨hmem, index, hindex, hentry⟩ := h.pending call hcall
        refine ⟨hmem, index, hindex, ?_⟩
        rw [← hentry]
        exact List.getElem?_append_left (List.getElem?_eq_some_iff.1 hentry).1
      data := by
        intro index other hindex
        simp only [Sketch.after, List.append_nil] at hindex ⊢
        refine (hother _ ?_).trans (h.data index other hindex)
        omega }

theorem does_emitWord {word : Word} {cell : Cell} (hcell : cell = .known word ∨ cell = .hole) :
    Does origin a (onMachine (Machine.emitWord word)) a.here (a.after a.ahead [cell] []) := by
  refine .intro (Sketch.precedes_after id) id fun s hfits => ?_
  have hlayout := hfits.machine.layout
  have hhere := hfits.textEnd
  unfold Yields
  by_cases hfull : s.machine.layout.text.stop ≤ s.machine.textEnd
  · have hrun : onMachine (Machine.emitWord word) s = .error (.segmentFull .text) s := by
      simp only [onMachine, Machine.emitWord, if_pos hfull]
    rw [hrun]
    refine ⟨.inl ⟨_, rfl⟩, fun hwithin => ?_⟩
    have hroom := hwithin.text
    rw [hlayout, hhere] at hfull
    rw [Sketch.here_after, List.length_singleton] at hroom
    omega
  · simp only [onMachine, Machine.emitWord, if_neg hfull]
    exact ⟨hhere, hfits.emitted hcell (Nat.lt_of_not_le hfull)⟩

theorem does_here : Does origin a here (Word.ofCount a.here) a :=
  .intro (.refl a) id fun _ hfits => ⟨congrArg Word.ofCount hfits.textEnd, hfits⟩

theorem does_emit {opcode : Opcode} :
    Does origin a (emit opcode) () (a.after a.ahead [.known opcode.word] []) :=
  Does.bind (does_emitWord (.inl rfl)) Does.pure

theorem does_emitWith {opcode : Opcode} {operand : Word} :
    Does origin a (emitWith opcode operand) ()
      (a.after a.ahead [.known opcode.word, .known operand] []) := by
  refine does_emit.bind ?_
  refine (does_emitWord (.inl rfl)).bind ?_
  rw [Sketch.after_after]
  exact Does.pure

theorem does_emitPending {opcode : Opcode} :
    Does origin a (emitPending opcode) (a.here + 1)
      (a.after a.ahead [.known opcode.word, .hole] []) := by
  refine does_emit.bind ?_
  refine (does_emitWord (.inr rfl)).reaches ?_
  rw [Sketch.after_after]
  exact ⟨Sketch.here_after, rfl⟩

/-- The sketch with a cell in place of a hole. -/
theorem Sketch.Fits.set {s : State} {cells : List Cell} {index : Nat} {word : Word}
    {memory : Array Word} (hcells : a.cells = cells) (hhole : cells[index]? = some .hole)
    (h : a.Fits origin s) (hsize : memory.size = s.machine.memory.size)
    (hword : memory[a.textStart + index]? = some word)
    (hother : ∀ address, address ≠ a.textStart + index →
      memory[address]? = s.machine.memory[address]?) :
    Sketch.Fits { a with cells := cells.set index (.known word) } origin
      ⟨{ s.machine with memory }, s.compiler⟩ := by
  subst hcells
  have hlength : index < a.cells.length := (List.getElem?_eq_some_iff.1 hhole).1
  have htextEnd := h.textEnd_le
  have htextStop := h.textStop_le
  unfold Sketch.here at htextEnd
  refine
    { h with
      machine :=
        { h.machine with
          sound := { h.machine.sound with size := hsize.trans h.machine.sound.size } }
      textEnd := ?_
      cells := ?_
      pending := ?_
      data := ?_ }
  · simp only [Sketch.here, List.length_set]
    exact h.textEnd
  · intro other cell hcell
    simp only at hcell ⊢
    by_cases heq : other = index
    · subst heq
      rw [List.getElem?_set_self hlength] at hcell
      cases hcell
      exact hword
    · rw [List.getElem?_set_ne (Ne.symm heq)] at hcell
      exact (h.cells other cell hcell).congr (hother _ (by omega))
  · intro call hcall
    obtain ⟨hmem, other, hother', hentry⟩ := h.pending call hcall
    refine ⟨hmem, other, hother', ?_⟩
    have hne : index ≠ other := by
      rintro rfl
      rw [hhole] at hentry
      cases hentry
    simp only
    rw [List.getElem?_set_ne hne]
    exact hentry
  · intro other found hfound
    refine (hother _ ?_).trans (h.data other found hfound)
    simp only
    omega

/-- A hole is patched behind known text. -/
theorem does_patch {rest : List Token.Kind} {front back : List Cell} {data : List Word} {site : Nat}
    {word : Word} (hsite : site = a.here + front.length) :
    Does origin (a.after rest (front ++ .hole :: back) data) (patch site word) ()
      (a.after rest (front ++ .known word :: back) data) := by
  have hprecedes : (a.after rest (front ++ .hole :: back) data).Precedes
      (a.after rest (front ++ .known word :: back) data) :=
    ⟨by simp, by simp, id⟩
  refine .intro hprecedes id fun s hfits => ?_
  have hhole : (a.cells ++ (front ++ .hole :: back))[a.cells.length + front.length]? =
      some Cell.hole := by
    rw [List.getElem?_append_right (Nat.le_add_right _ _), Nat.add_sub_cancel_left,
      List.getElem?_append_right (Nat.le_refl _), Nat.sub_self]
    rfl
  have haddress : a.textStart + (a.cells.length + front.length) = site := by
    rw [hsite, Sketch.here]
    omega
  have hend : site < s.machine.textEnd := by
    rw [hfits.textEnd, Sketch.here_after, List.length_append, List.length_cons, hsite]
    omega
  have hstart : s.machine.layout.text.start ≤ site := by
    rw [hfits.machine.layout, origin.sound.ordered.textStart]
    exact Nat.zero_le _
  have hroom : site < s.machine.memory.size := by
    have htextEnd := hfits.textEnd_le
    have hsize := hfits.size
    have hpool := origin.sound.ordered.text_lt_poolSize
    rw [← hfits.textEnd] at htextEnd
    omega
  obtain ⟨machine, compiler⟩ := s
  have hrun : patch site word ⟨machine, compiler⟩ =
      .ok () ⟨machine.setWord site word, compiler⟩ := by
    simp only [patch, onMachine, Machine.patch, if_pos (And.intro hstart hend)]
  unfold Yields
  rw [hrun]
  refine ⟨rfl, ?_⟩
  have hset := @Sketch.Fits.set _ _ _ _ _ word _ rfl hhole hfits
    (Array.size_setIfInBounds) (by
      simp only [Sketch.after]
      rw [haddress]
      exact Array.getElem?_setIfInBounds_self_of_lt hroom) (by
      intro address hne
      simp only [Sketch.after] at hne
      rw [haddress] at hne
      exact Array.getElem?_setIfInBounds_ne (Ne.symm hne))
  have hcells : (a.cells ++ (front ++ .hole :: back)).set (a.cells.length + front.length)
      (.known word) = a.cells ++ (front ++ .known word :: back) := by
    rw [List.set_append_right _ _ (Nat.le_add_right _ _), Nat.add_sub_cancel_left,
      List.set_append_right _ _ (Nat.le_refl _), Nat.sub_self]
    rfl
  simp only [Sketch.after] at hset ⊢
  rw [hcells] at hset
  exact hset

theorem does_patchHere {rest : List Token.Kind} {front back : List Cell} {data : List Word}
    {site : Nat} (hsite : site = a.here + front.length) :
    Does origin (a.after rest (front ++ .hole :: back) data) (patchHere site) ()
      (a.after rest
        (front ++ .known (Word.ofCount (a.here + (front.length + 1 + back.length))) :: back)
        data) := by
  refine does_here.bind ?_
  have hlength : (front ++ Cell.hole :: back).length = front.length + 1 + back.length := by
    rw [List.length_append, List.length_cons]
    omega
  rw [Sketch.here_after, hlength]
  exact does_patch hsite

/-- The same for a word anywhere in the text. -/
theorem does_patchOpen {front back : List Cell} {site : Nat}
    (hcells : a.cells = front ++ .hole :: back) (hsite : site = a.textStart + front.length) :
    Does origin a (patchHere site) ()
      { a with cells := front ++ .known (Word.ofCount a.here) :: back } := by
  have hhere : a.here = a.unwritten.here + (front.length + 1 + back.length) := by
    simp [Sketch.here, Sketch.unwritten, hcells]
    omega
  have hdoes := @does_patchHere origin a.unwritten a.ahead _ back a.data _ hsite
  rw [← hcells, ← a.eq_after_unwritten, ← hhere] at hdoes
  refine hdoes.reaches ⟨rfl, ?_⟩
  simp [Sketch.unwritten, Sketch.after]

/-- Words of data have been appended. -/
theorem Sketch.Fits.allocated {s : State} {words : List Word} (h : a.Fits origin s)
    (hroom : s.machine.dataEnd + words.length ≤ s.machine.layout.data.stop) :
    (a.after a.ahead [] words).Fits origin
      ⟨{ s.machine with
        memory := Memory.copy s.machine.memory s.machine.dataEnd words
        dataEnd := s.machine.dataEnd + words.length
        dataImage := s.machine.dataImage ++ words }, s.compiler⟩ := by
  have htextEnd := h.textEnd_le
  have htextStop := h.textStop_le
  have hsize := h.size
  have hhere := h.dataEnd
  have hpool := origin.sound.ordered.data_lt_poolSize
  have hlayout := h.machine.layout
  rw [Sketch.here] at htextEnd
  rw [Sketch.dataHere] at hhere
  exact
    { h with
      machine :=
        { h.machine with
          sound :=
            { h.machine.sound with
              size := (Memory.size_copy _ _ _).trans h.machine.sound.size
              dataStart := Nat.le_add_right_of_le h.machine.sound.dataStart
              dataStop := hroom } }
      textEnd := by
        rw [Sketch.here_after, List.length_nil, Nat.add_zero]
        exact h.textEnd
      dataEnd := by rw [Sketch.dataHere_after, Sketch.dataHere, hhere]
      cells := by
        intro index cell hcell
        simp only [Sketch.after, List.append_nil] at hcell ⊢
        have hlength := (List.getElem?_eq_some_iff.1 hcell).1
        exact (h.cells index cell hcell).congr (Memory.getElem?_copy_of_lt (by omega))
      pending := by
        simp only [Sketch.after, List.append_nil]
        exact h.pending
      data := by
        intro index word hword
        simp only [Sketch.after] at hword ⊢
        have hlength := (List.getElem?_eq_some_iff.1 hword).1
        rw [List.length_append] at hlength
        rw [hlayout] at hroom
        rcases Nat.lt_or_ge index a.data.length with hlt | hge
        · rw [List.getElem?_append_left hlt] at hword
          rw [Memory.getElem?_copy_of_lt (by omega)]
          exact h.data index word hword
        · rw [List.getElem?_append_right hge] at hword
          rw [Memory.getElem?_copy, if_pos (by omega), ← hword]
          congr 1
          omega }

theorem does_allocate {words : List Word} :
    Does origin a (onMachine (Machine.allocate words)) a.dataHere (a.after a.ahead [] words) := by
  refine .intro (Sketch.precedes_after id) id fun s hfits => ?_
  have hlayout := hfits.machine.layout
  have hhere := hfits.dataEnd
  have hstop := hfits.machine.sound.dataStop
  unfold Yields
  by_cases hfull : s.machine.layout.data.stop - s.machine.dataEnd < words.length
  · have hrun : onMachine (Machine.allocate words) s = .error (.segmentFull .data) s := by
      simp only [onMachine, Machine.allocate, if_pos hfull]
    rw [hrun]
    refine ⟨.inl ⟨_, rfl⟩, fun hwithin => ?_⟩
    have hroom := hwithin.data
    rw [hlayout, hhere] at hfull
    rw [Sketch.dataHere_after] at hroom
    omega
  · simp only [onMachine, Machine.allocate, if_neg hfull]
    exact ⟨hhere, hfits.allocated (by omega)⟩

end WordC.Compiler
