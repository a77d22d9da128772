import WordC.Program
import WordC.Proofs.Machine.Appending
import WordC.Proofs.Symbol.Index
import WordC.Proofs.Token.Landmarks

/-!
# The course of a compilation

Whether it goes well or not, a compilation only appends to its machine, and the error it ends with
points at the source. It is followed next to a second compilation of the same source, which may
repeat its constructs another number of times. Each repetition takes a token, so the two go the same
course as long as there are fewer tokens than repetitions.
-/

namespace WordC.Compiler

open Token (Landmark Stream)

variable {α β : Type}

/-- The same state, but for how often a construct may repeat. -/
def State.within (s : State) (bound : Nat) : State :=
  { s with compiler := { s.compiler with bound } }

/-- The number of tokens that are still to be taken. -/
def tokensLeft (compiler : Compiler) : Nat :=
  if compiler.current.kind = .endOfInput then 0 else compiler.upcoming.length + 1

/-! ## Marks -/

/-- What is known of the state of a compilation. -/
structure Mark where
  /-- The number of tokens that are still to be taken. -/
  left : Nat
  /-- The number of scopes that are open inside the outermost. -/
  level : Nat
  /-- Words of the text that may be patched. -/
  sites : List Nat

namespace Mark

variable {a b c : Mark} {n k : Nat}

def take (a : Mark) : Mark :=
  { a with left := a.left - 1 }

def withSite (a : Mark) (site : Nat) : Mark :=
  { a with sites := site :: a.sites }

def enter (a : Mark) : Mark :=
  { a with level := a.level + 1 }

def leave (a : Mark) : Mark :=
  { a with level := a.level - 1 }

/-- From one mark to the other at least `n` tokens are taken; no scope and no site is lost. -/
structure Leads (n : Nat) (a b : Mark) : Prop where
  left : b.left + n ≤ a.left
  level : b.level = a.level
  sites : a.sites ⊆ b.sites

namespace Leads

theorem refl (a : Mark) : Leads 0 a a :=
  ⟨Nat.le_refl _, rfl, List.Subset.refl _⟩

theorem trans (h : Leads n a b) (h' : Leads k b c) : Leads (n + k) a c where
  left := by
    have hfirst := h.left
    have hsecond := h'.left
    omega
  level := h'.level.trans h.level
  sites := List.Subset.trans h.sites h'.sites

theorem least (h : Leads n a b) (hle : k ≤ n) : Leads k a b :=
  { h with left := Nat.le_trans (Nat.add_le_add_left hle _) h.left }

theorem lt (h : Leads (n + 1) a b) : b.left < a.left :=
  Nat.lt_of_lt_of_le (Nat.lt_add_of_pos_right (Nat.succ_pos n)) h.left

theorem le (h : Leads n a b) : b.left ≤ a.left :=
  Nat.le_trans (Nat.le_add_right _ _) h.left

theorem take (h : a.left ≠ 0) : Leads 1 a a.take where
  left := Nat.le_of_eq (Nat.sub_add_cancel (Nat.pos_of_ne_zero h))
  level := rfl
  sites := List.Subset.refl _

theorem withSite (h : Leads n a b) (site : Nat) : Leads n a (b.withSite site) :=
  { h with sites := List.subset_cons_of_subset site h.sites }

/-- What happens in a scope of its own leads on outside. -/
theorem leave (h : Leads n a.enter b) : Leads n a b.leave where
  left := h.left
  level := (congrArg (· - 1) h.level).trans (Nat.add_sub_cancel _ _)
  sites := h.sites

end Leads

end Mark

/-! ## Courses -/

/-- A symbol that was declared in the source. -/
def IsPlaced (source : String) (symbol : Symbol) : Prop :=
  symbol.cls ≠ .system → symbol.position.IsLandmark source

/-- A compilation: the machine that it has begun with, its source, and how often the second
compilation may repeat a construct. -/
structure Course where
  origin : Machine
  source : String
  bound : Nat

namespace Course

/-- What a mark says about a state. -/
structure At (course : Course) (a : Mark) (s : State) : Prop where
  machine : course.origin.Grows s.machine
  source : s.compiler.source = course.source
  current : Landmark course.source s.compiler.current.start
  upcoming : s.compiler.upcoming.IsRest course.source
  left : s.compiler.tokensLeft = a.left
  bound : a.left < s.compiler.bound
  other : a.left < course.bound
  symbols : ∀ symbol ∈ s.compiler.symbols.symbols, IsPlaced course.source symbol
  level : s.compiler.symbols.scopes.length = a.level + 1
  sites : ∀ site ∈ a.sites, course.origin.textEnd ≤ site ∧ site < s.machine.textEnd
  startup : s.compiler.startup ∈ a.sites
  pending : ∀ call ∈ s.compiler.pendingCalls, call.2 ∈ a.sites

/-- Two compilations end in the same way. -/
inductive Outcome (course : Course) (post : α → Mark → Prop) :
    EStateM.Result Error State α → EStateM.Result Error State α → Prop where
  | ok {value : α} {s : State} {b : Mark} (hpost : post value b) (h : course.At b s) :
      Outcome course post (.ok value s) (.ok value (s.within course.bound))
  | error {error : Error} {s : State} (hreports : error.Reports course.source)
      (h : course.origin.Grows s.machine) :
      Outcome course post (.error error s) (.error error (s.within course.bound))

/-- Two compilations go on in the same way: to a state of which a mark with `post` tells, or to an
error. -/
def Goes (course : Course) (a : Mark) (action other : Compile α) (post : α → Mark → Prop) : Prop :=
  ∀ s, course.At a s → course.Outcome post (action s) (other (s.within course.bound))

/-- Both compilations take the same action. -/
abbrev GoesBoth (course : Course) (a : Mark) (action : Compile α) (post : α → Mark → Prop) : Prop :=
  course.Goes a action action post

variable {course : Course} {a b : Mark} {s : State}

namespace Goes

variable {action other : Compile α} {next next' : α → Compile β} {mid : α → Mark → Prop}
  {post post' : β → Mark → Prop}

theorem pure {value : α} {post : α → Mark → Prop} (h : post value a) :
    course.GoesBoth a (Pure.pure value) post :=
  fun _ hat => .ok h hat

theorem throw {error : Error} (h : error.Reports course.source) {post : α → Mark → Prop} :
    course.Goes a (MonadExcept.throw error : Compile α) (MonadExcept.throw error) post :=
  fun _ hat => .error h hat.machine

theorem bind (h : course.Goes a action other mid)
    (hnext : ∀ value b, mid value b → course.Goes b (next value) (next' value) post) :
    course.Goes a (action >>= next) (other >>= next') post := by
  intro s hat
  have hresult := h s hat
  change Outcome course post (EStateM.bind action next s)
    (EStateM.bind other next' (s.within course.bound))
  unfold EStateM.bind
  generalize action s = first at hresult ⊢
  generalize other (s.within course.bound) = second at hresult ⊢
  cases hresult with
  | ok hpost hat' => exact hnext _ _ hpost _ hat'
  | error hreports hgrows => exact .error hreports hgrows

/-- The first action tells nothing new about the state. -/
theorem stay (h : course.Goes a action other fun _ b => b = a)
    (hnext : ∀ value, course.Goes a (next value) (next' value) post) :
    course.Goes a (action >>= next) (other >>= next') post := by
  refine h.bind ?_
  rintro value _ rfl
  exact hnext value

/-- The first action leads on from a mark that was led to. -/
theorem on {o : Mark} {n k : Nat} (h : course.Goes a action other fun _ => a.Leads k)
    (ho : o.Leads n a)
    (hnext : ∀ value b, o.Leads (n + k) b → course.Goes b (next value) (next' value) post) :
    course.Goes a (action >>= next) (other >>= next') post :=
  h.bind fun value b hb => hnext value b (ho.trans hb)

theorem mono {action other : Compile β} (h : course.Goes a action other post)
    (hpost : ∀ value b, post value b → post' value b) : course.Goes a action other post' := by
  intro s hat
  have hresult := h s hat
  generalize action s = first at hresult ⊢
  generalize other (s.within course.bound) = second at hresult ⊢
  cases hresult with
  | ok h hat' => exact .ok (hpost _ _ h) hat'
  | error hreports hgrows => exact .error hreports hgrows

theorem ends {action other : Compile β} {o : Mark} {n k least : Nat}
    (h : course.Goes a action other fun _ => a.Leads k) (ho : o.Leads n a)
    (hleast : least ≤ n + k) : course.Goes a action other fun _ => o.Leads least :=
  h.mono fun _ _ hb => (ho.trans hb).least hleast

/-- The last action tells nothing new about the state. -/
theorem rests {action other : Compile β} {o : Mark} {n least : Nat}
    (h : course.Goes a action other fun _ b => b = a) (ho : o.Leads n a) (hleast : least ≤ n) :
    course.Goes a action other fun _ => o.Leads least :=
  h.mono fun _ _ hb => hb ▸ ho.least hleast

theorem ite {condition : Prop} [Decidable condition] {first first' second second' : Compile β}
    (hfirst : condition → course.Goes a first first' post)
    (hsecond : ¬condition → course.Goes a second second' post) :
    course.Goes a (if condition then first else second) (if condition then first' else second')
      post := by
  by_cases h : condition
  · rw [if_pos h, if_pos h]
    exact hfirst h
  · rw [if_neg h, if_neg h]
    exact hsecond h

/-- An action that never succeeds is never followed. -/
theorem never (h : course.Goes a action other fun _ _ => False) :
    course.Goes a (action >>= next) (other >>= next') post :=
  h.bind fun _ _ hfalse => hfalse.elim

theorem guard {condition : Prop} [Decidable condition] {error : Error} {first first' : Compile β}
    (hreports : error.Reports course.source)
    (hfirst : ¬condition → course.Goes a first first' post) :
    course.Goes a
      (if condition then ((MonadExcept.throw error : Compile PUnit) >>= fun _ => first) else first)
      (if condition then ((MonadExcept.throw error : Compile PUnit) >>= fun _ => first')
        else first') post :=
  .ite (fun _ => (throw hreports).never) hfirst

end Goes

/-! ## Parts of the state -/

theorem goes_view {field : Compiler → α} {p : α → Prop}
    (hsame : ∀ compiler bound, field { compiler with bound } = field compiler)
    (h : ∀ s, course.At a s → p (field s.compiler)) :
    course.GoesBoth a (view field) fun value b => b = a ∧ p value := by
  intro s hat
  change course.Outcome _ (.ok (field s.compiler) s)
    (.ok (field { s.compiler with bound := course.bound }) (s.within course.bound))
  rw [hsame s.compiler course.bound]
  have hp := h s hat
  exact .ok (And.intro rfl hp) hat

/-- A part of the state about which nothing is known. -/
theorem goes_look {field : Compiler → α}
    (hsame : ∀ compiler bound, field { compiler with bound } = field compiler) :
    course.GoesBoth a (view field) fun _ b => b = a :=
  (goes_view (p := fun _ => True) hsame fun _ _ => trivial).mono fun _ _ h => h.1

/-- Both compilations may repeat a construct more often than there are tokens. -/
theorem goes_bound {next next' : Nat → Compile β} {post : β → Mark → Prop}
    (h : ∀ rounds rounds', a.left < rounds → a.left < rounds' →
      course.Goes a (next rounds) (next' rounds') post) :
    course.Goes a (view (·.bound) >>= next) (view (·.bound) >>= next') post :=
  fun s hat => h _ _ hat.bound hat.other s hat

theorem goes_update {change : Compiler → Compiler}
    (hsame : ∀ compiler bound, change { compiler with bound } = { change compiler with bound })
    (h : ∀ s, course.At a s → course.At b ⟨s.machine, change s.compiler⟩) :
    course.GoesBoth a (update change) fun _ c => c = b := by
  intro s hat
  change course.Outcome _ (.ok () ⟨s.machine, change s.compiler⟩)
    (.ok () ⟨s.machine, change { s.compiler with bound := course.bound }⟩)
  rw [hsame s.compiler course.bound]
  exact .ok rfl (h s hat)

theorem goes_ofExcept {result : Except Error α} {p : α → Prop}
    (hok : ∀ value, result = .ok value → p value)
    (herror : ∀ error, result = .error error → error.Reports course.source) :
    course.GoesBoth a (ofExcept result) fun value b => b = a ∧ p value := by
  cases result with
  | ok value => exact .pure ⟨rfl, hok value rfl⟩
  | error error => exact .throw (herror error rfl)

theorem At.withMachine (h : course.At a s) {machine : Machine}
    (hgrows : course.origin.Grows machine) (htextEnd : s.machine.textEnd ≤ machine.textEnd) :
    course.At a ⟨machine, s.compiler⟩ :=
  { h with
    machine := hgrows
    sites := fun site hsite => ⟨(h.sites site hsite).1,
      Nat.lt_of_lt_of_le (h.sites site hsite).2 htextEnd⟩ }

theorem At.withSite (h : course.At a s) {site : Nat} (hstart : course.origin.textEnd ≤ site)
    (hstop : site < s.machine.textEnd) : course.At (a.withSite site) s :=
  { h with
    sites := List.forall_mem_cons.2 ⟨⟨hstart, hstop⟩, h.sites⟩
    startup := List.mem_cons_of_mem _ h.startup
    pending := fun call hcall => List.mem_cons_of_mem _ (h.pending call hcall) }

/-! ## Instructions -/

theorem goes_emitWord {word : Word} {post : Nat → Mark → Prop}
    (h : ∀ s site, course.At a s → course.origin.textEnd ≤ site → site < s.machine.textEnd →
      ∃ b, post site b ∧ course.At b s) :
    course.GoesBoth a (onMachine (Machine.emitWord word)) post := by
  rintro ⟨m, compiler⟩ hat
  unfold onMachine State.within
  rcases hat.machine.emitWord word with hfull | ⟨m', hok, htextEnd, hgrows⟩
  · simp only at hfull
    simp only [hfull]
    exact .error .segmentFull hat.machine
  · simp only at hok htextEnd
    simp only [hok]
    have hstep : m.textEnd < m'.textEnd := htextEnd ▸ Nat.lt_succ_self _
    obtain ⟨b, hpost, hat'⟩ :=
      h ⟨m', compiler⟩ m.textEnd (hat.withMachine hgrows (Nat.le_of_lt hstep))
        hat.machine.textEnd hstep
    exact .ok hpost hat'

theorem goes_write (word : Word) :
    course.GoesBoth a (onMachine (Machine.emitWord word))
      fun _ b => b = a :=
  goes_emitWord fun _ _ hat _ _ => ⟨a, rfl, hat⟩

theorem goes_emit (opcode : Opcode) :
    course.GoesBoth a (emit opcode) fun _ b => b = a :=
  (goes_write _).stay fun _ => .pure rfl

theorem goes_emitWith (opcode : Opcode) (operand : Word) :
    course.GoesBoth a (emitWith opcode operand) fun _ b => b = a :=
  (goes_emit opcode).stay fun _ => (goes_write operand).stay fun _ => .pure rfl

/-- A pending operand is a word that may be patched. -/
theorem goes_emitPending (opcode : Opcode) :
    course.GoesBoth a (emitPending opcode) fun site b => b = a.withSite site :=
  (goes_emit opcode).stay fun _ =>
    goes_emitWord fun _ site hat hstart hstop => ⟨a.withSite site, rfl, hat.withSite hstart hstop⟩

theorem goes_patch {site : Nat} (hsite : site ∈ a.sites) (word : Word) :
    course.GoesBoth a (patch site word) fun _ b => b = a := by
  rintro ⟨m, compiler⟩ hat
  unfold patch onMachine State.within
  obtain ⟨hstart, hstop⟩ := hat.sites site hsite
  obtain ⟨m', hok, htextEnd, hgrows⟩ := hat.machine.patch hstart hstop word
  simp only at hok htextEnd
  simp only [hok]
  exact .ok rfl (hat.withMachine hgrows (Nat.le_of_eq htextEnd.symm))

theorem goes_here : course.GoesBoth a here fun _ b => b = a :=
  fun _ hat => .ok rfl hat

theorem goes_patchHere {site : Nat} (hsite : site ∈ a.sites) :
    course.GoesBoth a (patchHere site) fun _ b => b = a :=
  goes_here.stay fun _ => goes_patch hsite _

theorem goes_patchAll {sites : List Nat} (hsites : ∀ site ∈ sites, site ∈ a.sites) (word : Word) :
    course.GoesBoth a (patchAll sites word) fun _ b => b = a := by
  induction sites with
  | nil => exact .pure rfl
  | cons site rest ih =>
      obtain ⟨hsite, hrest⟩ := List.forall_mem_cons.1 hsites
      exact (goes_patch hsite word).stay fun _ => ih hrest

theorem goes_allocate (words : List Word) :
    course.GoesBoth a (onMachine (Machine.allocate words))
      fun _ b => b = a := by
  rintro ⟨m, compiler⟩ hat
  unfold onMachine State.within
  rcases hat.machine.allocate words with hfull | ⟨m', hok, htextEnd, hgrows⟩
  · simp only at hfull
    simp only [hfull]
    exact .error .segmentFull hat.machine
  · simp only at hok htextEnd
    simp only [hok]
    exact .ok rfl (hat.withMachine hgrows (Nat.le_of_eq htextEnd.symm))

theorem goes_report {event : Machine → Event} :
    course.Goes a (onMachine (modify fun machine => machine.report (event machine)))
      (onMachine (modify fun machine => machine.report (event machine))) fun _ b => b = a :=
  fun _ hat => .ok rfl (hat.withMachine (hat.machine.report _) (Nat.le_refl _))

/-! ## Tokens and rules -/

theorem goes_tree (change : Tree.Builder → Tree.Builder) :
    course.GoesBoth a (update fun compiler => { compiler with tree := change compiler.tree })
      fun _ b => b = a :=
  goes_update (fun _ _ => rfl) fun _ hat => { hat with }

theorem goes_openRule (rule : Rule) : course.GoesBoth a (openRule rule) fun _ b => b = a :=
  goes_tree fun tree => tree.openRule rule

theorem goes_closeRule : course.GoesBoth a closeRule fun _ b => b = a :=
  goes_tree Tree.Builder.closeRule

theorem goes_record (token : Token) : course.GoesBoth a (record token) fun _ b => b = a :=
  goes_tree fun tree => tree.terminal token.text

theorem goes_frame (change : Frame → Frame) :
    course.GoesBoth a (update fun compiler => { compiler with frame := change compiler.frame })
      fun _ b => b = a :=
  goes_update (fun _ _ => rfl) fun _ hat => { hat with }

/-- A current token that is not the end of the input is still to be taken. -/
theorem At.left_ne_zero (h : course.At a s) (hkind : s.compiler.current.kind ≠ .endOfInput) :
    a.left ≠ 0 := by
  rw [← h.left, tokensLeft, if_neg hkind]
  exact Nat.succ_ne_zero _

theorem At.kind_ne (h : course.At a s) (hleft : a.left ≠ 0) :
    s.compiler.current.kind ≠ .endOfInput := by
  intro hkind
  rw [← h.left, tokensLeft, if_pos hkind] at hleft
  exact hleft rfl

theorem goes_peek :
    course.GoesBoth a peek fun kind b => b = a ∧ (kind ≠ .endOfInput → a.left ≠ 0) :=
  goes_view (fun _ _ => rfl) fun _ hat => hat.left_ne_zero

theorem goes_atKind (kind : Token.Kind) :
    course.GoesBoth a (atKind kind) fun found b =>
      b = a ∧ (found = true → kind ≠ .endOfInput → a.left ≠ 0) := by
  refine goes_peek.bind ?_
  rintro current _ ⟨rfl, hleft⟩
  refine .pure ⟨rfl, fun hfound => ?_⟩
  rw [← of_decide_eq_true hfound]
  exact hleft

theorem goes_atMark (mark : Punctuator) :
    course.GoesBoth a (atMark mark) fun found b => b = a ∧ (found = true → a.left ≠ 0) :=
  (goes_atKind _).mono fun _ _ ⟨hb, hleft⟩ => ⟨hb, fun hfound => hleft hfound nofun⟩

theorem goes_current :
    course.GoesBoth a (view (·.current)) fun token b =>
      b = a ∧ (token.kind ≠ .endOfInput → a.left ≠ 0) ∧ Landmark course.source token.start :=
  goes_view (fun _ _ => rfl) fun _ hat => ⟨hat.left_ne_zero, hat.current⟩

theorem goes_locate {token : Token} (h : Landmark course.source token.start) :
    course.GoesBoth a (locate token) fun position b =>
      b = a ∧ position.IsLandmark course.source := by
  refine (goes_view (p := fun source => source = course.source) (fun _ _ => rfl)
    fun _ hat => hat.source).bind ?_
  rintro _ _ ⟨rfl, rfl⟩
  exact .pure ⟨rfl, h.position⟩

theorem goes_unexpected (expected : Expected) {post : α → Mark → Prop} :
    course.GoesBoth a (unexpected expected) post := by
  refine goes_current.bind ?_
  rintro token _ ⟨rfl, -, hmark⟩
  refine (goes_locate hmark).bind ?_
  rintro position _ ⟨rfl, hposition⟩
  exact .throw (.unexpectedSymbol hposition)

theorem At.take (h : course.At a s) {current : Token} {upcoming : Stream}
    (hcurrent : Landmark course.source current.start) (hupcoming : upcoming.IsRest course.source)
    (hleft : tokensLeft { s.compiler with current, upcoming } = a.left - 1) :
    course.At a.take ⟨s.machine, { s.compiler with current, upcoming }⟩ :=
  { h with
    current := hcurrent
    upcoming := hupcoming
    left := hleft
    bound := Nat.lt_of_le_of_lt (Nat.sub_le _ _) h.bound
    other := Nat.lt_of_le_of_lt (Nat.sub_le _ _) h.other }

theorem goes_take (hleft : a.left ≠ 0) :
    course.GoesBoth a take fun token b =>
      a.Leads 1 b ∧ Landmark course.source token.start := by
  rintro ⟨m, source, current, upcoming, bound, symbols, tree, frame, startup, pending⟩ hat
  have hkind := hat.kind_ne hleft
  have hcount := hat.left
  rw [tokensLeft, if_neg hkind] at hcount
  have hrest := hat.upcoming
  cases upcoming with
  | failed error => exact .error hrest.failed hat.machine
  | done offset =>
      have hend : Landmark course.source (Token.endAt offset).start := hrest.done
      refine .ok ⟨.take hleft, hat.current⟩ (hat.take hend hrest ?_)
      rw [← hcount]
      exact if_pos rfl
  | cons next rest =>
      obtain ⟨hproper, hmark, htail⟩ := hrest.cons
      refine .ok ⟨.take hleft, hat.current⟩ (hat.take hmark htail ?_)
      rw [← hcount]
      exact if_neg hproper

theorem goes_advance (hleft : a.left ≠ 0) :
    course.GoesBoth a advance fun _ => a.Leads 1 := by
  refine (goes_take hleft).bind ?_
  rintro token b ⟨hb, -⟩
  exact (goes_record token).rests hb (Nat.le_refl _)

theorem goes_expect {kind : Token.Kind} (hkind : kind ≠ .endOfInput) :
    course.GoesBoth a (expect kind) fun _ => a.Leads 1 := by
  refine (goes_atKind kind).bind ?_
  rintro found _ ⟨rfl, hleft⟩
  exact .ite (fun hfound => goes_advance (hleft hfound hkind)) fun _ => goes_unexpected _

theorem goes_expectMark (mark : Punctuator) :
    course.GoesBoth a (expectMark mark) fun _ => a.Leads 1 :=
  goes_expect nofun

theorem goes_expectWord (word : Keyword) :
    course.GoesBoth a (expect (.keyword word)) fun _ => a.Leads 1 :=
  goes_expect nofun

theorem goes_expectIdentifier :
    course.GoesBoth a expectIdentifier fun found b =>
      a.Leads 1 b ∧ found.2.IsLandmark course.source := by
  refine goes_current.bind ?_
  rintro token _ ⟨rfl, hleft, hmark⟩
  cases hkind : token.kind with
  | identifier name =>
      have hne := hleft (hkind ▸ nofun)
      refine (goes_locate hmark).bind ?_
      rintro position _ ⟨rfl, hposition⟩
      exact (goes_advance hne).bind fun _ b hb => .pure ⟨hb, hposition⟩
  | _ => exact goes_unexpected _

theorem goes_expectType : course.GoesBoth a expectType fun _ => a.Leads 1 := by
  refine goes_peek.bind ?_
  rintro kind _ ⟨rfl, hleft⟩
  cases htype : kind.typeName? with
  | none => exact goes_unexpected _
  | some type =>
      have hne := hleft fun hend => by
        rw [hend] at htype
        cases htype
      exact (goes_advance hne).bind fun _ b hb => .pure hb

/-! ## Names -/

theorem At.withSymbols (h : course.At a s) {symbols : Symbol.Table}
    (hsymbols : ∀ symbol ∈ symbols.symbols, IsPlaced course.source symbol)
    (hlevel : symbols.scopes.length = b.level + 1) (hleft : b.left = a.left)
    (hsites : b.sites = a.sites) :
    course.At b ⟨s.machine, { s.compiler with symbols }⟩ where
  machine := h.machine
  source := h.source
  current := h.current
  upcoming := h.upcoming
  left := h.left.trans hleft.symm
  bound := hleft ▸ h.bound
  other := hleft ▸ h.other
  symbols := hsymbols
  level := hlevel
  sites := hsites ▸ h.sites
  startup := hsites ▸ h.startup
  pending := hsites ▸ h.pending

theorem goes_enterScope : course.GoesBoth a enterScope fun _ b => b = a.enter :=
  goes_update (fun _ _ => rfl) fun _ hat =>
    hat.withSymbols hat.symbols (congrArg (· + 1) hat.level) rfl rfl

/-- A scope that was entered can be left. -/
theorem goes_leaveScope (hlevel : a.level ≠ 0) :
    course.GoesBoth a leaveScope fun _ b => b = a.leave := by
  rintro ⟨m, source, current, upcoming, bound, ⟨symbols, index, scopes, last⟩, tree, frame,
    startup, pending⟩ hat
  have hscopes := hat.level
  simp only at hscopes
  match scopes, hscopes with
  | [], hscopes => cases hscopes
  | [_], hscopes => exact absurd (Nat.succ.inj hscopes).symm hlevel
  | _ :: outer :: rest, hscopes =>
      have hlength : (outer :: rest).length = a.level := Nat.succ.inj hscopes
      have hlevel : (outer :: rest).length = a.leave.level + 1 :=
        hlength.trans (Nat.sub_add_cancel (Nat.pos_of_ne_zero hlevel)).symm
      exact .ok rfl (hat.withSymbols hat.symbols hlevel rfl rfl)

/-- What a mark says about the symbols. -/
structure Tables (course : Course) (a : Mark) (table : Symbol.Table) : Prop where
  symbols : ∀ symbol ∈ table.symbols, IsPlaced course.source symbol
  level : table.scopes.length = a.level + 1

theorem goes_symbols :
    course.GoesBoth a (view (·.symbols)) fun table b =>
      b = a ∧ course.Tables a table :=
  goes_view (fun _ _ => rfl) fun _ hat => ⟨hat.symbols, hat.level⟩

theorem goes_setSymbols {table : Symbol.Table} (h : course.Tables a table) :
    course.GoesBoth a (update fun compiler => { compiler with symbols := table })
      fun _ b => b = a :=
  goes_update (fun _ _ => rfl) fun _ hat => hat.withSymbols h.symbols h.level rfl rfl

theorem Tables.lookup {table : Symbol.Table} (h : course.Tables a table) {name : String}
    {symbol : Symbol} (hlookup : table.lookup? name = some symbol) :
    IsPlaced course.source symbol :=
  h.symbols symbol (Symbol.Table.mem_of_lookup? hlookup)

theorem Tables.define {table table' : Symbol.Table} (h : course.Tables a table) {name : String}
    {entry : Word} {symbol : Symbol}
    (hdefine : table.defineFunction? name entry = some (symbol, table')) :
    course.Tables a table' := by
  obtain ⟨slot, found, -, hfound, -, rfl, rfl⟩ := Symbol.Table.defineFunction?_eq_some.1 hdefine
  have hplaced : IsPlaced course.source found := h.symbols found (List.mem_of_getElem? hfound)
  refine ⟨fun other hother => ?_, h.level⟩
  rcases List.mem_or_eq_of_mem_set hother with hold | rfl
  · exact h.symbols other hold
  · exact hplaced

theorem goes_declare {symbol : Symbol} (hposition : symbol.position.IsLandmark course.source) :
    course.GoesBoth a (declare symbol) fun _ b => b = a := by
  refine goes_symbols.bind ?_
  rintro table b ⟨rfl, htable⟩
  refine (goes_ofExcept (p := fun found => course.Tables b found.2) ?_ ?_).bind ?_
  · rintro ⟨declared, table'⟩ hdeclare
    obtain ⟨-, -, rfl⟩ := Symbol.Table.declare_eq_ok.1 hdeclare
    refine ⟨fun other hother => ?_, htable.level⟩
    rcases List.mem_append.1 hother with hold | hnew
    · exact htable.symbols other hold
    · rw [List.mem_singleton.1 hnew]
      exact fun _ => hposition
  · intro error hdeclare
    unfold Symbol.Table.declare at hdeclare
    split at hdeclare
    · cases hdeclare
      exact .duplicateDeclaration hposition
    · cases hdeclare
  · rintro ⟨declared, table'⟩ _ ⟨rfl, htable'⟩
    exact (goes_setSymbols htable').stay fun _ => .pure rfl

theorem goes_resolve {name : String} {position : Position}
    (hposition : position.IsLandmark course.source) :
    course.GoesBoth a (resolve name position) fun symbol b =>
      b = a ∧ IsPlaced course.source symbol := by
  refine goes_symbols.bind ?_
  rintro table _ ⟨rfl, htable⟩
  unfold Symbol.Table.resolve
  cases hlookup : table.lookup? name with
  | some symbol => exact .pure ⟨rfl, htable.lookup hlookup⟩
  | none => exact .throw (.undefinedName hposition)

end Course

end WordC.Compiler
