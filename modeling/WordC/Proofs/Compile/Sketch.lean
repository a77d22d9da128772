import WordC.Proofs.Compile.Symbols
import WordC.Proofs.Compile.Yields
import WordC.Proofs.Machine.Sound

/-!
# Sketches of a compilation

A sketch keeps what matters of a compilation: the kinds of the tokens ahead, the names in scope, and
the words written so far, where calls stand for entries that may still be unknown. A state fits a
sketch if its tables and its machine agree with it. From here on the compiler is followed from
sketch to sketch.
-/

namespace WordC

namespace Token.Stream

def kinds : Stream → List Kind
  | done _ => []
  | failed _ => []
  | cons token rest => token.kind :: rest.kinds

/-- The error that ends the tokens. -/
def failure? : Stream → Option Error
  | done _ => none
  | failed error => some error
  | cons _ rest => rest.failure?

theorem length_kinds (stream : Stream) : stream.kinds.length = stream.length := by
  induction stream with
  | done => rfl
  | failed => rfl
  | cons token rest ih => rw [kinds, length, List.length_cons, ih]

end Token.Stream

/-- Whether a word of text is as it should be. The operand of a call whose entry is unknown is on
the list of pending calls. -/
def Core.Cell.WrittenAt (memory : Array Word) (entries pending : List (String × Nat))
    (address : Nat) : Core.Cell → Prop
  | known word => memory[address]? = some word
  | entry name =>
      match entries.lookup name with
      | some target => memory[address]? = some (Word.ofCount target)
      | none => (name, address) ∈ pending
  | hole => True

/-- A machine whose text and data have grown and which is otherwise as it was. -/
structure Machine.Extends (machine base : Machine) : Prop where
  sound : machine.Sound
  layout : machine.layout = base.layout
  sp : machine.sp = base.sp
  bp : machine.bp = base.bp
  cycles : machine.cycles = base.cycles
  cycleLimit : machine.cycleLimit = base.cycleLimit
  heap : machine.heap = base.heap
  isRunnable : machine.status.isRunnable = base.status.isRunnable

namespace Core.Cell

variable {memory memory' : Array Word} {entries pending pending' : List (String × Nat)}
  {address target : Nat} {name : String} {cell : Cell}

theorem writtenAt_of_some (h : entries.lookup name = some target) :
    (entry name).WrittenAt memory entries pending address ↔
      memory[address]? = some (Word.ofCount target) := by
  rw [WrittenAt, h]

theorem writtenAt_of_none (h : entries.lookup name = none) :
    (entry name).WrittenAt memory entries pending address ↔ (name, address) ∈ pending := by
  rw [WrittenAt, h]

/-- Nothing else matters than the word at the address and whether it is the operand of a pending
call. -/
theorem WrittenAt.mono (h : cell.WrittenAt memory entries pending address)
    (hmemory : memory'[address]? = memory[address]?)
    (hpending : ∀ name, cell = .entry name → (name, address) ∈ pending → (name, address) ∈ pending') :
    cell.WrittenAt memory' entries pending' address := by
  cases cell with
  | known word => exact hmemory.trans h
  | entry name =>
      cases hlookup : entries.lookup name with
      | none =>
          rw [writtenAt_of_none hlookup] at h ⊢
          exact hpending name rfl h
      | some target =>
          rw [writtenAt_of_some hlookup] at h ⊢
          exact hmemory.trans h
  | hole => trivial

theorem WrittenAt.congr (h : cell.WrittenAt memory entries pending address)
    (hmemory : memory'[address]? = memory[address]?) :
    cell.WrittenAt memory' entries pending address :=
  h.mono hmemory fun _ _ hmem => hmem

/-- Only calls of a function depend on its entry. -/
theorem WrittenAt.addEntry (h : cell.WrittenAt memory entries pending address)
    (hentries : entries.lookup name = none) (hne : cell ≠ .entry name) :
    cell.WrittenAt memory (entries ++ [(name, target)]) pending address := by
  cases cell with
  | known word => exact h
  | entry other =>
      have hother : other ≠ name := fun heq => hne (congrArg entry heq)
      rw [WrittenAt, Symbol.Table.lookup_entries_append hentries, if_neg hother]
      exact h
  | hole => trivial

end Core.Cell

namespace Compiler

open WordC.Core (Binding Cell Env Instr)

/-- The tokens ahead of a compilation, the current one first. Behind the last token stands the end
of the input or the error of the scanner. -/
structure Ahead (failure? : Option Error) (compiler : Compiler) (ahead : List Token.Kind) :
    Prop where
  current : compiler.current.kind = ahead.headD .endOfInput
  upcoming : compiler.upcoming.kinds = ahead.tail
  failure : compiler.upcoming.failure? = failure?
  ended : ahead = [] → failure? = none
  proper : .endOfInput ∉ ahead
  bound : ahead.length < compiler.bound

@[ext]
structure Sketch where
  textStart : Nat
  dataStart : Nat
  ahead : List Token.Kind
  env : Env
  awaiting : List String
  entries : List (String × Nat)
  frame : Frame
  cells : List Cell
  data : List Word
  startup : Nat

namespace Sketch

def current (sketch : Sketch) : Token.Kind :=
  sketch.ahead.headD .endOfInput

/-- The address of the next word of text. -/
def here (sketch : Sketch) : Nat :=
  sketch.textStart + sketch.cells.length

/-- The address of the next word of data. -/
def dataHere (sketch : Sketch) : Nat :=
  sketch.dataStart + sketch.data.length

/-- The sketch after more text and data, in front of the tokens `ahead`. -/
def after (sketch : Sketch) (ahead : List Token.Kind) (cells : List Cell) (data : List Word) :
    Sketch :=
  { sketch with ahead, cells := sketch.cells ++ cells, data := sketch.data ++ data }

variable {sketch : Sketch} {ahead ahead' : List Token.Kind} {cells cells' : List Cell}
  {data data' : List Word}

@[simp] theorem ahead_after : (sketch.after ahead cells data).ahead = ahead := rfl

@[simp] theorem env_after : (sketch.after ahead cells data).env = sketch.env := rfl

@[simp] theorem awaiting_after : (sketch.after ahead cells data).awaiting = sketch.awaiting := rfl

@[simp] theorem entries_after : (sketch.after ahead cells data).entries = sketch.entries := rfl

@[simp] theorem frame_after : (sketch.after ahead cells data).frame = sketch.frame := rfl

@[simp] theorem here_after : (sketch.after ahead cells data).here = sketch.here + cells.length := by
  simp [here, after, Nat.add_assoc]

@[simp] theorem dataHere_after :
    (sketch.after ahead cells data).dataHere = sketch.dataHere + data.length := by
  simp [dataHere, after, Nat.add_assoc]

@[simp] theorem after_after :
    (sketch.after ahead cells data).after ahead' cells' data' =
      sketch.after ahead' (cells ++ cells') (data ++ data') := by
  simp [after]

theorem after_self : sketch.after sketch.ahead [] [] = sketch := by
  simp [after]

/-- The sketch without what has been written. -/
def unwritten (sketch : Sketch) : Sketch :=
  { sketch with cells := [], data := [] }

theorem eq_after_unwritten (sketch : Sketch) :
    sketch = sketch.unwritten.after sketch.ahead sketch.cells sketch.data := by
  simp [unwritten, after]

end Sketch

/-- What a compilation began with. -/
structure Origin where
  base : Machine
  sound : base.Sound
  /-- The error of the scanner, if the source is no sequence of tokens. -/
  failure? : Option Error

structure Sketch.Fits (sketch : Sketch) (origin : Origin) (state : State) : Prop where
  ahead : Ahead origin.failure? state.compiler sketch.ahead
  models : state.compiler.symbols.Models sketch.env
  functions :
    state.compiler.symbols.Functions sketch.env.globals sketch.awaiting sketch.entries
  frame : state.compiler.frame = sketch.frame
  startup : state.compiler.startup = sketch.startup
  machine : state.machine.Extends origin.base
  textStart : sketch.textStart = origin.base.textEnd
  dataStart : sketch.dataStart = origin.base.dataEnd
  textEnd : state.machine.textEnd = sketch.here
  dataEnd : state.machine.dataEnd = sketch.dataHere
  cells : ∀ (index : Nat) (cell : Cell), sketch.cells[index]? = some cell →
    cell.WrittenAt state.machine.memory sketch.entries state.compiler.pendingCalls
      (sketch.textStart + index)
  pending : ∀ call ∈ state.compiler.pendingCalls, call.1 ∈ sketch.awaiting ∧
    ∃ index, call.2 = sketch.textStart + index ∧ sketch.cells[index]? = some (.entry call.1)
  data : ∀ (index : Nat) (word : Word), sketch.data[index]? = some word →
    state.machine.memory[sketch.dataStart + index]? = some word

/-! ## Order and room

A compilation writes more and more and has fewer and fewer tokens ahead. So if there is room for a
sketch, there was room for those before it. -/

structure Sketch.Precedes (a b : Sketch) : Prop where
  text : a.here ≤ b.here
  data : a.dataHere ≤ b.dataHere
  ahead : b.ahead ≠ [] → a.ahead ≠ []

/-- There is room for what has been written, and what is read is a token. Behind the last token the
scanner may fail. -/
structure Sketch.Within (sketch : Sketch) (origin : Origin) : Prop where
  text : sketch.here ≤ origin.base.layout.text.stop
  data : sketch.dataHere ≤ origin.base.layout.data.stop
  scanned : origin.failure? ≠ none → sketch.ahead ≠ []

/-- Some table has the names of the sketch. -/
def Sketch.Tabled (sketch : Sketch) : Prop :=
  ∃ table : Symbol.Table, table.Models sketch.env ∧
    table.Functions sketch.env.globals sketch.awaiting sketch.entries

namespace Sketch

variable {origin : Origin} {a b c : Sketch}

theorem Precedes.refl (a : Sketch) : a.Precedes a :=
  ⟨Nat.le_refl _, Nat.le_refl _, id⟩

theorem Precedes.trans (h : a.Precedes b) (h' : b.Precedes c) : a.Precedes c :=
  ⟨Nat.le_trans h.text h'.text, Nat.le_trans h.data h'.data, fun hahead => h.ahead (h'.ahead hahead)⟩

theorem precedes_after {ahead : List Token.Kind} {cells : List Cell} {data : List Word}
    (hahead : ahead ≠ [] → a.ahead ≠ []) : a.Precedes (a.after ahead cells data) where
  text := by
    rw [here_after]
    exact Nat.le_add_right _ _
  data := by
    rw [dataHere_after]
    exact Nat.le_add_right _ _
  ahead := hahead

theorem Precedes.within (h : a.Precedes b) (hwithin : b.Within origin) : a.Within origin :=
  ⟨Nat.le_trans h.text hwithin.text, Nat.le_trans h.data hwithin.data,
    fun hfailure => h.ahead (hwithin.scanned hfailure)⟩

theorem Fits.tabled {s : State} (h : a.Fits origin s) : a.Tabled :=
  ⟨s.compiler.symbols, h.models, h.functions⟩

theorem Fits.within {s : State} (h : a.Fits origin s) : a.Within origin where
  text := by
    rw [← h.textEnd, ← h.machine.layout]
    exact h.machine.sound.textStop
  data := by
    rw [← h.dataEnd, ← h.machine.layout]
    exact h.machine.sound.dataStop
  scanned := fun hfailure hahead => hfailure (h.ahead.ended hahead)

end Sketch

/-! ## Following actions

An action reaches a sketch if it cannot stop for anything but want of room or a text that is no
token. It ends in a sketch if it gives a result at all. -/

variable {α β : Type} {origin : Origin} {a b c : Sketch}

/-- What an action may stop with that could have led to a sketch for which there is no room. -/
def Short (origin : Origin) (post : α → Sketch → Prop) (error : Error) : Prop :=
  Excused origin.failure? error ∧ ∃ value b, post value b ∧ b.Tabled ∧ ¬b.Within origin

structure Reaches (origin : Origin) (a : Sketch) (action : Compile α) (post : α → Sketch → Prop) :
    Prop where
  /-- The condition can be met if there is room enough. -/
  attains : a.Tabled → ∃ value b, post value b ∧ a.Precedes b ∧ b.Tabled
  yields : ∀ s, a.Fits origin s → Yields (Short origin post) action s fun value s' =>
    ∃ b, post value b ∧ b.Fits origin s'

def Ends (origin : Origin) (a : Sketch) (action : Compile α) (post : α → Sketch → Prop) : Prop :=
  ∀ s, a.Fits origin s → ∀ value s', action s = .ok value s' →
    ∃ b, post value b ∧ b.Fits origin s'

/-- The action gives a result only under this condition. -/
def Needs (origin : Origin) (a : Sketch) (action : Compile α) (condition : Prop) : Prop :=
  ∀ s, a.Fits origin s → ∀ value s', action s = .ok value s' → condition

/-- The action gives this value and leads to this sketch. -/
def Does (origin : Origin) (a : Sketch) (action : Compile α) (value : α) (b : Sketch) : Prop :=
  Reaches origin a action fun result end' => result = value ∧ end' = b

namespace Reaches

variable {action : Compile α} {next : α → Compile β} {post post' : α → Sketch → Prop}
  {result : β → Sketch → Prop}

theorem pure {value : α} (h : post value a) : Reaches origin a (Pure.pure value) post where
  attains := fun htabled => ⟨value, a, h, .refl a, htabled⟩
  yields := fun _ hfits => Yields.pure ⟨a, h, hfits⟩

/-- The sketch that could have been reached by the first action could have led on to one that could
have been reached by both. -/
theorem bind (hfirst : Reaches origin a action post)
    (hnext : ∀ value b, post value b → Reaches origin b (next value) result) :
    Reaches origin a (action >>= next) result where
  attains := by
    intro htabled
    obtain ⟨value, b, hpost, hprecedes, htabled'⟩ := hfirst.attains htabled
    obtain ⟨final, c, hresult, hprecedes', htabled''⟩ := (hnext value b hpost).attains htabled'
    exact ⟨final, c, hresult, hprecedes.trans hprecedes', htabled''⟩
  yields := by
    intro s hfits
    refine Yields.bind ((hfirst.yields s hfits).weaken (fun _ _ hpost => hpost) ?_) ?_
    · rintro error ⟨hexcused, value, b, hpost, htabled, hshort⟩
      obtain ⟨final, c, hresult, hprecedes, htabled'⟩ := (hnext value b hpost).attains htabled
      exact ⟨hexcused, final, c, hresult, htabled', fun hwithin => hshort (hprecedes.within hwithin)⟩
    · rintro value s' ⟨b, hpost, hfits'⟩
      exact (hnext value b hpost).yields s' hfits'

theorem weaken (h : Reaches origin a action post) (himp : ∀ value b, post value b → post' value b) :
    Reaches origin a action post' where
  attains := by
    intro htabled
    obtain ⟨value, b, hpost, hlater⟩ := h.attains htabled
    exact ⟨value, b, himp value b hpost, hlater⟩
  yields := by
    intro s hfits
    refine (h.yields s hfits).weaken ?_ ?_
    · rintro value s' ⟨b, hpost, hfits'⟩
      exact ⟨b, himp value b hpost, hfits'⟩
    · rintro error ⟨hexcused, value, b, hpost, hshort⟩
      exact ⟨hexcused, value, b, himp value b hpost, hshort⟩

theorem ends (h : Reaches origin a action post) : Ends origin a action post :=
  fun s hfits _ _ hok => (h.yields s hfits).of_ok hok

end Reaches

namespace Does

variable {action : Compile α} {next : α → Compile β} {value : α} {result : β}
  {post : β → Sketch → Prop}

theorem pure : Does origin a (Pure.pure value) value a :=
  Reaches.pure ⟨rfl, rfl⟩

/-- An action with one way to go. Where it stops, there is no room for the sketch it would have
led to. -/
theorem intro (hprecedes : a.Precedes b) (htabled : a.Tabled → b.Tabled)
    (hrun : ∀ s, a.Fits origin s →
      Yields (fun error => Excused origin.failure? error ∧ ¬b.Within origin) action s
        fun found s' => found = value ∧ b.Fits origin s') :
    Does origin a action value b where
  attains := fun ha => ⟨value, b, ⟨rfl, rfl⟩, hprecedes, htabled ha⟩
  yields := by
    intro s hfits
    refine (hrun s hfits).weaken ?_ ?_
    · rintro found s' ⟨rfl, hfits'⟩
      exact ⟨b, ⟨rfl, rfl⟩, hfits'⟩
    · rintro error ⟨hexcused, hshort⟩
      exact ⟨hexcused, value, b, ⟨rfl, rfl⟩, htabled hfits.tabled, hshort⟩

/-- A state that fits the sketch that is reached may fit another sketch of the same size. -/
theorem adjust {b' : Sketch} (h : Does origin a action value b) (hprecedes : b.Precedes b')
    (htabled : b.Tabled → b'.Tabled) (hfits : ∀ s, b.Fits origin s → b'.Fits origin s) :
    Does origin a action value b' := by
  refine ⟨fun ha => ?_, fun s hs => (h.yields s hs).weaken ?_ ?_⟩
  · obtain ⟨_, _, ⟨rfl, rfl⟩, hfirst, hb⟩ := h.attains ha
    exact ⟨_, b', ⟨rfl, rfl⟩, hfirst.trans hprecedes, htabled hb⟩
  · rintro _ s' ⟨_, ⟨rfl, rfl⟩, hs'⟩
    exact ⟨b', ⟨rfl, rfl⟩, hfits s' hs'⟩
  · rintro error ⟨hexcused, _, _, ⟨rfl, rfl⟩, hb, hshort⟩
    exact ⟨hexcused, _, b', ⟨rfl, rfl⟩, htabled hb, fun hwithin => hshort (hprecedes.within hwithin)⟩

theorem bind (hfirst : Does origin a action value b)
    (hnext : Reaches origin b (next value) post) : Reaches origin a (action >>= next) post := by
  refine Reaches.bind hfirst ?_
  rintro _ _ ⟨rfl, rfl⟩
  exact hnext

theorem ends (hfirst : Does origin a action value b)
    (hnext : Ends origin b (next value) post) : Ends origin a (action >>= next) post := by
  intro s hfits result s' hok
  obtain ⟨found, middle, hok, hrest⟩ := bind_eq_ok.1 hok
  obtain ⟨_, ⟨rfl, rfl⟩, hfits'⟩ := Reaches.ends hfirst s hfits found middle hok
  exact hnext middle hfits' result s' hrest

theorem reaches {post : α → Sketch → Prop} (h : Does origin a action value b)
    (hpost : post value b) : Reaches origin a action post := by
  refine Reaches.weaken h ?_
  rintro _ _ ⟨rfl, rfl⟩
  exact hpost

theorem ends_of {post : α → Sketch → Prop} (h : Does origin a action value b)
    (hpost : post value b) : Ends origin a action post :=
  (h.reaches hpost).ends

end Does

namespace Ends

variable {action : Compile α} {next : α → Compile β} {post post' : α → Sketch → Prop}
  {result : β → Sketch → Prop}

theorem pure {value : α} (h : post value a) : Ends origin a (Pure.pure value) post := by
  intro s hfits _ _ hok
  obtain ⟨rfl, rfl⟩ := pure_eq_ok.1 hok
  exact ⟨a, h, hfits⟩

theorem throw {error : Error} : Ends origin a (MonadExcept.throw error : Compile α) post :=
  fun _ _ _ _ hok => absurd hok throw_ne_ok

theorem bind (hfirst : Ends origin a action post)
    (hnext : ∀ value b, post value b → Ends origin b (next value) result) :
    Ends origin a (action >>= next) result := by
  intro s hfits value s' hok
  obtain ⟨found, middle, hok, hrest⟩ := bind_eq_ok.1 hok
  obtain ⟨b, hpost, hfits'⟩ := hfirst s hfits found middle hok
  exact hnext found b hpost middle hfits' value s' hrest

theorem weaken (h : Ends origin a action post) (himp : ∀ value b, post value b → post' value b) :
    Ends origin a action post' := by
  intro s hfits value s' hok
  obtain ⟨b, hpost, hfits'⟩ := h s hfits value s' hok
  exact ⟨b, himp value b hpost, hfits'⟩

end Ends

namespace Needs

variable {action : Compile α} {next : α → Compile β} {post : α → Sketch → Prop}
  {condition condition' : Prop}

theorem of_ends (h : Ends origin a action post) (himp : ∀ value b, post value b → condition) :
    Needs origin a action condition := by
  intro s hfits value s' hok
  obtain ⟨b, hpost, _⟩ := h s hfits value s' hok
  exact himp value b hpost

theorem weaken (h : Needs origin a action condition) (himp : condition → condition') :
    Needs origin a action condition' :=
  fun s hfits value s' hok => himp (h s hfits value s' hok)

theorem throw {error : Error} : Needs origin a (MonadExcept.throw error : Compile α) condition :=
  fun _ _ _ _ hok => absurd hok throw_ne_ok

/-- The first action needs what the whole needs. -/
theorem first (h : Needs origin a action condition) :
    Needs origin a (action >>= next) condition := by
  intro s hfits value s' hok
  obtain ⟨found, middle, hok, _⟩ := bind_eq_ok.1 hok
  exact h s hfits found middle hok

theorem bind (hfirst : Ends origin a action post)
    (hnext : ∀ value b, post value b → Needs origin b (next value) condition) :
    Needs origin a (action >>= next) condition := by
  intro s hfits value s' hok
  obtain ⟨found, middle, hok, hrest⟩ := bind_eq_ok.1 hok
  obtain ⟨b, hpost, hfits'⟩ := hfirst s hfits found middle hok
  exact hnext found b hpost middle hfits' value s' hrest

/-- The action leads where it is known to lead under the condition that it needs. -/
theorem ends (h : Needs origin a action condition)
    (hreaches : condition → Reaches origin a action post) : Ends origin a action post :=
  fun s hfits value s' hok =>
    (hreaches (h s hfits value s' hok)).ends s hfits value s' hok

end Needs

theorem Does.needs {action : Compile α} {next : α → Compile β} {value : α} {condition : Prop}
    (hfirst : Does origin a action value b) (hnext : Needs origin b (next value) condition) :
    Needs origin a (action >>= next) condition := by
  refine Needs.bind (Reaches.ends hfirst) ?_
  rintro _ _ ⟨rfl, rfl⟩
  exact hnext

end Compiler

end WordC
