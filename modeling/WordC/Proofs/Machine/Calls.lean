import WordC.Proofs.Compile.Emission
import WordC.Proofs.Machine.Intact

/-!
# What may be asked of a machine

Text and data are written word by word or by the compiler, and the machine is run, rewound and
cleared in any order. It is intact behind every call, and cleared it is as good as new.
-/

namespace WordC

namespace Machine

variable {m m' : Machine} {α : Type} {layout : Layout}

inductive Call where
  | emit (word : Word)
  | patch (address : Nat) (word : Word)
  | allocate (words : List Word)
  | compile (source : String)
  | runFrom (entry : Nat) (tracing : Bool) (steps : Nat)
  | reset
  | clear
  | setCycleLimit (limit : Option Nat)

/-- The machine behind a call, whether the call succeeds or not. -/
def perform (m : Machine) : Call → Machine
  | .emit word => m.after (emitWord word)
  | .patch address word => m.after (Machine.patch address word)
  | .allocate words => m.after (Machine.allocate words)
  | .compile source => m.after (WordC.compile source)
  | .runFrom entry tracing steps => m.after (Machine.runFrom entry tracing steps)
  | .reset => m.reset
  | .clear => m.clear
  | .setCycleLimit limit => m.setCycleLimit limit

def performAll (m : Machine) (calls : List Call) : Machine :=
  calls.foldl perform m

/-! ## Single writes -/

/-- A word is appended to the text if there is room. -/
theorem after_emitWord (m : Machine) (word : Word) :
    m.after (emitWord word) = m ∨
      m.textEnd < m.layout.text.stop ∧
        m.after (emitWord word) =
          { m.setWord m.textEnd word with
            textEnd := m.textEnd + 1
            status := if m.status = .idle then .loaded else m.status } := by
  rw [after, emitWord]
  by_cases hfull : m.layout.text.stop ≤ m.textEnd
  · rw [if_pos hfull]
    exact .inl rfl
  · rw [if_neg hfull]
    exact .inr ⟨Nat.lt_of_not_le hfull, rfl⟩

theorem after_patch (m : Machine) (address : Nat) (word : Word) :
    m.after (patch address word) = m ∨
      (m.layout.text.start ≤ address ∧ address < m.textEnd) ∧
        m.after (patch address word) = m.setWord address word := by
  rw [after, patch]
  by_cases hwritten : m.layout.text.start ≤ address ∧ address < m.textEnd
  · rw [if_pos hwritten]
    exact .inr ⟨hwritten, rfl⟩
  · rw [if_neg hwritten]
    exact .inl rfl

/-- Words are appended to the data if there is room. -/
theorem after_allocate (m : Machine) (words : List Word) :
    m.after (allocate words) = m ∨
      words.length ≤ m.layout.data.stop - m.dataEnd ∧
        m.after (allocate words) =
          { m with
            memory := Memory.copy m.memory m.dataEnd words
            dataEnd := m.dataEnd + words.length
            dataImage := m.dataImage ++ words } := by
  rw [after, allocate]
  by_cases hfull : m.layout.data.stop - m.dataEnd < words.length
  · rw [if_pos hfull]
    exact .inl rfl
  · rw [if_neg hfull]
    exact .inr ⟨Nat.le_of_not_lt hfull, rfl⟩

/-! ## Preserving a property -/

theorem respects_of_after {holds : Machine → Prop} {action : Action α}
    (h : ∀ m, holds m → holds (m.after action)) :
    Respects (fun m n => m = n ∧ holds m) action := by
  rintro m _ ⟨rfl, hm⟩
  have hafter := h m hm
  cases hresult : action m with
  | ok value m' => exact .ok ⟨rfl, after_of_ok hresult ▸ hafter⟩
  | error error m' => exact .error ⟨rfl, after_of_error hresult ▸ hafter⟩

theorem after_of_respects {holds : Machine → Prop} {action : Action α}
    (h : Respects (fun m n => m = n ∧ holds m) action) (hm : holds m) : holds (m.after action) := by
  have hresult := h ⟨rfl, hm⟩
  rw [after]
  cases haction : action m with
  | ok value m' =>
      rw [haction] at hresult
      cases hresult with
      | ok hafter => exact hafter.2
  | error error m' =>
      rw [haction] at hresult
      cases hresult with
      | error hafter => exact hafter.2

/-- What writing text and data preserves is preserved by the compiler. -/
theorem after_compile {holds : Machine → Prop}
    (hemit : ∀ word m, holds m → holds (m.after (Machine.emitWord word)))
    (hpatch : ∀ address word m, holds m → holds (m.after (Machine.patch address word)))
    (hallocate : ∀ words m, holds m → holds (m.after (Machine.allocate words)))
    (hreport : ∀ event m, holds m → holds (m.report event)) (hm : holds m) (source : String) :
    holds (m.after (WordC.compile source)) := by
  refine after_of_respects (respects_compile ?_ source) hm
  exact
    { textEnd := fun _ _ hsame => congrArg Machine.textEnd hsame.1
      dataLength := fun _ _ hsame => congrArg Machine.dataLength hsame.1
      emitWord := fun word => respects_of_after (hemit word)
      patch := fun address word => respects_of_after (hpatch address word)
      allocate := fun words => respects_of_after (hallocate words)
      report := by
        rintro m _ event ⟨rfl, hm⟩
        exact ⟨rfl, hreport event m hm⟩ }

/-- Text, data and status are all that the compiler changes about a machine, except for the
journal. -/
theorem eq_after_compile {β : Type} {part : Machine → β}
    (hwrite : ∀ m memory textEnd dataEnd dataImage status,
      part { m with memory, textEnd, dataEnd, dataImage, status } = part m)
    (hreport : ∀ m event, part (m.report event) = part m) (m : Machine) (source : String) :
    part (m.after (WordC.compile source)) = part m := by
  refine @after_compile _ (fun m' => part m' = part m) ?_ ?_ ?_
    (fun event m' hsame => (hreport m' event).trans hsame) rfl source
  · intro word m' hsame
    rcases after_emitWord m' word with hfull | ⟨-, hwritten⟩
    · rwa [hfull]
    · rw [hwritten]
      exact (hwrite m' _ _ _ _ _).trans hsame
  · intro address word m' hsame
    rcases after_patch m' address word with hkept | ⟨-, hwritten⟩
    · rwa [hkept]
    · rw [hwritten]
      exact (hwrite m' _ _ _ _ _).trans hsame
  · intro words m' hsame
    rcases after_allocate m' words with hfull | ⟨-, hwritten⟩
    · rwa [hfull]
    · rw [hwritten]
      exact (hwrite m' _ _ _ _ _).trans hsame

/-- The compiler prints nothing. -/
theorem sink_compile (m : Machine) (source : String) :
    (m.after (WordC.compile source)).host.sink = m.host.sink :=
  @eq_after_compile _ (fun m => m.host.sink) (fun _ _ _ _ _ _ => rfl) (fun _ _ => rfl) m source

theorem cycleLimit_compile (m : Machine) (source : String) :
    (m.after (WordC.compile source)).cycleLimit = m.cycleLimit :=
  eq_after_compile (fun _ _ _ _ _ _ => rfl) (fun _ _ => rfl) m source

/-! ## Writing and rewinding -/

/-- An intact machine with a certain layout. -/
structure IntactWith (layout : Layout) (m : Machine) : Prop where
  intact : m.Intact
  layout : m.layout = layout

namespace IntactWith

theorem emitWord (h : m.IntactWith layout) (word : Word) :
    (m.after (emitWord word)).IntactWith layout := by
  rcases after_emitWord m word with hfull | ⟨hroom, hwritten⟩
  · rwa [hfull]
  · rw [hwritten]
    have hsound := h.intact.sound
    exact
      { intact := { h.intact with
          sound := { hsound with
            size := Array.size_setIfInBounds.trans hsound.size
            textStop := hroom } }
        layout := h.layout }

theorem patch (h : m.IntactWith layout) (address : Nat) (word : Word) :
    (m.after (Machine.patch address word)).IntactWith layout := by
  rcases after_patch m address word with hsame | ⟨-, hwritten⟩
  · rwa [hsame]
  · rw [hwritten]
    have hsound := h.intact.sound
    exact
      { intact := { h.intact with
          sound := { hsound with size := Array.size_setIfInBounds.trans hsound.size } }
        layout := h.layout }

theorem allocate (h : m.IntactWith layout) (words : List Word) :
    (m.after (Machine.allocate words)).IntactWith layout := by
  rcases after_allocate m words with hfull | ⟨hroom, hwritten⟩
  · rwa [hfull]
  · rw [hwritten]
    have hsound := h.intact.sound
    have hstart := hsound.dataStart
    have hstop := hsound.dataStop
    have himage := h.intact.image
    unfold dataLength at himage
    exact
      { intact := { h.intact with
          sound := { hsound with
            size := (Memory.size_copy _ _ _).trans hsound.size
            dataStart := by
              simp only
              omega
            dataStop := by
              simp only
              omega }
          image := by
            simp only [dataLength, List.length_append]
            omega }
        layout := h.layout }

theorem report (h : m.IntactWith layout) (event : Event) :
    (m.report event).IntactWith layout := by
  have hreported : m.Confined (fun _ => False) (m.report event) :=
    h.intact.move h.intact.sp_bounds h.intact.bp_bounds
  exact ⟨hreported.intact, h.layout⟩

theorem setCycleLimit (h : m.IntactWith layout) (limit : Option Nat) :
    (m.setCycleLimit limit).IntactWith layout :=
  { intact := { h.intact with sound := { h.intact.sound with } }
    layout := h.layout }

theorem runFrom (h : m.IntactWith layout) (entry : Nat) (tracing : Bool) (steps : Nat) :
    (m.after (Machine.runFrom entry tracing steps)).IntactWith layout := by
  have hrun := h.intact.after_runFrom entry tracing steps
  exact ⟨hrun.intact, hrun.keeps.layout.trans h.layout⟩

theorem compile (h : m.IntactWith layout) (source : String) :
    (m.after (WordC.compile source)).IntactWith layout :=
  after_compile (fun word _ hm => hm.emitWord word) (fun address word _ hm => hm.patch address word)
    (fun words _ hm => hm.allocate words) (fun event _ hm => hm.report event) h source

theorem reset (h : m.IntactWith layout) : m.reset.IntactWith layout := by
  have hstack := Nat.le_of_lt h.intact.sound.ordered.stackStop
  exact
    { intact :=
        { sound := { h.intact.sound with
            size := by
              rw [Machine.reset]
              simp only [Memory.size_fill, Memory.size_copy]
              exact h.intact.sound.size }
          spStart := hstack
          spStop := Nat.le_refl _
          bpStart := hstack
          bpStop := Nat.le_refl _
          heap := Heap.tiles_ofRegion _
          image := h.intact.image }
      layout := h.layout }

end IntactWith

/-- Rewinding keeps the text. -/
theorem Intact.confined_reset (h : m.Intact) : m.Confined (m.layout.text.stop ≤ ·) m.reset := by
  refine ⟨(IntactWith.reset ⟨h, rfl⟩).intact, rfl, rfl, rfl, rfl, rfl, ?_, ?_⟩
  · exact (Memory.size_fill _ _ _ _).trans (Memory.size_copy _ _ _)
  · intro address hbefore
    have hdata := h.sound.ordered.data
    have hheap := h.sound.ordered.text_le_heap
    simp only [reset, Memory.getElem?_fill, Memory.getElem?_copy]
    rw [if_neg (by omega), if_neg (by omega)]

/-! ## Clearing -/

theorem intact_blank {limit : Option Nat} {host : Host} (h : layout.Ordered) :
    (blank layout limit host).Intact where
  sound := sound_blank h
  spStart := Nat.le_of_lt h.stackStop
  spStop := Nat.le_refl _
  bpStart := Nat.le_of_lt h.stackStop
  bpStop := Nat.le_refl _
  heap := Heap.tiles_ofRegion _
  image := (Nat.sub_self _).symm

/-- Text and data are filled with zeros, and so are heap and stack: that is the whole pool. -/
theorem memory_clear (h : m.Intact) : m.clear.memory = Array.replicate m.layout.poolSize 0 := by
  have hsize : m.clear.memory.size = m.layout.poolSize := by
    simp only [clear, reset, fill, Memory.size_fill, Memory.size_copy]
    exact h.sound.size
  refine Array.ext_getElem? fun address => ?_
  rw [Array.getElem?_replicate]
  rcases Nat.lt_or_ge address m.layout.poolSize with hlt | hge
  · rw [if_pos hlt]
    have hpool : address < m.memory.size := h.sound.size ▸ hlt
    have htext := h.sound.ordered.textStart
    have hheap := h.sound.ordered.heap
    simp only [clear, reset, fill, Memory.getElem?_fill, Memory.size_fill, Memory.size_copy,
      Extent.size]
    by_cases hfront : address < m.layout.data.stop
    · rw [if_pos (by omega)]
    · rw [if_neg (by omega), if_pos]
      unfold Layout.poolSize at hlt
      omega
  · rw [if_neg (Nat.not_lt.2 hge), Array.getElem?_eq_none (hsize ▸ hge)]

/-- A cleared machine is a new one that has the cycle limit and the host of the old one. -/
theorem clear_eq_blank (h : m.Intact) : m.clear = blank m.layout m.cycleLimit m.host := by
  have hmemory := memory_clear h
  have hclear : m.clear = { blank m.layout m.cycleLimit m.host with memory := m.clear.memory } :=
    rfl
  rw [hclear, hmemory]
  rfl

theorem IntactWith.clear (h : m.IntactWith layout) : m.clear.IntactWith layout := by
  rw [clear_eq_blank h.intact]
  exact ⟨intact_blank h.intact.sound.ordered, h.layout⟩

/-! ## Sequences of calls -/

theorem IntactWith.perform (h : m.IntactWith layout) (call : Call) :
    (m.perform call).IntactWith layout := by
  cases call with
  | emit word => exact h.emitWord word
  | patch address word => exact h.patch address word
  | allocate words => exact h.allocate words
  | compile source => exact h.compile source
  | runFrom entry tracing steps => exact h.runFrom entry tracing steps
  | reset => exact h.reset
  | clear => exact h.clear
  | setCycleLimit limit => exact h.setCycleLimit limit

theorem IntactWith.performAll (h : m.IntactWith layout) (calls : List Call) :
    (m.performAll calls).IntactWith layout := by
  induction calls generalizing m with
  | nil => exact h
  | cons call rest ih => exact ih (h.perform call)

theorem partition?_of_create {poolSize : Nat} {host : Host}
    (hcreate : create poolSize host = .ok m) : Layout.partition? poolSize = some m.layout := by
  unfold create at hcreate
  cases hlayout : Layout.partition? poolSize with
  | none =>
      rw [hlayout] at hcreate
      cases hcreate
  | some layout =>
      rw [hlayout] at hcreate
      cases hcreate
      rfl

/-- Whether there is room for a machine does not depend on its host. -/
theorem create_of_partition? {poolSize : Nat} {host : Host}
    (hlayout : Layout.partition? poolSize = some layout) :
    create poolSize host = .ok (blank layout none host) := by
  rw [create, hlayout]

theorem create_of_create {poolSize : Nat} {host other : Host} {new : Machine}
    (hcreate : create poolSize host = .ok new) :
    create poolSize other = .ok (blank new.layout none other) :=
  create_of_partition? (partition?_of_create hcreate)

theorem eq_blank_of_create {poolSize : Nat} {host : Host} (hcreate : create poolSize host = .ok m) :
    m = blank m.layout none host :=
  Except.ok.inj (hcreate.symm.trans (create_of_create hcreate))

theorem intact_create {poolSize : Nat} {host : Host} (hcreate : create poolSize host = .ok m) :
    m.Intact ∧ m.layout.poolSize = poolSize := by
  obtain ⟨hordered, hpool⟩ := Layout.ordered_of_partition? (partition?_of_create hcreate)
  refine ⟨?_, hpool⟩
  rw [eq_blank_of_create hcreate]
  exact intact_blank hordered

theorem stack_room_of_create {poolSize : Nat} {host : Host}
    (hcreate : create poolSize host = .ok m) :
    m.layout.stack.start + 16 ≤ m.layout.stack.stop :=
  Layout.stack_room (partition?_of_create hcreate)

end Machine

end WordC
