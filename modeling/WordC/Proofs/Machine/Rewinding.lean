import WordC.Proofs.Machine.Calls
import WordC.Proofs.Memory.Strings

/-!
# Data that rewinding restores

Data and the words to restore it with are written together, and the compiler writes data in no other
way. So data that the compiler has written is the same when the machine is rewound, whatever has
been done to the machine before.
-/

namespace WordC.Machine

variable {m m' : Machine} {layout : Layout} {first address : Nat}

/-- An intact machine whose used data has, from an address on, the words to restore it with. -/
structure Backed (layout : Layout) (first : Nat) (m : Machine) : Prop where
  intact : m.IntactWith layout
  start : m.layout.data.start ≤ first
  data : ∀ address, first ≤ address → address < m.dataEnd →
    m.memory[address]? = m.dataImage[address - m.layout.data.start]?

/-- Nothing is to be restored of data that has not been used. -/
theorem IntactWith.backed (h : m.IntactWith layout) : m.Backed layout m.dataEnd where
  intact := h
  start := h.intact.sound.dataStart
  data := fun _ hfirst hstop => absurd hstop (Nat.not_lt_of_le hfirst)

/-- Rewinding restores the data. -/
theorem IntactWith.backed_reset (h : m.IntactWith layout) (hfirst : m.layout.data.start ≤ first) :
    m.reset.Backed layout first where
  intact := h.reset
  start := hfirst
  data := by
    intro address haddress hlast
    have hheap := h.intact.dataEnd_le_heap
    have hsize := h.intact.heap_le_size
    have himage := h.intact.image
    unfold dataLength at himage
    change address < m.dataEnd at hlast
    simp only [Machine.reset, Memory.getElem?_fill, Memory.getElem?_copy]
    rw [if_neg (by omega), if_pos (by omega)]

namespace Backed

/-- Text may be written. -/
theorem write (h : m.Backed layout first) (hintact : m'.IntactWith layout)
    (himage : m'.dataImage = m.dataImage) (hdataEnd : m'.dataEnd = m.dataEnd) {word : Word}
    (haddress : address < m.layout.text.stop)
    (hmemory : m'.memory = m.memory.setIfInBounds address word) : m'.Backed layout first := by
  have hlayout : m'.layout = m.layout := hintact.layout.trans h.intact.layout.symm
  have htext := h.intact.intact.sound.ordered.data
  have hfirst := h.start
  refine ⟨hintact, hlayout ▸ hfirst, fun other hother hlast => ?_⟩
  rw [hmemory, hlayout, himage, Array.getElem?_setIfInBounds_ne (by omega)]
  exact h.data other hother (hdataEnd ▸ hlast)

theorem emitWord (h : m.Backed layout first) (word : Word) :
    (m.after (Machine.emitWord word)).Backed layout first := by
  have hintact := h.intact.emitWord word
  rcases after_emitWord m word with hfull | ⟨hroom, hwritten⟩
  · rwa [hfull]
  · rw [hwritten] at hintact ⊢
    exact h.write hintact rfl rfl hroom rfl

theorem patch (h : m.Backed layout first) (address : Nat) (word : Word) :
    (m.after (Machine.patch address word)).Backed layout first := by
  have hintact := h.intact.patch address word
  rcases after_patch m address word with hsame | ⟨hinside, hwritten⟩
  · rwa [hsame]
  · rw [hwritten] at hintact ⊢
    have hstop := h.intact.intact.sound.textStop
    exact h.write hintact rfl rfl (by omega) rfl

theorem allocate (h : m.Backed layout first) (words : List Word) :
    (m.after (Machine.allocate words)).Backed layout first := by
  have hintact := h.intact.allocate words
  rcases after_allocate m words with hfull | ⟨hroom, hwritten⟩
  · rwa [hfull]
  · rw [hwritten] at hintact ⊢
    refine ⟨hintact, h.start, fun address hfirst hlast => ?_⟩
    have hstart := h.intact.intact.sound.dataStart
    have hheap := hintact.intact.dataEnd_le_heap
    have hsize := h.intact.intact.heap_le_size
    have himage := h.intact.intact.image
    have hbegins := h.start
    unfold dataLength at himage
    simp only at hlast hheap ⊢
    rw [Memory.getElem?_copy]
    by_cases hold : address < m.dataEnd
    · rw [if_neg (by omega), List.getElem?_append_left (by omega)]
      exact h.data address hfirst hold
    · rw [if_pos (by omega), List.getElem?_append_right (by omega)]
      congr 1
      omega

theorem report (h : m.Backed layout first) (event : Event) :
    (m.report event).Backed layout first :=
  ⟨h.intact.report event, h.start, h.data⟩

theorem compile (h : m.Backed layout first) (source : String) :
    (m.after (WordC.compile source)).Backed layout first :=
  after_compile (fun word _ hm => hm.emitWord word) (fun address word _ hm => hm.patch address word)
    (fun words _ hm => hm.allocate words) (fun event _ hm => hm.report event) h source

/-- Machines with the same words to restore their data with have the same data. -/
theorem getElem?_eq (h : m.Backed layout first) (h' : m'.Backed layout first)
    (himage : m'.dataImage = m.dataImage) (hdataEnd : m'.dataEnd = m.dataEnd)
    (hstart : first ≤ address) (hstop : address < m.dataEnd) :
    m'.memory[address]? = m.memory[address]? := by
  rw [h.data address hstart hstop, h'.data address hstart (hdataEnd ▸ hstop), himage,
    h'.intact.layout, h.intact.layout]

/-- Rewinding leaves the used data as it is. -/
theorem getElem?_reset (h : m.Backed layout first) (hstart : first ≤ address)
    (hstop : address < m.dataEnd) : m.reset.memory[address]? = m.memory[address]? :=
  h.getElem?_eq (h.intact.backed_reset h.start) rfl rfl hstart hstop

end Backed

end WordC.Machine
