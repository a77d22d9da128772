import WordC.Machine.Storage

/-!
# Sound machines

A machine that was created, filled and run keeps its segments apart: text and data end inside their
segments and the memory has the size of the pool.
-/

namespace WordC

namespace Memory

theorem getElem?_copy (memory : Array Word) (address : Nat) (words : List Word) (index : Nat) :
    (copy memory address words)[index]? =
      if address ≤ index ∧ index < address + words.length ∧ index < memory.size then
        words[index - address]?
      else memory[index]? := by
  induction words generalizing memory address with
  | nil =>
      rw [copy, if_neg]
      simp only [List.length_nil]
      omega
  | cons word rest ih =>
      rw [copy, ih, Array.size_setIfInBounds, List.length_cons]
      by_cases hindex : index = address
      · subst hindex
        by_cases hsize : index < memory.size
        · rw [if_neg (by omega), if_pos (by omega), Array.getElem?_setIfInBounds_self_of_lt hsize]
          simp
        · rw [if_neg (by omega), if_neg (by omega), Array.getElem?_setIfInBounds]
          simp [hsize]
      · rw [Array.getElem?_setIfInBounds_ne (Ne.symm hindex)]
        by_cases hlater : address + 1 ≤ index ∧ index < address + 1 + rest.length ∧
            index < memory.size
        · rw [if_pos hlater, if_pos (by omega)]
          have hsub : index - address = index - (address + 1) + 1 := by omega
          rw [hsub, List.getElem?_cons_succ]
        · rw [if_neg hlater, if_neg (by omega)]

theorem size_copy (memory : Array Word) (address : Nat) (words : List Word) :
    (copy memory address words).size = memory.size := by
  induction words generalizing memory address with
  | nil => rfl
  | cons word rest ih => rw [copy, ih, Array.size_setIfInBounds]

theorem getElem?_copy_of_lt {memory : Array Word} {address index : Nat} {words : List Word}
    (h : index < address) : (copy memory address words)[index]? = memory[index]? := by
  rw [getElem?_copy, if_neg (by omega)]

theorem fill_eq_copy (memory : Array Word) (address : Nat) (word : Word) (count : Nat) :
    fill memory address word count = copy memory address (List.replicate count word) := by
  induction count generalizing memory address with
  | zero => rfl
  | succ count ih => rw [fill, List.replicate_succ, copy, ih]

theorem size_fill (memory : Array Word) (address : Nat) (word : Word) (count : Nat) :
    (fill memory address word count).size = memory.size := by
  rw [fill_eq_copy, size_copy]

theorem getElem?_fill (memory : Array Word) (address : Nat) (word : Word) (count index : Nat) :
    (fill memory address word count)[index]? =
      if address ≤ index ∧ index < address + count ∧ index < memory.size then some word
      else memory[index]? := by
  rw [fill_eq_copy, getElem?_copy, List.length_replicate]
  by_cases hinside : address ≤ index ∧ index < address + count ∧ index < memory.size
  · rw [if_pos hinside, if_pos hinside, List.getElem?_replicate, if_pos (by omega)]
  · rw [if_neg hinside, if_neg hinside]

end Memory

theorem Machine.getElem?_words (machine : Machine) (start stop index : Nat) :
    (machine.words { start, stop })[index]? =
      if start + index < stop then machine.memory[start + index]? else none := by
  rw [words, Array.getElem?_toList, Array.getElem?_extract]
  by_cases hstop : start + index < stop
  · rw [if_pos hstop]
    by_cases hsize : start + index < machine.memory.size
    · exact if_pos (by simp only; omega)
    · rw [if_neg (by simp only; omega), Array.getElem?_eq_none (by omega)]
  · rw [if_neg hstop]
    exact if_neg (by simp only; omega)

namespace Layout

/-- Text, data, heap and stack follow each other without gaps. -/
structure Ordered (layout : Layout) : Prop where
  textStart : layout.text.start = 0
  text : 0 < layout.text.stop
  data : layout.data.start = layout.text.stop
  dataStop : layout.data.start ≤ layout.data.stop
  heap : layout.heap.start = layout.data.stop
  heapStop : layout.heap.start ≤ layout.heap.stop
  stack : layout.stack.start = layout.heap.stop
  stackStop : layout.stack.start < layout.stack.stop

namespace Ordered

variable {layout : Layout} (h : layout.Ordered)

include h

theorem text_le_data : layout.text.stop ≤ layout.data.stop :=
  Nat.le_trans (Nat.le_of_eq h.data.symm) h.dataStop

theorem text_le_heap : layout.text.stop ≤ layout.heap.start :=
  Nat.le_trans h.text_le_data (Nat.le_of_eq h.heap.symm)

theorem heap_le_stack : layout.heap.start ≤ layout.stack.start :=
  Nat.le_trans h.heapStop (Nat.le_of_eq h.stack.symm)

theorem data_le_stack : layout.data.stop ≤ layout.stack.start :=
  Nat.le_trans (Nat.le_of_eq h.heap.symm) h.heap_le_stack

theorem text_le_stack : layout.text.stop ≤ layout.stack.start :=
  Nat.le_trans h.text_le_data h.data_le_stack

/-- The pool ends with the stack, behind the words that are compiled. -/
theorem data_lt_poolSize : layout.data.stop < layout.poolSize :=
  Nat.lt_of_le_of_lt h.data_le_stack h.stackStop

theorem text_lt_poolSize : layout.text.stop < layout.poolSize :=
  Nat.lt_of_le_of_lt h.text_le_stack h.stackStop

end Ordered

theorem ordered_of_partition? {words : Nat} {layout : Layout}
    (h : partition? words = some layout) : layout.Ordered ∧ layout.poolSize = words := by
  unfold partition? at h
  by_cases hsmall : words < smallestPool
  · rw [if_pos hsmall] at h
    cases h
  · rw [if_neg hsmall] at h
    unfold smallestPool at hsmall
    cases h
    refine ⟨?_, rfl⟩
    constructor <;> simp only <;> omega

/-- The smallest stack is a quarter of the smallest pool. -/
theorem stack_room {words : Nat} {layout : Layout} (h : partition? words = some layout) :
    layout.stack.start + 16 ≤ layout.stack.stop := by
  unfold partition? smallestPool at h
  split at h
  · cases h
  · cases h
    simp only
    omega

/-- So is the smallest text. -/
theorem text_room {words : Nat} {layout : Layout} (h : partition? words = some layout) :
    layout.text.start + 16 ≤ layout.text.stop := by
  unfold partition? smallestPool at h
  split at h
  · cases h
  · cases h
    simp only
    omega

end Layout

namespace Machine

structure Sound (machine : Machine) : Prop where
  ordered : machine.layout.Ordered
  size : machine.memory.size = machine.layout.poolSize
  textStop : machine.textEnd ≤ machine.layout.text.stop
  dataStart : machine.layout.data.start ≤ machine.dataEnd
  dataStop : machine.dataEnd ≤ machine.layout.data.stop

theorem Sound.textEnd_lt_size {machine : Machine} (h : machine.Sound) :
    machine.textEnd < machine.memory.size := by
  rw [h.size]
  exact Nat.lt_of_le_of_lt h.textStop h.ordered.text_lt_poolSize

theorem sound_blank {layout : Layout} {limit : Option Nat} {host : Host}
    (hordered : layout.Ordered) : (blank layout limit host).Sound :=
  { ordered := hordered
    size := Array.size_replicate
    textStop := by
      have := hordered.textStart
      simp [blank, this]
    dataStart := Nat.le_refl _
    dataStop := hordered.dataStop }

theorem sound_create {poolSize : Nat} {host : Host} {machine : Machine}
    (hcreate : create poolSize host = .ok machine) :
    machine.Sound ∧ machine.layout.poolSize = poolSize := by
  unfold create at hcreate
  cases hlayout : Layout.partition? poolSize with
  | none =>
      rw [hlayout] at hcreate
      cases hcreate
  | some layout =>
      rw [hlayout] at hcreate
      cases hcreate
      obtain ⟨hordered, hpool⟩ := Layout.ordered_of_partition? hlayout
      exact ⟨sound_blank hordered, hpool⟩

/-- A fresh machine with a pool of 256 words. -/
def small : Machine :=
  blank
    { text := { start := 0, stop := 64 }
      data := { start := 64, stop := 128 }
      heap := { start := 128, stop := 192 }
      stack := { start := 192, stop := 256 } }
    none {}

theorem create_small : create 256 {} = .ok small := rfl

theorem sound_small : small.Sound :=
  (sound_create create_small).1

end Machine

end WordC
