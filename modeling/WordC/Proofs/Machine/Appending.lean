import WordC.Proofs.Machine.Sound

/-!
# Appending text and data

What is written behind the text and the data of a machine changes no other word.
-/

namespace WordC.Machine

variable {origin m : Machine} {address : Nat}

/-- Text or data may still be written at an address. -/
def IsFree (origin : Machine) (address : Nat) : Prop :=
  (origin.textEnd ≤ address ∧ address < origin.layout.text.stop) ∨
    (origin.dataEnd ≤ address ∧ address < origin.layout.data.stop)

/-- A machine to which nothing has happened but that text and data were appended. -/
structure Grows (origin m : Machine) : Prop where
  sound : m.Sound
  layout : m.layout = origin.layout
  textEnd : origin.textEnd ≤ m.textEnd
  dataEnd : origin.dataEnd ≤ m.dataEnd
  kept : ∀ address, ¬origin.IsFree address → m.memory[address]? = origin.memory[address]?

theorem Sound.grows (h : m.Sound) : m.Grows m :=
  ⟨h, rfl, Nat.le_refl _, Nat.le_refl _, fun _ _ => rfl⟩

namespace Grows

theorem emitWord (h : origin.Grows m) (word : Word) :
    emitWord word m = .error (.segmentFull .text) m ∨
      ∃ m', emitWord word m = .ok m.textEnd m' ∧ m'.textEnd = m.textEnd + 1 ∧
        origin.Grows m' := by
  have hsound := h.sound
  rw [Machine.emitWord]
  by_cases hfull : m.layout.text.stop ≤ m.textEnd
  · exact .inl (if_pos hfull)
  refine .inr ⟨_, if_neg hfull, rfl, ?_⟩
  exact
    { sound := { hsound with
        size := Array.size_setIfInBounds.trans hsound.size
        textStop := Nat.lt_of_not_le hfull }
      layout := h.layout
      textEnd := Nat.le_succ_of_le h.textEnd
      dataEnd := h.dataEnd
      kept := by
        intro address hfree
        have htextEnd := h.textEnd
        have hlayout := h.layout
        refine (Array.getElem?_setIfInBounds_ne fun hsame => hfree (.inl ?_)).trans
          (h.kept address hfree)
        rw [← hsame, ← hlayout]
        exact ⟨htextEnd, Nat.lt_of_not_le hfull⟩ }

/-- Words that were written since may be written again. -/
theorem patch (h : origin.Grows m) (hstart : origin.textEnd ≤ address)
    (hstop : address < m.textEnd) (word : Word) :
    ∃ m', Machine.patch address word m = .ok () m' ∧ m'.textEnd = m.textEnd ∧
      origin.Grows m' := by
  have hsound := h.sound
  have hzero := hsound.ordered.textStart
  have hwritten : m.layout.text.start ≤ address ∧ address < m.textEnd :=
    ⟨hzero ▸ Nat.zero_le _, hstop⟩
  refine ⟨_, if_pos hwritten, rfl, ?_⟩
  exact
    { sound := { hsound with size := Array.size_setIfInBounds.trans hsound.size }
      layout := h.layout
      textEnd := h.textEnd
      dataEnd := h.dataEnd
      kept := by
        intro other hfree
        refine (Array.getElem?_setIfInBounds_ne fun hsame => hfree (.inl ?_)).trans
          (h.kept other hfree)
        rw [← hsame, ← h.layout]
        exact ⟨hstart, Nat.lt_of_lt_of_le hstop hsound.textStop⟩ }

theorem allocate (h : origin.Grows m) (words : List Word) :
    Machine.allocate words m = .error (.segmentFull .data) m ∨
      ∃ m', Machine.allocate words m = .ok m.dataEnd m' ∧ m'.textEnd = m.textEnd ∧
        origin.Grows m' := by
  have hsound := h.sound
  rw [Machine.allocate]
  by_cases hfull : m.layout.data.stop - m.dataEnd < words.length
  · exact .inl (if_pos hfull)
  refine .inr ⟨_, if_neg hfull, rfl, ?_⟩
  have hstop : m.dataEnd + words.length ≤ m.layout.data.stop := by
    have := hsound.dataStop
    omega
  exact
    { sound := { hsound with
        size := (Memory.size_copy _ _ _).trans hsound.size
        dataStart := Nat.le_add_right_of_le hsound.dataStart
        dataStop := hstop }
      layout := h.layout
      textEnd := h.textEnd
      dataEnd := Nat.le_add_right_of_le h.dataEnd
      kept := by
        intro other hfree
        have hdataEnd := h.dataEnd
        rw [Memory.getElem?_copy, if_neg]
        · exact h.kept other hfree
        · rintro ⟨hbehind, hbefore, -⟩
          refine hfree (.inr ⟨Nat.le_trans hdataEnd hbehind, ?_⟩)
          rw [← h.layout]
          exact Nat.lt_of_lt_of_le hbefore hstop }

theorem report (h : origin.Grows m) (event : Event) : origin.Grows (m.report event) :=
  ⟨{ h.sound with }, h.layout, h.textEnd, h.dataEnd, h.kept⟩

end Grows

end WordC.Machine
