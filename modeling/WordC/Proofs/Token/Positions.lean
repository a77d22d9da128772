import Mathlib.Data.List.DropRight
import WordC.Proofs.Token.Landmarks

/-!
# Positions and offsets

A position counts lines and, behind the last line break, characters, while an offset counts bytes.
Both grow with each character, so between characters a position stands for one offset only, and of
two positions the one that is read first is the one with the smaller offset.
-/

namespace WordC.Position

open Text (byteLength)

variable {p q r : Position} {source : String} {front back : List Char} {first second offset : Nat}

/-! ## Reading order -/

/-- By line, and within a line by column. -/
def Before (p q : Position) : Prop :=
  p.line < q.line ∨ p.line = q.line ∧ p.column < q.column

theorem Before.trans (h : p.Before q) (h' : q.Before r) : p.Before r := by
  unfold Before at h h' ⊢
  omega

theorem before_after (p : Position) (c : Char) : p.Before (p.after c) := by
  rw [after]
  split
  · exact .inl (Nat.lt_succ_self _)
  · exact .inr ⟨rfl, Nat.lt_succ_self _⟩

theorem before_foldl_after (p : Position) {text : List Char} (h : text ≠ []) :
    p.Before (text.foldl after p) := by
  induction text generalizing p with
  | nil => exact absurd rfl h
  | cons c rest ih =>
      rw [List.foldl_cons]
      cases rest with
      | nil => exact before_after p c
      | cons d rest => exact (before_after p c).trans (ih _ (List.cons_ne_nil _ _))

/-! ## Counting -/

/-- The position behind a text, counted in the whole text and in its last line. -/
def behind (text : List Char) : Position :=
  { line := text.count '\n' + 1
    column := (text.rtakeWhile (· ≠ '\n')).length + 1 }

theorem behind_concat (text : List Char) (c : Char) :
    behind (text ++ [c]) = (behind text).after c := by
  rw [after]
  by_cases hc : c = '\n'
  · subst hc
    simp [behind]
  · simp [behind, hc]

/-- Walking from character to character and counting agree. -/
theorem foldl_after_start (text : List Char) : text.foldl after start = behind text := by
  induction text using List.reverseRecOn with
  | nil => rfl
  | append_singleton text c ih =>
      rw [List.foldl_append, ih, behind_concat, List.foldl_cons, List.foldl_nil]

theorem locate?_front (h : source.toList = front ++ back) :
    locate? source (byteLength front) = some (behind front) := by
  rw [locate?_byteLength h, foldl_after_start]

/-! ## Offsets -/

/-- Of two front parts of a text the one with fewer bytes is a front part of the other. -/
theorem exists_between {front' back' : List Char} (h : front ++ back = front' ++ back')
    (hlt : byteLength front < byteLength front') :
    ∃ between, between ≠ [] ∧ front' = front ++ between := by
  rcases List.append_eq_append_iff.1 h with ⟨between, rfl, -⟩ | ⟨between, rfl, -⟩
  · refine ⟨between, ?_, rfl⟩
    rintro rfl
    simp at hlt
  · rw [Text.byteLength_append] at hlt
    omega

theorem advance?_of_le (p : Position) (text : List Char) (h : byteLength text ≤ offset) :
    p.advance? text offset = some (text.foldl after p) := by
  induction text generalizing p offset with
  | nil => cases offset <;> rfl
  | cons c rest ih =>
      rw [Text.byteLength_cons] at h
      have hpos := c.utf8Size_pos
      rw [advance?, if_neg (by omega), ih _ (by omega), List.foldl_cons]
      omega

theorem locate?_of_le (h : source.utf8ByteSize ≤ offset) :
    locate? source offset = some (behind source.toList) := by
  rw [locate?, advance?_of_le _ _ (Text.byteLength_toList source ▸ h), foldl_after_start]

/-! ## Positions -/

/-- What the positions in a text have to do with the offsets. -/
structure IdentifyOffsets (source : String) : Prop where
  /-- Between two characters, the text in front is counted. -/
  counts : ∀ front back, source.toList = front ++ back →
    locate? source (byteLength front) = some
      { line := front.count '\n' + 1
        column := (front.rtakeWhile (· ≠ '\n')).length + 1 }
  /-- Positions are in the order of the offsets. -/
  ascend : ∀ first second, String.Pos.Raw.IsValid source ⟨first⟩ →
    String.Pos.Raw.IsValid source ⟨second⟩ → first < second →
    ∃ p q, locate? source first = some p ∧ locate? source second = some q ∧ p.Before q
  /-- A character moves the position by one column, a line break to the start of the next line. -/
  step : ∀ front c back, source.toList = front ++ c :: back →
    ∃ p, locate? source (byteLength front) = some p ∧
      locate? source (byteLength front + c.utf8Size) = some
        (if c = '\n' then { line := p.line + 1, column := 1 }
          else { line := p.line, column := p.column + 1 })
  /-- Behind the end, the position is that of the end. -/
  ending : ∃ p, locate? source source.utf8ByteSize = some p ∧
    ∀ offset, source.utf8ByteSize ≤ offset → locate? source offset = some p

theorem ascend_of_lt (hfirst : String.Pos.Raw.IsValid source ⟨first⟩)
    (hsecond : String.Pos.Raw.IsValid source ⟨second⟩) (hlt : first < second) :
    ∃ p q, locate? source first = some p ∧ locate? source second = some q ∧ p.Before q := by
  obtain ⟨front, back, hfront, rfl⟩ := Text.isValid_iff.1 hfirst
  obtain ⟨front', back', hfront', rfl⟩ := Text.isValid_iff.1 hsecond
  obtain ⟨between, hne, rfl⟩ := exists_between (hfront.symm.trans hfront') hlt
  refine ⟨_, _, locate?_byteLength hfront, locate?_byteLength hfront', ?_⟩
  rw [List.foldl_append]
  exact before_foldl_after _ hne

theorem step_of_cons {c : Char} (h : source.toList = front ++ c :: back) :
    locate? source (byteLength front + c.utf8Size) = some ((behind front).after c) := by
  have hnext : source.toList = (front ++ [c]) ++ back := by
    rw [h, List.append_assoc]
    rfl
  have hsize : byteLength (front ++ [c]) = byteLength front + c.utf8Size := by
    rw [Text.byteLength_append, Text.byteLength_cons, Text.byteLength_nil, Nat.add_zero]
  rw [← hsize, locate?_front hnext, behind_concat]

/-- In every text, positions tell offsets apart and are in the same order. -/
theorem identifyOffsets (source : String) : IdentifyOffsets source where
  counts := fun _ _ h => locate?_front h
  ascend := fun _ _ hfirst hsecond hlt => ascend_of_lt hfirst hsecond hlt
  step := fun front _ _ h => ⟨behind front, locate?_front h, step_of_cons h⟩
  ending := ⟨behind source.toList, locate?_of_le (Nat.le_refl _), fun _ h => locate?_of_le h⟩

/-- Behind two characters of two bytes with a line break between them. -/
example : locate? "é\né=1;" 5 = some { line := 2, column := 2 } := by decide

end WordC.Position
