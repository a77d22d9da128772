/-!
# Byte offsets

Offsets into a text count bytes, so an offset may lie inside a character. No text can be cut there.
-/

namespace WordC.Text

/-- The number of bytes that characters take. -/
def byteLength (text : List Char) : Nat :=
  text.foldl (fun length c => length + c.utf8Size) 0

@[simp] theorem byteLength_nil : byteLength [] = 0 := rfl

theorem foldl_utf8Size (text : List Char) (length : Nat) :
    text.foldl (fun length c => length + c.utf8Size) length = length + byteLength text := by
  induction text generalizing length with
  | nil => rfl
  | cons c rest ih =>
      have hcons : byteLength (c :: rest) = 0 + c.utf8Size + byteLength rest := ih (0 + c.utf8Size)
      rw [List.foldl_cons, ih, hcons, Nat.zero_add, Nat.add_assoc]

@[simp] theorem byteLength_cons (c : Char) (rest : List Char) :
    byteLength (c :: rest) = c.utf8Size + byteLength rest := by
  rw [byteLength, List.foldl_cons, foldl_utf8Size, Nat.zero_add]

@[simp] theorem byteLength_append (front back : List Char) :
    byteLength (front ++ back) = byteLength front + byteLength back := by
  induction front with
  | nil => simp
  | cons c front ih => simp [ih, Nat.add_assoc]

theorem utf8ByteSize_ofList (text : List Char) :
    (String.ofList text).utf8ByteSize = byteLength text := by
  induction text with
  | nil => rfl
  | cons c rest ih =>
      rw [String.ofList_cons, String.utf8ByteSize_append, String.utf8ByteSize_singleton, ih,
        byteLength_cons]

theorem byteLength_toList (text : String) : byteLength text.toList = text.utf8ByteSize := by
  rw [← utf8ByteSize_ofList, String.ofList_toList]

theorem byteLength_pos {text : List Char} (h : text ≠ []) : 0 < byteLength text := by
  cases text with
  | nil => exact absurd rfl h
  | cons c rest =>
      rw [byteLength_cons]
      exact Nat.lt_add_right _ c.utf8Size_pos

/-- An offset that is not inside a character is the length of a front part of the text. -/
theorem isValid_iff {text : String} {offset : Nat} :
    String.Pos.Raw.IsValid text ⟨offset⟩ ↔
      ∃ front back, text.toList = front ++ back ∧ offset = byteLength front := by
  rw [String.Pos.Raw.isValid_iff_exists_append]
  constructor
  · rintro ⟨before, after, rfl, hoffset⟩
    refine ⟨before.toList, after.toList, String.toList_append, ?_⟩
    rw [byteLength_toList]
    exact congrArg String.Pos.Raw.byteIdx hoffset
  · rintro ⟨front, back, htext, rfl⟩
    refine ⟨String.ofList front, String.ofList back, ?_, ?_⟩
    · rw [← String.ofList_append, ← htext, String.ofList_toList]
    · rw [← utf8ByteSize_ofList]
      rfl

/-- Cuts a text in two at a byte offset, which may lie neither inside a character nor past the
end. -/
def splitAt? : Nat → List Char → Option (List Char × List Char)
  | 0, text => some ([], text)
  | _ + 1, [] => none
  | offset + 1, c :: rest =>
      if offset + 1 < c.utf8Size then none
      else (splitAt? (offset + 1 - c.utf8Size) rest).map fun (before, after) =>
        (c :: before, after)

theorem splitAt?_byteLength (front back : List Char) :
    splitAt? (byteLength front) (front ++ back) = some (front, back) := by
  induction front with
  | nil => rw [byteLength_nil, List.nil_append, splitAt?]
  | cons c front ih =>
      obtain ⟨size, hsize⟩ := Nat.exists_eq_add_one_of_ne_zero (Nat.ne_of_gt c.utf8Size_pos)
      rw [byteLength_cons, List.cons_append, hsize, Nat.add_right_comm, splitAt?, hsize,
        if_neg (by omega), Nat.add_right_comm, Nat.add_sub_cancel_left, ih]
      rfl

end WordC.Text
