import WordC.Machine.Trap

/-!
# Templates in pieces

A template can be cut behind any complete piece: the front takes the first values, as many as it
has fields, and the rest goes on with the others. Nothing of a piece is left over for the next one,
because a field ends with its letter, whether this letter is a conversion or not.
-/

namespace WordC

open Text.Utf8 (Bytes)

namespace Template

/-! ## Pieces as they are written -/

/-- The letters of the conversions that take a value. -/
def valueLetters : Bytes :=
  "diuxXcs".toList.map Char.toUInt8

/-- A percent sign with flags, the digits of a width and a letter. -/
structure Specification where
  flags : Bytes
  digits : Bytes
  letter : UInt8
  flags_isFlag : ∀ byte ∈ flags, byte = minus ∨ byte = zero
  digits_isDigit : ∀ byte ∈ digits, isDigit byte = true
  /-- A zero in front of the width is a flag. -/
  digits_head : digits.head? ≠ some zero
  letter_not_digit : isDigit letter = false
  letter_not_flag : digits = [] → letter ≠ minus

namespace Specification

/-- A letter alone, behind a percent sign. -/
def ofLetter (letter : UInt8) (hdigit : isDigit letter = false) (hminus : letter ≠ minus) :
    Specification where
  flags := []
  digits := []
  letter := letter
  flags_isFlag := fun _ hmem => absurd hmem List.not_mem_nil
  digits_isDigit := fun _ hmem => absurd hmem List.not_mem_nil
  digits_head := (Option.some_ne_none zero).symm
  letter_not_digit := hdigit
  letter_not_flag := fun _ => hminus

def text (specification : Specification) : Bytes :=
  percent :: (specification.flags ++ specification.digits ++ [specification.letter])

def takesValue (specification : Specification) : Bool :=
  valueLetters.contains specification.letter

end Specification

/-- A complete piece of a template. -/
inductive Part where
  | ordinary (byte : UInt8) (h : byte ≠ percent)
  | field (specification : Specification)

namespace Part

def text : Part → Bytes
  | ordinary byte _ => [byte]
  | field specification => specification.text

def takesValue : Part → Bool
  | ordinary _ _ => false
  | field specification => specification.takesValue

/-- The text of a template. -/
def texts (parts : List Part) : Bytes :=
  parts.flatMap text

/-- The number of values that a template takes. -/
def arity (parts : List Part) : Nat :=
  parts.countP takesValue

end Part

/-! ## Reading a piece -/

/-- The layout behind more flags and digits. -/
def Layout.extendAll? (layout : Layout) (bytes : Bytes) : Option Layout :=
  bytes.foldlM Layout.extend? layout

theorem parseFrom_of_extendAll? {layout next : Layout} {bytes : Bytes}
    (h : layout.extendAll? bytes = some next) (rest : Bytes) :
    parseFrom (some layout) (bytes ++ rest) = parseFrom (some next) rest := by
  induction bytes generalizing layout with
  | nil =>
      cases h
      rfl
  | cons byte bytes ih =>
      obtain ⟨middle, hbyte, hbytes⟩ := Option.bind_eq_some_iff.1 h
      rw [List.cons_append, parseFrom, hbyte]
      exact ih hbytes

theorem extendAll?_flags {flags : Bytes} (hflags : ∀ byte ∈ flags, byte = minus ∨ byte = zero)
    (layout : Layout) (hwidth : layout.width = none) :
    layout.extendAll? flags = some { layout with
      left := layout.left || flags.contains minus
      zeros := layout.zeros || flags.contains zero } := by
  induction flags generalizing layout with
  | nil => simp [Layout.extendAll?]
  | cons flag flags ih =>
      obtain ⟨hflag, hothers⟩ := List.forall_mem_cons.1 hflags
      let next : Layout := { layout with
        left := layout.left || minus == flag
        zeros := layout.zeros || zero == flag }
      have hextend : layout.extend? flag = some next := by
        unfold Layout.extend?
        rw [hwidth]
        rcases hflag with rfl | rfl
        · simp [next, hwidth, show (zero == minus) = false from rfl]
        · simp [next, hwidth, show (minus == zero) = false from rfl,
            show zero ≠ minus from by decide]
      rw [Layout.extendAll?, List.foldlM_cons, hextend]
      refine (ih hothers next hwidth).trans ?_
      simp only [next, List.contains_cons, Bool.or_assoc]

/-- The number that more digits spell behind the digits of another one. -/
def spelled (digits : Bytes) (front : Nat) : Nat :=
  digits.foldl (fun number digit => number * 10 + (digit - zero).toNat) front

theorem foldl_widen (digits : Bytes) (front : Nat) :
    digits.foldl widen (UInt64.ofNat front) = UInt64.ofNat (spelled digits front) := by
  induction digits generalizing front with
  | nil => rfl
  | cons digit digits ih =>
      have hwiden : widen (UInt64.ofNat front) digit =
          UInt64.ofNat (front * 10 + (digit - zero).toNat) := by
        rw [widen, UInt64.ofNat_add, UInt64.ofNat_mul, UInt64.ofNat_uInt8ToNat]
        rfl
      rw [List.foldl_cons, hwiden, ih]
      rfl

theorem extendAll?_digits {digits : Bytes} (hdigits : ∀ byte ∈ digits, isDigit byte = true)
    (layout : Layout) {width : UInt64} (hwidth : layout.width = some width) :
    layout.extendAll? digits = some { layout with width := some (digits.foldl widen width) } := by
  induction digits generalizing layout width with
  | nil =>
      rw [List.foldl_nil, ← hwidth]
      rfl
  | cons digit digits ih =>
      obtain ⟨hdigit, hothers⟩ := List.forall_mem_cons.1 hdigits
      have hextend : layout.extend? digit =
          some { layout with width := some (widen width digit) } := by
        rw [Layout.extend?, hwidth]
        exact if_pos hdigit
      rw [Layout.extendAll?, List.foldlM_cons, hextend]
      exact ih hothers { layout with width := some (widen width digit) } rfl

theorem isDigit_minus : isDigit minus = false := by
  decide

theorem isDigit_zero : isDigit zero = true := by
  decide

/-- A letter that is no digit ends a field, unless it is a flag in front of the width. -/
theorem extend?_letter {layout : Layout} {letter : UInt8} (hletter : isDigit letter = false)
    (hflag : layout.width = none → letter ≠ minus) : layout.extend? letter = none := by
  have hzero : letter ≠ zero := by
    rintro rfl
    rw [isDigit_zero] at hletter
    cases hletter
  rw [Layout.extend?]
  cases hwidth : layout.width with
  | none => simp [hflag hwidth, hzero, hletter]
  | some width => simp [hletter]

namespace Specification

/-- The width that the digits spell, which is nothing without digits. -/
def width (specification : Specification) : Nat :=
  spelled specification.digits 0

def layout (specification : Specification) : Layout where
  left := specification.flags.contains minus
  zeros := specification.flags.contains zero
  width := if specification.digits = [] then none else some (UInt64.ofNat specification.width)

/-- The flags and the width are read up to the letter. -/
theorem extendAll?_layout (specification : Specification) :
    Layout.extendAll? {} (specification.flags ++ specification.digits) =
      some specification.layout := by
  have hflags := extendAll?_flags specification.flags_isFlag {} rfl
  have hdigits := specification.digits_isDigit
  have hhead := specification.digits_head
  rw [Layout.extendAll?, List.foldlM_append]
  refine Option.bind_eq_some_iff.2 ⟨_, hflags, ?_⟩
  simp only [layout, width, ← foldl_widen, Bool.false_or]
  cases hcases : specification.digits with
  | nil => rfl
  | cons digit digits =>
      rw [hcases] at hdigits hhead
      obtain ⟨hdigit, hothers⟩ := List.forall_mem_cons.1 hdigits
      have hminus : digit ≠ minus := by
        rintro rfl
        rw [isDigit_minus] at hdigit
        cases hdigit
      have hzero : digit ≠ zero := fun heq => hhead (congrArg some heq)
      let next : Layout := {
        left := specification.flags.contains minus
        zeros := specification.flags.contains zero
        width := some (widen 0 digit) }
      refine Option.bind_eq_some_iff.2 ⟨next, ?_, extendAll?_digits hothers next rfl⟩
      simp [Layout.extend?, next, hminus, hzero, hdigit]

theorem extend?_layout (specification : Specification) :
    specification.layout.extend? specification.letter = none :=
  extend?_letter specification.letter_not_digit fun hwidth =>
    specification.letter_not_flag (by simpa [layout] using hwidth)

end Specification

/-- Whether a piece takes a value. -/
def Piece.takesValue : Piece → Bool
  | literal _ => false
  | field _ => true

theorem isSome_ofLetter? (letter : UInt8) :
    (Conversion.ofLetter? letter).isSome = valueLetters.contains letter := by
  have hall : ∀ n : Fin 256, (Conversion.ofLetter? (UInt8.ofFin n)).isSome =
      valueLetters.contains (UInt8.ofFin n) := by
    decide +kernel
  exact hall letter.toFin

theorem takesValue_finish (layout : Layout) (letter : UInt8) :
    (layout.finish letter).takesValue = valueLetters.contains letter := by
  rw [← isSome_ofLetter?, Layout.finish]
  by_cases hpercent : letter = percent
  · subst hpercent
    rfl
  · rw [if_neg hpercent]
    cases Conversion.ofLetter? letter <;> rfl

/-- What a complete piece is read as. -/
def Part.piece : Part → Piece
  | ordinary byte _ => .literal [byte]
  | field specification => specification.layout.finish specification.letter

theorem Part.takesValue_piece (part : Part) : part.piece.takesValue = part.takesValue := by
  cases part with
  | ordinary byte h => rfl
  | field specification => exact takesValue_finish _ _

/-- A complete piece is read as one piece, whatever follows it. -/
theorem Part.parse_text (part : Part) (rest : Bytes) :
    parse (part.text ++ rest) = part.piece :: parse rest := by
  cases part with
  | ordinary byte h => rw [text, List.singleton_append, parse, parseFrom, if_neg h, piece, parse]
  | field specification =>
      rw [text, Specification.text, List.cons_append, parse, parseFrom, if_pos rfl,
        List.append_assoc, parseFrom_of_extendAll? specification.extendAll?_layout,
        List.singleton_append, parseFrom, specification.extend?_layout, piece, parse]

/-- A template can be read in two parts. -/
theorem parse_texts (parts : List Part) (rest : Bytes) :
    parse (Part.texts parts ++ rest) = parts.map Part.piece ++ parse rest := by
  induction parts with
  | nil => rfl
  | cons part parts ih =>
      rw [Part.texts, List.flatMap_cons, List.append_assoc, ← Part.texts, part.parse_text, ih,
        List.map_cons, List.cons_append]

theorem countP_pieces (parts : List Part) :
    (parts.map Part.piece).countP Piece.takesValue = Part.arity parts := by
  rw [List.countP_map, Part.arity]
  exact List.countP_congr fun part _ => by rw [Function.comp_apply, part.takesValue_piece]

theorem parse_parts (parts : List Part) : parse (Part.texts parts) = parts.map Part.piece := by
  have h := parse_texts parts []
  rwa [List.append_nil, show parse [] = [] from rfl, List.append_nil] at h

/-! ## Values -/

variable {read : Word → Except Error Bytes}

/-- Values behind those that the pieces take do not matter, and missing ones are zero. -/
theorem render_congr (pieces : List Piece) {values values' : List Word}
    (h : ∀ index, index < pieces.countP Piece.takesValue →
      values.getD index 0 = values'.getD index 0) :
    render read pieces values = render read pieces values' := by
  induction pieces generalizing values values' with
  | nil => rfl
  | cons piece pieces ih =>
      cases piece with
      | literal bytes => rw [render, render, ih h]
      | field field =>
          rw [List.countP_cons_of_pos rfl] at h
          have hhead : values.headD 0 = values'.headD 0 := by
            rw [List.headD_eq_getD, List.headD_eq_getD]
            exact h 0 (Nat.succ_pos _)
          have htail : ∀ index, index < pieces.countP Piece.takesValue →
              values.tail.getD index 0 = values'.tail.getD index 0 := by
            intro index hindex
            have hnext := h (index + 1) (Nat.succ_lt_succ hindex)
            simpa using hnext
          rw [render, render, hhead, ih htail]

/-- The values that the pieces in front have taken are gone. -/
theorem render_append (front back : List Piece) (values : List Word) :
    render read (front ++ back) values = (do
      let first ← render read front values
      let second ← render read back (values.drop (front.countP Piece.takesValue))
      return first ++ second) := by
  induction front generalizing values with
  | nil =>
      change render read back values =
        (render read back values).bind fun second => .ok ([] ++ second)
      cases render read back values <;> rfl
  | cons piece front ih =>
      have hassoc (text : Bytes) (first second : Except Error Bytes) :
          (do
            let rest ← (do
              let first ← first
              let second ← second
              return first ++ second)
            return text ++ rest) = (do
            let first ← (do
              let first ← first
              return text ++ first)
            let second ← second
            return first ++ second : Except Error Bytes) := by
        cases first with
        | error error => rfl
        | ok first =>
            cases second with
            | error error => rfl
            | ok second => exact congrArg Except.ok (List.append_assoc _ _ _).symm
      cases piece with
      | literal bytes =>
          rw [List.cons_append, render, ih, List.countP_cons_of_neg Bool.false_ne_true, render]
          exact hassoc _ _ _
      | field field =>
          rw [List.cons_append, render, List.countP_cons_of_pos rfl, render, ← List.drop_tail]
          cases field.render read (values.headD 0) with
          | error error => rfl
          | ok text =>
              rw [ih]
              exact hassoc text _ _

/-- Exactly so many values, with zeros for those that are missing. -/
def filled (count : Nat) (values : List Word) : List Word :=
  (values ++ List.replicate count 0).take count

theorem getD_filled (values more : List Word) {count index : Nat} (h : index < count) :
    (filled count values ++ more).getD index 0 = values.getD index 0 := by
  have hlength : index < (filled count values).length := by
    rw [filled, List.length_take, List.length_append, List.length_replicate]
    omega
  rw [List.getD_eq_getElem?_getD, List.getElem?_append_left hlength, filled,
    List.getElem?_take_of_lt h, List.getD_eq_getElem?_getD]
  by_cases hvalue : index < values.length
  · rw [List.getElem?_append_left hvalue]
  · rw [List.getElem?_append_right (Nat.le_of_not_lt hvalue), List.getElem?_replicate,
      if_pos (by omega), List.getElem?_eq_none (Nat.le_of_not_lt hvalue)]
    rfl

end Template

namespace Machine

open Template (Part)

/-- A template takes one value for each of its fields that takes one. Zeros stand in for missing
ones, and what else there is does not matter. -/
theorem format_congr (m : Machine) (parts : List Part) {values values' : List Word}
    (h : ∀ index, index < Part.arity parts → values.getD index 0 = values'.getD index 0) :
    m.format (Part.texts parts) values = m.format (Part.texts parts) values' :=
  Template.render_congr _ fun index hindex => by
    rw [Template.parse_parts, Template.countP_pieces] at hindex
    exact h index hindex

theorem format_cut (m : Machine) (parts : List Part) (rest : Bytes) (values : List Word) :
    m.format (Part.texts parts ++ rest) values = (do
      let first ← m.format (Part.texts parts) (values.take (Part.arity parts))
      let second ← m.format rest (values.drop (Part.arity parts))
      return first ++ second) := by
  have htake : m.format (Part.texts parts) (values.take (Part.arity parts)) =
      m.format (Part.texts parts) values :=
    m.format_congr parts fun index hindex => by
      rw [List.getD_eq_getElem?_getD, List.getElem?_take_of_lt hindex, List.getD_eq_getElem?_getD]
  rw [htake, format, Template.parse_texts, Template.render_append, Template.countP_pieces,
    format, Template.parse_parts]
  rfl

/-- A template can be cut behind any complete piece: its front takes the first values, and the rest
goes on with the others. The whole fails where one of the two fails. -/
theorem format_append (m : Machine) (parts : List Part) (rest : Bytes) (values : List Word) :
    m.format (Part.texts parts ++ rest) values = (do
      let first ← m.format (Part.texts parts) (values.take (Part.arity parts))
      let second ← m.format rest (values.drop (Part.arity parts))
      return first ++ second) ∧
    (m.format (Part.texts parts ++ rest) values).isOk =
      ((m.format (Part.texts parts) (values.take (Part.arity parts))).isOk &&
        (m.format rest (values.drop (Part.arity parts))).isOk) ∧
    ∀ more, m.format (Part.texts parts) (Template.filled (Part.arity parts) values ++ more) =
      m.format (Part.texts parts) values := by
  refine ⟨m.format_cut parts rest values, ?_, fun more => m.format_congr parts fun _ hindex =>
    Template.getD_filled values more hindex⟩
  rw [m.format_cut parts rest values]
  cases m.format (Part.texts parts) (values.take (Part.arity parts)) with
  | error error => rfl
  | ok first =>
      cases m.format rest (values.drop (Part.arity parts)) <;> rfl

end Machine

end WordC
