import WordC.Proofs.Machine.Sound
import WordC.Proofs.Machine.Templates

/-!
# Letters that convert nothing

A specification with a letter that is no conversion takes no value and is copied, and so is one that
the end of the template cuts off. The copy is the percent sign and the letter: flags and a width get
lost. So a template of such specifications prints as it stands just if they have neither.
-/

namespace WordC

open Text.Utf8 (Bytes)

namespace Template

namespace Specification

/-- The letter is neither a conversion nor a percent sign. -/
def ConvertsNothing (specification : Specification) : Prop :=
  specification.letter ∉ valueLetters ∧ specification.letter ≠ percent

/-- There is nothing between the percent sign and the letter. -/
def IsBare (specification : Specification) : Prop :=
  specification.flags = [] ∧ specification.digits = []

/-- What is in front of the letter. -/
def stem (specification : Specification) : Bytes :=
  percent :: (specification.flags ++ specification.digits)

theorem parse_stem (specification : Specification) :
    parse specification.stem = [.literal [percent]] := by
  have hread := parseFrom_of_extendAll? specification.extendAll?_layout []
  rw [List.append_nil] at hread
  rw [stem, parse, parseFrom, if_pos rfl, hread, parseFrom]

theorem finish_of_convertsNothing {specification : Specification}
    (h : specification.ConvertsNothing) :
    specification.layout.finish specification.letter = .literal [percent, specification.letter] := by
  have hnone : Conversion.ofLetter? specification.letter = none := by
    rw [← Option.isNone_iff_eq_none, ← Option.not_isSome, isSome_ofLetter?]
    simpa using h.1
  rw [Layout.finish, if_neg h.2, hnone]

/-- What a copy leaves out. -/
def lost (specification : Specification) : Bytes :=
  specification.flags ++ specification.digits

theorem lost_eq_nil_iff (specification : Specification) :
    specification.lost = [] ↔ specification.IsBare :=
  List.append_eq_nil_iff

end Specification

/-- The end of a template that breaks off in front of the letter of a specification, if it does. -/
def brokenOff (last : Option Specification) : Bytes :=
  last.elim [] Specification.stem

/-- A percent sign is all that is left of it. -/
def stub (last : Option Specification) : Bytes :=
  last.elim [] fun _ => [percent]

theorem parse_brokenOff (last : Option Specification) :
    parse (brokenOff last) = (last.toList.map fun _ => .literal [percent]) := by
  cases last with
  | none => rfl
  | some specification => exact specification.parse_stem

namespace Part

def specification? : Part → Option Specification
  | ordinary _ _ => none
  | field specification => some specification

def specifications (parts : List Part) : List Specification :=
  parts.filterMap specification?

/-- The copy of a piece that takes no value. -/
def copy : Part → Bytes
  | ordinary byte _ => [byte]
  | field specification => [percent, specification.letter]

def copies (parts : List Part) : Bytes :=
  parts.flatMap copy

theorem piece_eq_copy {part : Part}
    (h : ∀ specification ∈ part.specification?, specification.ConvertsNothing) :
    part.piece = .literal part.copy := by
  cases part with
  | ordinary byte hbyte => rfl
  | field specification => exact Specification.finish_of_convertsNothing (h specification rfl)

theorem pieces_eq_copies {parts : List Part}
    (h : ∀ specification ∈ specifications parts, specification.ConvertsNothing) :
    parts.map piece = (parts.map copy).map Piece.literal := by
  rw [List.map_map]
  refine List.map_congr_left fun part hpart => piece_eq_copy fun specification hsome => ?_
  exact h specification (List.mem_filterMap.2 ⟨part, hpart, hsome⟩)

/-- A copy is part of its text, and what is left out of it are flags and digits. -/
theorem copy_sublist (part : Part) :
    part.copy.Sublist part.text ∧
      part.text.length =
        part.copy.length + (part.specification?.toList.flatMap Specification.lost).length := by
  cases part with
  | ordinary byte hbyte => exact ⟨List.Sublist.refl _, rfl⟩
  | field specification =>
      refine ⟨.cons_cons _ (List.sublist_append_right _ _), ?_⟩
      simp only [copy, text, Specification.text, Specification.lost, specification?,
        Option.toList_some, List.flatMap_singleton, List.length_cons, List.length_append,
        List.length_nil]
      omega

theorem copies_sublist (parts : List Part) :
    (copies parts).Sublist (texts parts) ∧
      (texts parts).length =
        (copies parts).length + ((specifications parts).flatMap Specification.lost).length := by
  induction parts with
  | nil => exact ⟨List.Sublist.refl _, rfl⟩
  | cons part parts ih =>
      obtain ⟨hpart, hlength⟩ := part.copy_sublist
      obtain ⟨hparts, hlengths⟩ := ih
      refine ⟨hpart.append hparts, ?_⟩
      have hspecifications : specifications (part :: parts) =
          part.specification?.toList ++ specifications parts := by
        unfold specifications
        cases hsome : part.specification? <;> simp [hsome]
      rw [hspecifications, List.flatMap_append, List.length_append, copies, texts,
        List.flatMap_cons, List.flatMap_cons, List.length_append, List.length_append, hlength,
        ← copies, ← texts, hlengths]
      omega

end Part

/-- Nothing is left out where all specifications are bare. -/
theorem copies_eq_texts_iff (parts : List Part) (last : Option Specification) :
    Part.copies parts ++ stub last = Part.texts parts ++ brokenOff last ↔
      ∀ specification ∈ Part.specifications parts ++ last.toList, specification.IsBare := by
  obtain ⟨hparts, hlength⟩ := Part.copies_sublist parts
  have hlast : (stub last).Sublist (brokenOff last) ∧ (brokenOff last).length =
      (stub last).length + (last.toList.flatMap Specification.lost).length := by
    cases last with
    | none => exact ⟨List.Sublist.refl _, rfl⟩
    | some specification =>
        refine ⟨.cons_cons _ (List.nil_sublist _), ?_⟩
        simp [brokenOff, stub, Specification.stem, Specification.lost, Nat.add_comm]
  have hlengths : (Part.texts parts ++ brokenOff last).length =
      (Part.copies parts ++ stub last).length +
        ((Part.specifications parts ++ last.toList).flatMap Specification.lost).length := by
    rw [List.flatMap_append, List.length_append, List.length_append, List.length_append, hlength,
      hlast.2]
    omega
  have hbare : (∀ specification ∈ Part.specifications parts ++ last.toList,
      specification.IsBare) ↔
        (Part.specifications parts ++ last.toList).flatMap Specification.lost = [] := by
    simp only [List.flatMap_eq_nil_iff, Specification.lost_eq_nil_iff]
  rw [hbare, ← List.length_eq_zero_iff]
  constructor
  · intro heq
    have hsame := congrArg List.length heq
    omega
  · intro hzero
    exact (hparts.append hlast.1).eq_of_length (by omega)

theorem render_literals {read : Word → Except Error Bytes} (texts : List Bytes)
    (back : List Piece) (values : List Word) :
    render read (texts.map Piece.literal ++ back) values =
      (do return texts.flatten ++ (← render read back values)) := by
  induction texts with
  | nil =>
      change render read back values = (render read back values).bind fun rest => .ok ([] ++ rest)
      cases render read back values <;> rfl
  | cons text texts ih =>
      rw [List.map_cons, List.cons_append, render, ih, List.flatten_cons]
      cases render read back values with
      | error error => rfl
      | ok rest => exact congrArg Except.ok (List.append_assoc _ _ _).symm

end Template

namespace Machine

open Template

/-- Specifications that convert nothing take no value: what follows them gets all of them. They are
copied as they are if and only if they are bare. -/
theorem format_unconverted (m : Machine) (parts : List Part)
    (h : ∀ specification ∈ Part.specifications parts, specification.ConvertsNothing)
    (last : Option Specification) (values : List Word) :
    m.format (Part.texts parts ++ brokenOff last) values = .ok (Part.copies parts ++ stub last) ∧
    (m.format (Part.texts parts ++ brokenOff last) values =
        .ok (Part.texts parts ++ brokenOff last) ↔
      ∀ specification ∈ Part.specifications parts ++ last.toList, specification.IsBare) ∧
    ∀ rest, m.format (Part.texts parts ++ rest) values =
      (do return Part.copies parts ++ (← m.format rest values)) := by
  have hrest (rest : Bytes) : m.format (Part.texts parts ++ rest) values =
      (do return Part.copies parts ++ (← m.format rest values)) := by
    rw [format, parse_texts, Part.pieces_eq_copies h, render_literals]
    rfl
  have hlast : m.format (brokenOff last) values = .ok (stub last) := by
    rw [format, parse_brokenOff]
    cases last <;> rfl
  have hwhole : m.format (Part.texts parts ++ brokenOff last) values =
      .ok (Part.copies parts ++ stub last) := by
    rw [hrest, hlast]
    rfl
  refine ⟨hwhole, ?_, hrest⟩
  rw [hwhole, Except.ok.injEq]
  exact copies_eq_texts_iff parts last

/-- An unknown letter. -/
def unknown : Specification :=
  .ofLetter 113 (by decide) (by decide)

/-- An unknown letter behind a width. -/
def unknownWide : Specification :=
  { unknown with
    digits := [53]
    digits_isDigit := List.forall_mem_singleton.2 (by decide)
    digits_head := by decide
    letter_not_flag := nofun }

theorem convertsNothing_unknown : unknown.ConvertsNothing :=
  ⟨by decide, by decide⟩

/-- With a comma in front of it and a percent sign at the end. -/
theorem format_unconverted_bare :
    (∀ specification ∈ Part.specifications [.ordinary 44 (by decide), .field unknown],
      specification.ConvertsNothing) ∧
    small.format [44, percent, 113, percent] [7] = .ok [44, percent, 113, percent] := by
  have hunknown : ∀ specification ∈ Part.specifications [.ordinary 44 (by decide), .field unknown],
      specification.ConvertsNothing := by
    intro specification hmem
    rw [List.mem_singleton.1 hmem]
    exact convertsNothing_unknown
  refine ⟨hunknown, (small.format_unconverted _ hunknown (some unknown) [7]).2.1.2 ?_⟩
  intro specification hmem
  have hboth : specification ∈ [unknown, unknown] := hmem
  obtain rfl : specification = unknown := by simpa using hboth
  exact ⟨rfl, rfl⟩

/-- A width is not copied. -/
theorem format_unknownWide :
    unknownWide.ConvertsNothing ∧ unknownWide.text = [percent, 53, 113] ∧
      small.format unknownWide.text [] = .ok [percent, 113] :=
  ⟨⟨by decide, by decide⟩, rfl, rfl⟩

end Machine

end WordC
