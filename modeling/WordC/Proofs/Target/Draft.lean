import WordC.Proofs.Target.Code

/-!
# The start-up code takes shape

While sections are being added, the jump that ends the start-up code so far is open. A draft is the
text in front of and behind the word that is still to be patched. Filling it at the end gives the
code of the whole program, in which each jump of the start-up code leads to the next initializer.
-/

namespace WordC.Core

structure Draft where
  front : List Cell
  back : List Cell

namespace Draft

def cells (draft : Draft) : List Cell :=
  draft.front ++ .hole :: draft.back

/-- The address behind a draft that starts at `start`. -/
def stop (start : Nat) (draft : Draft) : Nat :=
  start + draft.cells.length

def empty : Draft :=
  { front := [.known Opcode.jmp.word], back := [] }

/-- The draft with one more section. An initializer fills the open jump and ends with a new one. -/
def add (start : Nat) (draft : Draft) : Section → Draft
  | .function _ _ slots body =>
      { draft with
        back := draft.back ++ Core.cells (Section.functionCode (draft.stop start) slots body) }
  | .initializer address value =>
      { front := draft.front ++ .known (Word.ofCount (draft.stop start)) ::
          (draft.back ++ Core.cells (Section.initializerCode (draft.stop start) address value) ++
            [.known Opcode.jmp.word])
        back := [] }

def ofSections (start : Nat) (sections : List Section) : Draft :=
  sections.foldl (add start) empty

theorem ofSections_append (start : Nat) (sections : List Section) (part : Section) :
    ofSections start (sections ++ [part]) = (ofSections start sections).add start part := by
  simp [ofSections, List.foldl_append]

theorem stop_add (start : Nat) (draft : Draft) (part : Section) :
    (draft.add start part).stop start = draft.stop start + part.width (draft.stop start) := by
  cases part with
  | function name arity slots body =>
      simp [stop, cells, add, Section.width, Section.code, length_cells]
      omega
  | initializer address value =>
      simp [stop, cells, add, Section.width, Section.code, length_cells]
      omega

/-- The words of a draft once the start-up code ends. -/
def finished (start : Nat) (draft : Draft) : List Cell :=
  draft.front ++ .known (Word.ofCount (draft.stop start)) :: (draft.back ++ Core.cells finale)

theorem finished_foldl (start : Nat) (sections : List Section) (draft : Draft) :
    (sections.foldl (add start) draft).finished start =
      draft.front ++ .known (Word.ofCount (nextStart (draft.stop start) sections)) ::
        (draft.back ++ Core.cells (sectionsCode (draft.stop start) sections)) := by
  induction sections generalizing draft with
  | nil => rfl
  | cons part rest ih =>
      rw [List.foldl_cons, ih, stop_add]
      cases part with
      | function name arity slots body =>
          simp [add, nextStart, sectionsCode, Section.code]
      | initializer address value =>
          simp [add, nextStart, sectionsCode, Section.code]

/-- Sections that have been drafted one by one make up a program. -/
theorem finished_ofSections (start : Nat) (sections : List Section) :
    (ofSections start sections).finished start = Core.cells (programCode start sections) := by
  rw [ofSections, finished_foldl]
  have hstop : empty.stop start = start + 2 := rfl
  rw [hstop]
  simp [empty, programCode]

end Draft

/-! ## Entries -/

/-- The address behind sections. -/
def sectionsStop (start : Nat) : List Section → Nat
  | [] => start
  | part :: rest => sectionsStop (start + part.width start) rest

/-- The entry of a section that is a function. -/
def entryOf (start : Nat) : Section → List (String × Nat)
  | .function name _ _ _ => [(name, start)]
  | .initializer _ _ => []

theorem entries_append (start : Nat) (sections : List Section) (part : Section) :
    entries start (sections ++ [part]) =
      entries start sections ++ entryOf (sectionsStop start sections) part := by
  induction sections generalizing start with
  | nil => cases part <;> rfl
  | cons first rest ih =>
      rw [List.cons_append, sectionsStop]
      cases first with
      | function name arity slots body =>
          rw [entries, entries, ih]
          rfl
      | initializer address value =>
          rw [entries, entries, ih]

theorem Draft.stop_foldl (start : Nat) (sections : List Section) (draft : Draft) :
    (sections.foldl (Draft.add start) draft).stop start =
      sectionsStop (draft.stop start) sections := by
  induction sections generalizing draft with
  | nil => rfl
  | cons part rest ih => rw [List.foldl_cons, ih, stop_add, sectionsStop]

theorem Draft.stop_ofSections (start : Nat) (sections : List Section) :
    (ofSections start sections).stop start = sectionsStop (start + 2) sections :=
  stop_foldl start sections empty

end WordC.Core
