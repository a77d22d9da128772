import WordC.Memory.Layout

/-!
# The heap

Blocks of words are taken from the first free block with room for them and go back when they are
released. Free blocks ascend and never touch: a released block merges with its neighbours.
-/

namespace WordC

structure Heap where
  free : List Extent
  /-- Blocks in use, the latest first. -/
  live : List Extent
deriving DecidableEq, Inhabited

namespace Heap

/-- A heap whose whole region is free. -/
def ofRegion (region : Extent) : Heap :=
  { free := if region.size = 0 then [] else [region]
    live := [] }

/-- Cuts `words` words off the front of the first block that has them. -/
def take? (words : Nat) : List Extent → Option (Nat × List Extent)
  | [] => none
  | block :: rest =>
      if words = block.size then some (block.start, rest)
      else if words < block.size then
        some (block.start, { block with start := block.start + words } :: rest)
      else (take? words rest).map fun (address, rest) => (address, block :: rest)

/-- Joins the first two blocks if they touch. -/
def join : List Extent → List Extent
  | first :: second :: rest =>
      if first.stop = second.start then { first with stop := second.stop } :: rest
      else first :: second :: rest
  | blocks => blocks

/-- Puts a block among ascending free blocks, behind those that begin before it, and joins it with
the next block and then with the one in front, if it touches them. -/
def give (block : Extent) (blocks : List Extent) : List Extent :=
  let front := blocks.takeWhile (·.start < block.start)
  let back := join (block :: blocks.dropWhile (·.start < block.start))
  match front.getLast? with
  | none => back
  | some last => front.dropLast ++ join (last :: back)

/-- The address of `words` fresh words. -/
def allocate? (heap : Heap) (words : Nat) : Option (Nat × Heap) :=
  if words = 0 then none
  else
    (take? words heap.free).map fun (address, free) =>
      (address, { free, live := { start := address, stop := address + words } :: heap.live })

/-- Releases the block that starts at `address` and gives its size. -/
def release? (heap : Heap) (address : Nat) : Option (Nat × Heap) := do
  let block ← heap.live.find? (·.start == address)
  return (block.size, { free := give block heap.free, live := heap.live.erase block })

theorem join_cons_cons (first second : Extent) (rest : List Extent) :
    join (first :: second :: rest) =
      if first.stop = second.start then { first with stop := second.stop } :: rest
      else first :: second :: rest :=
  rfl

/-- Joined blocks begin where one of the blocks begins and end where one of them ends. -/
theorem mem_join {other : Extent} {blocks : List Extent} (h : other ∈ join blocks) :
    ∃ first ∈ blocks, ∃ last ∈ blocks, other.start = first.start ∧ other.stop = last.stop := by
  match blocks, h with
  | [first], h =>
      exact ⟨other, h, other, h, rfl, rfl⟩
  | first :: second :: rest, h =>
      rw [join_cons_cons] at h
      split at h
      · rcases List.mem_cons.1 h with rfl | hrest
        · exact ⟨first, by simp, second, by simp, rfl, rfl⟩
        · exact ⟨other, by simp [hrest], other, by simp [hrest], rfl, rfl⟩
      · exact ⟨other, h, other, h, rfl, rfl⟩

/-- The place of a block among others, and the two that it may be joined with. -/
theorem give_cases (block : Extent) (blocks : List Extent) :
    ∃ front back, blocks = front ++ back ∧ (∀ other ∈ front, other.start < block.start) ∧
      (∀ next ∈ back.head?, block.start ≤ next.start) ∧
      (front = [] ∧ give block blocks = join (block :: back) ∨
        ∃ before last, front = before ++ [last] ∧
          give block blocks = before ++ join (last :: join (block :: back))) := by
  refine ⟨_, _, (List.takeWhile_append_dropWhile (p := (·.start < block.start))).symm, ?_, ?_, ?_⟩
  · intro other hmem
    simpa using List.all_eq_true.1 List.all_takeWhile other hmem
  · intro next hnext
    have hfails := List.head?_dropWhile_not (·.start < block.start) blocks
    rw [hnext] at hfails
    simpa using hfails
  · unfold give
    rcases List.eq_nil_or_concat (blocks.takeWhile (·.start < block.start)) with
      hnil | ⟨before, last, hlast⟩
    · exact .inl ⟨hnil, by simp [hnil]⟩
    · exact .inr ⟨before, last, by simpa using hlast, by simp [hlast]⟩

theorem mem_give {block other : Extent} {blocks : List Extent} (h : other ∈ give block blocks) :
    ∃ first ∈ block :: blocks, ∃ last ∈ block :: blocks,
      other.start = first.start ∧ other.stop = last.stop := by
  obtain ⟨front, back, rfl, -, -, hgive⟩ := give_cases block blocks
  rcases hgive with ⟨rfl, hgive⟩ | ⟨before, last, rfl, hgive⟩
  · rw [hgive] at h
    exact mem_join h
  · have hback {found : Extent} (hmem : found ∈ last :: join (block :: back)) :
        ∃ first ∈ block :: (before ++ [last] ++ back), ∃ final ∈ block :: (before ++ [last] ++ back),
          found.start = first.start ∧ found.stop = final.stop := by
      rcases List.mem_cons.1 hmem with rfl | hmem
      · exact ⟨found, by simp, found, by simp, rfl, rfl⟩
      · obtain ⟨first, hfirst, final, hfinal, hstart, hstop⟩ := mem_join hmem
        refine ⟨first, ?_, final, ?_, hstart, hstop⟩
        · rcases List.mem_cons.1 hfirst with rfl | hfirst <;> simp [*]
        · rcases List.mem_cons.1 hfinal with rfl | hfinal <;> simp [*]
    rw [hgive] at h
    rcases List.mem_append.1 h with hbefore | hjoined
    · exact ⟨other, by simp [hbefore], other, by simp [hbefore], rfl, rfl⟩
    · obtain ⟨first, hfirst, final, hfinal, hstart, hstop⟩ := mem_join hjoined
      obtain ⟨first', hfirst', -, -, hstart', -⟩ := hback hfirst
      obtain ⟨-, -, final', hfinal', -, hstop'⟩ := hback hfinal
      exact ⟨first', hfirst', final', hfinal', hstart.trans hstart', hstop.trans hstop'⟩

end Heap

end WordC
