import WordC.Memory.Heap

/-!
# The heap as a bitmap

Free and live blocks tile the region: each of its words belongs to exactly one of them. Free blocks
ascend and never touch, so that a run of free words lies in a single block, and the first block with
room is the lowest place with room.
-/

namespace WordC

/-- The number of blocks that an address belongs to. -/
def Extent.cover (blocks : List Extent) (address : Nat) : Nat :=
  blocks.countP (·.contains address)

/-- The number of times that an extent counts an address: once or not at all. -/
def Extent.share (block : Extent) (address : Nat) : Nat :=
  if block.contains address then 1 else 0

/-- Whether no block is empty, and each ends before the next one begins, at least a word apart. -/
structure Extent.Ascending (blocks : List Extent) : Prop where
  nonempty : ∀ block ∈ blocks, block.start < block.stop
  apart : blocks.Pairwise fun block next => block.stop < next.start

namespace Extent

variable {block other : Extent} {blocks rest : List Extent} {words address : Nat}

theorem contains_iff :
    block.contains address = true ↔ block.start ≤ address ∧ address < block.stop := by
  simp [contains]

theorem share_of_mem (h : block.start ≤ address ∧ address < block.stop) :
    block.share address = 1 :=
  if_pos (contains_iff.2 h)

theorem share_of_not_mem (h : ¬(block.start ≤ address ∧ address < block.stop)) :
    block.share address = 0 :=
  if_neg fun hcontains => h (contains_iff.1 hcontains)

/-- Two extents that touch count together what the extent over both counts. -/
theorem share_add {first second whole : Extent} (hstart : whole.start = first.start)
    (hmeet : first.stop = second.start) (hstop : whole.stop = second.stop)
    (hfirst : first.start ≤ first.stop) (hsecond : second.start ≤ second.stop) (address : Nat) :
    first.share address + second.share address = whole.share address := by
  unfold share contains
  simp only [Bool.and_eq_true, decide_eq_true_eq]
  split <;> split <;> split <;> omega

theorem cover_cons : cover (block :: blocks) address = cover blocks address + block.share address :=
  List.countP_cons

theorem cover_append :
    cover (blocks ++ rest) address = cover blocks address + cover rest address :=
  List.countP_append

theorem cover_perm (h : blocks.Perm rest) : cover blocks address = cover rest address :=
  h.countP_eq _

theorem cover_pos : 0 < cover blocks address ↔
    ∃ block ∈ blocks, block.start ≤ address ∧ address < block.stop := by
  rw [cover, List.countP_pos_iff]
  simp only [contains_iff]

namespace Ascending

theorem nil : Ascending [] :=
  ⟨fun _ hmem => absurd hmem List.not_mem_nil, .nil⟩

theorem cons_iff : Ascending (block :: blocks) ↔
    block.start < block.stop ∧ (∀ other ∈ blocks, block.stop < other.start) ∧ Ascending blocks := by
  constructor
  · intro h
    obtain ⟨hfirst, hrest⟩ := List.forall_mem_cons.1 h.nonempty
    obtain ⟨hbefore, hapart⟩ := List.pairwise_cons.1 h.apart
    exact ⟨hfirst, hbefore, hrest, hapart⟩
  · rintro ⟨hfirst, hbefore, hrest⟩
    exact ⟨List.forall_mem_cons.2 ⟨hfirst, hrest.nonempty⟩,
      List.pairwise_cons.2 ⟨hbefore, hrest.apart⟩⟩

/-- Two blocks are the same or apart. -/
theorem eq_or_apart (h : Ascending blocks) (hblock : block ∈ blocks) (hother : other ∈ blocks) :
    block = other ∨ block.stop < other.start ∨ other.stop < block.start := by
  induction blocks with
  | nil => cases hblock
  | cons first rest ih =>
      obtain ⟨-, hbefore, hrest⟩ := cons_iff.1 h
      rcases List.mem_cons.1 hblock with hfirst | hblock <;>
        rcases List.mem_cons.1 hother with hfirst' | hother
      · exact .inl (hfirst.trans hfirst'.symm)
      · exact .inr (.inl (hfirst ▸ hbefore other hother))
      · exact .inr (.inr (hfirst' ▸ hbefore block hblock))
      · exact ih hrest hblock hother

/-- A run of covered words lies in one block, as blocks do not touch. -/
theorem exists_block (h : Ascending blocks) (hwords : 0 < words)
    (hcovered : ∀ i < words, 0 < cover blocks (address + i)) :
    ∃ block ∈ blocks, block.start ≤ address ∧ address + words ≤ block.stop := by
  obtain ⟨block, hblock, hstart, hstop⟩ := cover_pos.1 (hcovered 0 hwords)
  refine ⟨block, hblock, hstart, Nat.le_of_not_lt fun hends => ?_⟩
  -- The word behind the block would be covered as well, by a block that touches it.
  have hbehind := hcovered (block.stop - address) (by omega)
  rw [show address + (block.stop - address) = block.stop by omega] at hbehind
  obtain ⟨other, hother, hbefore, hlast⟩ := cover_pos.1 hbehind
  rcases h.eq_or_apart hblock hother with rfl | hapart | hapart
  · omega
  · omega
  · omega

end Ascending

end Extent

namespace Heap

open Extent

variable {block : Extent} {blocks rest : List Extent} {words address : Nat}

/-! ## Taking from the free blocks -/

/-- The block that is taken from is the first with room. -/
theorem take?_eq_some (h : take? words blocks = some (address, rest)) :
    ∃ front block back, blocks = front ++ block :: back ∧ (∀ other ∈ front, other.size < words) ∧
      words ≤ block.size ∧ address = block.start ∧
      rest = front ++
        if words = block.size then back else { block with start := block.start + words } :: back := by
  induction blocks generalizing rest with
  | nil => cases h
  | cons first others ih =>
      rw [take?] at h
      by_cases hall : words = first.size
      · rw [if_pos hall] at h
        cases h
        exact ⟨[], first, others, rfl, fun _ hmem => absurd hmem List.not_mem_nil,
          Nat.le_of_eq hall, rfl, by rw [if_pos hall]; rfl⟩
      · rw [if_neg hall] at h
        by_cases hsome : words < first.size
        · rw [if_pos hsome] at h
          cases h
          exact ⟨[], first, others, rfl, fun _ hmem => absurd hmem List.not_mem_nil,
            Nat.le_of_lt hsome, rfl, by rw [if_neg hall]; rfl⟩
        · rw [if_neg hsome] at h
          obtain ⟨⟨found, left⟩, htake, heq⟩ := Option.map_eq_some_iff.1 h
          cases heq
          obtain ⟨front, block, back, rfl, hfront, hroom, hstart, rfl⟩ := ih htake
          exact ⟨first :: front, block, back, rfl,
            List.forall_mem_cons.2 ⟨by omega, hfront⟩, hroom, hstart, rfl⟩

theorem take?_eq_none : take? words blocks = none ↔ ∀ block ∈ blocks, block.size < words := by
  induction blocks with
  | nil => simp [take?]
  | cons first others ih =>
      rw [take?, List.forall_mem_cons, ← ih]
      by_cases hall : words = first.size
      · simp [hall]
      · by_cases hsome : words < first.size
        · simp [hall, hsome]
          omega
        · simp [hall, hsome]
          omega

theorem cover_take? (h : take? words blocks = some (address, rest)) (hwords : 0 < words)
    (other : Nat) :
    cover blocks other =
      cover rest other + share { start := address, stop := address + words } other := by
  obtain ⟨front, block, back, rfl, -, hroom, rfl, rfl⟩ := take?_eq_some h
  have hsize : block.size = block.stop - block.start := rfl
  rw [cover_append, cover_append, cover_cons]
  by_cases hall : words = block.size
  · have hstop : block.start + words = block.stop := by omega
    rw [if_pos hall, hstop]
    exact (Nat.add_assoc _ _ _).symm
  · have hshare := @share_add { start := block.start, stop := block.start + words }
      { block with start := block.start + words } block rfl rfl rfl (Nat.le_add_right _ _)
      (by simp only; omega) other
    rw [if_neg hall, cover_cons]
    omega

theorem ascending_take? (h : take? words blocks = some (address, rest)) (hwords : 0 < words)
    (hascending : Ascending blocks) : Ascending rest := by
  obtain ⟨front, block, back, rfl, -, hroom, rfl, rfl⟩ := take?_eq_some h
  have hsize : block.size = block.stop - block.start := rfl
  by_cases hall : words = block.size
  · rw [if_pos hall]
    have hsublist := (List.sublist_cons_self block back).append_left front
    exact
      { nonempty := fun other hmem => hascending.nonempty other (hsublist.subset hmem)
        apart := hascending.apart.sublist hsublist }
  · rw [if_neg hall]
    clear h
    induction front with
    | nil =>
        obtain ⟨-, hbefore, hback⟩ := Ascending.cons_iff.1 hascending
        exact Ascending.cons_iff.2 ⟨by simp only; omega, hbefore, hback⟩
    | cons first front ih =>
        obtain ⟨hfirst, hbefore, hfront⟩ := Ascending.cons_iff.1 hascending
        refine Ascending.cons_iff.2 ⟨hfirst, fun other hmem => ?_, ih hfront⟩
        rcases List.mem_append.1 hmem with hmem | hmem
        · exact hbefore other (List.mem_append_left _ hmem)
        · rcases List.mem_cons.1 hmem with rfl | hmem
          · exact Nat.lt_of_lt_of_le
              (hbefore block (List.mem_append_right _ List.mem_cons_self)) (Nat.le_add_right _ _)
          · exact hbefore other (List.mem_append_right _ (List.mem_cons_of_mem _ hmem))

/-- The place that is taken is the lowest with room. -/
theorem lowest_take? (h : take? words blocks = some (address, rest)) (hwords : 0 < words)
    (hascending : Ascending blocks) {lower : Nat} (hlower : lower < address) :
    ¬∀ i < words, 0 < cover blocks (lower + i) := by
  intro hcovered
  obtain ⟨found, hfound, hstart, hstop⟩ := hascending.exists_block hwords hcovered
  obtain ⟨front, block, back, rfl, hfront, -, rfl, -⟩ := take?_eq_some h
  rcases List.mem_append.1 hfound with hmem | hmem
  · have hsmall := hfront found hmem
    unfold size at hsmall
    omega
  · have hback := (List.pairwise_append.1 hascending.apart).2.1
    have hnonempty := hascending.nonempty block (List.mem_append_right _ List.mem_cons_self)
    rcases List.mem_cons.1 hmem with rfl | hmem
    · omega
    · have hbefore := (List.pairwise_cons.1 hback).1 found hmem
      omega

/-- There is a place with room exactly if some block has room. -/
theorem isSome_take? (hwords : 0 < words) (hascending : Ascending blocks)
    (hcovered : ∀ i < words, 0 < cover blocks (address + i)) : take? words blocks ≠ none := by
  obtain ⟨block, hblock, hstart, hstop⟩ := hascending.exists_block hwords hcovered
  intro hnone
  have hsmall := take?_eq_none.1 hnone block hblock
  unfold size at hsmall
  omega

/-! ## Giving back -/

theorem start_le_stop_of_mem_join {other : Extent} (hblock : block.start ≤ block.stop)
    (hblocks : ∀ other ∈ blocks, other.start ≤ other.stop) (hmem : other ∈ join (block :: blocks)) :
    other.start ≤ other.stop := by
  match blocks with
  | [] => exact List.mem_singleton.1 hmem ▸ hblock
  | next :: rest =>
      obtain ⟨hnext, hrest⟩ := List.forall_mem_cons.1 hblocks
      rw [join_cons_cons] at hmem
      split at hmem
      · next htouch =>
          rcases List.mem_cons.1 hmem with rfl | hmem
          · simp only
            omega
          · exact hrest other hmem
      · rcases List.mem_cons.1 hmem with rfl | hmem
        · exact hblock
        · exact hblocks other hmem

theorem cover_join (hblocks : ∀ other ∈ blocks, other.start ≤ other.stop) (address : Nat) :
    cover (join blocks) address = cover blocks address := by
  match blocks with
  | [] | [_] => rfl
  | first :: second :: rest =>
      rw [join_cons_cons]
      split
      · next htouch =>
          have hshare := @share_add first second { first with stop := second.stop } rfl htouch rfl
            (hblocks first (by simp)) (hblocks second (by simp)) address
          rw [cover_cons, cover_cons, cover_cons]
          omega
      · rfl

theorem cover_give (hblock : block.start ≤ block.stop)
    (hblocks : ∀ other ∈ blocks, other.start ≤ other.stop) (address : Nat) :
    cover (give block blocks) address = cover blocks address + block.share address := by
  obtain ⟨front, back, rfl, -, -, hgive⟩ := give_cases block blocks
  obtain ⟨hfront, hback⟩ := List.forall_mem_append.1 hblocks
  have hjoin : cover (join (block :: back)) address = cover back address + block.share address := by
    rw [cover_join (List.forall_mem_cons.2 ⟨hblock, hback⟩), cover_cons]
  rcases hgive with ⟨rfl, hgive⟩ | ⟨before, last, rfl, hgive⟩
  · rw [hgive, hjoin, List.nil_append]
  · obtain ⟨-, hlast⟩ := List.forall_mem_append.1 hfront
    have hall : ∀ other ∈ last :: join (block :: back), other.start ≤ other.stop := by
      refine List.forall_mem_cons.2 ⟨hlast last (by simp), fun other hmem => ?_⟩
      -- The joined block begins where the given one does and ends behind it.
      exact start_le_stop_of_mem_join hblock hback hmem
    rw [hgive, cover_append, cover_join hall, cover_cons, hjoin, cover_append, cover_append,
      cover_cons]
    have hnil : cover [] address = 0 := rfl
    omega

/-- Where all blocks begin behind the end of the first one, joining them keeps them apart. -/
theorem ascending_join (hblock : block.start < block.stop) (hascending : Ascending blocks)
    (hbehind : ∀ other ∈ blocks, block.stop ≤ other.start) : Ascending (join (block :: blocks)) := by
  match blocks with
  | [] => exact Ascending.cons_iff.2 ⟨hblock, fun _ hmem => absurd hmem List.not_mem_nil, .nil⟩
  | next :: rest =>
      obtain ⟨hnext, hapart, hrest⟩ := Ascending.cons_iff.1 hascending
      have hle := hbehind next List.mem_cons_self
      rw [join_cons_cons]
      split
      · next htouch => exact Ascending.cons_iff.2 ⟨by simp only; omega, hapart, hrest⟩
      · next hgap =>
          refine Ascending.cons_iff.2 ⟨hblock, List.forall_mem_cons.2 ⟨by omega, ?_⟩, hascending⟩
          intro other hmem
          have hother := hapart other hmem
          omega

theorem ascending_append : Ascending (blocks ++ rest) ↔
    Ascending blocks ∧ Ascending rest ∧
      ∀ block ∈ blocks, ∀ other ∈ rest, block.stop < other.start := by
  constructor
  · rintro ⟨hnonempty, hapart⟩
    obtain ⟨hblocks, hrest⟩ := List.forall_mem_append.1 hnonempty
    obtain ⟨hfirst, hsecond, hboth⟩ := List.pairwise_append.1 hapart
    exact ⟨⟨hblocks, hfirst⟩, ⟨hrest, hsecond⟩, hboth⟩
  · rintro ⟨⟨hblocks, hfirst⟩, ⟨hrest, hsecond⟩, hboth⟩
    exact ⟨List.forall_mem_append.2 ⟨hblocks, hrest⟩,
      List.pairwise_append.2 ⟨hfirst, hsecond, hboth⟩⟩

/-- Where the first block begins no earlier than a free one, all of them begin behind its end. -/
theorem stop_le_start_of_ascending (hascending : Ascending blocks)
    (hhead : ∀ next ∈ blocks.head?, block.start ≤ next.start)
    (hfree : ∀ other ∈ blocks, other.stop ≤ block.start ∨ block.stop ≤ other.start) :
    ∀ other ∈ blocks, block.stop ≤ other.start := by
  intro other hmem
  have hstart : block.start ≤ other.start := by
    match blocks with
    | next :: rest =>
        have hnext := hhead next rfl
        have hsize := hascending.nonempty next List.mem_cons_self
        rcases List.mem_cons.1 hmem with rfl | hlater
        · exact hnext
        · have hapart := (Ascending.cons_iff.1 hascending).2.1 other hlater
          omega
  have hsize := hascending.nonempty other hmem
  rcases hfree other hmem with hends | hbegins
  · omega
  · exact hbegins

theorem forall_start_join {holds : Nat → Prop} (h : ∀ other ∈ blocks, holds other.start) :
    ∀ other ∈ join blocks, holds other.start := by
  intro other hmem
  obtain ⟨first, hfirst, -, -, hstart, -⟩ := mem_join hmem
  exact hstart ▸ h first hfirst

/-- The blocks in front end before the given one begins, and those behind begin after its end, so
that joining it with its neighbours leaves no two blocks that touch. -/
theorem ascending_give (hblock : block.start < block.stop) (hascending : Ascending blocks)
    (hfree : ∀ other ∈ blocks, other.stop ≤ block.start ∨ block.stop ≤ other.start) :
    Ascending (give block blocks) := by
  obtain ⟨front, back, rfl, hlow, hhigh, hgive⟩ := give_cases block blocks
  obtain ⟨hfront, hback, -⟩ := ascending_append.1 hascending
  obtain ⟨hfreeFront, hfreeBack⟩ := List.forall_mem_append.1 hfree
  have hbehind := stop_le_start_of_ascending hback hhigh hfreeBack
  have hjoined := ascending_join hblock hback hbehind
  rcases hgive with ⟨rfl, hgive⟩ | ⟨before, last, rfl, hgive⟩
  · rwa [hgive]
  · obtain ⟨hbefore, hlast, hapart⟩ := ascending_append.1 hfront
    have hnonempty := hlast.nonempty last List.mem_cons_self
    have hends : last.stop ≤ block.start := by
      have hbegins := hlow last (by simp)
      rcases hfreeFront last (by simp) with hends | hafter
      · exact hends
      · omega
    have hafter : ∀ other ∈ join (block :: back), last.stop ≤ other.start := by
      refine forall_start_join (List.forall_mem_cons.2 ⟨hends, fun other hmem => ?_⟩)
      have hbegins := hbehind other hmem
      omega
    rw [hgive]
    refine ascending_append.2 ⟨hbefore, ascending_join hnonempty hjoined hafter, ?_⟩
    intro found hfound
    have hbeforeLast := hapart found hfound last List.mem_cons_self
    refine forall_start_join (List.forall_mem_cons.2 ⟨hbeforeLast, fun other hmem => ?_⟩)
    have hbegins := hafter other hmem
    omega

/-! ## Requests -/

inductive Request where
  | allocate (words : Nat)
  | release (address : Nat)

/-- The heap after a request; one that cannot be met changes nothing. -/
def serve (heap : Heap) : Request → Heap
  | .allocate words =>
      match heap.allocate? words with
      | some (_, heap) => heap
      | none => heap
  | .release address =>
      match heap.release? address with
      | some (_, heap) => heap
      | none => heap

/-- The heap after requests in order. -/
def serveAll (heap : Heap) (requests : List Request) : Heap :=
  requests.foldl serve heap

/-- Whether the word at an address may be handed out. -/
def IsFree (heap : Heap) (address : Nat) : Prop :=
  ∃ block ∈ heap.free, block.start ≤ address ∧ address < block.stop

/-- Whether a number of words from an address on are free. -/
def HasRoom (heap : Heap) (words address : Nat) : Prop :=
  ∀ i < words, heap.IsFree (address + i)

/-- Free and live blocks tile the region: no block is empty, and each word of the region lies in
exactly one block and no other word in any. The free blocks are in order and never touch. -/
structure Tiles (region : Extent) (heap : Heap) : Prop where
  free : Ascending heap.free
  live : ∀ block ∈ heap.live, block.start < block.stop
  cover : ∀ address, cover (heap.free ++ heap.live) address = region.share address

variable {region : Extent} {heap heap' : Heap} {size : Nat}

theorem isFree_iff : heap.IsFree address ↔ 0 < cover heap.free address :=
  cover_pos.symm

theorem tiles_ofRegion (region : Extent) : (ofRegion region).Tiles region := by
  by_cases hempty : region.size = 0
  · have hfree : (ofRegion region).free = [] := if_pos hempty
    exact
      { free := hfree ▸ .nil
        live := fun _ hmem => absurd hmem List.not_mem_nil
        cover := fun address => by
          unfold size at hempty
          rw [hfree, share_of_not_mem (by omega)]
          rfl }
  · have hfree : (ofRegion region).free = [region] := if_neg hempty
    unfold size at hempty
    exact
      { free := hfree ▸ Ascending.cons_iff.2
          ⟨by omega, fun _ hmem => absurd hmem List.not_mem_nil, .nil⟩
        live := fun _ hmem => absurd hmem List.not_mem_nil
        cover := fun address => by
          rw [hfree]
          exact cover_cons.trans (Nat.zero_add _) }

theorem allocate?_eq_some (h : heap.allocate? words = some (address, heap')) :
    0 < words ∧ take? words heap.free = some (address, heap'.free) ∧
      heap'.live = { start := address, stop := address + words } :: heap.live := by
  unfold allocate? at h
  by_cases hzero : words = 0
  · rw [if_pos hzero] at h
    cases h
  · rw [if_neg hzero] at h
    obtain ⟨⟨found, free⟩, htake, heq⟩ := Option.map_eq_some_iff.1 h
    cases heq
    exact ⟨Nat.pos_of_ne_zero hzero, htake, rfl⟩

theorem allocate?_eq_none (hwords : 0 < words) :
    heap.allocate? words = none ↔ take? words heap.free = none := by
  unfold allocate?
  rw [if_neg (Nat.ne_of_gt hwords), Option.map_eq_none_iff]

theorem release?_eq_some (h : heap.release? address = some (size, heap')) :
    ∃ block ∈ heap.live, block.start = address ∧ block.size = size ∧
      heap' = { free := give block heap.free, live := heap.live.erase block } := by
  obtain ⟨block, hfind, hsome⟩ := Option.bind_eq_some_iff.1 h
  cases hsome
  exact ⟨block, List.mem_of_find?_eq_some hfind, by simpa using List.find?_some hfind, rfl, rfl⟩

theorem release?_eq_none :
    heap.release? address = none ↔ ∀ block ∈ heap.live, block.start ≠ address := by
  unfold release?
  rw [Option.bind_eq_bind, Option.bind_eq_none_iff]
  constructor
  · intro h
    have hnone : heap.live.find? (·.start == address) = none :=
      Option.eq_none_iff_forall_not_mem.2 fun block hfind => by cases h block hfind
    simpa using hnone
  · intro h block hfind
    have hstart := List.find?_some hfind
    exact absurd (by simpa using hstart) (h block (List.mem_of_find?_eq_some hfind))

namespace Tiles

theorem inside (h : heap.Tiles region) {block : Extent} (hmem : block ∈ heap.free ++ heap.live) :
    region.start ≤ block.start ∧ block.stop ≤ region.stop := by
  have hnonempty : block.start < block.stop := by
    rcases List.mem_append.1 hmem with hfree | hlive
    · exact h.free.nonempty block hfree
    · exact h.live block hlive
  have hregion : ∀ address, block.start ≤ address → address < block.stop →
      region.start ≤ address ∧ address < region.stop := by
    intro address hstart hstop
    have hcover := cover_pos.2 ⟨block, hmem, hstart, hstop⟩
    rw [h.cover] at hcover
    refine Decidable.byContradiction fun hnot => ?_
    rw [share_of_not_mem hnot] at hcover
    omega
  have hfirst := hregion block.start (Nat.le_refl _) hnonempty
  have hlast := hregion (block.stop - 1) (by omega) (by omega)
  omega

/-- No word lies in two blocks. -/
theorem cover_le (h : heap.Tiles region) (address : Nat) :
    Extent.cover heap.free address + Extent.cover heap.live address ≤ 1 := by
  rw [← cover_append, h.cover]
  unfold share
  split <;> omega

theorem hasRoom (h : heap.Tiles region) (hallocate : heap.allocate? words = some (address, heap')) :
    heap.HasRoom words address ∧ ∀ lower < address, ¬heap.HasRoom words lower := by
  obtain ⟨hwords, htake, -⟩ := allocate?_eq_some hallocate
  constructor
  · intro i hi
    have hcover := cover_take? htake hwords (address + i)
    rw [share_of_mem ⟨Nat.le_add_right _ _, Nat.add_lt_add_left hi _⟩] at hcover
    exact isFree_iff.2 (by omega)
  · intro lower hlower hroom
    exact lowest_take? htake hwords h.free hlower fun i hi => isFree_iff.1 (hroom i hi)

theorem isSome_allocate? (h : heap.Tiles region) (hwords : 0 < words)
    (hroom : heap.HasRoom words address) : heap.allocate? words ≠ none := fun hnone =>
  isSome_take? hwords h.free (fun i hi => isFree_iff.1 (hroom i hi))
    ((allocate?_eq_none hwords).1 hnone)

theorem allocate (h : heap.Tiles region)
    (hallocate : heap.allocate? words = some (address, heap')) :
    heap'.Tiles region := by
  obtain ⟨hwords, htake, hlive⟩ := allocate?_eq_some hallocate
  exact
    { free := ascending_take? htake hwords h.free
      live := by
        rw [hlive]
        exact List.forall_mem_cons.2 ⟨Nat.lt_add_of_pos_right hwords, h.live⟩
      cover := fun other => by
        have hcover := h.cover other
        have htaken := cover_take? htake hwords other
        rw [cover_append] at hcover
        rw [hlive, cover_append, cover_cons]
        omega }

/-- The words of a block that is allocated are free no longer. -/
theorem isFree_allocate (h : heap.Tiles region)
    (hallocate : heap.allocate? words = some (address, heap')) (other : Nat) :
    heap'.IsFree other ↔
      heap.IsFree other ∧ ¬(address ≤ other ∧ other < address + words) := by
  obtain ⟨hwords, htake, -⟩ := allocate?_eq_some hallocate
  have htaken := cover_take? htake hwords other
  have hle := h.cover_le other
  rw [isFree_iff, isFree_iff]
  by_cases hinside : address ≤ other ∧ other < address + words
  · rw [share_of_mem hinside] at htaken
    omega
  · rw [share_of_not_mem hinside] at htaken
    omega

/-- A live block is apart from the free ones. -/
theorem apart (h : heap.Tiles region) (hlive : block ∈ heap.live) :
    ∀ other ∈ heap.free, other.stop ≤ block.start ∨ block.stop ≤ other.start := by
  intro other hfree
  refine Decidable.byContradiction fun hmeets => ?_
  have hblock := h.live block hlive
  have hother := h.free.nonempty other hfree
  -- The first word that the two share would lie in both.
  have hle := h.cover_le (max block.start other.start)
  have hfirst : 0 < Extent.cover heap.live (max block.start other.start) :=
    cover_pos.2 ⟨block, hlive, by omega, by omega⟩
  have hsecond : 0 < Extent.cover heap.free (max block.start other.start) :=
    cover_pos.2 ⟨other, hfree, by omega, by omega⟩
  omega

theorem cover_release (h : heap.Tiles region) (hlive : block ∈ heap.live) (other : Nat) :
    Extent.cover (give block heap.free) other =
        Extent.cover heap.free other + block.share other ∧
      Extent.cover heap.live other =
        Extent.cover (heap.live.erase block) other + block.share other := by
  constructor
  · exact cover_give (Nat.le_of_lt (h.live block hlive))
      (fun found hfound => Nat.le_of_lt (h.free.nonempty found hfound)) other
  · rw [cover_perm (List.perm_cons_erase hlive), cover_cons]

theorem release (h : heap.Tiles region) (hrelease : heap.release? address = some (size, heap')) :
    heap'.Tiles region := by
  obtain ⟨block, hlive, -, -, rfl⟩ := release?_eq_some hrelease
  exact
    { free := ascending_give (h.live block hlive) h.free (h.apart hlive)
      live := fun other hmem => h.live other (List.mem_of_mem_erase hmem)
      cover := fun other => by
        obtain ⟨hgiven, herased⟩ := h.cover_release hlive other
        have hcover := h.cover other
        rw [cover_append] at hcover ⊢
        simp only
        omega }

/-- A live block is the only one at its address. -/
theorem not_mem_erase (h : heap.Tiles region) (hlive : block ∈ heap.live) {other : Extent}
    (hstart : other.start = block.start) : other ∉ heap.live.erase block := by
  intro hmem
  -- Two blocks at one address would share their first word.
  obtain ⟨-, herased⟩ := h.cover_release hlive block.start
  have hblock := h.live block hlive
  have hother := h.live other (List.mem_of_mem_erase hmem)
  have hpos : 0 < Extent.cover (heap.live.erase block) block.start :=
    cover_pos.2 ⟨other, hmem, by omega, by omega⟩
  rw [share_of_mem ⟨Nat.le_refl _, hblock⟩] at herased
  have hle := h.cover_le block.start
  omega

/-- A release frees the words of the block that begins at the address and takes no other block off
the live ones. -/
theorem isFree_release (h : heap.Tiles region)
    (hrelease : heap.release? address = some (size, heap')) :
    (∀ other, heap'.IsFree other ↔
        heap.IsFree other ∨ (address ≤ other ∧ other < address + size)) ∧
      ∀ block, block ∈ heap'.live ↔ block ∈ heap.live ∧ block.start ≠ address := by
  obtain ⟨block, hlive, rfl, rfl, rfl⟩ := release?_eq_some hrelease
  have hnonempty := h.live block hlive
  have hstop : block.start + block.size = block.stop := by
    unfold Extent.size
    omega
  constructor
  · intro other
    obtain ⟨hgiven, -⟩ := h.cover_release hlive other
    rw [isFree_iff, isFree_iff, hstop, hgiven]
    by_cases hinside : block.start ≤ other ∧ other < block.stop
    · rw [share_of_mem hinside]
      omega
    · rw [share_of_not_mem hinside]
      omega
  · intro other
    constructor
    · intro hmem
      exact ⟨List.mem_of_mem_erase hmem, fun hstart => h.not_mem_erase hlive hstart hmem⟩
    · rintro ⟨hmem, hstart⟩
      exact (List.mem_erase_of_ne fun heq => hstart (congrArg Extent.start heq)).2 hmem

theorem serve (h : heap.Tiles region) (request : Request) : (heap.serve request).Tiles region := by
  cases request with
  | allocate words =>
      simp only [Heap.serve]
      split
      · next hallocate => exact h.allocate hallocate
      · exact h
  | release address =>
      simp only [Heap.serve]
      split
      · next hrelease => exact h.release hrelease
      · exact h

theorem serveAll (h : heap.Tiles region) (requests : List Request) :
    (heap.serveAll requests).Tiles region := by
  induction requests generalizing heap with
  | nil => exact h
  | cons request rest ih => exact ih (h.serve request)

/-- With no block live, the region is one free block. -/
theorem free_eq (h : heap.Tiles region) (hregion : region.start < region.stop)
    (hlive : heap.live = []) : heap.free = [region] := by
  have hinside : ∀ block ∈ heap.free, region.start ≤ block.start ∧ block.stop ≤ region.stop :=
    fun block hmem => h.inside (List.mem_append_left _ hmem)
  have hcovered : ∀ i < region.stop - region.start,
      0 < Extent.cover heap.free (region.start + i) := by
    intro i hi
    have hcover := h.cover (region.start + i)
    rw [hlive, List.append_nil, share_of_mem (by omega)] at hcover
    omega
  obtain ⟨whole, hwhole, hstart, hstop⟩ := h.free.exists_block (by omega) hcovered
  have hall : ∀ block ∈ heap.free, block = whole := by
    intro block hmem
    have hbounds := hinside block hmem
    have hnonempty := h.free.nonempty block hmem
    rcases h.free.eq_or_apart hmem hwhole with heq | hapart | hapart
    · exact heq
    · omega
    · omega
  have hbounds := hinside whole hwhole
  obtain rfl : whole = region := by
    cases whole
    cases region
    simp only [Extent.mk.injEq] at hstart hstop hbounds hregion ⊢
    omega
  cases hfree : heap.free with
  | nil =>
      rw [hfree] at hwhole
      cases hwhole
  | cons first rest =>
      rw [hfree] at hall
      obtain ⟨rfl, hrest⟩ := List.forall_mem_cons.1 hall
      cases rest with
      | nil => rfl
      | cons second rest =>
          have hascending := h.free
          rw [hfree] at hascending
          obtain rfl := hrest second List.mem_cons_self
          have := (Ascending.cons_iff.1 hascending).2.1 _ List.mem_cons_self
          omega

end Tiles

/-! ## All requests -/

/-- What a heap does, told by the free words alone. -/
structure RefinesBitmap (region : Extent) (heap : Heap) : Prop where
  tiles : heap.Tiles region
  inside : ∀ block ∈ heap.free ++ heap.live,
    region.start ≤ block.start ∧ block.stop ≤ region.stop
  /-- A block is placed at the lowest address with room. -/
  allocates : ∀ words address, 0 < words →
    ((∃ heap', heap.allocate? words = some (address, heap')) ↔
      heap.HasRoom words address ∧ ∀ lower < address, ¬heap.HasRoom words lower)
  exhausted : ∀ words, 0 < words →
    (heap.allocate? words = none ↔ ¬∃ address, heap.HasRoom words address)
  taken : ∀ words address heap', heap.allocate? words = some (address, heap') →
    heap'.live = { start := address, stop := address + words } :: heap.live ∧
      ∀ other, heap'.IsFree other ↔
        heap.IsFree other ∧ ¬(address ≤ other ∧ other < address + words)
  releases : ∀ address size, (∃ heap', heap.release? address = some (size, heap')) ↔
    ∃ block ∈ heap.live, block.start = address ∧ block.size = size
  freed : ∀ address size heap', heap.release? address = some (size, heap') →
    (∀ other, heap'.IsFree other ↔
        heap.IsFree other ∨ (address ≤ other ∧ other < address + size)) ∧
      ∀ block, block ∈ heap'.live ↔ block ∈ heap.live ∧ block.start ≠ address
  refused : ∀ address, (∀ block ∈ heap.live, block.start ≠ address) →
    heap.release? address = none ∧ heap.serve (.release address) = heap
  whole : heap.live = [] → heap.free = [region]

theorem Tiles.allocates (h : heap.Tiles region) (hwords : 0 < words) (address : Nat) :
    (∃ heap', heap.allocate? words = some (address, heap')) ↔
      heap.HasRoom words address ∧ ∀ lower < address, ¬heap.HasRoom words lower := by
  constructor
  · rintro ⟨heap', hallocate⟩
    exact h.hasRoom hallocate
  · rintro ⟨hroom, hlowest⟩
    obtain ⟨⟨found, heap'⟩, hallocate⟩ :=
      Option.ne_none_iff_exists'.1 (h.isSome_allocate? hwords hroom)
    obtain ⟨hfound, hlower⟩ := h.hasRoom hallocate
    obtain rfl : found = address := Nat.le_antisymm
      (Nat.le_of_not_lt fun hlt => hlower address hlt hroom)
      (Nat.le_of_not_lt fun hlt => hlowest found hlt hfound)
    exact ⟨heap', hallocate⟩

theorem Tiles.releases (h : heap.Tiles region) (address size : Nat) :
    (∃ heap', heap.release? address = some (size, heap')) ↔
      ∃ block ∈ heap.live, block.start = address ∧ block.size = size := by
  constructor
  · rintro ⟨heap', hrelease⟩
    obtain ⟨block, hlive, hstart, hsize, -⟩ := release?_eq_some hrelease
    exact ⟨block, hlive, hstart, hsize⟩
  · rintro ⟨block, hlive, hstart, rfl⟩
    cases hrelease : heap.release? address with
    | none => exact absurd hstart (release?_eq_none.1 hrelease block hlive)
    | some found =>
        obtain ⟨size, heap'⟩ := found
        obtain ⟨other, hother, hstart', rfl, -⟩ := release?_eq_some hrelease
        have hsame : block = other := Decidable.byContradiction fun hne =>
          h.not_mem_erase hother (hstart.trans hstart'.symm) ((List.mem_erase_of_ne hne).2 hlive)
        exact ⟨heap', by rw [hsame]⟩

/-- Whatever has been asked of it, a heap answers as the bitmap of its free words says. -/
theorem refinesBitmap_serveAll (hregion : region.start < region.stop) (requests : List Request) :
    ((ofRegion region).serveAll requests).RefinesBitmap region := by
  have htiles := (tiles_ofRegion region).serveAll requests
  generalize (ofRegion region).serveAll requests = heap at htiles
  exact
    { tiles := htiles
      inside := fun block hmem => htiles.inside hmem
      allocates := fun words address hwords => htiles.allocates hwords address
      exhausted := fun words hwords => by
        constructor
        · rintro hnone ⟨address, hroom⟩
          exact htiles.isSome_allocate? hwords hroom hnone
        · intro hfull
          cases hallocate : heap.allocate? words with
          | none => rfl
          | some found => exact absurd ⟨_, (htiles.hasRoom hallocate).1⟩ hfull
      taken := fun words address heap' hallocate =>
        ⟨(allocate?_eq_some hallocate).2.2, htiles.isFree_allocate hallocate⟩
      releases := htiles.releases
      freed := fun address size heap' hrelease => htiles.isFree_release hrelease
      refused := fun address hnone => by
        have hrelease := release?_eq_none.2 hnone
        exact ⟨hrelease, by simp only [Heap.serve, hrelease]⟩
      whole := htiles.free_eq hregion }

theorem refinesBitmap_nine_words : (0 < 9) ∧
    ((ofRegion { start := 0, stop := 9 }).serveAll
      [.allocate 3, .allocate 3, .allocate 3, .release 0, .release 6, .release 4,
        .release 3]).RefinesBitmap { start := 0, stop := 9 } :=
  ⟨by decide, refinesBitmap_serveAll (by decide) _⟩

end Heap

end WordC
