import WordC.Proofs.Machine.Serving

/-!
# Blocks of the heap

What a program holds of the heap can be told from its calls: it holds the blocks that `malloc` gave
it and that it has not passed to `free` since. The machine never asks for more. Whatever else a
program does to its memory, it is given zeros that nobody else holds whenever that is possible, and
it can release what it holds and nothing else.
-/

namespace WordC

namespace Heap

open Extent

variable {region block : Extent} {heap heap' : Heap} {words address : Nat}

/-- Whether an address of the region lies in none of the blocks. -/
def Vacant (region : Extent) (blocks : List Extent) (address : Nat) : Prop :=
  region.contains address = true ∧ ∀ block ∈ blocks, block.contains address = false

namespace Tiles

/-- The free words are those that no live block has. -/
theorem isFree_iff_vacant (h : heap.Tiles region) {blocks : List Extent}
    (hblocks : ∀ block, block ∈ heap.live ↔ block ∈ blocks) :
    heap.IsFree address ↔ Vacant region blocks address := by
  have hcover := h.cover address
  rw [cover_append] at hcover
  have hlive : (∀ block ∈ blocks, block.contains address = false) ↔
      Extent.cover heap.live address = 0 := by
    simp only [← hblocks]
    rw [Extent.cover, List.countP_eq_zero]
    simp only [Bool.not_eq_true]
  rw [isFree_iff, Vacant, hlive]
  by_cases hinside : region.contains address = true
  · rw [share, if_pos hinside] at hcover
    simp only [hinside, true_and]
    omega
  · rw [share, if_neg hinside] at hcover
    exact iff_of_false (by omega) fun hvacant => hinside hvacant.1

theorem apart_of_hasRoom (h : heap.Tiles region) (hwords : 0 < words)
    (hroom : heap.HasRoom words address) (hlive : block ∈ heap.live) :
    block.stop ≤ address ∨ address + words ≤ block.start := by
  refine Decidable.byContradiction fun hmeets => ?_
  have hblock := h.live block hlive
  -- The first word that the two share would be free and in a live block.
  have hfree := hroom (max block.start address - address) (by omega)
  rw [Nat.add_sub_cancel' (Nat.le_max_right _ _)] at hfree
  have hvacant := ((h.isFree_iff_vacant fun _ => Iff.rfl).1 hfree).2 block hlive
  rw [← Bool.not_eq_true, contains_iff] at hvacant
  omega

end Tiles

end Heap

namespace Machine

variable {start m m' : Machine} {entry : Nat} {tracing : Bool} {log : List Served}
  {arguments : List Word}

/-- The blocks that `malloc` returned and that have not been passed to `free` since, the latest
first. -/
def held : List Served → List Extent
  | [] => []
  | ⟨.malloc, arguments, result⟩ :: earlier =>
      if result = 0 then held earlier
      else (Extent.ofWords? result (arguments.getD 0 0)).toList ++ held earlier
  | ⟨.free, arguments, _⟩ :: earlier =>
      (held earlier).filter fun block => (arguments.getD 0 0).count? ≠ some block.start
  | _ :: earlier => held earlier

theorem held_of_other {request : Trap} (hmalloc : request ≠ .malloc) (hfree : request ≠ .free)
    (arguments : List Word) (result : Word) :
    held (⟨request, arguments, result⟩ :: log) = held log := by
  cases request <;> first | rfl | contradiction

/-! ## The two traps -/

theorem count?_zero : Word.count? 0 = some 0 := by
  decide

theorem ofCount_ne_zero {n : Nat} (hpos : 0 < n) (hn : n < 2 ^ 63) : Word.ofCount n ≠ 0 := by
  intro hzero
  have hcount := Word.count?_ofCount hn
  rw [hzero, count?_zero] at hcount
  exact absurd (Option.some.inj hcount) (Nat.ne_of_lt hpos)

/-- A block that is allocated lies in the heap segment. -/
theorem Intact.allocate_bounds (h : m.Intact) {words address : Nat} {heap : Heap}
    (hallocate : m.heap.allocate? words = some (address, heap)) :
    m.layout.heap.start ≤ address ∧ address + words ≤ m.layout.heap.stop := by
  have hlive := (Heap.allocate?_eq_some hallocate).2.2
  have hmem : { start := address, stop := address + words } ∈ heap.live :=
    hlive ▸ List.mem_cons_self
  exact (h.heap.allocate hallocate).inside (List.mem_append_right _ hmem)

theorem Intact.heap_bounds (h : m.Intact) :
    0 < m.layout.heap.start ∧ m.layout.heap.stop ≤ m.layout.poolSize := by
  have hordered := h.sound.ordered
  refine ⟨Nat.lt_of_lt_of_le hordered.text hordered.text_le_heap, ?_⟩
  exact hordered.stack ▸ Nat.le_of_lt hordered.stackStop

theorem malloc_of_none {size : Word}
    (h : ∀ words, size.count? = some words → m.heap.allocate? words = none) :
    malloc size m = .ok 0 m := by
  have hnone : size.count?.bind m.heap.allocate? = none := by
    rw [Option.bind_eq_none_iff]
    exact h
  rw [malloc, get_bind, hnone]
  rfl

theorem malloc_of_some {size : Word} {words address : Nat} {heap : Heap}
    (hcount : size.count? = some words) (h : m.heap.allocate? words = some (address, heap)) :
    malloc size m = .ok (Word.ofCount address)
      (({ m with heap } : Machine).fill { start := address, stop := address + words } 0) := by
  have hsome : size.count?.bind m.heap.allocate? = some (address, heap) := by
    rw [hcount, Option.bind_some, h]
  rw [malloc, get_bind, hsome]
  simp only [hcount, Option.getD_some]
  rfl

theorem free_zero (m : Machine) : free 0 m = .ok 0 m := rfl

theorem free_of_some {pointer : Word} {address size : Nat} {heap : Heap}
    (hcount : pointer.count? = some address) (hpointer : pointer ≠ 0)
    (h : m.heap.release? address = some (size, heap)) :
    free pointer m =
      .ok 0 (({ m with heap } : Machine).report (.blockFreed address size heap.live.length)) := by
  rw [free, if_neg hpointer, get_bind, hcount]
  simp only [h]
  rfl

theorem free_of_none {pointer : Word} (hpointer : pointer ≠ 0)
    (h : ∀ address, pointer.count? = some address → m.heap.release? address = none) :
    free pointer m = .error (m.fault pointer) m := by
  rw [free, if_neg hpointer, get_bind]
  cases hcount : pointer.count? with
  | none => rfl
  | some address =>
      simp only [h address hcount]
      rfl

/-! ## Blocks along a run -/

/-- Whether the live blocks of the heap are those that the program holds. -/
def Tallies (m : Machine) (log : List Served) : Prop :=
  ∀ block, block ∈ m.heap.live ↔ block ∈ held log

namespace Tallies

theorem malloc (h : m.Tallies log) (hintact : m.Intact) (hsmall : m.layout.poolSize < 2 ^ 63)
    {word : Word} (hmalloc : malloc (arguments.getD 0 0) m = .ok word m') :
    m'.Tallies (⟨.malloc, arguments, word⟩ :: log) := by
  by_cases hnone : ∀ words, (arguments.getD 0 0).count? = some words →
      m.heap.allocate? words = none
  · rw [malloc_of_none hnone] at hmalloc
    cases hmalloc
    exact h
  · obtain ⟨words, hcount, hsome⟩ : ∃ words, (arguments.getD 0 0).count? = some words ∧
        m.heap.allocate? words ≠ none := by simpa using hnone
    obtain ⟨⟨address, heap⟩, hallocate⟩ := Option.ne_none_iff_exists'.1 hsome
    rw [malloc_of_some hcount hallocate] at hmalloc
    cases hmalloc
    obtain ⟨hstart, hstop⟩ := hintact.allocate_bounds hallocate
    obtain ⟨hpos, hpool⟩ := hintact.heap_bounds
    have hcounted : (Word.ofCount address).count? = some address := Word.count?_ofCount (by omega)
    have hne : Word.ofCount address ≠ 0 := ofCount_ne_zero (by omega) (by omega)
    have hwords : Extent.ofWords? (Word.ofCount address) (arguments.getD 0 0) =
        some { start := address, stop := address + words } := ofWords?_eq_some hcounted hcount
    intro block
    rw [held, if_neg hne, hwords, Option.toList_some, List.singleton_append, List.mem_cons,
      ← h block]
    change block ∈ heap.live ↔ _
    rw [(Heap.allocate?_eq_some hallocate).2.2, List.mem_cons]

theorem free (h : m.Tallies log) (hintact : m.Intact) {word : Word}
    (hfree : free (arguments.getD 0 0) m = .ok word m') :
    m'.Tallies (⟨.free, arguments, word⟩ :: log) := by
  generalize hpointer : arguments.getD 0 0 = pointer at hfree
  intro block
  rw [held, List.mem_filter, ← h block, hpointer]
  by_cases hzero : pointer = 0
  · subst hzero
    rw [free_zero] at hfree
    cases hfree
    refine (and_iff_left_of_imp fun hlive => ?_).symm
    -- No block begins at zero, where the text is.
    have hinside := hintact.heap.inside (List.mem_append_right _ hlive)
    have hpos := hintact.heap_bounds.1
    rw [count?_zero]
    simp only [ne_eq, Option.some.injEq, decide_not, Bool.not_eq_true', decide_eq_false_iff_not]
    omega
  · by_cases hnone : ∀ address, pointer.count? = some address → m.heap.release? address = none
    · rw [free_of_none hzero hnone] at hfree
      cases hfree
    · obtain ⟨address, hcount, hsome⟩ : ∃ address, pointer.count? = some address ∧
          m.heap.release? address ≠ none := by simpa using hnone
      obtain ⟨⟨size, heap⟩, hrelease⟩ := Option.ne_none_iff_exists'.1 hsome
      rw [free_of_some hcount hzero hrelease] at hfree
      cases hfree
      change block ∈ heap.live ↔ _
      rw [(hintact.heap.isFree_release hrelease).2, hcount, decide_eq_true_iff]
      have hsame := eq_comm.trans (@Option.some_inj _ address block.start).symm
      exact and_congr_right' (not_congr hsame)

theorem serve (h : m.Tallies log) (hintact : m.Intact) (hsmall : m.layout.poolSize < 2 ^ 63)
    {request : Trap} (hserve : serve request arguments m = .ok none m') :
    m'.Tallies (⟨request, arguments, m'.acc⟩ :: log) := by
  obtain ⟨word, answered, hanswer, rfl⟩ := exists_answer hserve
  by_cases hmalloc : request = .malloc
  · subst hmalloc
    have hnext : answered.Tallies (⟨.malloc, arguments, word⟩ :: log) :=
      h.malloc hintact hsmall hanswer
    exact hnext
  by_cases hfree : request = .free
  · subst hfree
    have hnext : answered.Tallies (⟨.free, arguments, word⟩ :: log) := h.free hintact hanswer
    exact hnext
  have hheap := heap_answer hmalloc hfree arguments m
  rw [after_of_ok hanswer] at hheap
  intro block
  rw [held_of_other hmalloc hfree, ← h block]
  exact hheap ▸ Iff.rfl

end Tallies

theorem Underway.tallies (hstart : start.Reached) (hrunnable : start.status.isRunnable)
    (hsmall : start.layout.poolSize < 2 ^ 63) (h : Underway start entry tracing log m) :
    m.Tallies log := by
  obtain ⟨layout, hunspent⟩ := hstart.unspent
  induction h with
  | begin =>
      intro block
      change block ∈ start.heap.live ↔ _
      rw [(hstart.pristine hrunnable).heap]
      exact Iff.rfl
  | @step log m m' h hstep ih =>
      have hintact := h.intactWith hunspent.intact.intact
      rcases served_cases hstep with ⟨request, arguments, hrequests⟩ | ⟨hnone, hheap, -⟩
      · obtain ⟨poised, hpoised, heq⟩ := hrequests.exists_poised hintact.intact tracing
        rw [heq] at hstep
        rw [served_of_requests hrequests]
        have htallies : poised.Tallies log := by
          intro block
          rw [hpoised.heap]
          exact ih block
        refine htallies.serve hpoised.intact ?_ hstep
        rwa [hpoised.layout, hintact.layout]
      · rw [hnone]
        intro block
        rw [hheap]
        exact ih block
  | replace _ host ih => exact ih

/-! ## What programs see -/

/-- What the two traps do for a program that holds these blocks. -/
structure Supplies (m : Machine) (tracing : Bool) (blocks : List Extent) : Prop where
  allocates : ∀ arguments, m.Requests .malloc arguments →
    ∃ m', step tracing m = .ok none m' ∧
      (m'.acc = 0 ↔ arguments.getD 0 0 ≤ 0 ∨
        ¬∃ address, ∀ i < (arguments.getD 0 0).toInt.toNat,
          Heap.Vacant m.layout.heap blocks (address + i)) ∧
      (m'.acc ≠ 0 → ∃ block, Extent.ofWords? m'.acc (arguments.getD 0 0) = some block ∧
        m.layout.heap.start ≤ block.start ∧ block.stop ≤ m.layout.heap.stop ∧
        (∀ address, block.start ≤ address → address < block.stop → m'.memory[address]? = some 0) ∧
        ∀ other ∈ blocks, other.stop ≤ block.start ∨ block.stop ≤ other.start)
  /-- There is nothing to release at zero. -/
  passes : ∀ arguments, m.Requests .free arguments → arguments.getD 0 0 = 0 →
    ∃ m', step tracing m = .ok none m' ∧ m'.acc = 0 ∧ m'.heap = m.heap ∧ m'.memory = m.memory
  releases : ∀ arguments, m.Requests .free arguments →
    (∃ block ∈ blocks, (arguments.getD 0 0).count? = some block.start) →
    ∃ m', step tracing m = .ok none m' ∧ m'.acc = 0 ∧ m'.memory = m.memory
  refuses : ∀ arguments, m.Requests .free arguments → arguments.getD 0 0 ≠ 0 →
    (∀ block ∈ blocks, (arguments.getD 0 0).count? ≠ some block.start) →
    ∃ m', step tracing m = .error (.invalidAccess (arguments.getD 0 0) m.pc) m' ∧
      m'.heap = m.heap ∧ m'.memory = m.memory

variable {size : Word}

theorem count?_of_pos (h : 0 < size) : size.count? = some size.toInt.toNat :=
  if_neg (Int.not_lt.2 (Int.le_of_lt (Int64.lt_iff_toInt_lt.1 h)))

theorem eq_zero_of_count? {words : Nat} (h : ¬0 < size) (hcount : size.count? = some words) :
    words = 0 := by
  have hle := Int64.le_iff_toInt_le.1 (Int64.not_lt.1 h)
  rw [Int64.toInt_zero] at hle
  unfold Word.count? at hcount
  split at hcount
  · cases hcount
  · have := Option.some.inj hcount
    omega

/-- A positive number of words is granted exactly if there is room for them. -/
theorem Intact.isSome_allocate?_iff (h : m.Intact) {blocks : List Extent}
    (hblocks : ∀ block, block ∈ m.heap.live ↔ block ∈ blocks) {words : Nat} (hwords : 0 < words) :
    m.heap.allocate? words ≠ none ↔
      ∃ address, ∀ i < words, Heap.Vacant m.layout.heap blocks (address + i) := by
  constructor
  · intro hsome
    obtain ⟨⟨address, heap⟩, hallocate⟩ := Option.ne_none_iff_exists'.1 hsome
    exact ⟨address, fun i hi =>
      (h.heap.isFree_iff_vacant hblocks).1 ((h.heap.hasRoom hallocate).1 i hi)⟩
  · rintro ⟨address, hvacant⟩
    exact h.heap.isSome_allocate? hwords fun i hi =>
      (h.heap.isFree_iff_vacant hblocks).2 (hvacant i hi)

theorem malloc_meets (h : m.Tallies log) (hintact : m.Intact) (hsmall : m.layout.poolSize < 2 ^ 63)
    (size : Word) :
    ∃ word m', malloc size m = .ok word m' ∧
      (word = 0 ↔ size ≤ 0 ∨ ¬∃ address, ∀ i < size.toInt.toNat,
        Heap.Vacant m.layout.heap (held log) (address + i)) ∧
      (word ≠ 0 → ∃ block, Extent.ofWords? word size = some block ∧
        m.layout.heap.start ≤ block.start ∧ block.stop ≤ m.layout.heap.stop ∧
        (∀ address, block.start ≤ address → address < block.stop → m'.memory[address]? = some 0) ∧
        ∀ other ∈ held log, other.stop ≤ block.start ∨ block.stop ≤ other.start) := by
  by_cases hpos : 0 < size
  · have hcount := count?_of_pos hpos
    have hwords : 0 < size.toInt.toNat := by
      have := Int64.lt_iff_toInt_lt.1 hpos
      rw [Int64.toInt_zero] at this
      omega
    rw [← hintact.isSome_allocate?_iff h hwords]
    cases hallocate : m.heap.allocate? size.toInt.toNat with
    | none =>
        refine ⟨0, m, malloc_of_none fun words hcounted => ?_, ?_, fun hne => absurd rfl hne⟩
        · rw [hcount] at hcounted
          cases hcounted
          exact hallocate
        · exact iff_of_true rfl (.inr fun hne => hne rfl)
    | some found =>
        obtain ⟨address, heap⟩ := found
        obtain ⟨hstart, hstop⟩ := hintact.allocate_bounds hallocate
        obtain ⟨hheap, hpool⟩ := hintact.heap_bounds
        have hcounted : (Word.ofCount address).count? = some address :=
          Word.count?_ofCount (by omega)
        have hne : Word.ofCount address ≠ 0 := ofCount_ne_zero (by omega) (by omega)
        refine ⟨_, _, malloc_of_some hcount hallocate, ?_, fun _ =>
          ⟨_, ofWords?_eq_some hcounted hcount, hstart, hstop, fun other hfirst hlast => ?_, ?_⟩⟩
        · refine iff_of_false hne (not_or.2 ⟨?_, Classical.not_not.2 nofun⟩)
          exact Int64.not_le.2 hpos
        · change (Memory.fill _ _ _ _)[other]? = _
          rw [Memory.getElem?_fill, if_pos]
          have hsize := hintact.sound.size
          change address ≤ other at hfirst
          change other < address + _ at hlast
          change address ≤ other ∧ other < address + (address + _ - address) ∧ other < m.memory.size
          omega
        · intro other hother
          exact hintact.heap.apart_of_hasRoom hwords (hintact.heap.hasRoom hallocate).1
            ((h other).2 hother)
  · refine ⟨0, m, malloc_of_none fun words hcount => ?_, ?_, fun hne => absurd rfl hne⟩
    · exact if_pos (eq_zero_of_count? hpos hcount)
    · exact iff_of_true rfl (.inl (Int64.not_lt.1 hpos))

/-- A block is released by a call that the program may make, and by no other. -/
theorem Tallies.exists_release?_iff (h : m.Tallies log) {address : Nat} :
    m.heap.release? address ≠ none ↔ ∃ block ∈ held log, block.start = address := by
  rw [ne_eq, Heap.release?_eq_none]
  simp only [h _, Classical.not_forall, Classical.not_not, exists_prop]

theorem supplies_of_underway (hstart : start.Reached) (hrunnable : start.status.isRunnable)
    (hsmall : start.layout.poolSize < 2 ^ 63) (h : Underway start entry tracing log m) :
    m.Supplies tracing (held log) := by
  obtain ⟨layout, hunspent⟩ := hstart.unspent
  have hintact := h.intactWith hunspent.intact.intact
  have htallies := h.tallies hstart hrunnable hsmall
  have hpoised {request : Trap} {arguments : List Word} (hrequests : m.Requests request arguments) :
      ∃ poised, m.Poised poised ∧ step tracing m = serve request arguments poised ∧
        poised.Tallies log := by
    obtain ⟨poised, hpoised, heq⟩ := hrequests.exists_poised hintact.intact tracing
    exact ⟨poised, hpoised, heq, fun block => hpoised.heap ▸ htallies block⟩
  refine ⟨?_, ?_, ?_, ?_⟩
  · intro arguments hrequests
    obtain ⟨poised, hpoised, heq, htallies⟩ := hpoised hrequests
    have hlayout : poised.layout.poolSize < 2 ^ 63 := by
      rwa [hpoised.layout, hintact.layout]
    obtain ⟨word, m', hmalloc, hzero, hblock⟩ :=
      malloc_meets htallies hpoised.intact hlayout (arguments.getD 0 0)
    rw [hpoised.layout] at hzero hblock
    exact ⟨_, heq.trans (serve_of_ok hmalloc), hzero, hblock⟩
  · intro arguments hrequests hpointer
    obtain ⟨poised, hpoised, heq, -⟩ := hpoised hrequests
    have hfree : answer .free arguments poised = .ok 0 poised := by
      change free (arguments.getD 0 0) poised = _
      rw [hpointer, free_zero]
    exact ⟨_, heq.trans (serve_of_ok hfree), rfl, hpoised.heap, hpoised.memory⟩
  · rintro arguments hrequests ⟨block, hblock, hcount⟩
    have hpointer : arguments.getD 0 0 ≠ 0 := by
      intro hzero
      rw [hzero, count?_zero] at hcount
      have hstart : 0 = block.start := Option.some.inj hcount
      have hinside := hintact.intact.heap.inside
        (List.mem_append_right _ ((htallies block).2 hblock))
      have hbounds := hintact.intact.heap_bounds
      omega
    obtain ⟨poised, hpoised, heq, htallies⟩ := hpoised hrequests
    obtain ⟨⟨size, heap⟩, hrelease⟩ := Option.ne_none_iff_exists'.1
      (htallies.exists_release?_iff.2 ⟨block, hblock, rfl⟩)
    exact ⟨_, heq.trans (serve_of_ok (free_of_some hcount hpointer hrelease)), rfl, hpoised.memory⟩
  · intro arguments hrequests hpointer hother
    obtain ⟨poised, hpoised, heq, htallies⟩ := hpoised hrequests
    have hfree : answer .free arguments poised =
        .error (poised.fault (arguments.getD 0 0)) poised := by
      refine free_of_none hpointer fun address hcount => ?_
      refine Decidable.byContradiction fun hne => ?_
      obtain ⟨block, hblock, rfl⟩ := htallies.exists_release?_iff.1 hne
      exact hother block hblock hcount
    refine ⟨_, ?_, hpoised.heap, hpoised.memory⟩
    rw [heq, serve_of_error hfree, fault, hpoised.current]

/-- A program that allocates three words, releases them and exits. -/
def allocating : Machine :=
  small.performAll [.emit Opcode.imm.word, .emit 3, .emit Opcode.push.word,
    .emit (Opcode.trap .malloc).word, .emit 1, .emit Opcode.push.word,
    .emit (Opcode.trap .free).word, .emit 1, .emit Opcode.exit.word]

/-- After four steps it holds a block, which the fifth one releases. -/
theorem supplies_allocating :
    allocating.Reached ∧ allocating.status.isRunnable ∧ allocating.layout.poolSize < 2 ^ 63 ∧
    Underway allocating 0 false (allocating.traps 0 false 4)
      (allocating.after (runFrom 0 false 4)) ∧
    (allocating.after (runFrom 0 false 4)).request? = some (.free, [128]) ∧
    held (allocating.traps 0 false 4) = [{ start := 128, stop := 131 }] ∧
    (allocating.after (runFrom 0 false 4)).Supplies false [{ start := 128, stop := 131 }] := by
  have hreached : allocating.Reached := (Reached.create create_small).performAll _
  have hrunnable : allocating.status.isRunnable := by decide +kernel
  have hsmall : allocating.layout.poolSize < 2 ^ 63 := by decide +kernel
  have hunderway : Underway allocating 0 false (allocating.traps 0 false 4)
      (allocating.after (runFrom 0 false 4)) := underway_runFrom hrunnable (by decide +kernel)
  have hheld : held (allocating.traps 0 false 4) = [{ start := 128, stop := 131 }] := by
    decide +kernel
  have hsupplies := supplies_of_underway hreached hrunnable hsmall hunderway
  rw [hheld] at hsupplies
  exact ⟨hreached, hrunnable, hsmall, hunderway, by decide +kernel, hheld, hsupplies⟩

end Machine

end WordC
