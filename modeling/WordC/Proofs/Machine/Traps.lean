import WordC.Proofs.Machine.Answers

/-!
# What traps leave alone

A trap may write where the program tells it to, and nowhere else: the text is safe from it, and the
stack as long as the span that a program passes to `memset` or `read` does not reach into it. What
`malloc` clears lies in the heap. A trap can fail only for a word that the program has passed to it.
-/

namespace WordC

open Text.Utf8 (Bytes)

/-- Whether an extent has a word of another one. -/
def Extent.Meets (extent other : Extent) : Prop :=
  extent.start < extent.stop ∧ extent.start < other.stop ∧ other.start < extent.stop

/-- The words of memory that a program names by an address and a count. -/
def Extent.ofWords? (start size : Word) : Option Extent := do
  let first ← start.count?
  let count ← size.count?
  some { start := first, stop := first + count }

/-- The span of memory that a trap writes to on behalf of the program. -/
def Trap.span? (request : Trap) (arguments : List Word) : Option Extent :=
  match request with
  | .memset => Extent.ofWords? (arguments.getD 0 0) (arguments.getD 2 0)
  | .read => Extent.ofWords? (arguments.getD 1 0) (arguments.getD 2 0)
  | _ => none

/-! ## The heap -/

namespace Heap

/-- All blocks lie in the region. -/
structure Inside (region : Extent) (heap : Heap) : Prop where
  free : ∀ block ∈ heap.free, region.start ≤ block.start ∧ block.stop ≤ region.stop
  live : ∀ block ∈ heap.live, region.start ≤ block.start ∧ block.stop ≤ region.stop

variable {region : Extent} {heap heap' : Heap}

theorem inside_ofRegion (region : Extent) : (ofRegion region).Inside region := by
  constructor
  · intro block hmem
    unfold ofRegion at hmem
    by_cases hempty : region.size = 0
    · rw [if_pos hempty] at hmem
      cases hmem
    · rw [if_neg hempty] at hmem
      obtain rfl := List.mem_singleton.1 hmem
      exact ⟨Nat.le_refl _, Nat.le_refl _⟩
  · intro block hmem
    cases hmem

theorem inside_of_take? {words address : Nat} {blocks rest : List Extent} (hwords : 0 < words)
    (hblocks : ∀ block ∈ blocks, region.start ≤ block.start ∧ block.stop ≤ region.stop)
    (h : take? words blocks = some (address, rest)) :
    region.start ≤ address ∧ address + words ≤ region.stop ∧
      ∀ block ∈ rest, region.start ≤ block.start ∧ block.stop ≤ region.stop := by
  induction blocks generalizing address rest with
  | nil => cases h
  | cons block blocks ih =>
      have hblock := hblocks block List.mem_cons_self
      have hothers := fun other hmem => hblocks other (List.mem_cons_of_mem _ hmem)
      unfold take? at h
      by_cases hall : words = block.size
      · rw [if_pos hall] at h
        cases h
        unfold Extent.size at hall
        exact ⟨hblock.1, by omega, hothers⟩
      · rw [if_neg hall] at h
        by_cases hsome : words < block.size
        · rw [if_pos hsome] at h
          cases h
          unfold Extent.size at hsome
          refine ⟨hblock.1, by omega, List.forall_mem_cons.2 ⟨⟨?_, hblock.2⟩, hothers⟩⟩
          simp only
          omega
        · rw [if_neg hsome] at h
          obtain ⟨⟨found, others⟩, htake, heq⟩ := Option.map_eq_some_iff.1 h
          cases heq
          obtain ⟨hstart, hstop, hrest⟩ := ih hothers htake
          exact ⟨hstart, hstop, List.forall_mem_cons.2 ⟨hblock, hrest⟩⟩

theorem Inside.allocate {words address : Nat} (h : heap.Inside region)
    (hallocate : heap.allocate? words = some (address, heap')) :
    region.start ≤ address ∧ address + words ≤ region.stop ∧ heap'.Inside region := by
  unfold allocate? at hallocate
  by_cases hzero : words = 0
  · rw [if_pos hzero] at hallocate
    cases hallocate
  · rw [if_neg hzero] at hallocate
    obtain ⟨⟨found, free⟩, htake, heq⟩ := Option.map_eq_some_iff.1 hallocate
    cases heq
    obtain ⟨hstart, hstop, hfree⟩ := inside_of_take? (by omega) h.free htake
    exact ⟨hstart, hstop, hfree, List.forall_mem_cons.2 ⟨⟨hstart, hstop⟩, h.live⟩⟩

theorem inside_give {block : Extent} {blocks : List Extent}
    (hblock : region.start ≤ block.start ∧ block.stop ≤ region.stop)
    (hblocks : ∀ other ∈ blocks, region.start ≤ other.start ∧ other.stop ≤ region.stop) :
    ∀ other ∈ give block blocks, region.start ≤ other.start ∧ other.stop ≤ region.stop := by
  intro other hmem
  have hall : ∀ other ∈ block :: blocks, region.start ≤ other.start ∧ other.stop ≤ region.stop :=
    List.forall_mem_cons.2 ⟨hblock, hblocks⟩
  obtain ⟨first, hfirst, last, hlast, hstart, hstop⟩ := mem_give hmem
  rw [hstart, hstop]
  exact ⟨(hall first hfirst).1, (hall last hlast).2⟩

theorem Inside.release {address size : Nat} (h : heap.Inside region)
    (hrelease : heap.release? address = some (size, heap')) : heap'.Inside region := by
  obtain ⟨block, hfind, hsome⟩ := Option.bind_eq_some_iff.1 hrelease
  cases hsome
  have hblock := h.live block (List.mem_of_find?_eq_some hfind)
  exact ⟨inside_give hblock h.free,
    fun other hmem => h.live other (List.mem_of_mem_erase hmem)⟩

end Heap

namespace Machine

variable {m m' : Machine} {faulty : Word → Prop} {clear : Prop}

/-! ## Sparing text and stack -/

/-- The machine differs in nothing that the code of a program relies on. -/
structure Spares (m m' : Machine) : Prop where
  layout : m'.layout = m.layout
  textEnd : m'.textEnd = m.textEnd
  cycleLimit : m'.cycleLimit = m.cycleLimit
  pc : m'.pc = m.pc
  sp : m'.sp = m.sp
  bp : m'.bp = m.bp
  size : m'.memory.size = m.memory.size
  text : ∀ address < m.layout.text.stop, m'.memory[address]? = m.memory[address]?
  stack : ∀ address, m.layout.stack.start ≤ address → m'.memory[address]? = m.memory[address]?
  heap : m.heap.Inside m.layout.heap → m'.heap.Inside m'.layout.heap

theorem spares_host (m : Machine) (host : Host) (descriptors : Descriptors) :
    m.Spares { m with host, descriptors } where
  layout := rfl
  textEnd := rfl
  cycleLimit := rfl
  pc := rfl
  sp := rfl
  bp := rfl
  size := rfl
  text := fun _ _ => rfl
  stack := fun _ _ => rfl
  heap := id

/-- Words are copied to a span that belongs neither to the text nor to the stack. -/
theorem spares_copy (m : Machine) (host : Host) (descriptors : Descriptors) {start : Nat}
    {words : List Word} (htext : words ≠ [] → m.layout.text.stop ≤ start)
    (hstack : words ≠ [] → start + words.length ≤ m.layout.stack.start ∨
      m.layout.stack.stop ≤ start) (hsize : m.memory.size ≤ m.layout.stack.stop) :
    m.Spares { m with host, descriptors, memory := Memory.copy m.memory start words } where
  layout := rfl
  textEnd := rfl
  cycleLimit := rfl
  pc := rfl
  sp := rfl
  bp := rfl
  size := Memory.size_copy _ _ _
  text := by
    intro address haddress
    by_cases hnone : words = []
    · rw [hnone]
      rfl
    · exact Memory.getElem?_copy_of_lt (Nat.lt_of_lt_of_le haddress (htext hnone))
  stack := by
    intro address haddress
    by_cases hnone : words = []
    · rw [hnone]
      rfl
    · have := hstack hnone
      change (Memory.copy m.memory start words)[address]? = _
      rw [Memory.getElem?_copy, if_neg (by omega)]
  heap := id

/-- How a trap may answer: it fails for one of the faulty words, or it spares text and stack if what
it writes to is clear of them. -/
def Answers (m : Machine) (faulty : Word → Prop) (clear : Prop)
    (result : EStateM.Result Error Machine Word) : Prop :=
  match result with
  | .ok _ m' => clear → m.Spares m'
  | .error error _ => ∃ word, faulty word ∧ error = m.fault word

theorem Answers.mono {faulty' : Word → Prop}
    {result : EStateM.Result Error Machine Word} (h : m.Answers faulty clear result)
    (hsub : ∀ word, faulty word → faulty' word) : m.Answers faulty' clear result := by
  cases result with
  | ok value m' => exact h
  | error error m' =>
      obtain ⟨word, hword, herror⟩ := h
      exact ⟨word, hsub word hword, herror⟩

/-- The bytes at a word are those of the memory from there on, if the word is an address. -/
theorem bytesAt_cases (word : Word) :
    (∃ address, word.count?.filter (· < m.memory.size) = some address ∧
      bytesAt word m = .ok (Memory.bytes m.memory address) m) ∨
    word.count?.filter (· < m.memory.size) = none ∧
      bytesAt word m = .error (m.fault word) m := by
  cases hinside : word.count?.filter (· < m.memory.size) with
  | some address =>
      have haddress : Machine.address word m = .ok address m := by rw [Machine.address, hinside]
      exact .inl ⟨address, rfl, by rw [bytesAt, bind_of_ok haddress]; rfl⟩
  | none =>
      have haddress : Machine.address word m = .error (m.fault word) m := by
        rw [Machine.address, hinside]
      exact .inr ⟨rfl, by rw [bytesAt, bind_of_error haddress]⟩

theorem bytesAt_eq (word : Word) :
    (∃ bytes, bytesAt word m = .ok bytes m) ∨ bytesAt word m = .error (m.fault word) m := by
  rcases bytesAt_cases (m := m) word with ⟨address, -, hbytes⟩ | ⟨-, hfault⟩
  · exact .inl ⟨_, hbytes⟩
  · exact .inr hfault

theorem answers_openFile (path flags : Word) :
    m.Answers (· = path) clear (openFile path flags m) := by
  rcases bytesAt_eq (m := m) path with ⟨bytes, hbytes⟩ | hfault
  · rw [openFile_of_bytesAt hbytes]
    cases openModeOf? flags with
    | none => exact fun _ => spares_host m m.host m.descriptors
    | some mode =>
        intro _
        unfold opened
        cases (m.host.openFile (Text.Utf8.decode bytes) mode).1 with
        | error error => exact spares_host m _ m.descriptors
        | ok handle => exact spares_host m _ _
  · rw [openFile, bind_of_error hfault]
    exact ⟨path, rfl, rfl⟩

/-! ## Spans -/

theorem ofWords?_eq_some {start size : Word} {first count : Nat}
    (hfirst : start.count? = some first)
    (hcount : size.count? = some count) :
    Extent.ofWords? start size = some { start := first, stop := first + count } := by
  rw [Extent.ofWords?, hfirst, hcount]
  rfl

theorem writable_cases (hordered : m.layout.Ordered) (start size : Word) :
    (∃ extent, Extent.ofWords? start size = some extent ∧ extent.stop ≤ m.memory.size ∧
        (extent.start < extent.stop → m.layout.text.stop ≤ extent.start) ∧
        writable start size m = .ok extent m) ∨
      writable start size m = .error (m.fault start) m := by
  unfold writable
  cases hread : readable start size m with
  | error error m' =>
      rw [bind_of_error hread]
      unfold readable at hread
      split at hread
      · split at hread
        · cases hread
        · cases hread
          exact .inr rfl
      · cases hread
        exact .inr rfl
  | ok extent m' =>
      rw [bind_of_ok hread]
      unfold readable at hread
      split at hread
      · next first count hfirst hcount =>
          split at hread
          · next hsize =>
              cases hread
              rw [get_bind]
              have htext := hordered.textStart
              by_cases hwritten : 0 < Extent.size ⟨first, first + count⟩ ∧
                  first < m.layout.text.stop ∧ m.layout.text.start < first + count
              · rw [if_pos hwritten]
                exact .inr rfl
              · rw [if_neg hwritten]
                refine .inl ⟨_, ofWords?_eq_some hfirst hcount, hsize, fun hnonempty => ?_, rfl⟩
                simp only [Extent.size] at hwritten hnonempty ⊢
                omega
          · cases hread
      · cases hread

/-- What a span allows to be overwritten. -/
theorem spares_span (host : Host) (descriptors : Descriptors) {extent : Extent} {words : List Word}
    (hlength : words.length ≤ extent.size)
    (htext : extent.start < extent.stop → m.layout.text.stop ≤ extent.start)
    (hstack : ¬extent.Meets m.layout.stack) (hsize : m.memory.size ≤ m.layout.stack.stop) :
    m.Spares { m with host, descriptors, memory := Memory.copy m.memory extent.start words } := by
  unfold Extent.size at hlength
  unfold Extent.Meets at hstack
  have hnonempty : words ≠ [] → extent.start < extent.stop := by
    intro hne
    have := List.length_pos_iff.2 hne
    omega
  refine spares_copy m host descriptors (fun hne => htext (hnonempty hne)) (fun hne => ?_) hsize
  have := hnonempty hne
  omega

section Storage

variable (hordered : m.layout.Ordered) (hsize : m.memory.size ≤ m.layout.stack.stop)

include hordered hsize

theorem answers_readInto (descriptor buffer size : Word) :
    m.Answers (· = buffer)
      (∀ extent, Extent.ofWords? buffer size = some extent → ¬extent.Meets m.layout.stack)
      (readInto descriptor buffer size m) := by
  rcases writable_cases hordered buffer size with
    ⟨extent, hextent, -, htext, hwritable⟩ | hfault
  · rw [readInto_of_writable hwritable]
    cases m.descriptors.stream? descriptor with
    | none => exact fun _ => spares_host m m.host m.descriptors
    | some stream =>
        intro hclear
        unfold filled
        cases hread : (m.host.read stream extent.size).1 with
        | none => exact spares_host m _ m.descriptors
        | some bytes =>
            refine spares_span _ m.descriptors ?_ htext (hclear extent hextent) hsize
            rw [List.length_map]
            exact Host.length_of_read hread
  · rw [readInto, bind_of_error hfault]
    exact ⟨buffer, rfl, rfl⟩

theorem answers_memset (pointer value size : Word) :
    m.Answers (· = pointer)
      (∀ extent, Extent.ofWords? pointer size = some extent → ¬extent.Meets m.layout.stack)
      (memset pointer value size m) := by
  unfold memset
  rcases writable_cases hordered pointer size with
    ⟨extent, hextent, -, htext, hwritable⟩ | hfault
  · rw [bind_of_ok hwritable, modify_bind]
    intro hclear
    unfold fill
    rw [Memory.fill_eq_copy]
    exact spares_span m.host m.descriptors (Nat.le_of_eq List.length_replicate) htext
      (hclear extent hextent) hsize
  · rw [bind_of_error hfault]
    exact ⟨pointer, rfl, rfl⟩

theorem answers_malloc (hheap : m.heap.Inside m.layout.heap) (size : Word) :
    m.Answers (fun _ => False) clear (malloc size m) := by
  unfold malloc
  rw [get_bind]
  cases hcount : size.count? with
  | none => exact fun _ => spares_host m m.host m.descriptors
  | some words =>
      rw [Option.bind_some]
      cases hallocate : m.heap.allocate? words with
      | none => exact fun _ => spares_host m m.host m.descriptors
      | some found =>
          obtain ⟨address, heap⟩ := found
          obtain ⟨hstart, hstop, hinside⟩ := hheap.allocate hallocate
          have hdata := hordered.data
          have hdataStop := hordered.dataStop
          have hheapStart := hordered.heap
          have hstack := hordered.stack
          intro _
          change m.Spares ({ m with heap }.fill { start := address, stop := address + words } 0)
          unfold fill
          rw [Memory.fill_eq_copy]
          have hspares := @spares_copy m m.host m.descriptors address
            (List.replicate (Extent.size ⟨address, address + words⟩) 0)
            (fun _ => by omega)
            (fun _ => by
              rw [List.length_replicate]
              simp only [Extent.size]
              omega) hsize
          exact { hspares with heap := fun _ => hinside }

end Storage

theorem answers_closeFile (descriptor : Word) :
    m.Answers (fun _ => False) clear (closeFile descriptor m) := by
  unfold closeFile
  rw [get_bind]
  cases m.descriptors.close? descriptor with
  | none => exact fun _ => spares_host m m.host m.descriptors
  | some descriptors => exact fun _ => spares_host m m.host descriptors

theorem answers_free (pointer : Word) : m.Answers (· = pointer) clear (free pointer m) := by
  unfold free
  by_cases hzero : pointer = 0
  · rw [if_pos hzero]
    exact fun _ => spares_host m m.host m.descriptors
  · rw [if_neg hzero, get_bind]
    cases pointer.count? with
    | none => exact ⟨pointer, rfl, rfl⟩
    | some address =>
        simp only
        cases hrelease : m.heap.release? address with
        | none => exact ⟨pointer, rfl, rfl⟩
        | some found =>
            obtain ⟨size, heap⟩ := found
            have hspares := spares_host m
              (m.host.report (.blockFreed address size heap.live.length)) m.descriptors
            exact fun _ => { hspares with heap := fun hinside => hinside.release hrelease }

theorem answers_memcmp (left right size : Word) :
    m.Answers (fun word => word = left ∨ word = right) clear (memcmp left right size m) := by
  have hcases : ∀ start, (∃ extent, readable start size m = .ok extent m) ∨
      readable start size m = .error (m.fault start) m := by
    intro start
    unfold readable
    split
    · split
      · exact .inl ⟨_, rfl⟩
      · exact .inr rfl
    · exact .inr rfl
  unfold memcmp
  rcases hcases left with ⟨first, hfirst⟩ | hfault
  · rw [bind_of_ok hfirst]
    rcases hcases right with ⟨second, hsecond⟩ | hfault
    · rw [bind_of_ok hsecond]
      exact fun _ => spares_host m m.host m.descriptors
    · rw [bind_of_error hfault]
      exact ⟨right, .inr rfl, rfl⟩
  · rw [bind_of_error hfault]
    exact ⟨left, .inl rfl, rfl⟩

/-! ## Output -/

/-- A template fails only where a string that it prints cannot be read. -/
theorem error_of_render {read : Word → Except Error Bytes} {pieces : List Template.Piece}
    {values : List Word} {error : Error} (h : Template.render read pieces values = .error error) :
    ∃ word, (word ∈ values ∨ word = 0) ∧ read word = .error error := by
  induction pieces generalizing values with
  | nil => cases h
  | cons piece rest ih =>
      cases piece with
      | literal bytes =>
          rw [Template.render] at h
          cases hrest : Template.render read rest values with
          | ok text =>
              rw [hrest] at h
              cases h
          | error found =>
              rw [hrest] at h
              cases h
              exact ih hrest
      | field field =>
          rw [Template.render] at h
          cases hfield : field.render read (values.headD 0) with
          | error found =>
              rw [hfield] at h
              cases h
              refine ⟨values.headD 0, ?_, ?_⟩
              · cases values with
                | nil => exact .inr rfl
                | cons value others => exact .inl List.mem_cons_self
              · unfold Template.Field.render at hfield
                cases hconversion : field.conversion.render read (values.headD 0) with
                | ok bytes =>
                    rw [hconversion] at hfield
                    cases hfield
                | error found =>
                    rw [hconversion] at hfield
                    cases hfield
                    cases hletter : field.conversion with
                    | string =>
                        rw [hletter] at hconversion
                        exact hconversion
                    | _ =>
                        rw [hletter] at hconversion
                        cases hconversion
          | ok text =>
              rw [hfield] at h
              cases hrest : Template.render read rest values.tail with
              | ok more =>
                  rw [hrest] at h
                  cases h
              | error found =>
                  rw [hrest] at h
                  cases h
                  obtain ⟨word, hword, hread⟩ := ih hrest
                  exact ⟨word, hword.imp_left List.mem_of_mem_tail, hread⟩

/-- There is always a string at address zero. -/
theorem bytesAt_zero (hsize : 0 < m.memory.size) : ∃ bytes, bytesAt 0 m = .ok bytes m := by
  rcases bytesAt_eq (m := m) 0 with hbytes | hfault
  · exact hbytes
  · have haddress : Machine.address 0 m = .ok 0 m := by
      have hfilter : (some 0).filter (fun address => address < m.memory.size) = some 0 := by
        simp [hsize]
      rw [Machine.address, show Word.count? 0 = some 0 by decide, hfilter]
    rw [bytesAt, bind_of_ok haddress] at hfault
    cases hfault

theorem answers_printf (hsize : 0 < m.memory.size) (arguments : List Word) :
    m.Answers (· ∈ arguments) clear (printf arguments m) := by
  cases arguments with
  | nil => exact fun _ => spares_host m m.host m.descriptors
  | cons template values =>
      rw [printf]
      rcases bytesAt_eq (m := m) template with ⟨bytes, hbytes⟩ | hfault
      · rw [bind_of_ok hbytes, get_bind]
        cases hformat : m.format bytes values with
        | ok text => exact fun _ => spares_host m _ m.descriptors
        | error error =>
            obtain ⟨word, hword, hread⟩ := error_of_render hformat
            have hfault : bytesAt word m = .error (m.fault word) m := by
              rcases bytesAt_eq (m := m) word with ⟨found, hfound⟩ | hfault
              · rw [hfound] at hread
                cases hread
              · exact hfault
            rw [hfault] at hread
            cases hread
            refine ⟨word, ?_, rfl⟩
            rcases hword with hmem | rfl
            · exact List.mem_cons_of_mem _ hmem
            · obtain ⟨found, hfound⟩ := bytesAt_zero hsize
              rw [hfound] at hfault
              cases hfault
      · rw [bind_of_error hfault]
        exact ⟨template, List.mem_cons_self, rfl⟩

/-! ## All traps -/

/-- The arguments on the stack, in the order in which they were pushed. -/
def arguments (m : Machine) (count : Nat) : List Word :=
  (m.words { start := m.sp, stop := m.sp + count }).reverse

theorem popArguments_eq {n : Nat} (hsmall : n < 2 ^ 63) (h : m.sp + n ≤ m.layout.stack.stop) :
    popArguments (Word.ofCount n) m = .ok (m.arguments n) { m with sp := m.sp + n } := by
  rw [popArguments, bind_of_ok (count_eq hsmall), get_bind]
  simp only
  rw [if_neg (by omega)]
  rfl

theorem length_arguments {n : Nat} (h : m.sp + n ≤ m.memory.size) :
    (m.arguments n).length = n := by
  rw [arguments, List.length_reverse, words, Array.length_toList, Array.size_extract]
  simp only
  omega

theorem answers_trap (hordered : m.layout.Ordered) (hsize : m.memory.size = m.layout.stack.stop)
    (hheap : m.heap.Inside m.layout.heap) {n : Nat} (hsmall : n < 2 ^ 63)
    (hpop : m.sp + n ≤ m.layout.stack.stop) (request : Trap)
    (harity : request.arity?.all (· == n) = true) :
    Answers { m with sp := m.sp + n } (· ∈ m.arguments n)
      (∀ extent, request.span? (m.arguments n) = some extent → ¬extent.Meets m.layout.stack)
      (trap request (Word.ofCount n) m) := by
  have hlength := length_arguments (hsize ▸ hpop)
  have hmem : ∀ index < n, (m.arguments n).getD index 0 ∈ m.arguments n := by
    intro index hindex
    rw [List.getD_eq_getElem?_getD, List.getElem?_eq_getElem (by omega)]
    exact List.getElem_mem _
  have hpool : 0 < m.memory.size := by
    have := hordered.stackStop
    omega
  let inner : Machine := { m with sp := m.sp + n }
  rw [trap, bind_of_ok (popArguments_eq hsmall hpop)]
  cases request with
  | «open» =>
      obtain rfl : 2 = n := by simpa [Trap.arity?] using harity
      refine (answers_openFile (m := inner) _ _).mono ?_
      rintro _ rfl
      exact hmem 0 (by omega)
  | read =>
      obtain rfl : 3 = n := by simpa [Trap.arity?] using harity
      refine (answers_readInto (m := inner) hordered (Nat.le_of_eq hsize) _ _ _).mono ?_
      rintro _ rfl
      exact hmem 1 (by omega)
  | close => exact (answers_closeFile (m := inner) _).mono fun _ hfalse => hfalse.elim
  | printf => exact answers_printf (m := inner) hpool _
  | malloc =>
      exact (answers_malloc (m := inner) hordered (Nat.le_of_eq hsize) hheap _).mono
        fun _ hfalse => hfalse.elim
  | free =>
      obtain rfl : 1 = n := by simpa [Trap.arity?] using harity
      refine (answers_free (m := inner) _).mono ?_
      rintro _ rfl
      exact hmem 0 (by omega)
  | memset =>
      obtain rfl : 3 = n := by simpa [Trap.arity?] using harity
      refine (answers_memset (m := inner) hordered (Nat.le_of_eq hsize) _ _ _).mono ?_
      rintro _ rfl
      exact hmem 0 (by omega)
  | memcmp =>
      obtain rfl : 3 = n := by simpa [Trap.arity?] using harity
      refine (answers_memcmp (m := inner) _ _ _).mono ?_
      rintro _ (rfl | rfl)
      · exact hmem 0 (by omega)
      · exact hmem 1 (by omega)

end Machine

end WordC
