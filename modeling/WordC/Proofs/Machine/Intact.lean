import WordC.Proofs.Machine.Traps
import WordC.Proofs.Memory.Heap

/-!
# What a program cannot do to its machine

Whatever words text and data hold, a step leaves the machine intact: both stack registers stay in
the stack, the text and the image of the data stay as they were written, and of the other words only
those change that the instruction may change. That holds of steps that fail as well, so it is stated
of the machine that an action leaves.
-/

namespace WordC

open Text.Utf8 (Bytes)

theorem Word.count?_lt {word : Word} {n : Nat} (h : word.count? = some n) : n < 2 ^ 63 := by
  unfold count? at h
  have := word.toInt_lt
  split at h
  · cases h
  · cases h
    omega

theorem Word.eq_ofCount {word : Word} {n : Nat} (h : word.count? = some n) : word = .ofCount n := by
  have hlt := count?_lt h
  unfold count? at h
  split at h
  · cases h
  · refine Int64.toInt_inj.1 ?_
    rw [toInt_ofCount hlt]
    cases h
    omega

namespace Machine

variable {m m' m'' : Machine} {α β : Type} {touched touched' : Nat → Prop}

/-! ## The machine that an action leaves -/

/-- The machine that an action leaves, whether it succeeds or not. -/
def after (m : Machine) (action : Action α) : Machine :=
  match action m with
  | .ok _ m' => m'
  | .error _ m' => m'

theorem after_of_ok {action : Action α} {value : α} (h : action m = .ok value m') :
    m.after action = m' := by
  rw [after, h]

theorem after_of_error {action : Action α} {error : Error} (h : action m = .error error m') :
    m.after action = m' := by
  rw [after, h]

theorem after_bind_of_ok {action : Action α} {next : α → Action β} {value : α}
    (h : action m = .ok value m') : m.after (action >>= next) = m'.after (next value) := by
  rw [after, bind_of_ok h, after]

theorem after_get_bind (next : Machine → Action β) :
    m.after (get >>= next) = m.after (next m) := rfl

theorem after_modify_bind (change : Machine → Machine) (next : Unit → Action β) :
    m.after (modify change >>= next) = (change m).after (next ()) := rfl

theorem after_bind_of_error {action : Action α} {next : α → Action β} {error : Error}
    (h : action m = .error error m') : m.after (action >>= next) = m' :=
  after_of_error (bind_of_error h)

/-- What is returned does not matter. -/
theorem after_bind_pure (action : Action α) (result : α → β) :
    m.after (action >>= fun value => pure (result value)) = m.after action := by
  cases h : action m with
  | ok value m' =>
      rw [after_bind_of_ok h, after_of_ok h]
      rfl
  | error error m' => rw [after_bind_of_error h, after_of_error h]

/-! ## Intact machines -/

/-- What holds of a machine in every state that it can get into. -/
structure Intact (m : Machine) : Prop where
  sound : m.Sound
  spStart : m.layout.stack.start ≤ m.sp
  spStop : m.sp ≤ m.layout.stack.stop
  bpStart : m.layout.stack.start ≤ m.bp
  bpStop : m.bp ≤ m.layout.stack.stop
  heap : m.heap.Tiles m.layout.heap
  image : m.dataImage.length = m.dataLength

/-- The written text and data stay, and only the words at the touched addresses may have changed. -/
structure Keeps (m : Machine) (touched : Nat → Prop) (m' : Machine) : Prop where
  layout : m'.layout = m.layout
  cycleLimit : m'.cycleLimit = m.cycleLimit
  textEnd : m'.textEnd = m.textEnd
  dataEnd : m'.dataEnd = m.dataEnd
  dataImage : m'.dataImage = m.dataImage
  size : m'.memory.size = m.memory.size
  memory : ∀ address, ¬touched address → m'.memory[address]? = m.memory[address]?

/-- The machine stays intact and keeps what it holds but for the touched words. -/
structure Confined (m : Machine) (touched : Nat → Prop) (m' : Machine) : Prop where
  intact : m'.Intact
  keeps : m.Keeps touched m'

theorem Keeps.trans (h : m.Keeps touched m') (h' : m'.Keeps touched m'') :
    m.Keeps touched m'' where
  layout := h'.layout.trans h.layout
  cycleLimit := h'.cycleLimit.trans h.cycleLimit
  textEnd := h'.textEnd.trans h.textEnd
  dataEnd := h'.dataEnd.trans h.dataEnd
  dataImage := h'.dataImage.trans h.dataImage
  size := h'.size.trans h.size
  memory := fun address hout => (h'.memory address hout).trans (h.memory address hout)

theorem Keeps.mono (h : m.Keeps touched m') (hsub : ∀ address, touched address → touched' address) :
    m.Keeps touched' m' :=
  { h with memory := fun address hout => h.memory address fun hin => hout (hsub address hin) }

theorem Confined.mono (h : m.Confined touched m')
    (hsub : ∀ address, touched address → touched' address) : m.Confined touched' m' :=
  ⟨h.intact, h.keeps.mono hsub⟩

namespace Intact

/-- A change of memory, heap and registers that keeps the stack registers in the stack. -/
theorem change (h : m.Intact) {memory : Array Word} {heap : Heap} {sp bp : Nat}
    (hsize : memory.size = m.memory.size)
    (hmemory : ∀ address, ¬touched address → memory[address]? = m.memory[address]?)
    (hheap : heap.Tiles m.layout.heap)
    (hsp : m.layout.stack.start ≤ sp ∧ sp ≤ m.layout.stack.stop)
    (hbp : m.layout.stack.start ≤ bp ∧ bp ≤ m.layout.stack.stop) {pc current cycles : Nat}
    {acc : Word} {status : Status} {descriptors : Descriptors} {host : Host} :
    m.Confined touched
      { m with memory, heap, sp, bp, pc, current, cycles, acc, status, descriptors, host } where
  intact :=
    { sound := { h.sound with size := hsize.trans h.sound.size }
      spStart := hsp.1
      spStop := hsp.2
      bpStart := hbp.1
      bpStop := hbp.2
      heap := hheap
      image := h.image }
  keeps := ⟨rfl, rfl, rfl, rfl, rfl, hsize, hmemory⟩

/-- A change of registers alone. -/
theorem move (h : m.Intact) {sp bp : Nat}
    (hsp : m.layout.stack.start ≤ sp ∧ sp ≤ m.layout.stack.stop)
    (hbp : m.layout.stack.start ≤ bp ∧ bp ≤ m.layout.stack.stop) {pc current cycles : Nat}
    {acc : Word} {status : Status} {descriptors : Descriptors} {host : Host} :
    m.Confined touched { m with sp, bp, pc, current, cycles, acc, status, descriptors, host } :=
  h.change rfl (fun _ _ => rfl) h.heap hsp hbp

theorem sp_bounds (h : m.Intact) : m.layout.stack.start ≤ m.sp ∧ m.sp ≤ m.layout.stack.stop :=
  ⟨h.spStart, h.spStop⟩

theorem bp_bounds (h : m.Intact) : m.layout.stack.start ≤ m.bp ∧ m.bp ≤ m.layout.stack.stop :=
  ⟨h.bpStart, h.bpStop⟩

theorem self (h : m.Intact) : m.Confined touched m :=
  h.move h.sp_bounds h.bp_bounds

theorem textStop_le_stack (h : m.Intact) : m.layout.text.stop ≤ m.layout.stack.start :=
  h.sound.ordered.text_le_stack

theorem size_eq (h : m.Intact) : m.memory.size = m.layout.stack.stop :=
  h.sound.size

theorem dataEnd_le_heap (h : m.Intact) : m.dataEnd ≤ m.layout.heap.start := by
  have := h.sound.dataStop
  have := h.sound.ordered.heap
  omega

theorem heap_le_size (h : m.Intact) : m.layout.heap.start ≤ m.memory.size := by
  rw [h.size_eq]
  exact Nat.le_trans h.sound.ordered.heap_le_stack (Nat.le_of_lt h.sound.ordered.stackStop)

end Intact

/-! ## What the checks let through -/

theorem pop_empty (h : m.layout.stack.stop ≤ m.sp) :
    pop m = .error (m.fault (Word.ofCount m.sp)) m := by
  rw [pop, if_pos h]

theorem count_cases (word : Word) (m : Machine) :
    (∃ n, word.count? = some n ∧ count word m = .ok n m) ∨
      count word m = .error (m.fault word) m := by
  unfold count
  cases word.count? with
  | none => exact .inr rfl
  | some n => exact .inl ⟨n, rfl, rfl⟩

theorem address_cases (word : Word) (m : Machine) :
    (∃ n, word.count? = some n ∧ n < m.memory.size ∧ address word m = .ok n m) ∨
      address word m = .error (m.fault word) m := by
  unfold address
  cases hfilter : word.count?.filter (· < m.memory.size) with
  | none => exact .inr rfl
  | some n =>
      obtain ⟨hcount, hsize⟩ := Option.filter_eq_some_iff.1 hfilter
      exact .inl ⟨n, hcount, of_decide_eq_true hsize, rfl⟩

theorem jumpTarget_cases (word : Word) (m : Machine) :
    (∃ n, m.layout.text.start ≤ n ∧ n < m.textEnd ∧ jumpTarget word m = .ok n m) ∨
      jumpTarget word m = .error (m.fault word) m := by
  unfold jumpTarget
  cases hfilter : word.count?.filter fun target =>
      m.layout.text.start ≤ target && target < m.textEnd with
  | none => exact .inr rfl
  | some n =>
      have htext : m.layout.text.start ≤ n ∧ n < m.textEnd := by
        simpa using (Option.filter_eq_some_iff.1 hfilter).2
      exact .inl ⟨n, htext.1, htext.2, rfl⟩

theorem jump_cases (word : Word) (m : Machine) :
    (∃ pc, jump word m = .ok () { m with pc }) ∨ jump word m = .error (m.fault word) m := by
  unfold jump
  rcases jumpTarget_cases word m with ⟨pc, -, -, hjump⟩ | hjump
  · exact .inl ⟨pc, bind_of_ok hjump⟩
  · exact .inr (bind_of_error hjump)

theorem readable_cases (start size : Word) (m : Machine) :
    (∃ extent, Extent.ofWords? start size = some extent ∧ extent.start ≤ extent.stop ∧
        extent.stop ≤ m.memory.size ∧ readable start size m = .ok extent m) ∨
      readable start size m = .error (m.fault start) m := by
  unfold readable
  split
  · next first count hfirst hcount =>
      split
      · next hsize =>
          exact .inl ⟨_, ofWords?_eq_some hfirst hcount, Nat.le_add_right _ _, hsize, rfl⟩
      · exact .inr rfl
  · exact .inr rfl

theorem popArguments_cases (size : Word) (m : Machine) :
    (∃ n, size.count? = some n ∧ m.sp + n ≤ m.layout.stack.stop ∧
        popArguments size m = .ok (m.arguments n) { m with sp := m.sp + n }) ∨
      ∃ error, popArguments size m = .error error m := by
  unfold popArguments
  rcases count_cases size m with ⟨n, hcount, hok⟩ | herror
  · rw [bind_of_ok hok, get_bind]
    by_cases hstop : m.layout.stack.stop < m.sp + n
    · exact .inr ⟨_, by rw [if_pos hstop]; rfl⟩
    · exact .inl ⟨n, hcount, by omega, by rw [if_neg hstop]; rfl⟩
  · exact .inr ⟨_, bind_of_error herror⟩

/-! ## Instructions -/

/-- The words that carrying out an instruction may change on the way from one machine to another:
what it pushed or zeroed on the stack, the word it stored to, the free block that it took from the
heap, or the span outside of the text that a program passed to `memset` or `read`. -/
inductive Touches (m : Machine) (instruction : Instruction) (m' : Machine) (address : Nat) :
    Prop where
  | stack (opcode : instruction.opcode ∈ [.push, .call, .ent]) (above : m'.sp ≤ address)
      (below : address < m.sp)
  | store (opcode : instruction.opcode = .si) (target : m.acc.count? = some address)
      (text : m.layout.text.stop ≤ address)
  | block (opcode : instruction.opcode = .trap .malloc) (block : Extent)
      (live : m'.heap.live = block :: m.heap.live) (start : block.start ≤ address)
      (stop : address < block.stop) (free : m.heap.IsFree address)
  | span (request : Trap) (opcode : instruction.opcode = .trap request) (count : Nat)
      (operand : (instruction.operand.getD 0).count? = some count) (extent : Extent)
      (passed : request.span? (m.arguments count) = some extent)
      (pool : extent.stop ≤ m.memory.size) (text : m.layout.text.stop ≤ extent.start)
      (start : extent.start ≤ address) (stop : address < extent.stop)

/-- What was touched depends only on the stack pointer and the heap of the machine behind it. -/
theorem Touches.congr {instruction : Instruction} {address : Nat}
    (h : m.Touches instruction m' address) (hsp : m''.sp = m'.sp) (hheap : m''.heap = m'.heap) :
    m.Touches instruction m'' address := by
  cases h with
  | stack hopcode habove hbelow => exact .stack hopcode (hsp ▸ habove) hbelow
  | store hopcode htarget htext => exact .store hopcode htarget htext
  | block hopcode block hlive hstart hstop hfree =>
      exact .block hopcode block (hheap ▸ hlive) hstart hstop hfree
  | span request hopcode count hoperand extent hpassed hpool htext hstart hstop =>
      exact .span request hopcode count hoperand extent hpassed hpool htext hstart hstop

/-- Whether an address lies in the span that a program named by a start and a size, all of it inside
the pool and outside of the text. -/
def InSpan (m : Machine) (start size : Word) (address : Nat) : Prop :=
  ∃ extent, Extent.ofWords? start size = some extent ∧ extent.stop ≤ m.memory.size ∧
    m.layout.text.stop ≤ extent.start ∧ extent.start ≤ address ∧ address < extent.stop

theorem Confined.trans (h : m.Confined touched m') (h' : m'.Confined touched m'') :
    m.Confined touched m'' :=
  ⟨h'.intact, h.keeps.trans h'.keeps⟩

namespace Intact

theorem after_push (h : m.Intact) (word : Word) :
    m.Confined (fun address => (m.after (push word)).sp ≤ address ∧ address < m.sp)
      (m.after (push word)) := by
  rcases Nat.lt_or_ge m.layout.stack.start m.sp with hroom | hfull
  · rw [after_of_ok (push_eq hroom)]
    have hsp := h.sp_bounds
    refine h.change Array.size_setIfInBounds (fun address hout => ?_) h.heap ?_ h.bp_bounds
    · exact Array.getElem?_setIfInBounds_ne fun heq => hout (by simp only; omega)
    · omega
  · rw [after_of_error (push_full hfull)]
    exact h.self

theorem after_jump (h : m.Intact) (target : Word) : m.Confined touched (m.after (jump target)) := by
  rcases jump_cases target m with ⟨pc, hok⟩ | herror
  · rw [after_of_ok hok]
    exact h.move h.sp_bounds h.bp_bounds
  · rw [after_of_error herror]
    exact h.self

theorem after_callTo (h : m.Intact) (target : Word) :
    m.Confined (fun address => (m.after (callTo target)).sp ≤ address ∧ address < m.sp)
      (m.after (callTo target)) := by
  unfold callTo
  rcases jumpTarget_cases target m with ⟨pc, -, -, hok⟩ | herror
  · rw [after_bind_of_ok hok]
    have hpush := h.after_push (Word.ofCount m.pc)
    change m.Confined (fun address => (m.after (push (Word.ofCount m.pc) >>= _)).sp ≤ address ∧ _)
      (m.after (push (Word.ofCount m.pc) >>= _))
    cases hresult : push (Word.ofCount m.pc) m with
    | ok value m' =>
        rw [after_of_ok hresult] at hpush
        rw [after_bind_of_ok hresult]
        exact hpush.trans (hpush.intact.move hpush.intact.sp_bounds hpush.intact.bp_bounds)
    | error error m' =>
        rw [after_of_error hresult] at hpush
        rw [after_bind_of_error hresult]
        exact hpush
  · rw [after_bind_of_error herror]
    exact h.self

theorem after_enterFrame (h : m.Intact) (slots : Word) :
    m.Confined (fun address => (m.after (enterFrame slots)).sp ≤ address ∧ address < m.sp)
      (m.after (enterFrame slots)) := by
  unfold enterFrame
  have hpush := h.after_push (Word.ofCount m.bp)
  change m.Confined (fun address => (m.after (push (Word.ofCount m.bp) >>= _)).sp ≤ address ∧ _)
    (m.after (push (Word.ofCount m.bp) >>= _))
  rcases Nat.lt_or_ge m.layout.stack.start m.sp with hroom | hfull
  · have hsp := h.sp_bounds
    rw [after_of_ok (push_eq hroom)] at hpush
    rw [after_bind_of_ok (push_eq hroom)]
    let pushed : Machine :=
      { m.setWord (m.sp - 1) (Word.ofCount m.bp) with sp := m.sp - 1, bp := m.sp - 1 }
    have hpushed : m.Confined (fun address => pushed.sp ≤ address ∧ address < m.sp) pushed :=
      hpush.trans (hpush.intact.move hpush.intact.sp_bounds hpush.intact.sp_bounds)
    change m.Confined (fun address => (pushed.after (count slots >>= _)).sp ≤ address ∧ _)
      (pushed.after (count slots >>= _))
    rcases count_cases slots pushed with ⟨n, -, hok⟩ | herror
    · rw [after_bind_of_ok hok]
      change m.Confined
        (fun address => (pushed.after (if pushed.sp - m.layout.stack.start < n then _ else _)).sp ≤
          address ∧ _)
        (pushed.after (if pushed.sp - m.layout.stack.start < n then _ else _))
      by_cases hover : pushed.sp - m.layout.stack.start < n
      · rw [if_pos hover]
        exact hpushed
      · rw [if_neg hover]
        have hslots : m.layout.stack.start ≤ pushed.sp - n ∧
            pushed.sp - n ≤ m.layout.stack.stop := by
          simp only [pushed] at hover ⊢
          omega
        have hentered : pushed.Confined
            (fun address => pushed.sp - n ≤ address ∧ address < m.sp)
            { pushed.fill { start := pushed.sp - n, stop := pushed.bp } 0 with
              sp := pushed.sp - n } := by
          refine hpushed.intact.change (Memory.size_fill _ _ _ _) (fun address hout => ?_)
            hpushed.intact.heap hslots hpushed.intact.bp_bounds
          rw [Memory.getElem?_fill, if_neg]
          simp only [Extent.size, pushed] at hout ⊢
          omega
        refine Confined.trans (hpushed.mono fun address hin => ⟨?_, hin.2⟩) hentered
        exact Nat.le_trans (Nat.sub_le _ _) hin.1
    · rw [after_bind_of_error herror]
      exact hpushed
  · rw [after_of_error (push_full hfull)] at hpush
    rw [after_bind_of_error (push_full hfull)]
    exact hpush

theorem after_adjust (h : m.Intact) (words : Word) :
    m.Confined touched (m.after (adjust words)) := by
  unfold adjust
  rcases count_cases words m with ⟨n, -, hok⟩ | herror
  · rw [after_bind_of_ok hok]
    change m.Confined touched (m.after (if m.layout.stack.stop < m.sp + n then _ else _))
    have hsp := h.sp_bounds
    by_cases hover : m.layout.stack.stop < m.sp + n
    · rw [if_pos hover]
      exact h.self
    · rw [if_neg hover]
      exact h.move (by omega) h.bp_bounds
  · rw [after_bind_of_error herror]
    exact h.self

/-- A pop drops one word, if the stack has one. -/
theorem pop_cases (h : m.Intact) :
    (m.sp < m.layout.stack.stop ∧ pop m = .ok (m.wordAt m.sp) { m with sp := m.sp + 1 } ∧
        ∀ touched, m.Confined touched { m with sp := m.sp + 1 }) ∨
      pop m = .error (m.fault (Word.ofCount m.sp)) m := by
  have hsp := h.sp_bounds
  rcases Nat.lt_or_ge m.sp m.layout.stack.stop with hlt | hge
  · exact .inl ⟨hlt, pop_eq hlt, fun _ => h.move (by omega) h.bp_bounds⟩
  · exact .inr (pop_empty hge)

theorem after_leaveFrame (h : m.Intact) : m.Confined touched (m.after leaveFrame) := by
  unfold leaveFrame
  rw [after_modify_bind]
  have hclosed : m.Confined touched { m with sp := m.bp } := h.move h.bp_bounds h.bp_bounds
  refine hclosed.trans ?_
  have hintact := hclosed.intact
  generalize ({ m with sp := m.bp } : Machine) = closed at hintact
  rcases hintact.pop_cases with ⟨-, hpop, hpopped⟩ | hpop
  · rw [after_bind_of_ok hpop, after_get_bind]
    refine (hpopped touched).trans ?_
    have hintact := (hpopped touched).intact
    generalize ({ closed with sp := closed.sp + 1 } : Machine) = popped at hintact
    split
    · exact hintact.self
    · next bp hfilter =>
        have hbp : popped.layout.stack.start ≤ bp ∧ bp ≤ popped.layout.stack.stop := by
          simpa using (Option.filter_eq_some_iff.1 hfilter).2
        rw [after_modify_bind]
        have hrestored : popped.Confined touched { popped with bp } :=
          hintact.move hintact.sp_bounds hbp
        refine hrestored.trans ?_
        have hintact := hrestored.intact
        generalize ({ popped with bp } : Machine) = restored at hintact
        rcases hintact.pop_cases with ⟨-, hpop, hpopped⟩ | hpop
        · rw [after_bind_of_ok hpop]
          exact (hpopped touched).trans ((hpopped touched).intact.after_jump _)
        · rw [after_bind_of_error hpop]
          exact hintact.self
  · rw [after_bind_of_error hpop]
    exact hintact.self

theorem after_loadIndirect (h : m.Intact) : m.Confined touched (m.after loadIndirect) := by
  change m.Confined touched (m.after (address m.acc >>= _))
  rcases address_cases m.acc m with ⟨n, -, -, hok⟩ | herror
  · rw [after_bind_of_ok hok]
    exact h.move h.sp_bounds h.bp_bounds
  · rw [after_bind_of_error herror]
    exact h.self

theorem after_storeIndirect (h : m.Intact) :
    m.Confined (fun address => m.acc.count? = some address ∧ m.layout.text.stop ≤ address)
      (m.after storeIndirect) := by
  unfold storeIndirect
  rcases h.pop_cases with ⟨-, hpop, hpopped⟩ | hpop
  · rw [after_bind_of_ok hpop]
    refine (hpopped _).trans ?_
    have hintact := (hpopped fun _ => False).intact
    change Confined _ _ (({ m with sp := m.sp + 1 } : Machine).after (writable m.acc 1 >>= _))
    rcases writable_cases hintact.sound.ordered m.acc 1 with
      ⟨extent, hextent, hpool, htext, hok⟩ | herror
    · rw [after_bind_of_ok hok]
      obtain ⟨address, haddress, rfl⟩ : ∃ address, m.acc.count? = some address ∧
          extent = { start := address, stop := address + 1 } := by
        unfold Extent.ofWords? at hextent
        cases hcount : m.acc.count? with
        | none =>
            rw [hcount] at hextent
            cases hextent
        | some address =>
            rw [hcount] at hextent
            cases hextent
            exact ⟨address, rfl, rfl⟩
      refine hintact.change Array.size_setIfInBounds (fun other hout => ?_) hintact.heap
        hintact.sp_bounds hintact.bp_bounds
      refine Array.getElem?_setIfInBounds_ne fun heq => hout ⟨?_, ?_⟩
      · rw [haddress, ← heq]
      · rw [← heq]
        exact htext (Nat.lt_succ_self _)
    · rw [after_bind_of_error herror]
      exact hintact.self
  · rw [after_bind_of_error hpop]
    exact h.self

theorem after_combine (h : m.Intact) (operator : Operator) :
    m.Confined touched (m.after (combine operator)) := by
  unfold combine
  rcases h.pop_cases with ⟨-, hpop, hpopped⟩ | hpop
  · rw [after_bind_of_ok hpop, after_get_bind]
    refine (hpopped touched).trans ?_
    have hintact := (hpopped touched).intact
    split
    · exact hintact.self
    · exact hintact.move hintact.sp_bounds hintact.bp_bounds
  · rw [after_bind_of_error hpop]
    exact h.self

/-! ### Traps -/

/-- Words are copied into an extent of which only the touched words can differ. -/
theorem copy (h : m.Intact) {start : Nat} {words : List Word}
    (htouched : ∀ address, start ≤ address → address < start + words.length → touched address)
    {descriptors : Descriptors} {host : Host} :
    m.Confined touched
      { m with memory := Memory.copy m.memory start words, descriptors, host } := by
  refine h.change (Memory.size_copy _ _ _) (fun address hout => ?_) h.heap h.sp_bounds h.bp_bounds
  rw [Memory.getElem?_copy, if_neg]
  intro hin
  exact hout (htouched address hin.1 hin.2.1)

theorem after_openFile (h : m.Intact) (path flags : Word) :
    m.Confined touched (m.after (openFile path flags)) := by
  rcases bytesAt_eq (m := m) path with ⟨bytes, hbytes⟩ | hfault
  · rw [after, openFile_of_bytesAt hbytes]
    cases openModeOf? flags with
    | none => exact h.self
    | some mode =>
        simp only
        unfold opened
        cases (m.host.openFile (Text.Utf8.decode bytes) mode).1 with
        | error error => exact h.move h.sp_bounds h.bp_bounds
        | ok handle => exact h.move h.sp_bounds h.bp_bounds
  · rw [openFile, after_bind_of_error hfault]
    exact h.self

/-- The words of a span that a program may write to. -/
theorem writable_span (h : m.Intact) (start size : Word) :
    (∃ extent, Extent.ofWords? start size = some extent ∧ extent.stop ≤ m.memory.size ∧
        (extent.start < extent.stop → m.layout.text.stop ≤ extent.start) ∧
        writable start size m = .ok extent m) ∨
      writable start size m = .error (m.fault start) m :=
  writable_cases h.sound.ordered start size

theorem inSpan {start size : Word} {extent : Extent} {address : Nat}
    (hextent : Extent.ofWords? start size = some extent) (hpool : extent.stop ≤ m.memory.size)
    (htext : extent.start < extent.stop → m.layout.text.stop ≤ extent.start)
    (hstart : extent.start ≤ address) (hstop : address < extent.stop) :
    m.InSpan start size address :=
  ⟨extent, hextent, hpool, htext (Nat.lt_of_le_of_lt hstart hstop), hstart, hstop⟩

theorem after_readInto (h : m.Intact) (descriptor buffer size : Word) :
    m.Confined (m.InSpan buffer size) (m.after (readInto descriptor buffer size)) := by
  rcases h.writable_span buffer size with ⟨extent, hextent, hpool, htext, hok⟩ | herror
  · rw [after, readInto_of_writable hok]
    cases m.descriptors.stream? descriptor with
    | none => exact h.self
    | some stream =>
        simp only
        unfold filled
        cases hread : (m.host.read stream extent.size).1 with
        | none => exact h.move h.sp_bounds h.bp_bounds
        | some bytes =>
            have hlength : bytes.length ≤ extent.size := Host.length_of_read hread
            refine h.copy fun address hstart hstop => inSpan hextent hpool htext hstart ?_
            rw [List.length_map] at hstop
            unfold Extent.size at hlength
            omega
  · rw [readInto, after_bind_of_error herror]
    exact h.self

theorem after_closeFile (h : m.Intact) (descriptor : Word) :
    m.Confined touched (m.after (closeFile descriptor)) := by
  unfold closeFile
  rw [after_get_bind]
  cases m.descriptors.close? descriptor with
  | none => exact h.self
  | some descriptors => exact h.move h.sp_bounds h.bp_bounds

theorem after_printf (h : m.Intact) (arguments : List Word) :
    m.Confined touched (m.after (printf arguments)) := by
  cases arguments with
  | nil => exact h.self
  | cons template values =>
      rw [printf]
      rcases bytesAt_eq (m := m) template with ⟨bytes, hbytes⟩ | hfault
      · rw [after_bind_of_ok hbytes, after_get_bind]
        cases m.format bytes values with
        | error error => exact h.self
        | ok text => exact h.move h.sp_bounds h.bp_bounds
      · rw [after_bind_of_error hfault]
        exact h.self

theorem after_malloc (h : m.Intact) (size : Word) :
    m.Confined (fun address => ∃ block, (m.after (malloc size)).heap.live = block :: m.heap.live ∧
        block.start ≤ address ∧ address < block.stop ∧ m.heap.IsFree address)
      (m.after (malloc size)) := by
  unfold malloc
  rw [after_get_bind]
  cases hcount : size.count? with
  | none => exact h.self
  | some words =>
      rw [Option.bind_some]
      cases hallocate : m.heap.allocate? words with
      | none => exact h.self
      | some found =>
          obtain ⟨address, heap⟩ := found
          have hlive := (Heap.allocate?_eq_some hallocate).2.2
          have hroom := (h.heap.hasRoom hallocate).1
          refine h.change (Memory.size_fill _ _ _ _) (fun other hout => ?_)
            (h.heap.allocate hallocate) h.sp_bounds h.bp_bounds
          rw [Memory.getElem?_fill, if_neg]
          rintro ⟨hstart, hstop, -⟩
          simp only [Option.getD_some, Extent.size] at hstart hstop
          refine hout ⟨_, hlive, hstart, by simp only; omega, ?_⟩
          have hfree := hroom (other - address) (by omega)
          rwa [Nat.add_sub_cancel' hstart] at hfree

theorem after_free (h : m.Intact) (pointer : Word) :
    m.Confined touched (m.after (free pointer)) := by
  unfold free
  by_cases hzero : pointer = 0
  · rw [if_pos hzero]
    exact h.self
  · rw [if_neg hzero, after_get_bind]
    cases pointer.count? with
    | none => exact h.self
    | some address =>
        simp only
        cases hrelease : m.heap.release? address with
        | none => exact h.self
        | some found =>
            exact h.change rfl (fun _ _ => rfl) (h.heap.release hrelease) h.sp_bounds h.bp_bounds

theorem after_memset (h : m.Intact) (pointer value size : Word) :
    m.Confined (m.InSpan pointer size) (m.after (memset pointer value size)) := by
  unfold memset
  rcases h.writable_span pointer size with ⟨extent, hextent, hpool, htext, hok⟩ | herror
  · rw [after_bind_of_ok hok, after_modify_bind]
    change m.Confined _ (m.fill extent value)
    unfold fill
    rw [Memory.fill_eq_copy]
    refine h.copy fun address hstart hstop => inSpan hextent hpool htext hstart ?_
    rw [List.length_replicate] at hstop
    unfold Extent.size at hstop
    omega
  · rw [after_bind_of_error herror]
    exact h.self

theorem after_memcmp (h : m.Intact) (left right size : Word) :
    m.Confined touched (m.after (memcmp left right size)) := by
  unfold memcmp
  rcases readable_cases left size m with ⟨first, -, -, -, hfirst⟩ | hfault
  · rw [after_bind_of_ok hfirst]
    rcases readable_cases right size m with ⟨second, -, -, -, hsecond⟩ | hfault
    · rw [after_bind_of_ok hsecond]
      exact h.self
    · rw [after_bind_of_error hfault]
      exact h.self
  · rw [after_bind_of_error hfault]
    exact h.self

/-- What a trap changes, given the arguments that it pops. -/
theorem after_trap (h : m.Intact) (request : Trap) (operand : Option Word) :
    m.Confined
      (m.Touches { opcode := .trap request, operand } (m.after (trap request (operand.getD 0))))
      (m.after (trap request (operand.getD 0))) := by
  unfold trap
  rcases popArguments_cases (operand.getD 0) m with ⟨n, hcount, hstop, hpop⟩ | ⟨error, hpop⟩
  · rw [after_bind_of_ok hpop]
    have hsp := h.sp_bounds
    have hpopped {touched : Nat → Prop} : m.Confined touched { m with sp := m.sp + n } :=
      h.move (by omega) h.bp_bounds
    refine hpopped.trans ?_
    have hintact := (@hpopped fun _ => False).intact
    have hspan {start size' : Word} {other : Trap} (hother : request = other)
        (hpassed : other.span? (m.arguments n) = Extent.ofWords? start size') {m' : Machine}
        (address : Nat) (hin : Machine.InSpan { m with sp := m.sp + n } start size' address) :
        m.Touches { opcode := .trap request, operand } m' address := by
      obtain ⟨extent, hextent, hpool, htext, hstart, hstop⟩ := hin
      exact .span other (by rw [hother]) n hcount extent (hpassed.trans hextent) hpool htext hstart
        hstop
    cases request with
    | «open» => exact hintact.after_openFile _ _
    | read => exact (hintact.after_readInto _ _ _).mono (hspan rfl rfl)
    | close => exact hintact.after_closeFile _
    | printf => exact hintact.after_printf _
    | malloc =>
        refine (hintact.after_malloc _).mono ?_
        rintro address ⟨block, hlive, hstart, hstop, hfree⟩
        exact .block rfl block hlive hstart hstop hfree
    | free => exact hintact.after_free _
    | memset => exact (hintact.after_memset _ _ _).mono (hspan rfl rfl)
    | memcmp => exact hintact.after_memcmp _ _ _
  · rw [after_bind_of_error hpop]
    exact h.self

/-! ### Steps -/

/-- The result of a trap is loaded into the accumulator. -/
theorem after_execute_trap (h : m.Intact) (request : Trap) (operand : Option Word) :
    m.Confined (m.Touches { opcode := .trap request, operand }
        (m.after (execute { opcode := .trap request, operand })))
      (m.after (execute { opcode := .trap request, operand })) := by
  have htrap := h.after_trap request operand
  change m.Confined
    (m.Touches _ (m.after (trap request (operand.getD 0) >>= fun word => load word >>= _)))
    (m.after (trap request (operand.getD 0) >>= fun word => load word >>= _))
  cases hresult : trap request (operand.getD 0) m with
  | ok word m' =>
      rw [after_of_ok hresult] at htrap
      rw [after_bind_of_ok hresult]
      have hloaded : m.Confined (m.Touches _ m') { m' with acc := word } :=
        htrap.trans (htrap.intact.move htrap.intact.sp_bounds htrap.intact.bp_bounds)
      exact hloaded.mono fun address hin => hin.congr rfl rfl
  | error error m' =>
      rw [after_of_error hresult] at htrap
      rw [after_bind_of_error hresult]
      exact htrap

theorem after_execute (h : m.Intact) (instruction : Instruction) :
    m.Confined (m.Touches instruction (m.after (execute instruction)))
      (m.after (execute instruction)) := by
  obtain ⟨opcode, operand⟩ := instruction
  let touching := m.Touches { opcode, operand }
  have hreturned {action : Action Unit}
      (haction : m.Confined (touching (m.after action)) (m.after action)) :
      m.Confined (touching (m.after (action >>= fun _ => pure (none : Option Word))))
        (m.after (action >>= fun _ => pure (none : Option Word))) := by
    rw [after_bind_pure]
    exact haction
  have hstack {action : Action Unit} (hopcode : opcode ∈ [Opcode.push, Opcode.call, Opcode.ent])
      (haction : m.Confined (fun address => (m.after action).sp ≤ address ∧ address < m.sp)
        (m.after action)) : m.Confined (touching (m.after action)) (m.after action) :=
    haction.mono fun address hin => .stack hopcode hin.1 hin.2
  cases opcode with
  | lea => exact h.move h.sp_bounds h.bp_bounds
  | imm => exact h.move h.sp_bounds h.bp_bounds
  | jmp => exact hreturned (h.after_jump (operand.getD 0))
  | call => exact hreturned (hstack (by decide) (h.after_callTo (operand.getD 0)))
  | jz =>
      change m.Confined _ (m.after (if m.acc = 0 then jump (operand.getD 0) >>= fun _ => pure none
        else pure none))
      by_cases hzero : m.acc = 0
      · rw [if_pos hzero, after_bind_pure]
        exact h.after_jump _
      · rw [if_neg hzero]
        exact h.self
  | jnz =>
      change m.Confined _ (m.after (if m.acc ≠ 0 then jump (operand.getD 0) >>= fun _ => pure none
        else pure none))
      by_cases hzero : m.acc ≠ 0
      · rw [if_pos hzero, after_bind_pure]
        exact h.after_jump _
      · rw [if_neg hzero]
        exact h.self
  | ent => exact hreturned (hstack (by decide) (h.after_enterFrame (operand.getD 0)))
  | adj => exact hreturned (h.after_adjust (operand.getD 0))
  | lev => exact hreturned h.after_leaveFrame
  | li => exact hreturned h.after_loadIndirect
  | si => exact hreturned (h.after_storeIndirect.mono fun _ hin => .store rfl hin.1 hin.2)
  | push => exact hreturned (hstack (by decide) (h.after_push m.acc))
  | binary operator => exact hreturned (h.after_combine operator)
  | plac => exact h.self
  | trap request => exact h.after_execute_trap request operand
  | exit => exact h.self

end Intact

/-- The words that the step from one machine to another may change. -/
def StepTouches (m m' : Machine) (address : Nat) : Prop :=
  ∃ instruction, m.fetch = .ok instruction ∧ m.Touches instruction m' address

theorem Touches.of_advance {tracing : Bool} {instruction fetched : Instruction} {address : Nat}
    (h : (m.advance tracing fetched).Touches instruction m' address) :
    m.Touches instruction m' address := by
  cases h with
  | stack hopcode habove hbelow => exact .stack hopcode habove hbelow
  | store hopcode htarget htext => exact .store hopcode htarget htext
  | block hopcode block hlive hstart hstop hfree =>
      exact .block hopcode block hlive hstart hstop hfree
  | span request hopcode count hoperand extent hpassed hpool htext hstart hstop =>
      exact .span request hopcode count hoperand extent hpassed hpool htext hstart hstop

namespace Intact

theorem after_step (h : m.Intact) (tracing : Bool) :
    m.Confined (m.StepTouches (m.after (step tracing))) (m.after (step tracing)) := by
  rcases step_cases tracing m with ⟨limit, hstep⟩ | ⟨error, -, hstep⟩ | ⟨instruction, hfetch, hstep⟩
  · rw [after_of_error hstep]
    exact h.self
  · rw [after_of_error hstep]
    exact h.move h.sp_bounds h.bp_bounds
  · have hready : m.Confined (fun _ => False) (m.advance tracing instruction) :=
      h.move h.sp_bounds h.bp_bounds
    have hafter : m.after (step tracing) =
        (m.advance tracing instruction).after (execute instruction) := by
      rw [after, hstep, after]
    rw [hafter]
    refine (hready.mono fun _ hin => hin.elim).trans ?_
    exact (hready.intact.after_execute instruction).mono fun address hin =>
      ⟨instruction, hfetch, hin.of_advance⟩

/-- No step touches the text. -/
theorem textStop_le (h : m.Intact) (h' : m.Confined touched m') {address : Nat}
    (hin : m.StepTouches m' address) : m.layout.text.stop ≤ address := by
  obtain ⟨instruction, -, htouches⟩ := hin
  cases htouches with
  | stack hopcode habove hbelow =>
      have hsp := h'.intact.spStart
      rw [h'.keeps.layout] at hsp
      exact Nat.le_trans h.textStop_le_stack (Nat.le_trans hsp habove)
  | store hopcode htarget htext => exact htext
  | block hopcode block hlive hstart hstop hfree =>
      obtain ⟨free, hmem, hstart', -⟩ := hfree
      have hinside := h.heap.inside (List.mem_append_left _ hmem)
      have := h.sound.ordered.text_le_heap
      omega
  | span request hopcode count hoperand extent hpassed hpool htext hstart hstop =>
      exact Nat.le_trans htext hstart

/-! ### Runs -/

/-- A run leaves the machine intact and its text as it was. -/
theorem after_runSteps (h : m.Intact) (tracing : Bool) (steps : Nat) :
    m.Confined (m.layout.text.stop ≤ ·) (m.after (runSteps tracing steps)) := by
  induction steps generalizing m with
  | zero => exact h.self
  | succ steps ih =>
      have hconfined := h.after_step tracing
      have hstep := hconfined.mono fun address => h.textStop_le hconfined
      unfold runSteps
      cases hresult : step tracing m with
      | error error m' =>
          rw [after_of_error hresult] at hstep
          rw [after_bind_of_error hresult]
          exact hstep
      | ok result m' =>
          rw [after_of_ok hresult] at hstep
          rw [after_bind_of_ok hresult]
          cases result with
          | some word => exact hstep
          | none =>
              have hrest := ih hstep.intact
              rw [hstep.keeps.layout] at hrest
              exact hstep.trans hrest

theorem after_run (h : m.Intact) (tracing : Bool) (steps : Nat) :
    m.Confined (m.layout.text.stop ≤ ·) (m.after (run tracing steps)) := by
  by_cases hrunnable : ¬m.status.isRunnable
  · rw [after, run, if_pos hrunnable]
    exact h.self
  · rw [after, run, if_neg hrunnable]
    have hstarted : m.Confined (m.layout.text.stop ≤ ·)
        { m.report (.started m.pc m.textEnd) with status := .running } :=
      h.move h.sp_bounds h.bp_bounds
    have hrun := hstarted.trans (hstarted.intact.after_runSteps tracing steps)
    rw [after] at hrun
    simp only
    cases hresult : runSteps tracing steps
        { m.report (.started m.pc m.textEnd) with status := .running } with
    | error error m' =>
        rw [hresult] at hrun
        exact hrun.trans (hrun.intact.move hrun.intact.sp_bounds hrun.intact.bp_bounds)
    | ok result m' =>
        rw [hresult] at hrun
        cases result with
        | none => exact hrun
        | some word =>
            exact hrun.trans (hrun.intact.move hrun.intact.sp_bounds hrun.intact.bp_bounds)

theorem after_runFrom (h : m.Intact) (entry : Nat) (tracing : Bool) (steps : Nat) :
    m.Confined (m.layout.text.stop ≤ ·) (m.after (runFrom entry tracing steps)) := by
  by_cases hrunnable : ¬m.status.isRunnable
  · rw [after, runFrom, if_pos hrunnable]
    exact h.self
  · have hentered : m.Confined (m.layout.text.stop ≤ ·) { m with pc := entry } :=
      h.move h.sp_bounds h.bp_bounds
    rw [after, runFrom, if_neg hrunnable]
    exact hentered.trans (hentered.intact.after_run tracing steps)

end Intact

end Machine

end WordC
