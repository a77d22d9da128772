import WordC.Proofs.Machine.Serving

/-!
# Files of a run

Descriptors can be told from the calls of a run as blocks can: they count up from 3, and each is
usable from the call that returned it until it is closed. Whether a file is opened and what a read
gives is for the system to answer, and any system may be asked. A read touches its buffer alone;
whether the buffer may be written is settled before the descriptor is looked at.
-/

namespace WordC

open Text.Utf8 (Bytes)

theorem Word.ofByte_bounds (byte : UInt8) : 0 ≤ ofByte byte ∧ ofByte byte ≤ 255 := by
  have hbyte := byte.toNat_lt
  have hcount : (Int64.ofNat byte.toNat).toInt = byte.toNat := Word.toInt_ofCount (by omega)
  rw [ofByte, Int64.le_iff_toInt_le, Int64.le_iff_toInt_le, hcount]
  change 0 ≤ (byte.toNat : Int) ∧ (byte.toNat : Int) ≤ 255
  omega

namespace Descriptors

variable {descriptors closed : Descriptors} {descriptor : Word} {handle : Handle}

theorem find?_insert (descriptors : Descriptors) (handle : Handle) (word : Word) :
    (descriptors.insert handle).2.find? word =
      if word = descriptors.next then some handle else descriptors.find? word := by
  change List.lookup word ((descriptors.next, handle) :: descriptors.handles) = _
  rw [List.lookup_cons]
  by_cases h : word = descriptors.next
  · rw [if_pos h, beq_iff_eq.2 h]
  · rw [if_neg h, beq_eq_false_iff_ne.2 h]
    rfl

theorem close?_eq_none_iff : descriptors.close? descriptor = Option.none ↔
    (descriptors.find? descriptor).isSome = false := by
  unfold close?
  by_cases h : (descriptors.find? descriptor).isSome
  · simp [h]
  · simp [h]

theorem next_close? (h : descriptors.close? descriptor = some closed) :
    closed.next = descriptors.next := by
  unfold close? at h
  split at h
  · cases h
    rfl
  · cases h

theorem find?_close? (h : descriptors.close? descriptor = some closed) (word : Word) :
    closed.find? word = if word = descriptor then Option.none else descriptors.find? word := by
  unfold close? at h
  split at h
  · cases h
    unfold find?
    simp only
    induction descriptors.handles with
    | nil => simp
    | cons first rest ih =>
        obtain ⟨key, handle⟩ := first
        by_cases hsame : key = descriptor
        · rw [List.filter_cons_of_neg (by simpa using hsame), ih, List.lookup_cons, hsame]
          split
          · rfl
          · next hne => rw [beq_eq_false_iff_ne.2 hne]
        · rw [List.filter_cons_of_pos (by simpa using hsame), List.lookup_cons, List.lookup_cons, ih]
          by_cases hkey : word = key
          · have hword : word ≠ descriptor := fun h => hsame (hkey.symm.trans h)
            rw [beq_iff_eq.2 hkey, if_neg hword, if_neg hword]
          · rw [beq_eq_false_iff_ne.2 hkey]
  · cases h

end Descriptors

namespace Machine

variable {start m m' poised : Machine} {entry : Nat} {tracing : Bool} {log : List Served}
  {arguments : List Word} {descriptor buffer size : Word} {extent : Extent}

/-! ## The three traps -/

/-- The handle that the system gives for an open, if the mode is a known one and the file opens. -/
def granted? (m : Machine) (path : Bytes) (flags : Word) : Option Handle :=
  (openModeOf? flags).bind fun mode =>
    (m.host.openFile (Text.Utf8.decode path) mode).1.toOption

/-- A file gets the next descriptor, and a refusal changes none. -/
theorem exists_openFile {path : Word} {bytes : Bytes} (hbytes : bytesAt path m = .ok bytes m)
    (flags : Word) :
    ∃ word m', openFile path flags m = .ok word m' ∧ m'.memory = m.memory ∧
      match m.granted? bytes flags with
      | none => word = -1 ∧ m'.descriptors = m.descriptors
      | some handle =>
          word = m.descriptors.next ∧ m'.descriptors = (m.descriptors.insert handle).2 := by
  rw [openFile_of_bytesAt hbytes, granted?]
  cases openModeOf? flags with
  | none => exact ⟨_, _, rfl, rfl, rfl, rfl⟩
  | some mode =>
      simp only [Option.bind_some]
      unfold opened
      cases (m.host.openFile (Text.Utf8.decode bytes) mode).1 with
      | error error => exact ⟨_, _, rfl, rfl, rfl, rfl⟩
      | ok handle => exact ⟨_, _, rfl, rfl, rfl, rfl⟩

theorem closeFile_of_none (h : m.descriptors.close? descriptor = none) :
    closeFile descriptor m = .ok (-1) m := by
  rw [closeFile, get_bind, h]
  rfl

theorem closeFile_of_some {descriptors : Descriptors}
    (h : m.descriptors.close? descriptor = some descriptors) :
    closeFile descriptor m = .ok 0 { m with descriptors } := by
  rw [closeFile, get_bind, h]
  rfl

/-- The words that a program may overwrite when it names their first address and their number: they
are in the pool and not in the text. -/
def MayWrite (m : Machine) (buffer size : Word) (extent : Extent) : Prop :=
  Extent.ofWords? buffer size = some extent ∧ extent.stop ≤ m.memory.size ∧
    (extent.start < extent.stop → m.layout.text.stop ≤ extent.start)

theorem MayWrite.writable (h : m.MayWrite buffer size extent) :
    Machine.writable buffer size m = .ok extent m := by
  obtain ⟨hextent, hpool, htext⟩ := h
  obtain ⟨first, hfirst, hrest⟩ := Option.bind_eq_some_iff.1 hextent
  obtain ⟨count, hcount, heq⟩ := Option.bind_eq_some_iff.1 hrest
  cases heq
  have hreadable : readable buffer size m = .ok ⟨first, first + count⟩ m := by
    rw [readable, hfirst, hcount]
    exact if_pos hpool
  have hfree : ¬(0 < Extent.size ⟨first, first + count⟩ ∧ first < m.layout.text.stop ∧
      m.layout.text.start < first + count) := by
    simp only [Extent.size] at htext ⊢
    omega
  rw [Machine.writable, bind_of_ok hreadable, get_bind, if_neg hfree]
  rfl

theorem Intact.writable_of_not_mayWrite (h : m.Intact)
    (hnone : ¬∃ extent, m.MayWrite buffer size extent) :
    Machine.writable buffer size m = .error (m.fault buffer) m := by
  rcases h.writable_span buffer size with ⟨extent, hextent, hpool, htext, -⟩ | hfault
  · exact absurd ⟨extent, hextent, hpool, htext⟩ hnone
  · exact hfault

/-- The bytes that the system gives for a descriptor, unless the read fails or nothing is open. -/
def offered? (m : Machine) (descriptor : Word) (count : Nat) : Option Bytes :=
  (m.descriptors.stream? descriptor).bind fun stream => (m.host.read stream count).1

theorem length_offered? {count : Nat} {bytes : Bytes}
    (h : m.offered? descriptor count = some bytes) : bytes.length ≤ count := by
  obtain ⟨stream, -, hread⟩ := Option.bind_eq_some_iff.1 h
  exact Host.length_of_read hread

/-- What the system gives goes to the front of the buffer. -/
theorem exists_filled (h : m.MayWrite buffer size extent) (descriptor : Word) :
    ∃ word m', readInto descriptor buffer size m = .ok word m' ∧
      m'.descriptors = m.descriptors ∧
      match m.offered? descriptor extent.size with
      | none => word = -1 ∧ m'.memory = m.memory
      | some bytes => word = Word.ofCount bytes.length ∧
          m'.memory = Memory.copy m.memory extent.start (bytes.map Word.ofByte) := by
  rw [readInto_of_writable h.writable, offered?]
  cases m.descriptors.stream? descriptor with
  | none => exact ⟨_, _, rfl, rfl, rfl, rfl⟩
  | some stream =>
      simp only [Option.bind_some]
      unfold filled
      cases (m.host.read stream extent.size).1 with
      | none => exact ⟨_, _, rfl, rfl, rfl, rfl⟩
      | some bytes => exact ⟨_, _, rfl, rfl, rfl, rfl⟩

/-! ## Descriptors along a run -/

/-- The descriptors that `open` returned, the latest first. -/
def handed : List Served → List Word
  | [] => []
  | ⟨.open, _, result⟩ :: earlier =>
      if result = -1 then handed earlier else result :: handed earlier
  | _ :: earlier => handed earlier

/-- The descriptors that `open` returned and that have not been passed to `close` since. -/
def usable : List Served → List Word
  | [] => []
  | ⟨.open, _, result⟩ :: earlier =>
      if result = -1 then usable earlier else result :: usable earlier
  | ⟨.close, arguments, _⟩ :: earlier =>
      (usable earlier).filter fun descriptor => descriptor ≠ arguments.getD 0 0
  | _ :: earlier => usable earlier

theorem handed_of_other {request : Trap} (hopen : request ≠ .open) (arguments : List Word)
    (result : Word) : handed (⟨request, arguments, result⟩ :: log) = handed log := by
  cases request <;> first | rfl | contradiction

theorem usable_of_other {request : Trap} (hopen : request ≠ .open) (hclose : request ≠ .close)
    (arguments : List Word) (result : Word) :
    usable (⟨request, arguments, result⟩ :: log) = usable log := by
  cases request <;> first | rfl | contradiction

/-- The descriptors that count up from 3, the latest first. -/
def numbered (count : Nat) : List Word :=
  ((List.range count).map fun index => Word.ofCount (3 + index)).reverse

theorem numbered_succ (count : Nat) :
    numbered (count + 1) = Word.ofCount (3 + count) :: numbered count := by
  rw [numbered, List.range_succ, List.map_append, List.reverse_append]
  rfl

theorem length_numbered (count : Nat) : (numbered count).length = count := by
  rw [numbered, List.length_reverse, List.length_map, List.length_range]

theorem not_mem_numbered {count : Nat} (hcount : 3 + count < 2 ^ 63) :
    Word.ofCount (3 + count) ∉ numbered count := by
  intro hmem
  obtain ⟨index, hindex, heq⟩ := List.mem_map.1 (List.mem_reverse.1 hmem)
  have hlt := List.mem_range.1 hindex
  have hsame := congrArg Word.count? heq
  rw [Word.count?_ofCount (by omega), Word.count?_ofCount hcount] at hsame
  have := Option.some.inj hsame
  omega

theorem nodup_numbered {count : Nat} (hcount : 3 + count ≤ 2 ^ 63) : (numbered count).Nodup := by
  induction count with
  | zero => exact List.nodup_nil
  | succ count ih =>
      rw [numbered_succ]
      exact List.nodup_cons.2 ⟨not_mem_numbered (by omega), ih (by omega)⟩

theorem ofCount_ne_neg_one {count : Nat} (hcount : count < 2 ^ 63) : Word.ofCount count ≠ -1 := by
  intro heq
  have hsame := congrArg Word.count? heq
  rw [Word.count?_ofCount hcount] at hsame
  cases hsame.trans (show Word.count? (-1) = none by decide)

/-- Whether the descriptors of the machine are those that the program has been given. -/
structure Registers (m : Machine) (log : List Served) : Prop where
  handed : handed log = numbered (handed log).length
  next : m.descriptors.next = Word.ofCount (3 + (Machine.handed log).length)
  usable : ∀ word, (m.descriptors.find? word).isSome ↔ word ∈ usable log

namespace Registers

theorem of_eq (h : m.Registers log) (heq : m'.descriptors = m.descriptors) : m'.Registers log where
  handed := h.handed
  next := heq ▸ h.next
  usable := heq ▸ h.usable

theorem of_same {later : List Served} (h : m.Registers log)
    (hhanded : Machine.handed later = Machine.handed log)
    (husable : Machine.usable later = Machine.usable log) : m.Registers later where
  handed := by rw [hhanded, ← h.handed]
  next := by rw [hhanded, h.next]
  usable word := by rw [husable, h.usable]

/-- A file that the system opens gets the next number. -/
theorem granted {handle : Handle} (h : m.Registers log)
    (hcount : 3 + (Machine.handed log).length < 2 ^ 63)
    (hnew : m'.descriptors = (m.descriptors.insert handle).2) :
    m'.Registers
      (⟨.open, arguments, Word.ofCount (3 + (Machine.handed log).length)⟩ :: log) := by
  have hne := ofCount_ne_neg_one hcount
  have hhanded : Machine.handed
      (⟨.open, arguments, Word.ofCount (3 + (Machine.handed log).length)⟩ :: log) =
      Word.ofCount (3 + (Machine.handed log).length) :: Machine.handed log := if_neg hne
  refine ⟨?_, ?_, fun word => ?_⟩
  · rw [hhanded, List.length_cons, numbered_succ, ← h.handed]
  · rw [hhanded, hnew, List.length_cons]
    change m.descriptors.next + 1 = _
    rw [h.next, ← Nat.add_assoc]
    exact (Int64.ofNat_add _ 1).symm
  · rw [Machine.usable, if_neg hne, hnew, Descriptors.find?_insert, List.mem_cons, ← h.usable,
      h.next]
    split
    · next heq => exact iff_of_true rfl (.inl heq)
    · next hne => exact (or_iff_right hne).symm

theorem openFile (h : m.Registers log) {path flags word : Word}
    (hopen : openFile path flags m = .ok word m')
    (hcount : 3 + (Machine.handed log).length < 2 ^ 63) :
    m'.Registers (⟨.open, arguments, word⟩ :: log) := by
  rcases bytesAt_eq (m := m) path with ⟨bytes, hbytes⟩ | hfault
  · obtain ⟨answer, opened, hdone, -, hanswer⟩ := exists_openFile hbytes flags
    rw [hdone] at hopen
    cases hopen
    cases hgranted : m.granted? bytes flags with
    | none =>
        rw [hgranted] at hanswer
        obtain ⟨rfl, hsame⟩ := hanswer
        exact (h.of_eq hsame).of_same (if_pos rfl) (if_pos rfl)
    | some handle =>
        rw [hgranted] at hanswer
        obtain ⟨rfl, hnew⟩ := hanswer
        rw [h.next]
        exact h.granted hcount hnew
  · rw [Machine.openFile, bind_of_error hfault] at hopen
    cases hopen

theorem closeFile (h : m.Registers log) {word : Word}
    (hclose : closeFile (arguments.getD 0 0) m = .ok word m') :
    m'.Registers (⟨.close, arguments, word⟩ :: log) := by
  have husable (word' : Word) : word' ∈ Machine.usable (⟨.close, arguments, word⟩ :: log) ↔
      word' ∈ Machine.usable log ∧ word' ≠ arguments.getD 0 0 := by
    rw [Machine.usable, List.mem_filter, decide_eq_true_iff]
  cases hfound : m.descriptors.close? (arguments.getD 0 0) with
  | none =>
      rw [closeFile_of_none hfound] at hclose
      cases hclose
      refine ⟨h.handed, h.next, fun word' => ?_⟩
      rw [husable, h.usable]
      refine (and_iff_left_of_imp fun hmem heq => ?_).symm
      rw [← h.usable, heq, Descriptors.close?_eq_none_iff.1 hfound] at hmem
      cases hmem
  | some descriptors =>
      rw [closeFile_of_some hfound] at hclose
      cases hclose
      refine ⟨h.handed, (Descriptors.next_close? hfound).trans h.next, fun word' => ?_⟩
      rw [husable, Descriptors.find?_close? hfound, ← h.usable]
      split
      · next heq => exact iff_of_false Bool.false_ne_true fun hleft => hleft.2 heq
      · next hne => exact (and_iff_left hne).symm

theorem readInto (h : m.Registers log) (hintact : m.Intact) {word : Word}
    (hread : readInto descriptor buffer size m = .ok word m') : m'.Registers log := by
  by_cases hmay : ∃ extent, m.MayWrite buffer size extent
  · obtain ⟨extent, hmay⟩ := hmay
    obtain ⟨answer, done, hdone, hsame, -⟩ := exists_filled hmay descriptor
    rw [hdone] at hread
    cases hread
    exact h.of_eq hsame
  · rw [Machine.readInto, bind_of_error (hintact.writable_of_not_mayWrite hmay)] at hread
    cases hread

theorem serve (h : m.Registers log) (hintact : m.Intact) {request : Trap}
    (hserve : serve request arguments m = .ok none m')
    (hcount : 3 + (Machine.handed log).length < 2 ^ 63) :
    m'.Registers (⟨request, arguments, m'.acc⟩ :: log) := by
  obtain ⟨word, answered, hanswer, rfl⟩ := exists_answer hserve
  have hsame {log : List Served} (h : answered.Registers log) :
      ({ answered with acc := word } : Machine).Registers log := h.of_eq rfl
  by_cases hopen : request = .open
  · subst hopen
    exact hsame (h.openFile hanswer hcount)
  by_cases hclose : request = .close
  · subst hclose
    exact hsame (h.closeFile hanswer)
  have hafter : answered.Registers log := by
    by_cases hread : request = .read
    · subst hread
      exact h.readInto hintact hanswer
    · have hdescriptors := descriptors_answer hopen hread hclose arguments m
      rw [after_of_ok hanswer] at hdescriptors
      exact h.of_eq hdescriptors
  exact hsame (hafter.of_same (handed_of_other hopen _ _) (usable_of_other hopen hclose _ _))

end Registers

theorem length_handed_le (served log : List Served) :
    (handed log).length ≤ (handed (served ++ log)).length := by
  induction served with
  | nil => exact Nat.le_refl _
  | cons first rest ih =>
      obtain ⟨request, arguments, result⟩ := first
      by_cases hopen : request = .open
      · subst hopen
        rw [List.cons_append, handed]
        split
        · exact ih
        · exact Nat.le_succ_of_le ih
      · rw [List.cons_append, handed_of_other hopen]
        exact ih

theorem Underway.registers (hstart : start.Reached) (hrunnable : start.status.isRunnable)
    (h : Underway start entry tracing log m) (hcount : 3 + (handed log).length < 2 ^ 63) :
    m.Registers log := by
  obtain ⟨layout, hunspent⟩ := hstart.unspent
  induction h with
  | begin =>
      have hpristine := hstart.pristine hrunnable
      refine ⟨rfl, hpristine.next, fun word => ?_⟩
      change (List.lookup word start.descriptors.handles).isSome ↔ _
      rw [hpristine.handles]
      exact iff_of_false Bool.false_ne_true List.not_mem_nil
  | @step log m m' h hstep ih =>
      have hintact := h.intactWith hunspent.intact.intact
      have hbefore : 3 + (handed log).length < 2 ^ 63 :=
        Nat.lt_of_le_of_lt (Nat.add_le_add_left (length_handed_le _ _) 3) hcount
      rcases served_cases hstep with ⟨request, arguments, hrequests⟩ | ⟨hnone, -, hdescriptors⟩
      · obtain ⟨poised, hpoised, heq⟩ := hrequests.exists_poised hintact.intact tracing
        rw [heq] at hstep
        rw [served_of_requests hrequests]
        exact ((ih hbefore).of_eq hpoised.descriptors).serve hpoised.intact hstep hbefore
      · rw [hnone]
        exact (ih hbefore).of_eq hdescriptors
  | replace _ host ih => exact (ih hcount).of_eq rfl

/-! ## What programs see -/

/-- What the three traps do for a program that has carried out these traps. -/
structure Distinguishes (m : Machine) (tracing : Bool) (log : List Served) : Prop where
  handed : handed log = numbered (handed log).length
  nodup : (Machine.handed log).Nodup
  /-- The system decides whether a file is opened, and by which handle. -/
  opens : ∀ arguments path, m.Requests .open arguments →
    bytesAt (arguments.getD 0 0) m = .ok path m →
    ∃ m', step tracing m = .ok none m' ∧ m'.memory = m.memory ∧
      match m.granted? path (arguments.getD 1 0) with
      | none => m'.acc = -1 ∧ m'.descriptors = m.descriptors
      | some handle =>
          m'.acc = Word.ofCount (3 + (Machine.handed log).length) ∧
          m'.acc ∉ Machine.handed log ∧ m'.descriptors.find? m'.acc = some handle ∧
          ∀ other ≠ m'.acc, m'.descriptors.find? other = m.descriptors.find? other
  unnamed : ∀ arguments, m.Requests .open arguments →
    (∀ path, bytesAt (arguments.getD 0 0) m ≠ .ok path m) →
    ∃ m', step tracing m = .error (.invalidAccess (arguments.getD 0 0) m.pc) m' ∧
      m'.memory = m.memory ∧ m'.descriptors = m.descriptors
  usable : ∀ word, (m.descriptors.find? word).isSome ↔ word ∈ usable log
  closes : ∀ arguments, m.Requests .close arguments →
    ∃ m', step tracing m = .ok none m' ∧ m'.memory = m.memory ∧
      m'.acc = (if arguments.getD 0 0 ∈ Machine.usable log then 0 else -1) ∧
      ∀ other ≠ arguments.getD 0 0, m'.descriptors.find? other = m.descriptors.find? other
  /-- There is nothing to read from what is neither standard input nor usable. -/
  misses : ∀ arguments extent, m.Requests .read arguments →
    m.MayWrite (arguments.getD 1 0) (arguments.getD 2 0) extent →
    arguments.getD 0 0 ≠ 0 → arguments.getD 0 0 ∉ Machine.usable log →
    ∃ m', step tracing m = .ok none m' ∧ m'.acc = -1 ∧ m'.memory = m.memory ∧
      m'.descriptors = m.descriptors
  faults : ∀ arguments, m.Requests .read arguments →
    (¬∃ extent, m.MayWrite (arguments.getD 1 0) (arguments.getD 2 0) extent) →
    ∃ m', step tracing m = .error (.invalidAccess (arguments.getD 1 0) m.pc) m' ∧
      m'.memory = m.memory ∧ m'.descriptors = m.descriptors
  reads : ∀ arguments extent, m.Requests .read arguments →
    m.MayWrite (arguments.getD 1 0) (arguments.getD 2 0) extent →
    ∃ m', step tracing m = .ok none m' ∧ m'.descriptors = m.descriptors ∧
      match m.offered? (arguments.getD 0 0) extent.size with
      | none => m'.acc = -1 ∧ m'.memory = m.memory
      | some bytes => m'.acc.count? = some bytes.length ∧ bytes.length ≤ extent.size ∧
          (∀ index, index < extent.start ∨ extent.start + bytes.length ≤ index →
            m'.memory[index]? = m.memory[index]?) ∧
          ∀ index < bytes.length, ∃ word, m'.memory[extent.start + index]? = some word ∧
            0 ≤ word ∧ word ≤ 255

theorem Poised.mayWrite (h : m.Poised poised) :
    poised.MayWrite buffer size extent ↔ m.MayWrite buffer size extent := by
  unfold MayWrite
  rw [h.memory, h.layout]

theorem Poised.offered? (h : m.Poised poised) (descriptor : Word) (count : Nat) :
    poised.offered? descriptor count = m.offered? descriptor count := by
  unfold Machine.offered? Host.read
  rw [h.descriptors, h.system, h.asked]

theorem Poised.granted? (h : m.Poised poised) (path : Bytes) (flags : Word) :
    poised.granted? path flags = m.granted? path flags := by
  unfold Machine.granted? Host.openFile
  rw [h.system, h.asked]

theorem Poised.bytesAt (h : m.Poised poised) {word : Word} {bytes : Bytes} :
    Machine.bytesAt word poised = .ok bytes poised ↔ Machine.bytesAt word m = .ok bytes m := by
  have hpoised := @bytesAt_cases poised word
  rw [h.memory] at hpoised
  rcases hpoised with ⟨address, hinside, hbytes⟩ | ⟨hnone, hfault⟩
  · rcases @bytesAt_cases m word with ⟨_, hsame, hbytes'⟩ | ⟨hnone, -⟩
    · cases hinside.symm.trans hsame
      rw [hbytes, hbytes', EStateM.Result.ok.injEq, EStateM.Result.ok.injEq]
      simp
    · cases hinside.symm.trans hnone
  · rcases @bytesAt_cases m word with ⟨_, hsame, -⟩ | ⟨-, hfault'⟩
    · cases hnone.symm.trans hsame
    · rw [hfault, hfault']
      simp

theorem offered?_of_not_usable {count : Nat} (hinput : descriptor ≠ 0)
    (h : ¬(m.descriptors.find? descriptor).isSome) : m.offered? descriptor count = none := by
  rw [offered?, Descriptors.stream?, if_neg hinput, Option.not_isSome_iff_eq_none.1 h]
  rfl

/-- What is in the words of a buffer that bytes have been read into. -/
theorem exists_byte_of_copy {memory : Array Word} {start index : Nat} {bytes : Bytes}
    (hpool : start + bytes.length ≤ memory.size) (hindex : index < bytes.length) :
    ∃ word, (Memory.copy memory start (bytes.map Word.ofByte))[start + index]? = some word ∧
      0 ≤ word ∧ word ≤ 255 := by
  refine ⟨Word.ofByte bytes[index], ?_, Word.ofByte_bounds _⟩
  rw [Memory.getElem?_copy, List.length_map, if_pos (by omega), Nat.add_sub_cancel_left,
    List.getElem?_map, List.getElem?_eq_getElem hindex]
  rfl

/-- An open as the program sees it. -/
theorem Registers.exists_openFile (h : m.Registers log)
    (hcount : 3 + (Machine.handed log).length < 2 ^ 63) {path : Word} {bytes : Bytes}
    (hbytes : Machine.bytesAt path m = .ok bytes m) (flags : Word) :
    ∃ word m', Machine.openFile path flags m = .ok word m' ∧ m'.memory = m.memory ∧
      match m.granted? bytes flags with
      | none => word = -1 ∧ m'.descriptors = m.descriptors
      | some handle =>
          word = Word.ofCount (3 + (Machine.handed log).length) ∧ word ∉ Machine.handed log ∧
          m'.descriptors.find? word = some handle ∧
          ∀ other ≠ word, m'.descriptors.find? other = m.descriptors.find? other := by
  obtain ⟨word, done, hdone, hmemory, hanswer⟩ := Machine.exists_openFile hbytes flags
  refine ⟨word, done, hdone, hmemory, ?_⟩
  cases hgranted : m.granted? bytes flags with
  | none =>
      rw [hgranted] at hanswer
      exact hanswer
  | some handle =>
      rw [hgranted] at hanswer
      obtain ⟨hnext, hnew⟩ := hanswer
      have hword := hnext.trans h.next
      have hfind (other : Word) : done.descriptors.find? other =
          if other = word then some handle else m.descriptors.find? other := by
        rw [hnew, Descriptors.find?_insert, hnext]
      refine ⟨hword, ?_, (hfind word).trans (if_pos rfl), fun other hne =>
        (hfind other).trans (if_neg hne)⟩
      rw [hword, h.handed, length_numbered]
      exact not_mem_numbered hcount

theorem Registers.exists_closeFile (h : m.Registers log) (descriptor : Word) :
    ∃ m', Machine.closeFile descriptor m =
        .ok (if descriptor ∈ Machine.usable log then 0 else -1) m' ∧
      m'.memory = m.memory ∧
      ∀ other ≠ descriptor, m'.descriptors.find? other = m.descriptors.find? other := by
  have husable := h.usable descriptor
  cases hfound : m.descriptors.close? descriptor with
  | none =>
      rw [Descriptors.close?_eq_none_iff.1 hfound] at husable
      rw [if_neg fun hmem => Bool.false_ne_true (husable.2 hmem)]
      exact ⟨m, closeFile_of_none hfound, rfl, fun _ _ => rfl⟩
  | some descriptors =>
      have hopen : (m.descriptors.find? descriptor).isSome := by
        rw [← Bool.not_eq_false, ← Descriptors.close?_eq_none_iff, hfound]
        exact Option.some_ne_none _
      rw [if_pos (husable.1 hopen)]
      exact ⟨_, closeFile_of_some hfound, rfl, fun other hne =>
        (Descriptors.find?_close? hfound other).trans (if_neg hne)⟩

/-- A read as the program sees it. -/
theorem exists_readInto (h : m.MayWrite buffer size extent) (descriptor : Word) :
    ∃ word m', readInto descriptor buffer size m = .ok word m' ∧
      m'.descriptors = m.descriptors ∧
      match m.offered? descriptor extent.size with
      | none => word = -1 ∧ m'.memory = m.memory
      | some bytes => word.count? = some bytes.length ∧ bytes.length ≤ extent.size ∧
          (∀ index, index < extent.start ∨ extent.start + bytes.length ≤ index →
            m'.memory[index]? = m.memory[index]?) ∧
          ∀ index < bytes.length, ∃ word, m'.memory[extent.start + index]? = some word ∧
            0 ≤ word ∧ word ≤ 255 := by
  obtain ⟨word, done, hdone, hdescriptors, hanswer⟩ := exists_filled h descriptor
  refine ⟨word, done, hdone, hdescriptors, ?_⟩
  cases hoffered : m.offered? descriptor extent.size with
  | none =>
      rw [hoffered] at hanswer
      exact hanswer
  | some bytes =>
      rw [hoffered] at hanswer
      obtain ⟨rfl, hmemory⟩ := hanswer
      obtain ⟨hextent, hpool, -⟩ := h
      obtain ⟨first, hfirst, hrest⟩ := Option.bind_eq_some_iff.1 hextent
      obtain ⟨count, hcount, heq⟩ := Option.bind_eq_some_iff.1 hrest
      cases heq
      have hsmall := Word.count?_lt hcount
      have hlength : bytes.length ≤ first + count - first := length_offered? hoffered
      simp only at hpool
      refine ⟨Word.count?_ofCount (by omega), hlength, fun index houtside => ?_,
        fun index hindex => ?_⟩
      · rw [hmemory, Memory.getElem?_copy, List.length_map, if_neg (by omega)]
      · rw [hmemory]
        exact exists_byte_of_copy (by simp only; omega) hindex

theorem distinguishes_of_underway (hstart : start.Reached) (hrunnable : start.status.isRunnable)
    (h : Underway start entry tracing log m) (hcount : 3 + (handed log).length < 2 ^ 63) :
    m.Distinguishes tracing log := by
  obtain ⟨layout, hunspent⟩ := hstart.unspent
  have hintact := (h.intactWith hunspent.intact.intact).intact
  have hregisters := h.registers hstart hrunnable hcount
  refine ⟨hregisters.handed, ?_, ?_, ?_, hregisters.usable, ?_, ?_, ?_, ?_⟩
  · rw [hregisters.handed]
    exact nodup_numbered (Nat.le_of_lt hcount)
  · intro arguments path hrequests hpath
    obtain ⟨poised, hpoised, heq⟩ := hrequests.exists_poised hintact tracing
    rw [← hpoised.bytesAt] at hpath
    rw [← hpoised.granted?, ← hpoised.descriptors, ← hpoised.memory, heq]
    obtain ⟨word, done, hdone, hmemory, hanswer⟩ :=
      (hregisters.of_eq hpoised.descriptors).exists_openFile hcount hpath (arguments.getD 1 0)
    exact ⟨_, serve_of_ok hdone, hmemory, hanswer⟩
  · intro arguments hrequests hnone
    obtain ⟨poised, hpoised, heq⟩ := hrequests.exists_poised hintact tracing
    have hfault : bytesAt (arguments.getD 0 0) poised =
        .error (poised.fault (arguments.getD 0 0)) poised :=
      (bytesAt_eq _).resolve_left fun ⟨path, hpath⟩ => hnone path (hpoised.bytesAt.1 hpath)
    refine ⟨_, ?_, hpoised.memory, hpoised.descriptors⟩
    rw [heq, serve_of_error (bind_of_error hfault), fault, hpoised.current]
  · intro arguments hrequests
    obtain ⟨poised, hpoised, heq⟩ := hrequests.exists_poised hintact tracing
    obtain ⟨done, hdone, hmemory, hother⟩ :=
      (hregisters.of_eq hpoised.descriptors).exists_closeFile (arguments.getD 0 0)
    exact ⟨_, heq.trans (serve_of_ok hdone), hmemory.trans hpoised.memory, rfl,
      fun other hne => (hother other hne).trans (congrArg (·.find? other) hpoised.descriptors)⟩
  · intro arguments extent hrequests hmay hinput hother
    obtain ⟨poised, hpoised, heq⟩ := hrequests.exists_poised hintact tracing
    have hnone : m.offered? (arguments.getD 0 0) extent.size = none :=
      offered?_of_not_usable hinput fun hsome => hother ((hregisters.usable _).1 hsome)
    obtain ⟨word, done, hdone, hdescriptors, hanswer⟩ :=
      exists_filled (hpoised.mayWrite.2 hmay) (arguments.getD 0 0)
    rw [hpoised.offered?, hnone] at hanswer
    exact ⟨_, heq.trans (serve_of_ok hdone), hanswer.1, hanswer.2.trans hpoised.memory,
      hdescriptors.trans hpoised.descriptors⟩
  · intro arguments hrequests hnone
    obtain ⟨poised, hpoised, heq⟩ := hrequests.exists_poised hintact tracing
    have hfault := hpoised.intact.writable_of_not_mayWrite
      (fun ⟨extent, hmay⟩ => hnone ⟨extent, hpoised.mayWrite.1 hmay⟩)
    refine ⟨_, ?_, hpoised.memory, hpoised.descriptors⟩
    rw [heq, serve_of_error (bind_of_error hfault), fault, hpoised.current]
  · intro arguments extent hrequests hmay
    obtain ⟨poised, hpoised, heq⟩ := hrequests.exists_poised hintact tracing
    rw [← hpoised.offered?, ← hpoised.descriptors, ← hpoised.memory, heq]
    obtain ⟨word, done, hdone, hother, hmemory⟩ :=
      exists_readInto (hpoised.mayWrite.2 hmay) (arguments.getD 0 0)
    exact ⟨_, serve_of_ok hdone, hother, hmemory⟩

/-- A system with a file of two bytes, which may be read once and not be written. -/
def reading : System where
  opens
    | _, "x", .read => .ok 7
    | _, "x", _ => .error (.other "Permission denied (os error 13)")
    | _, _, _ => .error .notFound
  reads asked _ count :=
    some ((if asked.any (· matches .read ..) then [] else [104, 105]).take count)
  length_le := by
    intro _ _ _ _ h
    cases h
    exact List.length_take_le _ _

/-- A program that opens the file for reading and for writing, reads four bytes and closes the
file. -/
def filing : Machine :=
  Machine.performAll { small with host := { system := reading } }
    ([.allocate [120, 0]] ++
      ([Opcode.imm.word, 64, Opcode.push.word, Opcode.imm.word, 0, Opcode.push.word,
        (Opcode.trap .open).word, 2,
        Opcode.imm.word, 64, Opcode.push.word, Opcode.imm.word, 1, Opcode.push.word,
        (Opcode.trap .open).word, 2,
        Opcode.imm.word, 3, Opcode.push.word, Opcode.imm.word, 66, Opcode.push.word,
        Opcode.imm.word, 4, Opcode.push.word, (Opcode.trap .read).word, 3,
        Opcode.imm.word, 3, Opcode.push.word, (Opcode.trap .close).word, 1,
        Opcode.exit.word].map .emit))

/-- The traps of the program in front of the last one. -/
def filed : List Served :=
  [⟨.read, [3, 66, 4], 2⟩, ⟨.open, [64, 1], -1⟩, ⟨.open, [64, 0], 3⟩]

/-- The program has a descriptor that is usable, and is about to close it. -/
theorem distinguishes_filing :
    filing.Reached ∧ filing.status.isRunnable ∧
    Underway filing 0 false filed (filing.after (runFrom 0 false 19)) ∧
    3 + (handed filed).length < 2 ^ 63 ∧ 3 ∈ usable filed ∧
    (filing.after (runFrom 0 false 19)).Requests .close [3] ∧
    (filing.after (runFrom 0 false 19)).Distinguishes false filed := by
  have hreached : filing.Reached := ((Reached.create create_small).replace _).performAll _
  have hrunnable : filing.status.isRunnable := by decide +kernel
  have hunderway : Underway filing 0 false filed (filing.after (runFrom 0 false 19)) := by
    have htraps : filing.traps 0 false 19 = filed := by decide +kernel
    rw [← htraps]
    exact underway_runFrom hrunnable (by decide +kernel)
  have hunlimited : (filing.after (runFrom 0 false 19)).cycleLimit = none := by decide +kernel
  have hrequests : (filing.after (runFrom 0 false 19)).Requests .close [3] :=
    ⟨fun _ hlimit => (nomatch hunlimited.symm.trans hlimit), by decide +kernel⟩
  have hcount : 3 + (handed filed).length < 2 ^ 63 := by decide
  exact ⟨hreached, hrunnable, hunderway, hcount, by decide, hrequests,
    distinguishes_of_underway hreached hrunnable hunderway hcount⟩

/-- A program that reads four words from a descriptor that is not open, to the start of its text. -/
def misreading : Machine :=
  small.performAll [.emit Opcode.imm.word, .emit 42, .emit Opcode.push.word,
    .emit Opcode.imm.word, .emit 0, .emit Opcode.push.word,
    .emit Opcode.imm.word, .emit 4, .emit Opcode.push.word,
    .emit (Opcode.trap .read).word, .emit 3, .emit Opcode.exit.word]

/-- A read from what is not usable need not be answered: it may fail for its buffer. -/
theorem misreading_faults :
    misreading.Reached ∧ misreading.status.isRunnable ∧
    Underway misreading 0 false (misreading.traps 0 false 6)
      (misreading.after (runFrom 0 false 6)) ∧
    (misreading.after (runFrom 0 false 6)).Requests .read [42, 0, 4] ∧
    (42 : Word) ≠ 0 ∧ 42 ∉ usable (misreading.traps 0 false 6) ∧
    ¬∃ m', step false (misreading.after (runFrom 0 false 6)) = .ok none m' ∧ m'.acc = -1 := by
  have hreached : misreading.Reached := (Reached.create create_small).performAll _
  have hrunnable : misreading.status.isRunnable := by decide +kernel
  have hunderway : Underway misreading 0 false (misreading.traps 0 false 6)
      (misreading.after (runFrom 0 false 6)) := underway_runFrom hrunnable (by decide +kernel)
  have hunlimited : (misreading.after (runFrom 0 false 6)).cycleLimit = none := by decide +kernel
  have hrequests : (misreading.after (runFrom 0 false 6)).Requests .read [42, 0, 4] :=
    ⟨fun _ hlimit => (nomatch hunlimited.symm.trans hlimit), by decide +kernel⟩
  refine ⟨hreached, hrunnable, hunderway, hrequests, by decide, by decide +kernel, ?_⟩
  rintro ⟨m', hstep, -⟩
  have hfails : (step false (misreading.after (runFrom 0 false 6)) matches .error _ _) = true := by
    decide +kernel
  rw [hstep] at hfails
  cases hfails

end Machine

end WordC
