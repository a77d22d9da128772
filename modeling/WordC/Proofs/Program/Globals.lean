import WordC.Proofs.Program.Initializers

/-!
# Globals that are not initialized

Outside of functions a program stores to the globals with initial values only. Without `memset` and
`read` no other instruction writes to the data, so a global without an initial value stays zero
until a function assigns it.
-/

namespace WordC

open WordC.Core (Context Instr Place Section)

namespace Boot

variable {boot : Boot} {first address n : Nat} {sections : List Section} {m : Machine}
  {instruction : Instruction}

/-- A function has stored to a global before a step of the run. -/
def Assigned (boot : Boot) (address n : Nat) : Prop :=
  ∃ earlier < n, ∃ m instruction, boot.Reaches earlier m ∧ boot.calls earlier ≠ [] ∧
    m.fetch = .ok instruction ∧ instruction.opcode = .si ∧ m.acc = Word.ofCount address

/-- What is stored outside of functions is an initial value. -/
theorem Visits.exists_initializer (h : boot.Visits first address sections) (hle : first ≤ n)
    (hrun : boot.Reaches n m) (hnone : boot.calls n = []) (hfetch : m.fetch = .ok instruction)
    (hopcode : instruction.opcode = .si) :
    ∃ slot value, .initializer slot value ∈ sections ∧ m.acc = Word.ofCount slot := by
  induction h with
  | function _ ih =>
      obtain ⟨slot, value, hmem, hacc⟩ := ih hle
      exact ⟨slot, value, List.mem_cons_of_mem _ hmem, hacc⟩
  | @initializer first last address slot value rest begun evaluated stored hstores _ ih =>
      rcases Nat.lt_or_ge n (last + 4) with hlt | hge
      · exact ⟨slot, value, List.mem_cons_self,
          (hstores.within n hle hlt).store m instruction hrun hnone hfetch hopcode⟩
      · obtain ⟨slot, value, hmem, hacc⟩ := ih hge
        exact ⟨slot, value, List.mem_cons_of_mem _ hmem, hacc⟩
  | faults _ hwithin _ =>
      exact ⟨_, _, List.mem_cons_self,
        (hwithin n hle).store m instruction hrun hnone hfetch hopcode⟩
  | forever _ hwithin _ =>
      exact ⟨_, _, List.mem_cons_self,
        (hwithin n hle).store m instruction hrun hnone hfetch hopcode⟩
  | @main first address called h =>
      rcases Nat.eq_or_lt_of_le hle with rfl | hlt
      · obtain ⟨target, slots, body, -, hcall, -⟩ := h.call
        cases h.here.reaches.symm.trans hrun
        cases hcall.symm.trans hfetch
        cases hopcode
      · cases (h.back n m hlt hrun hnone).2.1.symm.trans hfetch
        cases hopcode

end Boot

namespace Image

variable {image : Image} {start m m' : Machine} {tracing : Bool} {address n : Nat}
  {instruction : Instruction}

theorem Loaded.global_lt (hloaded : image.Loaded)
    (hglobal : (Place.global address).Valid image.context) :
    address < image.base.layout.data.stop :=
  Nat.lt_of_lt_of_le hglobal.2 hloaded.dataStop

namespace Tour

variable (htour : image.Tour start tracing)

include htour

theorem exists_initializer (hnodup : (Core.names image.sections).Nodup)
    (hrun : (image.boot start tracing).Reaches n m)
    (hnone : (image.boot start tracing).calls n = []) (hfetch : m.fetch = .ok instruction)
    (hopcode : instruction.opcode = .si) :
    ∃ slot value, .initializer slot value ∈ image.sections ∧ m.acc = Word.ofCount slot := by
  rcases Nat.eq_zero_or_pos n with rfl | hpos
  · have hjump : (m.pc, .jump .jmp (Core.nextStart (image.start + 2) image.sections)) ∈
        image.lines := by
      rw [htour.runs_zero hrun]
      exact List.mem_cons_self
    cases (htour.loaded.fetch_eq (htour.steady hrun) hjump rfl).symm.trans hfetch
    cases hopcode
  · rcases htour.visits_program hnodup with hvisits | ⟨limit, hfails⟩
    · exact hvisits.exists_initializer hpos hrun hnone hfetch hopcode
    · exact absurd hrun (not_reaches_of_fails htour.ready.isRunnable hfails hpos)

/-- What a step may do to a global: it stores to it, or passes it to `memset` or `read`. -/
theorem writes_of_touches (hglobal : (Place.global address).Valid image.context)
    (hrun : (image.boot start tracing).Reaches n m)
    (hrun' : (image.boot start tracing).Reaches (n + 1) m')
    (htouches : m.Touches instruction m' address) :
    (instruction.opcode = .si ∧ m.acc = Word.ofCount address) ∨
      instruction.opcode = .trap .memset ∨ instruction.opcode = .trap .read := by
  have hlt := htour.loaded.global_lt hglobal
  have hordered := htour.loaded.sound.ordered
  have hheap := hordered.heap
  have hheapStop := hordered.heapStop
  have hstack := hordered.stack
  cases htouches with
  | stack _ habove _ =>
      have hstart := (htour.intact hrun').spStart
      rw [(htour.steady hrun').layout] at hstart
      omega
  | store hopcode htarget _ => exact .inl ⟨hopcode, Word.eq_ofCount htarget⟩
  | block _ _ _ _ _ hfree =>
      obtain ⟨free, hmem, hstart, -⟩ := hfree
      have hinside := (htour.intact hrun).heap.inside (List.mem_append_left _ hmem)
      rw [(htour.steady hrun).layout] at hinside
      omega
  | span request hopcode count _ extent hpassed _ _ _ _ =>
      cases request with
      | memset => exact .inr (.inl hopcode)
      | read => exact .inr (.inr hopcode)
      | _ => cases hpassed

/-- A global that has no initial value is zero until a function assigns it. -/
theorem zero_or_assigned (hnodup : (Core.names image.sections).Nodup)
    (hplain : ∀ line ∈ image.listing,
      line.2.opcode ≠ .trap .memset ∧ line.2.opcode ≠ .trap .read)
    (hglobal : (Place.global address).Valid image.context)
    (hnone : ∀ value, .initializer address value ∉ image.sections)
    (hzero : start.memory[address]? = some 0) (hrun : (image.boot start tracing).Reaches n m) :
    m.memory[address]? = some 0 ∨ (image.boot start tracing).Assigned address n := by
  induction n generalizing m with
  | zero =>
      rw [htour.runs_zero hrun]
      exact .inl hzero
  | succ n ih =>
      obtain ⟨before, hbefore⟩ := Machine.exists_runFrom_of_le htour.ready.isRunnable
        (Nat.le_succ n) hrun
      have hstep := htour.step_eq hbefore hrun
      rcases ih hbefore with hkept | ⟨earlier, hlt, hassigned⟩
      · have hconfined := (htour.intact hbefore).after_step tracing
        rw [Machine.after_of_ok hstep] at hconfined
        by_cases htouched : before.StepTouches m address
        · obtain ⟨instruction, hfetch, htouches⟩ := htouched
          obtain ⟨instr, hline, hfetched⟩ := htour.located hbefore
          cases hfetched.symm.trans hfetch
          have hnot := hplain (before.pc, instr.linked image.entries)
            (mem_linked.2 ⟨instr, hline, rfl⟩)
          rcases htour.writes_of_touches hglobal hbefore hrun htouches with
            ⟨hopcode, hacc⟩ | hmemset | hread
          · refine .inr ⟨n, Nat.lt_succ_self n, before, _, hbefore, fun houtside => ?_, hfetch,
              hopcode, hacc⟩
            obtain ⟨slot, value, hmem, hslot⟩ :=
              htour.exists_initializer hnodup hbefore houtside hfetch hopcode
            have hvalid := (htour.loaded.sections _ hmem).1
            have hsmall : ∀ {slot}, (Place.global slot).Valid image.context → slot < 2 ^ 63 := by
              intro slot hslot
              have hlast := htour.loaded.global_lt hslot
              have hstack := htour.loaded.data_le_stack
              have hstackStop : image.stack.start < image.stack.stop :=
                htour.loaded.sound.ordered.stackStop
              have hlt := htour.loaded.stack_lt
              omega
            have hsame : some slot = some address := by
              rw [← Word.count?_ofCount (hsmall hvalid), ← Word.count?_ofCount (hsmall hglobal),
                ← hslot, hacc]
            cases hsame
            exact hnone value hmem
          · exact absurd hmemset hnot.1
          · exact absurd hread hnot.2
        · rw [hconfined.keeps.memory address htouched]
          exact .inl hkept
      · exact .inr ⟨earlier, Nat.lt_succ_of_lt hlt, hassigned⟩

end Tour

end Image

end WordC
