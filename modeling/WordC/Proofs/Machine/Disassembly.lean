import Mathlib.Algebra.GroupWithZero.Nat
import WordC.Proofs.Machine.Calls

/-!
# Listing the text

An instruction is decoded from its own words and from nothing behind them, so instructions that are
written one after the other are read back at the addresses at which they were written. Text that
came about in any other way is listed as far as it can be decoded.
-/

namespace WordC

/-! ## Words and instructions -/

theorem Opcode.word_of_ofWord? {word : Word} {opcode : Opcode} (h : ofWord? word = some opcode) :
    opcode.word = word := by
  obtain ⟨index, hcount, hget⟩ := Option.bind_eq_some_iff.1 h
  have hnodup : all.Nodup := by decide
  obtain ⟨hlt, rfl⟩ := List.getElem?_eq_some_iff.1 hget
  have hindex : (all[index]).index = index := hnodup.idxOf_getElem index hlt
  rw [Opcode.word, hindex]
  exact (Word.eq_ofCount hcount).symm

namespace Instruction

variable {instruction : Instruction} {words : List Word}

theorem decode?_eq_some_iff :
    decode? words = some instruction ↔ instruction.IsComplete ∧ instruction.words <+: words := by
  constructor
  · intro h
    cases words with
    | nil => cases h
    | cons word rest =>
        obtain ⟨opcode, hopcode, hoperand⟩ := Option.bind_eq_some_iff.1 h
        obtain rfl := Opcode.word_of_ofWord? hopcode
        by_cases hhas : opcode.hasOperand = true
        · rw [if_pos hhas] at hoperand
          obtain ⟨operand, hhead, hsome⟩ := Option.bind_eq_some_iff.1 hoperand
          cases hsome
          obtain ⟨behind, rfl⟩ := List.head?_eq_some_iff.1 hhead
          exact ⟨hhas, behind, rfl⟩
        · rw [if_neg hhas] at hoperand
          cases hoperand
          exact ⟨by simpa [IsComplete] using hhas, rest, rfl⟩
  · rintro ⟨hcomplete, rest, rfl⟩
    exact decode?_words hcomplete rest

theorem width_pos (instruction : Instruction) : 0 < instruction.width := by
  unfold width
  split <;> omega

/-- Why no instruction can be decoded. -/
inductive Undecodable : List Word → Prop
  | empty : Undecodable []
  | unknown {word : Word} {rest : List Word} (h : Opcode.ofWord? word = none) :
      Undecodable (word :: rest)
  | cut {word : Word} {opcode : Opcode} (h : Opcode.ofWord? word = some opcode)
      (operand : opcode.hasOperand = true) : Undecodable [word]

theorem decode?_eq_none_iff : decode? words = none ↔ Undecodable words := by
  constructor
  · intro h
    cases words with
    | nil => exact .empty
    | cons word rest =>
        cases hopcode : Opcode.ofWord? word with
        | none => exact .unknown hopcode
        | some opcode =>
            simp only [decode?, hopcode, Option.bind_eq_bind, Option.bind_some] at h
            by_cases hhas : opcode.hasOperand = true
            · cases rest with
              | nil => exact .cut hopcode hhas
              | cons operand rest => simp [hhas] at h
            · simp [hhas] at h
  · intro h
    cases h with
    | empty => rfl
    | unknown hopcode => simp [decode?, hopcode]
    | cut hopcode hhas => simp [decode?, hopcode, hhas]

end Instruction

/-! ## Listings -/

open Instruction (Undecodable)

/-- The listing reads the words from an address on as far as they can be decoded: to their end, to a
word that is no opcode, or to an opcode whose operand is missing. No other listing goes beyond. -/
structure IsListing (address : Nat) (words : List Word) (listing : List (Nat × Instruction)) :
    Prop where
  reads : ∃ front back, words = front ++ back ∧ Decodes address front listing ∧ Undecodable back
  longest : ∀ front other, front <+: words → Decodes address front other → other <+: listing

namespace Machine

variable {m m' m'' : Machine} {address steps : Nat} {words front back more : List Word}
  {instructions : List Instruction} {listing : List (Nat × Instruction)}

/-! ### Reading -/

theorem go_nil (address steps : Nat) : disassemble.go address [] steps = [] := by
  cases steps <;> rfl

/-- Instructions are listed one by one, and then what is behind them. -/
theorem go_append (h : Decodes address front listing)
    (hsteps : front.length + back.length ≤ steps) :
    ∃ fewer, back.length ≤ fewer ∧
      disassemble.go address (front ++ back) steps =
        listing ++ disassemble.go (address + front.length) back fewer := by
  induction h generalizing steps with
  | nil address => exact ⟨steps, by simpa using hsteps, rfl⟩
  | @cons address front instruction rest head fits tail ih =>
      obtain ⟨hcomplete, behind, rfl⟩ := Instruction.decode?_eq_some_iff.1 head
      have hlength := instruction.length_words
      rw [← hlength, List.drop_left] at ih
      rw [List.length_append] at hsteps
      cases steps with
      | zero =>
          have hpos := instruction.width_pos
          omega
      | succ steps =>
          have hpos := instruction.width_pos
          have hfewer : behind.length + back.length ≤ steps := by omega
          obtain ⟨fewer, hfewer, hgo⟩ := ih hfewer
          refine ⟨fewer, hfewer, ?_⟩
          rw [disassemble.go, List.append_assoc, Instruction.decode?_words hcomplete]
          simp only
          rw [← hlength, List.drop_left, hgo, List.length_append, Nat.add_assoc, List.cons_append]

theorem reads_go (hsteps : words.length ≤ steps) :
    ∃ front back, words = front ++ back ∧
      Decodes address front (disassemble.go address words steps) ∧ Undecodable back := by
  induction steps generalizing address words with
  | zero =>
      obtain rfl := List.eq_nil_of_length_eq_zero (Nat.le_zero.1 hsteps)
      exact ⟨[], [], rfl, .nil address, .empty⟩
  | succ steps ih =>
      rw [disassemble.go]
      cases hdecode : Instruction.decode? words with
      | none => exact ⟨[], words, rfl, .nil address, Instruction.decode?_eq_none_iff.1 hdecode⟩
      | some instruction =>
          obtain ⟨hcomplete, rest, rfl⟩ := Instruction.decode?_eq_some_iff.1 hdecode
          have hpos := instruction.width_pos
          rw [List.length_append, Instruction.length_words] at hsteps
          have hrest : rest.length ≤ steps := by omega
          obtain ⟨front, back, rfl, hfront, hback⟩ := @ih (address + instruction.width) rest hrest
          refine ⟨instruction.words ++ front, back, (List.append_assoc _ _ _).symm, ?_, hback⟩
          simp only
          rw [← Instruction.length_words, List.drop_left, Instruction.length_words]
          exact .of_words hcomplete hfront

theorem isListing_disassemble (m : Machine) :
    IsListing m.layout.text.start m.text m.disassemble where
  reads := reads_go (Nat.le_refl _)
  longest := by
    rintro front other ⟨back, hwords⟩ hother
    have hlength := congrArg List.length hwords
    rw [List.length_append] at hlength
    obtain ⟨fewer, -, hgo⟩ := go_append hother (Nat.le_of_eq hlength)
    rw [hwords] at hgo
    exact ⟨_, hgo.symm⟩

/-- Text that can be decoded to its end is listed to its end. -/
theorem disassemble_eq (h : Decodes m.layout.text.start m.text listing) :
    m.disassemble = listing := by
  obtain ⟨fewer, -, hgo⟩ := @go_append _ _ _ [] _ h (Nat.le_refl _)
  rw [List.append_nil, go_nil, List.append_nil] at hgo
  exact hgo

/-! ### Writing -/

/-- Writes an instruction word by word and gives the address of its opcode. -/
def emitInstruction (instruction : Instruction) : Action Nat := do
  let address ← emitOpcode instruction.opcode
  match instruction.operand with
  | none => return address
  | some operand =>
      let _ ← emitWord operand
      return address

/-- Writes instructions in order and gives each of them with its address. -/
def assemble : List Instruction → Action (List (Nat × Instruction))
  | [] => return []
  | instruction :: rest => do
      let address ← emitInstruction instruction
      let listing ← assemble rest
      return (address, instruction) :: listing

/-- A machine to whose text words were appended. -/
structure Gains (m : Machine) (words : List Word) (m' : Machine) : Prop where
  sound : m'.Sound
  layout : m'.layout = m.layout
  textEnd : m'.textEnd = m.textEnd + words.length
  text : m'.text = m.text ++ words

theorem Sound.gains (h : m.Sound) : m.Gains [] m :=
  ⟨h, rfl, rfl, (List.append_nil _).symm⟩

theorem Gains.trans (h : m.Gains words m') (h' : m'.Gains more m'') :
    m.Gains (words ++ more) m'' where
  sound := h'.sound
  layout := h'.layout.trans h.layout
  textEnd := by rw [h'.textEnd, h.textEnd, List.length_append, Nat.add_assoc]
  text := by rw [h'.text, h.text, List.append_assoc]

theorem Sound.emitWord (h : m.Sound) (hroom : m.textEnd < m.layout.text.stop) (word : Word) :
    ∃ m', emitWord word m = .ok m.textEnd m' ∧ m.Gains [word] m' := by
  have hstart := h.ordered.textStart
  have hpool : m.textEnd < m.memory.size := by
    rw [h.size]
    exact Nat.lt_trans hroom h.ordered.text_lt_poolSize
  rw [Machine.emitWord, if_neg (Nat.not_le.2 hroom)]
  refine ⟨_, rfl, ⟨?_, rfl, rfl, ?_⟩⟩
  · exact { h with
      size := Array.size_setIfInBounds.trans h.size
      textStop := hroom }
  · refine List.ext_getElem? fun index => ?_
    have hlength : m.text.length = m.textEnd := by
      rw [text, words, Array.length_toList, Array.size_extract, hstart]
      simp only
      omega
    rw [text, getElem?_words, setWord]
    simp only [hstart, Nat.zero_add]
    rcases Nat.lt_trichotomy index m.textEnd with hlt | rfl | hgt
    · rw [if_pos (by omega), List.getElem?_append_left (by omega), text, getElem?_words, hstart,
        Nat.zero_add, if_pos hlt]
      exact Array.getElem?_setIfInBounds_ne (by omega)
    · rw [if_pos (by omega), List.getElem?_append_right (by omega), hlength, Nat.sub_self]
      exact Array.getElem?_setIfInBounds_self_of_lt hpool
    · rw [if_neg (by omega), List.getElem?_eq_none]
      rw [List.length_append, List.length_singleton]
      omega

theorem Sound.emitInstruction (h : m.Sound) {instruction : Instruction}
    (hroom : m.textEnd + instruction.width ≤ m.layout.text.stop) :
    ∃ m', emitInstruction instruction m = .ok m.textEnd m' ∧ m.Gains instruction.words m' := by
  obtain ⟨opcode, operand⟩ := instruction
  have hpos := Instruction.width_pos { opcode, operand }
  obtain ⟨m', hopcode, hfirst⟩ := h.emitWord (by omega) opcode.word
  cases operand with
  | none => exact ⟨m', bind_of_ok hopcode, hfirst⟩
  | some operand =>
      have hsecond : m'.textEnd < m'.layout.text.stop := by
        rw [hfirst.textEnd, hfirst.layout]
        exact hroom
      obtain ⟨m'', hoperand, hboth⟩ := hfirst.sound.emitWord hsecond operand
      exact ⟨m'', (bind_of_ok hopcode).trans (bind_of_ok hoperand), hfirst.trans hboth⟩

/-- What is written is what can be decoded. -/
theorem Sound.assemble (h : m.Sound)
    (hcomplete : ∀ instruction ∈ instructions, instruction.IsComplete)
    (hroom : m.textEnd + (instructions.map Instruction.width).sum ≤ m.layout.text.stop) :
    ∃ listing m', assemble instructions m = .ok listing m' ∧
      listing.map Prod.snd = instructions ∧
      m.Gains (instructions.flatMap Instruction.words) m' ∧
      Decodes m.textEnd (instructions.flatMap Instruction.words) listing := by
  induction instructions generalizing m with
  | nil => exact ⟨[], m, rfl, rfl, h.gains, .nil _⟩
  | cons instruction rest ih =>
      obtain ⟨hfirst, hrest⟩ := List.forall_mem_cons.1 hcomplete
      rw [List.map_cons, List.sum_cons] at hroom
      have hfits : m.textEnd + instruction.width ≤ m.layout.text.stop := by omega
      obtain ⟨m', hemit, hgains⟩ := h.emitInstruction hfits
      have htextEnd := hgains.textEnd
      rw [Instruction.length_words] at htextEnd
      obtain ⟨listing, m'', hassemble, hsame, hmore, hdecodes⟩ := ih hgains.sound hrest (by
        rw [htextEnd, hgains.layout]
        omega)
      refine ⟨(m.textEnd, instruction) :: listing, m'', ?_, ?_, ?_, ?_⟩
      · rw [Machine.assemble, bind_of_ok hemit, bind_of_ok hassemble]
        rfl
      · rw [List.map_cons, hsame]
      · exact hgains.trans hmore
      · rw [htextEnd] at hdecodes
        exact .of_words hfirst hdecodes

/-- Of any words, those are written for which there is room. -/
theorem Sound.text_emitAll (h : m.Sound) (words : List Word) :
    (m.performAll (words.map .emit)).text =
      m.text ++ words.take (m.layout.text.stop - m.textEnd) := by
  induction words generalizing m with
  | nil => simp [performAll]
  | cons word rest ih =>
      change ((m.after (Machine.emitWord word)).performAll (rest.map .emit)).text = _
      by_cases hroom : m.textEnd < m.layout.text.stop
      · obtain ⟨m', hemit, hgains⟩ := h.emitWord hroom word
        rw [after_of_ok hemit, ih hgains.sound, hgains.text, hgains.textEnd, hgains.layout,
          List.append_assoc]
        obtain ⟨room, hroom⟩ : ∃ room, m.layout.text.stop - m.textEnd = room + 1 :=
          ⟨m.layout.text.stop - m.textEnd - 1, by omega⟩
        rw [hroom, List.take_succ_cons, List.length_singleton, Nat.sub_add_eq, hroom]
        rfl
      · have hfull : Machine.emitWord word m = .error (.segmentFull .text) m := by
          rw [Machine.emitWord, if_pos (Nat.le_of_not_lt hroom)]
        have hnone : m.layout.text.stop - m.textEnd = 0 := by omega
        rw [after_of_error hfull, ih h, hnone, List.take_zero, List.take_zero]

/-! ### Writing and reading -/

/-- Instructions that are written into a new machine are listed as they were written, each at its
address, and any other text as far as it can be decoded. -/
theorem disassemble_of_create {poolSize : Nat} {host : Host} {new : Machine}
    (hcreate : create poolSize host = .ok new) :
    (∀ instructions, (∀ instruction ∈ instructions, Instruction.IsComplete instruction) →
      (instructions.map Instruction.width).sum ≤ new.layout.text.size →
      ∃ listing m, assemble instructions new = .ok listing m ∧
        listing.map Prod.snd = instructions ∧ m.disassemble = listing) ∧
    (∀ words : List Word,
      (new.performAll (words.map .emit)).text = words.take new.layout.text.size) ∧
    ∀ calls, let m := new.performAll calls
      IsListing m.layout.text.start m.text m.disassemble := by
  obtain ⟨hsound, -⟩ := sound_create hcreate
  have hempty : new.textEnd = new.layout.text.start ∧ new.text = [] := by
    rw [eq_blank_of_create hcreate]
    refine ⟨rfl, List.eq_nil_of_length_eq_zero ?_⟩
    rw [text, words, Array.length_toList, Array.size_extract]
    exact Nat.sub_eq_zero_of_le (Nat.min_le_left _ _)
  have hstart := hsound.ordered.textStart
  have hsize : new.layout.text.size = new.layout.text.stop - new.layout.text.start := rfl
  refine ⟨fun instructions hcomplete hroom => ?_, fun words => ?_, fun calls => ?_⟩
  · obtain ⟨listing, m, hassemble, hsame, hgains, hdecodes⟩ :=
      hsound.assemble hcomplete (by omega)
    refine ⟨listing, m, hassemble, hsame, disassemble_eq ?_⟩
    rw [hgains.text, hempty.2, List.nil_append, hgains.layout, ← hempty.1]
    exact hdecodes
  · rw [hsound.text_emitAll, hempty.2, hempty.1, List.nil_append, hsize]
  · exact isListing_disassemble _

/-- Operands may look like opcodes, and the last opcode may lack its operand. -/
theorem disassemble_of_create_small : create 256 {} = .ok small ∧
    (∃ listing m,
      assemble [⟨.imm, some Opcode.plac.word⟩, ⟨.plac, none⟩, ⟨.jmp, some 0⟩, ⟨.exit, none⟩] small =
        .ok listing m ∧
      listing.map Prod.snd =
        [⟨.imm, some Opcode.plac.word⟩, ⟨.plac, none⟩, ⟨.jmp, some 0⟩, ⟨.exit, none⟩] ∧
      m.disassemble = listing) ∧
    let m := small.performAll ([Opcode.exit.word, Opcode.jmp.word].map .emit)
    m.text = [Opcode.exit.word, Opcode.jmp.word] ∧
      IsListing m.layout.text.start m.text m.disassemble := by
  obtain ⟨hassembled, hemitted, hlisted⟩ := disassemble_of_create create_small
  refine ⟨create_small, hassembled _ ?_ (by decide), hemitted _, hlisted _⟩
  simp [Instruction.IsComplete, Opcode.hasOperand]

end Machine

end WordC
