import Mathlib.Tactic.SplitIfs
import WordC.Proofs.Target.Resolve
import WordC.Proofs.Machine.Steps

/-!
# Strings in memory

A string takes one word for each of its bytes and a zero behind them. Only the character zero has a
zero among its bytes, so a string without it is read back as a whole.
-/

namespace WordC

/-! ## Bytes -/

namespace Text.Utf8

theorem toList_loop (bytes : ByteArray) (index : Nat) (seen : List UInt8) :
    ByteArray.toList.loop bytes index seen = seen.reverse ++ bytes.data.toList.drop index := by
  fun_induction ByteArray.toList.loop bytes index seen with
  | case1 index seen hlt ih =>
      have hlength : index < bytes.data.toList.length := by simpa using hlt
      have hget : bytes.get! index = bytes.data.toList[index] := by
        change bytes.data[index]! = _
        rw [getElem!_pos bytes.data index hlt, Array.getElem_toList]
      rw [ih, List.drop_eq_getElem_cons hlength, hget, List.reverse_cons, List.append_assoc,
        List.singleton_append]
  | case2 index seen hge =>
      rw [List.drop_eq_nil_of_le (by simpa using hge), List.append_nil]

/-- The bytes of a text are those of its characters. -/
theorem encode_eq (text : String) : encode text = text.toList.flatMap String.utf8EncodeChar := by
  have htext : text.toUTF8 = (text.toList.flatMap String.utf8EncodeChar).toByteArray :=
    String.utf8Encode_toList.symm
  rw [encode, ByteArray.toList, toList_loop, htext, List.data_toByteArray, List.reverse_nil,
    List.nil_append, List.drop_zero]

theorem ne_zero_of_mem_utf8EncodeChar {c : Char} (hc : c ≠ '\x00') :
    ∀ byte ∈ String.utf8EncodeChar c, byte ≠ 0 := by
  have hcode : c.val.toNat ≠ 0 := fun hzero => hc (Char.ext (UInt32.toNat_inj.1 hzero))
  have hbyte : ∀ code < 256, code ≠ 0 → UInt8.ofNat code ≠ 0 := by
    intro code hlt hne hzero
    have hmod : code % 256 = 0 := by simpa using congrArg UInt8.toNat hzero
    omega
  unfold String.utf8EncodeChar
  dsimp only
  split_ifs with hone htwo hthree <;>
    simp only [List.forall_mem_cons, List.not_mem_nil, false_imp_iff, implies_true, and_true]
  · exact hbyte _ (by omega) hcode
  · exact ⟨hbyte _ (by omega) (by omega), hbyte _ (by omega) (by omega)⟩
  · exact ⟨hbyte _ (by omega) (by omega), hbyte _ (by omega) (by omega),
      hbyte _ (by omega) (by omega)⟩
  · exact ⟨hbyte _ (by omega) (by omega), hbyte _ (by omega) (by omega),
      hbyte _ (by omega) (by omega), hbyte _ (by omega) (by omega)⟩

theorem ne_zero_of_mem_encode {text : String} (htext : '\x00' ∉ text.toList) :
    ∀ byte ∈ encode text, byte ≠ 0 := by
  intro byte hmem
  rw [encode_eq] at hmem
  obtain ⟨c, hc, hbyte⟩ := List.mem_flatMap.1 hmem
  exact ne_zero_of_mem_utf8EncodeChar (fun heq => htext (heq ▸ hc)) byte hbyte

end Text.Utf8

namespace Word

theorem byte_ofByte (byte : UInt8) : (ofByte byte).byte = byte := by
  have hall : ∀ code < 256, (ofByte (UInt8.ofNat code)).byte = UInt8.ofNat code := by
    decide +kernel
  have hbyte := hall byte.toNat byte.toNat_lt
  rwa [UInt8.ofNat_toNat] at hbyte

theorem ofByte_ne_zero {byte : UInt8} (h : byte ≠ 0) : ofByte byte ≠ 0 := by
  intro hzero
  rw [← byte_ofByte byte, hzero] at h
  exact h rfl

end Word

open Text.Utf8 (Bytes)

namespace Memory

/-- Words stand in memory from an address on. -/
def Holds (memory : Array Word) (address : Nat) (words : List Word) : Prop :=
  ∀ (index : Nat) (word : Word), words[index]? = some word → memory[address + index]? = some word

variable {memory memory' : Array Word} {address : Nat} {words front back : List Word} {word : Word}

theorem Holds.cons (hword : memory[address]? = some word) (h : Holds memory (address + 1) words) :
    Holds memory address (word :: words) := by
  intro index found hfound
  cases index with
  | zero =>
      cases hfound
      exact hword
  | succ index =>
      rw [Nat.add_comm index, ← Nat.add_assoc]
      exact h index found hfound

theorem Holds.head (h : Holds memory address (word :: words)) : memory[address]? = some word :=
  h 0 word rfl

theorem Holds.tail (h : Holds memory address (word :: words)) :
    Holds memory (address + 1) words := by
  intro index found hfound
  rw [Nat.add_assoc, Nat.add_comm 1]
  exact h (index + 1) found hfound

theorem Holds.congr (h : Holds memory address words)
    (hsame : ∀ other, address ≤ other → other < address + words.length →
      memory'[other]? = memory[other]?) : Holds memory' address words := by
  intro index word hword
  obtain ⟨hlt, -⟩ := List.getElem?_eq_some_iff.1 hword
  rw [hsame _ (Nat.le_add_right _ _) (by omega)]
  exact h index word hword

theorem Holds.left (h : Holds memory address (front ++ back)) : Holds memory address front := by
  intro index word hword
  obtain ⟨hlt, -⟩ := List.getElem?_eq_some_iff.1 hword
  exact h index word (by rw [List.getElem?_append_left hlt, hword])

theorem Holds.right (h : Holds memory address (front ++ back)) :
    Holds memory (address + front.length) back := by
  intro index word hword
  rw [Nat.add_assoc]
  refine h (front.length + index) word ?_
  rw [List.getElem?_append_right (Nat.le_add_right _ _), Nat.add_sub_cancel_left, hword]

/-- Reading stops at the zero behind a string. -/
theorem bytes_go {bytes : Bytes} (hne : ∀ byte ∈ bytes, byte ≠ 0)
    (h : Holds memory address (bytes.map Word.ofByte ++ [0])) (seen : Bytes) {count : Nat}
    (hcount : bytes.length < count) :
    Memory.bytes.go memory address seen count = seen.reverse ++ bytes := by
  induction bytes generalizing address seen count with
  | nil =>
      obtain ⟨count, rfl⟩ := Nat.exists_eq_add_of_lt hcount
      have hword : memory[address]? = some 0 := h.head
      have hzero : memory.getD address 0 = 0 := by
        rw [Array.getD_eq_getD_getElem?, hword]
        rfl
      rw [Memory.bytes.go, if_pos hzero, List.append_nil]
  | cons byte bytes ih =>
      obtain ⟨count, rfl⟩ := Nat.exists_eq_add_of_lt hcount
      obtain ⟨hbyte, hrest⟩ := List.forall_mem_cons.1 hne
      have hfirst : memory[address]? = some (Word.ofByte byte) := h.head
      have hword : memory.getD address 0 = Word.ofByte byte := by
        rw [Array.getD_eq_getD_getElem?, hfirst]
        rfl
      have hlength : bytes.length < (byte :: bytes).length + count := by
        rw [List.length_cons]
        omega
      rw [Memory.bytes.go, hword]
      rw [if_neg (Word.ofByte_ne_zero hbyte), Word.byte_ofByte,
        ih hrest h.tail (byte :: seen) hlength, List.reverse_cons, List.append_assoc,
        List.singleton_append]

theorem bytes_of_holds {bytes : Bytes} (hne : ∀ byte ∈ bytes, byte ≠ 0)
    (h : Holds memory address (bytes.map Word.ofByte ++ [0])) :
    Memory.bytes memory address = bytes := by
  have hlast := h bytes.length 0 (by simp)
  obtain ⟨hlt, -⟩ := Array.getElem?_eq_some_iff.1 hlast
  rw [Memory.bytes, bytes_go hne h [] (by omega)]
  rfl

end Memory

/-! ## Printing -/

theorem Sink.write_of_accepts {sink : Sink} (h : sink.mode = .accepts) (bytes : Bytes) :
    sink.write bytes = (true, { sink with written := sink.written ++ bytes }) := by
  obtain ⟨mode, written⟩ := sink
  cases h
  rfl

namespace Machine

variable {m : Machine} {address template : Word} {bytes : Bytes}

theorem words_of_holds {start : Nat} {words : List Word} (h : Memory.Holds m.memory start words) :
    m.words { start, stop := start + words.length } = words := by
  refine List.ext_getElem? fun index => ?_
  rw [Machine.words, Array.getElem?_toList, Array.getElem?_extract]
  by_cases hlt : index < words.length
  · have hword := h index _ (List.getElem?_eq_getElem hlt)
    obtain ⟨hsize, -⟩ := Array.getElem?_eq_some_iff.1 hword
    rw [List.getElem?_eq_getElem hlt, ← hword, if_pos (by simp only; omega)]
  · rw [if_neg (by simp only; omega), List.getElem?_eq_none (Nat.le_of_not_lt hlt)]

theorem bytesAt_of_holds {start : Nat} (hsmall : start < 2 ^ 63) (hne : ∀ byte ∈ bytes, byte ≠ 0)
    (h : Memory.Holds m.memory start (bytes.map Word.ofByte ++ [0])) :
    bytesAt (Word.ofCount start) m = .ok bytes m := by
  have hlast := h bytes.length 0 (by simp)
  obtain ⟨hlt, -⟩ := Array.getElem?_eq_some_iff.1 hlast
  have haddress : Machine.address (Word.ofCount start) m = .ok start m := by
    have hfilter : (some start).filter (fun start => start < m.memory.size) = some start := by
      have hsize : start < m.memory.size := by omega
      simp [hsize]
    rw [Machine.address, Word.count?_ofCount hsmall, hfilter]
  rw [bytesAt, bind_of_ok haddress]
  change EStateM.Result.ok (Memory.bytes m.memory start) m = _
  rw [Memory.bytes_of_holds hne h]

/-- A string is put in place of `%s` as it is. -/
theorem format_string (h : bytesAt address m = .ok bytes m) :
    m.format (Text.Utf8.encode "%s") [address] = .ok bytes := by
  have htemplate : Template.parse (Text.Utf8.encode "%s") =
      [.field { left := false, zeros := false, width := 0, conversion := .string }] := by
    rw [Text.Utf8.encode_eq]
    decide +kernel
  rw [format, htemplate, Template.render, Template.Field.render, Template.Conversion.render]
  simp only [List.headD_cons, h, Template.render, Template.Field.pad]
  change Except.ok (List.replicate (0 - bytes.length) Template.space ++ bytes ++ []) = _
  rw [Nat.zero_sub, List.replicate_zero, List.nil_append, List.append_nil]

theorem printf_string (htemplate : bytesAt template m = .ok (Text.Utf8.encode "%s") m)
    (hvalue : bytesAt address m = .ok bytes m) (hmode : m.host.sink.mode = .accepts) :
    ∃ host, printf [template, address] m = .ok (Word.ofCount bytes.length) { m with host } ∧
      host.sink = { m.host.sink with written := m.host.sink.written ++ bytes } := by
  refine ⟨{ m.host with sink := { m.host.sink with written := m.host.sink.written ++ bytes } }, ?_,
    rfl⟩
  rw [printf, bind_of_ok htemplate, get_bind, format_string hvalue]
  simp only [Host.write, Sink.write_of_accepts hmode]
  rfl

end Machine

end WordC
