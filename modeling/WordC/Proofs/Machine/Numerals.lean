import Mathlib.Data.List.DropRight
import WordC.Proofs.Machine.Templates
import WordC.Proofs.Memory.Strings

/-!
# Printed numbers

A field shows a word in decimal digits, with a sign or as 64 bits without one, or in hexadecimal
digits. However the field is filled up, the number in it reads back: spaces stand outside of it, and
zeros stand between its sign and its digits, where they count nothing.
-/

namespace WordC

namespace Word

/-- The word that an integer is, if it is one. -/
def ofInt? (value : Int) : Option Word :=
  if (Int64.ofInt value).toInt = value then some (Int64.ofInt value) else none

/-- The word whose 64 bits are a count, if it has no more. -/
def ofBits? (count : Nat) : Option Word :=
  if count < 2 ^ 64 then some (UInt64.ofNat count).toInt64 else none

theorem ofInt?_toInt (word : Word) : ofInt? word.toInt = some word := by
  rw [ofInt?, Int64.ofInt_toInt, if_pos rfl]

theorem ofBits?_bits (word : Word) : ofBits? word.bits = some word := by
  rw [ofBits?, bits, if_pos word.toUInt64.toNat_lt, UInt64.ofNat_toNat, Int64.toInt64_toUInt64]

end Word

open Text.Utf8 (Bytes)

theorem Text.Utf8.encode_ofList {text : List Char} (h : ∀ c ∈ text, c.utf8Size = 1) :
    encode (String.ofList text) = text.map Char.toUInt8 := by
  rw [encode_eq, String.toList_ofList]
  induction text with
  | nil => rfl
  | cons c text ih =>
      obtain ⟨hc, htext⟩ := List.forall_mem_cons.1 h
      rw [List.flatMap_cons, ih htext, String.utf8EncodeChar_eq_singleton hc]
      rfl

namespace Template

/-! ## Reading numbers -/

/-- A way to write words: with a sign or as 64 bits without one, and in which digits. -/
structure Numerals where
  isSigned : Bool
  digits : Bytes
deriving DecidableEq

namespace Numerals

def decimalDigits : Bytes := "0123456789".toList.map Char.toUInt8
def lowerDigits : Bytes := "0123456789abcdef".toList.map Char.toUInt8
def upperDigits : Bytes := "0123456789ABCDEF".toList.map Char.toUInt8

/-- What the letter of a field says about the number in it. -/
def ofLetter? (letter : UInt8) : Option Numerals :=
  match Char.ofNat letter.toNat with
  | 'd' | 'i' => some ⟨true, decimalDigits⟩
  | 'u' => some ⟨false, decimalDigits⟩
  | 'x' => some ⟨false, lowerDigits⟩
  | 'X' => some ⟨false, upperDigits⟩
  | _ => none

/-- The count behind one more digit. -/
def count? (digits : Bytes) (count : Nat) (byte : UInt8) : Option Nat :=
  (digits.idxOf? byte).map (count * digits.length + ·)

/-- The count that a text of at least one digit stands for. -/
def readCount? (digits text : Bytes) : Option Nat :=
  if text = [] then none else text.foldlM (count? digits) 0

/-- The word that a number stands for. -/
def read? (numerals : Numerals) (text : Bytes) : Option Word :=
  if numerals.isSigned then
    if text.head? = some minus then
      (readCount? numerals.digits text.tail).bind fun count => Word.ofInt? (-count)
    else (readCount? numerals.digits text).bind fun count => Word.ofInt? count
  else (readCount? numerals.digits text).bind Word.ofBits?

end Numerals

/-- Takes spaces from both ends. -/
def trimSpaces (text : Bytes) : Bytes :=
  (text.dropWhile (· = space)).rdropWhile (· = space)

theorem trimSpaces_spaced {text : Bytes} (hne : text ≠ []) (hspace : space ∉ text)
    (before behind : Nat) :
    trimSpaces (List.replicate before space ++ (text ++ List.replicate behind space)) = text := by
  have hfront : (text ++ List.replicate behind space).dropWhile (· = space) =
      text ++ List.replicate behind space := by
    obtain ⟨first, rest, rfl⟩ := List.exists_cons_of_ne_nil hne
    have hfirst : first ≠ space := fun heq => hspace (heq ▸ List.mem_cons_self)
    exact List.dropWhile_cons_of_neg (by simpa using hfirst)
  have hback : (text ++ List.replicate behind space).rdropWhile (· = space) = text := by
    induction behind with
    | zero =>
        rw [List.replicate_zero, List.append_nil]
        refine List.rdropWhile_eq_self_iff.2 fun hne hlast => hspace ?_
        rw [← of_decide_eq_true hlast]
        exact List.getLast_mem hne
    | succ behind ih =>
        rw [List.replicate_succ', ← List.append_assoc, List.rdropWhile_concat_pos _ _ _ (by simp)]
        refine ih ?_
        obtain ⟨first, rest, rfl⟩ := List.exists_cons_of_ne_nil hne
        have hfirst : first ≠ space := fun heq => hspace (heq ▸ List.mem_cons_self)
        exact List.dropWhile_cons_of_neg (by simpa using hfirst)
  rw [trimSpaces, List.dropWhile_append_of_pos (by simp +contextual), hfront, hback]

/-! ## Writing digits -/

/-- A count in digits, without a zero in front of others. -/
structure Counts (digits : Bytes) (count : Nat) (text : Bytes) : Prop where
  ne_nil : text ≠ []
  mem : ∀ byte ∈ text, byte ∈ digits
  reads : text.foldlM (Numerals.count? digits) 0 = some count
  head : text.head? = some zero → text = [zero]

/-- The characters of digits are written as the digits of some numerals. -/
structure Writes (digits : Bytes) (write : Char → UInt8) : Prop where
  base : 1 < digits.length
  first : digits.idxOf? zero = some 0
  index : ∀ digit < digits.length, digits.idxOf? (write digit.digitChar) = some digit

/-- By induction on the count: all digits but the last are those of the quotient by the base. -/
theorem Writes.counts {digits : Bytes} {write : Char → UInt8} (h : Writes digits write)
    (count : Nat) : Counts digits count ((Nat.toDigits digits.length count).map write) := by
  have hbase := h.base
  have hmem (digit : Nat) (hdigit : digit < digits.length) : write digit.digitChar ∈ digits := by
    rw [← List.isSome_idxOf?, h.index digit hdigit]
    rfl
  have hcount (front digit : Nat) (hdigit : digit < digits.length) :
      Numerals.count? digits front (write digit.digitChar) =
        some (front * digits.length + digit) := by
    rw [Numerals.count?, h.index digit hdigit, Option.map_some]
  induction count using Nat.strongRecOn with
  | _ count ih =>
      by_cases hlt : count < digits.length
      · rw [Nat.toDigits_of_lt_base hlt, List.map_singleton]
        refine ⟨List.cons_ne_nil _ _, by simpa using hmem count hlt, ?_, fun hhead => ?_⟩
        · rw [List.foldlM_cons, hcount 0 count hlt, Nat.zero_mul, Nat.zero_add]
          rfl
        · rw [Option.some.inj hhead]
      · have hle : digits.length ≤ count := Nat.le_of_not_lt hlt
        have hlast := Nat.mod_lt count (Nat.zero_lt_of_lt hbase)
        have hfront := ih (count / digits.length) (Nat.div_lt_self (by omega) hbase)
        rw [Nat.toDigits_of_base_le hbase hle, List.map_append, List.map_singleton]
        refine ⟨List.append_ne_nil_of_left_ne_nil hfront.ne_nil _, ?_, ?_, fun hhead => ?_⟩
        · exact List.forall_mem_append.2 ⟨hfront.mem, by simpa using hmem _ hlast⟩
        · rw [List.foldlM_append, hfront.reads]
          change (Numerals.count? digits _ _).bind some = _
          rw [hcount _ _ hlast, Nat.div_add_mod']
          rfl
        · -- A quotient that begins with a zero is zero.
          rw [List.head?_append_of_ne_nil _ hfront.ne_nil] at hhead
          have hreads := hfront.reads
          rw [hfront.head hhead] at hreads
          have hzero : Numerals.count? digits 0 zero = some 0 := by
            rw [Numerals.count?, h.first, Option.map_some, Nat.zero_mul]
          have hquotient : count / digits.length = 0 := by
            change (Numerals.count? digits 0 zero).bind some = _ at hreads
            rw [hzero] at hreads
            exact (Option.some.inj hreads).symm
          have hpos := Nat.div_pos hle (Nat.zero_lt_of_lt hbase)
          omega

/-- Zeros in front count nothing. -/
theorem readCount?_zeros {digits text : Bytes} {count : Nat}
    (hzero : digits.idxOf? zero = some 0) (h : Counts digits count text) (missing : Nat) :
    Numerals.readCount? digits (List.replicate missing zero ++ text) = some count := by
  have hskip : (List.replicate missing zero).foldlM (Numerals.count? digits) 0 = some 0 := by
    induction missing with
    | zero => rfl
    | succ missing ih =>
        rw [List.replicate_succ, List.foldlM_cons, Numerals.count?, hzero, Option.map_some,
          Nat.zero_mul]
        exact ih
  rw [Numerals.readCount?, if_neg (List.append_ne_nil_of_right_ne_nil _ h.ne_nil),
    List.foldlM_append, hskip]
  exact h.reads

/-! ## Numbers -/

namespace Numerals

/-- The count that the digits of a word show. -/
def magnitude (numerals : Numerals) (word : Word) : Nat :=
  if numerals.isSigned then word.toInt.natAbs else word.bits

def sign (numerals : Numerals) (word : Word) : Bytes :=
  if numerals.isSigned ∧ word.toInt < 0 then [minus] else []

end Numerals

def Conversion.numerals? : Conversion → Option Numerals
  | signed => some ⟨true, Numerals.decimalDigits⟩
  | unsigned => some ⟨false, Numerals.decimalDigits⟩
  | hex => some ⟨false, Numerals.lowerDigits⟩
  | upperHex => some ⟨false, Numerals.upperDigits⟩
  | character | string => none

theorem numerals?_ofLetter? (letter : UInt8) :
    Numerals.ofLetter? letter = (Conversion.ofLetter? letter).bind Conversion.numerals? := by
  have hall : ∀ n : Fin 256, Numerals.ofLetter? (UInt8.ofFin n) =
      (Conversion.ofLetter? (UInt8.ofFin n)).bind Conversion.numerals? := by
    decide +kernel
  exact hall letter.toFin

theorem exists_digit_of_mem {base count : Nat} (hbase : 1 < base) {c : Char}
    (h : c ∈ Nat.toDigits base count) : ∃ digit < base, c = digit.digitChar := by
  induction count using Nat.strongRecOn with
  | _ count ih =>
      by_cases hlt : count < base
      · rw [Nat.toDigits_of_lt_base hlt, List.mem_singleton] at h
        exact ⟨count, hlt, h⟩
      · rw [Nat.toDigits_of_base_le hbase (Nat.le_of_not_lt hlt), List.mem_append,
          List.mem_singleton] at h
        rcases h with hfront | hlast
        · exact ih _ (Nat.div_lt_self (by omega) hbase) hfront
        · exact ⟨_, Nat.mod_lt _ (Nat.zero_lt_of_lt hbase), hlast⟩

theorem utf8Size_of_mem {base count : Nat} (hbase : 1 < base) (hle : base ≤ 16) :
    ∀ c ∈ Nat.toDigits base count, c.utf8Size = 1 ∧ c.toUpper.utf8Size = 1 := by
  have hall : ∀ digit < 16,
      digit.digitChar.utf8Size = 1 ∧ digit.digitChar.toUpper.utf8Size = 1 := by decide
  intro c hc
  obtain ⟨digit, hdigit, rfl⟩ := exists_digit_of_mem hbase hc
  exact hall digit (Nat.lt_of_lt_of_le hdigit hle)

theorem writes_decimal : Writes Numerals.decimalDigits Char.toUInt8 := by
  constructor <;> decide

theorem writes_lower : Writes Numerals.lowerDigits Char.toUInt8 := by
  constructor <;> decide

theorem writes_upper : Writes Numerals.upperDigits fun c => c.toUpper.toUInt8 := by
  constructor <;> decide

theorem counts_decimal (count : Nat) :
    Counts Numerals.decimalDigits count (Text.Utf8.encode (toString count)) := by
  rw [Nat.toString_eq_ofList_toDigits,
    Text.Utf8.encode_ofList fun c hc => (utf8Size_of_mem (by decide) (by decide) c hc).1]
  exact writes_decimal.counts count

theorem encode_int (value : Int) :
    Text.Utf8.encode (toString value) =
      (if value < 0 then [minus] else []) ++ Text.Utf8.encode (toString value.natAbs) := by
  cases value with
  | ofNat count =>
      have hle : ¬Int.ofNat count < 0 := Int.not_lt.2 (Int.natCast_nonneg count)
      rw [if_neg hle]
      rfl
  | negSucc count =>
      have htext : toString (Int.negSucc count) = "-" ++ toString (count + 1) := rfl
      have hminus : "-".toList.flatMap String.utf8EncodeChar = [minus] := by decide
      rw [if_pos (Int.negSucc_lt_zero count), htext, Text.Utf8.encode_eq, String.toList_append,
        List.flatMap_append, hminus, ← Text.Utf8.encode_eq]
      rfl

/-- A number is its sign and its digits. -/
theorem Conversion.exists_digits {conversion : Conversion} {numerals : Numerals}
    (h : conversion.numerals? = some numerals) (word : Word) :
    ∃ digits, (∀ read, conversion.render read word = .ok (numerals.sign word ++ digits)) ∧
      Counts numerals.digits (numerals.magnitude word) digits := by
  cases conversion with
  | signed =>
      cases h
      refine ⟨Text.Utf8.encode (toString word.toInt.natAbs), fun read => ?_, counts_decimal _⟩
      rw [render, Word.text, encode_int]
      simp [Numerals.sign]
  | unsigned =>
      cases h
      exact ⟨_, fun read => rfl, counts_decimal word.bits⟩
  | hex =>
      cases h
      refine ⟨_, fun read => ?_, writes_lower.counts word.bits⟩
      rw [render,
        Text.Utf8.encode_ofList fun c hc => (utf8Size_of_mem (by decide) (by decide) c hc).1]
      rfl
  | upperHex =>
      cases h
      have hsize : ∀ c ∈ (Nat.toDigits 16 word.bits).map Char.toUpper, c.utf8Size = 1 := by
        intro c hc
        obtain ⟨d, hd, rfl⟩ := List.mem_map.1 hc
        exact (utf8Size_of_mem (by decide) (by decide) d hd).2
      refine ⟨_, fun read => ?_, writes_upper.counts word.bits⟩
      rw [render, Text.Utf8.encode_ofList hsize, List.map_map]
      rfl
  | character => cases h
  | string => cases h

theorem Conversion.isNumeric_of_numerals? {conversion : Conversion} {numerals : Numerals}
    (h : conversion.numerals? = some numerals) : conversion.isNumeric = true := by
  cases conversion <;> first | rfl | cases h

/-! ## Fields -/

/-- How a number fills a field that is wider: with spaces behind it, with zeros between its sign and
its digits, or with spaces before it. A zero flag means nothing beside a minus flag. -/
inductive Fills (flags sign digits : Bytes) (missing : Nat) : Bytes → Prop where
  | spacesBehind (hleft : minus ∈ flags) :
      Fills flags sign digits missing (sign ++ digits ++ List.replicate missing space)
  | zeros (hleft : minus ∉ flags) (hzeros : zero ∈ flags) :
      Fills flags sign digits missing (sign ++ (List.replicate missing zero ++ digits))
  | spacesBefore (hleft : minus ∉ flags) (hzeros : zero ∉ flags) :
      Fills flags sign digits missing (List.replicate missing space ++ (sign ++ digits))

theorem Fills.length {flags sign digits field : Bytes} {missing : Nat}
    (h : Fills flags sign digits missing field) :
    field.length = missing + (sign ++ digits).length := by
  cases h <;> simp only [List.length_append, List.length_replicate] <;> omega

/-- Where nothing is missing there is nothing but the number. -/
theorem Fills.eq_number {flags sign digits text : Bytes} (h : Fills flags sign digits 0 text) :
    text = sign ++ digits := by
  cases h with
  | spacesBehind => exact List.append_nil _
  | zeros => rfl
  | spacesBefore => rfl

/-- A digit is neither a minus sign nor a space, and the digit zero counts nothing. -/
structure Proper (numerals : Numerals) : Prop where
  minus : minus ∉ numerals.digits
  space : space ∉ numerals.digits
  zero : numerals.digits.idxOf? zero = some 0

theorem Conversion.proper {conversion : Conversion} {numerals : Numerals}
    (h : conversion.numerals? = some numerals) : Proper numerals := by
  cases conversion <;> cases h <;> constructor <;> decide

namespace Numerals

theorem sign_cases (numerals : Numerals) (word : Word) :
    numerals.sign word = [] ∨ numerals.sign word = [minus] := by
  unfold sign
  split
  · exact .inr rfl
  · exact .inl rfl

/-- The digits of a word, with any zeros in front, read back behind its sign. -/
theorem read?_number {numerals : Numerals} {word : Word} {text : Bytes}
    (hcount : readCount? numerals.digits text = some (numerals.magnitude word))
    (hminus : text.head? ≠ some minus) :
    numerals.read? (numerals.sign word ++ text) = some word := by
  unfold read? sign magnitude at *
  cases hsigned : numerals.isSigned with
  | false =>
      simp only [hsigned, Bool.false_eq_true, false_and, if_false, List.nil_append] at hcount ⊢
      rw [hcount]
      exact Word.ofBits?_bits word
  | true =>
      simp only [hsigned, if_true, true_and] at hcount ⊢
      by_cases hneg : word.toInt < 0
      · have hvalue : -(word.toInt.natAbs : Int) = word.toInt := by omega
        rw [if_pos hneg, List.singleton_append, List.head?_cons, if_pos rfl, List.tail_cons, hcount,
          Option.bind_some, hvalue, Word.ofInt?_toInt]
      · have hvalue : (word.toInt.natAbs : Int) = word.toInt := by omega
        rw [if_neg hneg, List.nil_append, if_neg hminus, hcount, Option.bind_some, hvalue,
          Word.ofInt?_toInt]

end Numerals

/-- The spaces are trimmed, and the zeros count nothing. -/
theorem Fills.read? {numerals : Numerals} {word : Word} {flags digits field : Bytes} {missing : Nat}
    (h : Fills flags (numerals.sign word) digits missing field) (hproper : Proper numerals)
    (hdigits : Counts numerals.digits (numerals.magnitude word) digits) :
    numerals.read? (trimSpaces field) = some word := by
  have hminus : digits.head? ≠ some minus := fun hhead =>
    hproper.minus (hdigits.mem _ (List.mem_of_head? hhead))
  have hspace : space ∉ numerals.sign word ++ digits := by
    rw [List.mem_append, not_or]
    refine ⟨?_, fun hmem => hproper.space (hdigits.mem _ hmem)⟩
    rcases numerals.sign_cases word with hsign | hsign <;> rw [hsign] <;> decide
  have hne : numerals.sign word ++ digits ≠ [] :=
    List.append_ne_nil_of_right_ne_nil _ hdigits.ne_nil
  have hnumber : numerals.read? (numerals.sign word ++ digits) = some word :=
    Numerals.read?_number (readCount?_zeros hproper.zero hdigits 0) hminus
  cases h with
  | spacesBehind hleft =>
      have htrim := trimSpaces_spaced hne hspace 0 missing
      rw [List.replicate_zero, List.nil_append] at htrim
      rw [htrim, hnumber]
  | spacesBefore hleft hzeros =>
      have htrim := trimSpaces_spaced hne hspace missing 0
      rw [List.replicate_zero, List.append_nil] at htrim
      rw [htrim, hnumber]
  | zeros hleft hzeros =>
      have hnone : space ∉ numerals.sign word ++ (List.replicate missing zero ++ digits) := by
        simp only [List.mem_append, List.mem_replicate, not_or] at hspace ⊢
        exact ⟨hspace.1, fun hzero => absurd hzero.2 (by decide), hspace.2⟩
      have htrim := trimSpaces_spaced (by simp [hdigits.ne_nil]) hnone 0 0
      rw [List.replicate_zero, List.nil_append, List.append_nil] at htrim
      rw [htrim]
      refine Numerals.read?_number (readCount?_zeros hproper.zero hdigits missing) ?_
      cases missing with
      | zero => exact hminus
      | succ missing => exact fun hhead => absurd (Option.some.inj hhead) (by decide)

namespace Specification

/-- The field of a specification whose letter is a conversion. -/
def field (specification : Specification) (conversion : Conversion) : Field where
  left := specification.flags.contains minus
  zeros := specification.flags.contains zero
  width := UInt64.ofNat specification.width
  conversion

theorem finish_layout (specification : Specification) {conversion : Conversion}
    (h : Conversion.ofLetter? specification.letter = some conversion) :
    specification.layout.finish specification.letter = .field (specification.field conversion) := by
  have hpercent : specification.letter ≠ percent := by
    intro heq
    rw [heq] at h
    cases h
  have hwidth : specification.layout.width.getD 0 = UInt64.ofNat specification.width := by
    unfold layout width
    split
    · next hnil => rw [hnil]; rfl
    · rfl
  rw [Layout.finish, if_neg hpercent, h]
  simp only [hwidth]
  rfl

theorem fills_pad (specification : Specification) (hwidth : specification.width < 2 ^ 64)
    {conversion : Conversion} (hnumeric : conversion.isNumeric = true) {sign digits : Bytes}
    (hsign : sign = [] ∨ sign = [minus]) (hne : digits ≠ []) (hminus : minus ∉ digits) :
    Fills specification.flags sign digits (specification.width - (sign ++ digits).length)
      ((specification.field conversion).pad (sign ++ digits)) := by
  simp only [Field.pad, field, UInt64.toNat_ofNat_of_lt' hwidth, hnumeric, Bool.and_true,
    List.contains_iff_mem]
  by_cases hleft : minus ∈ specification.flags
  · rw [if_pos hleft]
    exact .spacesBehind hleft
  rw [if_neg hleft]
  by_cases hzeros : zero ∈ specification.flags
  · rw [if_pos hzeros]
    obtain ⟨first, rest, rfl⟩ := List.exists_cons_of_ne_nil hne
    have hfirst : first ≠ minus := fun heq => hminus (heq ▸ List.mem_cons_self)
    rcases hsign with rfl | rfl
    · rw [List.nil_append]
      dsimp only
      rw [if_neg hfirst]
      exact .zeros hleft hzeros
    · rw [List.singleton_append]
      dsimp only
      rw [if_pos rfl]
      exact .zeros hleft hzeros
  · rw [if_neg hzeros]
    exact .spacesBefore hleft hzeros

end Specification

end Template

namespace Machine

open Template

theorem format_field (m : Machine) (specification : Specification) {conversion : Conversion}
    (hletter : Conversion.ofLetter? specification.letter = some conversion) {word : Word}
    {value : Bytes} (hvalue : ∀ read, conversion.render read word = .ok value)
    (values : List Word) :
    m.format specification.text (word :: values) =
      .ok ((specification.field conversion).pad value) := by
  have htext : specification.text = Part.texts [.field specification] :=
    (List.append_nil _).symm
  rw [format, htext, parse_parts, List.map_singleton, Part.piece,
    specification.finish_layout hletter, render, Field.render, List.headD_cons]
  have hfield : (specification.field conversion).conversion = conversion := rfl
  rw [hfield, hvalue]
  exact congrArg Except.ok (List.append_nil _)

/-- A word in a field: a number, which is its sign and its digits, and what fills up the field. -/
structure ShowsNumber (m : Machine) (specification : Specification) (numerals : Numerals)
    (word : Word) (values : List Word) (digits text : Bytes) : Prop where
  /-- The number is what is shown without flags and without a width. -/
  number : m.format [percent, specification.letter] [word] = .ok (numerals.sign word ++ digits)
  counts : Counts numerals.digits (numerals.magnitude word) digits
  field : m.format specification.text (word :: values) = .ok text
  length : text.length = max specification.width (numerals.sign word ++ digits).length
  fills : Fills specification.flags (numerals.sign word) digits
    (specification.width - (numerals.sign word ++ digits).length) text
  reads : numerals.read? (trimSpaces text) = some word

/-- A number reads back from any field in which it is shown, where the width is a machine word. -/
theorem format_showsNumber (m : Machine) (specification : Specification)
    (hwidth : specification.width < 2 ^ 64) {numerals : Numerals}
    (h : Numerals.ofLetter? specification.letter = some numerals) (word : Word)
    (values : List Word) :
    ∃ digits text, ShowsNumber m specification numerals word values digits text := by
  rw [numerals?_ofLetter?] at h
  obtain ⟨conversion, hletter, hnumerals⟩ := Option.bind_eq_some_iff.1 h
  obtain ⟨digits, hrender, hcounts⟩ := Conversion.exists_digits hnumerals word
  have hproper := Conversion.proper hnumerals
  have hfills (other : Specification) (hother : other.width < 2 ^ 64) :
      Fills other.flags (numerals.sign word) digits
        (other.width - (numerals.sign word ++ digits).length)
        ((other.field conversion).pad (numerals.sign word ++ digits)) :=
    other.fills_pad hother (Conversion.isNumeric_of_numerals? hnumerals) (numerals.sign_cases word)
      hcounts.ne_nil fun hmem => hproper.minus (hcounts.mem _ hmem)
  have hfield := m.format_field specification hletter hrender values
  have hminus : specification.letter ≠ minus := by
    intro heq
    rw [heq] at hletter
    cases hletter
  refine ⟨digits, _, ?_, hcounts, hfield, ?_,
    hfills specification hwidth, (hfills specification hwidth).read? hproper hcounts⟩
  · let letter := Specification.ofLetter specification.letter specification.letter_not_digit hminus
    have hnumber := m.format_field letter hletter hrender []
    have hbare := hfills letter (Nat.two_pow_pos 64)
    rw [show letter.width = 0 from rfl, Nat.zero_sub] at hbare
    rw [hbare.eq_number] at hnumber
    exact hnumber
  · rw [(hfills specification hwidth).length]
    omega

/-- Zeros, and a width beyond the twenty characters of the smallest word. -/
def wideZeros : Specification where
  flags := [zero]
  digits := "25".toList.map Char.toUInt8
  letter := 100
  flags_isFlag := List.forall_mem_singleton.2 (by decide)
  digits_isDigit := List.all_eq_true.1 (by decide)
  digits_head := by decide
  letter_not_digit := by decide
  letter_not_flag := nofun

theorem format_showsNumber_least :
    wideZeros.width < 2 ^ 64 ∧
      Numerals.ofLetter? wideZeros.letter = some ⟨true, Numerals.decimalDigits⟩ ∧
      ∃ digits text, ShowsNumber Machine.small wideZeros ⟨true, Numerals.decimalDigits⟩
        Int64.minValue [7] digits text := by
  have hletter : Numerals.ofLetter? wideZeros.letter = some ⟨true, Numerals.decimalDigits⟩ := by
    decide
  have hwidth : wideZeros.width < 2 ^ 64 := by
    decide
  exact ⟨hwidth, hletter,
    format_showsNumber Machine.small wideZeros hwidth hletter Int64.minValue [7]⟩

end Machine

end WordC
