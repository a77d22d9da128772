import Mathlib.Algebra.Group.Int.Defs
import Mathlib.Data.List.Forall2
import WordC.Proofs.Machine.Serving

/-!
# How blocks compare

`memcmp` answers with the difference of the first two words that differ. A difference wraps, so its
sign tells which word is less only if the words lie less than `2 ^ 63` apart, half of the way
around. Exactly half of the way around it is negative from either side, and beyond that it tells the
opposite. Among blocks whose words are near one another in this sense the answers are an order.
-/

namespace WordC

/-! ## Differences of words -/

namespace Word

variable {x y : Word}

/-- How far two words lie apart. -/
def gap (x y : Word) : Nat :=
  (x.toInt - y.toInt).natAbs

/-- What the difference of two words that differ tells about them. -/
structure Measures (word x y : Word) : Prop where
  difference : word = x - y
  near : gap x y < 2 ^ 63 → (word < 0 ↔ x < y) ∧ (0 < word ↔ y < x)
  opposite : gap x y = 2 ^ 63 → word < 0
  far : 2 ^ 63 < gap x y → (word < 0 ↔ y < x) ∧ (0 < word ↔ x < y)

/-- A difference is right, or it is off by one turn. -/
theorem sub_cases (x y : Word) :
    (-2 ^ 63 ≤ x.toInt - y.toInt ∧ x.toInt - y.toInt < 2 ^ 63 ∧
      (x - y).toInt = x.toInt - y.toInt) ∨
    (2 ^ 63 ≤ x.toInt - y.toInt ∧ x.toInt - y.toInt < 2 ^ 64 ∧
      (x - y).toInt = x.toInt - y.toInt - 2 ^ 64) ∨
    (-2 ^ 64 < x.toInt - y.toInt ∧ x.toInt - y.toInt < -2 ^ 63 ∧
      (x - y).toInt = x.toInt - y.toInt + 2 ^ 64) := by
  obtain ⟨turns, hturns⟩ := Int.dvd_bmod_sub_self (x := x.toInt - y.toInt) (m := 2 ^ 64)
  rw [← Int64.toInt_sub] at hturns
  have hx := And.intro x.le_toInt x.toInt_lt
  have hy := And.intro y.le_toInt y.toInt_lt
  have hdifference := And.intro (x - y).le_toInt (x - y).toInt_lt
  omega

theorem measures_sub (x y : Word) : Measures (x - y) x y := by
  have hcases := sub_cases x y
  constructor
  · rfl
  all_goals
    intro hgap
    simp only [gap] at hgap
    simp only [Int64.lt_iff_toInt_lt, Int64.toInt_zero]
    omega

theorem sub_ne_zero (h : x ≠ y) : x - y ≠ 0 := by
  have hcases := sub_cases x y
  have hne : x.toInt ≠ y.toInt := fun heq => h (Int64.toInt_inj.1 heq)
  rw [Ne, ← Int64.toInt_inj, Int64.toInt_zero]
  omega

/-- Differences are negative both ways exactly half of the way around. -/
theorem sub_lt_zero_both_iff : x - y < 0 ∧ y - x < 0 ↔ gap x y = 2 ^ 63 := by
  have hcases := sub_cases x y
  have hcases' := sub_cases y x
  rw [Int64.lt_iff_toInt_lt, Int64.lt_iff_toInt_lt, Int64.toInt_zero, gap]
  omega

end Word

namespace Machine

open Word (gap Measures)

/-! ## The first difference -/

/-- Two blocks begin with the same words and then have these two, which are different. -/
inductive Differ : List Word → List Word → Word → Word → Prop where
  | here {x y : Word} {lefts rights : List Word} (hne : x ≠ y) :
      Differ (x :: lefts) (y :: rights) x y
  | behind {word x y : Word} {lefts rights : List Word} (h : Differ lefts rights x y) :
      Differ (word :: lefts) (word :: rights) x y

variable {lefts rights thirds : List Word} {x y : Word}

theorem Differ.symm (h : Differ lefts rights x y) : Differ rights lefts y x := by
  induction h with
  | here hne => exact .here hne.symm
  | behind _ ih => exact .behind ih

theorem Differ.ne (h : Differ lefts rights x y) : x ≠ y := by
  induction h with
  | here hne => exact hne
  | behind _ ih => exact ih

theorem Differ.firstDifference (h : Differ lefts rights x y) :
    firstDifference lefts rights = x - y := by
  induction h with
  | here hne => rw [Machine.firstDifference, if_neg hne]
  | behind _ ih => rw [Machine.firstDifference, if_pos rfl, ih]

theorem firstDifference_self (block : List Word) : firstDifference block block = 0 := by
  induction block with
  | nil => rfl
  | cons word rest ih => rw [firstDifference, if_pos rfl, ih]

theorem exists_differ (hlength : lefts.length = rights.length) (hne : lefts ≠ rights) :
    ∃ x y, Differ lefts rights x y := by
  induction lefts generalizing rights with
  | nil => exact absurd (List.length_eq_zero_iff.1 hlength.symm).symm hne
  | cons x lefts ih =>
      cases rights with
      | nil => cases hlength
      | cons y rights =>
          by_cases hsame : x = y
          · subst hsame
            obtain ⟨x', y', h⟩ := ih (Nat.succ.inj hlength) fun heq => hne (heq ▸ rfl)
            exact ⟨x', y', .behind h⟩
          · exact ⟨x, y, .here hsame⟩

theorem firstDifference_eq_zero_iff (hlength : lefts.length = rights.length) :
    firstDifference lefts rights = 0 ↔ lefts = rights := by
  constructor
  · intro hzero
    refine Decidable.byContradiction fun hne => ?_
    obtain ⟨x, y, h⟩ := exists_differ hlength hne
    exact Word.sub_ne_zero h.ne (h.firstDifference.symm.trans hzero)
  · rintro rfl
    exact firstDifference_self lefts

/-- Words in the same place of two blocks lie less than half of the way around apart. -/
def Near (lefts rights : List Word) : Prop :=
  List.Forall₂ (fun x y => gap x y < 2 ^ 63) lefts rights

/-- By induction on the blocks; where all three words differ, their own order decides. -/
theorem firstDifference_trans (hfirst : Near lefts rights) (hsecond : Near rights thirds)
    (houter : Near lefts thirds) (hleft : firstDifference lefts rights < 0)
    (hright : firstDifference rights thirds < 0) : firstDifference lefts thirds < 0 := by
  induction hfirst generalizing thirds with
  | nil => exact absurd hleft (by decide)
  | @cons x y lefts rights hxy hfirst ih =>
      cases hsecond with
      | @cons _ z _ thirds hyz hsecond =>
          cases houter with
          | cons hxz houter =>
              unfold firstDifference at hleft hright ⊢
              by_cases hsame : x = y
              · subst hsame
                by_cases hsame' : x = z
                · rw [if_pos hsame'] at hright ⊢
                  rw [if_pos rfl] at hleft
                  exact ih hsecond houter hleft hright
                · rwa [if_neg hsame'] at hright ⊢
              · rw [if_neg hsame] at hleft
                by_cases hsame' : y = z
                · subst hsame'
                  rwa [if_neg hsame]
                · rw [if_neg hsame'] at hright
                  have hless := ((Word.measures_sub x y).near hxy).1.1 hleft
                  have hless' := ((Word.measures_sub y z).near hyz).1.1 hright
                  have hbetween := Int64.lt_trans hless hless'
                  rw [if_neg (Int64.ne_of_lt hbetween)]
                  exact ((Word.measures_sub x z).near hxz).1.2 hbetween

/-! ## Blocks of memory -/

variable {m : Machine} {left right size : Word}

/-- The block that a program names by an address and a size lies in the pool and holds these
words. -/
def Holds (m : Machine) (start size : Word) (block : List Word) : Prop :=
  ∃ extent, Extent.ofWords? start size = some extent ∧ extent.stop ≤ m.memory.size ∧
    m.words extent = block

theorem Holds.exists_readable {start : Word} {block : List Word} (h : m.Holds start size block) :
    ∃ extent, readable start size m = .ok extent m ∧ m.words extent = block ∧
      size.count? = some block.length := by
  obtain ⟨extent, hextent, hpool, rfl⟩ := h
  obtain ⟨first, hfirst, hrest⟩ := Option.bind_eq_some_iff.1 hextent
  obtain ⟨count, hcount, heq⟩ := Option.bind_eq_some_iff.1 hrest
  cases heq
  refine ⟨⟨first, first + count⟩, ?_, rfl, ?_⟩
  · rw [readable, hfirst, hcount]
    exact if_pos hpool
  · rw [hcount, words, Array.length_toList, Array.size_extract]
    congr 1
    simp only at hpool ⊢
    omega

theorem Holds.length_eq (hleft : m.Holds left size lefts) (hright : m.Holds right size rights) :
    lefts.length = rights.length := by
  obtain ⟨-, -, -, hcount⟩ := hleft.exists_readable
  obtain ⟨-, -, -, hcount'⟩ := hright.exists_readable
  exact Option.some.inj (hcount.symm.trans hcount')

theorem memcmp_eq (hleft : m.Holds left size lefts) (hright : m.Holds right size rights) :
    memcmp left right size m = .ok (firstDifference lefts rights) m := by
  obtain ⟨extent, hread, rfl, -⟩ := hleft.exists_readable
  obtain ⟨extent', hread', rfl, -⟩ := hright.exists_readable
  rw [memcmp, bind_of_ok hread, bind_of_ok hread', get_bind]
  rfl

theorem Holds.of_memory {other : Machine} {start : Word} {block : List Word}
    (h : m.Holds start size block) (hmemory : other.memory = m.memory) :
    other.Holds start size block := by
  obtain ⟨extent, hextent, hpool, hwords⟩ := h
  exact ⟨extent, hextent, hmemory ▸ hpool, by rw [words, hmemory]; exact hwords⟩

/-- The step that carries out the trap leaves the answer in the accumulator. -/
theorem step_memcmp (hintact : m.Intact) (hrequests : m.Requests .memcmp [left, right, size])
    (hleft : m.Holds left size lefts) (hright : m.Holds right size rights) (tracing : Bool) :
    ∃ m', step tracing m = .ok none m' ∧ m'.acc = firstDifference lefts rights ∧
      m'.memory = m.memory := by
  obtain ⟨poised, hpoised, hstep⟩ := hrequests.exists_poised hintact tracing
  have hanswer : answer .memcmp [left, right, size] poised =
      .ok (firstDifference lefts rights) poised :=
    memcmp_eq (hleft.of_memory hpoised.memory) (hright.of_memory hpoised.memory)
  exact ⟨_, hstep.trans (serve_of_ok hanswer), rfl, hpoised.memory⟩

/-- `memcmp` answers that the first block is less. -/
def Precedes (m : Machine) (size left right : Word) : Prop :=
  ∃ word, memcmp left right size m = .ok word m ∧ word < 0

theorem precedes_iff (hleft : m.Holds left size lefts) (hright : m.Holds right size rights) :
    m.Precedes size left right ↔ firstDifference lefts rights < 0 := by
  rw [Precedes, memcmp_eq hleft hright]
  constructor
  · rintro ⟨word, heq, hless⟩
    cases heq
    exact hless
  · exact fun hless => ⟨_, rfl, hless⟩

/-- Blocks that precede each other have words half of the way around apart where they first
differ. -/
theorem precedes_both_iff (hleft : m.Holds left size lefts) (hright : m.Holds right size rights) :
    m.Precedes size left right ∧ m.Precedes size right left ↔
      ∃ x y, Differ lefts rights x y ∧ gap x y = 2 ^ 63 := by
  rw [precedes_iff hleft hright, precedes_iff hright hleft]
  constructor
  · rintro ⟨hless, hless'⟩
    have hne : lefts ≠ rights := by
      rintro rfl
      rw [firstDifference_self] at hless
      exact absurd hless (by decide)
    obtain ⟨x, y, h⟩ := exists_differ (hleft.length_eq hright) hne
    rw [h.firstDifference] at hless
    rw [h.symm.firstDifference] at hless'
    exact ⟨x, y, h, Word.sub_lt_zero_both_iff.1 ⟨hless, hless'⟩⟩
  · rintro ⟨x, y, h, hgap⟩
    rw [h.firstDifference, h.symm.firstDifference]
    exact Word.sub_lt_zero_both_iff.2 hgap

/-- Two blocks of the pool always have an answer, in a step of a run as well. It is 0 for the same
words only and otherwise measures the first two that differ. Negative answers go one way only,
unless these two lie half of the way around apart, and they carry over from one block to the next
among blocks that are near one another. -/
theorem memcmp_orders (hleft : m.Holds left size lefts) (hright : m.Holds right size rights) :
    (∃ word, memcmp left right size m = .ok word m ∧
      (m.Intact → m.Requests .memcmp [left, right, size] → ∀ tracing, ∃ m',
        step tracing m = .ok none m' ∧ m'.acc = word ∧ m'.memory = m.memory) ∧
      (word = 0 ↔ lefts = rights) ∧
      (lefts ≠ rights → ∃ x y, Differ lefts rights x y ∧ word.Measures x y)) ∧
    (m.Precedes size left right ∧ m.Precedes size right left ↔
      ∃ x y, Differ lefts rights x y ∧ gap x y = 2 ^ 63) ∧
    ∀ third thirds, m.Holds third size thirds → Near lefts rights → Near rights thirds →
      Near lefts thirds → m.Precedes size left right → m.Precedes size right third →
        m.Precedes size left third := by
  have hlength := hleft.length_eq hright
  refine ⟨⟨_, memcmp_eq hleft hright, fun hintact hrequests => ?_,
    firstDifference_eq_zero_iff hlength, fun hne => ?_⟩, precedes_both_iff hleft hright,
    fun third thirds hthird hfirst hsecond houter => ?_⟩
  · exact step_memcmp hintact hrequests hleft hright
  · obtain ⟨x, y, h⟩ := exists_differ hlength hne
    exact ⟨x, y, h, h.firstDifference ▸ Word.measures_sub x y⟩
  · rw [precedes_iff hleft hright, precedes_iff hright hthird, precedes_iff hleft hthird]
    exact firstDifference_trans hfirst hsecond houter

/-- Five words and three blocks of three words, of which the first two are compared. -/
def comparing : Machine :=
  small.performAll [
    .allocate [-0x8000000000000000, 1, 0, 0x6000000000000000, -0x4000000000000000,
      5, -7, 2, 5, -7, 3, 5, -6, -9],
    .emit Opcode.imm.word, .emit 69, .emit Opcode.push.word, .emit Opcode.imm.word, .emit 72,
    .emit Opcode.push.word, .emit Opcode.imm.word, .emit 3, .emit Opcode.push.word,
    .emit (Opcode.trap .memcmp).word, .emit 3, .emit Opcode.exit.word]

/-- The machine that has come to the comparison. -/
def compared : Machine :=
  comparing.after (runFrom 0 false 6)

theorem holds_compared :
    compared.Holds 64 1 [-0x8000000000000000] ∧ compared.Holds 65 1 [1] ∧
    compared.Holds 66 1 [0] ∧ compared.Holds 67 1 [0x6000000000000000] ∧
    compared.Holds 68 1 [-0x4000000000000000] := by
  refine ⟨⟨⟨64, 65⟩, ?_⟩, ⟨⟨65, 66⟩, ?_⟩, ⟨⟨66, 67⟩, ?_⟩, ⟨⟨67, 68⟩, ?_⟩, ⟨⟨68, 69⟩, ?_⟩⟩
  all_goals decide +kernel

/-- The first two blocks differ in their last words, and the third from both in the middle. -/
theorem memcmp_orders_compared :
    compared.Holds 69 3 [5, -7, 2] ∧ compared.Holds 72 3 [5, -7, 3] ∧
    compared.Holds 75 3 [5, -6, -9] ∧ compared.Requests .memcmp [69, 72, 3] ∧
    (∃ m', step false compared = .ok none m' ∧ m'.acc = -1) ∧ compared.Precedes 3 69 75 := by
  have hleast : compared.Holds 69 3 [5, -7, 2] := ⟨⟨69, 72⟩, by decide +kernel⟩
  have hmiddle : compared.Holds 72 3 [5, -7, 3] := ⟨⟨72, 75⟩, by decide +kernel⟩
  have hgreatest : compared.Holds 75 3 [5, -6, -9] := ⟨⟨75, 78⟩, by decide +kernel⟩
  obtain ⟨⟨word, hword, hstep, -, -⟩, -, htrans⟩ := memcmp_orders hleast hmiddle
  have hintact : compared.Intact := by
    have hreached : comparing.Reached := (Reached.create create_small).performAll _
    obtain ⟨layout, hunspent⟩ := hreached.unspent
    exact (hunspent.intact.intact.after_runFrom 0 false 6).intact
  have hunlimited : compared.cycleLimit = none := by decide +kernel
  have hrequests : compared.Requests .memcmp [69, 72, 3] :=
    ⟨fun _ hlimit => (nomatch hunlimited.symm.trans hlimit), by decide +kernel⟩
  have hnear {x y z x' y' z' : Word} (h : gap x x' < 2 ^ 63) (h' : gap y y' < 2 ^ 63)
      (h'' : gap z z' < 2 ^ 63) : Near [x, y, z] [x', y', z'] :=
    .cons h (.cons h' (.cons h'' .nil))
  have hfirst : compared.Precedes 3 69 72 := (precedes_iff hleast hmiddle).2 (by decide)
  have hsecond : compared.Precedes 3 72 75 := (precedes_iff hmiddle hgreatest).2 (by decide)
  refine ⟨hleast, hmiddle, hgreatest, hrequests, ?_, ?_⟩
  · obtain ⟨m', hok, hacc, -⟩ := hstep hintact hrequests false
    cases hword.symm.trans (memcmp_eq hleast hmiddle)
    exact ⟨m', hok, hacc.trans (by decide)⟩
  · exact htrans 75 [5, -6, -9] hgreatest (hnear (by decide) (by decide) (by decide))
      (hnear (by decide) (by decide) (by decide)) (hnear (by decide) (by decide) (by decide))
      hfirst hsecond

/-- The least word is less than 1, and `memcmp` says that it is greater. The least word and 0
precede each other, and three words precede one another in a circle. -/
theorem compared_misordered :
    (compared.Holds 64 1 [-0x8000000000000000] ∧ compared.Holds 65 1 [1] ∧
      (-0x8000000000000000 : Word) < 1 ∧
      ∃ word, memcmp 64 65 1 compared = .ok word compared ∧ 0 < word) ∧
    (compared.Holds 66 1 [0] ∧ compared.Precedes 1 64 66 ∧ compared.Precedes 1 66 64) ∧
    (compared.Holds 67 1 [0x6000000000000000] ∧ compared.Holds 68 1 [-0x4000000000000000] ∧
      compared.Precedes 1 66 67 ∧ compared.Precedes 1 67 68 ∧ ¬compared.Precedes 1 66 68) := by
  obtain ⟨hleast, hone, hzero, hgreat, hlast⟩ := holds_compared
  refine ⟨⟨hleast, hone, by decide, ?_⟩, ⟨hzero, ?_, ?_⟩, hgreat, hlast, ?_, ?_, ?_⟩
  · exact ⟨_, memcmp_eq hleast hone, by decide⟩
  · exact (precedes_iff hleast hzero).2 (by decide)
  · exact (precedes_iff hzero hleast).2 (by decide)
  · exact (precedes_iff hzero hgreat).2 (by decide)
  · exact (precedes_iff hgreat hlast).2 (by decide)
  · rw [precedes_iff hzero hlast]
    decide

end Machine

end WordC
