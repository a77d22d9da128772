import WordC.Error
import WordC.Proofs.Target.Agreement

/-!
# Expressions in memory

An expression without calls is evaluated from left to right on the words of a memory: its variables
have places there, and a pointer can be followed to any word of it. The account of an evaluation is
kept apart from the code, on the expression as it is written, and on what it resolves to; the two are
the same.
-/

namespace WordC

/-- Why an expression has no value. -/
inductive Fault where
  | divisionByZero
  /-- A pointer to no word of the memory. -/
  | outside (pointer : Word)
deriving DecidableEq

/-- The error of an instruction that runs into a fault. -/
def Fault.error (pc : Nat) : Fault → Error
  | divisionByZero => .divisionByZero pc
  | outside pointer => .invalidAccess pointer pc

/-- What an evaluation comes to: the pointers that it follows, one after the other, and its value or
the fault that ends it. -/
structure Account where
  followed : List Word
  outcome : Except Fault Word

namespace Account

def ofWord (word : Word) : Account :=
  ⟨[], .ok word⟩

def fail (fault : Fault) : Account :=
  ⟨[], .error fault⟩

/-- A second evaluation goes on with the value of the first one. -/
def andThen (first : Account) (next : Word → Account) : Account :=
  match first.outcome with
  | .ok value => ⟨first.followed ++ (next value).followed, (next value).outcome⟩
  | .error fault => ⟨first.followed, .error fault⟩

variable {first : Account} {next next' : Word → Account} {value : Word} {fault : Fault}

@[simp] theorem ofWord_andThen (word : Word) (next : Word → Account) :
    (ofWord word).andThen next = next word := rfl

theorem andThen_ofWord (first : Account) : first.andThen ofWord = first := by
  obtain ⟨followed, outcome⟩ := first
  cases outcome with
  | ok value => simp [andThen, ofWord]
  | error fault => rfl

theorem andThen_of_ok (h : first.outcome = .ok value) :
    first.andThen next = ⟨first.followed ++ (next value).followed, (next value).outcome⟩ := by
  rw [andThen, h]

theorem andThen_of_error (h : first.outcome = .error fault) :
    first.andThen next = ⟨first.followed, .error fault⟩ := by
  rw [andThen, h]

/-- What the first evaluation follows is followed. -/
theorem mem_followed_andThen {pointer : Word} (h : pointer ∈ first.followed) :
    pointer ∈ (first.andThen next).followed := by
  cases houtcome : first.outcome with
  | ok value =>
      rw [andThen_of_ok houtcome]
      exact List.mem_append_left _ h
  | error fault =>
      rw [andThen_of_error houtcome]
      exact h

end Account

/-- An operator has no value for a division by zero. -/
def Operator.account (operator : Operator) (left right : Word) : Account :=
  match operator.value? left right with
  | some value => .ofWord value
  | none => .fail .divisionByZero

/-- Follows a pointer to the word it points to. -/
def Memory.follow (memory : Array Word) (pointer : Word) : Account where
  followed := [pointer]
  outcome :=
    if 0 ≤ pointer.toInt ∧ pointer.toInt < memory.size then .ok (memory.getD pointer.toInt.toNat 0)
    else .error (.outside pointer)

namespace Syntax

/-- What an operator on one operand makes of its value. Only a pointer has none but the word that it
points to. -/
def Unary.account (memory : Array Word) (op : Unary) (operand : Word) : Account :=
  match op.value? operand with
  | some value => .ofWord value
  | none => Memory.follow memory operand

end Syntax

/-! ## Resolved expressions -/

namespace Core

variable (bp : Nat) (memory : Array Word)

/-- The word of a variable. -/
def Place.wordIn (place : Place) : Word :=
  memory.getD (place.address bp) 0

namespace Expr

/-- The account of an expression without calls. -/
def account : Expr → Account
  | constant value => .ofWord value
  | load place => .ofWord (place.wordIn bp memory)
  | address place => .ofWord (Word.ofCount (place.address bp))
  | follow pointer => pointer.account.andThen (Memory.follow memory)
  | binary operator left right =>
      left.account.andThen fun first => right.account.andThen fun second =>
        operator.account first second
  | logical connective left right =>
      left.account.andThen fun first =>
        if connective.isDecided first then .ofWord (Syntax.truth first)
        else right.account.andThen fun second => .ofWord (Syntax.truth second)
  | call _ _ | trap _ _ => .ofWord 0

def isCallFree : Expr → Bool
  | follow pointer => pointer.isCallFree
  | binary _ left right | logical _ left right => left.isCallFree && right.isCallFree
  | call _ _ | trap _ _ => false
  | constant _ | load _ | address _ => true

/-- Whether an address lies in the code of a right operand that the left one decides. -/
def Skips (start pc : Nat) : Expr → Prop
  | follow pointer => pointer.Skips start pc
  | binary _ left right =>
      left.Skips start pc ∨ right.Skips (start + size (left.code start) + 1) pc
  | logical connective left right =>
      let second := start + size (left.code start) + 2
      left.Skips start pc ∨ right.Skips second pc ∨
        (∃ value, (left.account bp memory).outcome = .ok value ∧
          connective.isDecided value = true) ∧
        second ≤ pc ∧ pc < second + size (right.code second)
  | constant _ | load _ | address _ | call _ _ | trap _ _ => False

/-- The addresses in the code of an expression that are not skipped. -/
structure Passes (start : Nat) (e : Expr) (pc : Nat) : Prop where
  above : start ≤ pc
  below : pc < start + size (e.code start)
  reached : ¬e.Skips bp memory start pc

end Expr

end Core

/-! ## Code that is passed -/

namespace Core.Expr

variable {bp start pc : Nat} {memory : Array Word} {operator : Operator}
  {connective : Syntax.Connective} {pointer left right : Expr}

/-- Only code of the expression is skipped. -/
theorem bounds_of_skips : ∀ {e : Expr} {start : Nat}, e.Skips bp memory start pc →
    start ≤ pc ∧ pc < start + size (e.code start)
  | constant _, _, h | load _, _, h | address _, _, h | call _ _, _, h | trap _ _, _, h => h.elim
  | follow pointer, start, h => by
      obtain ⟨hstart, hstop⟩ := bounds_of_skips (e := pointer) h
      rw [stop_follow]
      omega
  | binary operator left right, start, h => by
      rw [stop_binary]
      rcases h with h | h
      · obtain ⟨hstart, hstop⟩ := bounds_of_skips h
        omega
      · obtain ⟨hstart, hstop⟩ := bounds_of_skips h
        omega
  | logical connective left right, start, h => by
      rw [stop_logical]
      rcases h with h | h | ⟨-, hstart, hstop⟩
      · obtain ⟨hstart, hstop⟩ := bounds_of_skips h
        omega
      · obtain ⟨hstart, hstop⟩ := bounds_of_skips h
        omega
      · omega

theorem not_skips_of_lt {e : Expr} (h : pc < start) : ¬e.Skips bp memory start pc :=
  fun hskips => Nat.not_le_of_lt h (bounds_of_skips hskips).1

theorem not_skips_of_le {e : Expr} (h : start + size (e.code start) ≤ pc) :
    ¬e.Skips bp memory start pc :=
  fun hskips => Nat.not_le_of_lt (bounds_of_skips hskips).2 h

theorem passes_follow (h : pointer.Passes bp memory start pc ∨
    pc = start + size (pointer.code start)) : (follow pointer).Passes bp memory start pc := by
  have hsize := @stop_follow start pointer
  rcases h with ⟨hstart, hstop, hreached⟩ | rfl
  · exact ⟨hstart, by omega, hreached⟩
  · exact ⟨Nat.le_add_right _ _, by omega, not_skips_of_le (e := pointer) (Nat.le_refl _)⟩

theorem passes_binary (h : left.Passes bp memory start pc ∨ pc = start + size (left.code start) ∨
      right.Passes bp memory (start + size (left.code start) + 1) pc ∨
      pc = start + size (left.code start) + 1 +
        size (right.code (start + size (left.code start) + 1))) :
    (binary operator left right).Passes bp memory start pc := by
  have hsize := @stop_binary start operator left right
  rcases h with ⟨hstart, hstop, hreached⟩ | rfl | ⟨hstart, hstop, hreached⟩ | rfl
  · exact ⟨hstart, by omega, not_or.2 ⟨hreached, not_skips_of_lt (by omega)⟩⟩
  · exact ⟨by omega, by omega, not_or.2 ⟨not_skips_of_le (by omega), not_skips_of_lt (by omega)⟩⟩
  · exact ⟨by omega, by omega, not_or.2 ⟨not_skips_of_le (by omega), hreached⟩⟩
  · exact ⟨by omega, by omega, not_or.2 ⟨not_skips_of_le (by omega), not_skips_of_le (by omega)⟩⟩

theorem passes_logical (h : left.Passes bp memory start pc ∨
      pc = start + size (left.code start) ∨
      (∀ value, (left.account bp memory).outcome = .ok value →
          connective.isDecided value = false) ∧
        right.Passes bp memory (start + size (left.code start) + 2) pc ∨
      start + size (left.code start) + 2 +
          size (right.code (start + size (left.code start) + 2)) ≤ pc ∧
        pc < start + size (left.code start) + 2 +
          size (right.code (start + size (left.code start) + 2)) + 4) :
    (logical connective left right).Passes bp memory start pc := by
  have hsize := @stop_logical start connective left right
  rcases h with ⟨hstart, hstop, hreached⟩ | rfl | ⟨hopen, hstart, hstop, hreached⟩ | ⟨hstart, hstop⟩
  · refine ⟨hstart, by omega, ?_⟩
    rintro (h | h | ⟨-, hafter, -⟩)
    · exact hreached h
    · exact not_skips_of_lt (by omega) h
    · omega
  · refine ⟨by omega, by omega, ?_⟩
    rintro (h | h | ⟨-, hafter, -⟩)
    · exact not_skips_of_le (by omega) h
    · exact not_skips_of_lt (by omega) h
    · omega
  · refine ⟨by omega, by omega, ?_⟩
    rintro (h | h | ⟨⟨value, hvalue, hdecided⟩, -⟩)
    · exact not_skips_of_le (by omega) h
    · exact hreached h
    · rw [hopen value hvalue] at hdecided
      cases hdecided
  · refine ⟨by omega, by omega, ?_⟩
    rintro (h | h | ⟨-, -, hbefore⟩)
    · exact not_skips_of_le (by omega) h
    · exact not_skips_of_le (by omega) h
    · omega

end Core.Expr

/-! ## Expressions as they are written -/

namespace Syntax

open WordC.Core (Binding Env)

variable (env : Env) (bp : Nat) (memory : Array Word)

/-- The word of a name. A function has none. -/
def wordOf (identifier : String) : Word :=
  match env.find? identifier with
  | some (.object place) => place.wordIn bp memory
  | some (.constant value) => value
  | _ => 0

/-- The address of a variable. -/
def addressOf (identifier : String) : Word :=
  match env.find? identifier with
  | some (.object place) => Word.ofCount (place.address bp)
  | _ => 0

namespace Expr

/-- The account of an expression without calls, whose strings have their words from `data` on. -/
def account (data : Nat) : Expr → Account
  | literal value => .ofWord value.value
  | string _ => .ofWord (Word.ofCount data)
  | sizeof _ => .ofWord 1
  | name identifier => .ofWord (wordOf env bp memory identifier)
  | addressOf identifier => .ofWord (Syntax.addressOf env bp identifier)
  | unary op operand => (operand.account data).andThen (op.account memory)
  | binary (.word operator) left right =>
      (left.account data).andThen fun first =>
        (right.account (data + left.data.length)).andThen fun second =>
          operator.account first second
  | binary (.logical connective) left right =>
      (left.account data).andThen fun first =>
        if connective.isDecided first then .ofWord (truth first)
        else (right.account (data + left.data.length)).andThen fun second => .ofWord (truth second)
  | call _ _ => .ofWord 0
  | group inner => inner.account data

def isCallFree : Expr → Bool
  | unary _ operand => operand.isCallFree
  | binary _ left right => left.isCallFree && right.isCallFree
  | call _ _ => false
  | group inner => inner.isCallFree
  | literal _ | string _ | sizeof _ | name _ | addressOf _ => true

/-- Operators on one operand are left to those on two. -/
theorem account_resolve_unary (op : Unary) (operand : Core.Expr) :
    (op.resolve operand).account bp memory =
      (operand.account bp memory).andThen (op.account memory) := by
  cases op with
  | minus =>
      rw [Unary.resolve, Core.Expr.account, Core.Expr.account, Account.ofWord_andThen]
      refine congrArg _ (funext fun word => ?_)
      have hzero : (0 : Word).toInt - word.toInt = -word.toInt := Int.zero_sub _
      simp only [Operator.account, Operator.value?, Unary.account, Unary.value?, hzero]
  | plus =>
      have hplus : Unary.account memory .plus = Account.ofWord := rfl
      rw [Unary.resolve, hplus, Account.andThen_ofWord]
  | bang => rfl
  | tilde =>
      rw [Unary.resolve, Core.Expr.account, Core.Expr.account]
      refine congrArg _ (funext fun word => ?_)
      rw [Account.ofWord_andThen]
      simp only [Operator.account, Operator.value?, Unary.account, Unary.value?, Int64.xor_neg_one]
  | star => rfl

theorem isCallFree_resolve_unary (op : Unary) {operand : Core.Expr} (h : operand.isCallFree) :
    (op.resolve operand).isCallFree := by
  cases op with
  | minus => exact h
  | plus => exact h
  | bang => exact Bool.and_eq_true_iff.2 ⟨h, rfl⟩
  | tilde => exact Bool.and_eq_true_iff.2 ⟨h, rfl⟩
  | star => exact h

theorem account_of_resolveName? {env : Env} {bp : Nat} {memory : Array Word} {identifier : String}
    {value : Core.Expr} (h : (env.find? identifier).bind resolveName? = some value) :
    value.isCallFree ∧ value.account bp memory = .ofWord (wordOf env bp memory identifier) := by
  obtain ⟨binding, hfind, hvalue⟩ := Option.bind_eq_some_iff.1 h
  rw [wordOf, hfind]
  cases binding with
  | object place =>
      cases hvalue
      exact ⟨rfl, rfl⟩
  | constant word =>
      cases hvalue
      exact ⟨rfl, rfl⟩
  | function arity => cases hvalue
  | system request => cases hvalue

theorem account_of_resolveAddress? {env : Env} {bp : Nat} {memory : Array Word}
    {identifier : String} {value : Core.Expr}
    (h : (env.find? identifier).bind resolveAddress? = some value) :
    value.isCallFree ∧
      value.account bp memory = .ofWord (Syntax.addressOf env bp identifier) := by
  obtain ⟨binding, hfind, hvalue⟩ := Option.bind_eq_some_iff.1 h
  rw [Syntax.addressOf, hfind]
  cases binding with
  | object place =>
      cases hvalue
      exact ⟨rfl, rfl⟩
  | constant word => cases hvalue
  | function arity => cases hvalue
  | system request => cases hvalue

/-- Resolving changes nothing about an evaluation. -/
theorem account_of_resolve? {env : Env} {bp : Nat} {memory : Array Word} :
    ∀ {e : Expr} {data : Nat} {value : Core.Expr}, e.isCallFree →
      e.resolve? env data = some value →
      value.isCallFree ∧ value.account bp memory = e.account env bp memory data
  | literal _, _, _, _, h | string _, _, _, _, h | sizeof _, _, _, _, h => by
      cases h
      exact ⟨rfl, rfl⟩
  | name _, _, _, _, h => account_of_resolveName? h
  | addressOf _, _, _, _, h => account_of_resolveAddress? h
  | unary op operand, _, _, hfree, h => by
      obtain ⟨inner, hinner, rfl⟩ := Option.map_eq_some_iff.1 h
      obtain ⟨hinnerFree, haccount⟩ := account_of_resolve? (e := operand) hfree hinner
      refine ⟨isCallFree_resolve_unary op hinnerFree, ?_⟩
      rw [account_resolve_unary, haccount, account]
  | binary op left right, _, _, hfree, h => by
      simp only [resolve?, Option.bind_eq_bind, Option.bind_eq_some_iff, Option.some.injEq] at h
      obtain ⟨first, hfirst, second, hsecond, rfl⟩ := h
      rw [isCallFree, Bool.and_eq_true] at hfree
      obtain ⟨hleftFree, hleft⟩ := account_of_resolve? (e := left) hfree.1 hfirst
      obtain ⟨hrightFree, hright⟩ := account_of_resolve? (e := right) hfree.2 hsecond
      cases op with
      | word operator =>
          refine ⟨Bool.and_eq_true_iff.2 ⟨hleftFree, hrightFree⟩, ?_⟩
          rw [Binary.resolve, Core.Expr.account, account, hleft, hright]
      | logical connective =>
          refine ⟨Bool.and_eq_true_iff.2 ⟨hleftFree, hrightFree⟩, ?_⟩
          rw [Binary.resolve, Core.Expr.account, account, hleft, hright]
  | group inner, _, _, hfree, h => account_of_resolve? (e := inner) hfree h

end Expr

end Syntax

end WordC
