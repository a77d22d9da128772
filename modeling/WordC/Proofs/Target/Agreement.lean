import Mathlib.Data.List.Forall2
import WordC.Proofs.Target.Semantics
import WordC.Proofs.Target.Valid

/-!
# Evaluations side by side

A tree and what it resolves to are evaluated side by side: one on variables, the other on a store.
Between any two of their parts the words of the store are the values of the variables that have one.
-/

namespace WordC

open WordC.Core (Binding Env Place Store)
open Syntax (Evaluation Scope Scopes Stop Values Variables)

theorem Word.toInt_eq_zero {word : Word} : word.toInt = 0 ↔ word = 0 := by
  rw [← Int64.toInt_inj]
  rfl

/-- Words compute what integers do, wrapped. -/
theorem Operator.value?_eq (left right : Word) (operator : Operator) :
    operator.value? left right = operator.apply? left right := by
  cases operator with
  | or | xor | and => rfl
  | eq =>
      simp only [value?, Operator.apply?, Int64.toInt_inj]
      rfl
  | ne =>
      simp only [value?, Operator.apply?, ne_eq, Int64.toInt_inj, bne, decide_not]
      rfl
  | lt | gt => simp only [value?, Operator.apply?, Int64.lt_iff_toInt_lt, gt_iff_lt]
  | le | ge => simp only [value?, Operator.apply?, Int64.le_iff_toInt_le, ge_iff_le]
  | add => simp only [value?, Operator.apply?, Int64.ofInt_add, Int64.ofInt_toInt]
  | sub => simp only [value?, Operator.apply?, Int64.ofInt_sub, Int64.ofInt_toInt]
  | mul => simp only [value?, Operator.apply?, Int64.ofInt_mul, Int64.ofInt_toInt]
  | div =>
      have hquotient : Int64.ofInt (left.toInt.tdiv right.toInt) = left / right := by
        rw [← Int64.toInt_inj, Int64.toInt_ofInt, Int64.toInt_div]
      simp only [value?, Operator.apply?, Word.toInt_eq_zero, hquotient]
  | mod =>
      have hremainder : Int64.ofInt (left.toInt.tmod right.toInt) = left % right := by
        rw [← Int64.toInt_mod, Int64.ofInt_toInt]
      simp only [value?, Operator.apply?, Word.toInt_eq_zero, hremainder]

namespace Core.Env

theorem find?_eq (env : Env) (name : String) :
    env.find? name =
      ((env.locals.find? name).or ((env.globals.lookup name).or (builtins.lookup name))) := by
  unfold find? scopes Scopes.find?
  rw [List.findSome?_append]
  congr 1
  cases hglobal : env.globals.lookup name <;> simp [hglobal]

theorem find?_of_locals {env : Env} {name : String} {place : Place}
    (h : env.locals.find? name = some (.object place)) : env.find? name = some (.object place) := by
  rw [find?_eq, h]
  rfl

end Core.Env

namespace Syntax

/-! ## Outcomes -/

variable {σ τ α β : Type}

/-- Two evaluations that come to the same with related states behind them. Nothing is said where the
first of them has no meaning. -/
inductive Matches (related : α → σ → τ → Prop) :
    Except Stop (α × σ) → Except Stop (α × τ) → Prop where
  | undefined {outcome : Except Stop (α × τ)} : Matches related (.error .undefined) outcome
  | stop {stop : Stop} : Matches related (.error stop) (.error stop)
  | ok {value : α} {s : σ} {t : τ} (h : related value s t) :
      Matches related (.ok (value, s)) (.ok (value, t))

theorem Matches.mono {related related' : α → σ → τ → Prop} {outcome : Except Stop (α × σ)}
    {outcome' : Except Stop (α × τ)} (h : Matches related outcome outcome')
    (himp : ∀ value s t, related value s t → related' value s t) :
    Matches related' outcome outcome' := by
  cases h with
  | undefined => exact .undefined
  | stop => exact .stop
  | ok h => exact .ok (himp _ _ _ h)

theorem Matches.bind {σ' τ' : Type} {mid : α → σ → τ → Prop} {post : β → σ' → τ' → Prop}
    {outcome : Except Stop (α × σ)} {outcome' : Except Stop (α × τ)}
    {next : α × σ → Except Stop (β × σ')} {next' : α × τ → Except Stop (β × τ')}
    (h : Matches mid outcome outcome')
    (hnext : ∀ value s t, mid value s t → Matches post (next (value, s)) (next' (value, t))) :
    Matches post (outcome >>= next) (outcome' >>= next') := by
  cases h with
  | undefined => exact .undefined
  | stop => exact .stop
  | ok h => exact hnext _ _ _ h

/-- The first evaluation goes on for itself. -/
theorem Matches.bind_left {σ' : Type} {related : α → σ → τ → Prop} {related' : α → σ' → τ → Prop}
    {outcome : Except Stop (α × σ)} {outcome' : Except Stop (α × τ)}
    {next : α × σ → Except Stop (α × σ')} (h : Matches related outcome outcome')
    (hnext : ∀ value s t, related value s t →
      ∃ s', next (value, s) = .ok (value, s') ∧ related' value s' t) :
    Matches related' (outcome >>= next) outcome' := by
  cases h with
  | undefined => exact .undefined
  | stop => exact .stop
  | ok h =>
      obtain ⟨s', hs', hrelated⟩ := hnext _ _ _ h
      change Matches related' (next _) _
      rw [hs']
      exact .ok hrelated

/-- From related states two evaluations come to the same. -/
def Follows (pre : σ → τ → Prop) (post : α → σ → τ → Prop) (action : Evaluation σ α)
    (action' : Evaluation τ α) : Prop :=
  ∀ s t, pre s t → Matches post (action s) (action' t)

namespace Follows

variable {pre : σ → τ → Prop} {mid : α → σ → τ → Prop} {post : β → σ → τ → Prop}
  {related : σ → τ → Prop}

theorem pure (value : α) (h : ∀ s t, pre s t → mid value s t) :
    Follows pre mid (Pure.pure value) (Pure.pure value) :=
  fun s t hpre => .ok (h s t hpre)

theorem undefined (action : Evaluation τ α) : Follows pre mid (throw .undefined) action :=
  fun _ _ _ => .undefined

theorem unfinished : Follows pre mid (throw .unfinished) (throw .unfinished) :=
  fun _ _ _ => .stop

theorem modify {f : σ → σ} {g : τ → τ} {post : Unit → σ → τ → Prop}
    (h : ∀ s t, pre s t → post () (f s) (g t)) : Follows pre post (modify f) (modify g) :=
  fun s t hpre => .ok (h s t hpre)

theorem bind {action : Evaluation σ α} {action' : Evaluation τ α} {next : α → Evaluation σ β}
    {next' : α → Evaluation τ β} (h : Follows pre mid action action')
    (hnext : ∀ value, Follows (mid value) post (next value) (next' value)) :
    Follows pre post (action >>= next) (action' >>= next') :=
  fun s t hpre => (h s t hpre).bind fun value s' t' hmid => hnext value s' t' hmid

theorem ite {condition : Prop} [Decidable condition] {action other : Evaluation σ α}
    {action' other' : Evaluation τ α} (h : Follows pre mid action action')
    (hother : Follows pre mid other other') :
    Follows pre mid (if condition then action else other)
      (if condition then action' else other') := by
  by_cases hcondition : condition
  · rw [if_pos hcondition, if_pos hcondition]
    exact h
  · rw [if_neg hcondition, if_neg hcondition]
    exact hother

theorem resultOf (stop : Stop) (result : Option Word) :
    Follows related (fun _ => related) (resultOf stop result) (resultOf stop result) := by
  cases result with
  | none => exact fun _ _ _ => .stop
  | some word => exact .pure word fun _ _ h => h

theorem repeatWhile {test : Evaluation σ Bool} {test' : Evaluation τ Bool}
    {body : Evaluation σ (Option Word)} {body' : Evaluation τ (Option Word)}
    (htest : Follows related (fun _ => related) test test')
    (hbody : Follows related (fun _ => related) body body') (rounds : Nat) :
    Follows related (fun _ => related) (repeatWhile test body rounds)
      (repeatWhile test' body' rounds) := by
  induction rounds with
  | zero => exact unfinished
  | succ rounds ih =>
      refine htest.bind fun holds => ite (.pure none fun _ _ h => h) (hbody.bind fun result => ?_)
      cases result with
      | none => exact ih
      | some word => exact .pure (some word) fun _ _ h => h

end Follows

/-! ## Variables and their places -/

/-- The constants of a file are those that its names stand for, and each of its variables has an
address of its own. -/
structure Names (constants : Values) (globals : Scope Binding) : Prop where
  constant : ∀ name word, globals.lookup name = some (.constant word) →
    constants.lookup name = some word
  isGlobal : ∀ name place, globals.lookup name = some (.object place) →
    ∃ address, place = .global address
  apart : ∀ name other place, globals.lookup name = some (.object place) →
    globals.lookup other = some (.object place) → name = other

/-- The store has the values of global variables, and these are no constants. -/
structure GlobalsAgree (globals : Scope Binding) (values : Values) (store : Store) : Prop where
  object : ∀ name place, globals.lookup name = some (.object place) →
    values.lookup name = some (store place)
  constant : ∀ name word, globals.lookup name = some (.constant word) → values.lookup name = none

/-- The store has the value of a local variable, if it has one yet. -/
def Shows (store : Store) (entry : String × Binding) (content : String × Option Word) : Prop :=
  entry.1 = content.1 ∧ ∃ place, entry.2 = .object place ∧ place.isLocal = true ∧
    ∀ word, content.2 = some word → store place = word

def LocalsAgree (scopes : Scopes Binding) (locals : Scopes (Option Word)) (store : Store) : Prop :=
  List.Forall₂ (List.Forall₂ (Shows store)) scopes locals

/-- The places of local variables are apart, and no slot is behind the `used` ones. -/
structure Apart (used : Nat) (scopes : Scopes Binding) : Prop where
  nodup : (scopes.flatten.map Prod.snd).Nodup
  slots : ∀ index, .object (.slot index) ∈ scopes.flatten.map Prod.snd → index ≤ used

variable {globals : Scope Binding} {values : Values} {store store' : Store}
  {scope : Scope Binding} {contents : Scope (Option Word)} {scopes : Scopes Binding}
  {locals : Scopes (Option Word)} {name : String} {place : Place} {word : Word} {used : Nat}

theorem Shows.mono {entry : String × Binding} {content : String × Option Word}
    (h : Shows store entry content)
    (hkept : ∀ place, entry.2 = .object place → place.isLocal = true → store' place = store place) :
    Shows store' entry content := by
  obtain ⟨hname, place, hplace, hlocal, hword⟩ := h
  refine ⟨hname, place, hplace, hlocal, fun word hvalue => ?_⟩
  rw [hkept place hplace hlocal, hword word hvalue]

theorem LocalsAgree.mono (h : LocalsAgree scopes locals store)
    (hkept : ∀ place, place.isLocal = true → store' place = store place) :
    LocalsAgree scopes locals store' :=
  h.imp fun _ _ hscope => hscope.imp fun _ _ hshows => hshows.mono fun place _ => hkept place

theorem lookup_of_shows (h : List.Forall₂ (Shows store) scope contents) (name : String) :
    (scope.lookup name = none ∧ contents.lookup name = none) ∨
      ∃ place value, scope.lookup name = some (.object place) ∧
        contents.lookup name = some value ∧ place.isLocal = true ∧
        ∀ word, value = some word → store place = word := by
  induction h with
  | nil => exact .inl ⟨rfl, rfl⟩
  | @cons entry content scope contents hshows _ ih =>
      obtain ⟨key, binding⟩ := entry
      obtain ⟨key', value⟩ := content
      obtain ⟨rfl, place, rfl, hlocal, hword⟩ := hshows
      rw [List.lookup_cons, List.lookup_cons]
      cases hname : name == key with
      | true => exact .inr ⟨place, value, rfl, rfl, hlocal, hword⟩
      | false => exact ih

/-- The innermost variable of a name stands at the place of its innermost declaration. -/
theorem LocalsAgree.find? (h : LocalsAgree scopes locals store) (name : String) :
    (scopes.find? name = none ∧ locals.find? name = none) ∨
      ∃ place value, scopes.find? name = some (.object place) ∧ locals.find? name = some value ∧
        place.isLocal = true ∧ ∀ word, value = some word → store place = word := by
  induction h with
  | nil => exact .inl ⟨rfl, rfl⟩
  | @cons scope contents scopes locals hscope _ ih =>
      unfold Scopes.find? at ih ⊢
      rw [List.findSome?_cons, List.findSome?_cons]
      rcases lookup_of_shows hscope name with
        ⟨hscope, hcontents⟩ | ⟨place, value, hscope, hcontents, hlocal, hword⟩
      · rw [hscope, hcontents]
        exact ih
      · rw [hscope, hcontents]
        exact .inr ⟨place, value, rfl, rfl, hlocal, hword⟩

/-! ## Assignments -/

theorem mem_of_lookup {β : Type} {scope : Scope β} {name : String} {value : β}
    (h : scope.lookup name = some value) : (name, value) ∈ scope := by
  obtain ⟨front, back, rfl, -⟩ := List.lookup_eq_some_iff.1 h
  exact List.mem_append_right _ List.mem_cons_self

theorem lookup_assign {β : Type} (name : String) (value : β) (scope : Scope β) (other : String) :
    (Scope.assign name value scope).lookup other =
      if other = name then (scope.lookup other).map fun _ => value else scope.lookup other := by
  induction scope with
  | nil => simp [Scope.assign]
  | cons entry rest ih =>
      obtain ⟨key, old⟩ := entry
      rw [Scope.assign]
      by_cases hkey : key = name
      · rw [if_pos hkey, List.lookup_cons, List.lookup_cons, hkey]
        by_cases hother : other = name
        · simp [hother]
        · simp [hother, show (other == name) = false by simpa using hother]
      · rw [if_neg hkey, List.lookup_cons, List.lookup_cons, ih]
        by_cases hother : other = name
        · simp [hother, show (name == key) = false by simpa using Ne.symm hkey]
        · simp [hother]

theorem GlobalsAgree.assign {constants : Values} (hnames : Names constants globals)
    (h : GlobalsAgree globals values store) (hplace : globals.lookup name = some (.object place))
    (word : Word) : GlobalsAgree globals (Scope.assign name word values) (store.set place word) where
  object := by
    intro other otherPlace hother
    rw [lookup_assign]
    by_cases hname : other = name
    · rw [hname, hplace] at hother
      cases hother
      rw [if_pos hname, hname, h.object name place hplace, Store.set_self]
      rfl
    · have hne : otherPlace ≠ place := by
        rintro rfl
        exact hname (hnames.apart other name otherPlace hother hplace)
      rw [if_neg hname, h.object other otherPlace hother, Store.set_of_ne hne]
  constant := by
    intro other value hother
    rw [lookup_assign, h.constant other value hother]
    simp

/-- Local variables play no part for the others. -/
theorem GlobalsAgree.congr {constants : Values} (hnames : Names constants globals)
    (h : GlobalsAgree globals values store)
    (hkept : ∀ place, place.isLocal = false → store' place = store place) :
    GlobalsAgree globals values store' where
  object := by
    intro name place hplace
    obtain ⟨address, rfl⟩ := hnames.isGlobal name place hplace
    rw [h.object name _ hplace, hkept (.global address) rfl]
  constant := h.constant

theorem shows_set_of_notMem (h : List.Forall₂ (Shows store) scope contents)
    (hmem : .object place ∉ scope.map Prod.snd) (word : Word) :
    List.Forall₂ (Shows (store.set place word)) scope contents := by
  induction h with
  | nil => exact .nil
  | @cons entry content scope contents hshows _ ih =>
      rw [List.map_cons, List.mem_cons, not_or] at hmem
      refine .cons (hshows.mono fun other hother _ => Store.set_of_ne ?_ word store) (ih hmem.2)
      rintro rfl
      exact hmem.1 hother.symm

theorem shows_assign (h : List.Forall₂ (Shows store) scope contents)
    (hnodup : (scope.map Prod.snd).Nodup) (hplace : scope.lookup name = some (.object place))
    (word : Word) :
    List.Forall₂ (Shows (store.set place word)) scope (Scope.assign name (some word) contents) := by
  induction h with
  | nil => cases hplace
  | @cons entry content scope contents hshows hrest ih =>
      obtain ⟨key, binding⟩ := entry
      obtain ⟨key', value⟩ := content
      obtain ⟨rfl, first, hfirst, hlocal, hword⟩ := hshows
      obtain ⟨hfresh, hnodup⟩ := List.nodup_cons.1 hnodup
      rw [Scope.assign]
      rw [List.lookup_cons] at hplace
      by_cases hkey : key = name
      · rw [show (name == key) = true by simp [hkey]] at hplace
        cases hplace
        cases hfirst
        rw [if_pos hkey]
        refine .cons ⟨rfl, place, rfl, hlocal, fun found hfound => ?_⟩
          (shows_set_of_notMem hrest hfresh word)
        cases hfound
        exact Store.set_self place word store
      · rw [show (name == key) = false by simpa using Ne.symm hkey] at hplace
        rw [if_neg hkey]
        refine .cons ?_ (ih hnodup hplace)
        refine Shows.mono ⟨rfl, first, hfirst, hlocal, hword⟩ fun other hother _ => ?_
        refine Store.set_of_ne ?_ word store
        rintro rfl
        rw [show binding = .object other from hother] at hfresh
        exact hfresh (List.mem_map.2 ⟨_, mem_of_lookup hplace, rfl⟩)

theorem LocalsAgree.set_of_notMem (h : LocalsAgree scopes locals store)
    (hmem : .object place ∉ scopes.flatten.map Prod.snd) (word : Word) :
    LocalsAgree scopes locals (store.set place word) := by
  induction h with
  | nil => exact .nil
  | cons hscope _ ih =>
      rw [List.flatten_cons, List.map_append, List.mem_append, not_or] at hmem
      exact .cons (shows_set_of_notMem hscope hmem.1 word) (ih hmem.2)

theorem mem_of_find? {name : String} {binding : Binding} (h : scopes.find? name = some binding) :
    binding ∈ scopes.flatten.map Prod.snd := by
  obtain ⟨scope, hmem, hlookup⟩ := List.exists_of_findSome?_eq_some h
  exact List.mem_map.2 ⟨_, List.mem_flatten.2 ⟨scope, hmem, mem_of_lookup hlookup⟩, rfl⟩

/-- An assignment changes the innermost variable of its name and the word at that one's place. -/
theorem LocalsAgree.assign (h : LocalsAgree scopes locals store)
    (hnodup : (scopes.flatten.map Prod.snd).Nodup)
    (hplace : scopes.find? name = some (.object place)) (word : Word) :
    ∃ changed, Scopes.assign? name (some word) locals = some changed ∧
      LocalsAgree scopes changed (store.set place word) := by
  induction h with
  | nil => cases hplace
  | @cons scope contents scopes locals hscope hrest ih =>
      rw [List.flatten_cons, List.map_append] at hnodup
      obtain ⟨hinner, houter, hdisjoint⟩ := List.nodup_append.1 hnodup
      rw [Scopes.find?, List.findSome?_cons] at hplace
      rw [Scopes.assign?]
      rcases lookup_of_shows hscope name with
        ⟨hnone, hcontents⟩ | ⟨found, value, hfound, hcontents, -, -⟩
      · rw [hnone] at hplace
        obtain ⟨changed, hchanged, hagree⟩ := ih houter hplace
        have hmem : .object place ∉ scope.map Prod.snd := fun hmem =>
          hdisjoint _ hmem _ (mem_of_find? hplace) rfl
        refine ⟨contents :: changed, ?_, .cons (shows_set_of_notMem hscope hmem word) hagree⟩
        rw [hcontents, hchanged]
        rfl
      · rw [hfound] at hplace
        cases hplace
        have hmem : .object place ∉ scopes.flatten.map Prod.snd := fun hmem =>
          hdisjoint _ (List.mem_map.2 ⟨_, mem_of_lookup hfound, rfl⟩) _ hmem rfl
        refine ⟨_, ?_, .cons (shows_assign hscope hinner hfound word)
          (LocalsAgree.set_of_notMem hrest hmem word)⟩
        rw [hcontents]
        rfl

theorem assign?_eq_none (h : locals.find? name = none) (value : Option Word) :
    Scopes.assign? name value locals = none := by
  induction locals with
  | nil => rfl
  | cons contents locals ih =>
      rw [Scopes.find?, List.findSome?_cons] at h
      rw [Scopes.assign?]
      cases hlookup : contents.lookup name with
      | some found =>
          rw [hlookup] at h
          cases h
      | none =>
          rw [hlookup] at h
          rw [ih h]
          rfl

/-! ## Variables and stores -/

/-- The store has the values of all variables that have one. -/
structure Agree (globals : Scope Binding) (scopes : Scopes Binding)
    (locals : Scopes (Option Word)) (values : Values) (store : Store) : Prop where
  globals : GlobalsAgree globals values store
  locals : LocalsAgree scopes locals store

/-- The same for all variables at a place of a function. -/
def Mirrors (globals : Scope Binding) (env : Env) (state : Variables) (store : Store) : Prop :=
  Agree globals env.locals state.locals state.globals store

/-- The names of the file at some place of it stand for what they do in the whole of it. -/
def Among (globals : Scope Binding) (env : Env) : Prop :=
  ∀ name binding, env.globals.lookup name = some binding → globals.lookup name = some binding

variable {constants : Values} {env env' : Env} {state : Variables}

/-- A name of no local variable that stands for a variable or a constant is one of the file. -/
theorem lookup_of_find? {binding : Binding} (hamong : Among globals env)
    (hlocals : env.locals.find? name = none) (h : env.find? name = some binding)
    (hbinding : ∀ request, binding ≠ .system request) : globals.lookup name = some binding := by
  rw [Env.find?_eq, hlocals, Option.none_or] at h
  cases hglobal : env.globals.lookup name with
  | some found =>
      rw [hglobal] at h
      cases h
      exact hamong name _ hglobal
  | none =>
      rw [hglobal, Option.none_or, Core.lookup_builtins] at h
      obtain ⟨request, -, hrequest⟩ := Option.map_eq_some_iff.1 h
      exact absurd hrequest.symm (hbinding request)

theorem Mirrors.assign (hnames : Names constants globals) (hamong : Among globals env)
    (happart : Apart used env.locals) (h : Mirrors globals env state store)
    (hplace : env.find? name = some (.object place)) (word : Word) :
    Mirrors globals env (state.assign name word) (store.set place word) := by
  unfold Variables.assign
  rcases h.locals.find? name with
    ⟨hnone, hlocals⟩ | ⟨found, value, hfound, hlocals, hlocal, -⟩
  · have hglobal := lookup_of_find? hamong hnone hplace fun request => by simp
    rw [assign?_eq_none hlocals]
    obtain ⟨address, rfl⟩ := hnames.isGlobal name place hglobal
    refine ⟨h.globals.assign hnames hglobal word, h.locals.mono fun other hother => ?_⟩
    refine Store.set_of_ne ?_ word store
    rintro rfl
    cases hother
  · rw [Env.find?_of_locals hfound] at hplace
    cases hplace
    obtain ⟨changed, hchanged, hagree⟩ := h.locals.assign happart.nodup hfound word
    rw [hchanged]
    refine ⟨h.globals.congr hnames fun other hother => ?_, hagree⟩
    refine Store.set_of_ne ?_ word store
    rintro rfl
    rw [hlocal] at hother
    cases hother

theorem Mirrors.enter (h : Mirrors globals env state store) :
    Mirrors globals env.enter state.enter store :=
  ⟨h.globals, .cons .nil h.locals⟩

/-- Behind a block the variables around it are there again. -/
theorem Mirrors.leave (h : Mirrors globals env' state store)
    (htail : env'.locals.tail = env.locals) : Mirrors globals env state.leave store := by
  have hagree := h.locals
  refine ⟨h.globals, ?_⟩
  rw [← htail]
  unfold Variables.leave
  generalize env'.locals = scopes at hagree
  generalize state.locals = contents at hagree
  cases hagree with
  | nil => exact .nil
  | cons _ hrest => exact hrest

theorem Mirrors.declare (h : Mirrors globals env state store)
    (hdeclare : env.declare? name place = some env') (hlocal : place.isLocal = true) :
    Mirrors globals env' (state.declare name) store := by
  obtain ⟨locals, hlocals, rfl⟩ := Option.map_eq_some_iff.1 hdeclare
  have hagree := h.locals
  unfold Variables.declare
  generalize env.locals = scopes at hlocals hagree
  generalize state.locals = contents at hagree
  cases hagree with
  | nil => cases hlocals
  | @cons scope content scopes contents hscope hrest =>
      obtain ⟨declared, hdeclared, rfl⟩ := Option.map_eq_some_iff.1 hlocals
      obtain ⟨-, rfl⟩ := Scope.declare?_eq_some.1 hdeclared
      exact ⟨h.globals, .cons (.cons ⟨rfl, place, rfl, hlocal, fun _ hword => by cases hword⟩ hscope)
        hrest⟩

theorem Apart.enter (h : Apart used env.locals) : Apart used env.enter.locals :=
  ⟨h.nodup, h.slots⟩

theorem Apart.declare (h : Apart used env.locals)
    (hdeclare : env.declare? name (.slot (used + 1)) = some env') :
    Apart (used + 1) env'.locals := by
  obtain ⟨locals, hlocals, rfl⟩ := Option.map_eq_some_iff.1 hdeclare
  cases hscopes : env.locals with
  | nil =>
      rw [hscopes] at hlocals
      cases hlocals
  | cons scope outer =>
      rw [hscopes] at hlocals
      obtain ⟨declared, hdeclared, rfl⟩ := Option.map_eq_some_iff.1 hlocals
      obtain ⟨-, rfl⟩ := Scope.declare?_eq_some.1 hdeclared
      obtain ⟨hnodup, hslots⟩ := h
      rw [hscopes] at hnodup hslots
      constructor
      · refine List.nodup_cons.2 ⟨fun hmem => ?_, hnodup⟩
        have hused := hslots _ hmem
        omega
      · intro index hmem
        rcases List.mem_cons.1 hmem with heq | hmem
        · cases heq
          exact Nat.le_refl _
        · exact Nat.le_succ_of_le (hslots index hmem)

end Syntax

end WordC
