import Mathlib.Data.List.Forall2
import WordC.Proofs.Symbol.Index
import WordC.Proofs.Target.Resolve
import WordC.Program

/-!
# The symbol table as scopes

The table keeps the symbols of all scopes in one list and finds them by the number of their scope.
It models nested scopes: the numbers of the open scopes are distinct and none is used again, so a
declaration changes what one scope holds and nothing else.
-/

namespace WordC

open WordC.Core (Binding Env Place)
open Syntax (Scope Scopes)

/-- Whether a symbol says what a name is bound to. -/
def Symbol.Records (symbol : Symbol) : Binding → Prop
  | .system request =>
      symbol.cls = .system ∧ symbol.value = (Opcode.trap request).word ∧
        symbol.params = request.arity?
  | .function arity => symbol.cls = .function ∧ symbol.params = some arity
  | .object place =>
      symbol.cls = .object ∧ symbol.isLocal = place.isLocal ∧ symbol.value = place.operand
  | .constant value => symbol.cls = .constant ∧ symbol.value = value

namespace Symbol.Table

variable {table table' : Table} {env : Env} {scope : Scope Binding} {name : String}
  {binding : Binding} {symbol : Symbol}

/-- The scope of that number holds these names. -/
def Holds (table : Table) (id : Nat) (scope : Scope Binding) : Prop :=
  ∀ name, match scope.lookup name with
    | none => table.findIn? id name = none
    | some binding => ∃ symbol, table.findIn? id name = some symbol ∧ symbol.Records binding

structure Models (table : Table) (env : Env) : Prop where
  indexed : table.Indexed
  locals : ∃ ids, table.scopes = ids ++ [1, 0] ∧ List.Forall₂ table.Holds ids env.locals
  globals : table.Holds 1 env.globals
  builtins : table.Holds 0 Core.builtins
  nodup : table.scopes.Nodup
  scopesLe : ∀ id ∈ table.scopes, id ≤ table.lastScope
  symbolsLe : ∀ symbol ∈ table.symbols, symbol.scope ≤ table.lastScope

/-! ## Looking names up -/

theorem Holds.findIn?_of_lookup {id : Nat} (h : table.Holds id scope)
    (hlookup : scope.lookup name = some binding) :
    ∃ symbol, table.findIn? id name = some symbol ∧ symbol.Records binding := by
  have := h name
  rw [hlookup] at this
  exact this

theorem Holds.findIn?_of_lookup_none {id : Nat} (h : table.Holds id scope)
    (hlookup : scope.lookup name = none) : table.findIn? id name = none := by
  have := h name
  rw [hlookup] at this
  exact this

theorem Models.forall₂ (h : table.Models env) :
    List.Forall₂ table.Holds table.scopes env.scopes := by
  obtain ⟨ids, hids, hlocals⟩ := h.locals
  rw [hids]
  exact List.rel_append hlocals (.cons h.globals (.cons h.builtins .nil))

theorem findSome?_of_forall₂ {ids : List Nat} {scopes : Scopes Binding}
    (h : List.Forall₂ table.Holds ids scopes) :
    match scopes.find? name with
    | none => ids.findSome? (table.findIn? · name) = none
    | some binding =>
        ∃ symbol, ids.findSome? (table.findIn? · name) = some symbol ∧
          symbol.Records binding := by
  induction h with
  | nil => rfl
  | @cons id scope ids scopes hhead _ ih =>
      rw [Scopes.find?, List.findSome?_cons]
      cases hlookup : scope.lookup name with
      | none =>
          simp only
          rw [List.findSome?_cons, hhead.findIn?_of_lookup_none hlookup]
          exact ih
      | some binding =>
          obtain ⟨symbol, hfind, hrecords⟩ := hhead.findIn?_of_lookup hlookup
          simp only
          refine ⟨symbol, ?_, hrecords⟩
          rw [List.findSome?_cons, hfind]

theorem Models.lookup? (h : table.Models env) (hfind : env.find? name = some binding) :
    ∃ symbol, table.lookup? name = some symbol ∧ symbol.Records binding := by
  have := @findSome?_of_forall₂ _ name _ _ h.forall₂
  rw [show env.scopes.find? name = some binding from hfind] at this
  exact this

theorem Models.lookup?_none (h : table.Models env) (hfind : env.find? name = none) :
    table.lookup? name = none := by
  have := @findSome?_of_forall₂ _ name _ _ h.forall₂
  rw [show env.scopes.find? name = none from hfind] at this
  exact this

/-! ## Changing the table -/

/-- A declaration in a scope. -/
theorem Holds.add (h : table.Holds table.scope scope) (hindexed : table.Indexed)
    (hrecords : ({ symbol with level := table.level, scope := table.scope } : Symbol).Records
      binding) :
    (table.add symbol).Holds table.scope ((symbol.name, binding) :: scope) := by
  intro name
  rw [List.lookup_cons, hindexed.findIn?_add]
  by_cases hname : name = symbol.name
  · subst hname
    rw [if_pos ⟨rfl, rfl⟩, beq_self_eq_true]
    exact ⟨_, rfl, hrecords⟩
  · rw [if_neg fun hkey => hname hkey.1, beq_eq_false_iff_ne.2 hname]
    exact h name

theorem Holds.add_of_ne {id : Nat} (h : table.Holds id scope) (hindexed : table.Indexed)
    (hid : id ≠ table.scope) : (table.add symbol).Holds id scope := by
  intro name
  rw [hindexed.findIn?_add_of_ne hid]
  exact h name

theorem Holds.congr {id : Nat} (h : table.Holds id scope)
    (hfind : table'.findIn? = table.findIn?) : table'.Holds id scope := by
  intro name
  rw [hfind]
  exact h name

theorem forall₂_holds_add {ids : List Nat} {scopes : Scopes Binding}
    (h : List.Forall₂ table.Holds ids scopes) (hindexed : table.Indexed)
    (hne : ∀ id ∈ ids, id ≠ table.scope) :
    List.Forall₂ (table.add symbol).Holds ids scopes := by
  induction h with
  | nil => exact .nil
  | cons hhead _ ih =>
      exact .cons (hhead.add_of_ne hindexed (hne _ List.mem_cons_self))
        (ih fun id hid => hne id (List.mem_cons_of_mem _ hid))

theorem symbolsLe_add (h : table.Models env) (hscope : table.scope ∈ table.scopes) :
    ∀ other ∈ (table.add symbol).symbols, other.scope ≤ (table.add symbol).lastScope := by
  intro other hother
  rcases List.mem_append.1 hother with hold | hnew
  · exact h.symbolsLe other hold
  · rw [List.mem_singleton.1 hnew]
    exact h.scopesLe table.scope hscope

/-- Declares a local variable. -/
theorem Models.declareLocal {env' : Env} {place : Place} (h : table.Models env)
    (hdeclare : env.declare? symbol.name place = some env') (hplace : place.isLocal = true)
    (hcls : symbol.cls = .object) (hvalue : symbol.value = place.operand) :
    table.findIn? table.scope symbol.name = none ∧ (table.add symbol).Models env' ∧
      ({ symbol with level := table.level, scope := table.scope } : Symbol).Records
        (.object place) := by
  obtain ⟨ids, hids, hlocals⟩ := h.locals
  obtain ⟨locals, hlocal, rfl⟩ := Option.map_eq_some_iff.1 hdeclare
  obtain ⟨here, outer⟩ := env
  cases hlocals with
  | nil => simp [Scopes.declare?] at hlocal
  | @cons id scope ids scopes hhead htail =>
      obtain ⟨declared, hscope, rfl⟩ := Option.map_eq_some_iff.1 hlocal
      obtain ⟨hlookup, rfl⟩ := Scope.declare?_eq_some.1 hscope
      have hid : table.scope = id := by simp [Table.scope, hids]
      have hnodup := h.nodup
      rw [hids, List.cons_append, List.nodup_cons] at hnodup
      have hne : ∀ other ∈ ids ++ [1, 0], other ≠ table.scope := by
        intro other hother heq
        rw [heq, hid] at hother
        exact hnodup.1 hother
      have hlevel : 1 < table.level := by
        simp only [Table.level, hids, List.cons_append, List.length_cons, List.length_append,
          List.length_nil]
        omega
      have hrecords : ({ symbol with level := table.level, scope := table.scope } :
          Symbol).Records (.object place) := by
        refine ⟨hcls, ?_, hvalue⟩
        rw [hplace]
        exact decide_eq_true hlevel
      rw [← hid] at hhead
      refine ⟨hhead.findIn?_of_lookup_none hlookup, ?_, hrecords⟩
      have hfree := hhead.findIn?_of_lookup_none hlookup
      refine
        { indexed := h.indexed.add (h.indexed.slot?_eq_none.2 hfree)
          locals := ⟨id :: ids, hids, .cons ?_ ?_⟩
          globals := h.globals.add_of_ne h.indexed (hne 1 (by simp))
          builtins := h.builtins.add_of_ne h.indexed (hne 0 (by simp))
          nodup := h.nodup
          scopesLe := h.scopesLe
          symbolsLe := symbolsLe_add h (by simp [hid, hids]) }
      · have hnew := hhead.add h.indexed hrecords
        rw [hid] at hnew
        exact hnew
      · exact forall₂_holds_add htail h.indexed fun other hother =>
          hne other (List.mem_append_left _ hother)

/-- Declares a name of the file. -/
theorem Models.declareGlobal {globals : Scope Binding} (h : table.Models env)
    (houtside : env.locals = [])
    (hdeclare : env.globals.declare? symbol.name binding = some globals)
    (hrecords : ({ symbol with level := globalLevel, scope := 1 } : Symbol).Records binding) :
    table.findIn? table.scope symbol.name = none ∧
      (table.add symbol).Models { env with globals } ∧
      table.level = globalLevel ∧ table.scope = 1 := by
  obtain ⟨ids, hids, hlocals⟩ := h.locals
  rw [houtside] at hlocals
  cases hlocals
  obtain ⟨hlookup, rfl⟩ := Scope.declare?_eq_some.1 hdeclare
  have hscope : table.scope = 1 := by simp [Table.scope, hids]
  have hlevel : table.level = globalLevel := by simp [Table.level, hids, globalLevel]
  have hglobals := h.globals
  rw [← hscope] at hglobals
  rw [← hscope, ← hlevel] at hrecords
  have hfree := hglobals.findIn?_of_lookup_none hlookup
  refine ⟨hfree, ?_, hlevel, hscope⟩
  have hnew := hglobals.add h.indexed hrecords
  rw [hscope] at hnew
  exact
    { indexed := h.indexed.add (h.indexed.slot?_eq_none.2 hfree)
      locals := ⟨[], hids, houtside ▸ .nil⟩
      globals := hnew
      builtins := h.builtins.add_of_ne h.indexed (by simp [hscope])
      nodup := h.nodup
      scopesLe := h.scopesLe
      symbolsLe := symbolsLe_add h (by simp [hscope, hids]) }

theorem forall₂_holds_congr {ids : List Nat} {scopes : Scopes Binding}
    (h : List.Forall₂ table.Holds ids scopes) (hfind : table'.findIn? = table.findIn?) :
    List.Forall₂ table'.Holds ids scopes :=
  h.imp fun _ _ hholds => hholds.congr hfind

theorem Models.enter (h : table.Models env) : table.enter.Models env.enter := by
  obtain ⟨ids, hids, hlocals⟩ := h.locals
  have hfresh : ∀ id ∈ table.scopes, id ≠ table.lastScope + 1 := by
    intro id hid heq
    have := h.scopesLe id hid
    omega
  have hempty : table.enter.Holds (table.lastScope + 1) [] := by
    intro name
    rw [List.lookup_nil]
    refine h.indexed.findIn?_eq_none.2 fun symbol hsymbol _ hscope => ?_
    have := h.symbolsLe symbol hsymbol
    omega
  exact
    { indexed := h.indexed
      locals := ⟨(table.lastScope + 1) :: ids, by simp [Table.enter, hids],
        .cons hempty (forall₂_holds_congr hlocals rfl)⟩
      globals := h.globals.congr rfl
      builtins := h.builtins.congr rfl
      nodup := List.nodup_cons.2 ⟨fun hmem => hfresh _ hmem rfl, h.nodup⟩
      scopesLe := by
        intro id hid
        rcases List.mem_cons.1 hid with rfl | hold
        · exact Nat.le_refl _
        · exact Nat.le_succ_of_le (h.scopesLe id hold)
      symbolsLe := fun symbol hsymbol => Nat.le_succ_of_le (h.symbolsLe symbol hsymbol) }

theorem Models.leave {inner : Scope Binding} {outer : Scopes Binding}
    (h : table.Models { env with locals := inner :: outer }) :
    table.leave? = some table.drop ∧ table.drop.Models { env with locals := outer } := by
  obtain ⟨ids, hids, hlocals⟩ := h.locals
  cases hlocals with
  | @cons id _ ids _ _ htail =>
      have hscopes : table.drop.scopes = ids ++ [1, 0] := by simp [drop, hids]
      have hsublist : table.drop.scopes ⊆ table.scopes := (List.tail_sublist _).subset
      constructor
      · unfold leave?
        rw [hids]
        cases ids with
        | nil => simp [drop, hids]
        | cons next rest => simp [drop, hids]
      · exact
          { indexed := h.indexed
            locals := ⟨ids, hscopes, forall₂_holds_congr htail rfl⟩
            globals := h.globals.congr rfl
            builtins := h.builtins.congr rfl
            nodup := h.nodup.sublist (List.tail_sublist _)
            scopesLe := fun other hother => h.scopesLe other (hsublist hother)
            symbolsLe := h.symbolsLe }

/-! ## Functions

Functions are declared in the scope of the file only. Until a prototype gets its body it awaits an
entry, and from then on its symbol has the entry for its value. -/

structure Functions (table : Table) (globals : Scope Binding) (awaiting : List String)
    (entries : List (String × Nat)) : Prop where
  place : ∀ symbol ∈ table.symbols, symbol.cls = .function →
    symbol.scope = 1 ∧ symbol.level = globalLevel
  entry : ∀ symbol ∈ table.symbols, symbol.cls = .function →
    if symbol.name ∈ awaiting then symbol.defined = false
    else symbol.defined = true ∧
      ∃ entry, entries.lookup symbol.name = some entry ∧ symbol.value = Word.ofCount entry
  declared : ∀ name, name ∈ awaiting ∨ (entries.lookup name).isSome →
    ∃ arity, globals.lookup name = some (.function arity)
  apart : ∀ name ∈ awaiting, entries.lookup name = none

variable {globals : Scope Binding} {awaiting : List String} {entries : List (String × Nat)}

theorem Functions.add_other (h : table.Functions globals awaiting entries)
    (hcls : symbol.cls ≠ .function) : (table.add symbol).Functions globals awaiting entries := by
  have hmem : ∀ other ∈ (table.add symbol).symbols, other.cls = .function →
      other ∈ table.symbols := by
    intro other hother hfunction
    rcases List.mem_append.1 hother with hold | hnew
    · exact hold
    · rw [List.mem_singleton.1 hnew] at hfunction
      exact absurd hfunction hcls
  exact
    { place := fun other hother hfunction => h.place other (hmem other hother hfunction) hfunction
      entry := fun other hother hfunction => h.entry other (hmem other hother hfunction) hfunction
      declared := h.declared
      apart := h.apart }

theorem Functions.congr (h : table.Functions globals awaiting entries)
    (hsymbols : table'.symbols = table.symbols) :
    table'.Functions globals awaiting entries :=
  { place := hsymbols ▸ h.place
    entry := hsymbols ▸ h.entry
    declared := h.declared
    apart := h.apart }

/-- More names in the scope of the file do no harm. -/
theorem Functions.declare (h : table.Functions globals awaiting entries)
    {globals' : Scope Binding} (hdeclare : globals.declare? name binding = some globals') :
    table.Functions globals' awaiting entries := by
  obtain ⟨hlookup, rfl⟩ := Scope.declare?_eq_some.1 hdeclare
  refine { h with declared := fun other hother => ?_ }
  obtain ⟨arity, hother⟩ := h.declared other hother
  refine ⟨arity, ?_⟩
  rw [List.lookup_cons]
  by_cases heq : other = name
  · rw [heq, hlookup] at hother
    cases hother
  · rw [show (other == name) = false by simpa using heq]
    exact hother

theorem Functions.name_ne_of_free (h : table.Functions globals awaiting entries)
    (hindexed : table.Indexed) (hfree : table.findIn? 1 name = none)
    (hmem : symbol ∈ table.symbols) (hcls : symbol.cls = .function) : symbol.name ≠ name :=
  fun hname => hindexed.findIn?_eq_none.1 hfree symbol hmem hname (h.place symbol hmem hcls).1

/-- Declares a function without a body. -/
theorem Functions.add_prototype (h : table.Functions globals awaiting entries)
    (hindexed : table.Indexed) {globals' : Scope Binding} {arity : Nat}
    (hdeclare : globals.declare? symbol.name (.function arity) = some globals')
    (hfree : table.findIn? 1 symbol.name = none) (hscope : table.scope = 1)
    (hlevel : table.level = globalLevel) (hdefined : symbol.defined = false) :
    (table.add symbol).Functions globals' (symbol.name :: awaiting) entries := by
  obtain ⟨hlookup, rfl⟩ := Scope.declare?_eq_some.1 hdeclare
  have hentries : entries.lookup symbol.name = none := by
    by_contra hsome
    obtain ⟨arity, hfound⟩ :=
      h.declared symbol.name (.inr (Option.isSome_iff_ne_none.2 hsome))
    rw [hlookup] at hfound
    cases hfound
  refine
    { place := fun other hother hfunction => ?_
      entry := fun other hother hfunction => ?_
      declared := fun other hother => ?_
      apart := fun other hother => ?_ }
  · rcases List.mem_append.1 hother with hold | hnew
    · exact h.place other hold hfunction
    · rw [List.mem_singleton.1 hnew]
      exact ⟨hscope, hlevel⟩
  · rcases List.mem_append.1 hother with hold | hnew
    · have hne := h.name_ne_of_free hindexed hfree hold hfunction
      have hentry := h.entry other hold hfunction
      simp only [List.mem_cons, hne, false_or]
      exact hentry
    · rw [List.mem_singleton.1 hnew]
      simp [hdefined]
  · rw [List.lookup_cons]
    by_cases heq : other = symbol.name
    · exact ⟨arity, by simp [heq]⟩
    · rw [show (other == symbol.name) = false by simpa using heq]
      simp only [List.mem_cons, heq, false_or] at hother
      exact h.declared other hother
  · rcases List.mem_cons.1 hother with rfl | hold
    · exact hentries
    · exact h.apart other hold

/-- One more entry of a name that had none. -/
theorem lookup_entries_append {entry : Nat} (hentries : entries.lookup name = none)
    (other : String) :
    (entries ++ [(name, entry)]).lookup other =
      if other = name then some entry else entries.lookup other := by
  rw [List.lookup_append, List.lookup_cons, List.lookup_nil]
  by_cases heq : other = name
  · rw [if_pos heq, heq, hentries]
    simp
  · rw [if_neg heq, show (other == name) = false by simpa using heq]
    simp

/-- Declares a function whose body follows. -/
theorem Functions.add_defined (h : table.Functions globals awaiting entries)
    (hindexed : table.Indexed) {globals' : Scope Binding} {arity entry : Nat}
    (hdeclare : globals.declare? symbol.name (.function arity) = some globals')
    (hfree : table.findIn? 1 symbol.name = none) (hscope : table.scope = 1)
    (hlevel : table.level = globalLevel) (hdefined : symbol.defined = true)
    (hvalue : symbol.value = Word.ofCount entry) :
    (table.add symbol).Functions globals' awaiting (entries ++ [(symbol.name, entry)]) := by
  obtain ⟨hlookup, rfl⟩ := Scope.declare?_eq_some.1 hdeclare
  have hfresh : ¬ (symbol.name ∈ awaiting ∨ (entries.lookup symbol.name).isSome) := by
    intro hmem
    obtain ⟨arity, hfound⟩ := h.declared symbol.name hmem
    rw [hlookup] at hfound
    cases hfound
  have hawaiting : symbol.name ∉ awaiting := fun hmem => hfresh (.inl hmem)
  have hentries : entries.lookup symbol.name = none :=
    Option.not_isSome_iff_eq_none.1 fun hsome => hfresh (.inr hsome)
  refine
    { place := fun other hmem hfunction => ?_
      entry := fun other hmem hfunction => ?_
      declared := fun other hmem => ?_
      apart := fun other hmem => ?_ }
  · rcases List.mem_append.1 hmem with hold | hnew
    · exact h.place other hold hfunction
    · rw [List.mem_singleton.1 hnew]
      exact ⟨hscope, hlevel⟩
  · rw [lookup_entries_append hentries]
    rcases List.mem_append.1 hmem with hold | hnew
    · rw [if_neg (h.name_ne_of_free hindexed hfree hold hfunction)]
      exact h.entry other hold hfunction
    · rw [List.mem_singleton.1 hnew]
      simp [hawaiting, hdefined, hvalue]
  · rw [lookup_entries_append hentries] at hmem
    rw [List.lookup_cons]
    by_cases heq : other = symbol.name
    · exact ⟨arity, by simp [heq]⟩
    · rw [if_neg heq] at hmem
      rw [show (other == symbol.name) = false by simpa using heq]
      exact h.declared other hmem
  · have hne : other ≠ symbol.name := fun heq => hawaiting (heq ▸ hmem)
    rw [lookup_entries_append hentries, if_neg hne]
    exact h.apart other hmem

section BindEntry

variable {defined : Symbol}

theorem Holds.bindEntry {id : Nat} {found : Symbol} {arity : Nat} (h : table.Holds id scope)
    (hindexed : table.Indexed) (hfound : table.findIn? table.scope defined.name = some found)
    (hrecords : found.Records (.function arity))
    (hcls : defined.cls = found.cls) (hparams : defined.params = found.params) :
    (table.bindEntry defined).Holds id scope := by
  intro name
  rw [findIn?_bindEntry]
  cases hlookup : scope.lookup name with
  | none => simp [h.findIn?_of_lookup_none hlookup]
  | some binding =>
      obtain ⟨symbol, hsymbol, hsymbolRecords⟩ := h.findIn?_of_lookup hlookup
      rw [hsymbol]
      simp only [Option.map_some, Option.some.injEq, exists_eq_left']
      by_cases hmatch : (symbol.scope == table.scope && symbol.name == defined.name) = true
      · rw [if_pos hmatch]
        simp only [Bool.and_eq_true, beq_iff_eq] at hmatch
        have hsame : symbol = found := by
          have hid := hindexed.scope_of_findIn? hsymbol
          have hname := hindexed.name_of_findIn? hsymbol
          rw [← hid, ← hname, hmatch.1, hmatch.2, hfound] at hsymbol
          exact (Option.some.inj hsymbol).symm
        subst hsame
        have hbinding : binding = .function arity := by
          cases binding <;> simp_all [Records]
        rw [hbinding]
        exact ⟨hcls.trans hrecords.1, hparams.trans hrecords.2⟩
      · rw [if_neg hmatch]
        exact hsymbolRecords

theorem Models.bindEntry {found : Symbol} {arity : Nat} (h : table.Models env)
    (hfound : table.findIn? table.scope defined.name = some found)
    (hdefined : defined.scope = table.scope) (hrecords : found.Records (.function arity))
    (hcls : defined.cls = found.cls) (hparams : defined.params = found.params) :
    (table.bindEntry defined).Models env := by
  have hholds : ∀ id scope, table.Holds id scope → (table.bindEntry defined).Holds id scope :=
    fun id scope hold => hold.bindEntry h.indexed hfound hrecords hcls hparams
  obtain ⟨ids, hids, hlocals⟩ := h.locals
  refine
    { indexed := h.indexed.bindEntry hdefined
      locals := ⟨ids, hids, hlocals.imp hholds⟩
      globals := hholds 1 _ h.globals
      builtins := hholds 0 _ h.builtins
      nodup := h.nodup
      scopesLe := h.scopesLe
      symbolsLe := ?_ }
  intro symbol hsymbol
  obtain ⟨old, hold, rfl⟩ := List.mem_map.1 hsymbol
  by_cases hmatch : (old.scope == table.scope && old.name == defined.name) = true
  · rw [if_pos hmatch, hdefined, ← h.indexed.scope_of_findIn? hfound]
    exact h.symbolsLe found (mem_of_findIn? hfound)
  · rw [if_neg hmatch]
    exact h.symbolsLe old hold

/-- A prototype gets its body. -/
theorem Functions.bindEntry {entry arity : Nat} (h : table.Functions globals awaiting entries)
    (hscope : table.scope = 1) (hdefinedScope : defined.scope = 1)
    (hlevel : defined.level = globalLevel) (hawaiting : defined.name ∈ awaiting)
    (hdefined : defined.defined = true) (hvalue : defined.value = Word.ofCount entry)
    (hlookup : globals.lookup defined.name = some (.function arity)) :
    (table.bindEntry defined).Functions globals (awaiting.filter (· ≠ defined.name))
      (entries ++ [(defined.name, entry)]) := by
  have hentries := h.apart defined.name hawaiting
  have hsymbol : ∀ symbol ∈ (table.bindEntry defined).symbols,
      symbol = defined ∨ symbol ∈ table.symbols ∧
        (symbol.scope = 1 → symbol.name ≠ defined.name) := by
    intro symbol hsymbol
    obtain ⟨old, hold, rfl⟩ := List.mem_map.1 hsymbol
    by_cases hmatch : (old.scope == table.scope && old.name == defined.name) = true
    · exact .inl (if_pos hmatch)
    · rw [if_neg hmatch]
      refine .inr ⟨hold, fun hone hname => hmatch ?_⟩
      rw [hone, hname, hscope]
      simp
  refine
    { place := fun symbol hmem hfunction => ?_
      entry := fun symbol hmem hfunction => ?_
      declared := fun other hmem => ?_
      apart := fun other hmem => ?_ }
  · rcases hsymbol symbol hmem with rfl | ⟨hold, _⟩
    · exact ⟨hdefinedScope, hlevel⟩
    · exact h.place symbol hold hfunction
  · rw [lookup_entries_append hentries]
    rcases hsymbol symbol hmem with rfl | ⟨hold, hname⟩
    · simp [hdefined, hvalue]
    · have hne := hname (h.place symbol hold hfunction).1
      have hentry := h.entry symbol hold hfunction
      rw [if_neg hne]
      simp only [List.mem_filter, decide_eq_true_eq, ne_eq, hne, not_false_eq_true, and_true]
      exact hentry
  · rw [lookup_entries_append hentries] at hmem
    by_cases heq : other = defined.name
    · exact ⟨arity, heq ▸ hlookup⟩
    · rw [if_neg heq] at hmem
      refine h.declared other (hmem.imp_left fun hfilter => ?_)
      exact (List.mem_filter.1 hfilter).1
  · obtain ⟨hmem, hne⟩ := List.mem_filter.1 hmem
    rw [lookup_entries_append hentries, if_neg (by simpa using hne)]
    exact h.apart other hmem

end BindEntry

/-! ## The built-in names -/

theorem symbols_initialSymbols : Program.initialSymbols.symbols = Program.systemCalls := rfl

/-- The system calls have different names. -/
theorem indexed_initialSymbols : Program.initialSymbols.Indexed :=
  Indexed.foldl_add indexed_initial (fun _ _ => rfl) (by decide)

theorem findIn?_initialSymbols (id : Nat) (name : String) :
    Program.initialSymbols.findIn? id name =
      if id = 0 then
        (Trap.all.find? (·.name == name)).map fun request =>
          { name := request.name, cls := .system, type := .int,
            value := (Opcode.trap request).word, params := request.arity? }
      else none := by
  rw [indexed_initialSymbols.findIn?_eq_find?, symbols_initialSymbols]
  by_cases hid : id = 0
  · subst hid
    rw [if_pos rfl]
    exact List.find?_map
  · rw [if_neg hid]
    refine List.find?_eq_none.2 fun symbol hsymbol => ?_
    obtain ⟨request, _, rfl⟩ := List.mem_map.1 hsymbol
    simp [Ne.symm hid]

theorem models_initialSymbols :
    Program.initialSymbols.Models { locals := [], globals := [] } := by
  refine
    { indexed := indexed_initialSymbols
      locals := ⟨[], rfl, .nil⟩
      globals := fun name => ?_
      builtins := fun name => ?_
      nodup := by decide
      scopesLe := by decide
      symbolsLe := by decide }
  · simp [findIn?_initialSymbols]
  · rw [Core.lookup_builtins, findIn?_initialSymbols, if_pos rfl]
    cases Trap.all.find? (·.name == name) with
    | none => rfl
    | some request => exact ⟨_, rfl, rfl, rfl, rfl⟩

theorem functions_initialSymbols : Program.initialSymbols.Functions [] [] [] := by
  have hsystem : ∀ symbol ∈ Program.initialSymbols.symbols, symbol.cls ≠ .function := by
    intro symbol hsymbol
    rw [symbols_initialSymbols] at hsymbol
    obtain ⟨request, _, rfl⟩ := List.mem_map.1 hsymbol
    exact Symbol.Class.noConfusion
  exact
    { place := fun symbol hsymbol hcls => absurd hcls (hsystem symbol hsymbol)
      entry := fun symbol hsymbol hcls => absurd hcls (hsystem symbol hsymbol)
      declared := by simp
      apart := by simp }

end Symbol.Table

end WordC
