import Mathlib.Data.List.Forall2
import Mathlib.Logic.Function.Basic
import WordC.Proofs.Symbol.Index

/-!
# The symbol table as a stack of maps

The table keeps the symbols of all scopes in one list, those of closed scopes too. Its answers are
still those of a stack that has one map of names for each open scope and forgets a map when its
scope closes. The two are run side by side on every sequence of requests.
-/

namespace WordC.Symbol

inductive Request where
  | enter
  | leave
  | declare (symbol : Symbol)
  | define (name : String) (entry : Word)
  | lookup (name : String)
  | resolve (name : String) (position : Position)

inductive Answer where
  /-- A scope of this number is open. -/
  | opened (id : Nat)
  | closed
  | declared (outcome : Except Error Symbol)
  | defined (outcome : Option Symbol)
  | found (outcome : Option Symbol)
  | resolved (outcome : Except Error Symbol)

namespace Answer

def id? : Answer → Option Nat
  | opened id => some id
  | _ => none

/-- The symbol of a declaration that was accepted. -/
def accepted? : Answer → Option Symbol
  | declared (.ok symbol) => some symbol
  | _ => none

end Answer

/-- The answers to a list of requests, unless one of them may not be made. -/
def serveAll {State : Type} (serve : State → Request → Option (Answer × State)) :
    List Request → State → Option (List Answer × State)
  | [], state => some ([], state)
  | request :: requests, state => do
      let (answer, state) ← serve state request
      let (answers, state) ← serveAll serve requests state
      return (answer :: answers, state)

/-- Requests that close the scopes they open, and no other. -/
inductive Balanced : List Request → Prop where
  | nil : Balanced []
  | cons {request : Request} {rest : List Request} (henter : request ≠ .enter)
      (hleave : request ≠ .leave) : Balanced rest → Balanced (request :: rest)
  | nest {inside rest : List Request} :
      Balanced inside → Balanced rest → Balanced (.enter :: inside ++ .leave :: rest)

/-- The scope of the built-in names may not be left. -/
def Table.serve (table : Table) : Request → Option (Answer × Table)
  | .enter => some (.opened table.enter.scope, table.enter)
  | .leave => table.leave?.map fun table => (.closed, table)
  | .declare symbol =>
      match table.declare symbol with
      | .ok (symbol, table) => some (.declared (.ok symbol), table)
      | .error error => some (.declared (.error error), table)
  | .define name entry =>
      match table.defineFunction? name entry with
      | some (symbol, table) => some (.defined (some symbol), table)
      | none => some (.defined none, table)
  | .lookup name => some (.found (table.lookup? name), table)
  | .resolve name position => some (.resolved (table.resolve name position), table)

/-! ## The stack -/

/-- An open scope. -/
structure Layer where
  id : Nat
  names : String → Option Symbol

/-- The scope of the built-in names is always open. -/
structure Stack where
  inner : Layer
  outer : List Layer
  /-- The number of scopes that have been opened. -/
  opened : Nat

namespace Stack

def initial : Stack :=
  { inner := { id := 0, names := fun _ => none }, outer := [], opened := 0 }

def layers (stack : Stack) : List Layer :=
  stack.inner :: stack.outer

/-- What the innermost of the maps that have the name says. -/
def lookup? (stack : Stack) (name : String) : Option Symbol :=
  stack.layers.findSome? (·.names name)

/-- The innermost map with the symbol under its name. -/
def set (stack : Stack) (symbol : Symbol) : Stack :=
  { stack with
    inner := { stack.inner with
      names := Function.update stack.inner.names symbol.name (some symbol) } }

def serve (stack : Stack) : Request → Option (Answer × Stack)
  | .enter =>
      let id := stack.opened + 1
      some (.opened id,
        { inner := { id, names := fun _ => none }, outer := stack.layers, opened := id })
  | .leave =>
      match stack.outer with
      | [] => none
      | layer :: outer => some (.closed, { stack with inner := layer, outer })
  | .declare symbol =>
      match stack.inner.names symbol.name with
      | some _ =>
          some (.declared (.error (.duplicateDeclaration symbol.name symbol.position)), stack)
      | none =>
          let symbol := { symbol with level := stack.outer.length, scope := stack.inner.id }
          some (.declared (.ok symbol), stack.set symbol)
  | .define name entry =>
      match stack.inner.names name with
      | some symbol =>
          if symbol.cls = .function then
            let symbol := { symbol with value := entry, defined := true }
            some (.defined (some symbol), stack.set symbol)
          else some (.defined none, stack)
      | none => some (.defined none, stack)
  | .lookup name => some (.found (stack.lookup? name), stack)
  | .resolve name position =>
      match stack.lookup? name with
      | some symbol => some (.resolved (.ok symbol), stack)
      | none => some (.resolved (.error (.undefinedName name position)), stack)

end Stack

/-! ## Lists of requests -/

section ServeAll

variable {State State' : Type} {serve : State → Request → Option (Answer × State)}
  {serve' : State' → Request → Option (Answer × State')}

theorem serveAll_append {front answers : List Answer} {first second : List Request}
    {state middle final : State} (hfirst : serveAll serve first state = some (front, middle))
    (hsecond : serveAll serve second middle = some (answers, final)) :
    serveAll serve (first ++ second) state = some (front ++ answers, final) := by
  induction first generalizing state front with
  | nil =>
      simp only [serveAll, Option.some.injEq, Prod.mk.injEq] at hfirst
      obtain ⟨rfl, rfl⟩ := hfirst
      exact hsecond
  | cons request first ih =>
      simp only [serveAll, Option.bind_eq_bind, Option.bind_eq_some_iff] at hfirst
      obtain ⟨⟨answer, next⟩, hserve, ⟨front', middle'⟩, hrest, hfront⟩ := hfirst
      simp only [Option.pure_def, Option.some.injEq, Prod.mk.injEq] at hfront
      obtain ⟨rfl, rfl⟩ := hfront
      simp [serveAll, hserve, ih hrest]

/-- A relation that every request keeps, along the answers so far, is kept by all of them. -/
theorem serveAll_rel (Rel : List Answer → State → State' → Prop)
    (hstep : ∀ {past state state'} request, Rel past state state' →
      Option.Rel (fun left right => left.1 = right.1 ∧ Rel (past ++ [left.1]) left.2 right.2)
        (serve state request) (serve' state' request))
    (requests : List Request) (past : List Answer) {state : State} {state' : State'}
    (h : Rel past state state') :
    Option.Rel (fun left right => left.1 = right.1 ∧ Rel (past ++ left.1) left.2 right.2)
      (serveAll serve requests state) (serveAll serve' requests state') := by
  induction requests generalizing past state state' with
  | nil => exact .some ⟨rfl, by simpa using h⟩
  | cons request requests ih =>
      have hkeep := hstep request h
      simp only [serveAll]
      generalize serve state request = served at hkeep ⊢
      generalize serve' state' request = served' at hkeep ⊢
      cases hkeep with
      | none => exact .none
      | @some left right hkeep =>
          obtain ⟨answer, next⟩ := left
          obtain ⟨answer', next'⟩ := right
          obtain ⟨rfl, hnext⟩ := hkeep
          have hall := ih _ hnext
          simp only [Option.bind_eq_bind, Option.bind_some]
          generalize serveAll serve requests next = rest at hall ⊢
          generalize serveAll serve' requests next' = rest' at hall ⊢
          cases hall with
          | none => exact .none
          | some hlast => exact .some ⟨by simp [hlast.1], by simpa using hlast.2⟩

end ServeAll

/-- What happens inside of a scope is forgotten when it closes. -/
theorem Stack.serveAll_nested {inside : List Request}
    (hinside : ∀ stack : Stack, ∃ answers stack',
      serveAll serve inside stack = some (answers, stack') ∧
        stack'.inner.id = stack.inner.id ∧ stack'.outer = stack.outer) (stack : Stack) :
    ∃ answers stack', serveAll serve (.enter :: inside ++ [.leave]) stack =
      some (answers, stack') ∧ stack'.layers = stack.layers := by
  obtain ⟨answers, last, hserve, -, houter⟩ :=
    hinside { inner := { id := stack.opened + 1, names := fun _ => none }
              outer := stack.layers, opened := stack.opened + 1 }
  have hleave : serveAll serve [.leave] last =
      some ([.closed], { last with inner := stack.inner, outer := stack.outer }) := by
    simp [serveAll, serve, houter, layers]
  have hinner := serveAll_append hserve hleave
  exact ⟨.opened (stack.opened + 1) :: (answers ++ [.closed]),
    { last with inner := stack.inner, outer := stack.outer },
    by simp [serveAll, serve, hinner], rfl⟩

/-- Balanced requests change the innermost map at most. -/
theorem Stack.serveAll_balanced {requests : List Request} (hbalanced : Balanced requests)
    (stack : Stack) :
    ∃ answers stack', serveAll Stack.serve requests stack = some (answers, stack') ∧
      stack'.inner.id = stack.inner.id ∧ stack'.outer = stack.outer := by
  induction hbalanced generalizing stack with
  | nil => exact ⟨_, _, rfl, rfl, rfl⟩
  | @cons request rest henter hleave _ ih =>
      have hstep : ∃ answer next, stack.serve request = some (answer, next) ∧
          next.inner.id = stack.inner.id ∧ next.outer = stack.outer := by
        cases request with
        | enter => exact absurd rfl henter
        | leave => exact absurd rfl hleave
        | declare symbol =>
            simp only [serve]
            split <;> exact ⟨_, _, rfl, rfl, rfl⟩
        | define name entry =>
            simp only [serve]
            split
            · split <;> exact ⟨_, _, rfl, rfl, rfl⟩
            · exact ⟨_, _, rfl, rfl, rfl⟩
        | lookup name => exact ⟨_, _, rfl, rfl, rfl⟩
        | resolve name position =>
            simp only [serve]
            split <;> exact ⟨_, _, rfl, rfl, rfl⟩
      obtain ⟨answer, next, hserve, hid, houter⟩ := hstep
      obtain ⟨answers, stack', hrest, hid', houter'⟩ := ih next
      exact ⟨answer :: answers, stack', by simp [serveAll, hserve, hrest],
        hid'.trans hid, houter'.trans houter⟩
  | @nest inside rest _ _ ihInside ihRest =>
      obtain ⟨front, middle, hfront, hlayers⟩ := serveAll_nested ihInside stack
      obtain ⟨hinner, houter⟩ := List.cons.inj hlayers
      obtain ⟨back, stack', hback, hid, houter'⟩ := ihRest middle
      refine ⟨front ++ back, stack', ?_, hid.trans (congrArg _ hinner), houter'.trans houter⟩
      have hall := serveAll_append hfront hback
      simpa using hall

/-! ## The table beside the stack -/

namespace Table

variable {table table' : Table} {stack : Stack} {symbol : Symbol} {name : String}

/-- The open scopes hold what the maps of the stack say. -/
structure Mirrors (table : Table) (stack : Stack) : Prop where
  indexed : table.Indexed
  scopes : table.scopes = stack.layers.map (·.id)
  lastScope : table.lastScope = stack.opened
  names : ∀ layer ∈ stack.layers, ∀ name, table.findIn? layer.id name = layer.names name
  nodup : table.scopes.Nodup
  scopesLe : ∀ id ∈ table.scopes, id ≤ table.lastScope
  symbolsLe : ∀ symbol ∈ table.symbols, symbol.scope ≤ table.lastScope

theorem mirrors_initial : Table.initial.Mirrors Stack.initial :=
  { indexed := indexed_initial
    scopes := rfl
    lastScope := rfl
    names := by simp [Stack.initial, Stack.layers, findIn?, slot?, initial]
    nodup := by simp [initial]
    scopesLe := by simp [initial]
    symbolsLe := by simp [initial] }

theorem Mirrors.scope (h : table.Mirrors stack) : table.scope = stack.inner.id := by
  simp [Table.scope, h.scopes, Stack.layers]

theorem Mirrors.level (h : table.Mirrors stack) : table.level = stack.outer.length := by
  simp [Table.level, h.scopes, Stack.layers]

theorem Mirrors.findIn?_scope (h : table.Mirrors stack) (name : String) :
    table.findIn? table.scope name = stack.inner.names name := by
  rw [h.scope]
  exact h.names stack.inner List.mem_cons_self name

/-- A name that the innermost map has cannot be declared again. -/
theorem Mirrors.declare_of_some {old : Symbol} (h : table.Mirrors stack)
    (hold : stack.inner.names symbol.name = some old) :
    table.declare symbol = .error (.duplicateDeclaration symbol.name symbol.position) := by
  have hfind := (h.findIn?_scope symbol.name).trans hold
  obtain ⟨slot, hslot, -⟩ := Option.bind_eq_some_iff.1 hfind
  rw [declare, hslot]

theorem findSome?_layers {layers : List Layer}
    (h : ∀ layer ∈ layers, table.findIn? layer.id name = layer.names name) :
    (layers.map (·.id)).findSome? (table.findIn? · name) =
      layers.findSome? (·.names name) := by
  induction layers with
  | nil => rfl
  | cons layer layers ih =>
      rw [List.map_cons, List.findSome?_cons, List.findSome?_cons, h layer List.mem_cons_self,
        ih fun other hother => h other (List.mem_cons_of_mem _ hother)]

theorem Mirrors.lookup? (h : table.Mirrors stack) (name : String) :
    table.lookup? name = stack.lookup? name := by
  rw [Table.lookup?, h.scopes]
  exact findSome?_layers fun layer hlayer => h.names layer hlayer name

theorem Mirrors.enter (h : table.Mirrors stack) :
    table.enter.Mirrors { inner := { id := stack.opened + 1, names := fun _ => none }
                          outer := stack.layers, opened := stack.opened + 1 } := by
  have hfresh : ∀ id ∈ table.scopes, id ≠ table.lastScope + 1 := by
    intro id hid heq
    have := h.scopesLe id hid
    omega
  refine
    { indexed := h.indexed
      scopes := by simp [Table.enter, h.scopes, h.lastScope, Stack.layers]
      lastScope := congrArg (· + 1) h.lastScope
      names := fun layer hlayer name => ?_
      nodup := List.nodup_cons.2 ⟨fun hmem => hfresh _ hmem rfl, h.nodup⟩
      scopesLe := fun id hid => ?_
      symbolsLe := fun symbol hsymbol => Nat.le_succ_of_le (h.symbolsLe symbol hsymbol) }
  · rcases List.mem_cons.1 hlayer with rfl | houter
    · refine h.indexed.findIn?_eq_none.2 fun symbol hsymbol _ => Nat.ne_of_lt ?_
      rw [← h.lastScope]
      exact Nat.lt_succ_of_le (h.symbolsLe symbol hsymbol)
    · exact h.names layer houter name
  · rcases List.mem_cons.1 hid with rfl | hold
    · exact Nat.le_refl _
    · exact Nat.le_succ_of_le (h.scopesLe id hold)

theorem Mirrors.leave {layer : Layer} {outer : List Layer} (h : table.Mirrors stack)
    (houter : stack.outer = layer :: outer) :
    table.leave? = some table.drop ∧ table.drop.Mirrors { stack with inner := layer, outer } := by
  have hscopes : table.scopes = stack.inner.id :: layer.id :: outer.map (·.id) := by
    simp [h.scopes, Stack.layers, houter]
  have hdrop : table.drop.scopes = layer.id :: outer.map (·.id) := by simp [drop, hscopes]
  have hsubset : table.drop.scopes ⊆ table.scopes := (List.tail_sublist _).subset
  constructor
  · simp [leave?, hscopes, drop]
  · exact
      { indexed := h.indexed
        scopes := hdrop
        lastScope := h.lastScope
        names := fun other hother => h.names other (by
          rw [Stack.layers, houter]
          exact List.mem_cons_of_mem _ hother)
        nodup := h.nodup.sublist (List.tail_sublist _)
        scopesLe := fun id hid => h.scopesLe id (hsubset hid)
        symbolsLe := h.symbolsLe }

/-- A symbol gets into the map of the innermost scope, and the other open scopes keep theirs. -/
theorem Mirrors.set (h : table.Mirrors stack) (hindexed : table'.Indexed)
    (hscopes : table'.scopes = table.scopes) (hlast : table'.lastScope = table.lastScope)
    (hothers : ∀ id ≠ table.scope, ∀ name, table'.findIn? id name = table.findIn? id name)
    (hinner : ∀ name, table'.findIn? table.scope name =
      if name = symbol.name then some symbol else table.findIn? table.scope name)
    (hsymbolsLe : ∀ symbol ∈ table'.symbols, symbol.scope ≤ table.lastScope) :
    table'.Mirrors (stack.set symbol) := by
  refine
    { indexed := hindexed
      scopes := hscopes.trans h.scopes
      lastScope := hlast.trans h.lastScope
      names := fun layer hlayer name => ?_
      nodup := hscopes ▸ h.nodup
      scopesLe := by rw [hscopes, hlast]; exact h.scopesLe
      symbolsLe := by rw [hlast]; exact hsymbolsLe }
  rcases List.mem_cons.1 hlayer with rfl | houter
  · change table'.findIn? stack.inner.id name =
      Function.update stack.inner.names symbol.name (some symbol) name
    rw [← h.scope, hinner, h.findIn?_scope, Function.update_apply]
  · have hne : layer.id ≠ table.scope := by
      have hnodup := h.nodup
      rw [h.scopes, Stack.layers, List.map_cons, List.nodup_cons] at hnodup
      intro heq
      rw [h.scope] at heq
      exact hnodup.1 (List.mem_map.2 ⟨layer, houter, heq⟩)
    rw [hothers layer.id hne]
    exact h.names layer (List.mem_cons_of_mem _ houter) name

theorem Mirrors.add (h : table.Mirrors stack) (hnew : stack.inner.names symbol.name = none) :
    (table.add symbol).Mirrors
      (stack.set { symbol with level := stack.outer.length, scope := stack.inner.id }) := by
  have hfind := h.findIn?_scope symbol.name
  rw [hnew] at hfind
  rw [← h.scope, ← h.level]
  refine h.set (h.indexed.add (h.indexed.slot?_eq_none.2 hfind)) rfl rfl
    (fun id hid name => h.indexed.findIn?_add_of_ne hid) (fun name => ?_) ?_
  · rw [h.indexed.findIn?_add]
    simp
  · intro other hother
    rcases List.mem_append.1 hother with hold | hlast
    · exact h.symbolsLe other hold
    · rw [List.mem_singleton.1 hlast]
      refine h.scopesLe table.scope ?_
      rw [h.scopes, h.scope]
      exact List.mem_cons_self

theorem Mirrors.bindEntry {found : Symbol} (h : table.Mirrors stack) (defined : Symbol)
    (hfound : table.findIn? table.scope defined.name = some found)
    (hscope : defined.scope = table.scope) :
    (table.bindEntry defined).Mirrors (stack.set defined) := by
  refine h.set (h.indexed.bindEntry hscope) rfl rfl (fun id hid name => ?_) (fun name => ?_) ?_
  · rw [findIn?_bindEntry]
    cases hfind : table.findIn? id name with
    | none => rfl
    | some old => simp [h.indexed.scope_of_findIn? hfind, hid]
  · rw [findIn?_bindEntry]
    by_cases hname : name = defined.name
    · subst hname
      simp [hfound, h.indexed.name_of_findIn? hfound, h.indexed.scope_of_findIn? hfound]
    · cases hfind : table.findIn? table.scope name with
      | none => simp [hname]
      | some old => simp [h.indexed.name_of_findIn? hfind, hname]
  · intro symbol hsymbol
    obtain ⟨old, hold, rfl⟩ := List.mem_map.1 hsymbol
    split
    · rw [hscope, ← h.indexed.scope_of_findIn? hfound]
      exact h.symbolsLe found (mem_of_findIn? hfound)
    · exact h.symbolsLe old hold

/-! ## The list of symbols -/

/-- A function gets an entry, and nothing else of a declared symbol changes. -/
def Becomes (declared listed : Symbol) : Prop :=
  listed = declared ∨
    declared.cls = .function ∧
      ∃ entry, listed = { declared with value := entry, defined := true }

/-- What a request that gets this answer makes of the list of symbols. -/
inductive Lists (table : Table) : Request → Answer → List Symbol → Prop where
  | append {symbol added : Symbol}
      (hadded : added = { symbol with level := table.level, scope := table.scope }) :
      table.Lists (.declare symbol) (.declared (.ok added)) (table.symbols ++ [added])
  | bind {name : String} {entry : Word} {front back : List Symbol} {old bound : Symbol}
      (hsymbols : table.symbols = front ++ old :: back) (hname : old.name = name)
      (hscope : old.scope = table.scope) (hcls : old.cls = .function)
      (hbound : bound = { old with value := entry, defined := true }) :
      table.Lists (.define name entry) (.defined (some bound)) (front ++ bound :: back)
  | keep {request : Request} {answer : Answer}
      (hdeclared : ∀ symbol, answer ≠ .declared (.ok symbol))
      (hdefined : ∀ symbol, answer ≠ .defined (some symbol)) :
      table.Lists request answer table.symbols

theorem lists_serve (hindexed : table.Indexed) {request : Request}
    {answer : Answer} (hserve : table.serve request = some (answer, table')) :
    table.Lists request answer table'.symbols := by
  cases request with
  | enter =>
      cases hserve
      exact .keep nofun nofun
  | leave =>
      obtain ⟨left, hleave, heq⟩ := Option.map_eq_some_iff.1 hserve
      cases heq
      have hsymbols : table'.symbols = table.symbols := by
        unfold leave? at hleave
        split at hleave <;> cases hleave
        rfl
      rw [hsymbols]
      exact .keep nofun nofun
  | declare symbol =>
      simp only [serve] at hserve
      split at hserve
      next added after hdeclare =>
        obtain ⟨-, hadded, rfl⟩ := declare_eq_ok.1 hdeclare
        cases hserve
        rw [show (table.add symbol).symbols = table.symbols ++ [added] by rw [hadded]; rfl]
        exact .append hadded
      next =>
        cases hserve
        exact .keep nofun nofun
  | define name entry =>
      simp only [serve] at hserve
      split at hserve
      next bound after hdefine =>
        cases hserve
        obtain ⟨slot, old, hslot, hold, hcls, hbound, rfl⟩ := defineFunction?_eq_some.1 hdefine
        obtain ⟨symbol, hsymbol, hname, hscope⟩ := hindexed.slot?_eq_some.1 hslot
        rw [hold] at hsymbol
        cases hsymbol
        obtain ⟨hlt, hget⟩ := List.getElem?_eq_some_iff.1 hold
        have hsplit : table.symbols =
            table.symbols.take slot ++ old :: table.symbols.drop (slot + 1) := by
          rw [← hget, List.getElem_cons_drop, List.take_append_drop]
        rw [List.set_eq_take_append_cons_drop, if_pos hlt]
        exact .bind hsplit hname hscope hcls hbound
      next =>
        cases hserve
        exact .keep nofun nofun
  | lookup name =>
      cases hserve
      exact .keep nofun nofun
  | resolve name position =>
      cases hserve
      exact .keep nofun nofun

theorem id?_serve {request : Request} {answer : Answer}
    (hserve : table.serve request = some (answer, table')) :
    answer.id? = none ∧ table'.lastScope = table.lastScope ∨
      answer.id? = some (table.lastScope + 1) ∧ table'.lastScope = table.lastScope + 1 := by
  cases request with
  | enter =>
      cases hserve
      exact .inr ⟨rfl, rfl⟩
  | leave =>
      obtain ⟨left, hleave, heq⟩ := Option.map_eq_some_iff.1 hserve
      cases heq
      unfold leave? at hleave
      split at hleave <;> cases hleave
      exact .inl ⟨rfl, rfl⟩
  | declare symbol =>
      simp only [serve] at hserve
      split at hserve
      next hdeclare =>
        obtain ⟨-, -, rfl⟩ := declare_eq_ok.1 hdeclare
        cases hserve
        exact .inl ⟨rfl, rfl⟩
      next =>
        cases hserve
        exact .inl ⟨rfl, rfl⟩
  | define name entry =>
      simp only [serve] at hserve
      split at hserve
      next hdefine =>
        cases hserve
        obtain ⟨_, _, _, _, _, _, rfl⟩ := defineFunction?_eq_some.1 hdefine
        exact .inl ⟨rfl, rfl⟩
      next =>
        cases hserve
        exact .inl ⟨rfl, rfl⟩
  | lookup name =>
      cases hserve
      exact .inl ⟨rfl, rfl⟩
  | resolve name position =>
      cases hserve
      exact .inl ⟨rfl, rfl⟩

/-- The numbers of the scopes and the symbols, as the answers told them. -/
structure Logged (past : List Answer) (table : Table) : Prop where
  ids : past.filterMap Answer.id? = List.range' 1 table.lastScope
  listed : List.Forall₂ Becomes (past.filterMap Answer.accepted?) table.symbols

theorem Becomes.bind {declared old bound : Symbol} {entry : Word} (h : Becomes declared old)
    (hcls : old.cls = .function)
    (hbound : bound = { old with value := entry, defined := true }) :
    Becomes declared bound := by
  rcases h with rfl | ⟨hfunction, entry', rfl⟩
  · exact .inr ⟨hcls, entry, hbound⟩
  · exact .inr ⟨hfunction, entry, hbound⟩

theorem forall₂_replace {past front back : List Symbol} {old bound : Symbol}
    (hold : List.Forall₂ Becomes past (front ++ old :: back))
    (hbound : ∀ declared, Becomes declared old → Becomes declared bound) :
    List.Forall₂ Becomes past (front ++ bound :: back) := by
  induction front generalizing past with
  | nil =>
      cases hold with
      | cons hhead htail => exact .cons (hbound _ hhead) htail
  | cons symbol front ih =>
      cases hold with
      | cons hhead htail => exact .cons hhead (ih htail)

theorem Logged.serve {past : List Answer} (h : Logged past table)
    (hindexed : table.Indexed) {request : Request} {answer : Answer}
    (hserve : table.serve request = some (answer, table')) :
    Logged (past ++ [answer]) table' := by
  constructor
  · rw [List.filterMap_append, h.ids]
    rcases id?_serve hserve with ⟨hid, hlast⟩ | ⟨hid, hlast⟩
    · simp [hid, hlast]
    · rw [hlast, List.range'_concat]
      simp [hid, Nat.add_comm]
  · rw [List.filterMap_append]
    have hlists := lists_serve hindexed hserve
    generalize table'.symbols = after at hlists ⊢
    cases hlists with
    | append hadded => exact List.rel_append h.listed (.cons (.inl rfl) .nil)
    | @bind name entry front back old bound hsymbols hname hscope hcls hbound =>
        have hnew := forall₂_replace (hsymbols ▸ h.listed) fun declared hdeclared =>
          hdeclared.bind hcls hbound
        rw [show List.filterMap Answer.accepted? [.defined (some bound)] = [] from rfl,
          List.append_nil]
        exact hnew
    | keep hdeclared hdefined =>
        have hnone : answer.accepted? = none := by
          cases answer with
          | declared outcome =>
              cases outcome with
              | ok symbol => exact absurd rfl (hdeclared symbol)
              | error error => rfl
          | _ => rfl
        simpa [hnone] using h.listed

/-! ## Side by side -/

theorem Mirrors.serve (h : table.Mirrors stack) (request : Request) :
    Option.Rel (fun left right => left.1 = right.1 ∧ left.2.Mirrors right.2)
      (table.serve request) (stack.serve request) := by
  cases request with
  | enter => exact .some ⟨by simp [Table.enter, Table.scope, h.lastScope], h.enter⟩
  | leave =>
      cases houter : stack.outer with
      | nil =>
          have hscopes : table.scopes = [stack.inner.id] := by
            simp [h.scopes, Stack.layers, houter]
          simp only [Table.serve, Stack.serve, leave?, hscopes, houter]
          exact .none
      | cons layer outer =>
          obtain ⟨hleave, hdrop⟩ := h.leave houter
          simp only [Table.serve, Stack.serve, hleave, houter]
          exact .some ⟨rfl, hdrop⟩
  | declare symbol =>
      have hfind := h.findIn?_scope symbol.name
      cases hname : stack.inner.names symbol.name with
      | some old =>
          simp only [Table.serve, Stack.serve, h.declare_of_some hname, hname]
          exact .some ⟨rfl, h⟩
      | none =>
          rw [hname] at hfind
          have hdeclare := declare_eq_ok.2 ⟨h.indexed.slot?_eq_none.2 hfind, rfl, rfl⟩
          simp only [Table.serve, Stack.serve, hdeclare, hname]
          exact .some ⟨by rw [h.scope, h.level], h.add hname⟩
  | define name entry =>
      have hfind := h.findIn?_scope name
      cases hname : stack.inner.names name with
      | none =>
          have hdefine : table.defineFunction? name entry = none :=
            defineFunction?_eq_none (by simp [hfind, hname])
          simp only [Table.serve, Stack.serve, hdefine, hname]
          exact .some ⟨rfl, h⟩
      | some old =>
          rw [hname] at hfind
          by_cases hcls : old.cls = .function
          · simp only [Table.serve, Stack.serve, h.indexed.defineFunction?_eq hfind hcls, hname]
            rw [if_pos hcls]
            have hbound : table.findIn? table.scope old.name = some old := by
              rw [h.indexed.name_of_findIn? hfind, hfind]
            have hscope : old.scope = table.scope := h.indexed.scope_of_findIn? hfind
            exact .some ⟨rfl,
              h.bindEntry { old with value := entry, defined := true } hbound hscope⟩
          · have hdefine : table.defineFunction? name entry = none :=
              defineFunction?_eq_none (by simp [hfind, hcls])
            simp only [Table.serve, Stack.serve, hdefine, hname, hcls]
            exact .some ⟨rfl, h⟩
  | lookup name => exact .some ⟨congrArg Answer.found (h.lookup? name), h⟩
  | resolve name position =>
      simp only [Table.serve, Stack.serve, resolve, h.lookup?]
      cases stack.lookup? name <;> exact .some ⟨rfl, h⟩

theorem Mirrors.serveAll (h : table.Mirrors stack) (requests : List Request) :
    Option.Rel (fun left right => left.1 = right.1 ∧ left.2.Mirrors right.2)
      (Symbol.serveAll Table.serve requests table)
      (Symbol.serveAll Stack.serve requests stack) :=
  serveAll_rel (fun _ (table : Table) stack => table.Mirrors stack)
    (fun request h => h.serve request) requests [] h

/-- The table and the stack answer the same, and the log of the table follows. -/
theorem serveAll_mirrors (requests : List Request) :
    Option.Rel (fun left right => left.1 = right.1 ∧
        left.2.Mirrors right.2 ∧ Logged left.1 left.2)
      (Symbol.serveAll Table.serve requests Table.initial)
      (Symbol.serveAll Stack.serve requests Stack.initial) := by
  refine serveAll_rel (fun past (table : Table) stack => table.Mirrors stack ∧ Logged past table)
    (fun {past table stack} request h => ?_) requests [] ⟨mirrors_initial, rfl, .nil⟩
  have hmirrors := h.1.serve request
  have hlogged : ∀ answer after, table.serve request = some (answer, after) →
      Logged (past ++ [answer]) after := fun _ _ => h.2.serve h.1.indexed
  generalize table.serve request = served at hmirrors hlogged ⊢
  generalize stack.serve request = served' at hmirrors ⊢
  cases hmirrors with
  | none => exact .none
  | @some left right hboth => exact .some ⟨hboth.1, hboth.2, hlogged left.1 left.2 rfl⟩

/-- A table that has answered these requests, beside the stack that has answered the same. -/
structure BehavesAs (table : Table) (past : List Answer) (stack : Stack) : Prop where
  lookup : ∀ name, table.lookup? name = stack.lookup? name
  /-- Whatever happens between entering a scope and leaving it, no lookup shows it. -/
  restored : ∀ inside, Balanced inside → ∃ answers table',
    Symbol.serveAll Table.serve (.enter :: inside ++ [.leave]) table = some (answers, table') ∧
      ∀ name, table'.lookup? name = table.lookup? name ∧
        ∀ position, table'.resolve name position = table.resolve name position
  /-- The built-in scope has the number zero. -/
  fresh : (0 :: past.filterMap Answer.id?).Nodup
  duplicate : ∀ symbol old, stack.inner.names symbol.name = some old →
    table.serve (.declare symbol) =
      some (.declared (.error (.duplicateDeclaration symbol.name symbol.position)), table)
  rejected : ∀ symbol error table',
    table.serve (.declare symbol) = some (.declared (.error error), table') →
      table' = table ∧ (stack.inner.names symbol.name).isSome
  indexed : table.Indexed
  apart : (table.symbols.map key).Nodup
  listed : List.Forall₂ Becomes (past.filterMap Answer.accepted?) table.symbols
  changes : ∀ request answer table', table.serve request = some (answer, table') →
    table.Lists request answer table'.symbols

theorem Mirrors.restored (h : table.Mirrors stack) {inside : List Request}
    (hinside : Balanced inside) :
    ∃ answers table',
      Symbol.serveAll Table.serve (.enter :: inside ++ [.leave]) table =
        some (answers, table') ∧
      ∀ name, table'.lookup? name = table.lookup? name ∧
        ∀ position, table'.resolve name position = table.resolve name position := by
  have hall := h.serveAll (.enter :: inside ++ [.leave])
  obtain ⟨answers, stack', hstack, hlayers⟩ :=
    Stack.serveAll_nested (Stack.serveAll_balanced hinside) stack
  rw [hstack] at hall
  generalize Symbol.serveAll Table.serve (.enter :: inside ++ [.leave]) table = served at hall ⊢
  cases hall with
  | @some left _ hboth =>
      have hlookup : ∀ name, left.2.lookup? name = table.lookup? name := by
        intro name
        rw [hboth.2.lookup?, h.lookup?, Stack.lookup?, Stack.lookup?, hlayers]
      refine ⟨left.1, left.2, rfl, fun name => ⟨hlookup name, fun position => ?_⟩⟩
      rw [resolve, resolve, hlookup]

theorem Mirrors.behavesAs {past : List Answer} (h : table.Mirrors stack)
    (hlogged : Logged past table) : table.BehavesAs past stack where
  lookup := h.lookup?
  restored := fun _ hinside => h.restored hinside
  fresh := by
    rw [hlogged.ids, List.nodup_cons]
    exact ⟨by simp, List.nodup_range'⟩
  duplicate := fun symbol old hold => by
    simp only [Table.serve, h.declare_of_some hold]
  rejected := fun symbol error table' hserve => by
    cases hname : stack.inner.names symbol.name with
    | none =>
        have hfind := (h.findIn?_scope symbol.name).trans hname
        have hdeclare := declare_eq_ok.2 ⟨h.indexed.slot?_eq_none.2 hfind, rfl, rfl⟩
        simp [Table.serve, hdeclare] at hserve
    | some old =>
        simp only [Table.serve, h.declare_of_some hname, Option.some.injEq, Prod.mk.injEq] at hserve
        exact ⟨hserve.2.symm, rfl⟩
  indexed := h.indexed
  apart := h.indexed.nodup_keys
  listed := hlogged.listed
  changes := fun _ _ _ hserve => lists_serve h.indexed hserve

/-- A new table answers every list of requests as the stack of maps does, up to a request to leave
the scope of the built-in names. -/
theorem serveAll_behavesAs (requests : List Request) :
    Option.Rel (fun left right => left.1 = right.1 ∧ left.2.BehavesAs left.1 right.2)
      (Symbol.serveAll Table.serve requests Table.initial)
      (Symbol.serveAll Stack.serve requests Stack.initial) := by
  have hall := serveAll_mirrors requests
  generalize Symbol.serveAll Table.serve requests Table.initial = served at hall ⊢
  generalize Symbol.serveAll Stack.serve requests Stack.initial = served' at hall ⊢
  cases hall with
  | none => exact .none
  | some hboth => exact .some ⟨hboth.1, hboth.2.1.behavesAs hboth.2.2⟩

end Table

end WordC.Symbol
