import WordC.Proofs.Compile.Programs
import WordC.Proofs.Compile.Repeats
import WordC.Proofs.Target.Points

/-!
# The table of symbols at the points of a file

Symbols outlive their scopes, so the table of a compilation lists all parameters and local variables
that have been declared. It is followed here from point to point of the file: which scopes are open,
what has been declared in which scope, and with which offset. Expressions leave the table alone.
-/

namespace WordC

open Syntax (Point Stmt)

/-- The scopes of a point lie inside of that of the file. -/
structure Syntax.Point.Proper (p : Point) : Prop where
  last : 1 ≤ p.last
  scopes : ∀ id ∈ p.scopes, 1 < id
  declared : ∀ entry ∈ p.declared, 1 < entry.2

namespace Symbol.Table

/-- The symbols declared inside of functions, the first one first. -/
def locals (table : Table) : List Symbol :=
  table.symbols.filter Symbol.isLocal

/-- The table of a compilation that stands at a point, and the offsets of all it has declared. -/
structure At (p : Point) (offsets : List Word) (table : Table) : Prop where
  proper : p.Proper
  indexed : table.Indexed
  scopes : table.scopes = p.scopes ++ [1, 0]
  last : table.lastScope = p.last
  declared : table.locals.map (fun symbol => (symbol.name, symbol.scope)) = p.declared
  offsets : table.locals.map (·.value) = offsets

variable {table : Table} {p : Point} {offsets : List Word} {symbol : Symbol}

theorem At.enter (h : At p offsets table) : At p.enter offsets table.enter where
  proper :=
    { last := Nat.le_succ_of_le h.proper.last
      scopes := List.forall_mem_cons.2 ⟨Nat.lt_succ_of_le h.proper.last, h.proper.scopes⟩
      declared := h.proper.declared }
  indexed := h.indexed
  scopes := by
    rw [Table.enter, h.scopes, h.last]
    rfl
  last := congrArg (· + 1) h.last
  declared := h.declared
  offsets := h.offsets

theorem At.leave {outside : Table} (h : At p offsets table) (hscopes : p.scopes ≠ [])
    (hleave : table.leave? = some outside) : At p.leave offsets outside := by
  obtain ⟨id, outer, hid⟩ := List.exists_cons_of_ne_nil hscopes
  have hdrop : outside = table.drop := by
    have htable := h.scopes
    unfold leave? at hleave
    rw [drop, htable]
    rw [htable, hid] at hleave
    cases outer <;> exact (Option.some.inj hleave).symm.trans (by simp [hid])
  subst hdrop
  exact
    { proper := { h.proper with
        scopes := fun other hother => h.proper.scopes other (List.mem_of_mem_tail hother) }
      indexed := h.indexed
      scopes := by
        rw [drop, h.scopes, Point.leave, hid]
        rfl
      last := h.last
      declared := h.declared
      offsets := h.offsets }

/-- A symbol is listed if it is declared inside of a function. -/
theorem locals_add (table : Table) (symbol : Symbol) :
    (table.add symbol).locals =
      if globalLevel < table.level then
        table.locals ++ [{ symbol with level := table.level, scope := table.scope }]
      else table.locals := by
  by_cases hlevel : globalLevel < table.level
  · rw [if_pos hlevel]
    simp [locals, add, List.filter_append, isLocal, hlevel]
  · rw [if_neg hlevel]
    simp [locals, add, List.filter_append, isLocal, hlevel]

/-- A name that is declared inside of a function is listed with its scope. -/
theorem At.add_local (h : At p offsets table) (hscopes : p.scopes ≠ [])
    (hfree : table.slot? table.scope symbol.name = none) :
    At (p.declare symbol.name) (offsets ++ [symbol.value]) (table.add symbol) := by
  obtain ⟨id, outer, hid⟩ := List.exists_cons_of_ne_nil hscopes
  have hscope : table.scope = id := by
    rw [Table.scope, h.scopes, hid]
    rfl
  have hlevel : globalLevel < table.level := by
    simp [globalLevel, Table.level, h.scopes, hid]
  have hlocals := locals_add table symbol
  rw [if_pos hlevel] at hlocals
  have hhead : p.scopes.headD 0 = id := by
    rw [hid]
    rfl
  refine
    { proper := { h.proper with declared := fun entry hentry => ?_ }
      indexed := h.indexed.add hfree
      scopes := h.scopes
      last := h.last
      declared := ?_
      offsets := ?_ }
  · rcases List.mem_append.1 hentry with hold | hnew
    · exact h.proper.declared entry hold
    · rw [List.mem_singleton.1 hnew, hhead]
      exact h.proper.scopes id (hid ▸ List.mem_cons_self)
  · rw [hlocals, List.map_append, h.declared, Point.declare, hhead, ← hscope]
    rfl
  · rw [hlocals, List.map_append, h.offsets]
    rfl

/-- A table that lists the same in functions. -/
theorem At.congr {table' : Table} (h : At p offsets table) (hindexed : table'.Indexed)
    (hscopes : table'.scopes = table.scopes) (hlast : table'.lastScope = table.lastScope)
    (hlocals : table'.locals = table.locals) : At p offsets table' where
  proper := h.proper
  indexed := hindexed
  scopes := hscopes.trans h.scopes
  last := hlast.trans h.last
  declared := hlocals ▸ h.declared
  offsets := hlocals ▸ h.offsets

theorem At.add_global (h : At p offsets table) (hscopes : p.scopes = [])
    (hfree : table.slot? table.scope symbol.name = none) :
    At p offsets (table.add symbol) := by
  have hlevel : ¬ globalLevel < table.level := by
    simp [globalLevel, Table.level, h.scopes, hscopes]
  have hlocals := locals_add table symbol
  rw [if_neg hlevel] at hlocals
  exact h.congr (h.indexed.add hfree) rfl rfl hlocals

/-- Symbols of the scope of the file are no local ones. -/
theorem At.not_isLocal (h : At p offsets table) (hmem : symbol ∈ table.symbols)
    (hscope : symbol.scope = 1) : symbol.isLocal = false := by
  by_contra hlocal
  have hlisted : symbol ∈ table.locals :=
    List.mem_filter.2 ⟨hmem, Bool.of_not_eq_false hlocal⟩
  have hentry := h.proper.declared (symbol.name, symbol.scope)
    (h.declared ▸ List.mem_map_of_mem (f := fun symbol : Symbol => (symbol.name, symbol.scope))
      hlisted)
  omega

theorem At.bindEntry {defined : Symbol} (h : At p offsets table) (hscopes : p.scopes = [])
    (hplace : defined.scope = table.scope) (hdefined : defined.isLocal = false) :
    At p offsets (table.bindEntry defined) := by
  have hscope : table.scope = 1 := by
    rw [Table.scope, h.scopes, hscopes]
    rfl
  refine h.congr (h.indexed.bindEntry hplace) rfl rfl ?_
  have hkeep : ∀ symbols : List Symbol, symbols ⊆ table.symbols →
      (symbols.map fun old =>
        if old.scope == table.scope && old.name == defined.name then defined else old).filter
          Symbol.isLocal = symbols.filter Symbol.isLocal := by
    intro symbols hsub
    induction symbols with
    | nil => rfl
    | cons old symbols ih =>
        obtain ⟨hold, hrest⟩ := List.cons_subset.1 hsub
        rw [List.map_cons]
        by_cases hmatch : (old.scope == table.scope && old.name == defined.name) = true
        · have hlocal := h.not_isLocal hold (by simp_all)
          rw [if_pos hmatch, List.filter_cons_of_neg (by simp [hdefined]),
            List.filter_cons_of_neg (by simp [hlocal]), ih hrest]
        · rw [if_neg hmatch, List.filter_cons, List.filter_cons, ih hrest]
  exact hkeep table.symbols (List.Subset.refl _)

/-- Where a prototype gets its entry, no symbol of a function body changes. -/
theorem At.defineFunction {table' : Table} {name : String} {entry : Word}
    {defined : Symbol} (h : At p offsets table) (hscopes : p.scopes = [])
    (hdefine : table.defineFunction? name entry = some (defined, table')) :
    At p offsets table' := by
  obtain ⟨found, hfind, -, rfl, rfl⟩ := h.indexed.defineFunction?_eq_some.1 hdefine
  have hplace := h.indexed.scope_of_findIn? hfind
  have hscope : found.scope = 1 := by
    rw [hplace, Table.scope, h.scopes, hscopes]
    rfl
  have hlocal := h.not_isLocal (mem_of_findIn? hfind) hscope
  exact h.bindEntry hscopes hplace
    (show Symbol.isLocal { found with value := entry, defined := true } = false from hlocal)

end Symbol.Table

namespace Compiler

open Symbol.Table (At)
open Syntax (Closes Declaration Declarator Expr)

variable {α β : Type} {origin : Origin} {a b : Sketch} {p q : Point} {offsets : List Word}
  {pre mid post : Symbol.Table → Prop}

/-! ## Tables from action to action -/

/-- The action leaves the table as it is. -/
def Rests (action : Compile α) : Prop :=
  ∀ s value s', action s = .ok value s' → s'.compiler.symbols = s.compiler.symbols

/-- From a table with `pre` the action leads to one with `post`, if it gives a result. -/
def Shifts (pre : Symbol.Table → Prop) (action : Compile α) (post : Symbol.Table → Prop) : Prop :=
  ∀ s, pre s.compiler.symbols → ∀ value s', action s = .ok value s' → post s'.compiler.symbols

/-- The same from a state that fits the sketch. -/
def Moves (origin : Origin) (a : Sketch) (pre : Symbol.Table → Prop) (action : Compile α)
    (post : Symbol.Table → Prop) : Prop :=
  ∀ s, a.Fits origin s → pre s.compiler.symbols → ∀ value s', action s = .ok value s' →
    post s'.compiler.symbols

section Rules

variable {action : Compile α} {next : α → Compile β}

theorem Repeats.rests (h : Stays action) : Rests action := fun s value s' hok =>
  have hstands : Stands s.compiler.bound s.compiler.supply s.compiler.tree.outer.length s :=
    ⟨rfl, Nat.le_refl _, rfl⟩
  congrArg Prod.fst ((h s hstands).stands value s' hok).2

namespace Rests

theorem pure (value : α) : Rests (Pure.pure value : Compile α) :=
  Repeats.rests (.pure value)

theorem throw (error : Error) : Rests (MonadExcept.throw error : Compile α) :=
  Repeats.rests (.throw error)

theorem bind (h : Rests action) (hnext : ∀ value, Rests (next value)) :
    Rests (action >>= next) := by
  intro s value s' hok
  obtain ⟨first, between, hfirst, hsecond⟩ := bind_eq_ok.1 hok
  exact (hnext first between value s' hsecond).trans (h s first between hfirst)

theorem update {change : Compiler → Compiler}
    (h : ∀ compiler, (change compiler).symbols = compiler.symbols) : Rests (update change) := by
  rintro s _ _ ⟨⟩
  exact h s.compiler

theorem ite {condition : Prop} [Decidable condition] {first second : Compile α}
    (hfirst : Rests first) (hsecond : Rests second) :
    Rests (if condition then first else second) := by
  by_cases h : condition
  · rwa [if_pos h]
  · rwa [if_neg h]

theorem onMachine (action : Action α) : Rests (onMachine action) :=
  Repeats.rests (.onMachine action)

theorem shifts (h : Rests action) : Shifts pre action pre :=
  fun s hpre value s' hok => h s value s' hok ▸ hpre

end Rests

namespace Shifts

theorem bind (h : Shifts pre action mid) (hnext : ∀ value, Shifts mid (next value) post) :
    Shifts pre (action >>= next) post := by
  intro s hpre value s' hok
  obtain ⟨first, between, hfirst, hsecond⟩ := bind_eq_ok.1 hok
  exact hnext first between (h s hpre first between hfirst) value s' hsecond

theorem moves (h : Shifts pre action post) : Moves origin a pre action post :=
  fun s _ => h s

end Shifts

/-- Behind the first action the sketch plays no part any more. -/
theorem Moves.bind (h : Moves origin a pre action mid)
    (hnext : ∀ value, Shifts mid (next value) post) : Moves origin a pre (action >>= next) post := by
  intro s hfits hpre value s' hok
  obtain ⟨first, between, hfirst, hsecond⟩ := bind_eq_ok.1 hok
  exact hnext first between (h s hfits hpre first between hfirst) value s' hsecond

theorem Reaches.moves {reached : α → Sketch → Prop} (h : Reaches origin a action reached)
    (hmoves : Moves origin a pre action mid)
    (hnext : ∀ value b, reached value b → Moves origin b mid (next value) post) :
    Moves origin a pre (action >>= next) post := by
  intro s hfits hpre value s' hok
  obtain ⟨first, between, hfirst, hsecond⟩ := bind_eq_ok.1 hok
  obtain ⟨b, hreached, hfits'⟩ := h.ends s hfits first between hfirst
  exact hnext first b hreached between hfits' (hmoves s hfits hpre first between hfirst) value s'
    hsecond

theorem Reaches.rests {reached : α → Sketch → Prop} (h : Reaches origin a action reached)
    (hrests : Rests action)
    (hnext : ∀ value b, reached value b → Moves origin b pre (next value) post) :
    Moves origin a pre (action >>= next) post :=
  h.moves hrests.shifts.moves hnext

theorem Does.moves {value : α} (h : Does origin a action value b)
    (hmoves : Moves origin a pre action mid) (hnext : Moves origin b mid (next value) post) :
    Moves origin a pre (action >>= next) post := by
  refine Reaches.moves h hmoves ?_
  rintro _ _ ⟨rfl, rfl⟩
  exact hnext

theorem Does.rests {value : α} (h : Does origin a action value b) (hrests : Rests action)
    (hnext : Moves origin b pre (next value) post) : Moves origin a pre (action >>= next) post :=
  h.moves hrests.shifts.moves hnext

end Rules

/-! ## Single actions -/

theorem rests_openRule (rule : Rule) : Rests (openRule rule) :=
  .update fun _ => rfl

theorem rests_closeRule : Rests closeRule :=
  .update fun _ => rfl

theorem rests_patchHere (site : Nat) : Rests (patchHere site) :=
  Repeats.rests (repeats_patchHere site)

theorem rests_advance : Rests advance :=
  Repeats.rests repeats_advance

theorem rests_atMark (mark : Punctuator) : Rests (atMark mark) :=
  Repeats.rests (repeats_atMark mark)

theorem rests_expect (kind : Token.Kind) : Rests (expect kind) :=
  Repeats.rests (repeats_expect kind)

theorem rests_expression : Rests expression :=
  Repeats.rests repeats_expression

theorem rests_emit (opcode : Opcode) : Rests (emit opcode) :=
  Repeats.rests (repeats_emit opcode)

theorem rests_emitPending (opcode : Opcode) : Rests (emitPending opcode) :=
  Repeats.rests (repeats_emitPending opcode)

theorem rests_view (field : Compiler → α) : Rests (view field) := by
  rintro s _ _ ⟨⟩
  rfl

theorem symbols_of_declare {symbol added : Symbol} {s s' : State}
    (h : declare symbol s = .ok added s') :
    s.compiler.symbols.slot? s.compiler.symbols.scope symbol.name = none ∧
      s'.compiler.symbols = s.compiler.symbols.add symbol := by
  rw [declare_run] at h
  cases hdeclare : s.compiler.symbols.declare symbol with
  | error error =>
      rw [hdeclare] at h
      cases h
  | ok result =>
      obtain ⟨found, table⟩ := result
      rw [hdeclare] at h
      cases h
      obtain ⟨hfree, -, htable⟩ := Symbol.Table.declare_eq_ok.1 hdeclare
      exact ⟨hfree, htable⟩

theorem shifts_declare_local (hscopes : p.scopes ≠ []) (symbol : Symbol) :
    Shifts (At p offsets) (declare symbol)
      (At (p.declare symbol.name) (offsets ++ [symbol.value])) := by
  intro s hat added s' hok
  obtain ⟨hfree, hsymbols⟩ := symbols_of_declare hok
  rw [hsymbols]
  exact hat.add_local hscopes hfree

theorem shifts_declare_global (hscopes : p.scopes = []) (symbol : Symbol) :
    Shifts (At p offsets) (declare symbol) (At p offsets) := by
  intro s hat added s' hok
  obtain ⟨hfree, hsymbols⟩ := symbols_of_declare hok
  rw [hsymbols]
  exact hat.add_global hscopes hfree

theorem shifts_enterScope : Shifts (At p offsets) enterScope (At p.enter offsets) := by
  rintro s hat _ _ ⟨⟩
  exact hat.enter

theorem shifts_leaveScope (hscopes : p.scopes ≠ []) :
    Shifts (At p offsets) leaveScope (At p.leave offsets) := by
  intro s hat value s' hok
  cases hleave : s.compiler.symbols.leave? with
  | none =>
      rw [leaveScope, bind_run_of_ok
        (show view (·.symbols) s = .ok s.compiler.symbols s from rfl), hleave] at hok
      cases hok
  | some outside =>
      rw [leaveScope_of_leave? hleave] at hok
      cases hok
      exact hat.leave hscopes hleave

end Compiler

end WordC
