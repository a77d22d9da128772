import Mathlib.Data.List.Nodup
import WordC.Symbol.Table

/-!
# The index of the symbol table

A table finds a symbol by its slot, which it keeps in an index under the name of the symbol and the
number of its scope. The index is the inverse of the list of symbols: it leads to each symbol under
that symbol's own key, and no other key leads anywhere. Declarations and definitions keep the two in
step, so that a lookup through the index finds what a scan of the list would find.
-/

namespace WordC.Symbol

/-- What tells the symbols of a table apart. -/
def key (symbol : Symbol) : String × Nat :=
  (symbol.name, symbol.scope)

namespace Table

variable {table table' : Table} {symbol : Symbol} {id slot : Nat} {name : String}

/-- The index leads to the slot that holds the symbol with the key, if there is one. -/
def Indexed (table : Table) : Prop :=
  ∀ key slot, table.index.lookup key = some slot ↔ (table.symbols.map Symbol.key)[slot]? = some key

theorem indexed_initial : initial.Indexed := fun _ _ => by simp [initial]

theorem Indexed.slot?_eq_some (h : table.Indexed) :
    table.slot? id name = some slot ↔
      ∃ symbol, table.symbols[slot]? = some symbol ∧ symbol.name = name ∧ symbol.scope = id := by
  rw [slot?, h, List.getElem?_map, Option.map_eq_some_iff]
  simp [Symbol.key]

/-- No two symbols have one key. -/
theorem Indexed.nodup_keys (h : table.Indexed) : (table.symbols.map Symbol.key).Nodup := by
  rw [List.nodup_iff_getElem?_ne_getElem?]
  intro first second hlt hlength heq
  have hsecond := List.getElem?_eq_getElem hlength
  have hslot := (h _ _).2 hsecond
  rw [(h _ _).2 (heq.trans hsecond)] at hslot
  exact Nat.ne_of_lt hlt (Option.some.inj hslot)

/-! ## Finding symbols -/

theorem mem_of_findIn? (h : table.findIn? id name = some symbol) : symbol ∈ table.symbols := by
  obtain ⟨slot, -, hsymbol⟩ := Option.bind_eq_some_iff.1 h
  exact List.mem_of_getElem? hsymbol

theorem Indexed.findIn?_eq_some (h : table.Indexed) :
    table.findIn? id name = some symbol ↔
      symbol ∈ table.symbols ∧ symbol.name = name ∧ symbol.scope = id := by
  rw [findIn?, Option.bind_eq_some_iff]
  constructor
  · rintro ⟨slot, hslot, hsymbol⟩
    obtain ⟨found, hfound, hkey⟩ := h.slot?_eq_some.1 hslot
    rw [hfound] at hsymbol
    cases hsymbol
    exact ⟨List.mem_of_getElem? hfound, hkey⟩
  · rintro ⟨hmem, hkey⟩
    obtain ⟨slot, hsymbol⟩ := List.mem_iff_getElem?.1 hmem
    exact ⟨slot, h.slot?_eq_some.2 ⟨symbol, hsymbol, hkey⟩, hsymbol⟩

theorem Indexed.name_of_findIn? (h : table.Indexed) (hfind : table.findIn? id name = some symbol) :
    symbol.name = name :=
  (h.findIn?_eq_some.1 hfind).2.1

theorem Indexed.scope_of_findIn? (h : table.Indexed)
    (hfind : table.findIn? id name = some symbol) : symbol.scope = id :=
  (h.findIn?_eq_some.1 hfind).2.2

theorem Indexed.findIn?_eq_none (h : table.Indexed) :
    table.findIn? id name = none ↔
      ∀ symbol ∈ table.symbols, symbol.name = name → symbol.scope ≠ id := by
  rw [Option.eq_none_iff_forall_ne_some]
  constructor
  · exact fun hnone symbol hmem hname hscope =>
      hnone symbol (h.findIn?_eq_some.2 ⟨hmem, hname, hscope⟩)
  · intro hnone symbol hfind
    obtain ⟨hmem, hname, hscope⟩ := h.findIn?_eq_some.1 hfind
    exact hnone symbol hmem hname hscope

/-- Every slot of the index holds a symbol. -/
theorem Indexed.slot?_eq_none (h : table.Indexed) :
    table.slot? id name = none ↔ table.findIn? id name = none := by
  constructor
  · intro hslot
    rw [findIn?, hslot, Option.bind_none]
  · intro hfind
    rw [Option.eq_none_iff_forall_ne_some]
    intro slot hslot
    obtain ⟨symbol, hsymbol, -⟩ := h.slot?_eq_some.1 hslot
    rw [findIn?, hslot, Option.bind_some, hsymbol] at hfind
    cases hfind

/-- The index finds what a scan of all symbols finds. -/
theorem Indexed.findIn?_eq_find? (h : table.Indexed) (id : Nat) (name : String) :
    table.findIn? id name =
      table.symbols.find? fun symbol => symbol.scope == id && symbol.name == name := by
  cases hfind : table.symbols.find? fun symbol => symbol.scope == id && symbol.name == name with
  | none =>
      rw [h.findIn?_eq_none]
      intro symbol hmem hname hscope
      simpa [hname, hscope] using List.find?_eq_none.1 hfind symbol hmem
  | some symbol =>
      have htest := List.find?_some hfind
      simp only [Bool.and_eq_true, beq_iff_eq] at htest
      exact h.findIn?_eq_some.2 ⟨List.mem_of_find?_eq_some hfind, htest.2, htest.1⟩

theorem mem_of_lookup? (h : table.lookup? name = some symbol) : symbol ∈ table.symbols := by
  obtain ⟨id, _, hfind⟩ := List.exists_of_findSome?_eq_some h
  exact mem_of_findIn? hfind

theorem Indexed.name_of_lookup? (h : table.Indexed) (hlookup : table.lookup? name = some symbol) :
    symbol.name = name := by
  obtain ⟨id, _, hfind⟩ := List.exists_of_findSome?_eq_some hlookup
  exact h.name_of_findIn? hfind

/-! ## Declaring symbols -/

theorem declare_eq_ok {added : Symbol} :
    table.declare symbol = .ok (added, table') ↔
      table.slot? table.scope symbol.name = none ∧
        added = { symbol with level := table.level, scope := table.scope } ∧
        table' = table.add symbol := by
  unfold declare
  cases hslot : table.slot? table.scope symbol.name with
  | some slot => simp
  | none =>
      simp only [Except.ok.injEq, Prod.mk.injEq, true_and]
      exact and_congr eq_comm eq_comm

theorem slot?_add (symbol : Symbol) (id : Nat) (name : String) :
    (table.add symbol).slot? id name =
      if name = symbol.name ∧ id = table.scope then some table.symbols.length
      else table.slot? id name := by
  rw [slot?, add, List.lookup_cons]
  by_cases hkey : name = symbol.name ∧ id = table.scope
  · rw [if_pos hkey, hkey.1, hkey.2, beq_self_eq_true]
  · have hne : ((name, id) == (symbol.name, table.scope)) = false := by
      rw [beq_eq_false_iff_ne]
      exact fun heq => hkey (Prod.mk.inj heq)
    rw [if_neg hkey, hne]
    rfl

/-- A declaration adds one symbol, and what could be found before is found in its old place. -/
theorem Indexed.findIn?_add (h : table.Indexed) (symbol : Symbol) (id : Nat) (name : String) :
    (table.add symbol).findIn? id name =
      if name = symbol.name ∧ id = table.scope then
        some { symbol with level := table.level, scope := table.scope }
      else table.findIn? id name := by
  rw [findIn?, slot?_add]
  by_cases hkey : name = symbol.name ∧ id = table.scope
  · rw [if_pos hkey, if_pos hkey, Option.bind_some]
    exact List.getElem?_concat_length
  · rw [if_neg hkey, if_neg hkey, findIn?]
    cases hslot : table.slot? id name with
    | none => rfl
    | some slot =>
        obtain ⟨found, hfound, -⟩ := h.slot?_eq_some.1 hslot
        have hlt : slot < table.symbols.length := (List.getElem?_eq_some_iff.1 hfound).1
        exact List.getElem?_append_left hlt

theorem Indexed.findIn?_add_of_ne (h : table.Indexed) (hid : id ≠ table.scope) :
    (table.add symbol).findIn? id name = table.findIn? id name := by
  rw [h.findIn?_add, if_neg fun hkey => hid hkey.2]

/-- A key of a longer list is an old one or the last one. -/
theorem getElem?_concat_eq_some {keys : List (String × Nat)} {last key : String × Nat} :
    (keys ++ [last])[slot]? = some key ↔
      keys[slot]? = some key ∨ slot = keys.length ∧ key = last := by
  rw [List.getElem?_append]
  by_cases hlt : slot < keys.length
  · rw [if_pos hlt]
    exact ⟨.inl, fun h => h.resolve_right fun hlast => absurd hlast.1 (Nat.ne_of_lt hlt)⟩
  · rw [if_neg hlt, List.getElem?_eq_none (Nat.le_of_not_lt hlt), List.getElem?_singleton]
    by_cases hlast : slot = keys.length
    · simp [hlast, eq_comm]
    · have hne : slot - keys.length ≠ 0 := by omega
      simp [hlast, hne]

/-- A symbol with a new key keeps the index in step with the list. -/
theorem Indexed.add (h : table.Indexed) (hfree : table.slot? table.scope symbol.name = none) :
    (table.add symbol).Indexed := by
  rintro ⟨name, id⟩ slot
  have hkeys : (table.add symbol).symbols.map Symbol.key =
      table.symbols.map Symbol.key ++ [(symbol.name, table.scope)] := by
    simp [Table.add, Symbol.key]
  rw [hkeys, getElem?_concat_eq_some, ← h, List.length_map]
  change (table.add symbol).slot? id name = some slot ↔ table.slot? id name = some slot ∨ _
  rw [slot?_add]
  by_cases hkey : name = symbol.name ∧ id = table.scope
  · rw [if_pos hkey, hkey.1, hkey.2, hfree]
    simp [eq_comm]
  · rw [if_neg hkey, Prod.mk.injEq]
    exact ⟨.inl, fun hslot => hslot.resolve_right fun hlast => hkey hlast.2⟩

/-- Symbols of different names are declared one after the other. -/
theorem Indexed.foldl_add {symbols : List Symbol} (h : table.Indexed)
    (hfree : ∀ symbol ∈ symbols, table.slot? table.scope symbol.name = none)
    (hnames : (symbols.map (·.name)).Nodup) : (symbols.foldl Table.add table).Indexed := by
  induction symbols generalizing table with
  | nil => exact h
  | cons symbol rest ih =>
      obtain ⟨hnew, hrest⟩ := List.nodup_cons.1 hnames
      refine ih (h.add (hfree symbol List.mem_cons_self)) (fun other hother => ?_) hrest
      have hne : other.name ≠ symbol.name := fun heq =>
        hnew (List.mem_map.2 ⟨other, hother, heq⟩)
      rw [slot?_add, if_neg fun hkey => hne hkey.1]
      exact hfree other (List.mem_cons_of_mem _ hother)

/-- The table without its innermost scope. -/
def drop (table : Table) : Table :=
  { table with scopes := table.scopes.tail }

/-! ## Defining functions -/

/-- The table after the function of the innermost scope has got its entry. -/
def bindEntry (table : Table) (defined : Symbol) : Table :=
  { table with
    symbols := table.symbols.map fun old =>
      if old.scope == table.scope && old.name == defined.name then defined else old }

theorem defineFunction?_eq_some {entry : Word} {defined : Symbol} :
    table.defineFunction? name entry = some (defined, table') ↔
      ∃ slot found, table.slot? table.scope name = some slot ∧
        table.symbols[slot]? = some found ∧ found.cls = .function ∧
        defined = { found with value := entry, defined := true } ∧
        table' = { table with symbols := table.symbols.set slot defined } := by
  simp only [defineFunction?, Option.bind_eq_bind, Option.bind_eq_some_iff]
  refine exists_congr fun slot => ?_
  rw [← exists_and_left]
  refine exists_congr fun found => ?_
  by_cases hcls : found.cls = .function
  · simp only [hcls, if_true, Option.pure_def, Option.some.injEq, Prod.mk.injEq, true_and]
    refine and_congr_right fun _ => and_congr_right fun _ => ?_
    constructor
    · rintro ⟨rfl, rfl⟩
      exact ⟨rfl, rfl⟩
    · rintro ⟨rfl, rfl⟩
      exact ⟨rfl, rfl⟩
  · simp [hcls]

/-- What is no function of the innermost scope gets no entry. -/
theorem defineFunction?_eq_none {entry : Word}
    (h : ∀ found, table.findIn? table.scope name = some found → found.cls ≠ .function) :
    table.defineFunction? name entry = none := by
  rw [Option.eq_none_iff_forall_ne_some]
  rintro ⟨defined, table'⟩ hdefine
  obtain ⟨slot, found, hslot, hfound, hcls, -⟩ := defineFunction?_eq_some.1 hdefine
  exact h found (Option.bind_eq_some_iff.2 ⟨slot, hslot, hfound⟩) hcls

/-- The slot of a key is the only one that is changed for it. -/
theorem Indexed.set_slot (h : table.Indexed) {found defined : Symbol}
    (hslot : table.slot? table.scope defined.name = some slot)
    (hfound : table.symbols[slot]? = some found) :
    { table with symbols := table.symbols.set slot defined } = table.bindEntry defined := by
  obtain ⟨symbol, hsymbol, hname, hscope⟩ := h.slot?_eq_some.1 hslot
  rw [hfound] at hsymbol
  cases hsymbol
  refine congrArg (fun symbols => { table with symbols }) (List.ext_getElem? fun other => ?_)
  rw [List.getElem?_set, List.getElem?_map]
  by_cases hother : slot = other
  · have hlt : slot < table.symbols.length := (List.getElem?_eq_some_iff.1 hfound).1
    subst hother
    rw [if_pos rfl, if_pos hlt, hfound, Option.map_some, if_pos (by simp [hname, hscope])]
  · rw [if_neg hother]
    cases hold : table.symbols[other]? with
    | none => rfl
    | some old =>
        have hkey : ¬ (old.scope == table.scope && old.name == defined.name) = true := by
          intro htest
          simp only [Bool.and_eq_true, beq_iff_eq] at htest
          have hagain := h.slot?_eq_some.2 ⟨old, hold, htest.2, htest.1⟩
          exact hother (Option.some.inj (hslot.symm.trans hagain))
        rw [Option.map_some, if_neg hkey]

theorem Indexed.defineFunction?_eq_some (h : table.Indexed) {entry : Word} {defined : Symbol} :
    table.defineFunction? name entry = some (defined, table') ↔
      ∃ found, table.findIn? table.scope name = some found ∧ found.cls = .function ∧
        defined = { found with value := entry, defined := true } ∧
        table' = table.bindEntry defined := by
  have hset : ∀ {slot found}, table.slot? table.scope name = some slot →
      table.symbols[slot]? = some found →
      { table with
        symbols := table.symbols.set slot { found with value := entry, defined := true } } =
      table.bindEntry { found with value := entry, defined := true } := by
    intro slot found hslot hfound
    have hname : found.name = name :=
      h.name_of_findIn? (Option.bind_eq_some_iff.2 ⟨slot, hslot, hfound⟩)
    subst hname
    exact @Indexed.set_slot table slot h found { found with value := entry, defined := true } hslot
      hfound
  rw [Table.defineFunction?_eq_some]
  constructor
  · rintro ⟨slot, found, hslot, hfound, hcls, rfl, rfl⟩
    exact ⟨found, Option.bind_eq_some_iff.2 ⟨slot, hslot, hfound⟩, hcls, rfl, hset hslot hfound⟩
  · rintro ⟨found, hfind, hcls, rfl, rfl⟩
    obtain ⟨slot, hslot, hfound⟩ := Option.bind_eq_some_iff.1 hfind
    exact ⟨slot, found, hslot, hfound, hcls, rfl, (hset hslot hfound).symm⟩

theorem Indexed.defineFunction?_eq (h : table.Indexed) {found : Symbol} {entry : Word}
    (hfind : table.findIn? table.scope name = some found) (hcls : found.cls = .function) :
    table.defineFunction? name entry =
      some ({ found with value := entry, defined := true },
        table.bindEntry { found with value := entry, defined := true }) :=
  h.defineFunction?_eq_some.2 ⟨found, hfind, hcls, rfl, rfl⟩

/-- Lookups find the new symbol where they found the old one. -/
theorem findIn?_bindEntry (defined : Symbol) (id : Nat) (name : String) :
    (table.bindEntry defined).findIn? id name =
      (table.findIn? id name).map fun old =>
        if old.scope == table.scope && old.name == defined.name then defined else old := by
  rw [findIn?, findIn?, Option.map_bind]
  exact congrArg _ (funext fun _ => List.getElem?_map)

/-- A symbol that takes the place of one with the same key leaves the index as it should be. -/
theorem Indexed.bindEntry (h : table.Indexed) {defined : Symbol}
    (hscope : defined.scope = table.scope) : (table.bindEntry defined).Indexed := by
  have hkeys : (table.bindEntry defined).symbols.map Symbol.key =
      table.symbols.map Symbol.key := by
    rw [Table.bindEntry, List.map_map]
    refine List.map_congr_left fun old _ => ?_
    rw [Function.comp_apply]
    split
    next htest =>
      simp only [Bool.and_eq_true, beq_iff_eq] at htest
      rw [Symbol.key, Symbol.key, htest.1, htest.2, hscope]
    next => rfl
  intro key slot
  rw [hkeys]
  exact h key slot

end Table

end WordC.Symbol
