import WordC.Proofs.Target.Meaning
import WordC.Proofs.Target.Outlines

/-!
# Resolved files

Item by item, the names of a file come to stand for its constants, variables and functions: each
variable has a word of data that is zero at first, and each function a section with what its body
resolves to. From this a file has the value of its sections.
-/

namespace WordC.Syntax

open WordC.Core (Binding Env Place Section Store)

variable {constants : Values} {objects : List Object} {functions : List (String × Function)}
  {visible : List String} {globals globals' : Scope Binding} {data words : List Word} {name : String}
  {start : Nat}

/-! ## Names -/

/-- All names of a scope stand for the same in another one. -/
def Extends (globals globals' : Scope Binding) : Prop :=
  ∀ name binding, globals.lookup name = some binding → globals'.lookup name = some binding

theorem extends_of_declare? {binding : Binding}
    (h : globals.declare? name binding = some globals') : Extends globals globals' :=
  fun _ _ hfound => Scope.lookup_kept_of_declare? h hfound

theorem Extends.trans {globals'' : Scope Binding} (h : Extends globals globals')
    (h' : Extends globals' globals'') : Extends globals globals'' :=
  fun name binding hlookup => h' name binding (h name binding hlookup)

/-- A new name, which is no constant yet. If it is that of a variable, no other has its address. -/
theorem Names.declare {binding : Binding} (values : Values) (h : Names constants globals)
    (hdeclare : globals.declare? name binding = some globals')
    (hfresh : constants.lookup name = none)
    (hconstant : ∀ word, binding = .constant word → values.lookup name = some word)
    (hobject : ∀ place, binding = .object place → (∃ address, place = .global address) ∧
      ∀ other, globals.lookup other ≠ some (.object place)) :
    Names (constants ++ values) globals' where
  constant := by
    intro other word hother
    rw [List.lookup_append]
    rcases Scope.lookup_cases_of_declare? hdeclare hother with ⟨rfl, hbinding⟩ | hold
    · rw [hfresh, hconstant word hbinding.symm]
      rfl
    · rw [h.constant other word hold]
      rfl
  isGlobal := by
    intro other place hother
    rcases Scope.lookup_cases_of_declare? hdeclare hother with ⟨-, hbinding⟩ | hold
    · exact (hobject place hbinding.symm).1
    · exact h.isGlobal other place hold
  apart := by
    intro first second place hfirst hsecond
    rcases Scope.lookup_cases_of_declare? hdeclare hfirst with ⟨rfl, hbinding⟩ | holdFirst
    · rcases Scope.lookup_cases_of_declare? hdeclare hsecond with ⟨rfl, -⟩ | holdSecond
      · rfl
      · exact absurd holdSecond ((hobject place hbinding.symm).2 second)
    · rcases Scope.lookup_cases_of_declare? hdeclare hsecond with ⟨rfl, hbinding⟩ | holdSecond
      · exact absurd holdFirst ((hobject place hbinding.symm).2 first)
      · exact h.apart first second place holdFirst holdSecond

/-- The names of a file stand for its constants and variables. The data begins at `start`. -/
structure Known (constants : Values) (objects : List Object) (start : Nat) (data : List Word)
    (globals : Scope Binding) : Prop where
  names : Names constants globals
  isSome : ∀ name, (constants.lookup name).isSome → (globals.lookup name).isSome
  address : ∀ object ∈ objects, ∃ address,
    globals.lookup object.declarator.name = some (.object (.global address))
  zero : ∀ name address, globals.lookup name = some (.object (.global address)) →
    start ≤ address ∧ data[address - start]? = some 0
  declared : ∀ name place, globals.lookup name = some (.object place) →
    ∃ object ∈ objects, object.declarator.name = name

namespace Known

theorem empty (start : Nat) : Known [] [] start [] [] where
  names :=
    { constant := fun _ _ h => by cases h
      isGlobal := fun _ _ h => by cases h
      apart := fun _ _ _ h => by cases h }
  isSome := fun _ h => by cases h
  address := fun _ h => absurd h List.not_mem_nil
  zero := fun _ _ h => by cases h
  declared := fun _ _ h => by cases h

theorem append (h : Known constants objects start data globals) (words : List Word) :
    Known constants objects start (data ++ words) globals where
  names := h.names
  isSome := h.isSome
  address := h.address
  zero := by
    intro name address hlookup
    obtain ⟨hstart, hzero⟩ := h.zero name address hlookup
    obtain ⟨hlt, -⟩ := List.getElem?_eq_some_iff.1 hzero
    exact ⟨hstart, by rw [List.getElem?_append_left hlt, hzero]⟩
  declared := h.declared

/-- A name that has not been declared is no constant. -/
theorem lookup_constants_eq_none (h : Known constants objects start data globals)
    (hnew : globals.lookup name = none) : constants.lookup name = none := by
  cases hsome : constants.lookup name with
  | none => rfl
  | some word =>
      have hdeclared := h.isSome name (Option.isSome_of_eq_some hsome)
      rw [hnew] at hdeclared
      cases hdeclared

/-- The address behind the data is that of no variable. -/
theorem lookup_ne_behind (h : Known constants objects start data globals) (name : String) :
    globals.lookup name ≠ some (.object (.global (start + data.length))) := by
  intro hlookup
  obtain ⟨-, hzero⟩ := h.zero name _ hlookup
  obtain ⟨hlt, -⟩ := List.getElem?_eq_some_iff.1 hzero
  omega

/-- A new name. If it is that of a variable, the variable has the next word of data. -/
theorem declare {binding : Binding} (values : Values) (added : List Object) (words : List Word)
    (h : Known constants objects start data globals)
    (hdeclare : globals.declare? name binding = some globals')
    (hvalues : ∀ other word, values.lookup other = some word → other = name)
    (hconstant : ∀ word, binding = .constant word → values.lookup name = some word)
    (hadded : ∀ object ∈ added, object.declarator.name = name ∧
      ∃ address, binding = .object (.global address))
    (hobject : ∀ place, binding = .object place → place = .global (start + data.length) ∧
      words[0]? = some 0 ∧ ∃ object ∈ added, object.declarator.name = name) :
    Known (constants ++ values) (objects ++ added) start (data ++ words) globals' where
  names := by
    have hnew : globals.lookup name = none := (Scope.declare?_eq_some.1 hdeclare).1
    refine h.names.declare values hdeclare (h.lookup_constants_eq_none hnew) hconstant
      fun place hplace => ?_
    obtain ⟨rfl, -⟩ := hobject place hplace
    exact ⟨⟨_, rfl⟩, h.lookup_ne_behind⟩
  isSome := by
    intro other hother
    rw [List.lookup_append, Option.isSome_or, Bool.or_eq_true] at hother
    rcases hother with hold | hadded
    · obtain ⟨found, hfound⟩ := Option.isSome_iff_exists.1 (h.isSome other hold)
      exact Option.isSome_of_eq_some (Scope.lookup_kept_of_declare? hdeclare hfound)
    · obtain ⟨word, hword⟩ := Option.isSome_iff_exists.1 hadded
      rw [hvalues other word hword]
      exact Option.isSome_of_eq_some (Scope.lookup_self_of_declare? hdeclare)
  address := by
    intro object hmem
    rcases List.mem_append.1 hmem with hold | hnew
    · obtain ⟨address, haddress⟩ := h.address object hold
      exact ⟨address, Scope.lookup_kept_of_declare? hdeclare haddress⟩
    · obtain ⟨hname, address, hbinding⟩ := hadded object hnew
      refine ⟨address, ?_⟩
      rw [hname, Scope.lookup_self_of_declare? hdeclare, hbinding]
  zero := by
    intro other address hother
    rcases Scope.lookup_cases_of_declare? hdeclare hother with ⟨-, hbinding⟩ | hold
    · obtain ⟨hplace, hzero, -⟩ := hobject _ hbinding.symm
      cases hplace
      refine ⟨Nat.le_add_right _ _, ?_⟩
      rw [Nat.add_sub_cancel_left, List.getElem?_append_right (Nat.le_refl _), Nat.sub_self, hzero]
    · exact (h.append words).zero other address hold
  declared := by
    intro other place hother
    rcases Scope.lookup_cases_of_declare? hdeclare hother with ⟨rfl, hbinding⟩ | hold
    · obtain ⟨-, -, object, hmem, hname⟩ := hobject place hbinding.symm
      exact ⟨object, List.mem_append_right _ hmem, hname⟩
    · obtain ⟨object, hmem, hname⟩ := h.declared other place hold
      exact ⟨object, List.mem_append_left _ hmem, hname⟩

theorem function {arity : Nat} (h : Known constants objects start data globals)
    (hdeclare : globals.declare? name (.function arity) = some globals') :
    Known constants objects start data globals' := by
  have hnext := declare [] [] [] h hdeclare
    (fun _ _ hnone => by cases hnone) (fun _ hbinding => by cases hbinding)
    (fun _ hmem => absurd hmem List.not_mem_nil) (fun _ hbinding => by cases hbinding)
  simpa only [List.append_nil] using hnext

theorem constant {word : Word} (h : Known constants objects start data globals)
    (hdeclare : globals.declare? name (.constant word) = some globals') :
    Known (constants ++ [(name, word)]) objects start data globals' := by
  have hnext := declare [(name, word)] [] [] h hdeclare
    (fun other found hfound => ?_) (fun found hbinding => ?_)
    (fun _ hmem => absurd hmem List.not_mem_nil) (fun _ hbinding => by cases hbinding)
  · simpa only [List.append_nil] using hnext
  · exact congrArg Prod.fst (List.mem_singleton.1 (mem_of_lookup hfound))
  · cases hbinding
    exact List.lookup_cons_self

theorem object {declarator : Declarator} (visible : List String)
    (h : Known constants objects start data globals)
    (hdeclare : globals.declare? declarator.name
      (.object (.global (start + data.length))) = some globals') :
    Known constants (objects ++ [⟨declarator, visible⟩]) start (data ++ [0]) globals' := by
  have hnext := declare [] [⟨declarator, visible⟩] [0] h hdeclare
    (fun _ _ hnone => by cases hnone) (fun _ hbinding => by cases hbinding)
    (fun object hmem => ?_) (fun place hbinding => ?_)
  · simpa only [List.append_nil] using hnext
  · obtain rfl := List.mem_singleton.1 hmem
    exact ⟨rfl, _, rfl⟩
  · cases hbinding
    exact ⟨rfl, rfl, _, List.mem_singleton.2 rfl, rfl⟩

end Known

/-! ## Sections -/

/-- The names at a place outside of functions. -/
structure Outside (globals : Scope Binding) (visible : List String) (inner : Scope Binding) :
    Prop where
  among : Extends inner globals
  visible : ∀ callee ∈ visible, ∃ arity, inner.lookup callee = some (.function arity)

theorem Outside.mono {inner : Scope Binding} (h : Outside globals visible inner)
    (hextends : Extends globals globals') : Outside globals' visible inner :=
  ⟨h.among.trans hextends, h.visible⟩

/-- A function of the file and the body of its section. -/
structure Links (globals : Scope Binding) (entry : String × Function) (body : String × Core.Stmt) :
    Prop where
  name : entry.1 = body.1
  arity : globals.lookup entry.1 = some (.function entry.2.parameters.length)
  resolves : ∃ inner start statements, Outside globals entry.2.visible inner ∧
    resolveFunction? inner start entry.2.parameters entry.2.declarations entry.2.body =
      some statements ∧
    body.2 = .ofList statements

theorem Links.mono {entry : String × Function} {body : String × Core.Stmt}
    (h : Links globals entry body) (hextends : Extends globals globals') :
    Links globals' entry body where
  name := h.name
  arity := hextends _ _ h.arity
  resolves := by
    obtain ⟨inner, start, statements, houtside, hresolve, hbody⟩ := h.resolves
    exact ⟨inner, start, statements, houtside.mono hextends, hresolve, hbody⟩

/-- The variables of a file that have initial values and the initializers among its sections. -/
inductive Initializes (globals : Scope Binding) : List Object → List Section → Prop where
  | nil : Initializes globals [] []
  | function {name : String} {arity slots : Nat} {body : Core.Stmt} {objects : List Object}
      {sections : List Section} (h : Initializes globals objects sections) :
      Initializes globals objects (.function name arity slots body :: sections)
  | zero {object : Object} {objects : List Object} {sections : List Section}
      (hnone : object.declarator.initial = none) (h : Initializes globals objects sections) :
      Initializes globals (object :: objects) sections
  | initial {object : Object} {e : Expr} {inner : Scope Binding} {start address : Nat}
      {value : Core.Expr} {objects : List Object} {sections : List Section}
      (hinitial : object.declarator.initial = some e)
      (hlookup : globals.lookup object.declarator.name = some (.object (.global address)))
      (houtside : Outside globals object.visible inner)
      (hresolve : e.resolve? { locals := [], globals := inner } start = some value)
      (h : Initializes globals objects sections) :
      Initializes globals (object :: objects) (.initializer address value :: sections)

namespace Initializes

variable {sections : List Section}

theorem mono (h : Initializes globals objects sections) (hextends : Extends globals globals') :
    Initializes globals' objects sections := by
  induction h with
  | nil => exact .nil
  | function _ ih => exact .function ih
  | zero hnone _ ih => exact .zero hnone ih
  | initial hinitial hlookup houtside hresolve _ ih =>
      exact .initial hinitial (hextends _ _ hlookup) (houtside.mono hextends) hresolve ih

theorem append {objects' : List Object} {sections' : List Section}
    (h : Initializes globals objects sections) (h' : Initializes globals objects' sections') :
    Initializes globals (objects ++ objects') (sections ++ sections') := by
  induction h with
  | nil => exact h'
  | function _ ih => exact .function ih
  | zero hnone _ ih => exact .zero hnone ih
  | initial hinitial hlookup houtside hresolve _ ih =>
      exact .initial hinitial hlookup houtside hresolve ih

theorem addFunction (h : Initializes globals objects sections) (name : String) (arity slots : Nat)
    (body : Core.Stmt) :
    Initializes globals objects (sections ++ [.function name arity slots body]) := by
  have hnext : Initializes globals (objects ++ [])
      (sections ++ [.function name arity slots body]) := h.append (.function .nil)
  rwa [List.append_nil] at hnext

end Initializes

theorem bodies_append (front back : List Section) :
    Core.bodies (front ++ back) = Core.bodies front ++ Core.bodies back := by
  induction front with
  | nil => rfl
  | cons part rest ih =>
      cases part with
      | function name arity slots body => exact congrArg ((name, body) :: ·) ih
      | initializer address value => exact ih

/-! ## Outlines -/

/-- An outline of the file up to some place, and what the file says up to there. -/
structure Linked (constants : Values) (objects : List Object) (functions : List (String × Function))
    (start : Nat) (outline : Outline) : Prop where
  known : Known constants objects start outline.data outline.globals
  functions : List.Forall₂ (Links outline.globals) functions (Core.bodies outline.sections)
  initials : Initializes outline.globals objects outline.sections

/-- The functions that an outline has declared up to some place. -/
def Sees (visible : List String) (outline : Outline) : Prop :=
  ∀ callee ∈ visible, ∃ arity, outline.globals.lookup callee = some (.function arity)

variable {outline outline' : Outline}

theorem Sees.mono (h : Sees visible outline) (hextends : Extends outline.globals outline'.globals) :
    Sees visible outline' := by
  intro callee hmem
  obtain ⟨arity, hlookup⟩ := h callee hmem
  exact ⟨arity, hextends _ _ hlookup⟩

namespace Linked

theorem empty (start : Nat) : Linked [] [] [] start .empty where
  known := .empty start
  functions := .nil
  initials := .nil

/-- Names have been declared, and nothing else. -/
theorem extend {constants' : Values} {awaiting : List String}
    (h : Linked constants objects functions start outline)
    (hknown : Known constants' objects start outline.data globals)
    (hextends : Extends outline.globals globals) :
    Linked constants' objects functions start { outline with globals, awaiting } where
  known := hknown
  functions := h.functions.imp fun _ _ hlinks => hlinks.mono hextends
  initials := h.initials.mono hextends

theorem addVariable {declarator : Declarator}
    (h : Linked constants objects functions start outline) (hsees : Sees visible outline)
    (hvariable : outline.addVariable? start declarator = some outline') :
    Linked constants (objects ++ [⟨declarator, visible⟩]) functions start outline' ∧
      Extends outline.globals outline'.globals := by
  obtain ⟨globals, hdeclare, hinitial⟩ := Outline.addVariable?_cases hvariable
  have hextends := extends_of_declare? hdeclare
  have hknown := h.known.object visible hdeclare
  have hfunctions := h.functions.imp fun _ _ hlinks => Links.mono hlinks hextends
  have hinitials := h.initials.mono hextends
  rcases hinitial with ⟨hvalue, rfl⟩ | ⟨value, resolved, hvalue, hresolved, rfl⟩
  · refine ⟨⟨hknown, hfunctions, ?_⟩, hextends⟩
    have hzero : Initializes globals [⟨declarator, visible⟩] [] := .zero hvalue .nil
    have hnext := hinitials.append hzero
    rwa [List.append_nil] at hnext
  · refine ⟨⟨hknown.append value.data, ?_, ?_⟩, hextends⟩
    · change List.Forall₂ _ _ (Core.bodies (outline.sections ++ _))
      rw [bodies_append]
      rw [Core.bodies, Core.bodies, List.append_nil]
      exact hfunctions
    · refine hinitials.append (.initial hvalue ?_ ⟨fun _ _ h => h, ?_⟩ hresolved .nil)
      · exact Scope.lookup_self_of_declare? hdeclare
      · exact fun callee hmem => by
          obtain ⟨arity, hlookup⟩ := hsees callee hmem
          exact ⟨arity, hextends _ _ hlookup⟩

theorem addVariables {declarators : List Declarator}
    (h : Linked constants objects functions start outline) (hsees : Sees visible outline)
    (hvariables : outline.variables? start declarators = some outline') :
    Linked constants (objects ++ declarators.map (⟨·, visible⟩)) functions start outline' ∧
      Extends outline.globals outline'.globals := by
  induction declarators generalizing outline objects with
  | nil =>
      cases hvariables
      exact ⟨by simpa using h, fun _ _ h => h⟩
  | cons declarator rest ih =>
      obtain ⟨next, hnext, hrest⟩ := Option.bind_eq_some_iff.1 hvariables
      obtain ⟨hlinked, hextends⟩ := h.addVariable hsees hnext
      obtain ⟨hlast, hextends'⟩ := ih hlinked (hsees.mono hextends) hrest
      refine ⟨?_, hextends.trans hextends'⟩
      rw [List.append_assoc] at hlast
      exact hlast

theorem addEnumerators {members : List Enumerator} {value : Word}
    (h : Linked constants objects functions start outline)
    (henumerators : outline.enumerators? value members = some outline') :
    Linked (constants ++ enumeratorValues value members) objects functions start outline' ∧
      Extends outline.globals outline'.globals := by
  induction members generalizing outline value constants with
  | nil =>
      cases henumerators
      exact ⟨by simpa [enumeratorValues] using h, fun _ _ h => h⟩
  | cons enumerator rest ih =>
      simp only [Outline.enumerators?, Option.bind_eq_bind, Option.bind_eq_some_iff] at henumerators
      obtain ⟨globals, hdeclare, hrest⟩ := henumerators
      have hextends := extends_of_declare? hdeclare
      obtain ⟨hlast, hextends'⟩ := ih (h.extend (h.known.constant hdeclare) hextends) hrest
      refine ⟨?_, hextends.trans hextends'⟩
      rw [List.append_assoc] at hlast
      exact hlast

theorem addFunction {arity : Nat} {awaiting : List String}
    (h : Linked constants objects functions start outline)
    (hdeclare : outline.globals.declare? name (.function arity) = some globals) :
    Linked constants objects functions start { outline with globals, awaiting } ∧
      Extends outline.globals globals ∧ globals.lookup name = some (.function arity) := by
  have hextends := extends_of_declare? hdeclare
  exact ⟨h.extend (h.known.function hdeclare) hextends, hextends,
    Scope.lookup_self_of_declare? hdeclare⟩

theorem define {arity : Nat} (h : Linked constants objects functions start outline)
    (hdefine : outline.define? name arity = some outline') :
    Linked constants objects functions start outline' ∧
      Extends outline.globals outline'.globals ∧
      outline'.globals.lookup name = some (.function arity) := by
  unfold Outline.define? at hdefine
  by_cases hawaiting : name ∈ outline.awaiting
  · rw [if_pos hawaiting] at hdefine
    by_cases hlookup : outline.globals.lookup name = some (.function arity)
    · rw [if_pos hlookup] at hdefine
      cases hdefine
      exact ⟨h.extend h.known fun _ _ h => h, fun _ _ h => h, hlookup⟩
    · rw [if_neg hlookup] at hdefine
      cases hdefine
  · rw [if_neg hawaiting] at hdefine
    obtain ⟨globals, hdeclare, hsome⟩ := Option.bind_eq_some_iff.1 hdefine
    cases hsome
    exact h.addFunction hdeclare

end Linked

theorem Sees.cons {arity : Nat} (h : Sees visible outline)
    (hlookup : outline.globals.lookup name = some (.function arity)) :
    Sees ([name] ++ visible) outline := by
  intro callee hmem
  rcases List.mem_cons.1 hmem with rfl | hmem
  · exact ⟨arity, hlookup⟩
  · exact h callee hmem

/-- An item adds what it says to what the file has said before. -/
theorem Linked.item {item : Item} (h : Linked constants objects functions start outline)
    (hsees : Sees visible outline) (hresolve : item.resolve? start outline = some outline') :
    Linked (constants ++ item.constants) (objects ++ item.declarators.map (⟨·, visible⟩))
        (functions ++ item.functions (item.declared ++ visible)) start outline' ∧
      Sees (item.declared ++ visible) outline' := by
  cases item with
  | enumeration tag members trailing =>
      obtain ⟨hlinked, hextends⟩ := h.addEnumerators hresolve
      simp only [Item.constants, Item.declarators, Item.functions, Item.declared, List.map_nil,
        List.append_nil, List.nil_append]
      exact ⟨hlinked, hsees.mono hextends⟩
  | objects declaration =>
      obtain ⟨hlinked, hextends⟩ := h.addVariables hsees hresolve
      simp only [Item.constants, Item.declarators, Item.functions, Item.declared,
        List.append_nil, List.nil_append]
      exact ⟨hlinked, hsees.mono hextends⟩
  | prototype heading =>
      obtain ⟨before, hbefore, hprototype⟩ := Option.bind_eq_some_iff.1 hresolve
      obtain ⟨hlinked, hextends⟩ := h.addVariables hsees hbefore
      obtain ⟨globals, hdeclare, hsome⟩ := Option.bind_eq_some_iff.1 hprototype
      cases hsome
      obtain ⟨hnamed, hextends', hlookup⟩ := hlinked.addFunction hdeclare
      simp only [Item.constants, Item.declarators, Item.functions, Item.declared,
        List.append_nil]
      exact ⟨hnamed, ((hsees.mono hextends).mono hextends').cons hlookup⟩
  | function heading declarations body =>
      simp only [Item.resolve?, Option.bind_eq_bind, Option.bind_eq_some_iff,
        Option.some.injEq] at hresolve
      obtain ⟨before, hbefore, named, hdefine, statements, hbody, rfl⟩ := hresolve
      obtain ⟨hlinked, hextends⟩ := h.addVariables hsees hbefore
      obtain ⟨hnamed, hextends', hlookup⟩ := hlinked.define hdefine
      have hvisible := ((hsees.mono hextends).mono hextends').cons hlookup
      simp only [Item.constants, Item.declarators, Item.functions, Item.declared,
        List.append_nil]
      refine ⟨⟨hnamed.known.append _, ?_, ?_⟩, hvisible⟩
      · change List.Forall₂ _ _ (Core.bodies (named.sections ++ _))
        rw [bodies_append]
        refine List.rel_append hnamed.functions (.cons ⟨rfl, hlookup, ?_⟩ .nil)
        exact ⟨_, _, statements, ⟨fun _ _ h => h, hvisible⟩, hbody, rfl⟩
      · exact hnamed.initials.addFunction _ _ _ _

theorem Linked.file {file : File} (h : Linked constants objects functions start outline)
    (hsees : Sees visible outline) (hresolve : file.resolve? start outline = some outline') :
    Linked (constants ++ file.constants) (objects ++ file.objects visible)
      (functions ++ file.functions visible) start outline' := by
  induction file generalizing outline constants objects functions visible with
  | nil =>
      cases hresolve
      simpa [File.constants, File.objects, File.functions] using h
  | cons item rest ih =>
      obtain ⟨next, hnext, hrest⟩ := Option.bind_eq_some_iff.1 hresolve
      obtain ⟨hlinked, hseen⟩ := h.item hsees hnext
      have hlast := ih hlinked hseen hrest
      rw [List.append_assoc, List.append_assoc, List.append_assoc] at hlast
      exact hlast

/-! ## Evaluation -/

/-- A function is looked up among the bodies of sections as it is in the file. -/
theorem lookup_of_links {bodies : List (String × Core.Stmt)}
    (h : List.Forall₂ (Links globals) functions bodies) (name : String) :
    (functions.lookup name = none ∧ bodies.lookup name = none) ∨
      ∃ function body, functions.lookup name = some function ∧ bodies.lookup name = some body ∧
        Links globals (name, function) (name, body) := by
  induction h with
  | nil => exact .inl ⟨rfl, rfl⟩
  | @cons entry named functions bodies hlinks _ ih =>
      obtain ⟨key, function⟩ := entry
      obtain ⟨key', body⟩ := named
      obtain rfl : key = key' := hlinks.name
      rw [List.lookup_cons, List.lookup_cons]
      cases hname : name == key with
      | true =>
          obtain rfl := eq_of_beq hname
          exact .inr ⟨function, body, rfl, rfl, hlinks⟩
      | false => exact ih

variable {file : File} {sections : List Section} {depth : Nat}

/-- Functions do the same in the file and in its sections, however deep calls may be nested. -/
theorem invokesAgree (hnames : Names file.constants globals)
    (hlinks : List.Forall₂ (Links globals) (file.functions []) (Core.bodies sections))
    (depth : Nat) :
    InvokesAgree globals (file.invoke depth) (Core.invoke sections depth) := by
  induction depth with
  | zero => exact fun callee arguments _ values store _ => .stop
  | succ depth ih =>
      intro callee arguments harity values store hagree
      rw [File.invoke, Core.invoke]
      rcases lookup_of_links hlinks callee with
        ⟨hnone, -⟩ | ⟨function, body, hfunction, hbody, hlink⟩
      · rw [hnone]
        exact .undefined
      · obtain ⟨inner, start, statements, houtside, hresolve, rfl⟩ := hlink.resolves
        have hlength : arguments.length = function.parameters.length := by
          have hsame := harity.symm.trans hlink.arity
          simpa using hsame
        have hsetting : Setting file.constants globals function.visible
            { locals := [], globals := inner } := ⟨hnames, houtside.among, houtside.visible⟩
        rw [hfunction, hbody]
        dsimp only
        have hfollows := follows_function depth hsetting ih hresolve hagree hlength
        refine Matches.bind hfollows fun result state inside hafter => ?_
        cases result with
        | none => exact .undefined
        | some word =>
            refine .ok ⟨hafter.congr hnames fun place hplace => ?_, fun place hplace => ?_⟩
            · cases place with
              | global address => rfl
              | slot index => cases hplace
              | parameter distance => cases hplace
            · cases place with
              | global address => cases hplace
              | slot index => rfl
              | parameter distance => rfl

theorem follows_storeInitials (hnames : Names file.constants globals)
    (hinvokes : InvokesAgree globals (file.invoke depth) (Core.invoke sections depth))
    {parts : List Section} (h : Initializes globals objects parts) :
    Follows (GlobalsAgree globals) (fun _ => GlobalsAgree globals)
      (file.storeInitials depth objects) (Core.storeInitials sections depth parts) := by
  induction h with
  | nil => exact .pure () fun _ _ h => h
  | function _ ih => exact ih
  | @zero object objects parts hnone _ ih =>
      rw [File.storeInitials, hnone]
      exact ih
  | @initial object e inner start address value objects parts hinitial hlookup houtside hresolve _
      ih =>
      have hsetting : Setting file.constants globals object.visible
          { locals := [], globals := inner } := ⟨hnames, houtside.among, houtside.visible⟩
      rw [File.storeInitials, hinitial, Core.storeInitials]
      have hvalue : Follows (GlobalsAgree globals) (fun _ => GlobalsAgree globals)
          (e.eval file.constants (File.callsAmong object.visible (file.invoke depth)) [])
          (value.eval (Core.invoke sections depth)) := fun values store hagree =>
        (follows_expr hsetting hinvokes hresolve values store ⟨hagree, .nil⟩).mono
          fun _ _ _ hafter => hafter.globals
      have hassign : ∀ word, Follows (GlobalsAgree globals) (fun _ => GlobalsAgree globals)
          (modify (Scope.assign object.declarator.name word))
          (modify (Store.set (.global address) word)) := fun word =>
        .modify fun _ _ hagree => hagree.assign hnames hlookup word
      exact hvalue.bind fun word => (hassign word).bind fun _ => ih

theorem lookup_zeros {object : Object} (h : object ∈ objects) :
    (objects.map fun object => (object.declarator.name, (0 : Word))).lookup object.declarator.name =
      some 0 := by
  induction objects with
  | nil => cases h
  | cons first rest ih =>
      rw [List.map_cons, List.lookup_cons]
      cases hname : object.declarator.name == first.declarator.name with
      | true => rfl
      | false =>
          rcases List.mem_cons.1 h with rfl | hmem
          · simp at hname
          · exact ih hmem

/-- Evaluations that come to the same have the same value, unless the first has no meaning. -/
theorem Matches.value_eq {σ τ α : Type} {related : α → σ → τ → Prop}
    {outcome : Except Stop (α × σ)} {outcome' : Except Stop (α × τ)}
    (h : Matches related outcome outcome')
    (hdefined : (outcome.map Prod.fst) ≠ .error .undefined) :
    outcome.map Prod.fst = outcome'.map Prod.fst := by
  cases h with
  | undefined => exact absurd rfl hdefined
  | stop => rfl
  | ok _ => rfl

/-- A file has the value of its sections, on a store in which its variables are zero. -/
theorem evaluate_eq {outline : Outline} {store : Store}
    (hlinked : Linked file.constants (file.objects []) (file.functions []) start outline)
    (hmain : outline.globals.lookup "main" = some (.function 0))
    (hstore : ∀ name place, outline.globals.lookup name = some (.object place) → store place = 0)
    (hdefined : file.evaluate depth ≠ .error .undefined) :
    file.evaluate depth = Core.evaluate outline.sections depth store := by
  have hnames := hlinked.known.names
  have hinvokes := invokesAgree hnames hlinked.functions depth
  have hzeros : GlobalsAgree outline.globals
      ((file.objects []).map fun object => (object.declarator.name, 0)) store := by
    constructor
    · intro name place hplace
      obtain ⟨object, hmem, rfl⟩ := hlinked.known.declared name place hplace
      rw [hstore _ place hplace]
      exact lookup_zeros hmem
    · intro name word hword
      cases hsome : List.lookup name _ with
      | none => rfl
      | some value =>
          obtain ⟨object, hmem, heq⟩ := List.mem_map.1 (mem_of_lookup hsome)
          cases heq
          obtain ⟨address, haddress⟩ := hlinked.known.address object hmem
          rw [hword] at haddress
          cases haddress
  have hmatches : Matches (fun _ => GlobalsAgree outline.globals)
      ((file.storeInitials depth (file.objects []) >>= fun _ => file.invoke depth "main" [])
        ((file.objects []).map fun object => (object.declarator.name, 0)))
      ((Core.storeInitials outline.sections depth outline.sections >>= fun _ =>
        Core.invoke outline.sections depth "main" []) store) := by
    refine ((follows_storeInitials hnames hinvokes hlinked.initials).bind
      fun _ values store hagree => ?_) _ _ hzeros
    exact (hinvokes "main" [] hmain values store hagree).mono fun _ _ _ hafter => hafter.1
  exact hmatches.value_eq hdefined

end WordC.Syntax
