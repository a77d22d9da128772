import WordC.Proofs.Language.Spine
import WordC.Proofs.Target.Resolve

/-!
# Points of a file

A point stands between two declarations or statements. It knows which scopes are open there, by
their numbers, and what has been declared so far and in which scope. Where the variables of a
function get the next free slot, those of the scopes that are open never share one: a block leaves
its slots behind when its scope is closed.
-/

namespace WordC.Syntax

structure Point where
  /-- The scopes that are open inside of a function, the innermost first. -/
  scopes : List Nat
  /-- The scope that was opened last. -/
  last : Nat
  /-- The parameters and local variables of all functions so far, the first one first, with their
  scopes. -/
  declared : List (String × Nat)

namespace Point

/-- In front of a file the scope of its own names has been opened, and no other. -/
def initial : Point :=
  { scopes := [], last := 1, declared := [] }

def enter (p : Point) : Point :=
  { p with scopes := (p.last + 1) :: p.scopes, last := p.last + 1 }

def leave (p : Point) : Point :=
  { p with scopes := p.scopes.tail }

def declare (p : Point) (name : String) : Point :=
  { p with declared := p.declared ++ [(name, p.scopes.headD 0)] }

def declareAll (p : Point) (names : List String) : Point :=
  names.foldl declare p

/-- The points from here to behind the last of the names. -/
def declaring (p : Point) : List String → List Point
  | [] => [p]
  | name :: names => p :: (p.declare name).declaring names

end Point

/-- The variables of the declarations at the start of a block. -/
def declaredNames (declarations : List Declaration) : List String :=
  (declarations.flatMap Declaration.declarators).map (·.name)

namespace Stmt

mutual

/-- The point behind a statement. -/
def behind : Stmt → Point → Point
  | block declarations body, p =>
      (bodyBehind body (p.enter.declareAll (declaredNames declarations))).leave
  | ifThen _ consequence, p => consequence.behind p
  | ifElse _ consequence alternative, p => alternative.behind (consequence.behind p)
  | whileLoop _ body, p => body.behind p
  | _, p => p

def bodyBehind : List Stmt → Point → Point
  | [], p => p
  | statement :: rest, p => bodyBehind rest (statement.behind p)

end

mutual

/-- The points in a statement. -/
def points : Stmt → Point → List Point
  | block declarations body, p =>
      p.enter.declaring (declaredNames declarations) ++
        bodyPoints body (p.enter.declareAll (declaredNames declarations))
  | ifThen _ consequence, p => consequence.points p
  | ifElse _ consequence alternative, p =>
      consequence.points p ++ alternative.points (consequence.behind p)
  | whileLoop _ body, p => body.points p
  | _, p => [p]

def bodyPoints : List Stmt → Point → List Point
  | [], p => [p]
  | statement :: rest, p => p :: (statement.points p ++ bodyPoints rest (statement.behind p))

end

end Stmt

/-- The point behind the parameters of a function. -/
def Heading.inside (heading : Heading) (p : Point) : Point :=
  p.enter.declareAll heading.parameters.names

/-- The points in the body of a function. The parameters have the same scope as its outermost
block. -/
def Heading.points (heading : Heading) (declarations : List Declaration) (body : List Stmt)
    (p : Point) : List Point :=
  (heading.inside p).declaring (declaredNames declarations) ++
    Stmt.bodyPoints body ((heading.inside p).declareAll (declaredNames declarations))

def Item.behind (p : Point) : Item → Point
  | .function heading declarations body =>
      (Stmt.bodyBehind body
        ((heading.inside p).declareAll (declaredNames declarations))).leave
  | _ => p

def File.behind (file : File) (p : Point) : Point :=
  file.foldl Item.behind p

/-! ## Slots -/

/-- The offsets of as many local variables, with `used` slots in use before. -/
def slots (used count : Nat) : List Word :=
  (List.range' (used + 1) count).map Word.ofCount

/-- The offsets of the parameters of a function, which lie below the saved base pointer and the
return address. -/
def parameterOffsets (arity : Nat) : List Word :=
  (List.range arity).map fun index => Word.ofCount index - (Word.ofCount arity + 1)

namespace Stmt

mutual

/-- The offsets of the variables of a statement, with `used` slots in use around it. -/
def slots (used : Nat) : Stmt → List Word
  | block declarations body =>
      Syntax.slots used (declaredNames declarations).length ++
        bodySlots (used + (declaredNames declarations).length) body
  | ifThen _ consequence => consequence.slots used
  | ifElse _ consequence alternative => consequence.slots used ++ alternative.slots used
  | whileLoop _ body => body.slots used
  | _ => []

def bodySlots (used : Nat) : List Stmt → List Word
  | [] => []
  | statement :: rest => statement.slots used ++ bodySlots used rest

end

end Stmt

theorem length_slots (used count : Nat) : (slots used count).length = count := by
  rw [slots, List.length_map, List.length_range']

theorem slots_append (used first second : Nat) :
    slots used (first + second) = slots used first ++ slots (used + first) second := by
  rw [slots, slots, slots, ← List.map_append, ← List.range'_append_1]
  congr 3
  omega

theorem length_parameterOffsets (arity : Nat) : (parameterOffsets arity).length = arity := by
  rw [parameterOffsets, List.length_map, List.length_range]

/-! ## What is in scope -/

namespace Point

variable {p q : Point} {parameters names : List String} {name : String} {used : Nat}
  {offsets more : List Word} {new : List (String × Nat)}

theorem declareAll_eq (p : Point) (names : List String) :
    p.declareAll names =
      { p with declared := p.declared ++ names.map (·, p.scopes.headD 0) } := by
  induction names generalizing p with
  | nil => simp [declareAll]
  | cons name names ih =>
      change (p.declare name).declareAll names = _
      rw [ih]
      simp [declare]

theorem declareAll_append (p : Point) (names more : List String) :
    p.declareAll (names ++ more) = (p.declareAll names).declareAll more :=
  List.foldl_append

theorem prefix_declareAll (p : Point) (names : List String) :
    p.declared <+: (p.declareAll names).declared := by
  rw [declareAll_eq]
  exact List.prefix_append _ _

/-- The names in scope and their offsets, if `offsets` are those of all that has been declared. -/
def entries (p : Point) (offsets : List Word) : List (String × Word) :=
  ((p.declared.zip offsets).filter (·.1.2 ∈ p.scopes)).map fun entry => (entry.1.1, entry.2)

/-- There is an offset for each declaration, and no scope has a number that is yet to come. -/
structure Tallied (p : Point) (offsets : List Word) : Prop where
  length : offsets.length = p.declared.length
  declaredLe : ∀ entry ∈ p.declared, entry.2 ≤ p.last
  scopesLe : ∀ id ∈ p.scopes, id ≤ p.last

/-- In a function with these parameters, the names in scope have the offsets of the parameters and
of the first slots. -/
structure Framed (parameters : List String) (used : Nat) (p : Point) (offsets : List Word) : Prop
    extends Tallied p offsets where
  entries : ∃ locals : List String, locals.length = used ∧
    p.entries offsets =
      (parameters ++ locals).zip (parameterOffsets parameters.length ++ slots 0 used)

theorem Framed.enter (h : Framed parameters used p offsets) :
    Framed parameters used p.enter offsets where
  length := h.length
  declaredLe := fun entry hentry => Nat.le_succ_of_le (h.declaredLe entry hentry)
  scopesLe := List.forall_mem_cons.2
    ⟨Nat.le_refl _, fun id hid => Nat.le_succ_of_le (h.scopesLe id hid)⟩
  entries := by
    obtain ⟨locals, hlocals, hentries⟩ := h.entries
    refine ⟨locals, hlocals, Eq.trans (congrArg (List.map _) ?_) hentries⟩
    refine List.filter_congr fun entry hentry => ?_
    have hle := h.declaredLe _ (List.of_mem_zip hentry).1
    have hne : entry.1.2 ≠ p.last + 1 := by omega
    simp [Point.enter, hne]

/-- Where the scopes do not change, more declarations add their entries if their scope is open. -/
theorem entries_append (hlength : offsets.length = p.declared.length)
    (hscopes : q.scopes = p.scopes) (hdeclared : q.declared = p.declared ++ new) :
    q.entries (offsets ++ more) =
      p.entries offsets ++
        ((new.zip more).filter (·.1.2 ∈ p.scopes)).map fun entry => (entry.1.1, entry.2) := by
  rw [entries, entries, hscopes, hdeclared, List.zip_append hlength.symm, List.filter_append,
    List.map_append]

theorem declared_declareAll (p : Point) (names : List String) :
    (p.declareAll names).declared = p.declared ++ names.map (·, p.scopes.headD 0) := by
  rw [declareAll_eq]

theorem scopes_declareAll (p : Point) (names : List String) :
    (p.declareAll names).scopes = p.scopes := by
  rw [declareAll_eq]

theorem headD_mem_scopes (hscopes : p.scopes ≠ []) : p.scopes.headD 0 ∈ p.scopes := by
  obtain ⟨id, outer, hid⟩ := List.exists_cons_of_ne_nil hscopes
  rw [hid]
  exact List.mem_cons_self

theorem entries_declareAll (hlength : offsets.length = p.declared.length)
    (hscopes : p.scopes ≠ []) (names : List String) (more : List Word) :
    (p.declareAll names).entries (offsets ++ more) = p.entries offsets ++ names.zip more := by
  have hopen : ((names.map (·, p.scopes.headD 0)).zip more).filter (·.1.2 ∈ p.scopes) =
      (names.map (·, p.scopes.headD 0)).zip more := by
    refine List.filter_eq_self.2 fun entry hentry => ?_
    obtain ⟨name, -, hname⟩ := List.mem_map.1 (List.of_mem_zip hentry).1
    rw [← hname]
    exact decide_eq_true (headD_mem_scopes hscopes)
  rw [entries_append hlength (scopes_declareAll p names) (declared_declareAll p names), hopen,
    List.zip_map_left, List.map_map]
  exact congrArg (p.entries offsets ++ ·) (List.map_id (names.zip more))

theorem Tallied.declareAll (h : Tallied p offsets) (hscopes : p.scopes ≠ []) {names : List String}
    (hlength : more.length = names.length) :
    Tallied (p.declareAll names) (offsets ++ more) where
  length := by
    rw [declared_declareAll, List.length_append, List.length_append, h.length, List.length_map,
      hlength]
  declaredLe := fun entry hentry => by
    rw [declareAll_eq]
    rw [declared_declareAll] at hentry
    rcases List.mem_append.1 hentry with hold | hnew
    · exact h.declaredLe entry hold
    · obtain ⟨name, -, rfl⟩ := List.mem_map.1 hnew
      exact h.scopesLe _ (headD_mem_scopes hscopes)
  scopesLe := fun id hid => by
    rw [declareAll_eq] at hid ⊢
    exact h.scopesLe id hid

theorem Framed.declareAll (h : Framed parameters used p offsets) (hscopes : p.scopes ≠ [])
    (names : List String) :
    Framed parameters (used + names.length) (p.declareAll names)
      (offsets ++ slots used names.length) := by
  obtain ⟨locals, hlocals, hentries⟩ := h.entries
  have hlength : (parameters ++ locals).length =
      (parameterOffsets parameters.length ++ slots 0 used).length := by
    rw [List.length_append, List.length_append, length_parameterOffsets, length_slots, hlocals]
  refine ⟨h.toTallied.declareAll hscopes (length_slots _ _), locals ++ names, ?_, ?_⟩
  · rw [List.length_append, hlocals]
  · rw [entries_declareAll h.length hscopes, hentries, slots_append, Nat.zero_add,
      ← List.append_assoc parameters, ← List.append_assoc, List.zip_append hlength]

/-- Between the points a construct has been read that closed the scopes it opened. -/
structure Encloses (p q : Point) (new : List (String × Nat)) : Prop where
  scopes : q.scopes = p.scopes
  last : p.last ≤ q.last
  declared : q.declared = p.declared ++ new
  inner : ∀ entry ∈ new, p.last < entry.2 ∧ entry.2 ≤ q.last

theorem Encloses.refl (p : Point) : Encloses p p [] :=
  ⟨rfl, Nat.le_refl _, (List.append_nil _).symm, by simp⟩

theorem Encloses.trans {r : Point} {new' : List (String × Nat)} (h : Encloses p q new)
    (h' : Encloses q r new') : Encloses p r (new ++ new') where
  scopes := h'.scopes.trans h.scopes
  last := Nat.le_trans h.last h'.last
  declared := by rw [h'.declared, h.declared, List.append_assoc]
  inner := fun entry hentry => by
    have hlast := h.last
    have hlast' := h'.last
    rcases List.mem_append.1 hentry with hmem | hmem
    · have := h.inner entry hmem
      omega
    · have := h'.inner entry hmem
      omega

/-- A scope is opened and closed again. -/
theorem Encloses.scope {names : List String} (h : Encloses (p.enter.declareAll names) q new) :
    Encloses p q.leave (names.map (·, p.last + 1) ++ new) := by
  rw [declareAll_eq] at h
  have hlast : p.last + 1 ≤ q.last := h.last
  refine
    { scopes := congrArg List.tail h.scopes
      last := Nat.le_of_succ_le hlast
      declared := h.declared.trans (List.append_assoc _ _ _)
      inner := fun entry hentry => ?_ }
  rcases List.mem_append.1 hentry with hmem | hmem
  · obtain ⟨name, -, rfl⟩ := List.mem_map.1 hmem
    exact ⟨Nat.lt_succ_self _, hlast⟩
  · obtain ⟨hlt, hle⟩ := h.inner entry hmem
    exact ⟨Nat.lt_of_succ_lt hlt, hle⟩

/-- What is declared in a scope that is closed again is not in scope behind. -/
theorem Framed.behind (h : Framed parameters used p offsets) (hencloses : Encloses p q new)
    (hlength : more.length = new.length) : Framed parameters used q (offsets ++ more) where
  length := by
    rw [hencloses.declared, List.length_append, List.length_append, h.length, hlength]
  declaredLe := fun entry hentry => by
    rw [hencloses.declared] at hentry
    rcases List.mem_append.1 hentry with hold | hnew
    · exact Nat.le_trans (h.declaredLe entry hold) hencloses.last
    · exact (hencloses.inner entry hnew).2
  scopesLe := fun id hid =>
    Nat.le_trans (h.scopesLe id (hencloses.scopes ▸ hid)) hencloses.last
  entries := by
    obtain ⟨locals, hlocals, hentries⟩ := h.entries
    refine ⟨locals, hlocals, ?_⟩
    have hnone : (new.zip more).filter (·.1.2 ∈ p.scopes) = [] := by
      refine List.filter_eq_nil_iff.2 fun entry hentry hopen => ?_
      have hlt := (hencloses.inner _ (List.of_mem_zip hentry).1).1
      have hle := h.scopesLe _ (of_decide_eq_true hopen)
      omega
    rw [entries_append h.length hencloses.scopes hencloses.declared, hnone, hentries]
    exact List.append_nil _

/-! ## The points of a construct -/

/-- At the point `q` as many slots are in use; it stands in front of `r`, where all that has been
declared has these offsets. -/
structure Precedes (parameters : List String) (used : Nat) (q r : Point) (offsets : List Word) :
    Prop where
  declared : q.declared <+: r.declared
  framed : ∃ first, first <+: offsets ∧ Framed parameters used q first

/-- The points in front of `r` at which at most `most` slots are in use, and once that many. -/
structure Spans (parameters : List String) (points : List Point) (most : Nat) (r : Point)
    (offsets : List Word) : Prop where
  all : ∀ q ∈ points, ∃ used ≤ most, Precedes parameters used q r offsets
  some : ∃ q ∈ points, Precedes parameters most q r offsets

variable {points points' : List Point} {most most' : Nat} {r : Point} {offsets' : List Word}

theorem Framed.precedes (h : Framed parameters used p offsets) :
    Precedes parameters used p p offsets :=
  ⟨List.prefix_refl _, offsets, List.prefix_refl _, h⟩

theorem Precedes.extend (h : Precedes parameters used p q offsets)
    (hdeclared : q.declared <+: r.declared) (hoffsets : offsets <+: offsets') :
    Precedes parameters used p r offsets' :=
  ⟨h.declared.trans hdeclared,
    let ⟨first, hfirst, hframed⟩ := h.framed
    ⟨first, hfirst.trans hoffsets, hframed⟩⟩

theorem Framed.spans (h : Framed parameters used p offsets) :
    Spans parameters [p] used p offsets where
  all := by
    rintro q hq
    rw [List.mem_singleton.1 hq]
    exact ⟨used, Nat.le_refl _, h.precedes⟩
  some := ⟨p, List.mem_singleton.2 rfl, h.precedes⟩

theorem Spans.extend (h : Spans parameters points most q offsets)
    (hdeclared : q.declared <+: r.declared) (hoffsets : offsets <+: offsets') :
    Spans parameters points most r offsets' where
  all := fun p hp =>
    let ⟨used, hused, hprecedes⟩ := h.all p hp
    ⟨used, hused, hprecedes.extend hdeclared hoffsets⟩
  some :=
    let ⟨p, hp, hprecedes⟩ := h.some
    ⟨p, hp, hprecedes.extend hdeclared hoffsets⟩

theorem Spans.append (h : Spans parameters points most q offsets)
    (h' : Spans parameters points' most' q offsets) :
    Spans parameters (points ++ points') (max most most') q offsets where
  all := by
    intro p hp
    rcases List.mem_append.1 hp with hp | hp
    · obtain ⟨used, hused, hprecedes⟩ := h.all p hp
      exact ⟨used, Nat.le_trans hused (Nat.le_max_left _ _), hprecedes⟩
    · obtain ⟨used, hused, hprecedes⟩ := h'.all p hp
      exact ⟨used, Nat.le_trans hused (Nat.le_max_right _ _), hprecedes⟩
  some := by
    rcases Nat.le_total most most' with hle | hle
    · obtain ⟨p, hp, hprecedes⟩ := h'.some
      rw [Nat.max_eq_right hle]
      exact ⟨p, List.mem_append_right _ hp, hprecedes⟩
    · obtain ⟨p, hp, hprecedes⟩ := h.some
      rw [Nat.max_eq_left hle]
      exact ⟨p, List.mem_append_left _ hp, hprecedes⟩

theorem Framed.spans_declaring (h : Framed parameters used p offsets) (hscopes : p.scopes ≠ [])
    (names : List String) :
    Spans parameters (p.declaring names) (used + names.length) (p.declareAll names)
      (offsets ++ slots used names.length) := by
  induction names generalizing p used offsets with
  | nil =>
      rw [slots, List.length_nil, List.range'_zero, List.map_nil, List.append_nil]
      exact h.spans
  | cons name names ih =>
      have hrest := ih (h.declareAll hscopes [name]) hscopes
      have hfirst := h.spans.extend (prefix_declareAll p (name :: names))
        (List.prefix_append offsets (slots used (names.length + 1)))
      rw [List.append_assoc, List.length_singleton, ← slots_append, Nat.add_assoc,
        Nat.add_comm 1] at hrest
      have hspans := hfirst.append hrest
      rw [Nat.max_eq_right (Nat.le_add_right _ _)] at hspans
      exact hspans

end Point

/-! ## Statements -/

namespace Stmt

open Point (Encloses Framed Spans)

variable {p : Point} {parameters : List String} {used : Nat} {offsets : List Word}

theorem length_declaredNames (declarations : List Declaration) :
    (declaredNames declarations).length =
      (declarations.flatMap Declaration.declarators).length := by
  rw [declaredNames, List.length_map]

mutual

/-- A statement closes the scopes that it opens. -/
theorem exists_encloses (used : Nat) : ∀ (statement : Stmt) (p : Point),
    ∃ new, Encloses p (statement.behind p) new ∧ (statement.slots used).length = new.length
  | block declarations body, p => by
      obtain ⟨new, hencloses, hlength⟩ :=
        exists_bodyEncloses (used + (declaredNames declarations).length) body
          (p.enter.declareAll (declaredNames declarations))
      refine ⟨_, hencloses.scope, ?_⟩
      rw [slots, List.length_append, length_slots, hlength, List.length_append, List.length_map]
  | ifThen _ consequence, p => by
      rw [behind, slots]
      exact exists_encloses used consequence p
  | ifElse _ consequence alternative, p => by
      obtain ⟨new, hfirst, hlength⟩ := exists_encloses used consequence p
      obtain ⟨new', hsecond, hlength'⟩ := exists_encloses used alternative (consequence.behind p)
      refine ⟨new ++ new', ?_, ?_⟩
      · rw [behind]
        exact hfirst.trans hsecond
      · rw [slots, List.length_append, List.length_append, hlength, hlength']
  | whileLoop _ body, p => by
      rw [behind, slots]
      exact exists_encloses used body p
  | empty, p | leave _, p | assign _ _, p | evaluate _, p => by
      simp only [behind, slots]
      exact ⟨[], .refl p, rfl⟩

theorem exists_bodyEncloses (used : Nat) : ∀ (body : List Stmt) (p : Point),
    ∃ new, Encloses p (bodyBehind body p) new ∧ (bodySlots used body).length = new.length
  | [], p => ⟨[], .refl p, rfl⟩
  | statement :: rest, p => by
      obtain ⟨new, hfirst, hlength⟩ := exists_encloses used statement p
      obtain ⟨new', hsecond, hlength'⟩ := exists_bodyEncloses used rest (statement.behind p)
      refine ⟨new ++ new', ?_, ?_⟩
      · rw [bodyBehind]
        exact hfirst.trans hsecond
      · rw [bodySlots, List.length_append, List.length_append, hlength, hlength']

end

/-- Behind a statement the same names are in scope as in front of it. -/
theorem framed_behind (h : Framed parameters used p offsets) (statement : Stmt) :
    Framed parameters used (statement.behind p) (offsets ++ statement.slots used) :=
  let ⟨_, hencloses, hlength⟩ := statement.exists_encloses used p
  h.behind hencloses hlength

theorem prefix_behind (statement : Stmt) (p : Point) :
    p.declared <+: (statement.behind p).declared :=
  let ⟨_, hencloses, _⟩ := statement.exists_encloses 0 p
  hencloses.declared ▸ List.prefix_append _ _

theorem prefix_bodyBehind (body : List Stmt) (p : Point) :
    p.declared <+: (bodyBehind body p).declared :=
  let ⟨_, hencloses, _⟩ := exists_bodyEncloses 0 body p
  hencloses.declared ▸ List.prefix_append _ _

theorem scopes_behind (statement : Stmt) (p : Point) : (statement.behind p).scopes = p.scopes :=
  let ⟨_, hencloses, _⟩ := statement.exists_encloses 0 p
  hencloses.scopes

theorem scopes_bodyBehind (body : List Stmt) (p : Point) : (bodyBehind body p).scopes = p.scopes :=
  let ⟨_, hencloses, _⟩ := exists_bodyEncloses 0 body p
  hencloses.scopes

/-- The declarations of a block and the statements behind them. -/
theorem spans_contents (h : Framed parameters used p offsets) (hscopes : p.scopes ≠ [])
    (names : List String) (body : List Stmt)
    (hbody : ∀ {q : Point} {used : Nat} {offsets : List Word}, Framed parameters used q offsets →
      q.scopes ≠ [] → Spans parameters (bodyPoints body q) (bodyPeak used body) (bodyBehind body q)
        (offsets ++ bodySlots used body)) :
    Spans parameters (p.declaring names ++ bodyPoints body (p.declareAll names))
      (bodyPeak (used + names.length) body) (bodyBehind body (p.declareAll names))
      (offsets ++ (Syntax.slots used names.length ++ bodySlots (used + names.length) body)) := by
  have hscopes' : (p.declareAll names).scopes ≠ [] := by
    rw [Point.scopes_declareAll]
    exact hscopes
  have hdeclaring := (h.spans_declaring hscopes names).extend
    (prefix_bodyBehind body (p.declareAll names))
    (List.prefix_append _ (bodySlots (used + names.length) body))
  have hspans := hdeclaring.append (hbody (h.declareAll hscopes names) hscopes')
  rw [Nat.max_eq_right (le_bodyPeak _ body), List.append_assoc] at hspans
  exact hspans

mutual

theorem spans_points (parameters : List String) : ∀ (statement : Stmt) {p : Point} {used : Nat}
    {offsets : List Word}, Framed parameters used p offsets → p.scopes ≠ [] →
    Spans parameters (statement.points p) (statement.peak used) (statement.behind p)
      (offsets ++ statement.slots used)
  | block declarations body, p, used, offsets, h, _ => by
      have hspans := spans_contents h.enter (List.cons_ne_nil _ _) (declaredNames declarations) body
        (spans_bodyPoints parameters body)
      rw [points, peak, behind, slots, ← length_declaredNames]
      exact hspans.extend (List.prefix_refl _) (List.prefix_refl _)
  | ifThen _ consequence, p, used, offsets, h, hscopes => by
      rw [points, peak, behind, slots]
      exact spans_points parameters consequence h hscopes
  | ifElse _ consequence alternative, p, used, offsets, h, hscopes => by
      have hfirst := spans_points parameters consequence h hscopes
      have hsecond := spans_points parameters alternative (framed_behind h consequence)
        (by rwa [scopes_behind])
      rw [points, peak, behind, slots]
      rw [List.append_assoc] at hsecond
      refine (hfirst.extend (prefix_behind alternative _) ?_).append hsecond
      rw [← List.append_assoc]
      exact List.prefix_append _ _
  | whileLoop _ body, p, used, offsets, h, hscopes => by
      rw [points, peak, behind, slots]
      exact spans_points parameters body h hscopes
  | empty, p, used, offsets, h, _ | leave _, p, used, offsets, h, _
  | assign _ _, p, used, offsets, h, _ | evaluate _, p, used, offsets, h, _ => by
      simp only [points, peak, behind, slots, List.append_nil]
      exact h.spans

theorem spans_bodyPoints (parameters : List String) : ∀ (body : List Stmt) {p : Point}
    {used : Nat} {offsets : List Word}, Framed parameters used p offsets → p.scopes ≠ [] →
    Spans parameters (bodyPoints body p) (bodyPeak used body) (bodyBehind body p)
      (offsets ++ bodySlots used body)
  | [], p, used, offsets, h, _ => by
      rw [bodyPoints, bodyPeak, bodyBehind, bodySlots, List.append_nil]
      exact h.spans
  | statement :: rest, p, used, offsets, h, hscopes => by
      have hstatement := spans_points parameters statement h hscopes
      have hrest := spans_bodyPoints parameters rest (framed_behind h statement)
        (by rwa [scopes_behind])
      rw [List.append_assoc] at hrest
      have hprefix : offsets ++ statement.slots used <+:
          offsets ++ (statement.slots used ++ bodySlots used rest) := by
        rw [← List.append_assoc]
        exact List.prefix_append _ _
      have hbehind := (hstatement.extend (prefix_bodyBehind rest _) hprefix).append hrest
      have hfront := h.spans.extend ((prefix_behind statement p).trans (prefix_bodyBehind rest _))
        (List.prefix_append offsets (statement.slots used ++ bodySlots used rest))
      have hspans := hfront.append hbehind
      rw [Nat.max_eq_right (Nat.le_trans (le_peak used statement) (Nat.le_max_left _ _))] at hspans
      rw [bodyPoints, bodyPeak, bodyBehind, bodySlots]
      exact hspans

end

end Stmt

/-! ## Files -/

/-- The offsets of the parameters and local variables of a declaration. -/
def Item.offsets : Item → List Word
  | .function heading declarations body =>
      parameterOffsets heading.arity ++ (Stmt.block declarations body).slots 0
  | _ => []

def File.offsets (file : File) : List Word :=
  file.flatMap Item.offsets

namespace Point

variable {p : Point} {offsets : List Word}

theorem framed_initial : Framed [] 0 initial [] :=
  ⟨⟨rfl, nofun, nofun⟩, [], rfl, rfl⟩

/-- Between two functions nothing is in scope, and in front of a body its parameters are. -/
theorem Framed.inside (h : Framed [] 0 p offsets) (heading : Heading) :
    Framed heading.parameters.names 0 (heading.inside p)
      (offsets ++ parameterOffsets heading.arity) := by
  obtain ⟨locals, hlocals, hentries⟩ := h.enter.entries
  obtain rfl := List.length_eq_zero_iff.1 hlocals
  refine ⟨h.enter.toTallied.declareAll (List.cons_ne_nil _ _) (length_parameterOffsets _), [], rfl,
    ?_⟩
  rw [Heading.inside, entries_declareAll h.enter.length (List.cons_ne_nil _ _), hentries]
  simp [slots, parameterOffsets, Heading.arity]

theorem exists_encloses_item (p : Point) (item : Item) :
    ∃ new, Encloses p (item.behind p) new ∧ item.offsets.length = new.length := by
  cases item with
  | function heading declarations body =>
      let names := declaredNames declarations
      obtain ⟨new, hencloses, hlength⟩ :=
        Stmt.exists_bodyEncloses (0 + names.length) body ((heading.inside p).declareAll names)
      rw [Heading.inside, ← declareAll_append] at hencloses
      refine ⟨(heading.parameters.names ++ names).map (·, p.last + 1) ++ new, ?_, ?_⟩
      · rw [Item.behind, Heading.inside, ← declareAll_append]
        exact hencloses.scope
      · rw [Item.offsets, Stmt.slots, List.length_append, List.length_append, List.length_append,
          List.length_map, List.length_append, length_parameterOffsets, length_slots, hlength,
          Nat.add_assoc]
        rfl
  | _ =>
      simp only [Item.behind, Item.offsets]
      exact ⟨[], .refl p, rfl⟩

theorem exists_encloses_file (file : File) (p : Point) :
    ∃ new, Encloses p (file.behind p) new ∧ file.offsets.length = new.length := by
  induction file generalizing p with
  | nil => exact ⟨[], .refl p, rfl⟩
  | cons item file ih =>
      obtain ⟨new, hitem, hlength⟩ := exists_encloses_item p item
      obtain ⟨new', hfile, hlength'⟩ := ih (item.behind p)
      refine ⟨new ++ new', hitem.trans hfile, ?_⟩
      rw [List.length_append, ← hlength, ← hlength']
      exact List.length_append

/-- In the body of a function of the file. -/
theorem spans_function (before after : File) (heading : Heading)
    (declarations : List Declaration) (body : List Stmt) :
    let file := before ++ .function heading declarations body :: after
    Spans heading.parameters.names
      (heading.points declarations body (before.behind initial))
      ((Stmt.block declarations body).peak 0) (file.behind initial) file.offsets := by
  intro file
  obtain ⟨new, hbefore, hlength⟩ := exists_encloses_file before initial
  have hframed := (framed_initial.behind hbefore hlength).inside heading
  have hspans := Stmt.spans_contents hframed
    (by rw [Heading.inside, scopes_declareAll]; exact List.cons_ne_nil _ _)
    (declaredNames declarations) body (Stmt.spans_bodyPoints heading.parameters.names body)
  obtain ⟨new', hafter, hlength'⟩ := exists_encloses_file after
    ((Item.function heading declarations body).behind (before.behind initial))
  have hfile : file.behind initial = after.behind
      ((Item.function heading declarations body).behind (before.behind initial)) :=
    List.foldl_append
  have hoffsets : file.offsets = before.offsets ++ parameterOffsets heading.arity ++
      (Stmt.block declarations body).slots 0 ++ after.offsets := by
    simp [file, File.offsets, Item.offsets]
  rw [hfile, hoffsets, Stmt.peak, ← Stmt.length_declaredNames]
  refine hspans.extend ?_ ?_
  · rw [hafter.declared]
    exact List.prefix_append _ _
  · rw [List.nil_append]
    exact List.prefix_append _ _

end Point

end WordC.Syntax
