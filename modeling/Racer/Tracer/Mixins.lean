import Racer.Tracer.Anchored

namespace Racer
open SkippingWalk

/-! What the walk of `explore_constant` takes, brings along and writes down. -/

section
variable {κ : Type} [DecidableEq κ] (h : Hierarchy κ)

/-- `k` is explored together with the module `a`. -/
def MixesIn (k a : κ) : Prop :=
  ∃ x ∈ sources h k, x.key = some a

/-- Exploring the first constant brings the second along. -/
def Brings : κ → κ → Prop :=
  Relation.TransGen (MixesIn h)

/-- The record of `k` before its sources are written into it. -/
def startRecord (k : κ) : Constant where
  name := finalName h k
  anonymous := (h.modName k).isNone || !namespaceResolves h h.cObject (namespaceOf h k)
  type := classTypeByConstant h k

variable {h} {explore : Exploration κ} {k : κ}

theorem Walks.append {met : List κ} {xs ys : List (Source κ)} {s t u : Constants κ}
    {first second : List (Taken (Source κ) κ)} (walks : Walks explore k met xs s first t)
    (rest : Walks explore k (met ++ inner first) ys t second u) :
    Walks explore k met (xs ++ ys) s (first ++ second) u := by
  induction walks with
  | nil => simpa [inner] using rest
  | skip atX there _ ih => exact .skip atX there (ih rest)
  | take fresh explored _ ih => exact .take fresh explored (ih (by simpa [inner] using rest))

theorem sources_constants : (sources h k).map Source.constant = mixins h k := by
  simp [sources, mixins, ancestorSources_constants, Function.comp_def]

theorem mem_mixins {x : Source κ} (member : x ∈ sources h k) : x.constant ∈ mixins h k :=
  sources_constants (h := h) ▸ List.mem_map_of_mem member

theorem Walks.reads {met : List κ} {xs : List (Source κ)} {s t : Constants κ}
    {taken : List (Taken (Source κ) κ)} (walks : Walks explore k met xs s taken t) :
    Reads Source.key met xs taken := by
  induction walks with
  | nil => exact .nil
  | skip atX there _ ih => exact .skip atX there ih
  | take fresh _ _ ih => exact .take _ fresh ih

omit [DecidableEq κ] in
theorem Explored.nameOf {s t : Constants κ} {new : List κ} (explored : Explored h s t new) {a : κ}
    (known : s.constantMap a ≠ none) : t.nameOf a = s.nameOf a := by
  rw [Constants.nameOf, Constants.nameOf, explored.keeps known]

theorem Constants.modify_nameOf {s : Constants κ} {f : Constant → Constant} (kept : ∀ c, (f c).name = c.name) (a : κ) :
    (s.modify k f).nameOf a = s.nameOf a := by
  by_cases same : a = k
  · subst same
    cases atA : s.constantMap a with
    | none => simp only [Constants.nameOf, Constants.modify, Function.update_self, atA, Option.map_none]
    | some c => simp only [Constants.nameOf, Constants.modify, Function.update_self, atA, Option.map_some, kept]
  · rw [Constants.nameOf, Constants.nameOf, Constants.modify_of_ne same]

/-- What is known stays known under its name, and the records of others stay as they are. -/
theorem Captures.keeps (explores : ExploresWell h explore) {constants : List κ} {s t : Constants κ}
    (captures : Captures explore k constants s t) {a : κ} (known : s.constantMap a ≠ none) :
    t.constantMap a ≠ none ∧ t.nameOf a = s.nameOf a ∧ (a ≠ k → t.constantMap a = s.constantMap a) := by
  induction captures with
  | done => exact ⟨known, rfl, fun _ => rfl⟩
  | @visit s u t met b f member run mentions _ ih =>
    obtain ⟨⟨new, explored⟩, _⟩ := explores _ _ _ _ run
    have there : u.constantMap a ≠ none := by rwa [explored.keeps known]
    obtain ⟨after, named, frame⟩ := ih (Constants.modify_known a there)
    refine ⟨after, ?_, fun other => ?_⟩
    · rw [named, Constants.modify_nameOf mentions.kept, explored.nameOf known]
    · rw [frame other, Constants.modify_of_ne other, explored.keeps known]

/-- The record of `k` after the walk: the names of what was taken, in this order. -/
theorem Walks.record (explores : ExploresWell h explore) {met : List κ} {xs : List (Source κ)} {s t : Constants κ}
    {taken : List (Taken (Source κ) κ)} (walks : Walks explore k met xs s taken t) {c : Constant}
    (atK : s.constantMap k = some c) :
    t.constantMap k =
      some ((taken.map Taken.item).foldl (fun c x => c.write x.role (t.nameOf x.constant)) c) := by
  induction walks generalizing c with
  | nil => exact atK
  | skip _ _ _ ih => exact ih atK
  | @take met x xs s u _ taken t _ run rest ih =>
    obtain ⟨⟨new, explored⟩, known⟩ := explores _ _ _ _ run
    have kept : u.constantMap k = some c := by rw [explored.keeps (by rw [atK]; simp), atK]
    have named : t.nameOf x.constant = u.nameOf x.constant := by
      rw [(rest.captures.keeps explores (Constants.modify_known _ known)).2.1,
        Constants.modify_nameOf fun c => c.write_name _ _]
    rw [ih (Constants.modify_self kept _), List.map_cons, List.foldl_cons, named]

/-- Each constant that was taken has been explored while `k` was. -/
theorem Walks.explored_from (explores : ExploresWell h explore) {met : List κ} {xs : List (Source κ)}
    {s₀ s t : Constants κ} {taken : List (Taken (Source κ) κ)} (walks : Walks explore k met xs s taken t)
    {name : String} {new : List κ} (opened : Opened h k name s₀ s new) {x : Taken (Source κ) κ} (was : x ∈ taken) :
    ∃ v u met more, Opened h k name s₀ v more ∧ explore x.item.constant v = some (u, met) ∧
      x.brought = x.item.brought met ∧ ∀ j ≠ k, u.constantMap j ≠ none → t.constantMap j = u.constantMap j := by
  induction walks generalizing new with
  | nil => cases was
  | skip _ _ _ ih => exact ih opened was
  | @take met y xs s u brought taken t _ run rest ih =>
    obtain ⟨⟨more, explored⟩, _⟩ := explores _ _ _ _ run
    rcases List.mem_cons.mp was with rfl | later
    · refine ⟨s, u, brought, new, opened, run, rfl, fun j other known => ?_⟩
      rw [(rest.captures.keeps explores (Constants.modify_known j known)).2.2 other, Constants.modify_of_ne other]
    · exact ih ((opened.explored explored).modify fun c same => (c.write_name _ _).trans same) later

theorem Walks.known (explores : ExploresWell h explore) {met : List κ} {xs : List (Source κ)} {s t : Constants κ}
    {taken : List (Taken (Source κ) κ)} (walks : Walks explore k met xs s taken t) {x : Taken (Source κ) κ}
    (was : x ∈ taken) : t.constantMap x.item.constant ≠ none := by
  induction walks with
  | nil => cases was
  | skip _ _ _ ih => exact ih was
  | take _ run rest ih =>
    rcases List.mem_cons.mp was with rfl | later
    · exact (rest.captures.keeps explores (Constants.modify_known _ (explores _ _ _ _ run).2)).1
    · exact ih later

/-- After its namespace the record of `k` is the one that the sources are written into. -/
theorem exploreNamespaceOf_record (explores : ExploresWell h explore) {s t : Constants κ}
    (run : exploreNamespaceOf h explore k (s.enter k (initialConstant h k)) = some t) :
    t.constantMap k = some (startRecord h k) := by
  unfold startRecord finalName
  have entered := Constants.enter_self s k (initialConstant h k)
  rcases exploreNamespaceOf_cases run with ⟨named, rfl⟩ | ⟨name, named, namespace'⟩ | ⟨name, u, named, namespace', rfl⟩
  · rw [entered, initialConstant, named]
    rfl
  · obtain ⟨⟨new, explored⟩, resolves⟩ := exploreConstantNamespace_explored explores namespace'
    rw [explored.keeps (by rw [entered]; simp), entered, initialConstant, named]
    simp [← resolves]
  · obtain ⟨⟨new, explored⟩, resolves⟩ := exploreConstantNamespace_explored explores namespace'
    have kept : u.constantMap k = some (initialConstant h k) := by
      rw [explored.keeps (by rw [entered]; simp), entered]
    rw [Constants.modify_self kept, initialConstant, named]
    simp [← resolves]

/-- A constant that is in the map brings nothing along. -/
theorem exploreConstant_known {fuel : Nat} {s t : Constants κ} {met : List κ}
    (run : exploreConstant h fuel k s = some (t, met)) (known : s.constantMap k ≠ none) : t = s ∧ met = [] := by
  cases fuel with
  | zero => cases run
  | succ fuel =>
    unfold exploreConstant at run
    rw [if_pos (Option.isSome_iff_ne_none.mpr known)] at run
    cases run
    exact ⟨rfl, rfl⟩

/-- An exploration of a constant that is not in the map: the namespace first, then one
walk over the sources. -/
theorem exploreConstant_walks {fuel : Nat} {s t : Constants κ} {met : List κ}
    (run : exploreConstant h (fuel + 1) k s = some (t, met)) (unknown : s.constantMap k = none) :
    ∃ u v new taken, exploreNamespaceOf h (exploreConstant h fuel) k (s.enter k (initialConstant h k)) = some u ∧
      Opened h k (finalName h k) s u new ∧ u.constantMap k = some (startRecord h k) ∧
        Walks (exploreConstant h fuel) k [] (sources h k) u taken v ∧ t = v.pushUpdate k ∧
          met = visited taken ++ inner taken := by
  have explores : ExploresWell h (exploreConstant h fuel) := exploreConstant_explored fuel
  unfold exploreConstant at run
  rw [if_neg (by simp [unknown])] at run
  split at run
  next => cases run
  next u namespaced =>
  split at run
  next => cases run
  next v ancestors =>
  split at run
  next => cases run
  next w singletons =>
    cases run
    obtain ⟨new, opened⟩ := exploreNamespaceOf_opened explores (.enter s k (initialConstant h k)) namespaced
    obtain ⟨first, walks, innerFirst, visitedFirst⟩ := exploreAncestors_walks ancestors
    obtain ⟨second, rest, innerBoth, visitedBoth⟩ := exploreSingletonAncestors_walks singletons
    rw [innerFirst] at rest innerBoth
    rw [visitedFirst] at visitedBoth
    refine ⟨u, w.constants, new, first ++ second, namespaced, opened, exploreNamespaceOf_record explores namespaced,
      walks.append rest, rfl, ?_⟩
    rw [innerBoth, visitedBoth]
    simp [inner, visited]

theorem mixesIn_of_source {x : Source κ} (member : x ∈ sources h k) (module_ : x.role ≠ .superclass) :
    MixesIn h k x.constant :=
  ⟨x, member, Source.key_eq_some.mpr ⟨module_, rfl⟩⟩

/-- An exploration reports only what the constant brings along. -/
theorem exploreConstant_brings (fuel : Nat) {k : κ} {s t : Constants κ} {met : List κ}
    (run : exploreConstant h fuel k s = some (t, met)) : ∀ b ∈ met, Brings h k b := by
  induction fuel generalizing k s t met with
  | zero => cases run
  | succ fuel ih =>
    by_cases known : s.constantMap k = none
    · obtain ⟨u, v, new, taken, _, opened, _, walks, rfl, rfl⟩ := exploreConstant_walks run known
      intro b member
      rcases List.mem_append.mp member with here | below
      · obtain ⟨x, was, atX⟩ := List.mem_filterMap.mp here
        exact .single ⟨x.item, walks.reads.sublist.subset (List.mem_map_of_mem was), atX⟩
      · obtain ⟨x, was, brought⟩ := List.mem_flatMap.mp below
        obtain ⟨v', u', met', _, _, explored, same, _⟩ := walks.explored_from (exploreConstant_explored fuel) opened was
        rw [same] at brought
        obtain ⟨module_, there⟩ := Source.mem_brought.mp brought
        have source := walks.reads.sublist.subset (List.mem_map_of_mem was)
        exact .head (mixesIn_of_source source module_) (ih explored b there)
    · obtain ⟨rfl, rfl⟩ := exploreConstant_known run known
      simp

section
variable (h)

/-- `j` was entered by an exploration of its own, to which exploring `k` leads. -/
def EnteredBy (k j : κ) (t : Constants κ) : Prop :=
  ∃ fuel s u met, exploreConstant h fuel j s = some (u, met) ∧ s.constantMap j = none ∧ Suspended h s j ∧
    Relation.ReflTransGen (LeadsTo h) k j ∧ t.constantMap j = u.constantMap j

def EntersWell (explore : Exploration κ) : Prop :=
  ∀ a s t met, explore a s = some (t, met) → Suspended h s a →
    ∀ j, s.constantMap j = none → t.constantMap j ≠ none → EnteredBy h a j t

end

theorem EnteredBy.keep {a j : κ} {t u : Constants κ} (entered : EnteredBy h a j t)
    (leads : Relation.ReflTransGen (LeadsTo h) k a) (kept : u.constantMap j = t.constantMap j) : EnteredBy h k j u := by
  obtain ⟨fuel, s, v, met, run, unknown, suspended, path, same⟩ := entered
  exact ⟨fuel, s, v, met, run, unknown, suspended, leads.trans path, kept.trans same⟩

theorem Captures.enters (explores : ExploresWell h explore) (enters : EntersWell h explore) {constants : List κ}
    (subset : ∀ a ∈ constants, a ∈ mixins h k) {s t u : Constants κ} {new : List κ}
    (captures : Captures explore k constants t u) (opened : Opened h k (finalName h k) s t new)
    (suspended : Suspended h s k) {j : κ} (other : j ≠ k) (unknown : t.constantMap j = none)
    (known : u.constantMap j ≠ none) : EnteredBy h k j u := by
  induction captures generalizing new with
  | done => exact absurd unknown known
  | @visit t v u met a f member run mentions rest ih =>
    obtain ⟨⟨more, explored⟩, _⟩ := explores _ _ _ _ run
    have leads : LeadsTo h k a := .inr (subset a member)
    by_cases here : v.constantMap j = none
    · refine ih ((opened.explored explored).modify fun c name => (mentions.kept c).trans name) ?_ known
      rwa [Constants.modify_of_ne other]
    · have waiting := opened.suspended suspended leads fun misnamed => absurd rfl misnamed
      refine (enters _ _ _ _ run waiting j unknown here).keep (.single leads) ?_
      rw [(rest.keeps explores (Constants.modify_known j here)).2.2 other, Constants.modify_of_ne other]

theorem exploreConstantNamespace_enters (explores : ExploresWell h explore) (enters : EntersWell h explore)
    {name : String} {space : κ} {path : List String} {s t u : Constants κ} {new : List κ} {resolved : Bool}
    (run : exploreConstantNamespace h explore space path t = some (u, resolved))
    (subset : ∀ a ∈ resolvedNamespace h space path, a ∈ resolvedNamespace h h.cObject (namespaceOf h k))
    (renamed : name ≠ finalName h k → Broken h k) (opened : Opened h k name s t new) (suspended : Suspended h s k)
    {j : κ} (unknown : t.constantMap j = none) (known : u.constantMap j ≠ none) : EnteredBy h k j u := by
  induction path generalizing space t new with
  | nil =>
    cases run
    exact absurd unknown known
  | cons fragment path ih =>
    unfold exploreConstantNamespace at run
    cases found : h.constGetAt space fragment with
    | none =>
      simp only [found] at run
      cases run
      exact absurd unknown known
    | some next =>
      simp only [found] at run
      rw [resolvedNamespace_cons found] at subset
      split at run
      next => cases run
      next v met first =>
        obtain ⟨⟨more, explored⟩, _⟩ := explores _ _ _ _ first
        have member := subset next List.mem_cons_self
        by_cases here : v.constantMap j = none
        · exact ih run (fun a later => subset a (List.mem_cons_of_mem next later)) (opened.explored explored) here
        · have waiting := opened.suspended suspended (.inl member) fun misnamed => ⟨renamed misnamed, member⟩
          obtain ⟨⟨rest, after⟩, _⟩ := exploreConstantNamespace_explored explores run
          exact (enters _ _ _ _ first waiting j unknown here).keep (.single (.inl member)) (after.keeps here)

theorem exploreNamespaceOf_enters (explores : ExploresWell h explore) (enters : EntersWell h explore)
    {s t u : Constants κ} {new : List κ} (run : exploreNamespaceOf h explore k t = some u)
    (opened : Opened h k (initialConstant h k).name s t new) (suspended : Suspended h s k) {j : κ} (other : j ≠ k)
    (unknown : t.constantMap j = none) (known : u.constantMap j ≠ none) : EnteredBy h k j u := by
  rcases exploreNamespaceOf_cases run with ⟨_, rfl⟩ | ⟨_, _, namespace'⟩ | ⟨_, v, _, namespace', rfl⟩
  · exact absurd unknown known
  · exact exploreConstantNamespace_enters explores enters namespace' (fun _ member => member)
      initialConstant_misnamed opened suspended unknown known
  · rw [Constants.modify_of_ne other] at known
    exact (exploreConstantNamespace_enters explores enters namespace' (fun _ member => member)
      initialConstant_misnamed opened suspended unknown known).keep .refl (Constants.modify_of_ne other _)

/-- Whatever an exploration enters into the map has been explored itself, and its record
is the one that this exploration has left. -/
theorem exploreConstant_enters (fuel : Nat) : EntersWell h (exploreConstant h fuel) := by
  induction fuel with
  | zero => intro k s t met run; cases run
  | succ fuel ih =>
    intro k s t met run suspended j unknown known
    have explores : ExploresWell h (exploreConstant h fuel) := exploreConstant_explored fuel
    by_cases same : j = k
    · subst same
      exact ⟨fuel + 1, s, t, met, run, unknown, suspended, .refl, rfl⟩
    by_cases explored : s.constantMap k = none
    · obtain ⟨u, v, new, taken, namespaced, opened, _, walks, rfl, _⟩ := exploreConstant_walks run explored
      have before : (s.enter k (initialConstant h k)).constantMap j = none := by rwa [Constants.enter_of_ne same]
      by_cases here : u.constantMap j = none
      · refine walks.captures.enters explores ih (fun a member => ?_) opened suspended same here known
        rwa [sources_constants] at member
      · have entered := exploreNamespaceOf_enters explores ih namespaced (.enter s k _) suspended same before here
        refine entered.keep .refl ?_
        exact (walks.captures.keeps explores here).2.2 same
    · obtain ⟨rfl, rfl⟩ := exploreConstant_known run explored
      exact absurd unknown known

def inRole (xs : List (Source κ)) (role : Role) : List κ :=
  (xs.filter (·.role = role)).map Source.constant

omit [DecidableEq κ] in
theorem mem_inRole {xs : List (Source κ)} {role : Role} {a : κ} :
    a ∈ inRole xs role ↔ ∃ x ∈ xs, x.role = role ∧ x.constant = a := by
  simp [inRole, and_assoc]

omit [DecidableEq κ] in
/-- Writing down sources appends the names of those in a role to its list. -/
theorem named_foldl (role : Role) (list : role ≠ .superclass) (name : κ → String) (xs : List (Source κ))
    (c : Constant) :
    (xs.foldl (fun c x => c.write x.role (name x.constant)) c).named role =
      c.named role ++ (inRole xs role).map name := by
  induction xs generalizing c with
  | nil => simp [inRole]
  | cons x xs ih =>
    rw [List.foldl_cons, ih]
    obtain ⟨written, a⟩ := x
    by_cases same : written = role
    · subst same
      cases written <;> simp [inRole, Constant.write, Constant.named] at list ⊢
    · have other : (c.write written (name a)).named role = c.named role := by
        cases role <;> cases written <;> simp_all [Constant.write, Constant.named]
      simp [inRole, other, same]

/-- In the end everything that was taken is written into the record under its final name. -/
theorem Walks.final_record (explores : ExploresWell h explore) (anchored : AnchoredAt h k) {s u v : Constants κ}
    {new : List κ} {taken : List (Taken (Source κ) κ)} (walks : Walks explore k [] (sources h k) u taken v)
    (opened : Opened h k (finalName h k) s u new) (suspended : Suspended h s k)
    (record : u.constantMap k = some (startRecord h k)) :
    v.constantMap k = some ((taken.map Taken.item).foldl
      (fun c x => c.write x.role (finalName h x.constant)) (startRecord h k)) := by
  obtain ⟨more, closed⟩ := walks.captures.opened explores opened
  rw [walks.record explores record]
  congr 1
  refine List.foldl_ext _ _ _ fun c x member => ?_
  obtain ⟨y, was, rfl⟩ := List.mem_map.mp member
  have source := walks.reads.sublist.subset member
  have known : v.constantMap y.item.constant ≠ none := walks.known explores was
  rw [closed.final anchored suspended (mem_mixins source) known]

end

/-- The constants of a program in which the class `S` has a module prepended and
extends another, `M` extends `N`, and the subclass `K` of `S` includes `M` and
extends `N`. -/
inductive Mixed
  | BasicObject | Object | Kernel | Module | Class | Array | Hash | P | E | N | M | S | K
  deriving DecidableEq, Repr

def Mixed.all : List Mixed :=
  [.BasicObject, .Object, .Kernel, .Module, .Class, .Array, .Hash, .P, .E, .N, .M, .S, .K]

instance : Fintype Mixed where
  elems := Mixed.all.toFinset
  complete k := by cases k <;> decide

def Mixed.name : Mixed → String
  | .BasicObject => "BasicObject"
  | .Object => "Object"
  | .Kernel => "Kernel"
  | .Module => "Module"
  | .Class => "Class"
  | .Array => "Array"
  | .Hash => "Hash"
  | .P => "P"
  | .E => "E"
  | .N => "N"
  | .M => "M"
  | .S => "S"
  | .K => "K"

/-- `rb_class_superclass` repeated. -/
def Mixed.superclasses : Mixed × Bool → List (Mixed × Bool)
  | (.K, singleton) => (.S, singleton) :: above singleton
  | (.P, true) | (.E, true) | (.N, true) | (.M, true) | (.Kernel, true) =>
    [(.Module, false), (.Object, false), (.BasicObject, false)]
  | (.P, false) | (.E, false) | (.N, false) | (.M, false) | (.Kernel, false) | (.BasicObject, false) => []
  | (.BasicObject, true) => [(.Class, false), (.Module, false), (.Object, false), (.BasicObject, false)]
  | (.Object, true) =>
    [(.BasicObject, true), (.Class, false), (.Module, false), (.Object, false), (.BasicObject, false)]
  | (.Object, false) => [(.BasicObject, false)]
  | (.Class, false) => [(.Module, false), (.Object, false), (.BasicObject, false)]
  | (.Class, true) => (.Module, true) :: above true
  | (_, singleton) => above singleton
where
  above : Bool → List (Mixed × Bool)
    | true =>
      [(.Object, true), (.BasicObject, true), (.Class, false), (.Module, false), (.Object, false),
        (.BasicObject, false)]
    | false => [(.Object, false), (.BasicObject, false)]

/-- The part of the ancestors that is the constant's own. -/
def Mixed.own : Mixed × Bool → List (Mixed × Bool)
  | (.S, false) => [(.P, false), (.S, false)]
  | (.S, true) => [(.S, true), (.E, false)]
  | (.M, true) => [(.M, true), (.N, false)]
  | (.K, false) => [(.K, false), (.M, false)]
  | (.K, true) => [(.K, true), (.N, false)]
  | (.Object, false) => [(.Object, false), (.Kernel, false)]
  | k => [k]

/-- The hierarchy of this program; `true` marks the singleton classes. -/
def mixed : Hierarchy (Mixed × Bool) where
  type
    | (.P, false) | (.E, false) | (.N, false) | (.M, false) | (.Kernel, false) => .T_MODULE
    | _ => .T_CLASS
  address k := 8 * (2 * k.1.ctorIdx + k.2.toNat)
  modName
    | (k, false) => some k.name
    | (_, true) => none
  classPathCached
    | (k, false) => some k.name
    | (_, true) => none
  superclasses := Mixed.superclasses
  constGetAt
    | (.Object, false), name => (Mixed.all.find? (·.name = name)).map (·, false)
    | _, _ => none
  modAncestors k := Mixed.own k ++ (Mixed.superclasses k).flatMap Mixed.own
  singletonClass k := (k.1, true)
  objClass
    | (.P, false) | (.E, false) | (.N, false) | (.M, false) | (.Kernel, false) => (.Module, false)
    | _ => (.Class, false)
  cObject := (.Object, false)
  cModule := (.Module, false)
  cClass := (.Class, false)
  cArray := (.Array, false)
  cHash := (.Hash, false)
  mKernel := (.Kernel, false)

end Racer
