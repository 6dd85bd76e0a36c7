import Racer.Tracer.Encounters
import Racer.Tracer.Instances

namespace Racer.CompleteMixins
open Reaching Relation

/-! When the records of a constant and its mixins tell of every module among the ancestors. -/

section
variable {κ : Type} [DecidableEq κ] (h : Hierarchy κ)

/-- What stands in front of the ancestors of the superclass. -/
def ownAncestors (k superclass : κ) : List κ :=
  (h.modAncestors k).take ((h.modAncestors k).length - (h.modAncestors superclass).length)

/-- The ancestors of a class are its own modules, around the class itself, and then
those of its superclass. -/
structure Inherits (k superclass : κ) : Prop where
  ancestors : h.modAncestors k = ownAncestors h k superclass ++ h.modAncestors superclass
  own : ∀ a ∈ ownAncestors h k superclass, a = k ∨ h.type a = .T_MODULE

/-- The superclass of the singleton class: that of the superclass, or `Module`. -/
def singletonLimit (k : κ) : Option κ :=
  match h.type k with
  | .T_CLASS => (h.superclasses k).head?.map h.singletonClass
  | .T_MODULE => some h.cModule

/-- What the VM promises about the ancestors of `k`. -/
structure Lawful (k : κ) : Prop where
  superclass : ∀ superclass ∈ (h.superclasses k).head?, Inherits h k superclass
  top : (h.superclasses k).head? = none → ∀ a ∈ h.modAncestors k, a = k ∨ h.type a = .T_MODULE
  singleton : ∀ limit ∈ singletonLimit h k, Inherits h (h.singletonClass k) limit ∧
    ∀ a ∈ (h.modAncestors limit).takeWhile (· ≠ limit), h.type a = .T_MODULE
  classes : h.type h.cModule = .T_CLASS ∧ ∀ j, h.type (h.singletonClass j) = .T_CLASS

/-- A module that the instances of `k` have from `k` itself. -/
structure InstanceTarget (k b : κ) : Prop where
  ancestor : b ∈ (h.modAncestors k).takeWhile (· ≠ stopObject h k)
  type : h.type b = .T_MODULE
  other : b ≠ k
  own : ∀ superclass ∈ (h.superclasses k).head?, b ∉ h.modAncestors superclass

/-- A module that `k` itself is extended by. -/
structure SingletonTarget (k b : κ) : Prop where
  type : h.type b = .T_MODULE
  before : ∃ limit ∈ singletonLimit h k, b ∈ (h.modAncestors (h.singletonClass k)).takeWhile (· ≠ limit)

/-- The record of `x` says that `y` is prepended to it or included in it. -/
def Includes (t : Constants κ) (x y : κ) : Prop :=
  t.constantMap y ≠ none ∧ ∃ c ∈ t.constantMap x, t.nameOf y ∈ c.prependedModules ++ c.includedModules

def Extends (t : Constants κ) (x y : κ) : Prop :=
  t.constantMap y ≠ none ∧ ∃ c ∈ t.constantMap x, t.nameOf y ∈ c.extendedModules

/-- Every module of `k` can be found from its record. -/
structure Complete (k : κ) (t : Constants κ) : Prop where
  instances : ∀ b, InstanceTarget h k b → TransGen (Includes t) k b
  singletons : ∀ b, SingletonTarget h k b → ∃ a, Extends t k a ∧ ReflTransGen (Includes t) a b

/-- Where `k` is explored first, the record of `x` tells of `y` in this role: it has a source in
the role that is not passed over and had then the name that `y` has in the end. -/
def Tells (k : κ) (role : Role) (x y : κ) : Prop :=
  y ∈ reached (LeadsTo h) ∅ {k} ∧ ∃ m z, ComesTo h {} k m x ∧ Visited h m.known x z ∧ z.role = role ∧
    nameAt h m.waiting z.constant = finalName h y

/-- The record of `x` tells its instances of `y`. -/
def TellsInstances (k x y : κ) : Prop :=
  Tells h k .prepended x y ∨ Tells h k .included x y

/-- A mixin of `k` that is passed over comes along in its role with mixins that are not,
neither by `k` nor on the way from them. -/
structure KeepsRoles (k : κ) : Prop where
  instances : ∀ y ∈ sources h k, y.role = .prepended ∨ y.role = .included → InstanceTarget h k y.constant →
    ¬ Visited h ∅ k y → TransGen (TellsInstances h k) k y.constant
  singletons : ∀ y ∈ sources h k, y.role = .extended → SingletonTarget h k y.constant → ¬ Visited h ∅ k y →
    ∃ a, Tells h k .extended k a ∧ ReflTransGen (TellsInstances h k) a y.constant

variable {h} {k : κ}

theorem source_of_ancestor {own : List κ} (rest : List κ) (prepended : Bool) {b : κ}
    (modules : ∀ a ∈ own, a = k ∨ h.type a = .T_MODULE) (there : b ∈ own)
    (before : b ∈ (own ++ rest).takeWhile (· ≠ stopObject h k)) (other : b ≠ k) :
    ∃ x ∈ ancestorSources h k (own ++ rest) prepended,
      (x.role = .prepended ∨ x.role = .included) ∧ x.constant = b := by
  induction own generalizing prepended with
  | nil => cases there
  | cons a own ih =>
    rw [List.cons_append, List.takeWhile_cons] at before
    rw [List.cons_append, ancestorSources]
    split at before
    next going =>
      have notStop : a ≠ stopObject h k := of_decide_eq_true going
      have later := fun c member => modules c (List.mem_cons_of_mem a member)
      by_cases self : a = k
      · rw [if_pos self]
        have below : b ≠ a := fun same => other (same.trans self)
        exact ih false later ((List.mem_cons.mp there).resolve_left below)
          ((List.mem_cons.mp before).resolve_left below)
      · have module_ : h.type a = .T_MODULE := (modules a List.mem_cons_self).resolve_left self
        rw [if_neg self, if_neg notStop, if_neg (by simp [module_])]
        by_cases here : b = a
        · subst here
          refine ⟨_, List.mem_cons_self, ?_, rfl⟩
          cases prepended <;> simp
        · obtain ⟨x, member, role, same⟩ := ih prepended later
            ((List.mem_cons.mp there).resolve_left here) ((List.mem_cons.mp before).resolve_left here)
          exact ⟨x, List.mem_cons_of_mem _ member, role, same⟩
    next => cases before

/-- The first loop reads every module that the instances have from `k` itself. -/
theorem InstanceTarget.source (lawful : Lawful h k) {b : κ} (target : InstanceTarget h k b) :
    ∃ x ∈ sources h k, (x.role = .prepended ∨ x.role = .included) ∧ x.constant = b := by
  have read : ∃ x ∈ ancestorSources h k (h.modAncestors k) true,
      (x.role = .prepended ∨ x.role = .included) ∧ x.constant = b := by
    cases above : (h.superclasses k).head? with
    | none =>
      have there := List.takeWhile_subset _ target.ancestor
      simpa using source_of_ancestor [] true (lawful.top above) there
        (by simpa using target.ancestor) target.other
    | some superclass =>
      have inherits := lawful.superclass superclass above
      have there := List.takeWhile_subset _ target.ancestor
      have before := target.ancestor
      rw [inherits.ancestors] at there before
      rw [inherits.ancestors]
      exact source_of_ancestor _ true inherits.own
        ((List.mem_append.mp there).resolve_right (target.own superclass above)) before target.other
  obtain ⟨x, member, rest⟩ := read
  exact ⟨x, List.mem_append_left _ member, rest⟩

theorem mem_directSingletonAncestors {ancestors : List κ} {limit b : κ} (classes : h.type h.cModule = .T_CLASS ∧
    ∀ j, h.type (h.singletonClass j) = .T_CLASS) (type : h.type b = .T_MODULE)
    (modules : ∀ a ∈ ancestors.takeWhile (· ≠ limit), a = h.singletonClass k ∨ h.type a = .T_MODULE)
    (before : b ∈ ancestors.takeWhile (· ≠ limit)) : b ∈ directSingletonAncestors h k ancestors := by
  induction ancestors with
  | nil => cases before
  | cons a ancestors ih =>
    rw [List.takeWhile_cons] at before modules
    rw [directSingletonAncestors]
    split at before
    next going =>
      rw [if_pos going] at modules
      have later := fun c member => modules c (List.mem_cons_of_mem a member)
      by_cases self : a = h.singletonClass k
      · rw [if_pos self]
        have below : b ≠ a := by
          rintro rfl
          rw [self, classes.2 k] at type
          cases type
        exact ih later ((List.mem_cons.mp before).resolve_left below)
      · have module_ : h.type a = .T_MODULE := (modules a List.mem_cons_self).resolve_left self
        have going : ¬ (a = h.singletonClass h.cObject ∨ a = h.cModule) := by
          rintro (rfl | rfl)
          · rw [classes.2] at module_
            cases module_
          · rw [classes.1] at module_
            cases module_
        rw [if_neg self, if_neg going, if_pos module_]
        exact List.mem_cons.mpr ((List.mem_cons.mp before).imp_right fun below => ih later below)
    next => cases before

theorem mem_takeWhile_append {xs ys : List κ} {limit a : κ}
    (before : a ∈ (xs ++ ys).takeWhile (· ≠ limit)) : a ∈ xs ∨ a ∈ ys.takeWhile (· ≠ limit) := by
  rw [List.takeWhile_append] at before
  split at before
  · exact List.mem_append.mp before
  · exact .inl (List.takeWhile_subset _ before)

/-- The second loop reads every module that `k` is extended by. -/
theorem SingletonTarget.source (lawful : Lawful h k) {b : κ} (target : SingletonTarget h k b) :
    ⟨.extended, b⟩ ∈ sources h k := by
  obtain ⟨limit, above, before⟩ := target.before
  obtain ⟨inherits, prepended⟩ := lawful.singleton limit above
  have modules : ∀ a ∈ (h.modAncestors (h.singletonClass k)).takeWhile (· ≠ limit),
      a = h.singletonClass k ∨ h.type a = .T_MODULE := by
    intro a member
    rw [inherits.ancestors] at member
    exact (mem_takeWhile_append member).elim (inherits.own a) fun there => .inr (prepended a there)
  exact List.mem_append_right _
    (List.mem_map_of_mem (mem_directSingletonAncestors lawful.classes target.type modules before))

omit [DecidableEq κ] in
theorem mem_foldl_named {role : Role} (list : role ≠ .superclass) {name : κ → String} {ys : List (Source κ)}
    {n : String} : n ∈ (ys.foldl (fun c x => c.write x.role (name x.constant)) (startRecord h k)).named role ↔
      ∃ y ∈ ys, y.role = role ∧ name y.constant = n := by
  have nothing : (startRecord h k).named role = [] := by
    cases role <;> rfl
  rw [named_foldl role list, nothing, List.nil_append, List.mem_map]
  constructor
  · rintro ⟨a, member, rfl⟩
    obtain ⟨y, there, same, rfl⟩ := mem_inRole.mp member
    exact ⟨y, there, same, rfl⟩
  · rintro ⟨y, there, same, rfl⟩
    exact ⟨y.constant, mem_inRole.mpr ⟨y, there, same, rfl⟩, rfl⟩

/-- The final records tell what the hierarchy says that they tell. -/
theorem tells_iff {fuel : Nat} {t : Constants κ} {met : List κ} (run : exploreConstant h fuel k {} = some (t, met))
    {role : Role} (list : role ≠ .superclass) {x y : κ} :
    (t.constantMap y ≠ none ∧ ∃ c ∈ t.constantMap x, t.nameOf y ∈ c.named role) ↔ Tells h k role x y := by
  have empty : ({} : Constants κ).known = ∅ := by
    ext j
    simp [Constants.known]
  have all : t.known = reached (LeadsTo h) ∅ {k} := by rw [(exploreConstant_reached fuel _ _ _ _ run).1, empty]
  have named : NamedAt h [] ({} : Constants κ) := fun j c atJ => by simp at atJ
  have records {m : Moment κ} {j : κ} (comes : ComesTo h {} k m j) : RecordAt h m j t :=
    exploreConstant_records fuel run named (by simp) (by rwa [empty])
  have final {j : κ} (known : t.constantMap j ≠ none) : t.nameOf j = finalName h j := by
    obtain ⟨⟨new, explored⟩, _⟩ := exploreConstant_explored fuel _ _ _ _ run
    have recent : j ∈ new := by
      by_contra old
      exact known ((explored.frame j old).trans rfl)
    obtain ⟨c, atJ, name⟩ := explored.named j recent
    simp only [Constants.nameOf, atJ, name]
  constructor
  · rintro ⟨known, c, atX, there⟩
    have member : x ∈ t.known := fun none => by simp [none] at atX
    obtain ⟨m, comes⟩ := exploreConstant_comesTo fuel [] run (by simp [empty]) member
    rw [empty] at comes
    obtain ⟨ys, visited, record⟩ := records comes
    obtain rfl := Option.some.inj (atX.symm.trans record)
    obtain ⟨z, was, same, name⟩ := (mem_foldl_named list).mp there
    exact ⟨all ▸ known, m, z, comes, (visited z).mp was, same, name.trans (final known)⟩
  · rintro ⟨known, m, z, comes, visited, same, name⟩
    have known : t.constantMap y ≠ none := (all ▸ known : y ∈ t.known)
    obtain ⟨ys, taken, record⟩ := records comes
    exact ⟨known, _, record, (mem_foldl_named list).mpr ⟨z, (taken z).mpr visited, same, name.trans (final known).symm⟩⟩

theorem includes_iff {fuel : Nat} {t : Constants κ} {met : List κ}
    (run : exploreConstant h fuel k {} = some (t, met)) {x y : κ} : Includes t x y ↔ TellsInstances h k x y := by
  rw [TellsInstances, ← tells_iff run (by simp), ← tells_iff run (by simp)]
  simp only [Includes, Constant.named, List.mem_append, and_or_left, exists_or]

theorem extends_iff {fuel : Nat} {t : Constants κ} {met : List κ}
    (run : exploreConstant h fuel k {} = some (t, met)) {x y : κ} : Extends t x y ↔ Tells h k .extended x y := by
  rw [← tells_iff run (by simp)]
  rfl

/-- The record of `k` tells of a source that is not passed over. -/
theorem Tells.of_visited {y : Source κ} (member : y ∈ sources h k) (visited : Visited h ∅ k y) :
    Tells h k y.role k y.constant := by
  have leads : LeadsTo h k y.constant := .inr (mem_mixins member)
  have known : y.constant ∈ reached (LeadsTo h) ∅ {k} :=
    reached_step (starts_subset rfl) (Set.notMem_empty k) leads
  exact ⟨known, _, y, .here (Set.notMem_empty k), visited, rfl, rfl⟩

end

/-- A class `S` includes `M`, which extends `N`, and the class `S::K` includes `M` and `E`,
which includes `P`, and extends `N`. -/
def nested : Hierarchy (Mixed × Bool) :=
  { mixed with
    modName
      | (.K, false) => some "S::K"
      | k => mixed.modName k
    classPathCached
      | (.K, false) => some "S::K"
      | k => mixed.classPathCached k
    superclasses
      | (.K, singleton) => mixed.superclasses (.S, singleton)
      | k => mixed.superclasses k
    constGetAt
      | (.S, false), "K" => some (.K, false)
      | k, name => if name = "K" then none else mixed.constGetAt k name
    modAncestors
      | (.K, false) => [(.K, false), (.E, false), (.P, false), (.M, false)] ++ mixed.modAncestors (.Object, false)
      | (.K, true) => [(.K, true), (.N, false)] ++ mixed.modAncestors (.Object, true)
      | (.S, false) => [(.S, false), (.M, false)] ++ mixed.modAncestors (.Object, false)
      | (.S, true) => (.S, true) :: mixed.modAncestors (.Object, true)
      | (.E, false) => [(.E, false), (.P, false)]
      | k => mixed.modAncestors k }

theorem nested_lawful : Lawful nested (.K, false) := by
  refine ⟨?_, by decide, ?_, by decide, by decide⟩
  · intro superclass above
    obtain rfl : superclass = (.Object, false) := (Option.some.inj above).symm
    exact ⟨by decide, by decide⟩
  · intro limit above
    obtain rfl : limit = (.Object, true) := (Option.some.inj above).symm
    exact ⟨⟨by decide, by decide⟩, by decide⟩

theorem nested_sources : sources nested (.K, false) =
    [⟨.included, (.E, false)⟩, ⟨.included, (.P, false)⟩, ⟨.included, (.M, false)⟩, ⟨.extended, (.N, false)⟩] := by
  decide +kernel

/-- `E` brings `P` along and nothing else. -/
theorem nested_carriedBy {known : Set (Mixed × Bool)} {b : Mixed × Bool}
    (carried : CarriedBy nested known (.K, false) [⟨.included, (.E, false)⟩, ⟨.included, (.P, false)⟩] b) :
    b = (.P, false) := by
  have ofE : sources nested (.E, false) = [⟨.included, (.P, false)⟩] := by decide +kernel
  have ofP : sources nested (.P, false) = [] := by decide +kernel
  have alone (c : Mixed × Bool) : ¬ MixesIn nested (.P, false) c := by
    rintro ⟨x, member, _⟩
    rw [ofP] at member
    cases member
  have carried : CarriedBy nested known (.K, false)
      ([⟨.included, (.E, false)⟩] ++ [⟨.included, (.P, false)⟩]) b := carried
  rcases carriedBy_snoc.mp carried with first | ⟨_, carries⟩
  · have first : CarriedBy nested known (.K, false) ([] ++ [⟨.included, (.E, false)⟩]) b := first
    rcases carriedBy_snoc.mp first with ⟨_, _, _, none, _⟩ | ⟨_, carries⟩
    · simp at none
    · obtain ⟨c, ⟨x, member, atC⟩, path⟩ := TransGen.head'_iff.mp carries.brings
      rw [ofE, List.mem_singleton] at member
      subst member
      cases Option.mem_some.mp atC
      rcases path.cases_head with rfl | ⟨c, mixes, _⟩
      · rfl
      · exact absurd mixes (alone c)
  · obtain ⟨c, mixes, _⟩ := TransGen.head'_iff.mp carries.brings
    exact absurd mixes (alone c)

theorem nested_spaces : spaces nested (.K, false) = [(.S, false)] := by
  decide +kernel

/-- The namespace of `K` does not lead to `E`. -/
theorem nested_unknown : (.E, false) ∉ knownBefore nested ∅ (.K, false) [] := by
  have closed : ∀ a ∈ [(Mixed.K, false), (.S, false), (.M, false), (.N, false)], a ≠ (.K, false) →
      ∀ b ∈ resolvedNamespace nested nested.cObject (namespaceOf nested a) ++ mixins nested a,
        b ∈ [(Mixed.K, false), (.S, false), (.M, false), (.N, false)] := by decide +kernel
  have all : knownBefore nested ∅ (.K, false) [] ⊆
      {a | a ∈ [(Mixed.K, false), (.S, false), (.M, false), (.N, false)]} := by
    refine reached_subset ?_ ?_ fun a member fresh b leads => ?_
    · simp
    · simp [nested_spaces]
    · exact closed a member (fun same => fresh (.inl same)) b (List.mem_append.mpr leads)
  exact fun there => absurd (all there) (by decide)

theorem nested_keepsRoles : KeepsRoles nested (.K, false) := by
  have atE : sources nested (.K, false) = [] ++ ⟨.included, (.E, false)⟩ :: _ := nested_sources
  constructor
  · intro y member role _ passedOver
    rw [nested_sources] at member
    simp only [List.mem_cons, List.not_mem_nil, or_false] at member
    rcases member with rfl | rfl | rfl | rfl
    · exact absurd (visited_first atE) passedOver
    · -- `E` comes first, and its record names `P`
      have ofE : sources nested (.E, false) = [⟨.included, (.P, false)⟩] := by decide +kernel
      have known : (.E, false) ∈ reached (LeadsTo nested) ∅ {(Mixed.K, false)} :=
        reached_step (starts_subset rfl) (Set.notMem_empty _) (.inr (by decide +kernel))
      have leads : LeadsTo nested (.E, false) (.P, false) := .inr (by decide +kernel)
      have first : Tells nested (.K, false) .included (.K, false) (.E, false) :=
        Tells.of_visited (atE ▸ List.mem_cons_self) (visited_first atE)
      have second : Tells nested (.K, false) .included (.E, false) (.P, false) :=
        ⟨reached_step known (Set.notMem_empty _) leads, _, ⟨.included, (.P, false)⟩,
          .source (Set.notMem_empty _) atE (.here nested_unknown), visited_first ofE, rfl, rfl⟩
      exact .tail (.single (.inr first)) (.inr second)
    · refine absurd ⟨[⟨.included, (.E, false)⟩, ⟨.included, (.P, false)⟩], _, nested_sources, ?_⟩ passedOver
      intro a atM carried
      cases nested_carriedBy carried
      cases atM
    · cases role with
      | inl other => cases other
      | inr other => cases other
  · intro y member role _ passedOver
    rw [nested_sources] at member
    simp only [List.mem_cons, List.not_mem_nil, or_false] at member
    rcases member with rfl | rfl | rfl | rfl
    iterate 3 cases role
    -- `M` is known from the namespace and brings nothing along
    refine absurd ⟨[⟨.included, (.E, false)⟩, ⟨.included, (.P, false)⟩, ⟨.included, (.M, false)⟩], [],
      nested_sources, ?_⟩ passedOver
    intro a atN carried
    have carried : CarriedBy nested ∅ (.K, false)
      ([⟨.included, (.E, false)⟩, ⟨.included, (.P, false)⟩] ++ [⟨.included, (.M, false)⟩]) a := carried
    rcases carriedBy_snoc.mp carried with first | ⟨_, carries⟩
    · cases nested_carriedBy first
      cases atN
    · have inSpace : (.S, false) ∈ knownBefore nested ∅ (.K, false)
          [⟨.included, (.E, false)⟩, ⟨.included, (.P, false)⟩] := starts_subset (by simp [nested_spaces])
      have leads : LeadsTo nested (.S, false) (.M, false) := .inr (by decide +kernel)
      exact carries.fresh (reached_step inSpace (by simp) leads)

end Racer.CompleteMixins
