import Racer.Library.Reaching
import Racer.Tracer.Mixins

namespace Racer
open SkippingWalk Reaching

/-! `explore_constant` returns, whatever leads back to what, and has then seen
everything the constant leads to. -/

section
variable {κ : Type} [DecidableEq κ] {h : Hierarchy κ} {explore explore' : Exploration κ} {k : κ}

/-- Whatever the first exploration returns, the second one returns as well. -/
def Extends (explore explore' : Exploration κ) : Prop :=
  ∀ a s r, explore a s = some r → explore' a s = some r

omit [DecidableEq κ] in
theorem exploreConstantNamespace_extends (larger : Extends explore explore') {space : κ} {path : List String}
    {s : Constants κ} {r : Constants κ × Bool} (run : exploreConstantNamespace h explore space path s = some r) :
    exploreConstantNamespace h explore' space path s = some r := by
  induction path generalizing space s with
  | nil => exact run
  | cons name path ih =>
    unfold exploreConstantNamespace at run ⊢
    cases found : h.constGetAt space name with
    | none => simpa only [found] using run
    | some next =>
      simp only [found] at run ⊢
      split at run
      next => cases run
      next t met explored =>
        simp only [larger _ _ _ explored]
        exact ih run

theorem exploreNamespaceOf_extends (larger : Extends explore explore') {s t : Constants κ}
    (run : exploreNamespaceOf h explore k s = some t) : exploreNamespaceOf h explore' k s = some t := by
  unfold exploreNamespaceOf at run ⊢
  cases named : h.modName k with
  | none => simpa only [named] using run
  | some name =>
    simp only [named] at run ⊢
    split at run
    next => cases run
    next u namespace' => simpa only [exploreConstantNamespace_extends larger namespace'] using run
    next u namespace' => simpa only [exploreConstantNamespace_extends larger namespace'] using run

theorem exploreAncestors_extends (larger : Extends explore explore') {ancestors : List κ} {prepended : Bool}
    {w w' : Walk κ} (walk : exploreAncestors h explore k ancestors prepended w = some w') :
    exploreAncestors h explore' k ancestors prepended w = some w' := by
  induction ancestors generalizing prepended w with
  | nil => exact walk
  | cons a ancestors ih =>
    unfold exploreAncestors at walk ⊢
    split at walk
    next self => rw [if_pos self]; exact ih walk
    next self =>
    rw [if_neg self]
    split at walk
    next stop => rw [if_pos stop]; exact walk
    next stop =>
    rw [if_neg stop]
    split at walk
    next classes =>
      rw [if_pos classes]
      split at walk
      next early => rw [if_pos early]; exact ih walk
      next late =>
      rw [if_neg late]
      split at walk
      next => cases walk
      next s met explored => simpa only [larger _ _ _ explored] using walk
    next classes =>
    rw [if_neg classes]
    split at walk
    next known => rw [if_pos known]; exact ih walk
    next fresh =>
    rw [if_neg fresh]
    split at walk
    next => cases walk
    next s met explored =>
      simp only [larger _ _ _ explored]
      exact ih walk

theorem exploreSingletonAncestors_extends (larger : Extends explore explore') {ancestors : List κ} {w w' : Walk κ}
    (walk : exploreSingletonAncestors h explore k ancestors w = some w') :
    exploreSingletonAncestors h explore' k ancestors w = some w' := by
  induction ancestors generalizing w with
  | nil => exact walk
  | cons a ancestors ih =>
    unfold exploreSingletonAncestors at walk ⊢
    split at walk
    next self => rw [if_pos self]; exact ih walk
    next self =>
    rw [if_neg self]
    split at walk
    next stop => rw [if_pos stop]; exact walk
    next stop =>
    rw [if_neg stop]
    split at walk
    next fresh =>
      rw [if_pos fresh]
      split at walk
      next => cases walk
      next s met explored =>
        simp only [larger _ _ _ explored]
        exact ih walk
    next skipped => rw [if_neg skipped]; exact ih walk

/-- An exploration that has returned does not depend on how deep it may go. -/
theorem exploreConstant_extends (fuel : Nat) : Extends (exploreConstant h fuel) (exploreConstant h (fuel + 1)) := by
  induction fuel with
  | zero => intro k s r run; cases run
  | succ fuel ih =>
    intro k s r run
    unfold exploreConstant at run ⊢
    split at run
    next known => rw [if_pos known]; exact run
    next unknown =>
    rw [if_neg unknown]
    split at run
    next => cases run
    next t namespaced =>
    simp only [exploreNamespaceOf_extends ih namespaced]
    split at run
    next => cases run
    next v ancestors =>
    simp only [exploreAncestors_extends ih ancestors]
    split at run
    next => cases run
    next w singletons => simpa only [exploreSingletonAncestors_extends ih singletons] using run

theorem exploreConstant_deeper {fuel more : Nat} (le : fuel ≤ more) :
    Extends (exploreConstant h fuel) (exploreConstant h more) := by
  induction more, le using Nat.le_induction with
  | base => exact fun _ _ _ run => run
  | succ more _ ih => exact fun a s r run => exploreConstant_extends more a s r (ih a s r run)

/-- The constants in the map. -/
def Constants.known (s : Constants κ) : Set κ :=
  {k | s.constantMap k ≠ none}

theorem Constants.known_enter (s : Constants κ) (k : κ) (c : Constant) : (s.enter k c).known = insert k s.known := by
  ext j
  by_cases same : j = k
  · simp [same, Constants.known, Constants.enter_self]
  · simp [same, Constants.known, Constants.enter_of_ne same]

theorem Constants.known_modify (s : Constants κ) (k : κ) (f : Constant → Constant) :
    (s.modify k f).known = s.known := by
  ext j
  by_cases same : j = k
  · simp [same, Constants.known, Constants.modify]
  · simp [Constants.known, Constants.modify_of_ne same]

omit [DecidableEq κ] in
theorem Constants.known_pushUpdate (s : Constants κ) (k : κ) : (s.pushUpdate k).known = s.known :=
  rfl

/-- Explorations of other constants enter all that these lead to, and report constants of
the map only. -/
def ReachesAll (h : Hierarchy κ) (explore : Exploration κ) : Prop :=
  ∀ a s t met, explore a s = some (t, met) → t.known = reached (LeadsTo h) s.known {a} ∧ ∀ b ∈ met, b ∈ t.known

theorem exploreConstantNamespace_reached (reaches : ReachesAll h explore) {space : κ}
    {path : List String} {s t : Constants κ} {resolved : Bool}
    (run : exploreConstantNamespace h explore space path s = some (t, resolved)) :
    t.known = reached (LeadsTo h) s.known {a | a ∈ resolvedNamespace h space path} := by
  induction path generalizing space s with
  | nil =>
    cases run
    exact (reached_nil ..).symm
  | cons name path ih =>
    unfold exploreConstantNamespace at run
    unfold resolvedNamespace
    cases found : h.constGetAt space name with
    | none =>
      simp only [found] at run ⊢
      cases run
      exact (reached_nil ..).symm
    | some next =>
      simp only [found] at run ⊢
      split at run
      next => cases run
      next u met explored =>
        rw [ih run, (reaches _ _ _ _ explored).1, reached_cons]

theorem exploreNamespaceOf_reached (reaches : ReachesAll h explore) {s t : Constants κ}
    (run : exploreNamespaceOf h explore k s = some t) :
    t.known = reached (LeadsTo h) s.known {a | a ∈ resolvedNamespace h h.cObject (namespaceOf h k)} := by
  rcases exploreNamespaceOf_cases run with ⟨named, rfl⟩ | ⟨_, _, namespace'⟩ | ⟨_, u, _, namespace', rfl⟩
  · simp only [namespaceOf, named, resolvedNamespace]
    exact (reached_nil ..).symm
  · exact exploreConstantNamespace_reached reaches namespace'
  · rw [Constants.known_modify]
    exact exploreConstantNamespace_reached reaches namespace'

/-- A module that the walk skips has been reached before. -/
theorem Walks.reached (reaches : ReachesAll h explore) {met : List κ} {xs : List (Source κ)} {s t : Constants κ}
    {taken : List (Taken (Source κ) κ)} (walks : Walks explore k met xs s taken t) (brought : ∀ b ∈ met, b ∈ s.known) :
    t.known = reached (LeadsTo h) s.known {a | a ∈ xs.map Source.constant} ∧ ∀ b ∈ inner taken, b ∈ t.known := by
  induction walks with
  | nil => exact ⟨(reached_nil ..).symm, by simp [inner]⟩
  | @skip met x a xs s taken t atX there _ ih =>
    obtain ⟨same, inside⟩ := ih brought
    refine ⟨?_, inside⟩
    have seen : {x.constant} ⊆ s.known := by
      rw [(Source.key_eq_some.mp atX).2]
      exact Set.singleton_subset_iff.mpr (brought a there)
    rw [same, List.map_cons, ← reached_cons, reached_of_subset seen]
  | @take met x xs s u new taken t _ run _ ih =>
    obtain ⟨here, news⟩ := reaches _ _ _ _ run
    have kept : s.known ⊆ u.known := here ▸ known_subset
    obtain ⟨same, inside⟩ := ih fun b member => by
      rw [Constants.known_modify]
      rcases List.mem_append.mp member with old | recent
      · exact kept (brought b old)
      · exact news b (Source.mem_brought.mp recent).2
    rw [Constants.known_modify] at same
    refine ⟨?_, fun b member => ?_⟩
    · rw [same, here, reached_cons, List.map_cons]
    · rw [inner, List.flatMap_cons, List.mem_append] at member
      rcases member with recent | later
      · rw [same]
        exact known_subset (news b (Source.mem_brought.mp recent).2)
      · exact inside b later

/-- After the namespace and the mixins of a constant everything it leads to has been reached. -/
theorem exploreConstant_reached (fuel : Nat) : ReachesAll h (exploreConstant h fuel) := by
  induction fuel with
  | zero => intro k s t met run; cases run
  | succ fuel ih =>
    intro k s t met run
    by_cases unknown : s.constantMap k = none
    · obtain ⟨u, v, new, taken, namespaced, _, _, walks, rfl, rfl⟩ := exploreConstant_walks run unknown
      obtain ⟨mixed, inside⟩ := walks.reached ih (by simp)
      have fresh : k ∉ s.known := fun known => known unknown
      have both : {a | a ∈ resolvedNamespace h h.cObject (namespaceOf h k)} ∪
          {a | a ∈ (sources h k).map Source.constant} = {a | LeadsTo h k a} := by
        ext a
        simp [sources_constants, LeadsTo]
      have all : v.known = reached (LeadsTo h) s.known {k} := by
        rw [mixed, exploreNamespaceOf_reached ih namespaced, reached_reached, Constants.known_enter, both,
          reached_insert fresh]
      refine ⟨(v.known_pushUpdate k).trans all, fun b member => ?_⟩
      rcases List.mem_append.mp member with here | below
      · obtain ⟨x, was, atX⟩ := List.mem_filterMap.mp here
        rw [← (Source.key_eq_some.mp atX).2]
        exact walks.known (exploreConstant_explored fuel) was
      · exact inside b below
    · obtain ⟨rfl, rfl⟩ := exploreConstant_known run unknown
      exact ⟨(reached_of_subset (Set.singleton_subset_iff.mpr unknown)).symm, by simp⟩

/-- Every constant that was entered into the map has been put into the updates exactly
once, and no other. -/
def EntersOnce (s t : Constants κ) : Prop :=
  ∃ new, t.constantUpdates = s.constantUpdates ++ new ∧ new.Nodup ∧ ∀ k, k ∈ new ↔ k ∉ s.known ∧ k ∈ t.known

omit [DecidableEq κ] in
theorem Explored.entersOnce {s t : Constants κ} {new : List κ} (explored : Explored h s t new) : EntersOnce s t := by
  refine ⟨new, explored.updates, explored.nodup, fun k => ⟨fun member => ?_, fun ⟨fresh, known⟩ => ?_⟩⟩
  · obtain ⟨c, atK, _⟩ := explored.named k member
    exact ⟨fun known => known (explored.fresh k member), fun none => by rw [atK] at none; cases none⟩
  · by_contra absent
    exact fresh fun none => known ((explored.frame k absent).trans none)

end

variable {κ : Type} [DecidableEq κ] [Fintype κ]

/-- The exploration of a constant, and that of a namespace, goes no deeper than there
are constants missing in the map, and its result does not depend on how much deeper it
may go. It enters exactly the constants it leads to, each of them once into the updates. -/
theorem exploration_terminates (h : Hierarchy κ) (s : Constants κ) :
    (∀ k, ∃ t met, (∀ fuel > s.unexplored.card, exploreConstant h fuel k s = some (t, met)) ∧
      t.known = reached (LeadsTo h) s.known {k} ∧ EntersOnce s t) ∧
    ∀ space path, ∃ t resolved,
      (∀ fuel > s.unexplored.card,
        exploreConstantNamespace h (exploreConstant h fuel) space path s = some (t, resolved)) ∧
      t.known = reached (LeadsTo h) s.known {a | a ∈ resolvedNamespace h space path} ∧ EntersOnce s t := by
  have returns : Returns (exploreConstant h (s.unexplored.card + 1)) s.unexplored.card :=
    exploreConstant_total s.unexplored.card
  have explores : ExploresWell h (exploreConstant h (s.unexplored.card + 1)) := exploreConstant_explored _
  have reaches : ReachesAll h (exploreConstant h (s.unexplored.card + 1)) := exploreConstant_reached _
  constructor
  · intro k
    obtain ⟨t, met, run⟩ := returns k s le_rfl
    obtain ⟨⟨new, explored⟩, _⟩ := explores _ _ _ _ run
    exact ⟨t, met, fun fuel deeper => exploreConstant_deeper deeper _ _ _ run, (reaches _ _ _ _ run).1,
      explored.entersOnce⟩
  · intro space path
    obtain ⟨⟨t, resolved⟩, run⟩ := exploreConstantNamespace_total explores returns space path le_rfl
    obtain ⟨⟨new, explored⟩, _⟩ := exploreConstantNamespace_explored explores run
    exact ⟨t, resolved, fun fuel deeper => exploreConstantNamespace_extends (exploreConstant_deeper deeper) run,
      exploreConstantNamespace_reached reaches run, explored.entersOnce⟩

end Racer
