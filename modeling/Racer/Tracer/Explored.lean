import Mathlib.Data.Fintype.Card
import Racer.Tracer.Walks

namespace Racer

section
variable {κ : Type} [DecidableEq κ] {h : Hierarchy κ}

/-- An exploration that has returned: `new` are the constants it entered into the
map. Each is put into the updates once and has its final name, and nothing else
has changed. -/
structure Explored (h : Hierarchy κ) (s t : Constants κ) (new : List κ) : Prop where
  updates : t.constantUpdates = s.constantUpdates ++ new
  nodup : new.Nodup
  fresh : ∀ k ∈ new, s.constantMap k = none
  frame : ∀ k, k ∉ new → t.constantMap k = s.constantMap k
  named : ∀ k ∈ new, ∃ c, t.constantMap k = some c ∧ c.name = finalName h k

omit [DecidableEq κ] in
theorem Explored.refl (s : Constants κ) : Explored h s s [] :=
  ⟨(List.append_nil _).symm, List.nodup_nil, by simp, fun _ _ => rfl, by simp⟩

omit [DecidableEq κ] in
theorem Explored.keeps {s t : Constants κ} {new : List κ} (explored : Explored h s t new) {k : κ}
    (known : s.constantMap k ≠ none) : t.constantMap k = s.constantMap k :=
  explored.frame k fun member => known (explored.fresh k member)

omit [DecidableEq κ] in
theorem Explored.trans {s t u : Constants κ} {new more : List κ} (first : Explored h s t new)
    (second : Explored h t u more) : Explored h s u (new ++ more) := by
  have apart : ∀ k ∈ more, k ∉ new := by
    intro k late early
    obtain ⟨c, atK, _⟩ := first.named k early
    rw [second.fresh k late] at atK
    cases atK
  refine ⟨?_, ?_, fun k member => ?_, fun k absent => ?_, fun k member => ?_⟩
  · rw [second.updates, first.updates, List.append_assoc]
  · exact first.nodup.append second.nodup fun k early late => apart k late early
  · rcases List.mem_append.mp member with early | late
    · exact first.fresh k early
    · rw [← first.frame k (apart k late)]
      exact second.fresh k late
  · rw [List.mem_append, not_or] at absent
    rw [second.frame k absent.2, first.frame k absent.1]
  · rcases List.mem_append.mp member with early | late
    · obtain ⟨c, atK, name⟩ := first.named k early
      exact ⟨c, by rw [second.keeps (by rw [atK]; nofun), atK], name⟩
    · exact second.named k late

/-- The state while `k` is being explored from `s`: `new` are the constants explored
since, and the record of `k` has the name `name`. -/
structure Opened (h : Hierarchy κ) (k : κ) (name : String) (s t : Constants κ) (new : List κ) : Prop where
  updates : t.constantUpdates = s.constantUpdates ++ new
  nodup : new.Nodup
  fresh : ∀ j ∈ new, s.constantMap j = none ∧ j ≠ k
  frame : ∀ j, j ∉ new → j ≠ k → t.constantMap j = s.constantMap j
  named : ∀ j ∈ new, ∃ c, t.constantMap j = some c ∧ c.name = finalName h j
  record : ∃ c, t.constantMap k = some c ∧ c.name = name

theorem Constants.enter_self (s : Constants κ) (k : κ) (c : Constant) :
    (s.enter k c).constantMap k = some c :=
  Function.update_self ..

theorem Constants.enter_of_ne {s : Constants κ} {j k : κ} (other : j ≠ k) (c : Constant) :
    (s.enter k c).constantMap j = s.constantMap j :=
  Function.update_of_ne other _ _

theorem Opened.enter (s : Constants κ) (k : κ) (c : Constant) : Opened h k c.name s (s.enter k c) [] :=
  { updates := (List.append_nil _).symm
    nodup   := List.nodup_nil
    fresh   := by simp
    frame   := fun _ _ other => Constants.enter_of_ne other c
    named   := by simp
    record  := ⟨c, s.enter_self k c, rfl⟩ }

omit [DecidableEq κ] in
theorem Opened.explored {k : κ} {name : String} {s t u : Constants κ} {new more : List κ}
    (opened : Opened h k name s t new) (explored : Explored h t u more) :
    Opened h k name s u (new ++ more) := by
  obtain ⟨c, atK, named⟩ := opened.record
  have kept : u.constantMap k = t.constantMap k := explored.keeps (by rw [atK]; nofun)
  have apart : ∀ j ∈ more, j ∉ new ∧ j ≠ k := by
    refine fun j late => ⟨fun early => ?_, fun same => ?_⟩
    · obtain ⟨d, atJ, _⟩ := opened.named j early
      rw [explored.fresh j late] at atJ
      cases atJ
    · rw [same] at late
      rw [explored.fresh k late] at atK
      cases atK
  refine ⟨?_, ?_, fun j member => ?_, fun j absent other => ?_, fun j member => ?_, c, kept.trans atK, named⟩
  · rw [explored.updates, opened.updates, List.append_assoc]
  · exact opened.nodup.append explored.nodup fun j early late => (apart j late).1 early
  · rcases List.mem_append.mp member with early | late
    · exact opened.fresh j early
    · refine ⟨?_, (apart j late).2⟩
      rw [← opened.frame j (apart j late).1 (apart j late).2]
      exact explored.fresh j late
  · rw [List.mem_append, not_or] at absent
    rw [explored.frame j absent.2, opened.frame j absent.1 other]
  · rcases List.mem_append.mp member with early | late
    · obtain ⟨d, atJ, name⟩ := opened.named j early
      exact ⟨d, by rw [explored.keeps (by rw [atJ]; nofun), atJ], name⟩
    · exact explored.named j late

theorem Constants.modify_self {s : Constants κ} {k : κ} {c : Constant} (atK : s.constantMap k = some c)
    (f : Constant → Constant) : (s.modify k f).constantMap k = some (f c) := by
  simp only [Constants.modify, Function.update_self, atK, Option.map_some]

theorem Constants.modify_of_ne {s : Constants κ} {j k : κ} (other : j ≠ k) (f : Constant → Constant) :
    (s.modify k f).constantMap j = s.constantMap j :=
  Function.update_of_ne other _ _

theorem Opened.modify {k : κ} {name name' : String} {s t : Constants κ} {new : List κ}
    (opened : Opened h k name s t new) {f : Constant → Constant}
    (renames : ∀ c : Constant, c.name = name → (f c).name = name') :
    Opened h k name' s (t.modify k f) new := by
  obtain ⟨c, atK, named⟩ := opened.record
  refine ⟨opened.updates, opened.nodup, opened.fresh, fun j absent other => ?_, fun j member => ?_,
    f c, Constants.modify_self atK f, renames c named⟩
  · rw [Constants.modify_of_ne other, opened.frame j absent other]
  · obtain ⟨d, atJ, name⟩ := opened.named j member
    exact ⟨d, by rw [Constants.modify_of_ne (opened.fresh j member).2, atJ], name⟩

omit [DecidableEq κ] in
theorem Opened.close {k : κ} {s t : Constants κ} {new : List κ}
    (opened : Opened h k (finalName h k) s t new) (unknown : s.constantMap k = none) :
    Explored h s (t.pushUpdate k) (new ++ [k]) := by
  refine ⟨?_, ?_, fun j member => ?_, fun j absent => ?_, fun j member => ?_⟩
  · rw [Constants.pushUpdate, opened.updates, List.append_assoc]
  · refine opened.nodup.append (List.nodup_singleton k) fun j member same => ?_
    exact (opened.fresh j member).2 (List.mem_singleton.mp same)
  · rcases List.mem_append.mp member with early | same
    · exact (opened.fresh j early).1
    · rw [List.mem_singleton.mp same, unknown]
  · rw [List.mem_append, List.mem_singleton, not_or] at absent
    exact opened.frame j absent.1 absent.2
  · rcases List.mem_append.mp member with early | same
    · exact opened.named j early
    · rw [List.mem_singleton.mp same]
      exact opened.record

/-- What the explorations of other constants are known to do. -/
def ExploresWell (h : Hierarchy κ) (explore : Exploration κ) : Prop :=
  ∀ a s t met, explore a s = some (t, met) → (∃ new, Explored h s t new) ∧ t.constantMap a ≠ none

theorem Captures.opened {explore : Exploration κ} {k : κ} {sources : List κ} {name : String}
    {s t u : Constants κ} (captures : Captures explore k sources t u) (explores : ExploresWell h explore)
    {new : List κ} (opened : Opened h k name s t new) : ∃ more, Opened h k name s u more := by
  induction captures generalizing new with
  | done => exact ⟨new, opened⟩
  | visit member run mentions _ ih =>
    obtain ⟨⟨more, explored⟩, _⟩ := explores _ _ _ _ run
    exact ih ((opened.explored explored).modify fun c name => (mentions.kept c).trans name)

omit [DecidableEq κ] in
theorem exploreConstantNamespace_explored {explore : Exploration κ} (explores : ExploresWell h explore)
    {space : κ} {path : List String} {s t : Constants κ} {resolved : Bool}
    (run : exploreConstantNamespace h explore space path s = some (t, resolved)) :
    (∃ new, Explored h s t new) ∧ resolved = namespaceResolves h space path := by
  induction path generalizing space s with
  | nil =>
    cases run
    exact ⟨⟨[], .refl _⟩, rfl⟩
  | cons name path ih =>
    unfold exploreConstantNamespace at run
    unfold namespaceResolves
    cases found : h.constGetAt space name with
    | none =>
      simp only [found] at run ⊢
      cases run
      exact ⟨⟨[], .refl _⟩, rfl⟩
    | some next =>
      simp only [found] at run ⊢
      split at run
      next => cases run
      next u met explored =>
        obtain ⟨⟨new, first⟩, _⟩ := explores _ _ _ _ explored
        obtain ⟨⟨more, rest⟩, same⟩ := ih run
        exact ⟨⟨new ++ more, first.trans rest⟩, same⟩

/-- The namespace of a named constant is explored. It resolves, or the constant is renamed. -/
theorem exploreNamespaceOf_cases {explore : Exploration κ} {k : κ} {s t : Constants κ}
    (run : exploreNamespaceOf h explore k s = some t) :
    (h.modName k = none ∧ t = s) ∨
    (∃ name, h.modName k = some name ∧
      exploreConstantNamespace h explore h.cObject (namespaceOf h k) s = some (t, true)) ∨
    (∃ name u, h.modName k = some name ∧
      exploreConstantNamespace h explore h.cObject (namespaceOf h k) s = some (u, false) ∧
        t = u.modify k fun c => { c with anonymous := true, name := unresolvedName h k }) := by
  unfold exploreNamespaceOf at run
  cases named : h.modName k with
  | none =>
    simp only [named] at run
    cases run
    exact .inl ⟨rfl, rfl⟩
  | some name =>
    have path : namespaceOf h k = namespacePath [] name.toList := by simp only [namespaceOf, named]
    simp only [named, ← path] at run
    split at run
    next => cases run
    next u namespace' =>
      cases run
      exact .inr (.inl ⟨name, rfl, namespace'⟩)
    next u namespace' =>
      cases run
      exact .inr (.inr ⟨name, u, rfl, namespace', rfl⟩)

theorem exploreNamespaceOf_opened {explore : Exploration κ} (explores : ExploresWell h explore) {k : κ}
    {s t u : Constants κ} {new : List κ} (opened : Opened h k (initialConstant h k).name s t new)
    (run : exploreNamespaceOf h explore k t = some u) : ∃ more, Opened h k (finalName h k) s u more := by
  unfold finalName
  unfold initialConstant at opened
  rcases exploreNamespaceOf_cases run with ⟨named, rfl⟩ | ⟨name, named, namespace'⟩ | ⟨name, v, named, namespace', rfl⟩
  · simp only [named] at opened ⊢
    exact ⟨new, opened⟩
  · obtain ⟨⟨more, explored⟩, resolved⟩ := exploreConstantNamespace_explored explores namespace'
    simp only [named] at opened ⊢
    rw [if_pos resolved.symm]
    exact ⟨_, opened.explored explored⟩
  · obtain ⟨⟨more, explored⟩, resolved⟩ := exploreConstantNamespace_explored explores namespace'
    simp only [named] at opened ⊢
    rw [← resolved, if_neg Bool.false_ne_true]
    exact ⟨_, (opened.explored explored).modify fun _ _ => rfl⟩

/-- A constant in the map is left alone; any other is entered, and announced in the end. -/
theorem exploreConstant_cases {fuel : Nat} {k : κ} {s t : Constants κ} {met : List κ}
    (run : exploreConstant h (fuel + 1) k s = some (t, met)) :
    (s.constantMap k ≠ none ∧ t = s) ∨ (s.constantMap k = none ∧ ∃ u v w,
      exploreNamespaceOf h (exploreConstant h fuel) k (s.enter k (initialConstant h k)) = some u ∧
        exploreAncestors h (exploreConstant h fuel) k (h.modAncestors k) true ⟨u, [], []⟩ = some v ∧
          exploreSingletonAncestors h (exploreConstant h fuel) k (h.modAncestors (h.singletonClass k)) v = some w ∧
            t = w.constants.pushUpdate k) := by
  unfold exploreConstant at run
  split at run
  next known =>
    cases run
    exact .inl ⟨Option.isSome_iff_ne_none.mp known, rfl⟩
  next unknown =>
    split at run
    next => cases run
    next u namespaced =>
      split at run
      next => cases run
      next v ancestors =>
        split at run
        next => cases run
        next w singletons =>
          cases run
          exact .inr ⟨by simpa using unknown, u, v, w, namespaced, ancestors, singletons, rfl⟩

/-- `explore_constant` announces what it enters, exactly once and under its final name. -/
theorem exploreConstant_explored (fuel : Nat) : ExploresWell h (exploreConstant h fuel) := by
  induction fuel with
  | zero => intro a s t met run; cases run
  | succ fuel ih =>
    intro k s t met run
    rcases exploreConstant_cases run with ⟨known, rfl⟩ | ⟨fresh, u, v, w, namespaced, ancestors, singletons, rfl⟩
    · exact ⟨⟨[], .refl _⟩, known⟩
    · obtain ⟨new, opened⟩ := exploreNamespaceOf_opened ih (.enter s k (initialConstant h k)) namespaced
      obtain ⟨more, opened⟩ := (exploreAncestors_captures ancestors).opened ih opened
      obtain ⟨all, opened⟩ := (exploreSingletonAncestors_captures singletons).opened ih opened
      obtain ⟨c, atK, _⟩ := opened.record
      exact ⟨⟨_, opened.close fresh⟩, fun none => by simp [Constants.pushUpdate, atK] at none⟩

section
variable [Fintype κ]

/-- The constants that are not in the map yet. -/
def Constants.unexplored (s : Constants κ) : Finset κ :=
  Finset.univ.filter fun k => (s.constantMap k).isNone

omit [DecidableEq κ] in
theorem Constants.mem_unexplored {s : Constants κ} {k : κ} : k ∈ s.unexplored ↔ s.constantMap k = none := by
  simp [Constants.unexplored]

omit [DecidableEq κ] in
theorem Explored.unexplored {s t : Constants κ} {new : List κ} (explored : Explored h s t new) :
    t.unexplored.card ≤ s.unexplored.card := by
  refine Finset.card_le_card fun k member => ?_
  rw [Constants.mem_unexplored] at member ⊢
  by_contra known
  rw [explored.keeps known] at member
  exact known member

theorem Constants.unexplored_modify (s : Constants κ) (k : κ) (f : Constant → Constant) :
    (s.modify k f).unexplored = s.unexplored := by
  ext j
  rw [Constants.mem_unexplored, Constants.mem_unexplored]
  by_cases same : j = k
  · simp only [same, Constants.modify, Function.update_self, Option.map_eq_none_iff]
  · rw [Constants.modify_of_ne same]

theorem Constants.unexplored_enter {s : Constants κ} {k : κ} (fresh : s.constantMap k = none) (c : Constant) :
    (s.enter k c).unexplored.card < s.unexplored.card := by
  refine Finset.card_lt_card (Finset.ssubset_iff_subset_ne.mpr ⟨fun j member => ?_, fun same => ?_⟩)
  · rw [Constants.mem_unexplored] at member ⊢
    by_cases here : j = k
    · rw [here, fresh]
    · rwa [Constants.enter_of_ne here] at member
  · have member := Constants.mem_unexplored.mpr fresh
    rw [← same, Constants.mem_unexplored, Constants.enter_self] at member
    cases member

/-- The explorations return as long as no more than `n` constants are unexplored. -/
def Returns (explore : Exploration κ) (n : Nat) : Prop :=
  ∀ a s, s.unexplored.card ≤ n → ∃ t met, explore a s = some (t, met)

variable {explore : Exploration κ} {n : Nat} {k : κ}

omit [DecidableEq κ] in
theorem exploreConstantNamespace_total (explores : ExploresWell h explore) (returns : Returns explore n)
    (space : κ) (path : List String) {s : Constants κ} (few : s.unexplored.card ≤ n) :
    ∃ r, exploreConstantNamespace h explore space path s = some r := by
  induction path generalizing space s with
  | nil => exact ⟨_, rfl⟩
  | cons name path ih =>
    unfold exploreConstantNamespace
    cases h.constGetAt space name with
    | none => exact ⟨_, rfl⟩
    | some next =>
      obtain ⟨t, met, run⟩ := returns next s few
      obtain ⟨⟨new, explored⟩, _⟩ := explores _ _ _ _ run
      simp only [run]
      exact ih next (explored.unexplored.trans few)

theorem exploreNamespaceOf_total (explores : ExploresWell h explore) (returns : Returns explore n)
    {s : Constants κ} (few : s.unexplored.card ≤ n) : ∃ t, exploreNamespaceOf h explore k s = some t := by
  unfold exploreNamespaceOf
  cases h.modName k with
  | none => exact ⟨s, rfl⟩
  | some name =>
    obtain ⟨⟨t, resolved⟩, run⟩ := exploreConstantNamespace_total explores returns
      h.cObject (namespacePath [] name.toList) few
    cases resolved <;> simp only [run] <;> exact ⟨_, rfl⟩

theorem exploreAncestors_total (explores : ExploresWell h explore) (returns : Returns explore n)
    (ancestors : List κ) (prepended : Bool) {w : Walk κ} (few : w.constants.unexplored.card ≤ n) :
    ∃ w', exploreAncestors h explore k ancestors prepended w = some w' := by
  induction ancestors generalizing prepended w with
  | nil => exact ⟨w, rfl⟩
  | cons a ancestors ih =>
    obtain ⟨t, met, run⟩ := returns a w.constants few
    obtain ⟨⟨new, explored⟩, _⟩ := explores _ _ _ _ run
    unfold exploreAncestors
    simp only [run]
    split_ifs
    · exact ih _ few
    · exact ⟨_, rfl⟩
    · exact ih _ few
    · exact ⟨_, rfl⟩
    · exact ih _ few
    all_goals
      refine ih _ ?_
      rw [Constants.unexplored_modify]
      exact explored.unexplored.trans few

theorem exploreSingletonAncestors_total (explores : ExploresWell h explore) (returns : Returns explore n)
    (ancestors : List κ) {w : Walk κ} (few : w.constants.unexplored.card ≤ n) :
    ∃ w', exploreSingletonAncestors h explore k ancestors w = some w' := by
  induction ancestors generalizing w with
  | nil => exact ⟨w, rfl⟩
  | cons a ancestors ih =>
    obtain ⟨t, met, run⟩ := returns a w.constants few
    obtain ⟨⟨new, explored⟩, _⟩ := explores _ _ _ _ run
    unfold exploreSingletonAncestors
    simp only [run]
    split_ifs
    · exact ih few
    · exact ⟨_, rfl⟩
    · refine ih ?_
      rw [Constants.unexplored_modify]
      exact explored.unexplored.trans few
    · exact ih few

theorem Captures.unexplored (explores : ExploresWell h explore) {sources : List κ} {s t : Constants κ}
    (captures : Captures explore k sources s t) : t.unexplored.card ≤ s.unexplored.card := by
  induction captures with
  | done => exact le_rfl
  | visit member run _ _ ih =>
    obtain ⟨⟨new, explored⟩, _⟩ := explores _ _ _ _ run
    rw [Constants.unexplored_modify] at ih
    exact ih.trans explored.unexplored

theorem exploreNamespaceOf_unexplored (explores : ExploresWell h explore) {s t : Constants κ}
    (run : exploreNamespaceOf h explore k s = some t) : t.unexplored.card ≤ s.unexplored.card := by
  rcases exploreNamespaceOf_cases run with ⟨_, rfl⟩ | ⟨_, _, namespace'⟩ | ⟨_, u, _, namespace', rfl⟩
  · exact le_rfl
  · obtain ⟨⟨new, explored⟩, _⟩ := exploreConstantNamespace_explored explores namespace'
    exact explored.unexplored
  · obtain ⟨⟨new, explored⟩, _⟩ := exploreConstantNamespace_explored explores namespace'
    rw [Constants.unexplored_modify]
    exact explored.unexplored

/-- More fuel than unexplored constants is enough. -/
theorem exploreConstant_total (fuel : Nat) : Returns (exploreConstant h (fuel + 1)) fuel := by
  induction fuel with
  | zero =>
    intro k s few
    unfold exploreConstant
    have known : s.constantMap k ≠ none := by
      intro fresh
      have member := Constants.mem_unexplored.mpr fresh
      rw [Finset.card_eq_zero.mp (Nat.le_zero.mp few)] at member
      exact absurd member (Finset.notMem_empty k)
    rw [if_pos (Option.isSome_iff_ne_none.mpr known)]
    exact ⟨_, _, rfl⟩
  | succ fuel ih =>
    intro k s few
    have explores : ExploresWell h (exploreConstant h (fuel + 1)) := exploreConstant_explored (fuel + 1)
    unfold exploreConstant
    split
    next => exact ⟨_, _, rfl⟩
    next unknown =>
    have fresh : s.constantMap k = none := by simpa using unknown
    have fewer := Constants.unexplored_enter fresh (initialConstant h k)
    obtain ⟨t, namespaced⟩ := exploreNamespaceOf_total (k := k) explores ih
      (s := s.enter k (initialConstant h k)) (by omega)
    have left := exploreNamespaceOf_unexplored explores namespaced
    obtain ⟨v, ancestors⟩ := exploreAncestors_total (k := k) explores ih (h.modAncestors k) true
      (w := ⟨t, [], []⟩) (by simp only; omega)
    have more := (exploreAncestors_captures ancestors).unexplored explores
    obtain ⟨w, singletons⟩ := exploreSingletonAncestors_total (k := k) explores ih
      (h.modAncestors (h.singletonClass k)) (w := v) (by simp only at more; omega)
    simp only [namespaced, ancestors, singletons]
    exact ⟨_, _, rfl⟩

end

end

end Racer
