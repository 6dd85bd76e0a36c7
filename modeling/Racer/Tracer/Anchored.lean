import Racer.Tracer.Explored

namespace Racer

section
variable {κ : Type} [DecidableEq κ] {h : Hierarchy κ}

section
variable (h)

/-- The namespace of `k` breaks off, so `k` is renamed while it is being explored. -/
def Broken (k : κ) : Prop :=
  namespaceResolves h h.cObject (namespaceOf h k) = false

/-- Exploring the first constant leads to exploring the second. -/
def LeadsTo (k a : κ) : Prop :=
  a ∈ resolvedNamespace h h.cObject (namespaceOf h k) ∨ a ∈ mixins h k

/-- No constant whose namespace breaks off is mixed into, or inherited by, a
constant that is explored from the part of that namespace that does resolve. -/
def Anchored : Prop :=
  ∀ k, Broken h k → ∀ a ∈ resolvedNamespace h h.cObject (namespaceOf h k),
    ∀ d, Relation.ReflTransGen (LeadsTo h) a d → k ∉ mixins h d

/-- Of the mixins of `d` none has a broken namespace from which `d` is explored. -/
def AnchoredAt (d : κ) : Prop :=
  ∀ k, Broken h k → ∀ a ∈ resolvedNamespace h h.cObject (namespaceOf h k),
    Relation.ReflTransGen (LeadsTo h) a d → k ∉ mixins h d

/-- Every constant of the map that still has its first name leads to `k` through
its namespace. -/
def Suspended (s : Constants κ) (k : κ) : Prop :=
  ∀ w c, s.constantMap w = some c → c.name ≠ finalName h w →
    Broken h w ∧ ∃ a ∈ resolvedNamespace h h.cObject (namespaceOf h w), Relation.ReflTransGen (LeadsTo h) a k

/-- What a record mentions are final names of constants in the map. -/
def Mentioned (s : Constants κ) (c : Constant) : Prop :=
  ∀ n ∈ c.mentions, ∃ d, s.constantMap d ≠ none ∧ n = finalName h d

/-- The records entered since `s` mention final names of constants in the map only. -/
def Settled (s t : Constants κ) : Prop :=
  ∀ j, s.constantMap j = none → ∀ c, t.constantMap j = some c → Mentioned h t c

end

omit [DecidableEq κ] in
theorem Mentioned.mono {s t : Constants κ} {c : Constant} (mentioned : Mentioned h s c)
    (grows : ∀ d, s.constantMap d ≠ none → t.constantMap d ≠ none) : Mentioned h t c := by
  intro n member
  obtain ⟨d, known, same⟩ := mentioned n member
  exact ⟨d, grows d known, same⟩

omit [DecidableEq κ] in
theorem Settled.explored {s t u : Constants κ} {new : List κ} (settled : Settled h s t)
    (explored : Explored h t u new) (next : Settled h t u) : Settled h s u := by
  intro j fresh c atJ
  by_cases known : t.constantMap j = none
  · exact next j known c atJ
  · rw [explored.keeps known] at atJ
    refine (settled j fresh c atJ).mono fun d there => ?_
    rw [explored.keeps there]
    exact there

theorem Constants.modify_known {s : Constants κ} {k : κ} {f : Constant → Constant} (d : κ)
    (known : s.constantMap d ≠ none) : (s.modify k f).constantMap d ≠ none := by
  by_cases same : d = k
  · subst same
    obtain ⟨c, atD⟩ := Option.ne_none_iff_exists'.mp known
    rw [Constants.modify_self atD]
    nofun
  · rwa [Constants.modify_of_ne same]

theorem Settled.modify {s t : Constants κ} {k : κ} {name : String} {f : Constant → Constant}
    (settled : Settled h s t) (mentions : Mentions name f)
    (known : ∃ d, t.constantMap d ≠ none ∧ name = finalName h d) : Settled h s (t.modify k f) := by
  intro j fresh c atJ
  by_cases same : j = k
  · subst same
    obtain ⟨d, atD⟩ := Option.ne_none_iff_exists'.mp
      (show t.constantMap j ≠ none from fun none => by simp [Constants.modify, none] at atJ)
    rw [Constants.modify_self atD, Option.some.injEq] at atJ
    subst atJ
    refine fun n member => ?_
    rcases mentions.mentions d n member with old | rfl
    · exact (settled j fresh d atD).mono Constants.modify_known n old
    · obtain ⟨e, there, named⟩ := known
      exact ⟨e, Constants.modify_known e there, named⟩
  · rw [Constants.modify_of_ne same] at atJ
    exact (settled j fresh c atJ).mono Constants.modify_known

/-- While `k` is being explored, only `k` itself and constants that were suspended
before can still have their first name. -/
theorem Opened.misnamed {k w : κ} {name : String} {s t : Constants κ} {new : List κ} {c : Constant}
    (opened : Opened h k name s t new) (suspended : Suspended h s k) (atW : t.constantMap w = some c)
    (misnamed : c.name ≠ finalName h w) : (w = k ∧ name ≠ finalName h k) ∨ Broken h w ∧
      ∃ a ∈ resolvedNamespace h h.cObject (namespaceOf h w), Relation.ReflTransGen (LeadsTo h) a k := by
  by_cases same : w = k
  · subst same
    obtain ⟨d, atD, named⟩ := opened.record
    obtain rfl : d = c := by rw [atD] at atW; exact Option.some.inj atW
    exact .inl ⟨rfl, by rw [← named]; exact misnamed⟩
  · by_cases recent : w ∈ new
    · obtain ⟨d, atD, named⟩ := opened.named w recent
      obtain rfl : d = c := by rw [atD] at atW; exact Option.some.inj atW
      exact absurd named misnamed
    · rw [opened.frame w recent same] at atW
      exact .inr (suspended w c atW misnamed)

/-- A constant that `k` leads to may be explored next. -/
theorem Opened.suspended {k a : κ} {name : String} {s t : Constants κ} {new : List κ}
    (opened : Opened h k name s t new) (suspended : Suspended h s k) (leads : LeadsTo h k a)
    (renamed : name ≠ finalName h k →
      Broken h k ∧ a ∈ resolvedNamespace h h.cObject (namespaceOf h k)) : Suspended h t a := by
  intro w c atW misnamed
  rcases opened.misnamed suspended atW misnamed with ⟨rfl, first⟩ | ⟨broken, b, member, path⟩
  · obtain ⟨broken, member⟩ := renamed first
    exact ⟨broken, a, member, .refl⟩
  · exact ⟨broken, b, member, path.tail leads⟩

def SettlesWell (h : Hierarchy κ) (explore : Exploration κ) : Prop :=
  ∀ a s t met, explore a s = some (t, met) → Suspended h s a → Settled h s t

theorem Anchored.at (anchored : Anchored h) (d : κ) : AnchoredAt h d :=
  fun k broken a member path => anchored k broken a member d path

/-- The mixins of `k` have their final names when `k` copies them: one that has
not yet leads to `k` through its namespace, which an anchored hierarchy excludes. -/
theorem Opened.final {k a : κ} {s t : Constants κ} {new : List κ} (anchored : AnchoredAt h k)
    (opened : Opened h k (finalName h k) s t new) (suspended : Suspended h s k) (mixin : a ∈ mixins h k)
    (known : t.constantMap a ≠ none) : t.nameOf a = finalName h a := by
  obtain ⟨c, atA⟩ := Option.ne_none_iff_exists'.mp known
  simp only [Constants.nameOf, atA]
  by_contra misnamed
  rcases opened.misnamed suspended atA misnamed with ⟨_, first⟩ | ⟨broken, b, start, path⟩
  · exact first rfl
  · exact anchored a broken b start path mixin

theorem Captures.settled (anchored : Anchored h) {explore : Exploration κ} (explores : ExploresWell h explore)
    (settles : SettlesWell h explore) {k : κ} {sources : List κ} (subset : ∀ a ∈ sources, a ∈ mixins h k)
    {s t u : Constants κ} {new : List κ} (captures : Captures explore k sources t u)
    (opened : Opened h k (finalName h k) s t new) (suspended : Suspended h s k) (settled : Settled h s t) :
    Settled h s u := by
  induction captures generalizing new with
  | done => exact settled
  | @visit t v u met a f member run mentions _ ih =>
    obtain ⟨⟨more, explored⟩, known⟩ := explores _ _ _ _ run
    have mixin := subset a member
    have waiting := opened.suspended suspended (.inr mixin) (fun misnamed => absurd rfl misnamed)
    have later := settled.explored explored (settles _ _ _ _ run waiting)
    have reopened := opened.explored explored
    exact ih (reopened.modify fun c name => (mentions.kept c).trans name)
      (later.modify mentions ⟨a, known, reopened.final (anchored.at k) suspended mixin known⟩)

omit [DecidableEq κ] in
theorem resolvedNamespace_cons {space next : κ} {name : String} {path : List String}
    (found : h.constGetAt space name = some next) :
    resolvedNamespace h space (name :: path) = next :: resolvedNamespace h next path := by
  simp only [resolvedNamespace, found]

theorem exploreConstantNamespace_settled {explore : Exploration κ} (explores : ExploresWell h explore)
    (settles : SettlesWell h explore) {k : κ} {name : String} {space : κ} {path : List String}
    {s t u : Constants κ} {new : List κ} {resolved : Bool}
    (run : exploreConstantNamespace h explore space path t = some (u, resolved))
    (subset : ∀ a ∈ resolvedNamespace h space path, a ∈ resolvedNamespace h h.cObject (namespaceOf h k))
    (renamed : name ≠ finalName h k → Broken h k) (opened : Opened h k name s t new)
    (suspended : Suspended h s k) (settled : Settled h s t) : Settled h s u := by
  induction path generalizing space t new with
  | nil =>
    cases run
    exact settled
  | cons fragment path ih =>
    unfold exploreConstantNamespace at run
    cases found : h.constGetAt space fragment with
    | none =>
      simp only [found] at run
      cases run
      exact settled
    | some next =>
      simp only [found] at run
      rw [resolvedNamespace_cons found] at subset
      split at run
      next => cases run
      next v met first =>
        obtain ⟨⟨more, explored⟩, _⟩ := explores _ _ _ _ first
        have here := subset next List.mem_cons_self
        have waiting := opened.suspended suspended (.inl here) (fun misnamed => ⟨renamed misnamed, here⟩)
        exact ih run (fun a member => subset a (List.mem_cons_of_mem next member)) (opened.explored explored)
          (settled.explored explored (settles _ _ _ _ first waiting))

omit [DecidableEq κ] in
theorem initialConstant_misnamed {k : κ} (misnamed : (initialConstant h k).name ≠ finalName h k) :
    Broken h k := by
  unfold initialConstant finalName at misnamed
  unfold Broken
  cases named : h.modName k with
  | none => simp [named] at misnamed
  | some name =>
    by_contra resolves
    rw [Bool.not_eq_false] at resolves
    simp [named, resolves] at misnamed

theorem exploreNamespaceOf_settled {explore : Exploration κ} (explores : ExploresWell h explore)
    (settles : SettlesWell h explore) {k : κ} {s t u : Constants κ} {new : List κ}
    (run : exploreNamespaceOf h explore k t = some u) (opened : Opened h k (initialConstant h k).name s t new)
    (suspended : Suspended h s k) (settled : Settled h s t) : Settled h s u := by
  rcases exploreNamespaceOf_cases run with ⟨_, rfl⟩ | ⟨_, _, namespace'⟩ | ⟨_, v, _, namespace', rfl⟩
  · exact settled
  · exact exploreConstantNamespace_settled explores settles namespace' (fun _ member => member)
      initialConstant_misnamed opened suspended settled
  · have before := exploreConstantNamespace_settled explores settles namespace' (fun _ member => member)
      initialConstant_misnamed opened suspended settled
    intro j fresh c atJ
    by_cases same : j = k
    · subst same
      obtain ⟨d, atD⟩ := Option.ne_none_iff_exists'.mp
        (show v.constantMap j ≠ none from fun none => by simp [Constants.modify, none] at atJ)
      rw [Constants.modify_self atD, Option.some.injEq] at atJ
      subst atJ
      exact Mentioned.mono (c := d) (before j fresh d atD) Constants.modify_known
    · rw [Constants.modify_of_ne same] at atJ
      exact (before j fresh c atJ).mono Constants.modify_known

/-- In an anchored hierarchy the records that `explore_constant` enters mention
final names of constants in the map only. -/
theorem exploreConstant_settled (anchored : Anchored h) (fuel : Nat) : SettlesWell h (exploreConstant h fuel) := by
  induction fuel with
  | zero => intro a s t met run; cases run
  | succ fuel ih =>
    intro k s t met run suspended
    have explores : ExploresWell h (exploreConstant h fuel) := exploreConstant_explored fuel
    rcases exploreConstant_cases run with ⟨_, rfl⟩ | ⟨_, u, v, w, namespaced, ancestors, singletons, rfl⟩
    · intro j fresh c atJ
      rw [fresh] at atJ
      cases atJ
    · have first := Opened.enter (h := h) s k (initialConstant h k)
      have entered : Settled h s (s.enter k (initialConstant h k)) := by
        intro j fresh c atJ
        by_cases same : j = k
        · subst same
          rw [Constants.enter_self, Option.some.injEq] at atJ
          subst atJ
          intro n member
          unfold initialConstant at member
          split at member <;> simp [Constant.mentions] at member
        · rw [Constants.enter_of_ne same, fresh] at atJ
          cases atJ
      obtain ⟨new, opened⟩ := exploreNamespaceOf_opened explores first namespaced
      have settled := exploreNamespaceOf_settled explores ih namespaced first suspended entered
      have captured := exploreAncestors_captures ancestors
      obtain ⟨more, reopened⟩ := captured.opened explores opened
      have later := captured.settled anchored explores ih (fun a member => List.mem_append_left _ member)
        opened suspended settled
      exact (exploreSingletonAncestors_captures singletons).settled anchored explores ih
        (fun a member => List.mem_append_right _ member) reopened suspended later

end

end Racer
