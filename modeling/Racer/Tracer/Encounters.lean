import Racer.Tracer.Terminates

namespace Racer
open SkippingWalk Reaching

/-! At which moment an exploration comes to a constant, and which mixins it passes over
there, told from the hierarchy alone. -/

/-- The constants in the map, and those among them whose namespace is being explored. -/
structure Moment (κ : Type) where
  known : Set κ := ∅
  waiting : List κ := []

section
variable {κ : Type} [DecidableEq κ] (h : Hierarchy κ)

/-- What is known once `k` has been entered and these constants have been explored from it. -/
def knownAfter (known : Set κ) (k : κ) (visited : List κ) : Set κ :=
  reached (LeadsTo h) (insert k known) {a | a ∈ visited}

/-- The constants of the namespace of `k` that are explored before its sources. -/
def spaces (k : κ) : List κ :=
  resolvedNamespace h h.cObject (namespaceOf h k)

/-- What is known when the exploration of `k` comes to the source behind these. -/
def knownBefore (known : Set κ) (k : κ) (before : List (Source κ)) : Set κ :=
  knownAfter h known k (spaces h k ++ before.map Source.constant)

/-- `k`, which is explored for the first time, carries a module along: it mixes it in
itself, or it comes to a mixin that is explored for the first time and carries it along. -/
inductive Carries : Set κ → κ → κ → Prop
  | own {known k b} : k ∉ known → MixesIn h k b → Carries known k b
  | mixin {known k before x after b} : k ∉ known → sources h k = before ++ x :: after → x.role ≠ .superclass →
      Carries (knownBefore h known k before) x.constant b → Carries known k b

/-- One of these mixins of `k` carries the module along. -/
def CarriedBy (known : Set κ) (k : κ) (sources : List (Source κ)) (b : κ) : Prop :=
  ∃ before x after, sources = before ++ x :: after ∧ x.role ≠ .superclass ∧
    Carries h (knownBefore h known k before) x.constant b

/-- A source of `k` that is visited, not passed over: no mixin before it carries it along. -/
def Visited (known : Set κ) (k : κ) (x : Source κ) : Prop :=
  ∃ before after, sources h k = before ++ x :: after ∧ ∀ a ∈ x.key, ¬ CarriedBy h known k before a

/-- The name of a constant, which may change at the end of its namespace. -/
def nameAt (waiting : List κ) (a : κ) : String :=
  if a ∈ waiting then (initialConstant h a).name else finalName h a

/-- Exploring `k` at a moment comes to a constant that is explored for the first time. -/
inductive ComesTo : Moment κ → κ → Moment κ → κ → Prop
  | here {m k} : k ∉ m.known → ComesTo m k m k
  | space {m k before a after m' j} : k ∉ m.known → spaces h k = before ++ a :: after →
      ComesTo ⟨knownAfter h m.known k before, k :: m.waiting⟩ a m' j → ComesTo m k m' j
  | source {m k before x after m' j} : k ∉ m.known → sources h k = before ++ x :: after →
      ComesTo ⟨knownBefore h m.known k before, m.waiting⟩ x.constant m' j → ComesTo m k m' j

/-- Explorations of other constants report what these carry along. -/
def ReportsWell (explore : Exploration κ) : Prop :=
  ∀ a s t met, explore a s = some (t, met) → ∀ b, b ∈ met ↔ Carries h s.known a b

/-- Every constant of the map has the name it has at this moment. -/
def NamedAt (waiting : List κ) (s : Constants κ) : Prop :=
  ∀ j c, s.constantMap j = some c → c.name = nameAt h waiting j

/-- The record of `j` names the sources that were not passed over at this moment. -/
def RecordAt (m : Moment κ) (j : κ) (t : Constants κ) : Prop :=
  ∃ ys : List (Source κ), (∀ y, y ∈ ys ↔ Visited h m.known j y) ∧
    t.constantMap j = some (ys.foldl (fun c x => c.write x.role (nameAt h m.waiting x.constant)) (startRecord h j))

variable {h} {explore : Exploration κ} {k : κ} {known : Set κ}

theorem Carries.fresh {b : κ} (carries : Carries h known k b) : k ∉ known := by
  cases carries with
  | own fresh _ => exact fresh
  | mixin fresh _ _ _ => exact fresh

theorem Carries.brings {b : κ} (carries : Carries h known k b) : Brings h k b := by
  induction carries with
  | own _ mixes => exact .single mixes
  | mixin _ split list _ ih =>
    exact .head (mixesIn_of_source (split ▸ List.mem_append_right _ List.mem_cons_self) list) ih

theorem ComesTo.fresh {m m' : Moment κ} {j : κ} (comes : ComesTo h m k m' j) : k ∉ m.known := by
  cases comes with
  | here fresh => exact fresh
  | space fresh _ _ => exact fresh
  | source fresh _ _ => exact fresh

/-- Whatever an exploration comes to was not known before. -/
theorem ComesTo.unknown {m m' : Moment κ} {j : κ} (comes : ComesTo h m k m' j) : j ∉ m.known := by
  induction comes with
  | here fresh => exact fresh
  | space _ _ _ ih => exact fun known => ih (known_subset (Set.mem_insert_of_mem _ known))
  | source _ _ _ ih => exact fun known => ih (known_subset (Set.mem_insert_of_mem _ known))

theorem RecordAt.keep {m : Moment κ} {j : κ} {s t : Constants κ} (record : RecordAt h m j s)
    (kept : t.constantMap j = s.constantMap j) : RecordAt h m j t := by
  obtain ⟨ys, same, atJ⟩ := record
  exact ⟨ys, same, kept.trans atJ⟩

theorem carries_iff {b : κ} :
    Carries h known k b ↔ k ∉ known ∧ (MixesIn h k b ∨ CarriedBy h known k (sources h k) b) := by
  constructor
  · intro carries
    refine ⟨carries.fresh, ?_⟩
    cases carries with
    | own _ mixes => exact .inl mixes
    | mixin _ split list below => exact .inr ⟨_, _, _, split, list, below⟩
  · rintro ⟨fresh, mixes | ⟨before, x, after, split, list, below⟩⟩
    · exact .own fresh mixes
    · exact .mixin fresh split list below

/-- No mixin comes before the first source. -/
theorem visited_first {y : Source κ} {after : List (Source κ)} (split : sources h k = y :: after) :
    Visited h known k y := by
  refine ⟨[], after, split, ?_⟩
  rintro a _ ⟨before, _, _, none, _⟩
  cases before <;> cases none

/-- An element in a list with one more at its end is that one or further in front. -/
theorem split_snoc {α : Type} {xs before after : List α} {x y : α} (split : xs ++ [x] = before ++ y :: after) :
    (before = xs ∧ y = x) ∨ ∃ rest, xs = before ++ y :: rest := by
  rcases List.eq_nil_or_concat after with rfl | ⟨rest, z, rfl⟩
  · obtain ⟨rfl, same⟩ := List.append_inj' split rfl
    exact .inl ⟨rfl, (List.singleton_inj.mp same).symm⟩
  · rw [List.concat_eq_append, ← List.cons_append, ← List.append_assoc] at split
    exact .inr ⟨rest, (List.append_inj' split rfl).1⟩

theorem knownAfter_snoc (visited : List κ) (a : κ) :
    knownAfter h known k (visited ++ [a]) = reached (LeadsTo h) (knownAfter h known k visited) {a} :=
  (reached_snoc ..).symm

theorem knownBefore_snoc (before : List (Source κ)) (x : Source κ) :
    knownBefore h known k (before ++ [x]) = reached (LeadsTo h) (knownBefore h known k before) {x.constant} := by
  rw [knownBefore, List.map_append, ← List.append_assoc]
  exact knownAfter_snoc _ x.constant

theorem carriedBy_snoc {before : List (Source κ)} {x : Source κ} {b : κ} :
    CarriedBy h known k (before ++ [x]) b ↔ CarriedBy h known k before b ∨
      x.role ≠ .superclass ∧ Carries h (knownBefore h known k before) x.constant b := by
  constructor
  · rintro ⟨first, y, rest, split, list, carries⟩
    rcases split_snoc split with ⟨rfl, rfl⟩ | ⟨rest, earlier⟩
    · exact .inr ⟨list, carries⟩
    · exact .inl ⟨first, y, rest, earlier, list, carries⟩
  · rintro (⟨first, y, rest, rfl, list, carries⟩ | ⟨list, carries⟩)
    · exact ⟨first, y, rest ++ [x], by simp, list, carries⟩
    · exact ⟨before, x, [], rfl, list, carries⟩

/-- The source that comes next was taken or passed over by now. -/
theorem Walks.split {met : List κ} {before xs : List (Source κ)} {s t : Constants κ}
    {taken : List (Taken (Source κ) κ)} (walks : Walks explore k met (before ++ xs) s taken t) :
    ∃ first u rest, Walks explore k met before s first u ∧ Walks explore k (met ++ inner first) xs u rest t ∧
      taken = first ++ rest := by
  induction before generalizing met s taken with
  | nil => exact ⟨[], s, taken, .nil, by simpa [inner] using walks, rfl⟩
  | cons x before ih =>
    cases walks with
    | skip atX there walks =>
      obtain ⟨first, u, rest, early, late, rfl⟩ := ih walks
      exact ⟨first, u, rest, .skip atX there early, late, rfl⟩
    | @take _ _ _ _ _ new _ _ fresh run walks =>
      obtain ⟨first, u, rest, early, late, rfl⟩ := ih walks
      exact ⟨⟨x, x.brought new⟩ :: first, u, rest, .take fresh run early, by simpa [inner] using late, rfl⟩

/-- What the walk up to a source has entered into the map and into its set. -/
theorem Walks.before (reaches : ReachesAll h explore) (reports : ReportsWell h explore)
    {before : List (Source κ)} {s t : Constants κ} {taken : List (Taken (Source κ) κ)}
    (walks : Walks explore k [] before s taken t) (start : s.known = knownBefore h known k []) :
    t.known = knownBefore h known k before ∧ ∀ b, b ∈ inner taken ↔ CarriedBy h known k before b := by
  induction before using List.reverseRecOn generalizing t taken with
  | nil =>
    cases walks
    exact ⟨start, fun b => by simp [inner, CarriedBy]⟩
  | append_singleton before x ih =>
    obtain ⟨first, u, rest, early, late, rfl⟩ := walks.split
    obtain ⟨same, brought⟩ := ih early
    rw [knownBefore_snoc]
    cases late with
    | skip atX there late =>
      cases late
      have seen : x.constant ∈ t.known := by
        rw [(Source.key_eq_some.mp atX).2]
        exact (early.reached reaches (by simp)).2 _ (by simpa using there)
      rw [same] at seen
      refine ⟨same.trans (reached_of_subset (Set.singleton_subset_iff.mpr seen)).symm, fun b => ?_⟩
      rw [List.append_nil, brought, carriedBy_snoc]
      exact (or_iff_left fun both => both.2.fresh seen).symm
    | @take _ _ _ _ v met _ _ fresh run late =>
      cases late
      refine ⟨?_, fun b => ?_⟩
      · rw [Constants.known_modify, (reaches _ _ _ _ run).1, same]
      · rw [carriedBy_snoc, ← brought, ← same, ← reports _ _ _ _ run b, ← Source.mem_brought]
        simp [inner]

/-- Of the sources one is the first to reach a constant. -/
theorem exists_first_source {j : κ} (fresh : j ∉ knownBefore h known k [])
    (member : j ∈ reached (LeadsTo h) (knownBefore h known k []) {a | a ∈ (sources h k).map Source.constant}) :
    ∃ before x after, sources h k = before ++ x :: after ∧ j ∉ knownBefore h known k before ∧
      j ∈ reached (LeadsTo h) (knownBefore h known k before) {x.constant} := by
  obtain ⟨constants, a, rest, all, unseen, seen⟩ := exists_first fresh member
  obtain ⟨before, tail, split, rfl, both⟩ := List.map_eq_append_iff.mp all
  obtain ⟨x, after, rfl, rfl, rfl⟩ := List.map_eq_cons_iff.mp both
  rw [knownBefore, knownAfter, List.map_nil, List.append_nil, reached_append] at unseen seen
  exact ⟨before, x, after, split, unseen, seen⟩

/-- A source is taken unless a mixin before it carries it along. -/
theorem Walks.mem_taken (reaches : ReachesAll h explore) (reports : ReportsWell h explore)
    {xs : List (Source κ)} {s t : Constants κ} {taken : List (Taken (Source κ) κ)}
    (walks : Walks explore k [] xs s taken t) (start : s.known = knownBefore h known k []) {y : Source κ} :
    y ∈ taken.map Taken.item ↔
      ∃ before after, xs = before ++ y :: after ∧ ∀ a ∈ y.key, ¬ CarriedBy h known k before a := by
  induction xs using List.reverseRecOn generalizing t taken with
  | nil =>
    cases walks
    simp
  | append_singleton xs x ih =>
    obtain ⟨first, u, rest, early, late, rfl⟩ := walks.split
    have brought := (early.before reaches reports start).2
    have last : y ∈ rest.map Taken.item ↔ y = x ∧ ∀ a ∈ y.key, ¬ CarriedBy h known k xs a := by
      cases late with
      | @skip _ _ a _ _ _ _ atX there late =>
        cases late
        rw [List.nil_append, brought] at there
        constructor
        · intro none
          cases none
        · rintro ⟨rfl, fresh⟩
          exact absurd there (fresh a atX)
      | take fresh run late =>
        cases late
        simp only [List.nil_append, brought] at fresh
        rw [List.map_singleton, List.mem_singleton]
        exact ⟨fun same => ⟨same, same ▸ fresh⟩, And.left⟩
    rw [List.map_append, List.mem_append, ih early, last]
    constructor
    · rintro (⟨before, after, rfl, fresh⟩ | ⟨rfl, fresh⟩)
      · exact ⟨before, after ++ [x], by simp, fresh⟩
      · exact ⟨xs, [], rfl, fresh⟩
    · rintro ⟨before, after, split, fresh⟩
      rcases split_snoc split with ⟨rfl, rfl⟩ | ⟨after, earlier⟩
      · exact .inr ⟨rfl, fresh⟩
      · exact .inl ⟨before, after, earlier, fresh⟩

/-- After its namespace an exploration knows what it meets its first source with. -/
theorem exploreNamespaceOf_known (reaches : ReachesAll h explore) {s u : Constants κ}
    (run : exploreNamespaceOf h explore k (s.enter k (initialConstant h k)) = some u) :
    u.known = knownBefore h s.known k [] := by
  rw [exploreNamespaceOf_reached reaches run, Constants.known_enter, knownBefore, List.map_nil, List.append_nil]
  rfl

/-- An exploration reports what its constant carries along. -/
theorem exploreConstant_reports (fuel : Nat) : ReportsWell h (exploreConstant h fuel) := by
  induction fuel with
  | zero => intro k s t met run; cases run
  | succ fuel ih =>
    intro k s t met run b
    by_cases unknown : s.constantMap k = none
    · have reaches : ReachesAll h (exploreConstant h fuel) := exploreConstant_reached fuel
      obtain ⟨u, v, new, taken, namespaced, _, _, walks, _, rfl⟩ := exploreConstant_walks run unknown
      have brought := (walks.before reaches ih (exploreNamespaceOf_known reaches namespaced)).2 b
      rw [carries_iff, List.mem_append, brought]
      refine ⟨fun member => ⟨fun known => known unknown, member.imp_left fun here => ?_⟩, fun ⟨_, member⟩ => ?_⟩
      · obtain ⟨x, was, atX⟩ := List.mem_filterMap.mp here
        exact ⟨x.item, walks.reads.sublist.subset (List.mem_map_of_mem was), atX⟩
      · refine member.elim (fun ⟨x, source, atX⟩ => ?_) .inr
        rcases walks.reads.taken_or_met source with ⟨y, was, rfl⟩ | ⟨a, atY, met | ⟨y, was, _, along⟩⟩
        · exact .inl (List.mem_filterMap.mpr ⟨y, was, atX⟩)
        · cases met
        · rw [atX] at atY
          cases Option.mem_some.mp atY
          exact .inr (brought.mp (List.mem_flatMap.mpr ⟨y, was, along⟩))
    · obtain ⟨_, rfl⟩ := exploreConstant_known run unknown
      exact ⟨fun none => absurd none List.not_mem_nil, fun carries => absurd unknown carries.fresh⟩

variable {waiting : List κ} {s t u : Constants κ} {new : List κ}

theorem nameAt_cons {j : κ} (other : j ≠ k) : nameAt h (k :: waiting) j = nameAt h waiting j := by
  simp [nameAt, other]

/-- While `k` is being explored the others have the names they would have without it. -/
theorem Opened.namedAt {name : String} (opened : Opened h k name s t new) (named : NamedAt h waiting s)
    (held : ∀ w ∈ waiting, w ∈ s.known) {waiting' : List κ} (own : name = nameAt h waiting' k)
    (others : ∀ j ≠ k, nameAt h waiting' j = nameAt h waiting j) : NamedAt h waiting' t := by
  intro j c atJ
  by_cases same : j = k
  · subst same
    obtain ⟨d, atD, name⟩ := opened.record
    rw [atD] at atJ
    cases atJ
    exact name.trans own
  · rw [others j same]
    by_cases recent : j ∈ new
    · obtain ⟨d, atD, final⟩ := opened.named j recent
      rw [atD] at atJ
      cases atJ
      have absent : j ∉ waiting := fun member => held j member (opened.fresh j recent).1
      rw [final, nameAt, if_neg absent]
    · rw [opened.frame j recent same] at atJ
      exact named j c atJ

/-- The names while the sources of `k` are explored. -/
theorem Opened.namedFinally (opened : Opened h k (finalName h k) s t new) (named : NamedAt h waiting s)
    (held : ∀ w ∈ waiting, w ∈ s.known) (unknown : s.constantMap k = none) : NamedAt h waiting t := by
  have absent : k ∉ waiting := fun member => held k member unknown
  exact opened.namedAt named held (by rw [nameAt, if_neg absent]) fun _ _ => rfl

/-- The names while the namespace of `k` is explored. -/
theorem Opened.namedFirst (opened : Opened h k (initialConstant h k).name s t new) (named : NamedAt h waiting s)
    (held : ∀ w ∈ waiting, w ∈ s.known) : NamedAt h (k :: waiting) t :=
  opened.namedAt named held (by simp [nameAt]) fun _ => nameAt_cons

/-- An exploration of `a`, from a state with these constants, in the middle of that of `k`;
what it has left is there in the end. -/
structure Visit (h : Hierarchy κ) (explore : Exploration κ) (k : κ) (name : String) (s t : Constants κ)
    (known : Set κ) (a : κ) (v w : Constants κ) : Prop where
  explored : ∃ met, explore a v = some (w, met)
  known : v.known = known
  opened : ∃ new, Opened h k name s v new
  kept : ∀ j ≠ k, w.constantMap j ≠ none → t.constantMap j = w.constantMap j

/-- The walk explores each source that is not known when its turn comes. -/
theorem Walks.visit (explores : ExploresWell h explore) (reaches : ReachesAll h explore)
    (reports : ReportsWell h explore) {before after : List (Source κ)} {x : Source κ}
    {taken : List (Taken (Source κ) κ)} (walks : Walks explore k [] (before ++ x :: after) u taken t)
    (start : u.known = knownBefore h known k []) (opened : Opened h k (finalName h k) s u new)
    (fresh : x.constant ∉ knownBefore h known k before) :
    ∃ v w, Visit h explore k (finalName h k) s t (knownBefore h known k before) x.constant v w := by
  obtain ⟨first, v, rest, early, late, rfl⟩ := walks.split
  obtain ⟨same, brought⟩ := early.before reaches reports start
  cases late with
  | skip atX there late =>
    refine absurd ?_ fresh
    rw [(Source.key_eq_some.mp atX).2, ← same]
    exact (early.reached reaches (by simp)).2 _ (by simpa using there)
  | @take _ _ _ _ w met _ _ _ run late =>
    refine ⟨v, w, ⟨met, run⟩, same, early.captures.opened explores opened, fun j other there => ?_⟩
    rw [(late.captures.keeps explores (Constants.modify_known j there)).2.2 other, Constants.modify_of_ne other]

/-- Each constant of a namespace is explored in turn. -/
theorem exploreConstantNamespace_visit (explores : ExploresWell h explore) (reaches : ReachesAll h explore)
    {space a : κ} {path : List String} {before after : List κ} {name : String} {resolved : Bool}
    (run : exploreConstantNamespace h explore space path u = some (t, resolved))
    (split : resolvedNamespace h space path = before ++ a :: after) (opened : Opened h k name s u new) :
    ∃ v w, Visit h explore k name s t (reached (LeadsTo h) u.known {b | b ∈ before}) a v w := by
  induction path generalizing space u new before with
  | nil => simp [resolvedNamespace] at split
  | cons fragment path ih =>
    unfold exploreConstantNamespace at run
    cases found : h.constGetAt space fragment with
    | none => simp [resolvedNamespace, found] at split
    | some next =>
      simp only [found] at run
      rw [resolvedNamespace_cons found] at split
      split at run
      next => cases run
      next v met first =>
        obtain ⟨⟨more, explored⟩, _⟩ := explores _ _ _ _ first
        obtain ⟨⟨rest, later⟩, _⟩ := exploreConstantNamespace_explored explores run
        cases before with
        | nil =>
          obtain ⟨rfl, rfl⟩ := List.cons.inj split
          exact ⟨u, v, ⟨met, first⟩, (reached_nil ..).symm, ⟨new, opened⟩, fun j _ there => later.keeps there⟩
        | cons b before =>
          obtain ⟨rfl, rest⟩ := List.cons.inj split
          obtain ⟨v', w, visit⟩ := ih run rest (opened.explored explored)
          rw [(reaches _ _ _ _ first).1, reached_cons] at visit
          exact ⟨v', w, visit⟩

theorem exploreNamespaceOf_visit (explores : ExploresWell h explore) (reaches : ReachesAll h explore)
    {before after : List κ} {a : κ}
    (run : exploreNamespaceOf h explore k (s.enter k (initialConstant h k)) = some t)
    (split : spaces h k = before ++ a :: after) :
    ∃ v w, Visit h explore k (initialConstant h k).name s t (knownAfter h s.known k before) a v w := by
  have opened := Opened.enter (h := h) s k (initialConstant h k)
  rw [knownAfter, ← Constants.known_enter s k (initialConstant h k)]
  rcases exploreNamespaceOf_cases run with ⟨named, _⟩ | ⟨_, _, namespace'⟩ | ⟨_, u, _, namespace', rfl⟩
  · simp [spaces, namespaceOf, named, resolvedNamespace] at split
  · exact exploreConstantNamespace_visit explores reaches namespace' split opened
  · obtain ⟨v, w, visit⟩ := exploreConstantNamespace_visit explores reaches namespace' split opened
    refine ⟨v, w, visit.explored, visit.known, visit.opened, fun j other there => ?_⟩
    rw [Constants.modify_of_ne other]
    exact visit.kept j other there

/-- Every constant that an exploration comes to is in the map in the end, with the record
of that moment. -/
theorem exploreConstant_records (fuel : Nat) {k j : κ} {s t : Constants κ} {met waiting : List κ} {m : Moment κ}
    (run : exploreConstant h fuel k s = some (t, met)) (named : NamedAt h waiting s)
    (held : ∀ w ∈ waiting, w ∈ s.known) (comes : ComesTo h ⟨s.known, waiting⟩ k m j) : RecordAt h m j t := by
  induction fuel generalizing k s t met waiting with
  | zero => cases run
  | succ fuel ih =>
    have explores : ExploresWell h (exploreConstant h fuel) := exploreConstant_explored fuel
    have reaches : ReachesAll h (exploreConstant h fuel) := exploreConstant_reached fuel
    have reports : ReportsWell h (exploreConstant h fuel) := exploreConstant_reports fuel
    have unknown : s.constantMap k = none := not_not.mp comes.fresh
    obtain ⟨u, v, new, taken, namespaced, opened, record, walks, rfl, _⟩ := exploreConstant_walks run unknown
    have start := exploreNamespaceOf_known reaches namespaced
    have held' (visited : List κ) : ∀ w ∈ k :: waiting, w ∈ knownAfter h s.known k visited := by
      intro w member
      refine known_subset ?_
      rcases List.mem_cons.mp member with rfl | member
      · exact Set.mem_insert w s.known
      · exact Set.mem_insert_of_mem k (held w member)
    -- what an inner exploration has recorded stays
    have inner {name : String} {end' x y : Constants κ} {visited waiting' : List κ} {a : κ}
        (visit : Visit h (exploreConstant h fuel) k name s end' (knownAfter h s.known k visited) a x y)
        (names : NamedAt h waiting' x) (holds : ∀ w ∈ waiting', w ∈ knownAfter h s.known k visited)
        (further : ComesTo h ⟨knownAfter h s.known k visited, waiting'⟩ a m j) : j ≠ k ∧ RecordAt h m j end' := by
      have other : j ≠ k := fun same => further.unknown (held' visited j (same ▸ List.mem_cons_self))
      obtain ⟨met, explored⟩ := visit.explored
      rw [← visit.known] at holds further
      have record := ih explored names holds further
      refine ⟨other, record.keep (visit.kept j other ?_)⟩
      obtain ⟨ys, _, atJ⟩ := record
      rw [atJ]
      simp
    cases comes with
    | here =>
      obtain ⟨more, closed⟩ := walks.captures.opened explores opened
      have names := closed.namedFinally named held unknown
      refine ⟨taken.map Taken.item, fun y => walks.mem_taken reaches reports start, ?_⟩
      have written := walks.record explores record
      refine written.trans (congrArg some (List.foldl_ext _ _ _ fun c x member => ?_))
      obtain ⟨y, was, rfl⟩ := List.mem_map.mp member
      obtain ⟨d, atY⟩ := Option.ne_none_iff_exists'.mp (walks.known explores was)
      simp only [Constants.nameOf, atY, names _ d atY]
    | space _ split further =>
      obtain ⟨x, y, visit⟩ := exploreNamespaceOf_visit explores reaches namespaced split
      obtain ⟨_, during⟩ := visit.opened
      obtain ⟨other, entered⟩ := inner visit (during.namedFirst named held) (held' _) further
      refine entered.keep ((walks.captures.keeps explores ?_).2.2 other)
      obtain ⟨ys, _, atJ⟩ := entered
      rw [atJ]
      simp
    | source _ split further =>
      rw [split] at walks
      obtain ⟨x, y, visit⟩ := walks.visit explores reaches reports start opened further.fresh
      obtain ⟨_, during⟩ := visit.opened
      have names := during.namedFinally named held unknown
      exact (inner visit names (fun w member => held' _ w (List.mem_cons_of_mem k member)) further).2

/-- An exploration comes to every constant that it enters into the map. -/
theorem exploreConstant_comesTo (fuel : Nat) {k j : κ} {s t : Constants κ} {met : List κ} (waiting : List κ)
    (run : exploreConstant h fuel k s = some (t, met)) (unknown : j ∉ s.known) (known : j ∈ t.known) :
    ∃ m, ComesTo h ⟨s.known, waiting⟩ k m j := by
  induction fuel generalizing k s t met waiting with
  | zero => cases run
  | succ fuel ih =>
    have explores : ExploresWell h (exploreConstant h fuel) := exploreConstant_explored fuel
    have reaches : ReachesAll h (exploreConstant h fuel) := exploreConstant_reached fuel
    have reports : ReportsWell h (exploreConstant h fuel) := exploreConstant_reports fuel
    by_cases explored : s.constantMap k = none
    · obtain ⟨u, v, new, taken, namespaced, opened, _, walks, rfl, _⟩ := exploreConstant_walks run explored
      have start := exploreNamespaceOf_known reaches namespaced
      have fresh : k ∉ s.known := fun there => there explored
      by_cases same : j = k
      · subst same
        exact ⟨_, .here fresh⟩
      have inner {name : String} {end' x y : Constants κ} {visited waiting' : List κ} {a : κ}
          (visit : Visit h (exploreConstant h fuel) k name s end' (knownAfter h s.known k visited) a x y)
          (unseen : j ∉ knownAfter h s.known k visited)
          (seen : j ∈ reached (LeadsTo h) (knownAfter h s.known k visited) {a}) :
          ∃ m, ComesTo h ⟨knownAfter h s.known k visited, waiting'⟩ a m j := by
        obtain ⟨met, run⟩ := visit.explored
        have all := (reaches _ _ _ _ run).1
        rw [visit.known] at all
        have further := ih waiting' run (visit.known ▸ unseen) (all ▸ seen)
        rwa [visit.known] at further
      by_cases early : j ∈ u.known
      · rw [start, knownBefore, List.map_nil, List.append_nil] at early
        obtain ⟨before, a, after, split, unseen, seen⟩ :=
          exists_first (fun there => (Set.mem_insert_iff.mp there).elim same unknown) early
        obtain ⟨x, y, visit⟩ := exploreNamespaceOf_visit explores reaches namespaced split
        obtain ⟨m, further⟩ := inner visit unseen seen
        exact ⟨m, .space fresh split further⟩
      · have late : j ∈ v.known := known
        rw [(walks.reached reaches (by simp)).1, start] at late
        rw [start] at early
        obtain ⟨before, x, after, split, unseen, seen⟩ := exists_first_source early late
        rw [split] at walks
        obtain ⟨y, z, visit⟩ := walks.visit explores reaches reports start opened (start_notMem unseen seen)
        obtain ⟨m, further⟩ := inner visit unseen seen
        exact ⟨m, .source fresh split further⟩
    · obtain ⟨rfl, _⟩ := exploreConstant_known run explored
      exact absurd known unknown

end

end Racer
