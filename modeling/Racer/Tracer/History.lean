import Mathlib.Logic.Relation
import Racer.Library.Transition
import Racer.Tracer.Instances
import Racer.Tracer.Mixins

namespace Racer.History
open SkippingWalk Transition

/-! What the record of a constant owes to the constants explored before it. -/

section
variable {κ : Type} [DecidableEq κ] (h : Hierarchy κ)

/-- A call of `explore_constant`. -/
def Explores (s t : Constants κ) : Prop :=
  ∃ fuel k met, exploreConstant h fuel k s = some (t, met)

/-- No mixin of `k` brings a later one along. -/
def BringsNoneLater (k : κ) : Prop :=
  (sources h k).Pairwise fun x y => ∀ a ∈ x.key, ∀ b ∈ y.key, ¬ Brings h a b

/-- The record of `k` with all of its mixins. -/
def completeRecord (k : κ) : Constant :=
  (sources h k).foldl (fun c x => c.write x.role (finalName h x.constant)) (startRecord h k)

variable {h}

/-- Where no mixin brings a later one along, an exploration writes all of them down. -/
theorem exploreConstant_complete {fuel : Nat} {k : κ} {s t : Constants κ} {met : List κ} (anchored : AnchoredAt h k)
    (apart : BringsNoneLater h k) (run : exploreConstant h fuel k s = some (t, met))
    (unknown : s.constantMap k = none) (suspended : Suspended h s k) :
    t.constantMap k = some (completeRecord h k) := by
  cases fuel with
  | zero => cases run
  | succ fuel =>
    have explores : ExploresWell h (exploreConstant h fuel) := exploreConstant_explored fuel
    obtain ⟨u, v, new, taken, _, opened, record, walks, rfl, _⟩ := exploreConstant_walks run unknown
    have everything : taken.map Taken.item = sources h k := by
      refine walks.reads.all (by simp) fun x was y before b atY brought => ?_
      obtain ⟨_, _, met, _, _, explored, same, _⟩ := walks.explored_from explores opened was
      rw [same] at brought
      obtain ⟨module_, there⟩ := Source.mem_brought.mp brought
      have atX : x.item.key = some x.item.constant := Source.key_eq_some.mpr ⟨module_, rfl⟩
      exact List.pairwise_iff_forall_sublist.mp apart before _ atX b atY (exploreConstant_brings fuel explored b there)
    have written := walks.final_record explores anchored opened suspended record
    rw [everything] at written
    exact written

/-- Between two calls every constant has its final name and comes from an exploration of its own. -/
theorem Explores.run {t : Constants κ} (run : Run (Explores h) {} t) :
    Named h t ∧ ∀ j, t.constantMap j ≠ none → ∃ k, EnteredBy h k j t := by
  induction run with
  | refl => exact ⟨fun k c atK => by simp at atK, fun j known => absurd rfl known⟩
  | @tail s t _ call ih =>
    obtain ⟨named, entered⟩ := ih
    obtain ⟨fuel, k, met, run⟩ := call
    obtain ⟨⟨new, explored⟩, _⟩ := exploreConstant_explored fuel _ _ _ _ run
    have suspended : Suspended h s k := fun w c atW misnamed => absurd (named w c atW) misnamed
    refine ⟨fun j c atJ => ?_, fun j known => ?_⟩
    · by_cases recent : j ∈ new
      · obtain ⟨d, atD, final⟩ := explored.named j recent
        rw [atD] at atJ
        cases atJ
        exact final
      · rw [explored.frame j recent] at atJ
        exact named j c atJ
    · by_cases before : s.constantMap j = none
      · exact ⟨k, exploreConstant_enters fuel _ _ _ _ run suspended j before known⟩
      · obtain ⟨k', was⟩ := entered j before
        exact ⟨k', was.keep .refl (explored.keeps before)⟩

/-- In every history the record of an explored constant is the complete one. -/
theorem record_of_run {k : κ} {t : Constants κ} (anchored : AnchoredAt h k) (apart : BringsNoneLater h k)
    (run : Run (Explores h) {} t) (known : t.constantMap k ≠ none) : t.constantMap k = some (completeRecord h k) := by
  obtain ⟨j, fuel, s, u, met, explored, unknown, suspended, _, same⟩ := (Explores.run run).2 k known
  rw [same]
  exact exploreConstant_complete anchored apart explored unknown suspended

/-- Where no mixin of a constant brings a later one along, its record does not depend
on what was explored before. -/
theorem record_independent {k : κ} {s t : Constants κ} (anchored : AnchoredAt h k) (apart : BringsNoneLater h k)
    (first : Run (Explores h) {} s) (second : Run (Explores h) {} t) (known : s.constantMap k ≠ none)
    (knownToo : t.constantMap k ≠ none) : s.constantMap k = t.constantMap k := by
  rw [record_of_run anchored apart first known, record_of_run anchored apart second knownToo]

theorem run_of_calls {fuel : Nat} {ks : List κ} {s t : Constants κ}
    (calls : ks.foldlM (fun s k => (exploreConstant h fuel k s).map Prod.fst) s = some t) : Run (Explores h) s t := by
  refine (Run.of_foldlM calls).lift id fun a b ⟨k, call⟩ => ?_
  obtain ⟨⟨c, met⟩, run, rfl⟩ := Option.map_eq_some_iff.mp call
  exact ⟨fuel, k, met, run⟩

end

/-- No namespace of the mixed program breaks off. -/
theorem mixed_anchored (k : Mixed × Bool) : AnchoredAt mixed k := by
  have resolves : ∀ k, namespaceResolves mixed mixed.cObject (namespaceOf mixed k) = true := by decide +kernel
  intro j broken
  rw [Broken, resolves j] at broken
  cases broken

/-- `S` is the same whether its modules are explored before it or not. -/
theorem record_independent_superclass : ∃ s t : Constants (Mixed × Bool),
    (s.constantMap (.S, false)).map (·.prependedModules) = some ["P"] ∧
      s.constantMap (.S, false) = t.constantMap (.S, false) := by
  have one : ([(.S, false)].foldlM (fun s k => (exploreConstant mixed 9 k s).map Prod.fst) {}).map
      (fun s => (s.constantMap (.S, false)).map (·.prependedModules)) = some (some ["P"]) := by decide +kernel
  have two : ([(.E, false), (.P, false), (.S, false)].foldlM
      (fun s k => (exploreConstant mixed 9 k s).map Prod.fst) {}).map
      (fun s => (s.constantMap (.S, false)).map (·.prependedModules)) = some (some ["P"]) := by decide +kernel
  obtain ⟨s, first, atS⟩ := Option.map_eq_some_iff.mp one
  obtain ⟨t, second, atT⟩ := Option.map_eq_some_iff.mp two
  have apart : BringsNoneLater mixed (.S, false) := by
    have alone : ∀ x ∈ sources mixed (.S, false), ∀ a ∈ x.key, sources mixed a = [] := by decide +kernel
    refine List.pairwise_iff_forall_sublist.mpr fun {x y} before a atX b _ brings => ?_
    obtain ⟨c, ⟨z, member, _⟩, _⟩ := Relation.TransGen.head'_iff.mp brings
    rw [alone x (before.subset List.mem_cons_self) a atX] at member
    cases member
  refine ⟨s, t, atS, record_independent (mixed_anchored _) apart (run_of_calls first) (run_of_calls second) ?_ ?_⟩
  · exact fun unknown => by simp [unknown] at atS
  · exact fun unknown => by simp [unknown] at atT

/-- `K` includes `M`, which extends `N`, and extends `N` itself: `N` is missing when
`M` is explored together with `K`. -/
theorem explored_mixin_forgotten : ∃ s t : Constants (Mixed × Bool),
    Run (Explores mixed) {} s ∧ Run (Explores mixed) {} t ∧ s.constantMap (.K, false) ≠ none ∧
      t.constantMap (.K, false) ≠ none ∧ s.constantMap (.K, false) ≠ t.constantMap (.K, false) := by
  have one : ([(.K, false)].foldlM (fun s k => (exploreConstant mixed 9 k s).map Prod.fst) {}).map
      (fun s => (s.constantMap (.K, false)).map (·.extendedModules)) = some (some ["E"]) := by decide +kernel
  have two : ([(.M, false), (.K, false)].foldlM (fun s k => (exploreConstant mixed 9 k s).map Prod.fst) {}).map
      (fun s => (s.constantMap (.K, false)).map (·.extendedModules)) = some (some ["N", "E"]) := by decide +kernel
  obtain ⟨s, first, atS⟩ := Option.map_eq_some_iff.mp one
  obtain ⟨t, second, atT⟩ := Option.map_eq_some_iff.mp two
  refine ⟨s, t, run_of_calls first, run_of_calls second, fun unknown => ?_, fun unknown => ?_, fun same => ?_⟩
  · simp [unknown] at atS
  · simp [unknown] at atT
  · rw [same, atT] at atS
    simp at atS

end Racer.History
