import Mathlib.Data.Fintype.EquivFin
import Racer.Tracer.Mixins

namespace Racer.OwnMixins
open SkippingWalk

/-! Which of the modules in the record of a class are its own. -/

section
variable {κ : Type} [DecidableEq κ] (h : Hierarchy κ)

/-- The lists of the record of `k` name these modules. -/
def Lists (t : Constants κ) (k : κ) (prepended included extended : List κ) : Prop :=
  ∃ c, t.constantMap k = some c ∧ c.prependedModules = prepended.map t.nameOf ∧
    c.includedModules = included.map t.nameOf ∧ c.extendedModules = extended.map t.nameOf

/-- `m` is found in the singleton class of `k` before that of the superclass. -/
def ExtendedItself (k superclass m : κ) : Prop :=
  m ∈ (h.modAncestors (h.singletonClass k)).takeWhile (· ≠ h.singletonClass superclass)

/-- No module of the superclass is in the record, unless `k` extends it itself. -/
def OwnOnly (k : κ) (t : Constants κ) : Prop :=
  ∃ prepended included extended, Lists t k prepended included extended ∧
    ∀ superclass ∈ (h.superclasses k).head?,
      (∀ m ∈ prepended ++ included, m ∉ h.modAncestors superclass) ∧
        ∀ m ∈ extended, m ∈ h.modAncestors (h.singletonClass superclass) → ExtendedItself h k superclass m

/-- What the two loops read of the ancestors has no module of the superclass, unless
`k` extends it itself. -/
def SharesNothing (k : κ) : Prop :=
  ∀ superclass ∈ (h.superclasses k).head?, ∀ x ∈ sources h k,
    (x.role = .prepended ∨ x.role = .included → x.constant ∉ h.modAncestors superclass) ∧
      (x.role = .extended → x.constant ∈ h.modAncestors (h.singletonClass superclass) →
        ExtendedItself h k superclass x.constant)

variable {h}

omit [DecidableEq κ] in
/-- The record of an explored constant lists what its walk has taken. -/
theorem lists_of_record {k : κ} {t : Constants κ} {xs : List (Source κ)}
    (record : t.constantMap k =
      some (xs.foldl (fun c x => c.write x.role (t.nameOf x.constant)) (startRecord h k))) :
    Lists t k (inRole xs .prepended) (inRole xs .included) (inRole xs .extended) := by
  refine ⟨_, record, ?_, ?_, ?_⟩
  · exact named_foldl .prepended (by simp) t.nameOf xs (startRecord h k)
  · exact named_foldl .included (by simp) t.nameOf xs (startRecord h k)
  · exact named_foldl .extended (by simp) t.nameOf xs (startRecord h k)

omit [DecidableEq κ] in
/-- Two ways to read the lists agree where constants have different names. -/
theorem Lists.unique {t : Constants κ} {k : κ} {prepended included extended prepended' included' extended' : List κ}
    (lists : Lists t k prepended included extended) (lists' : Lists t k prepended' included' extended')
    (apart : Function.Injective t.nameOf) :
    prepended = prepended' ∧ included = included' ∧ extended = extended' := by
  obtain ⟨c, atK, p, i, e⟩ := lists
  obtain ⟨c', atK', p', i', e'⟩ := lists'
  rw [atK] at atK'
  cases atK'
  have injective : Function.Injective (List.map t.nameOf) := List.map_injective_iff.mpr apart
  exact ⟨injective (p.symm.trans p'), injective (i.symm.trans i'), injective (e.symm.trans e')⟩

theorem ownOnly_of_sharesNothing {k : κ} (shares : SharesNothing h k) {fuel : Nat} {s t : Constants κ} {met : List κ}
    (unknown : s.constantMap k = none) (run : exploreConstant h fuel k s = some (t, met)) : OwnOnly h k t := by
  cases fuel with
  | zero => cases run
  | succ fuel =>
    obtain ⟨u, v, new, taken, _, opened, record, walks, rfl, _⟩ := exploreConstant_walks run unknown
    have written := walks.record (exploreConstant_explored fuel) record
    have source : ∀ x ∈ taken.map Taken.item, x ∈ sources h k := walks.reads.sublist.subset
    refine ⟨_, _, _, lists_of_record (t := v.pushUpdate k) written, fun superclass above => ⟨fun m member => ?_, ?_⟩⟩
    · rcases List.mem_append.mp member with there | there
      · obtain ⟨x, was, role, rfl⟩ := mem_inRole.mp there
        exact (shares superclass above x (source x was)).1 (.inl role)
      · obtain ⟨x, was, role, rfl⟩ := mem_inRole.mp there
        exact (shares superclass above x (source x was)).1 (.inr role)
    · intro m member inherited
      obtain ⟨x, was, role, rfl⟩ := mem_inRole.mp member
      exact (shares superclass above x (source x was)).2 role inherited

section
variable [Fintype κ]

/-- Names that tell all constants apart, and apart from a given one. -/
noncomputable def distinctName (taken : String) (j : κ) : String :=
  String.ofList (List.replicate (taken.length + 1 + Fintype.equivFin κ j) 'M')

omit [DecidableEq κ] in
theorem distinctName_length (taken : String) (j : κ) :
    (distinctName taken j).length = taken.length + 1 + Fintype.equivFin κ j := by
  simp [distinctName]

theorem distinct_names {k : κ} {s : Constants κ} {name : String}
    (others : ∀ j ≠ k, s.constantMap j = some { name := distinctName name j })
    (own : ∃ c, s.constantMap k = some c ∧ c.name = name) : Function.Injective s.nameOf := by
  obtain ⟨c, atK, named⟩ := own
  have ownName : s.nameOf k = name := by simp only [Constants.nameOf, atK, named]
  have otherName : ∀ j ≠ k, s.nameOf j = distinctName name j := fun j other => by
    simp only [Constants.nameOf, others j other]
  intro i j same
  have lengths := congrArg String.length same
  by_cases iSelf : i = k
  · by_cases jSelf : j = k
    · rw [iSelf, jSelf]
    · rw [iSelf, ownName, otherName j jSelf, distinctName_length] at lengths
      omega
  · by_cases jSelf : j = k
    · rw [jSelf, ownName, otherName i iSelf, distinctName_length] at lengths
      omega
    · rw [otherName i iSelf, otherName j jSelf, distinctName_length, distinctName_length] at lengths
      have position : Fintype.equivFin κ i = Fintype.equivFin κ j := Fin.ext (by omega)
      exact (Fintype.equivFin κ).injective position

/-- A map in which everything but `k` has been explored, under distinct names. -/
noncomputable def exploredBefore (h : Hierarchy κ) (k : κ) : Constants κ where
  constantMap j := if j = k then none else some { name := distinctName (finalName h k) j }

/-- When all else has been explored, every source is taken and names are distinct. -/
theorem exists_full_run (h : Hierarchy κ) (k : κ) :
    ∃ fuel t met, exploreConstant h fuel k (exploredBefore h k) = some (t, met) ∧ Function.Injective t.nameOf ∧
      Lists t k (inRole (sources h k) .prepended) (inRole (sources h k) .included)
        (inRole (sources h k) .extended) := by
  obtain ⟨t, met, run⟩ := exploreConstant_total (h := h) _ k (exploredBefore h k) le_rfl
  have unknown : (exploredBefore h k).constantMap k = none := if_pos rfl
  have before : ∀ j ≠ k, (exploredBefore h k).constantMap j = some { name := distinctName (finalName h k) j } :=
    fun j other => if_neg other
  obtain ⟨u, v, new, taken, _, opened, record, walks, rfl, _⟩ := exploreConstant_walks run unknown
  have explores := exploreConstant_explored (h := h) (exploredBefore h k).unexplored.card
  obtain ⟨more, closed⟩ := walks.captures.opened explores opened
  have kept : ∀ {w new}, Opened h k (finalName h k) (exploredBefore h k) w new → ∀ j ≠ k,
      w.constantMap j = some { name := distinctName (finalName h k) j } := by
    intro w new opened j other
    have old : j ∉ new := by
      intro recent
      have fresh := (opened.fresh j recent).1
      rw [before j other] at fresh
      cases fresh
    rw [opened.frame j old other, before j other]
  refine ⟨_, _, _, run, distinct_names (fun j other => kept closed j other) closed.record, ?_⟩
  · have everything : taken.map Taken.item = sources h k := by
      refine walks.reads.all (by simp) fun x was y _ b _ brought => ?_
      obtain ⟨w, u', met, more, reopened, explored, same, _⟩ := walks.explored_from explores opened was
      have known : w.constantMap x.item.constant ≠ none := by
        by_cases self : x.item.constant = k
        · obtain ⟨c, atK, _⟩ := reopened.record
          rw [self, atK]
          simp
        · rw [kept reopened _ self]
          simp
      obtain ⟨_, rfl⟩ := exploreConstant_known explored known
      rw [same, Source.mem_brought] at brought
      simp at brought
    have written := walks.record explores record
    rw [everything] at written
    exact lists_of_record written

/-- A class lists only its own modules, whatever has been explored before it, exactly
if the part of the ancestors that is read shares nothing with the superclass. -/
theorem own_only_iff (h : Hierarchy κ) (k : κ) :
    (∀ fuel s t met, s.constantMap k = none → exploreConstant h fuel k s = some (t, met) → OwnOnly h k t) ↔
      SharesNothing h k := by
  refine ⟨fun always => ?_, fun shares fuel s t met unknown run => ownOnly_of_sharesNothing shares unknown run⟩
  obtain ⟨fuel, t, met, run, apart, lists⟩ := exists_full_run h k
  obtain ⟨prepended, included, extended, read, own⟩ := always fuel _ t met (if_pos rfl) run
  obtain ⟨rfl, rfl, rfl⟩ := read.unique lists apart
  refine fun superclass above x member => ⟨fun role => ?_, fun role inherited => ?_⟩
  · refine (own superclass above).1 x.constant (List.mem_append.mpr ?_)
    exact role.imp (fun same => mem_inRole.mpr ⟨x, member, same, rfl⟩) fun same => mem_inRole.mpr ⟨x, member, same, rfl⟩
  · exact (own superclass above).2 x.constant (mem_inRole.mpr ⟨x, member, role, rfl⟩) inherited

end

end

/-- `K` is a subclass of `S`, which has `P` prepended and extends `E`: both are listed
for `K`. -/
theorem inherited_modules_listed : ∃ (t : Constants (Mixed × Bool)) (met : List (Mixed × Bool)),
    exploreConstant mixed 9 (.K, false) {} = some (t, met) ∧ ¬ OwnOnly mixed (.K, false) t := by
  have listed : (exploreConstant mixed 9 (.K, false) {}).map (fun r =>
      ((r.1.constantMap (.K, false)).map (·.includedModules), decide (∀ b, r.1.nameOf b = "P" → b = (.P, false)))) =
      some (some ["M", "P"], true) := by decide +kernel
  obtain ⟨r, run, values⟩ := Option.map_eq_some_iff.mp listed
  obtain ⟨names, only⟩ := Prod.mk.inj values
  refine ⟨r.1, r.2, run, fun ⟨prepended, included, extended, ⟨c, atK, _, includes, _⟩, own⟩ => ?_⟩
  rw [atK, Option.map_some, Option.some.injEq, includes] at names
  have there : "P" ∈ included.map r.1.nameOf := names ▸ by decide
  obtain ⟨b, member, named⟩ := List.mem_map.mp there
  obtain rfl := of_decide_eq_true only b named
  exact (own (.S, false) (by decide)).1 _ (List.mem_append_right _ member) (by decide)

end Racer.OwnMixins
