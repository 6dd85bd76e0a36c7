import Racer.Collectors.Unions
import Racer.Library.DeletingLoop

namespace Racer
open DeletingLoop Outcome

/-! Which bare instances `to_rbs_type` leaves in a union. -/

/-- The name that an instance with generic arguments prunes. -/
def ConstantInstance.prunes (c : ConstantInstance) : Option String :=
  if c.bare then none else some c.name

/-- The name that a bare instance is pruned by. -/
def ConstantInstance.prunedBy (c : ConstantInstance) : Option String :=
  if c.bare then some c.name else none

/-- The names that an instance with generic arguments prunes in its turn. The first
one that is not passed over does so, and lets the loop pass over as many of the next
constants as there are bare instances of the name in front of it. -/
def prunedNames (constants : List ConstantInstance) : List String :=
  reached ConstantInstance.prunes ConstantInstance.prunedBy [] [] 0 constants

/-- The constants of which a union is made, when `to_rbs_type` has pruned its list. -/
def survivors (constants : List ConstantInstance) : List ConstantInstance :=
  deleteBare (mergeBooleans (uniq constants))

/-- A constant of the list that is not pruned by any instance with generic arguments. -/
def Unpruned (constants : List ConstantInstance) (c : ConstantInstance) : Prop :=
  ¬ (c.bare = true ∧ c.name ∈ prunedNames (mergeBooleans (uniq constants)))

instance (constants : List ConstantInstance) (c : ConstantInstance) : Decidable (Unpruned constants c) :=
  inferInstanceAs (Decidable (¬ _))

/-- A plain instance of this name without generic arguments, or with them. -/
def ConstantInstance.Plainly (c : ConstantInstance) (name : String) (bare : Bool) : Prop :=
  c.name = name ∧ c.singleton = false ∧ c.bare = bare

/-- No member of the union is made from a bare instance, of which the list has an
instance with generic arguments, unless one of the two is a class object. -/
def DropsSubsumed (constants : List ConstantInstance) : Prop :=
  ∀ c ∈ survivors constants, c.Plainly c.name true → ∀ d ∈ constants, ¬ d.Plainly c.name false

/-- Every name with both kinds of instances is pruned in some turn. -/
def EveryNamePruned (constants : List ConstantInstance) : Prop :=
  ∀ c ∈ mergeBooleans (uniq constants), c.Plainly c.name true → ∀ d ∈ constants, d.Plainly c.name false →
    c.name ∈ prunedNames (mergeBooleans (uniq constants))

theorem deleteBareAt_eq_turn (constants : List ConstantInstance) (i : Nat) :
    deleteBareAt constants i = turn ConstantInstance.prunes ConstantInstance.prunedBy constants i := by
  unfold deleteBareAt turn
  cases constants[i]? with
  | none => rfl
  | some c =>
    simp only [ConstantInstance.prunes]
    by_cases bare : c.bare = true
    · simp only [if_pos bare]
    · simp only [if_neg bare]
      refine List.filter_congr fun other _ => ?_
      cases single : other.bare <;> simp [ConstantInstance.prunedBy, single]

theorem deleteBare_eq_left (constants : List ConstantInstance) :
    deleteBare constants = left ConstantInstance.prunedBy (prunedNames constants) constants := by
  have turns : deleteBareAt = turn ConstantInstance.prunes ConstantInstance.prunedBy :=
    funext fun constants => funext fun i => deleteBareAt_eq_turn constants i
  have apart : ∀ c : ConstantInstance, c.prunes ≠ none → c.prunedBy = none := by
    intro c full
    cases bare : c.bare with
    | true => exact absurd (by simp [ConstantInstance.prunes, bare]) full
    | false => simp [ConstantInstance.prunedBy, bare]
  rw [prunedNames, ← loop_eq_left apart, loop, deleteBare, turns]

/-- The survivors are the constants but the bare instances of the pruned names. -/
theorem mem_survivors_iff {constants : List ConstantInstance} {c : ConstantInstance} :
    c ∈ survivors constants ↔ c ∈ mergeBooleans (uniq constants) ∧ Unpruned constants c := by
  rw [survivors, deleteBare_eq_left, left, List.mem_filter]
  refine and_congr_right fun _ => ?_
  cases bare : c.bare <;> simp [Unpruned, ConstantInstance.prunedBy, bare]

/-- The survivors other than `bool` are the unpruned constants of the list. -/
theorem mem_survivors_iff_of_other {constants : List ConstantInstance} {c : ConstantInstance}
    (other : c.name ≠ "bool") :
    c ∈ survivors constants ↔ c ∈ constants ∧ isBoolean c = false ∧ Unpruned constants c := by
  rw [mem_survivors_iff, mem_mergeBooleans, mem_uniq]
  constructor
  · rintro ⟨⟨inside, notBoolean⟩ | ⟨rfl, _⟩, unpruned⟩
    · exact ⟨inside, notBoolean, unpruned⟩
    · exact absurd rfl other
  · rintro ⟨inside, notBoolean, unpruned⟩
    exact ⟨.inl ⟨inside, notBoolean⟩, unpruned⟩

/-- The pruning leaves a constant of every name. -/
theorem exists_survivor_named {constants : List ConstantInstance} {c : ConstantInstance}
    (merged : c ∈ mergeBooleans (uniq constants)) : ∃ d ∈ survivors constants, d.name = c.name := by
  rcases mem_deleteBare_of_mem merged with kept | ⟨_, superseded⟩
  · exact ⟨c, kept, rfl⟩
  · obtain ⟨d, inside, named⟩ := List.any_eq_true.mp superseded
    simp only [parameterised, Bool.and_eq_true, decide_eq_true_eq, Bool.not_eq_true'] at named
    rcases mem_deleteBare_of_mem inside with kept | ⟨bare, _⟩
    · exact ⟨d, kept, named.1⟩
    · rw [named.2] at bare
      cases bare

section
variable {env : Environment} {existingTypes : OrderedHash String ExistingType}

theorem constantType_ne_union (c : ConstantInstance) (types : List RbsType) :
    constantType env existingTypes c ≠ .ok (.union types) := by
  intro run
  obtain ⟨name, singleton, unions⟩ := c
  rw [constantType] at run
  split_ifs at run
  · cases run
  · cases run
  · obtain ⟨valid, _, rest⟩ := bind_eq_ok.mp run
    cases rest
  · obtain ⟨valid, _, rest⟩ := bind_eq_ok.mp run
    obtain ⟨args, _, made⟩ := bind_eq_ok.mp rest
    cases made

/-- The union that `to_rbs_type` builds has one member for each survivor, made of it. -/
theorem toRbsType_union {constants : List ConstantInstance} {types : List RbsType}
    (run : toRbsType env existingTypes constants = .ok (.union types)) :
    List.Forall₂ (fun c t => constantType env existingTypes c = .ok t) (survivors constants) types := by
  unfold toRbsType unionType at run
  split at run
  next => cases run
  next c _ => exact absurd run (constantType_ne_union c types)
  next constants' merged =>
    obtain ⟨made, each, same⟩ := bind_eq_ok.mp run
    cases same
    exact mapM_eq_ok.mp each

end

/-- The members of a union are made of the survivors one by one, and these drop the
subsumed bare instances exactly if every name with both kinds of instances is pruned in
some turn of the loop. -/
theorem drops_subsumed_iff (constants : List ConstantInstance) :
    (∀ env existingTypes types, toRbsType env existingTypes constants = .ok (.union types) →
      List.Forall₂ (fun c t => constantType env existingTypes c = .ok t) (survivors constants) types) ∧
      (DropsSubsumed constants ↔ EveryNamePruned constants) := by
  refine ⟨fun _ _ _ => toRbsType_union, ?_, ?_⟩
  · intro drops c member bare d there full
    by_contra kept
    have survives : c ∈ survivors constants := mem_survivors_iff.mpr ⟨member, fun gone => kept gone.2⟩
    exact drops c survives bare d there full
  · intro pruned c survives bare d there full
    obtain ⟨member, kept⟩ := mem_survivors_iff.mp survives
    exact kept ⟨bare.2.2, pruned c member bare d there full⟩

/-- Only arrays and hashes exist as RBS types. -/
def collections : OrderedHash String ExistingType :=
  (OrderedHash.empty.store "Array" ⟨{ typeParams := ["Elem"] }, toTypeName "Array"⟩).store "Hash"
    ⟨{ typeParams := ["K", "V"] }, toTypeName "Hash"⟩

/-- `[[], [1], { a: 1 }, {}]` -/
def bareLast : List ConstantInstance :=
  [{ name := "Array" }, { name := "Array", genericArguments := [[{ name := "Integer" }]] },
    { name := "Hash", genericArguments := [[{ name := "Symbol" }], [{ name := "Integer" }]] }, { name := "Hash" }]

/-- The deletion of the bare `Array` lets the loop pass over `Hash[Symbol, Integer]`. -/
theorem bare_hash_stays : ¬ DropsSubsumed bareLast ∧
    toRbsType (.ofDecls fun _ => none) collections bareLast = .ok (.union
      [.classInstance (toTypeName "Array") [.classInstance (toTypeName "Integer") []],
        .classInstance (toTypeName "Hash")
          [.classInstance (toTypeName "Symbol") [], .classInstance (toTypeName "Integer") []],
        .classInstance (toTypeName "Hash") [.any, .any]]) := by
  refine ⟨fun drops => ?_, by rfl⟩
  have member : ({ name := "Hash" } : ConstantInstance) ∈ survivors bareLast := by decide
  exact drops _ member ⟨rfl, rfl, rfl⟩
    { name := "Hash", genericArguments := [[{ name := "Symbol" }], [{ name := "Integer" }]] }
      (by simp [bareLast]) ⟨rfl, rfl, rfl⟩

end Racer
