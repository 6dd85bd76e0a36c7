import Mathlib.Data.Set.Finite.List
import Mathlib.Order.Filter.AtTopBot.Basic
import Mathlib.Order.Filter.Finite
import Racer.Tracer.Parameters

namespace Racer
open Stateful Filter

/-! Which values `value_to_constant_instance` comes to an end on. -/

section
variable {κ : Type} (h : Hierarchy κ)

/-- The elements that `generic_arguments_by_value` reads of a value. -/
def Contains (o : Objects κ) (value item : Value κ) : Prop :=
  (value.objClass h o = h.cArray ∧ item ∈ value.array o) ∨
    (value.objClass h o ≠ h.cArray ∧ value.objClass h o = h.cHash ∧
      ∃ entry ∈ value.hash o, item = entry.1 ∨ item = entry.2)

/-- No array or hash inside the value contains itself, however deep. -/
def FinitelyNested (o : Objects κ) (value : Value κ) : Prop :=
  Acc (fun item value => Contains h o value item) value

variable {h}
variable {σ : Type} {typeOf : Value κ → StateT σ Option ConstantInstance}

section
variable [DecidableEq κ]

theorem arrayTypes_total {objClass : Value κ → κ} {items : List (Value κ)}
    (total : ∀ item ∈ items, Total (typeOf item)) (types : List κ × List ConstantInstance) :
    Total (arrayTypes typeOf objClass items types) := by
  induction items generalizing types with
  | nil => exact .pure _
  | cons item items ih =>
    obtain ⟨first, rest⟩ := List.forall_mem_cons.mp total
    exact first.bind fun constant => ih rest _

theorem hashTypes_total {objClass : Value κ → κ} {items : List (Value κ × Value κ)}
    (total : ∀ entry ∈ items, Total (typeOf entry.1) ∧ Total (typeOf entry.2))
    (keys values : List κ × List ConstantInstance) : Total (hashTypes typeOf objClass items keys values) := by
  induction items generalizing keys values with
  | nil => exact .pure _
  | cons entry items ih =>
    obtain ⟨⟨key, value⟩, rest⟩ := List.forall_mem_cons.mp total
    exact key.bind fun _ => value.bind fun _ => ih rest _ _

theorem arrayTypes_reads {objClass : Value κ → κ} {items : List (Value κ)} {types : List κ × List ConstantInstance}
    (returns : CanReturn (arrayTypes typeOf objClass items types)) : ∀ item ∈ items, CanReturn (typeOf item) := by
  induction items generalizing types with
  | nil => simp
  | cons item items ih =>
    obtain ⟨first, _, rest⟩ := returns.of_bind
    exact List.forall_mem_cons.mpr ⟨first, ih rest⟩

theorem hashTypes_reads {objClass : Value κ → κ} {items : List (Value κ × Value κ)}
    {keys values : List κ × List ConstantInstance} (returns : CanReturn (hashTypes typeOf objClass items keys values)) :
    ∀ entry ∈ items, CanReturn (typeOf entry.1) ∧ CanReturn (typeOf entry.2) := by
  induction items generalizing keys values with
  | nil => simp
  | cons entry items ih =>
    obtain ⟨key, _, others⟩ := returns.of_bind
    obtain ⟨value, _, rest⟩ := others.of_bind
    exact List.forall_mem_cons.mpr ⟨⟨key, value⟩, ih rest⟩

theorem genericArgumentsByValue_total {o : Objects κ} {maxGenericDepth depth : Int} {value : Value κ}
    (total : depth = maxGenericDepth ∨ ∀ item, Contains h o value item → Total (typeOf item)) :
    Total (genericArgumentsByValue h typeOf o maxGenericDepth value depth) := by
  unfold genericArgumentsByValue
  split_ifs with atEnd array _ hash _
  · exact .pure _
  · exact .pure _
  · have inside := total.resolve_left atEnd
    exact (arrayTypes_total (fun item member => inside item (.inl ⟨array, member⟩)) _).bind fun _ => .pure _
  · exact .pure _
  · have inside := total.resolve_left atEnd
    refine (hashTypes_total (fun entry member => ?_) _ _).bind fun _ => .pure _
    exact ⟨inside _ (.inr ⟨array, hash, entry, member, .inl rfl⟩),
      inside _ (.inr ⟨array, hash, entry, member, .inr rfl⟩)⟩
  · exact .pure _

theorem genericArgumentsByValue_reads {o : Objects κ} {maxGenericDepth depth : Int} {value : Value κ}
    (inner : depth ≠ maxGenericDepth)
    (returns : CanReturn (genericArgumentsByValue h typeOf o maxGenericDepth value depth)) :
    ∀ item, Contains h o value item → CanReturn (typeOf item) := by
  intro item contains
  unfold genericArgumentsByValue at returns
  rw [if_neg inner] at returns
  rcases contains with ⟨array, member⟩ | ⟨other, hash, entry, member, same⟩
  · have some : value.array o ≠ [] := List.ne_nil_of_mem member
    rw [if_pos array, if_neg some] at returns
    exact arrayTypes_reads returns.of_bind.1 item member
  · have some : value.hash o ≠ [] := List.ne_nil_of_mem member
    rw [if_neg other, if_pos hash, if_neg some] at returns
    obtain ⟨key, val⟩ := hashTypes_reads returns.of_bind.1 entry member
    rcases same with rfl | rfl
    · exact key
    · exact val

end

section
variable [DecidableEq κ] [Fintype κ] {o : Objects κ} {maxGenericDepth : Int}

omit [DecidableEq κ] [Fintype κ] in
/-- A class object has no elements. -/
theorem not_contains_of_singleton {value item : Value κ} {klass : κ} [DecidableEq κ]
    (singleton : value.singleton h o = some klass) : ¬ Contains h o value item := by
  rcases value with k | id
  · rintro (⟨_, member⟩ | ⟨_, _, entry, member, _⟩) <;> cases member
  · cases singleton

theorem valueToConstantInstance_total_succ {fuel : Nat} {value : Value κ} {depth : Int}
    (total : depth = maxGenericDepth ∨
      ∀ item, Contains h o value item → Total (valueToConstantInstance h o maxGenericDepth fuel item (depth + 1))) :
    Total (valueToConstantInstance h o maxGenericDepth (fuel + 1) value depth) := by
  unfold valueToConstantInstance
  cases value.singleton h o with
  | some klass => exact Total.bind (classToConstantInstance_total klass []) fun _ => .pure _
  | none => exact (genericArgumentsByValue_total total).bind fun generics => classToConstantInstance_total _ generics

theorem valueToConstantInstance_reads {fuel : Nat} {value : Value κ} {depth : Int}
    (inner : depth ≠ maxGenericDepth)
    (returns : CanReturn (valueToConstantInstance h o maxGenericDepth (fuel + 1) value depth)) :
    ∀ item, Contains h o value item →
      CanReturn (valueToConstantInstance h o maxGenericDepth fuel item (depth + 1)) := by
  intro item contains
  unfold valueToConstantInstance at returns
  cases singleton : value.singleton h o with
  | some klass => exact absurd contains (not_contains_of_singleton singleton)
  | none =>
    simp only [singleton] at returns
    exact genericArgumentsByValue_reads inner returns.of_bind.1 item contains

/-- The depth bounds the recursion when it can be reached. -/
theorem valueToConstantInstance_total_of_le {fuel : Nat} {depth : Int} (bounded : depth ≤ maxGenericDepth)
    (enough : (maxGenericDepth - depth).toNat < fuel) (value : Value κ) :
    Total (valueToConstantInstance h o maxGenericDepth fuel value depth) := by
  induction fuel generalizing value depth with
  | zero => omega
  | succ fuel ih =>
    refine valueToConstantInstance_total_succ ?_
    by_cases atEnd : depth = maxGenericDepth
    · exact .inl atEnd
    · exact .inr fun item _ => ih (by omega) (by omega) item

variable (o) in
/-- What `value_to_constant_instance` can be called on at all. -/
def Readable (h : Hierarchy κ) (maxGenericDepth : Int) (value : Value κ) (depth : Int) : Prop :=
  depth ≤ maxGenericDepth ∨ FinitelyNested h o value

omit [DecidableEq κ] [Fintype κ] in
theorem contains_finite (value : Value κ) : {item | Contains h o value item}.Finite := by
  have listed : {item | Contains h o value item} ⊆
      {item | item ∈ value.array o ++ (value.hash o).map Prod.fst ++ (value.hash o).map Prod.snd} := by
    rintro item (⟨_, member⟩ | ⟨_, _, entry, member, rfl | rfl⟩) <;> simp only [Set.mem_ofPred_eq, List.mem_append]
    · exact .inl (.inl member)
    · exact .inl (.inr (List.mem_map_of_mem member))
    · exact .inr (List.mem_map_of_mem member)
  exact (List.finite_toSet _).subset listed

/-- With enough fuel a readable value is read from every state. -/
theorem Readable.total {value : Value κ} {depth : Int} (readable : Readable o h maxGenericDepth value depth) :
    ∀ᶠ fuel in atTop, Total (valueToConstantInstance h o maxGenericDepth fuel value depth) := by
  rcases readable with bounded | nested
  · filter_upwards [eventually_gt_atTop (maxGenericDepth - depth).toNat] with fuel enough
    exact valueToConstantInstance_total_of_le bounded enough value
  · induction nested generalizing depth with
    | intro value _ ih =>
      have inside : ∀ᶠ fuel in atTop, ∀ item ∈ {item | Contains h o value item},
          Total (valueToConstantInstance h o maxGenericDepth fuel item (depth + 1)) :=
        (eventually_all_finite (contains_finite value)).mpr fun item contains => ih item contains
      obtain ⟨N, enough⟩ := eventually_atTop.mp inside
      filter_upwards [eventually_gt_atTop N] with fuel more
      obtain ⟨fuel, rfl⟩ := Nat.exists_eq_add_of_le' (Nat.succ_le_of_lt (Nat.zero_lt_of_lt more))
      exact valueToConstantInstance_total_succ (.inr (enough fuel (by omega)))

theorem Readable.of_returns {fuel : Nat} {value : Value κ} {depth : Int}
    (returns : CanReturn (valueToConstantInstance h o maxGenericDepth fuel value depth)) :
    Readable o h maxGenericDepth value depth := by
  by_cases bounded : depth ≤ maxGenericDepth
  · exact .inl bounded
  · refine .inr ?_
    induction fuel generalizing value depth with
    | zero =>
      obtain ⟨_, _, run⟩ := returns
      cases run
    | succ fuel ih =>
      refine Acc.intro value fun item contains => ?_
      exact ih (valueToConstantInstance_reads (by omega) returns item contains) (by omega)

omit [DecidableEq κ] [Fintype κ] in
theorem onConstants_total {α : Type} {m : StateT (Constants κ) Option α} (total : Total m) :
    Total (onConstants m) := by
  intro g
  obtain ⟨⟨a, constants⟩, ran⟩ := total g.constants
  exact ⟨(a, { g with constants }), by simp only [onConstants, ran]⟩

omit [DecidableEq κ] [Fintype κ] in
theorem onConstants_reads {α : Type} {m : StateT (Constants κ) Option α} (returns : CanReturn (onConstants m)) :
    CanReturn m := by
  obtain ⟨g, r, run⟩ := returns
  unfold onConstants at run
  split at run
  next => cases run
  next a constants ran => exact ⟨g.constants, (a, constants), ran⟩

/-- What `assign_parameters` reads of a parameter with this name comes to an end. -/
def ReadsArgument (h : Hierarchy κ) (maxGenericDepth : Int) (args : Arguments κ) (o : Objects κ) (name : String) :
    Prop :=
  name = "*" ∨ name = "**" ∨ Readable o h maxGenericDepth (args.localVariable name) 0

def ReadsEntry (h : Hierarchy κ) (maxGenericDepth : Int) (args : Arguments κ) (o : Objects κ)
    (entry : ParameterKind × Option String) : Prop :=
  entry.1 ≠ .block → ∀ name ∈ entry.2, ReadsArgument h maxGenericDepth args o name

def ReadsAll (h : Hierarchy κ) (maxGenericDepth : Int) (args : Arguments κ) (o : Objects κ) : Prop :=
  ∀ entry ∈ args.parameters, ReadsEntry h maxGenericDepth args o entry

theorem ReadsArgument.total {args : Arguments κ} {name : String}
    (reads : ReadsArgument h maxGenericDepth args o name) :
    ∀ᶠ fuel in atTop, Total (namedType h fuel maxGenericDepth args o name) := by
  unfold namedType
  rcases reads with rfl | rfl | readable
  · exact .of_forall fun fuel => onConstants_total (classToConstantInstance_total _ _)
  · exact .of_forall fun fuel => onConstants_total (classToConstantInstance_total _ _)
  · filter_upwards [readable.total] with fuel total
    split_ifs
    · exact onConstants_total (classToConstantInstance_total _ _)
    · exact onConstants_total (classToConstantInstance_total _ _)
    · exact onConstants_total total

theorem ReadsArgument.of_returns {fuel : Nat} {args : Arguments κ} {name : String}
    (returns : CanReturn (namedType h fuel maxGenericDepth args o name)) :
    ReadsArgument h maxGenericDepth args o name := by
  unfold namedType at returns
  split_ifs at returns with rest keyrest
  · exact .inl rest
  · exact .inr (.inl keyrest)
  · exact .inr (.inr (.of_returns (onConstants_reads returns)))

omit [DecidableEq κ] [Fintype κ] in
theorem followBlock_total (trace : Nat) (name : String) (block : LocalBlock) :
    Total (followBlock (κ := κ) trace name block) := by
  intro g
  unfold followBlock
  split <;> exact ⟨_, rfl⟩

theorem ReadsEntry.total {args : Arguments κ} {entry : ParameterKind × Option String}
    (reads : ReadsEntry h maxGenericDepth args o entry) (trace : Nat) :
    ∀ᶠ fuel in atTop, Total (assignParameter h fuel maxGenericDepth trace args o entry) := by
  obtain ⟨kind, name⟩ := entry
  cases name with
  | none =>
    refine .of_forall fun fuel => ?_
    cases kind with
    | req => exact (onConstants_total (classToConstantInstance_total _ _)).bind fun _ => .pure _
    | _ => exact .pure _
  | some name =>
    by_cases block : kind = .block
    · subst block
      refine .of_forall fun fuel => ?_
      simp only [assignParameter]
      split_ifs
      · exact .pure _
      · exact (followBlock_total _ _ _).bind fun _ => .pure _
    · filter_upwards [(reads block name rfl).total] with fuel total
      cases kind with
      | block => exact absurd rfl block
      | _ => exact total.bind fun _ => .pure _

theorem ReadsEntry.of_returns {fuel trace : Nat} {args : Arguments κ} {entry : ParameterKind × Option String}
    (returns : CanReturn (assignParameter h fuel maxGenericDepth trace args o entry)) :
    ReadsEntry h maxGenericDepth args o entry := by
  obtain ⟨kind, name⟩ := entry
  intro block name' same
  cases Option.mem_def.mp same
  cases kind with
  | block => exact absurd rfl block
  | _ => exact .of_returns returns.of_bind.1

theorem assignAll_total (trace : Nat) {args : Arguments κ} {entries : List (ParameterKind × Option String)}
    (reads : ∀ entry ∈ entries, ReadsEntry h maxGenericDepth args o entry) :
    ∀ᶠ fuel in atTop, ∀ params block, Total (assignAll h fuel maxGenericDepth trace args o entries params block) := by
  induction entries with
  | nil => exact .of_forall fun fuel params block => .pure _
  | cons entry entries ih =>
    obtain ⟨first, rest⟩ := List.forall_mem_cons.mp reads
    filter_upwards [first.total trace, ih rest] with fuel total later params block
    refine total.bind fun a => ?_
    cases a with
    | parameter p => exact later _ _
    | block b => exact later _ _
    | skipped => exact later _ _

theorem assignAll_reads {fuel trace : Nat} {args : Arguments κ} {entries : List (ParameterKind × Option String)}
    {params : List Parameter} {block : Option (BlockParameter ReturnTrace)}
    (returns : CanReturn (assignAll h fuel maxGenericDepth trace args o entries params block)) :
    ∀ entry ∈ entries, ReadsEntry h maxGenericDepth args o entry := by
  induction entries generalizing params block with
  | nil => simp
  | cons entry entries ih =>
    obtain ⟨first, a, rest⟩ := returns.of_bind
    refine List.forall_mem_cons.mpr ⟨.of_returns first, ?_⟩
    cases a with
    | parameter p => exact ih rest
    | block b => exact ih rest
    | skipped => exact ih rest

/-- With enough fuel a readable parameter list is assigned from every state. -/
theorem ReadsAll.total {args : Arguments κ} (reads : ReadsAll h maxGenericDepth args o) (trace : Nat) :
    ∀ᶠ fuel in atTop, Total (assignParameters h fuel maxGenericDepth trace args o) := by
  filter_upwards [assignAll_total trace reads] with fuel total
  refine (total _ _).bind fun r => ?_
  dsimp only
  split_ifs <;> exact .pure _

theorem ReadsAll.of_returns {fuel trace : Nat} {args : Arguments κ}
    (returns : CanReturn (assignParameters h fuel maxGenericDepth trace args o)) :
    ReadsAll h maxGenericDepth args o :=
  assignAll_reads returns.of_bind.1

end

end

end Racer
