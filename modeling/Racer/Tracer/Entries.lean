import Racer.Tracer.Nesting

namespace Racer
open Stateful Filter

/-! Which entries of a parameter list `assign_parameters` records. -/

/-- The entries the VM reports. Only a destructured parameter and `**nil` have no
name; the former is a req in methods and lambdas, and an opt in plain blocks. -/
inductive Reported : ParameterKind × Option String → Prop
  | named {kind} (name : String) : kind ≠ .nokey → (∀ s, kind ≠ .other s) → Reported (kind, some name)
  | destructured {kind} : kind = .req ∨ kind = .opt → Reported (kind, none)
  | nokey : Reported (.nokey, none)

/-- The name and type that the loop of `assign_parameters` records for an entry. -/
def entryParameter : ParameterKind × Option String → Option (Option String × ParamType)
  | (kind, some name) => kind.paramType.map fun paramType => (some name, paramType)
  | (.req, none) => some (none, .REQUIRED)
  | (_, none) => none

/-- The entries that stand for a parameter. -/
def Recordable (entry : ParameterKind × Option String) : Bool :=
  entry.1 ≠ .nokey ∧ entry.1 ≠ .block

/-- One parameter for each entry other than `nokey` and `block`, in their order,
with the name and the type of the entry. -/
def Records (entries : List (ParameterKind × Option String)) (params : List Parameter) : Prop :=
  params.length = (entries.filter Recordable).length ∧
    params.map (fun p => (p.name, some p.paramType)) =
      (entries.filter Recordable).map fun entry => (entry.2, entry.1.paramType)

/-- A destructured parameter of a plain block. -/
def DestructuredInBlock (entry : ParameterKind × Option String) : Prop :=
  entry.1 = .opt ∧ entry.2 = none

theorem Reported.entryParameter {entry : ParameterKind × Option String} (reported : Reported entry)
    (plain : ¬ DestructuredInBlock entry) : (entryParameter entry).map (fun p => (p.1, some p.2)) =
      if Recordable entry then some (entry.2, entry.1.paramType) else none := by
  cases reported with
  | @named kind name notNokey known =>
    cases kind with
    | nokey => exact absurd rfl notNokey
    | other s => exact absurd rfl (known s)
    | _ => rfl
  | @destructured kind kinds =>
    rcases kinds with rfl | rfl
    · rfl
    · exact absurd ⟨rfl, rfl⟩ plain
  | nokey => rfl

/-- What is recorded as optional has a name. -/
theorem entryParameter_ne_unnamed (entry : ParameterKind × Option String) :
    entryParameter entry ≠ some (none, .OPTIONAL) := by
  obtain ⟨kind, name⟩ := entry
  cases name with
  | some name => cases kind <;> simp [entryParameter, ParameterKind.paramType]
  | none => cases kind <;> simp [entryParameter]

theorem filterMap_entryParameter {entries : List (ParameterKind × Option String)}
    (reported : ∀ entry ∈ entries, Reported entry) (plain : ∀ entry ∈ entries, ¬ DestructuredInBlock entry) :
    (entries.filterMap entryParameter).map (fun p => (p.1, some p.2)) =
      (entries.filter Recordable).map fun entry => (entry.2, entry.1.paramType) := by
  induction entries with
  | nil => rfl
  | cons entry entries ih =>
    obtain ⟨first, rest⟩ := List.forall_mem_cons.mp reported
    obtain ⟨here, later⟩ := List.forall_mem_cons.mp plain
    have recorded := first.entryParameter here
    rw [List.filterMap_cons, List.filter_cons]
    by_cases recordable : Recordable entry = true
    · rw [if_pos recordable] at recorded ⊢
      obtain ⟨p, found, same⟩ := Option.map_eq_some_iff.mp recorded
      rw [found, List.map_cons, List.map_cons, ih rest later, same]
    · rw [if_neg recordable] at recorded ⊢
      rw [Option.map_eq_none_iff.mp recorded]
      exact ih rest later

section
variable {κ : Type} [DecidableEq κ] [Fintype κ] {h : Hierarchy κ} {fuel trace : Nat} {maxGenericDepth : Int}
  {args : Arguments κ} {o : Objects κ}

/-- A turn of the loop records what its entry stands for, from every state. -/
theorem assignParameter_entry {entry : ParameterKind × Option String} {g g' : Globals κ} {a : Assigned}
    (run : assignParameter h fuel maxGenericDepth trace args o entry g = some (a, g')) :
    a.parameter?.map (fun p => (p.name, p.paramType)) = entryParameter entry := by
  obtain ⟨kind, name⟩ := entry
  cases name with
  | none =>
    cases kind with
    | req =>
      obtain ⟨i, g₁, _, rest⟩ := bind_eq_some.mp run
      cases rest
      rfl
    | _ => cases run; rfl
  | some name =>
    cases kind with
    | block =>
      simp only [assignParameter] at run
      split_ifs at run
      · cases run; rfl
      · obtain ⟨b, g₁, _, rest⟩ := bind_eq_some.mp run
        cases rest
        rfl
    | _ =>
      obtain ⟨i, g₁, _, rest⟩ := bind_eq_some.mp run
      cases rest
      rfl

theorem assignAll_entries {entries : List (ParameterKind × Option String)} {params params' : List Parameter}
    {block block' : Option (BlockParameter ReturnTrace)} {g g' : Globals κ}
    (run : assignAll h fuel maxGenericDepth trace args o entries params block g = some ((params', block'), g')) :
    params'.map (fun p => (p.name, p.paramType)) =
      params.map (fun p => (p.name, p.paramType)) ++ entries.filterMap entryParameter := by
  induction entries generalizing params block g with
  | nil =>
    cases run
    simp
  | cons entry entries ih =>
    obtain ⟨a, g₁, first, rest⟩ := bind_eq_some.mp run
    have recorded := assignParameter_entry first
    rw [List.filterMap_cons, ← recorded]
    cases a with
    | parameter p => simpa [Assigned.parameter?] using ih rest
    | block b => exact ih rest
    | skipped => exact ih rest

theorem assignParameters_entries {params : List Parameter} {block : Option (BlockParameter ReturnTrace)}
    {g g' : Globals κ} (run : assignParameters h fuel maxGenericDepth trace args o g = some ((params, block), g')) :
    params.map (fun p => (p.name, p.paramType)) = args.parameters.filterMap entryParameter := by
  obtain ⟨⟨found, given⟩, g₁, first, rest⟩ := bind_eq_some.mp run
  have all : found.map (fun p => (p.name, p.paramType)) = args.parameters.filterMap entryParameter := by
    simpa using assignAll_entries first
  dsimp only at rest
  split_ifs at rest <;> cases rest <;> exact all

/-- The recorded parameters are the entries if and only if no entry is a destructured
parameter of a plain block. -/
theorem records_iff {entries : List (ParameterKind × Option String)} {params : List Parameter}
    (reported : ∀ entry ∈ entries, Reported entry)
    (found : params.map (fun p => (p.name, p.paramType)) = entries.filterMap entryParameter) :
    Records entries params ↔ ∀ entry ∈ entries, ¬ DestructuredInBlock entry := by
  have typed : params.map (fun p => (p.name, some p.paramType)) =
      (entries.filterMap entryParameter).map fun p => (p.1, some p.2) := by
    rw [← found, List.map_map]
    rfl
  constructor
  · rintro ⟨_, same⟩ entry member ⟨opt, unnamed⟩
    have recordable : entry ∈ entries.filter Recordable := by
      rw [List.mem_filter]
      exact ⟨member, by simp [Recordable, opt]⟩
    have there : ((none, some .OPTIONAL) : Option String × Option ParamType) ∈
        (entries.filter Recordable).map fun entry => (entry.2, entry.1.paramType) :=
      List.mem_map.mpr ⟨entry, recordable, by rw [opt, unnamed]; rfl⟩
    rw [← same, typed] at there
    obtain ⟨p, inside, pair⟩ := List.mem_map.mp there
    obtain ⟨other, _, recorded⟩ := List.mem_filterMap.mp inside
    obtain ⟨name, paramType⟩ := p
    cases pair
    exact entryParameter_ne_unnamed other recorded
  · intro plain
    have same := typed.trans (filterMap_entryParameter reported plain)
    exact ⟨by simpa using congrArg List.length same, same⟩

variable (h maxGenericDepth trace args o) in
/-- `assign_parameters` comes to an end, and records the entries. -/
def RecordsParameters (g : Globals κ) : Prop :=
  ∀ᶠ fuel in atTop, ∃ params block g',
    assignParameters h fuel maxGenericDepth trace args o g = some ((params, block), g') ∧
      Records args.parameters params

/-- Every parameter is recorded if and only if none is destructured by a plain
block. The values of the parameters must come to an end. -/
theorem every_parameter_recorded_iff (h : Hierarchy κ) (maxGenericDepth : Int) (trace : Nat) (args : Arguments κ)
    (o : Objects κ) (g : Globals κ) (reported : ∀ entry ∈ args.parameters, Reported entry) :
    RecordsParameters h trace maxGenericDepth args o g ↔
      ReadsAll h maxGenericDepth args o ∧ ∀ entry ∈ args.parameters, ¬ DestructuredInBlock entry := by
  constructor
  · intro records
    obtain ⟨fuel, params, block, g', run, recorded⟩ := records.exists
    exact ⟨.of_returns ⟨g, _, run⟩, (records_iff reported (assignParameters_entries run)).mp recorded⟩
  · rintro ⟨reads, plain⟩
    filter_upwards [reads.total trace] with fuel total
    obtain ⟨⟨⟨params, block⟩, g'⟩, run⟩ := total g
    exact ⟨params, block, g', run, (records_iff reported (assignParameters_entries run)).mpr plain⟩

end

/-- A destructured parameter and a plain one, of a kind that the VM gives both in
methods (req) and in plain blocks (opt). -/
def pairArguments (kind : ParameterKind) : Arguments (Sample × Bool) where
  parameters := [(kind, none), (kind, some "c")]
  localVariable _ := .object 8
  localBlock _ := .nil
  blockGiven := false

def emptyObjects : Objects (Sample × Bool) where
  objClass _ := (.Object, false)
  array _ := []
  hash _ := []

/-- The plain block `proc { |(a, b), c| }` has one parameter recorded of two. -/
theorem destructured_in_block :
    (∀ entry ∈ (pairArguments .opt).parameters, Reported entry) ∧
      ¬ RecordsParameters sample 1 2 (pairArguments .opt) emptyObjects {} := by
  have reported : ∀ entry ∈ (pairArguments .opt).parameters, Reported entry :=
    List.forall_mem_cons.mpr ⟨.destructured (.inr rfl),
      List.forall_mem_singleton.mpr (.named "c" (by decide) (by simp))⟩
  refine ⟨reported, fun records => ?_⟩
  obtain ⟨fuel, params, block, g', run, recorded⟩ := records.exists
  have plain := (records_iff reported (assignParameters_entries run)).mp recorded
  exact plain (.opt, none) (by simp [pairArguments]) ⟨rfl, rfl⟩

/-- The method `def m((a, b), c)` has both recorded. -/
theorem destructured_in_method : RecordsParameters sample 1 2 (pairArguments .req) emptyObjects {} := by
  have reported : ∀ entry ∈ (pairArguments .req).parameters, Reported entry :=
    List.forall_mem_cons.mpr ⟨.destructured (.inl rfl),
      List.forall_mem_singleton.mpr (.named "c" (by decide) (by simp))⟩
  refine (every_parameter_recorded_iff sample 2 1 (pairArguments .req) emptyObjects {} reported).mpr ⟨?_, ?_⟩
  · exact fun entry _ _ name _ => .inr (.inr (.inl (by decide)))
  · simp [pairArguments, DestructuredInBlock]

end Racer
