import Racer.Collectors.Coverage
import Racer.Collectors.Parameters

namespace Racer
open Outcome

/-! Whether the type of a block covers the calls of which it is made. -/

/-- The union of which the type of a rest parameter is made. -/
def Trace.Param.elements (p : Trace.Param) : Option (List ConstantInstance) :=
  match p.type with
  | .REST => if p.typeName.genericArguments.length = 1 then p.typeName.genericArguments[0]? else none
  | .KEYWORD_REST => if p.typeName.genericArguments.length = 2 then p.typeName.genericArguments[1]? else none
  | _ => none

/-- What was passed for the parameter: its type, or those of the elements or values of a rest. -/
def Trace.Param.observed (p : Trace.Param) : List ConstantInstance :=
  if p.type.isRest then p.elements.getD [] else [p.typeName]

/-- The constants with which the block was called. -/
def Trace.BlockTrace.instances (x : Trace.BlockTrace) : List ConstantInstance :=
  x.params.flatMap (fun p => p.typeName :: p.typeName.genericArguments.flatten) ++ x.returnType :: x.selfType.toList

/-- The block traces of traces. -/
def blockTraces (traces : List Trace) : List Trace.BlockTrace :=
  (traces.filterMap (·.blockParam)).flatMap (·.traces)

/-- Traces of one overload, whose block parameters have at most one block trace each. -/
structure OneOverload (traces : List Trace) : Prop where
  keys : ∀ t ∈ traces, ∀ u ∈ traces, t.overloadKey = u.overloadKey
  single : ∀ t ∈ traces, ∀ b ∈ t.blockParam, b.traces.length ≤ 1
  slots : ∀ x ∈ blockTraces traces, FunctionParameters.SingleSlots x.params

section
variable (env : Environment) (existingTypes : OrderedHash String ExistingType)

/-- The type of the block covers what was observed of its call. -/
structure Block.CoversCall (block : Block) (x : Trace.BlockTrace) : Prop where
  function : ∃ parameters returnType, block.type = .function parameters returnType ∧
    (∀ (n : Nat) p, x.params[n]? = some p → ∃ placed, parameters.slot (x.params.take n) p = some placed ∧
      ∀ c ∈ p.observed, Covers env placed.type c) ∧ Covers env returnType x.returnType
  selfType : ∀ i ∈ x.selfType, ∃ t, block.selfType = some t ∧ Covers env t i

/-- Where the first block trace has elements for a rest parameter, these stand for those of
the other block traces. -/
def RestsCovered (calls : List Trace.BlockTrace) : Prop :=
  ∀ first ∈ calls.head?, ∀ x ∈ calls, ∀ (n : Nat) p q union, first.params[n]? = some p → x.params[n]? = some q →
    p.elements = some union → ∀ c ∈ q.observed, Spans env existingTypes union c

end

section
variable {env : Environment} {existingTypes : OrderedHash String ExistingType}

theorem parameterType_rest {p : Trace.Param} (rest : p.type.isRest = true) (types : List ConstantInstance) :
    parameterType env existingTypes p.type (p.typeName :: types) =
      p.elements.elim (.ok .any) (toRbsType env existingTypes) := by
  unfold parameterType Trace.Param.elements
  simp only [List.head?_cons, Option.map_some, Option.getD_some]
  cases type : p.type with
  | REST =>
    simp only
    split
    next union single => simp [single]
    next other =>
      have none : p.typeName.genericArguments.length ≠ 1 := fun one => by
        obtain ⟨union, single⟩ := List.length_eq_one_iff.mp one
        exact other union single
      rw [if_neg none]
      rfl
  | KEYWORD_REST =>
    simp only
    split
    next key union pair => simp [pair]
    next other =>
      have none : p.typeName.genericArguments.length ≠ 2 := fun two => by
        obtain ⟨key, union, pair⟩ := List.length_eq_two.mp two
        exact other key union pair
      rw [if_neg none]
      rfl
  | _ =>
    rw [type] at rest
    cases rest

theorem parameterType_plain {type : ParamType} (plain : type.isRest = false) (types : List ConstantInstance) :
    parameterType env existingTypes type types = toRbsType env existingTypes types := by
  cases type <;> first | rfl | cases plain

theorem mem_generic_of_elements {p : Trace.Param} {union : List ConstantInstance} (elements : p.elements = some union) :
    union ∈ p.typeName.genericArguments := by
  unfold Trace.Param.elements at elements
  split at elements
  · split at elements
    · exact List.mem_of_getElem? elements
    · cases elements
  · split at elements
    · exact List.mem_of_getElem? elements
    · cases elements
  · cases elements

theorem isRest_of_elements {p : Trace.Param} {union : List ConstantInstance} (elements : p.elements = some union) :
    p.type.isRest = true := by
  unfold Trace.Param.elements at elements
  cases type : p.type <;> rw [type] at elements <;> first | rfl | cases elements

/-- All block traces of one overload key have the same parameters but for the types. -/
theorem blockTraces_shapes {traces : List Trace} (keys : ∀ t ∈ traces, ∀ u ∈ traces, t.overloadKey = u.overloadKey)
    (single : ∀ t ∈ traces, ∀ b ∈ t.blockParam, b.traces.length ≤ 1) {x y : Trace.BlockTrace}
    (inX : x ∈ blockTraces traces) (inY : y ∈ blockTraces traces) :
    x.params.map (fun p => (p.name, p.type)) = y.params.map fun p => (p.name, p.type) := by
  have key {x : Trace.BlockTrace} (member : x ∈ blockTraces traces) : ∃ t ∈ traces,
      t.overloadKey.2 = some (x.params.map fun p => (p.name, p.type)) := by
    obtain ⟨b, inB, inside⟩ := List.mem_flatMap.mp member
    obtain ⟨t, there, block⟩ := List.mem_filterMap.mp inB
    have one := single t there b block
    have only : b.traces = [x] := by
      obtain ⟨y, rest, split⟩ := List.exists_cons_of_ne_nil (List.ne_nil_of_mem inside)
      rw [split, List.length_cons] at one
      have none : rest = [] := List.eq_nil_of_length_eq_zero (by omega)
      rw [split, none, List.mem_singleton] at inside
      rw [split, none, inside]
    exact ⟨t, there, by simp [Trace.overloadKey, block, only]⟩
  obtain ⟨t, inT, keyX⟩ := key inX
  obtain ⟨u, inU, keyY⟩ := key inY
  rw [keys t inT u inU, keyY] at keyX
  exact (Option.some.inj keyX).symm

theorem OneOverload.shapes {traces : List Trace} (group : OneOverload traces) {x y : Trace.BlockTrace}
    (inX : x ∈ blockTraces traces) (inY : y ∈ blockTraces traces) :
    x.params.map (fun p => (p.name, p.type)) = y.params.map fun p => (p.name, p.type) :=
  blockTraces_shapes group.keys group.single inX inY

theorem counts_congr {before before' : List Trace.Param} (kinds : before.map (·.type) = before'.map (·.type))
    (kind : ParamType) : before.countP (·.type = kind) = before'.countP (·.type = kind) ∧
      (FunctionParameters.fromRest before).countP (·.type = kind) =
        (FunctionParameters.fromRest before').countP (·.type = kind) ∧
          before.any (·.type = .REST) = before'.any (·.type = .REST) := by
  induction before generalizing before' with
  | nil =>
    rw [List.map_eq_nil_iff.mp kinds.symm]
    exact ⟨rfl, rfl, rfl⟩
  | cons q rest ih =>
    rcases before' with _ | ⟨q', rest'⟩
    · cases kinds
    · rw [List.map_cons, List.map_cons, List.cons.injEq] at kinds
      obtain ⟨same, later⟩ := kinds
      obtain ⟨count, countRest, some⟩ := ih later
      refine ⟨?_, ?_, ?_⟩
      · rw [List.countP_cons, List.countP_cons, count, same]
      · rw [FunctionParameters.fromRest, FunctionParameters.fromRest, same]
        split
        · rw [List.countP_cons, List.countP_cons, count, same]
        · exact countRest
      · rw [List.any_cons, List.any_cons, some, same]

/-- The place of a parameter depends on the kinds only. -/
theorem slot_congr (f : FunctionParameters) {before before' : List Trace.Param} {p p' : Trace.Param}
    (kinds : before.map (·.type) = before'.map (·.type)) (name : p.name = p'.name) (type : p.type = p'.type) :
    f.slot before p = f.slot before' p' := by
  obtain ⟨required, trailing, rest⟩ := counts_congr kinds .REQUIRED
  obtain ⟨optional, _, _⟩ := counts_congr kinds .OPTIONAL
  unfold FunctionParameters.slot
  rw [name, type, required, trailing, rest, optional]

/-- The parameters of calls with the same shape, and the type of each position. -/
theorem methodParameters_types {first : Trace.BlockTrace} {rest : List Trace.BlockTrace}
    (sizes : ∀ x ∈ rest, x.params.length = first.params.length)
    (typed : ∀ (n : Nat) p, first.params[n]? = some p →
      ∃ t, typeAt env existingTypes ((first :: rest).map (·.params)) p n = .ok t)
    (single : FunctionParameters.SingleSlots first.params) :
    ∃ f, methodParameters env existingTypes ((first :: rest).map (·.params)) = .ok f ∧
      ∀ (n : Nat) p, first.params[n]? = some p → ∃ placed, f.slot (first.params.take n) p = some placed ∧
        typeAt env existingTypes ((first :: rest).map (·.params)) p n = .ok placed.type := by
  have each : ∀ entry ∈ first.params.zipIdx, ∃ t,
      typeAt env existingTypes ((first :: rest).map (·.params)) entry.1 entry.2 = .ok t := fun entry member =>
    typed entry.2 entry.1 (List.mem_zipIdx_iff_getElem?.mp member)
  obtain ⟨types, run⟩ := mapM_total each
  have images := mapM_eq_ok.mp run
  have lengths : first.params.length = types.length := by
    rw [← images.length_eq, List.length_zipIdx]
  have names : (first.params.zip types).map Prod.fst = first.params := List.map_fst_zip lengths.le
  have sets : ∀ set ∈ rest.map (·.params), set.length = first.params.length := by simpa using sizes
  refine ⟨.ofTypes (first.params.zip types), ?_, fun n p atN => ?_⟩
  · rw [List.map_cons, methodParameters_eq sets, ← List.map_cons, run]
    rfl
  · obtain ⟨inside, here⟩ := List.getElem?_eq_some_iff.mp atN
    have inTypes : n < types.length := lengths ▸ inside
    have entry : (first.params.zip types)[n]? = some (p, types[n]) := by
      rw [List.getElem?_zip_eq_some]
      exact ⟨atN, List.getElem?_eq_getElem inTypes⟩
    rw [← names] at single
    obtain ⟨placed, found, type⟩ := (FunctionParameters.slot_ofTypes single).2 n _ entry
    rw [List.map_take, names] at found
    have converted := (List.forall₂_iff_get.mp images).2 n (by rwa [List.length_zipIdx]) inTypes
    refine ⟨placed, found, ?_⟩
    rw [type]
    simpa [here] using converted

/-- `to_rbs_type` is sound for the constants of the calls. -/
def SoundFor (env : Environment) (existingTypes : OrderedHash String ExistingType) (calls : List Trace.BlockTrace) :
    Prop :=
  ∀ constants, constants ≠ [] → (∀ c ∈ constants, ∃ x ∈ calls, c ∈ x.instances) →
    ConvertsSoundly env existingTypes constants

theorem mem_instances_of_param {x : Trace.BlockTrace} {p : Trace.Param} (member : p ∈ x.params) :
    p.typeName ∈ x.instances ∧ ∀ u ∈ p.typeName.genericArguments, ∀ c ∈ u, c ∈ x.instances := by
  refine ⟨List.mem_append_left _ (List.mem_flatMap.mpr ⟨p, member, List.mem_cons_self⟩), fun u generic c inside => ?_⟩
  refine List.mem_append_left _ (List.mem_flatMap.mpr ⟨p, member, List.mem_cons_of_mem _ ?_⟩)
  exact List.mem_flatten.mpr ⟨u, generic, inside⟩

/-- What is made of the `n`-th parameters of the calls. -/
theorem column_sound {first : Trace.BlockTrace} {rest : List Trace.BlockTrace}
    (sound : SoundFor env existingTypes (first :: rest)) {n : Nat} {p : Trace.Param}
    (atN : first.params[n]? = some p) (full : ∀ u ∈ p.typeName.genericArguments, u ≠ []) :
    ∃ t, typeAt env existingTypes ((first :: rest).map (·.params)) p n = .ok t ∧
      if p.type.isRest then p.elements.elim (.ok .any) (toRbsType env existingTypes) = .ok t
      else ∀ x ∈ first :: rest, ∀ q, x.params[n]? = some q → Covers env t q.typeName := by
  have inFirst := mem_instances_of_param (List.mem_of_getElem? atN)
  unfold typeAt
  cases kind : p.type.isRest with
  | true =>
    have made : ∃ t, p.elements.elim (.ok .any) (toRbsType env existingTypes) = .ok t := by
      cases elements : p.elements with
      | none => exact ⟨.any, rfl⟩
      | some union =>
        have generic := mem_generic_of_elements elements
        obtain ⟨t, run, _⟩ := sound union (full union generic) fun c inside =>
          ⟨first, List.mem_cons_self, inFirst.2 union generic c inside⟩
        exact ⟨t, run⟩
    obtain ⟨t, run⟩ := made
    refine ⟨t, ?_, run⟩
    rw [List.map_cons, List.filterMap_cons_some (by rw [atN]; rfl), parameterType_rest kind, run]
  | false =>
    have column : ∀ c ∈ ((first :: rest).map (·.params)).filterMap fun set => set[n]?.map (·.typeName),
        ∃ x ∈ first :: rest, c ∈ x.instances := by
      intro c member
      obtain ⟨set, inside, there⟩ := List.mem_filterMap.mp member
      obtain ⟨x, call, rfl⟩ := List.mem_map.mp inside
      obtain ⟨q, atQ, rfl⟩ := Option.map_eq_some_iff.mp there
      exact ⟨x, call, (mem_instances_of_param (List.mem_of_getElem? atQ)).1⟩
    obtain ⟨t, run, covers⟩ := sound _ (by simp [atN]) column
    refine ⟨t, (parameterType_plain kind _).trans run, fun x call q atQ => covers _ ?_⟩
    exact List.mem_filterMap.mpr ⟨x.params, List.mem_map_of_mem call, by rw [atQ]; rfl⟩

/-- What is made of the self types of the calls. -/
theorem selfType_sound {calls : List Trace.BlockTrace} (sound : SoundFor env existingTypes calls) :
    ∃ selfType, (if (calls.filterMap (·.selfType)).isEmpty then pure none
        else some <$> toRbsType env existingTypes (calls.filterMap (·.selfType))) = Except.ok selfType ∧
      ∀ x ∈ calls, ∀ i ∈ x.selfType, ∃ t, selfType = some t ∧ Covers env t i := by
  by_cases noSelf : calls.filterMap (·.selfType) = []
  · refine ⟨none, by rw [noSelf]; rfl, fun x call i self => ?_⟩
    have inside : i ∈ calls.filterMap (·.selfType) := List.mem_filterMap.mpr ⟨x, call, self⟩
    rw [noSelf] at inside
    cases inside
  · obtain ⟨t, run, covers⟩ := sound _ noSelf fun c member => by
      obtain ⟨x, call, self⟩ := List.mem_filterMap.mp member
      exact ⟨x, call, List.mem_append_right _ (List.mem_cons_of_mem _ (Option.mem_toList.mpr self))⟩
    refine ⟨some t, ?_, fun x call i self => ⟨t, rfl, covers i (List.mem_filterMap.mpr ⟨x, call, self⟩)⟩⟩
    rw [if_neg (by simpa using noSelf), run]
    rfl

/-- A call of the same shape as the first has its parameters in the same slots. -/
theorem slots_of_shape {first x : Trace.BlockTrace} (f : FunctionParameters)
    (shape : x.params.map (fun p => (p.name, p.type)) = first.params.map fun p => (p.name, p.type)) {n : Nat}
    {q : Trace.Param} (atQ : x.params[n]? = some q) : ∃ p, first.params[n]? = some p ∧ q.type = p.type ∧
      f.slot (x.params.take n) q = f.slot (first.params.take n) p := by
  have atN := congrArg (·[n]?) shape
  simp only [List.getElem?_map, atQ, Option.map_some] at atN
  obtain ⟨p, atP, same⟩ := Option.map_eq_some_iff.mp atN.symm
  rw [Prod.mk.injEq] at same
  have kinds : (x.params.take n).map (·.type) = (first.params.take n).map (·.type) := by
    have types := congrArg (List.map Prod.snd) shape
    simp only [List.map_map] at types
    rw [List.map_take, List.map_take]
    exact congrArg (List.take n) types
  exact ⟨p, atP, same.2.symm, slot_congr f kinds same.1.symm same.2.symm⟩

/-- The block of an overload covers every observed call exactly if the elements of rest
parameters are covered by the type of those that the first block trace has. -/
theorem toBlock_covers_iff {traces : List Trace} (group : OneOverload traces)
    (full : ∀ x ∈ blockTraces traces, ∀ p ∈ x.params, ∀ u ∈ p.typeName.genericArguments, u ≠ [])
    (sound : SoundFor env existingTypes (blockTraces traces)) :
    ∃ block, toBlock env existingTypes (traces.filterMap (·.blockParam)) = .ok block ∧
      ((∀ x ∈ blockTraces traces, block.CoversCall env x) ↔ RestsCovered env existingTypes (blockTraces traces)) := by
  rcases calls : blockTraces traces with _ | ⟨first, rest⟩
  · refine ⟨⟨.untyped, none, (traces.filterMap (·.blockParam)).any (!·.traces.isEmpty)⟩, ?_, ?_⟩
    · rw [toBlock, ← blockTraces, calls]
      rfl
    · simp [RestsCovered]
  have shapes : ∀ x ∈ first :: rest, x.params.map (fun p => (p.name, p.type)) =
      first.params.map fun p => (p.name, p.type) := fun x member =>
    group.shapes (calls ▸ member) (calls ▸ List.mem_cons_self)
  have sizes : ∀ x ∈ rest, x.params.length = first.params.length := fun x member => by
    simpa using congrArg List.length (shapes x (List.mem_cons_of_mem first member))
  rw [calls] at sound full
  have column {n : Nat} {p : Trace.Param} (atN : first.params[n]? = some p) :=
    column_sound sound atN (full first List.mem_cons_self p (List.mem_of_getElem? atN))
  obtain ⟨parameters, built, slots⟩ := methodParameters_types sizes
    (fun n p atN => (column atN).imp fun _ => And.left) (group.slots first (calls ▸ List.mem_cons_self))
  obtain ⟨returnType, returns, returnCovers⟩ := sound ((first :: rest).map (·.returnType)) (by simp) fun c member => by
    obtain ⟨x, call, rfl⟩ := List.mem_map.mp member
    exact ⟨x, call, List.mem_append_right _ List.mem_cons_self⟩
  obtain ⟨selfType, selfs, selfCovers⟩ := selfType_sound sound
  refine ⟨⟨.function parameters returnType, selfType, (traces.filterMap (·.blockParam)).any (!·.traces.isEmpty)⟩,
    ?_, ?_⟩
  · have function : blockFunction env existingTypes (first :: rest) = .ok (.function parameters returnType) := by
      rw [blockFunction, if_neg (by simp), built, returns]
      rfl
    rw [toBlock, ← blockTraces, calls, function]
    exact bind_eq_ok.mpr ⟨_, rfl, bind_eq_ok.mpr ⟨selfType, selfs, rfl⟩⟩
  -- the types of all other positions cover what was observed there
  constructor
  · intro covers first' head x call n p q union atP atQ elements c observed
    cases head
    obtain ⟨parameters', _, same, params, _⟩ := (covers x call).function
    cases same
    obtain ⟨p', atP', type, place⟩ := slots_of_shape parameters (shapes x call) atQ
    rw [atP, Option.some.injEq] at atP'
    subst atP'
    obtain ⟨placed, found, covers⟩ := params n q atQ
    obtain ⟨placed', found', converted⟩ := slots n p atP
    rw [place, found', Option.some.injEq] at found
    subst found
    obtain ⟨t', made, type'⟩ := column atP
    rw [converted, Except.ok.injEq] at made
    rw [if_pos (isRest_of_elements elements), elements, Option.elim_some, ← made] at type'
    exact (covers_iff_spans type').mp (covers c observed)
  · intro rests x call
    refine ⟨⟨parameters, returnType, rfl, fun n q atQ => ?_, returnCovers _ (List.mem_map_of_mem call)⟩,
      selfCovers x call⟩
    obtain ⟨p, atP, type, place⟩ := slots_of_shape parameters (shapes x call) atQ
    obtain ⟨placed, found, converted⟩ := slots n p atP
    obtain ⟨t, made, covers⟩ := column atP
    rw [converted, Except.ok.injEq] at made
    refine ⟨placed, place.trans found, fun c observed => ?_⟩
    rw [made]
    split at covers
    next kind =>
      cases elements : p.elements with
      | none =>
        rw [elements] at covers
        cases covers
        exact .any
      | some union =>
        rw [elements] at covers
        exact (covers_iff_spans covers).mpr (rests first rfl x call n p q union atP atQ elements c observed)
    next kind =>
      rw [Trace.Param.observed, type, if_neg kind, List.mem_singleton] at observed
      rw [observed]
      exact covers x call q atQ

end

/-- `Integer` -/
def integer : ConstantInstance := { name := "Integer" }

/-- `String` -/
def string : ConstantInstance := { name := "String" }

/-- A call of `Pool#each` that calls its block `|first, *others|` once. -/
def callOfEach (first : ConstantInstance) (others : List (List ConstantInstance)) : Trace where
  methodOwner := { name := "Pool" }
  methodCallee := none
  methodName := "each"
  methodKind := .INSTANCE
  methodVisibility := .PUBLIC
  returnType := { name := "Pool" }
  params := []
  blockParam := some
    { name := some "block"
      traces :=
        [{ selfType := some { name := "Pool" }, returnType := first, blockParam := none
           params := [{ name := some "first", typeName := first, type := .REQUIRED },
             { name := some "others", typeName := { name := "Array", genericArguments := others }, type := .REST }] }] }
  constantUpdates := []

theorem callsOfEach_group (calls : List (ConstantInstance × List (List ConstantInstance))) :
    OneOverload (calls.map fun call => callOfEach call.1 call.2) := by
  refine ⟨fun t inT u inU => ?_, fun t inT b block => ?_, fun x member => ?_⟩
  · obtain ⟨_, _, rfl⟩ := List.mem_map.mp inT
    obtain ⟨_, _, rfl⟩ := List.mem_map.mp inU
    rfl
  · obtain ⟨_, _, rfl⟩ := List.mem_map.mp inT
    cases block
    exact le_rfl
  · obtain ⟨b, inB, inside⟩ := List.mem_flatMap.mp member
    obtain ⟨t, inT, block⟩ := List.mem_filterMap.mp inB
    obtain ⟨call, _, rfl⟩ := List.mem_map.mp inT
    cases block
    rw [List.mem_singleton.mp inside]
    exact .cons (by simp) (.cons nofun .nil)

/-- Lists of instances of ordinary classes are converted soundly. -/
theorem values_sound {constants : List ConstantInstance} (nonempty : constants ≠ [])
    (plain : ∀ c ∈ constants, c ∈ [integer, string, { name := "Pool" }, { name := "Array" },
      { name := "Array", genericArguments := [[integer]] }, { name := "Array", genericArguments := [[string]] }]) :
    ConvertsSoundly (.ofDecls fun _ => none) collections constants := by
  have facts : ∀ c ∈ constants, c.Arity ∧ c.singleton = false ∧ c.literal = false ∧
      validName (.ofDecls fun _ => none) c.name = .ok c.name ∧
        ∀ u ∈ c.genericArguments, u = [integer] ∨ u = [string] := by
    have all : ∀ c ∈ [integer, string, { name := "Pool" }, { name := "Array" },
        { name := "Array", genericArguments := [[integer]] }, { name := "Array", genericArguments := [[string]] }],
        c.Arity ∧ c.singleton = false ∧ c.literal = false ∧
          validName (.ofDecls fun _ => none) c.name = .ok c.name ∧
            ∀ u ∈ c.genericArguments, u = [integer] ∨ u = [string] := by decide +kernel
    exact fun c member => all c (plain c member)
  have single {c : ConstantInstance} (own : c = integer ∨ c = string) :
      ConvertsSoundly (.ofDecls fun _ => none) collections [c] := by
    have facts : c.Arity ∧ c.genericArguments = [] ∧ c.singleton = false ∧ c.literal = false ∧
        validName (.ofDecls fun _ => none) c.name = .ok c.name := by
      rcases own with rfl | rfl <;> decide +kernel
    have convertible : Convertible (.ofDecls fun _ => none) [c] :=
      .of_values (by simpa using ⟨facts.2.2.1, facts.2.2.2.1, _, facts.2.2.2.2⟩)
    exact convertible.sound (ofDecls_keepsCapitals _) collections_exist (by simp) (by simpa using facts.1)
      (by simp [facts.2.1])
  have convertible : Convertible (.ofDecls fun _ => none) constants :=
    .of_values fun c member =>
      ⟨(facts c member).2.1, (facts c member).2.2.1, c.name, (facts c member).2.2.2.1⟩
  refine convertible.sound (ofDecls_keepsCapitals _) collections_exist nonempty (fun c member => (facts c member).1)
    fun c member u generic => ?_
  rcases (facts c member).2.2.2.2 u generic with rfl | rfl
  · exact single (.inl rfl)
  · exact single (.inr rfl)

/-- `pool.each { |first, *others| .. }`, called with `1, 2` and then with `"a"`. -/
def callsOfEach : List Trace :=
  [(integer, [[integer]]), (string, [])].map fun call => callOfEach call.1 call.2

theorem each_covered : ∃ block, toBlock (.ofDecls fun _ => none) collections
    (callsOfEach.filterMap (·.blockParam)) = .ok block ∧
      ∀ x ∈ blockTraces callsOfEach, block.CoversCall (.ofDecls fun _ => none) x := by
  have sound : SoundFor (.ofDecls fun _ => none) collections (blockTraces callsOfEach) := by
    intro constants nonempty inside
    have plain : ∀ c ∈ (blockTraces callsOfEach).flatMap (·.instances), c ∈ [integer, string, { name := "Pool" },
        { name := "Array" }, { name := "Array", genericArguments := [[integer]] },
        { name := "Array", genericArguments := [[string]] }] := by decide +kernel
    exact values_sound nonempty fun c member => plain c (List.mem_flatMap.mpr (inside c member))
  obtain ⟨block, built, covers⟩ := toBlock_covers_iff (callsOfEach_group _) (by decide +kernel) sound
  refine ⟨block, built, covers.mpr ?_⟩
  intro first head x call n p q union atP atQ elements c observed
  have pairs : ∀ first ∈ (blockTraces callsOfEach).head?, ∀ x ∈ blockTraces callsOfEach,
      ∀ entry ∈ first.params.zip x.params, entry.1.elements.isSome = true →
        entry.1.elements = some [integer] ∧ ∀ c ∈ entry.2.observed, c = integer := by decide +kernel
  have pair : (p, q) ∈ first.params.zip x.params :=
    List.mem_of_getElem? (List.getElem?_zip_eq_some.mpr ⟨atP, atQ⟩)
  obtain ⟨only, same⟩ := pairs first head x call (p, q) pair (by rw [elements]; rfl)
  rw [elements, Option.some.injEq] at only
  subst only
  rw [same c observed]
  exact .plain (List.mem_singleton_self integer) (by decide) (by decide) ⟨rfl, rfl⟩ (.inr rfl)

theorem not_covers_string {t : RbsType} (integers : (RbsType.classInstance (toTypeName "Integer") []).same t = true) :
    ¬ Covers (.ofDecls fun _ => none) t string := by
  have name : validName (.ofDecls fun _ => none) string.name = .ok "String" := by decide +kernel
  have different : toTypeName "Integer" ≠ toTypeName "String" := by decide +kernel
  intro covers
  rw [RbsType.same.eq_def] at integers
  generalize toTypeName "Integer" = class' at integers different
  cases covers with
  | bare _ valid _ =>
    rw [name, Except.ok.injEq] at valid
    simp only [Bool.and_eq_true, decide_eq_true_eq] at integers
    rw [integers.1, ← valid] at different
    exact different rfl
  | generic _ valid _ _ =>
    rw [name, Except.ok.injEq] at valid
    simp only [Bool.and_eq_true, decide_eq_true_eq] at integers
    rw [integers.1, ← valid] at different
    exact different rfl
  | _ => cases integers

/-- The type of the rest parameter. -/
def BlockFunction.restType : BlockFunction → Option RbsType
  | .untyped => none
  | .function parameters _ => parameters.restPositionals.map (·.type)

/-- The same calls with `1, 2` and `"a", "b"`. -/
def mixedCallsOfEach : List Trace :=
  [(integer, [[integer]]), (string, [[string]])].map fun call => callOfEach call.1 call.2

/-- The rest parameter only has the elements of the first call. -/
theorem each_not_covered : OneOverload mixedCallsOfEach ∧
    SoundFor (.ofDecls fun _ => none) collections (blockTraces mixedCallsOfEach) ∧
      ∃ block, toBlock (.ofDecls fun _ => none) collections (mixedCallsOfEach.filterMap (·.blockParam)) = .ok block ∧
        ¬ ∀ x ∈ blockTraces mixedCallsOfEach, block.CoversCall (.ofDecls fun _ => none) x := by
  have sound : SoundFor (.ofDecls fun _ => none) collections (blockTraces mixedCallsOfEach) := by
    intro constants nonempty inside
    have plain : ∀ c ∈ (blockTraces mixedCallsOfEach).flatMap (·.instances), c ∈ [integer, string, { name := "Pool" },
        { name := "Array" }, { name := "Array", genericArguments := [[integer]] },
        { name := "Array", genericArguments := [[string]] }] := by decide +kernel
    exact values_sound nonempty fun c member => plain c (List.mem_flatMap.mpr (inside c member))
  refine ⟨callsOfEach_group _, sound, ?_⟩
  have integers : (toBlock (.ofDecls fun _ => none) collections
      (mixedCallsOfEach.filterMap (·.blockParam))).toOption.any
      (fun block => block.type.restType.any (RbsType.same (.classInstance (toTypeName "Integer") []))) = true := by
    decide +kernel
  obtain ⟨block, built, integers⟩ := exists_of_any integers
  refine ⟨block, built, fun covers => ?_⟩
  have second : (mixedCallsOfEach.getLast?.bind fun t => (blockTraces [t]).head?).any (fun x =>
      x ∈ blockTraces mixedCallsOfEach &&
        x.params[1]?.any fun p => p.type = .REST && p.observed = [string]) = true := by
    decide +kernel
  obtain ⟨x, _, here⟩ := (Option.any_eq_true _ _).mp second
  simp only [Bool.and_eq_true, decide_eq_true_eq] at here
  obtain ⟨call, param⟩ := here
  obtain ⟨p, atOne, param⟩ := (Option.any_eq_true _ _).mp param
  simp only [Bool.and_eq_true, decide_eq_true_eq] at param
  obtain ⟨kind, observed⟩ := param
  obtain ⟨parameters, returnType, type, params, _⟩ := (covers x call).function
  obtain ⟨placed, found, coversElements⟩ := params 1 p atOne
  have string' := coversElements string (by rw [observed]; exact List.mem_singleton_self _)
  rw [FunctionParameters.slot, kind] at found
  simp only [type, BlockFunction.restType, found, Option.map_some, Option.any_some] at integers
  exact not_covers_string integers string'

end Racer
