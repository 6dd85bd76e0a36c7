import Racer.Collectors.RBSCollector
import Racer.Library.Outcome

namespace Racer
open Outcome

/-! Where `method_parameters` puts the parameters of a method. -/

/-- A parameter list as Ruby allows it. -/
structure RubyParameters where
  required : List Trace.Param
  optional : List Trace.Param
  rest : Option Trace.Param
  trailing : List Trace.Param
  keywords : List Trace.Param
  keywordRest : Option Trace.Param
  required_type : ∀ p ∈ required, p.type = .REQUIRED
  optional_type : ∀ p ∈ optional, p.type = .OPTIONAL
  rest_type : ∀ p ∈ rest, p.type = .REST
  trailing_type : ∀ p ∈ trailing, p.type = .REQUIRED
  keywords_type : ∀ p ∈ keywords, p.type = .KEYWORD_REQUIRED ∨ p.type = .KEYWORD_OPTIONAL
  keywordRest_type : ∀ p ∈ keywordRest, p.type = .KEYWORD_REST
  distinct : (keywords.map (·.name)).Nodup

def RubyParameters.params (r : RubyParameters) : List Trace.Param :=
  r.required ++ r.optional ++ r.rest.toList ++ r.trailing ++ r.keywords ++ r.keywordRest.toList

/-- A parameter with the type that was made of it. -/
abbrev TypedParam : Type := Trace.Param × RbsType

def TypedParam.positional (entry : TypedParam) : FunctionParam :=
  { type := entry.2, name := entry.1.name }

def TypedParam.rest (anonymous : String) (entry : TypedParam) : FunctionParam :=
  { type := entry.2, name := if entry.1.name = some anonymous then none else entry.1.name }

def TypedParam.keyword (entry : TypedParam) : Option String × FunctionParam :=
  (entry.1.name, { type := entry.2, name := none })

/-- A positional parameter under its kind. -/
def TypedParam.positional? (entry : TypedParam) : Option (ParamType × FunctionParam) :=
  match entry.1.type with
  | .REQUIRED => some (.REQUIRED, entry.positional)
  | .OPTIONAL => some (.OPTIONAL, entry.positional)
  | .REST => some (.REST, entry.rest "*")
  | _ => none

namespace FunctionParameters

/-- The positional parameters of a function in the order in which a caller passes them. -/
def positionals (f : FunctionParameters) : List (ParamType × FunctionParam) :=
  f.requiredPositionals.map (.REQUIRED, ·) ++ f.optionalPositionals.map (.OPTIONAL, ·) ++
    f.restPositionals.toList.map (.REST, ·) ++ f.trailingPositionals.map (.REQUIRED, ·)

/-- The function has these parameters, the positional ones in this order. -/
structure Lists (f : FunctionParameters) (typed : List TypedParam) : Prop where
  positionals : f.positionals = typed.filterMap TypedParam.positional?
  requiredKeywords : f.requiredKeywords.entries =
    (typed.filter (·.1.type = .KEYWORD_REQUIRED)).map TypedParam.keyword
  optionalKeywords : f.optionalKeywords.entries =
    (typed.filter (·.1.type = .KEYWORD_OPTIONAL)).map TypedParam.keyword
  restKeywords : f.restKeywords.toList = (typed.filter (·.1.type = .KEYWORD_REST)).map (TypedParam.rest "**")

def addAll (f : FunctionParameters) (typed : List TypedParam) : FunctionParameters :=
  typed.foldl (fun f entry => f.add entry.1 entry.2) f

/-- The function that the loop of `method_parameters` builds. -/
def ofTypes (typed : List TypedParam) : FunctionParameters :=
  addAll {} typed

theorem addAll_append (f : FunctionParameters) (typed typed' : List TypedParam) :
    f.addAll (typed ++ typed') = (f.addAll typed).addAll typed' :=
  List.foldl_append

theorem addAll_cons (f : FunctionParameters) (entry : TypedParam) (typed : List TypedParam) :
    f.addAll (entry :: typed) = (f.add entry.1 entry.2).addAll typed :=
  rfl

variable {f : FunctionParameters} {typed : List TypedParam}

theorem addAll_required (required : ∀ e ∈ typed, e.1.type = .REQUIRED) (noRest : f.restPositionals = none) :
    f.addAll typed =
      { f with requiredPositionals := f.requiredPositionals ++ typed.map TypedParam.positional } := by
  induction typed generalizing f with
  | nil => simp [addAll]
  | cons entry typed ih =>
    obtain ⟨first, others⟩ := List.forall_mem_cons.mp required
    have added : f.add entry.1 entry.2 =
        { f with requiredPositionals := f.requiredPositionals ++ [entry.positional] } := by
      simp [FunctionParameters.add, first, noRest, TypedParam.positional]
    have rest := ih others (f := f.add entry.1 entry.2) (by rw [added]; exact noRest)
    rw [addAll_cons, rest, added]
    simp

theorem addAll_trailing (required : ∀ e ∈ typed, e.1.type = .REQUIRED) (rest : f.restPositionals.isSome) :
    f.addAll typed =
      { f with trailingPositionals := f.trailingPositionals ++ typed.map TypedParam.positional } := by
  induction typed generalizing f with
  | nil => simp [addAll]
  | cons entry typed ih =>
    obtain ⟨first, others⟩ := List.forall_mem_cons.mp required
    have added : f.add entry.1 entry.2 =
        { f with trailingPositionals := f.trailingPositionals ++ [entry.positional] } := by
      simp [FunctionParameters.add, first, rest, TypedParam.positional]
    have later := ih others (f := f.add entry.1 entry.2) (by rw [added]; exact rest)
    rw [addAll_cons, later, added]
    simp

theorem addAll_optional (optional : ∀ e ∈ typed, e.1.type = .OPTIONAL) :
    f.addAll typed =
      { f with optionalPositionals := f.optionalPositionals ++ typed.map TypedParam.positional } := by
  induction typed generalizing f with
  | nil => simp [addAll]
  | cons entry typed ih =>
    obtain ⟨first, others⟩ := List.forall_mem_cons.mp optional
    have added : f.add entry.1 entry.2 =
        { f with optionalPositionals := f.optionalPositionals ++ [entry.positional] } := by
      simp [FunctionParameters.add, first, TypedParam.positional]
    rw [addAll_cons, ih others, added]
    simp

/-- Keywords only change the keywords. -/
theorem addAll_keywords
    (keywords : ∀ e ∈ typed, e.1.type = .KEYWORD_REQUIRED ∨ e.1.type = .KEYWORD_OPTIONAL) :
    f.addAll typed =
      { f with
        requiredKeywords := ((typed.filter (·.1.type = .KEYWORD_REQUIRED)).map TypedParam.keyword).foldl
          (fun h entry => h.store entry.1 entry.2) f.requiredKeywords
        optionalKeywords := ((typed.filter (·.1.type = .KEYWORD_OPTIONAL)).map TypedParam.keyword).foldl
          (fun h entry => h.store entry.1 entry.2) f.optionalKeywords } := by
  induction typed generalizing f with
  | nil => rfl
  | cons entry typed ih =>
    obtain ⟨first, others⟩ := List.forall_mem_cons.mp keywords
    rw [addAll_cons, ih others]
    rcases first with required | optional
    · simp [FunctionParameters.add, required, TypedParam.keyword]
    · simp [FunctionParameters.add, optional, TypedParam.keyword]

/-- From the rest parameter on. -/
def fromRest : List Trace.Param → List Trace.Param
  | [] => []
  | p :: params => if p.type = .REST then p :: params else fromRest params

/-- Where the function has the parameter that follows `before`. -/
def slot (f : FunctionParameters) (before : List Trace.Param) (param : Trace.Param) : Option FunctionParam :=
  match param.type with
  | .REQUIRED =>
    if before.any (·.type = .REST) then f.trailingPositionals[(fromRest before).countP (·.type = .REQUIRED)]?
    else f.requiredPositionals[before.countP (·.type = .REQUIRED)]?
  | .OPTIONAL => f.optionalPositionals[before.countP (·.type = .OPTIONAL)]?
  | .REST => f.restPositionals
  | .KEYWORD_REQUIRED => f.requiredKeywords.get? param.name
  | .KEYWORD_OPTIONAL => f.optionalKeywords.get? param.name
  | .KEYWORD_REST => f.restKeywords

/-- How much of each kind has been placed. -/
structure Filled (f : FunctionParameters) (params : List Trace.Param) : Prop where
  rest : f.restPositionals.isSome = params.any (·.type = .REST)
  required : f.restPositionals.isSome = false → f.requiredPositionals.length = params.countP (·.type = .REQUIRED)
  trailing : f.trailingPositionals.length = (fromRest params).countP (·.type = .REQUIRED)
  optional : f.optionalPositionals.length = params.countP (·.type = .OPTIONAL)

theorem fromRest_snoc_of_rest {params : List Trace.Param} (rest : params.any (·.type = .REST) = true)
    (p : Trace.Param) : fromRest (params ++ [p]) = fromRest params ++ [p] := by
  induction params with
  | nil => cases rest
  | cons q params ih =>
    rw [List.cons_append, fromRest, fromRest]
    split
    · rfl
    next other =>
      rw [List.any_cons, decide_eq_false other, Bool.false_or] at rest
      exact ih rest

theorem fromRest_of_no_rest {params : List Trace.Param} (none : params.any (·.type = .REST) = false) :
    fromRest params = [] := by
  induction params with
  | nil => rfl
  | cons q params ih =>
    rw [List.any_cons, Bool.or_eq_false_iff, decide_eq_false_iff_not] at none
    rw [fromRest, if_neg none.1, ih none.2]

/-- A rest parameter that comes first has no required ones before it. -/
theorem countP_fromRest_snoc {params : List Trace.Param} (none : params.any (·.type = .REST) = false)
    (p : Trace.Param) : (fromRest (params ++ [p])).countP (·.type = .REQUIRED) = 0 := by
  induction params with
  | nil => by_cases rest : p.type = .REST <;> simp [fromRest, rest]
  | cons q params ih =>
    rw [List.any_cons, Bool.or_eq_false_iff, decide_eq_false_iff_not] at none
    rw [List.cons_append, fromRest, if_neg none.1, ih none.2]

theorem Filled.add {params : List Trace.Param} (filled : f.Filled params) (p : Trace.Param) (t : RbsType) :
    (f.add p t).Filled (params ++ [p]) := by
  obtain ⟨rest, required, trailing, optional⟩ := filled
  cases some : f.restPositionals.isSome with
  | true =>
    rw [some] at rest
    cases type : p.type <;> refine ⟨?_, ?_, ?_, ?_⟩ <;>
      simp [FunctionParameters.add, type, some, fromRest_snoc_of_rest rest.symm, ← rest, trailing, optional]
  | false =>
    rw [some] at rest
    have count := required some
    have empty : f.trailingPositionals = [] := by simpa [fromRest_of_no_rest rest.symm] using trailing
    have none := countP_fromRest_snoc rest.symm p
    cases type : p.type <;> refine ⟨?_, ?_, ?_, ?_⟩ <;>
      simp [FunctionParameters.add, type, some, none, ← rest, empty, optional, count]

/-- Parameters that share no slot: there is one rest of each kind, and no keyword twice. -/
def SingleSlots (params : List Trace.Param) : Prop :=
  params.Pairwise fun p q => p.type = q.type → p.type ≠ .REST ∧ p.type ≠ .KEYWORD_REST ∧
    (p.type = .KEYWORD_REQUIRED ∨ p.type = .KEYWORD_OPTIONAL → p.name ≠ q.name)

/-- The parameter that is added last is found. -/
theorem Filled.slot_last {params : List Trace.Param} (filled : f.Filled params) (p : Trace.Param) (t : RbsType) :
    ∃ placed, (f.add p t).slot params p = some placed ∧ placed.type = t := by
  obtain ⟨rest, required, trailing, optional⟩ := filled
  cases type : p.type with
  | REQUIRED =>
    cases some : f.restPositionals.isSome with
    | true =>
      rw [some] at rest
      simp [slot, FunctionParameters.add, type, some, ← rest, ← trailing]
    | false =>
      have count := required some
      rw [some] at rest
      simp [slot, FunctionParameters.add, type, some, ← rest, ← count]
  | OPTIONAL => simp [slot, FunctionParameters.add, type, ← optional]
  | REST => simp [slot, FunctionParameters.add, type]
  | KEYWORD_REQUIRED => simp [slot, FunctionParameters.add, type]
  | KEYWORD_OPTIONAL => simp [slot, FunctionParameters.add, type]
  | KEYWORD_REST => simp [slot, FunctionParameters.add, type]

theorem add_positionals (f : FunctionParameters) (q : Trace.Param) (t : RbsType) :
    f.requiredPositionals <+: (f.add q t).requiredPositionals ∧
      f.optionalPositionals <+: (f.add q t).optionalPositionals ∧
        f.trailingPositionals <+: (f.add q t).trailingPositionals := by
  unfold FunctionParameters.add
  cases q.type with
  | REQUIRED => simp only; split <;> simp
  | _ => simp

/-- A parameter of another slot keeps its place. -/
theorem slot_add {before : List Trace.Param} {p q : Trace.Param} {t : RbsType} {placed : FunctionParam}
    (single : p.type = q.type → p.type ≠ .REST ∧ p.type ≠ .KEYWORD_REST ∧
      (p.type = .KEYWORD_REQUIRED ∨ p.type = .KEYWORD_OPTIONAL → p.name ≠ q.name))
    (found : f.slot before p = some placed) : (f.add q t).slot before p = some placed := by
  obtain ⟨required, optional, trailing⟩ := f.add_positionals q t
  have longer {l l' : List FunctionParam} {i : Nat} (front : l <+: l') (atI : l[i]? = some placed) :
      l'[i]? = some placed := by
    obtain ⟨inside, _⟩ := List.getElem?_eq_some_iff.mp atI
    obtain ⟨rest, rfl⟩ := front
    rw [List.getElem?_append_left inside, atI]
  unfold slot at found ⊢
  cases type : p.type with
  | REQUIRED =>
    rw [type] at found
    simp only at found ⊢
    split at found
    next rest =>
      rw [if_pos rest]
      exact longer trailing found
    next rest =>
      rw [if_neg rest]
      exact longer required found
  | OPTIONAL =>
    rw [type] at found
    exact longer optional found
  | REST =>
    rw [type] at found single
    have other : q.type ≠ .REST := fun same => (single same.symm).1 rfl
    rw [← found]
    unfold FunctionParameters.add
    cases type' : q.type with
    | REQUIRED => simp only; split <;> rfl
    | REST => exact absurd type' other
    | _ => rfl
  | KEYWORD_REQUIRED =>
    rw [type] at found single
    rw [← found]
    unfold FunctionParameters.add
    cases type' : q.type with
    | REQUIRED => simp only; split <;> rfl
    | KEYWORD_REQUIRED => exact OrderedHash.get?_store_of_ne _ ((single type'.symm).2.2 (.inl rfl)) _
    | _ => rfl
  | KEYWORD_OPTIONAL =>
    rw [type] at found single
    rw [← found]
    unfold FunctionParameters.add
    cases type' : q.type with
    | REQUIRED => simp only; split <;> rfl
    | KEYWORD_OPTIONAL => exact OrderedHash.get?_store_of_ne _ ((single type'.symm).2.2 (.inr rfl)) _
    | _ => rfl
  | KEYWORD_REST =>
    rw [type] at found single
    have other : q.type ≠ .KEYWORD_REST := fun same => (single same.symm).2.1 rfl
    rw [← found]
    unfold FunctionParameters.add
    cases type' : q.type with
    | REQUIRED => simp only; split <;> rfl
    | KEYWORD_REST => exact absurd type' other
    | _ => rfl

/-- Every parameter is in its slot, with the type that was made of it. -/
theorem slot_ofTypes {typed : List TypedParam} (single : SingleSlots (typed.map Prod.fst)) :
    (ofTypes typed).Filled (typed.map Prod.fst) ∧ ∀ (n : Nat) e, typed[n]? = some e →
      ∃ placed, (ofTypes typed).slot ((typed.take n).map Prod.fst) e.1 = some placed ∧ placed.type = e.2 := by
  induction typed using List.reverseRecOn with
  | nil => exact ⟨⟨rfl, fun _ => rfl, rfl, rfl⟩, fun n e found => by simp at found⟩
  | append_singleton typed last ih =>
    rw [List.map_append] at single
    obtain ⟨earlier, _, apart⟩ := List.pairwise_append.mp single
    obtain ⟨filled, slots⟩ := ih earlier
    have added : ofTypes (typed ++ [last]) = (ofTypes typed).add last.1 last.2 := by
      rw [ofTypes, addAll_append]
      rfl
    rw [added, List.map_append]
    refine ⟨filled.add last.1 last.2, fun n e found => ?_⟩
    by_cases old : n < typed.length
    · rw [List.getElem?_append_left old] at found
      obtain ⟨placed, there, type⟩ := slots n e found
      have prefixed : (typed ++ [last]).take n = typed.take n := List.take_append_of_le_length old.le
      rw [prefixed]
      have inside : e.1 ∈ typed.map Prod.fst := List.mem_map_of_mem (List.mem_of_getElem? found)
      exact ⟨placed, slot_add (apart e.1 inside last.1 (by simp)) there, type⟩
    · have here : n = typed.length ∧ e = last := by
        obtain ⟨inside, same⟩ := List.getElem?_eq_some_iff.mp found
        rw [List.length_append, List.length_singleton] at inside
        have atEnd : n = typed.length := by omega
        subst atEnd
        rw [← same]
        exact ⟨rfl, by simp⟩
      obtain ⟨rfl, rfl⟩ := here
      rw [List.take_left]
      exact filled.slot_last e.1 e.2

end FunctionParameters

section
variable (env : Environment) (existingTypes : OrderedHash String ExistingType)

/-- The type that `method_parameters` makes of the `n`-th parameter. -/
def typeAt (paramSets : List (List Trace.Param)) (param : Trace.Param) (n : Nat) : Except RubyError RbsType :=
  parameterType env existingTypes param.type (paramSets.filterMap fun set => set[n]?.map (·.typeName))

variable {env existingTypes}

/-- Sets of one size give a type for each parameter, and then the loop only places them. -/
theorem methodParameters_eq {first : List Trace.Param} {rest : List (List Trace.Param)}
    (sizes : ∀ set ∈ rest, set.length = first.length) :
    methodParameters env existingTypes (first :: rest) =
      (fun types => FunctionParameters.ofTypes (first.zip types)) <$>
        first.zipIdx.mapM (fun entry => typeAt env existingTypes (first :: rest) entry.1 entry.2) := by
  have equal : ¬ (first :: rest).any (·.length ≠ first.length) = true := by simpa using sizes
  have placed (types : List RbsType) :
      (first.zipIdx.zip types).foldl (fun f entry => f.add entry.1.1 entry.2) {} =
        FunctionParameters.ofTypes (first.zip types) := by
    have forget : first.zip types = (first.zipIdx.zip types).map (Prod.map Prod.fst id) := by
      rw [← List.zip_map_left, List.zipIdx_map_fst]
    rw [FunctionParameters.ofTypes, FunctionParameters.addAll, forget, List.foldl_map]
    rfl
  unfold methodParameters
  simp only
  rw [if_neg equal]
  refine (foldlM_map (fun (f : FunctionParameters) (entry : Trace.Param × Nat) t => f.add entry.1 t)
    first.zipIdx {}).trans ?_
  exact congrArg (· <$> _) (funext placed)

theorem methodParameters_single (params : List Trace.Param) :
    methodParameters env existingTypes [params] =
      (fun types => FunctionParameters.ofTypes (params.zip types)) <$>
        params.mapM fun p => parameterType env existingTypes p.type [p.typeName] := by
  have own : params.zipIdx.mapM (fun entry => typeAt env existingTypes [params] entry.1 entry.2) =
      params.zipIdx.mapM fun entry => parameterType env existingTypes entry.1.type [entry.1.typeName] := by
    refine mapM_congr fun entry member => ?_
    have atN : params[entry.2]? = some entry.1 := List.mem_zipIdx_iff_getElem?.mp member
    simp [typeAt, atN]
  have forget : params.zipIdx.mapM (fun entry => parameterType env existingTypes entry.1.type [entry.1.typeName]) =
      params.mapM fun p => parameterType env existingTypes p.type [p.typeName] := by
    have mapped := List.mapM_map (l := params.zipIdx) (f := Prod.fst)
      (g := fun p : Trace.Param => parameterType env existingTypes p.type [p.typeName])
    rw [List.zipIdx_map_fst] at mapped
    exact mapped.symm
  rw [methodParameters_eq (by simp), own, forget]

/-- A typed parameter list, part by part. -/
theorem RubyParameters.split (r : RubyParameters) {typed : List TypedParam} (names : typed.map Prod.fst = r.params) :
    ∃ (required optional trailing keywords : List TypedParam) (rest keywordRest : Option TypedParam),
      typed = required ++ optional ++ rest.toList ++ trailing ++ keywords ++ keywordRest.toList ∧
      (required.map Prod.fst = r.required ∧ optional.map Prod.fst = r.optional ∧ rest.map Prod.fst = r.rest) ∧
      trailing.map Prod.fst = r.trailing ∧ keywords.map Prod.fst = r.keywords ∧
        keywordRest.map Prod.fst = r.keywordRest := by
  have single {part : List TypedParam} {param : Option Trace.Param} (parts : part.map Prod.fst = param.toList) :
      ∃ entry : Option TypedParam, part = entry.toList ∧ entry.map Prod.fst = param := by
    cases param with
    | none => exact ⟨none, List.map_eq_nil_iff.mp parts, rfl⟩
    | some p =>
      obtain ⟨entry, rfl, same⟩ := List.map_eq_singleton_iff.mp parts
      exact ⟨some entry, rfl, congrArg some same⟩
  obtain ⟨typed, keywordRest, rfl, front, back⟩ := List.map_eq_append_iff.mp names
  obtain ⟨typed, keywords, rfl, front, keywordNames⟩ := List.map_eq_append_iff.mp front
  obtain ⟨typed, trailing, rfl, front, trailingNames⟩ := List.map_eq_append_iff.mp front
  obtain ⟨typed, rest, rfl, front, restName⟩ := List.map_eq_append_iff.mp front
  obtain ⟨required, optional, rfl, requiredNames, optionalNames⟩ := List.map_eq_append_iff.mp front
  obtain ⟨keywordRest, rfl, last⟩ := single back
  obtain ⟨rest, rfl, middle⟩ := single restName
  exact ⟨required, optional, trailing, keywords, rest, keywordRest, rfl, ⟨requiredNames, optionalNames, middle⟩,
    trailingNames, keywordNames, last⟩

/-- The parts of a parameter list with their types. -/
structure TypedParts (required optional trailing keywords : List TypedParam) (rest keywordRest : Option TypedParam) :
    Prop where
  distinct : (keywords.map fun e => e.1.name).Nodup
  required : ∀ e ∈ required, e.1.type = .REQUIRED
  optional : ∀ e ∈ optional, e.1.type = .OPTIONAL
  rest : ∀ e ∈ rest, e.1.type = .REST
  trailing : ∀ e ∈ trailing, e.1.type = .REQUIRED
  keywords : ∀ e ∈ keywords, e.1.type = .KEYWORD_REQUIRED ∨ e.1.type = .KEYWORD_OPTIONAL
  keywordRest : ∀ e ∈ keywordRest, e.1.type = .KEYWORD_REST

variable {required optional trailing keywords : List TypedParam} {rest keywordRest : Option TypedParam}

/-- Required parameters behind optional ones are only kept apart from the first ones by a rest. -/
theorem TypedParts.ofTypes_eq (parts : TypedParts required optional trailing keywords rest keywordRest) :
    FunctionParameters.ofTypes
        (required ++ optional ++ rest.toList ++ trailing ++ keywords ++ keywordRest.toList) =
      { requiredPositionals := (required ++ if rest.isSome then [] else trailing).map TypedParam.positional
        optionalPositionals := optional.map TypedParam.positional
        trailingPositionals := (if rest.isSome then trailing else []).map TypedParam.positional
        restPositionals := rest.map (TypedParam.rest "*")
        requiredKeywords := ((keywords.filter (·.1.type = .KEYWORD_REQUIRED)).map TypedParam.keyword).foldl
          (fun h entry => h.store entry.1 entry.2) .empty
        optionalKeywords := ((keywords.filter (·.1.type = .KEYWORD_OPTIONAL)).map TypedParam.keyword).foldl
          (fun h entry => h.store entry.1 entry.2) .empty
        restKeywords := keywordRest.map (TypedParam.rest "**") } := by
  have restAdded (f : FunctionParameters) (noRest : f.restPositionals = none) :
      f.addAll rest.toList = { f with restPositionals := rest.map (TypedParam.rest "*") } := by
    cases rest with
    | none =>
      rw [Option.map_none, ← noRest]
      rfl
    | some e => simp [FunctionParameters.addAll, FunctionParameters.add, parts.rest e rfl, TypedParam.rest]
  have keywordRestAdded (f : FunctionParameters) (noRest : f.restKeywords = none) :
      f.addAll keywordRest.toList = { f with restKeywords := keywordRest.map (TypedParam.rest "**") } := by
    cases keywordRest with
    | none =>
      rw [Option.map_none, ← noRest]
      rfl
    | some e => simp [FunctionParameters.addAll, FunctionParameters.add, parts.keywordRest e rfl, TypedParam.rest]
  unfold FunctionParameters.ofTypes
  simp only [FunctionParameters.addAll_append]
  rw [FunctionParameters.addAll_required parts.required rfl, FunctionParameters.addAll_optional parts.optional,
    restAdded _ rfl]
  cases rest with
  | none =>
    rw [FunctionParameters.addAll_required parts.trailing rfl, FunctionParameters.addAll_keywords parts.keywords,
      keywordRestAdded _ rfl]
    simp
  | some e =>
    rw [FunctionParameters.addAll_trailing parts.trailing rfl, FunctionParameters.addAll_keywords parts.keywords,
      keywordRestAdded _ rfl]
    simp

theorem filter_of_type {part : List TypedParam} {own kind : ParamType} (types : ∀ e ∈ part, e.1.type = own)
    (other : own ≠ kind) : part.filter (·.1.type = kind) = [] :=
  List.filter_eq_nil_iff.mpr fun e member => by simpa [types e member] using other

theorem TypedParts.filter_append (parts : TypedParts required optional trailing keywords rest keywordRest)
    {kind : ParamType} (notRequired : .REQUIRED ≠ kind) (notOptional : .OPTIONAL ≠ kind) (notRest : .REST ≠ kind) :
    (required ++ optional ++ rest.toList ++ trailing ++ keywords ++ keywordRest.toList).filter (·.1.type = kind) =
      keywords.filter (·.1.type = kind) ++ keywordRest.toList.filter (·.1.type = kind) := by
  have first := filter_of_type parts.required notRequired
  have second := filter_of_type parts.optional notOptional
  have third := filter_of_type (fun e member => parts.rest e (Option.mem_toList.mp member)) notRest
  have fourth := filter_of_type parts.trailing notRequired
  simp only [List.filter_append, first, second, third, fourth, List.nil_append]

/-- Only the keywords have a keyword's type. -/
theorem TypedParts.filter_keywords (parts : TypedParts required optional trailing keywords rest keywordRest)
    {kind : ParamType} (keyword : kind = .KEYWORD_REQUIRED ∨ kind = .KEYWORD_OPTIONAL) :
    (required ++ optional ++ rest.toList ++ trailing ++ keywords ++ keywordRest.toList).filter (·.1.type = kind) =
      keywords.filter (·.1.type = kind) := by
  have other {own : ParamType} (first : own ≠ .KEYWORD_REQUIRED) (second : own ≠ .KEYWORD_OPTIONAL) : own ≠ kind := by
    rcases keyword with rfl | rfl <;> assumption
  have last := filter_of_type (fun e member => parts.keywordRest e (Option.mem_toList.mp member))
    (other (by decide) (by decide))
  rw [parts.filter_append (other (by decide) (by decide)) (other (by decide) (by decide))
    (other (by decide) (by decide)), last, List.append_nil]

theorem TypedParts.filter_keywordRest (parts : TypedParts required optional trailing keywords rest keywordRest) :
    (required ++ optional ++ rest.toList ++ trailing ++ keywords ++ keywordRest.toList).filter
      (·.1.type = .KEYWORD_REST) = keywordRest.toList := by
  have none : keywords.filter (·.1.type = .KEYWORD_REST) = [] := List.filter_eq_nil_iff.mpr fun e member => by
    rcases parts.keywords e member with type | type <;> simp [type]
  have last : keywordRest.toList.filter (·.1.type = .KEYWORD_REST) = keywordRest.toList :=
    List.filter_eq_self.mpr fun e member => decide_eq_true (parts.keywordRest e (Option.mem_toList.mp member))
  rw [parts.filter_append (by decide) (by decide) (by decide), none, last, List.nil_append]

theorem filterMap_positional {part : List TypedParam} {g : TypedParam → ParamType × FunctionParam}
    (each : ∀ e ∈ part, e.positional? = some (g e)) : part.filterMap TypedParam.positional? = part.map g := by
  rw [List.filterMap_congr each, ← List.filterMap_eq_map]
  rfl

/-- The positional parameters in the order of the list. -/
theorem TypedParts.filterMap_positional (parts : TypedParts required optional trailing keywords rest keywordRest) :
    (required ++ optional ++ rest.toList ++ trailing ++ keywords ++ keywordRest.toList).filterMap
        TypedParam.positional? =
      required.map (fun e => (ParamType.REQUIRED, e.positional)) ++
        optional.map (fun e => (ParamType.OPTIONAL, e.positional)) ++
        rest.toList.map (fun e => (ParamType.REST, e.rest "*")) ++
        trailing.map fun e => (ParamType.REQUIRED, e.positional) := by
  have requiredIs {part : List TypedParam} (types : ∀ e ∈ part, e.1.type = .REQUIRED) :
      part.filterMap TypedParam.positional? = part.map fun e => (ParamType.REQUIRED, e.positional) :=
    Racer.filterMap_positional fun e member => by rw [TypedParam.positional?, types e member]
  have second : optional.filterMap TypedParam.positional? =
      optional.map fun e => (ParamType.OPTIONAL, e.positional) :=
    Racer.filterMap_positional fun e member => by rw [TypedParam.positional?, parts.optional e member]
  have third : rest.toList.filterMap TypedParam.positional? =
      rest.toList.map fun e => (ParamType.REST, e.rest "*") :=
    Racer.filterMap_positional fun e member => by
      rw [TypedParam.positional?, parts.rest e (Option.mem_toList.mp member)]
  have fifth : keywords.filterMap TypedParam.positional? = [] :=
    List.filterMap_eq_nil_iff.mpr fun e member => by
      rcases parts.keywords e member with type | type <;> rw [TypedParam.positional?, type]
  have last : keywordRest.toList.filterMap TypedParam.positional? = [] :=
    List.filterMap_eq_nil_iff.mpr fun e member => by
      rw [TypedParam.positional?, parts.keywordRest e (Option.mem_toList.mp member)]
  simp only [List.filterMap_append, requiredIs parts.required, second, third, requiredIs parts.trailing, fifth, last,
    List.append_nil]

theorem TypedParts.lists_iff (parts : TypedParts required optional trailing keywords rest keywordRest) :
    (FunctionParameters.ofTypes
        (required ++ optional ++ rest.toList ++ trailing ++ keywords ++ keywordRest.toList)).Lists
      (required ++ optional ++ rest.toList ++ trailing ++ keywords ++ keywordRest.toList) ↔
        optional = [] ∨ trailing = [] ∨ rest.isSome := by
  have keyword (kind : ParamType) : (((keywords.filter (·.1.type = kind)).map TypedParam.keyword).foldl
      (fun h entry => h.store entry.1 entry.2) OrderedHash.empty).entries =
        (keywords.filter (·.1.type = kind)).map TypedParam.keyword := by
    have names : ((keywords.filter (·.1.type = kind)).map TypedParam.keyword).map Prod.fst =
        (keywords.filter (·.1.type = kind)).map fun e => e.1.name := List.map_map
    have nodup : ((keywords.filter (·.1.type = kind)).map fun e => e.1.name).Nodup :=
      parts.distinct.sublist (List.filter_sublist.map _)
    rw [OrderedHash.entries_foldl_store]
    · rfl
    · rwa [← names] at nodup
  have keywordRests : (keywordRest.map (TypedParam.rest "**")).toList =
      keywordRest.toList.map (TypedParam.rest "**") := by
    cases keywordRest <;> rfl
  rw [parts.ofTypes_eq]
  constructor
  · intro lists
    by_contra moved
    push Not at moved
    obtain ⟨someOptional, someTrailing, noRest⟩ := moved
    obtain ⟨o, optional, rfl⟩ := List.exists_cons_of_ne_nil someOptional
    obtain ⟨t, trailing, rfl⟩ := List.exists_cons_of_ne_nil someTrailing
    have none : rest = none := by simpa using noRest
    subst none
    have order := lists.positionals
    rw [parts.filterMap_positional] at order
    -- behind the required ones the function goes on with `t`, the list with `o`
    simp [FunctionParameters.positionals, List.map_append, Function.comp_def] at order
  · intro kept
    refine ⟨?_, ?_, ?_, ?_⟩
    · rw [parts.filterMap_positional]
      cases rest with
      | some e => simp [FunctionParameters.positionals, Function.comp_def]
      | none =>
        rcases kept with rfl | rfl | absurd
        · simp [FunctionParameters.positionals, Function.comp_def]
        · simp [FunctionParameters.positionals, Function.comp_def]
        · cases absurd
    · rw [parts.filter_keywords (.inl rfl)]
      exact keyword .KEYWORD_REQUIRED
    · rw [parts.filter_keywords (.inr rfl)]
      exact keyword .KEYWORD_OPTIONAL
    · rw [parts.filter_keywordRest]
      exact keywordRests

/-- The positional parameters keep their order and kind, and the keywords their names,
exactly if no required parameter follows an optional one without a rest before it. -/
theorem positionals_in_order_iff (r : RubyParameters) {types : List RbsType}
    (converted : List.Forall₂ (fun p t => parameterType env existingTypes p.type [p.typeName] = .ok t)
      r.params types) :
    ∃ f, methodParameters env existingTypes [r.params] = .ok f ∧
      (f.Lists (r.params.zip types) ↔ r.optional = [] ∨ r.trailing = [] ∨ r.rest.isSome) := by
  have built : methodParameters env existingTypes [r.params] =
      .ok (FunctionParameters.ofTypes (r.params.zip types)) := by
    rw [methodParameters_single, mapM_eq_ok.mpr converted]
    rfl
  have names : (r.params.zip types).map Prod.fst = r.params :=
    List.map_fst_zip converted.length_eq.le
  obtain ⟨required, optional, trailing, keywords, rest, keywordRest, split, ⟨inRequired, inOptional, isRest⟩,
    inTrailing,
    inKeywords, isKeywordRest⟩ := r.split names
  have parts : TypedParts required optional trailing keywords rest keywordRest := by
    refine ⟨?_, ?_, ?_, ?_, ?_, ?_, ?_⟩
    · have distinct := r.distinct
      rwa [← inKeywords, List.map_map] at distinct
    · exact fun e member => r.required_type e.1 (inRequired ▸ List.mem_map_of_mem member)
    · exact fun e member => r.optional_type e.1 (inOptional ▸ List.mem_map_of_mem member)
    · exact fun e member => r.rest_type e.1 (isRest ▸ Option.mem_map_of_mem Prod.fst member)
    · exact fun e member => r.trailing_type e.1 (inTrailing ▸ List.mem_map_of_mem member)
    · exact fun e member => r.keywords_type e.1 (inKeywords ▸ List.mem_map_of_mem member)
    · exact fun e member => r.keywordRest_type e.1 (isKeywordRest ▸ Option.mem_map_of_mem Prod.fst member)
  refine ⟨_, built, ?_⟩
  rw [split, parts.lists_iff, ← inOptional, ← inTrailing, ← isRest, List.map_eq_nil_iff, List.map_eq_nil_iff,
    Option.isSome_map]

end

/-- A parameter that is `nil` in the call. -/
def nilParam (name : String) (type : ParamType) : Trace.Param where
  name := some name
  typeName := { name := "NilClass" }
  type := type

/-- `def pad(text, width = nil, *rest, fill, align:, wrap: nil, **options)` -/
def padParameters : RubyParameters where
  required := [nilParam "text" .REQUIRED]
  optional := [nilParam "width" .OPTIONAL]
  rest := some (nilParam "rest" .REST)
  trailing := [nilParam "fill" .REQUIRED]
  keywords := [nilParam "align" .KEYWORD_REQUIRED, nilParam "wrap" .KEYWORD_OPTIONAL]
  keywordRest := some (nilParam "options" .KEYWORD_REST)
  required_type := by decide
  optional_type := by decide
  rest_type := by decide
  trailing_type := by decide
  keywords_type := by decide
  keywordRest_type := by decide
  distinct := by decide

theorem pad_in_order : ∃ f, methodParameters (.ofDecls fun _ => none) .empty [padParameters.params] = .ok f ∧
    f.Lists (padParameters.params.zip [.nil, .nil, .any, .nil, .nil, .nil, .any]) := by
  have converted : List.Forall₂
      (fun p t => parameterType (.ofDecls fun _ => none) .empty p.type [p.typeName] = Except.ok t) padParameters.params
      [.nil, .nil, .any, .nil, .nil, .nil, .any] :=
    .cons rfl (.cons rfl (.cons rfl (.cons rfl (.cons rfl (.cons rfl (.cons rfl .nil))))))
  obtain ⟨f, built, order⟩ := positionals_in_order_iff padParameters converted
  exact ⟨f, built, order.mpr (.inr (.inr rfl))⟩

/-- `def clip(text, width = nil, mark)` -/
def clipParameters : RubyParameters where
  required := [nilParam "text" .REQUIRED]
  optional := [nilParam "width" .OPTIONAL]
  rest := none
  trailing := [nilParam "mark" .REQUIRED]
  keywords := []
  keywordRest := none
  required_type := by decide
  optional_type := by decide
  rest_type := nofun
  trailing_type := by decide
  keywords_type := nofun
  keywordRest_type := nofun
  distinct := List.nodup_nil

/-- The last parameter is put before the optional one. -/
theorem clip_out_of_order : ∃ f, methodParameters (.ofDecls fun _ => none) .empty [clipParameters.params] = .ok f ∧
    f.positionals.map (fun entry => (entry.1, entry.2.name)) =
      [(.REQUIRED, some "text"), (.REQUIRED, some "mark"), (.OPTIONAL, some "width")] ∧
    ¬ ∃ types, f.Lists (clipParameters.params.zip types) := by
  refine ⟨.ofTypes (clipParameters.params.zip [.nil, .nil, .nil]), rfl, rfl, ?_⟩
  rintro ⟨types, lists⟩
  have kinds := congrArg (List.map Prod.fst) lists.positionals
  rcases types with _ | ⟨a, _ | ⟨b, _ | ⟨c, types⟩⟩⟩ <;> cases kinds

end Racer
