import Racer.Collectors.RBSCollector
import Racer.Library.Outcome
import Racer.Library.SameMembers

namespace Racer
open Outcome

/-! `to_rbs_type` on the same constants in another order. -/

mutual

/-- Two types are the same when unions are compared as sets. -/
def RbsType.same (type type' : RbsType) : Bool :=
  match type with
  | .bool => (type' matches .bool)
  | .nil => (type' matches .nil)
  | .void => (type' matches .void)
  | .any => (type' matches .any)
  | .classSingleton name =>
    match type' with
    | .classSingleton name' => name = name'
    | _ => false
  | .classInstance name args =>
    match type' with
    | .classInstance name' args' => name = name' && sameArgs args args'
    | _ => false
  | .union types =>
    match type' with
    | .union types' => sameIn types types' && types'.all fun type' => anySame types type'
    | _ => false

def sameArgs (types types' : List RbsType) : Bool :=
  match types with
  | [] => types'.isEmpty
  | type :: types =>
    match types' with
    | [] => false
    | type' :: types' => type.same type' && sameArgs types types'

def sameIn (types types' : List RbsType) : Bool :=
  match types with
  | [] => true
  | type :: types => (types'.any fun type' => type.same type') && sameIn types types'

def anySame (types : List RbsType) (type' : RbsType) : Bool :=
  match types with
  | [] => false
  | type :: types => type.same type' || anySame types type'

end

theorem sameIn_iff {types types' : List RbsType} :
    sameIn types types' ↔ ∀ t ∈ types, ∃ t' ∈ types', t.same t' := by
  induction types with
  | nil => simp [sameIn]
  | cons type types ih => simp [sameIn, ih]

theorem anySame_iff {types : List RbsType} {type' : RbsType} : anySame types type' ↔ ∃ t ∈ types, t.same type' := by
  induction types with
  | nil => simp [anySame]
  | cons type types ih => simp [anySame, ih]

theorem same_union_iff {types types' : List RbsType} :
    (RbsType.union types).same (.union types') ↔ SameMembers (fun t t' => RbsType.same t t') types types' := by
  rw [RbsType.same, Bool.and_eq_true, sameIn_iff, List.all_eq_true]
  exact and_congr_right' (forall₂_congr fun _ _ => anySame_iff)

theorem RbsType.induction {P : RbsType → Prop} (bool : P .bool) (nil : P .nil) (void : P .void) (any : P .any)
    (classSingleton : ∀ name, P (.classSingleton name))
    (classInstance : ∀ name args, (∀ t ∈ args, P t) → P (.classInstance name args))
    (union : ∀ types, (∀ t ∈ types, P t) → P (.union types)) (t : RbsType) : P t :=
  @RbsType.rec P (fun types => ∀ t ∈ types, P t) bool nil void any classSingleton classInstance union (by simp)
    (fun _ _ head tail => List.forall_mem_cons.mpr ⟨head, tail⟩) t

theorem RbsType.same_refl (t : RbsType) : t.same t := by
  induction t using RbsType.induction with
  | bool | nil | void | any => simp [RbsType.same]
  | classSingleton name => simp [RbsType.same]
  | classInstance name args ih =>
    have each : sameArgs args args := by
      induction args with
      | nil => simp [sameArgs]
      | cons t args rest =>
        rw [sameArgs, Bool.and_eq_true]
        exact ⟨ih t List.mem_cons_self, rest fun u member => ih u (List.mem_cons_of_mem t member)⟩
    simp [RbsType.same, each]
  | union types ih => exact same_union_iff.mpr (.of_mem_iff ih fun _ => Iff.rfl)

theorem mem_uniq {c : ConstantInstance} {constants : List ConstantInstance} : c ∈ uniq constants ↔ c ∈ constants := by
  induction constants with
  | nil => rfl
  | cons d constants ih =>
    rw [uniq, List.mem_cons, List.mem_filter, ih, List.mem_cons]
    by_cases same : c = d <;> simp [same]

theorem uniq_nodup (constants : List ConstantInstance) : (uniq constants).Nodup := by
  induction constants with
  | nil => exact List.nodup_nil
  | cons d constants ih =>
    rw [uniq, List.nodup_cons]
    exact ⟨by simp, ih.filter _⟩

theorem uniq_perm {constants constants' : List ConstantInstance} (same : ∀ c, c ∈ constants ↔ c ∈ constants') :
    (uniq constants).Perm (uniq constants') :=
  (List.perm_ext_iff_of_nodup (uniq_nodup _) (uniq_nodup _)).mpr fun c => by rw [mem_uniq, mem_uniq, same]

theorem mergeBooleans_perm {constants constants' : List ConstantInstance} (perm : constants.Perm constants') :
    (mergeBooleans constants).Perm (mergeBooleans constants') := by
  unfold mergeBooleans
  rw [perm.any_eq]
  split
  · exact (perm.filter _).append_right _
  · exact perm

theorem mem_mergeBooleans {c : ConstantInstance} {constants : List ConstantInstance} : c ∈ mergeBooleans constants ↔
    (c ∈ constants ∧ isBoolean c = false) ∨ (c = { name := "bool" } ∧ constants.any isBoolean = true) := by
  unfold mergeBooleans
  by_cases booleans : constants.any isBoolean = true
  · simp [booleans]
  · have none : ∀ d ∈ constants, isBoolean d = false := by simpa using booleans
    rw [if_neg booleans]
    exact ⟨fun member => .inl ⟨member, none c member⟩,
      fun either => either.elim And.left fun both => absurd both.2 booleans⟩

theorem forall_mergeBooleans {P : ConstantInstance → Prop} {constants : List ConstantInstance}
    (each : ∀ c ∈ constants, P c) (bool : P { name := "bool" }) : ∀ c ∈ mergeBooleans (uniq constants), P c := by
  intro c member
  rcases mem_mergeBooleans.mp member with ⟨old, _⟩ | ⟨rfl, _⟩
  · exact each c (mem_uniq.mp old)
  · exact bool

/-- An instance of this name with generic arguments. -/
def parameterised (name : String) (c : ConstantInstance) : Bool :=
  c.name = name && !c.bare

/-- Some constant has this name and generic arguments, so the bare ones are to go. -/
def supersedes (constants : List ConstantInstance) (name : String) : Bool :=
  constants.any (parameterised name)

/-- Of every name that has both bare and parameterised instances there are more
parameterised ones than there are bare ones of all other such names. -/
def Prunable (constants : List ConstantInstance) : Prop :=
  ∀ c ∈ constants, c.bare = true → supersedes constants c.name = true →
    constants.countP (fun other => other.bare && supersedes constants other.name && other.name ≠ c.name) <
      constants.countP (parameterised c.name)

instance (constants : List ConstantInstance) : Decidable (Prunable constants) :=
  inferInstanceAs (Decidable (∀ c ∈ constants, c.bare = true → supersedes constants c.name = true → _ < _))

theorem Prunable.perm {constants constants' : List ConstantInstance} (perm : constants.Perm constants')
    (prunable : Prunable constants) : Prunable constants' := by
  have same (name : String) : supersedes constants' name = supersedes constants name := (perm.any_eq).symm
  intro c member bare superseded
  rw [same] at superseded
  have fewer := prunable c (perm.mem_iff.mpr member) bare superseded
  simp only [same]
  rwa [perm.countP_eq, perm.countP_eq] at fewer

/-- Taking from a filtered list reaches further by what has been filtered out. -/
theorem countP_take_filter (p q : ConstantInstance → Bool) (l : List ConstantInstance) (k : Nat) :
    ((l.filter p).take k).countP q ≤ (l.take k).countP q + (l.length - (l.filter p).length) := by
  induction l generalizing k with
  | nil => simp
  | cons x l ih =>
    have bound := List.length_filter_le p l
    cases keep : p x with
    | true =>
      rw [List.filter_cons_of_pos keep]
      cases k with
      | zero => simp
      | succ k =>
        have step := ih k
        simp only [List.take_succ_cons, List.countP_cons, List.length_cons]
        omega
    | false =>
      rw [List.filter_cons_of_neg (by simp [keep])]
      have step := ih k
      have more : (l.take k).countP q ≤ ((x :: l).take k).countP q + 1 := by
        cases k with
        | zero => simp
        | succ k =>
          have last : (l.take (k + 1)).countP q ≤ (l.take k).countP q + 1 := by
            rw [List.take_add_one, List.countP_append]
            cases l[k]? with
            | none => simp
            | some y =>
              have one := List.countP_le_length (p := q) (l := [y])
              simpa using one
          have longer : (l.take k).countP q ≤ ((x :: l).take (k + 1)).countP q := by
            rw [List.take_succ_cons, List.countP_cons]
            omega
          omega
      simp only [List.length_cons]
      omega

/-- What the turns at the indices below `i` have left, when they have deleted the bare
instances of the names `removed`. Every deletion makes the loop skip at most one
constant that it has not visited. -/
structure Deleted (constants : List ConstantInstance) (removed : List String) (i : Nat)
    (rest : List ConstantInstance) : Prop where
  superseded : ∀ name ∈ removed, supersedes constants name = true
  kept : rest = constants.filter fun c => !(c.bare && c.name ∈ removed)
  unvisited : ∀ name, name ∉ removed →
    (rest.take i).countP (parameterised name) ≤ constants.length - rest.length

theorem Deleted.step {constants rest : List ConstantInstance} {removed : List String} {i : Nat}
    (deleted : Deleted constants removed i rest) :
    ∃ removed', Deleted constants removed' (i + 1) (deleteBareAt rest i) := by
  have shorter : rest.length ≤ constants.length := by
    rw [deleted.kept]
    exact List.length_filter_le _ _
  unfold deleteBareAt
  cases atI : rest[i]? with
  | none =>
    refine ⟨removed, deleted.superseded, deleted.kept, fun name kept => ?_⟩
    have same : rest.take (i + 1) = rest.take i := by rw [List.take_add_one, atI, Option.toList_none, List.append_nil]
    rw [same]
    exact deleted.unvisited name kept
  | some c =>
    have next (name : String) : (rest.take (i + 1)).countP (parameterised name) =
        (rest.take i).countP (parameterised name) + if parameterised name c then 1 else 0 := by
      rw [List.take_add_one, atI, Option.toList_some, List.countP_append, List.countP_singleton]
    simp only
    split
    next bare =>
      refine ⟨removed, deleted.superseded, deleted.kept, fun name kept => ?_⟩
      have no : parameterised name c = false := by simp [parameterised, bare]
      rw [next, no]
      exact deleted.unvisited name kept
    next full =>
      have member : c ∈ constants := by
        have inside := List.mem_of_getElem? atI
        rw [deleted.kept] at inside
        exact (List.mem_filter.mp inside).1
      refine ⟨c.name :: removed, fun name here => ?_, ?_, fun name kept => ?_⟩
      · rcases List.mem_cons.mp here with rfl | old
        · exact List.any_eq_true.mpr ⟨c, member, by simp [parameterised, full]⟩
        · exact deleted.superseded name old
      · rw [deleted.kept, List.filter_filter]
        refine List.filter_congr fun other _ => ?_
        by_cases named : other.name = c.name <;> cases other.bare <;> simp [named]
      · rw [List.mem_cons, not_or] at kept
        have no : parameterised name c = false := by simp [parameterised, Ne.symm kept.1]
        have reach := countP_take_filter (fun other => !(other.name = c.name && other.bare)) (parameterised name)
          rest (i + 1)
        have before := deleted.unvisited name kept.2
        have fewer := List.length_filter_le (fun other => !(decide (other.name = c.name) && other.bare)) rest
        rw [next, no] at reach
        simp only [Bool.false_eq_true, if_false] at reach
        omega

theorem deleteBare_deleted (constants : List ConstantInstance) :
    ∃ removed, Deleted constants removed constants.length (deleteBare constants) := by
  have run (n : Nat) : ∃ removed, Deleted constants removed n ((List.range n).foldl deleteBareAt constants) := by
    induction n with
    | zero => exact ⟨[], nofun, by simp, by simp⟩
    | succ n ih =>
      obtain ⟨removed, deleted⟩ := ih
      rw [List.range_succ, List.foldl_append]
      exact deleted.step
  exact run constants.length

/-- In a prunable union every bare instance goes that has a parameterised namesake, in
whatever order the constants come. -/
theorem mem_deleteBare {constants : List ConstantInstance} (prunable : Prunable constants) {c : ConstantInstance} :
    c ∈ deleteBare constants ↔ c ∈ constants ∧ (c.bare && supersedes constants c.name) = false := by
  obtain ⟨removed, superseded, rest, unvisited⟩ := deleteBare_deleted constants
  have member : c ∈ deleteBare constants ↔ c ∈ constants ∧ (c.bare && decide (c.name ∈ removed)) = false := by
    rw [rest, List.mem_filter, Bool.not_eq_true']
  rw [member]
  refine and_congr_right fun inside => ?_
  cases bare : c.bare with
  | false => rfl
  | true =>
    rw [Bool.true_and, Bool.true_and, decide_eq_false_iff_not]
    refine ⟨fun kept => ?_, fun single here => ?_⟩
    · by_contra more
      rw [Bool.not_eq_false] at more
      have fewer := prunable c inside bare more
      have skipped := unvisited c.name kept
      have short : (deleteBare constants).length ≤ constants.length := by
        rw [rest]
        exact List.length_filter_le _ _
      rw [List.take_of_length_le short] at skipped
      have all : (deleteBare constants).countP (parameterised c.name) = constants.countP (parameterised c.name) := by
        rw [rest, List.countP_filter]
        refine List.countP_congr fun other _ => ?_
        simp only [parameterised, Bool.and_eq_true, Bool.not_eq_true', decide_eq_true_eq, Bool.and_eq_false_imp]
        exact ⟨And.left, fun full => ⟨full, fun bare => by rw [full.2] at bare; cases bare⟩⟩
      have removals : constants.length - (deleteBare constants).length =
          constants.countP fun other => other.bare && decide (other.name ∈ removed) := by
        have split := List.length_eq_countP_add_countP (fun other => other.bare && decide (other.name ∈ removed))
          (l := constants)
        rw [rest, ← List.countP_eq_length_filter]
        simp only [Bool.not_eq_true] at split
        have same : (constants.countP fun c => !(c.bare && decide (c.name ∈ removed))) =
            constants.countP fun c => decide ((c.bare && decide (c.name ∈ removed)) = false) :=
          List.countP_congr fun other _ => by simp
        omega
      have others : (constants.countP fun other => other.bare && decide (other.name ∈ removed)) ≤
          constants.countP fun other =>
            other.bare && supersedes constants other.name && decide (other.name ≠ c.name) := by
        refine List.countP_mono_left fun other _ gone => ?_
        simp only [Bool.and_eq_true, decide_eq_true_eq] at gone ⊢
        exact ⟨⟨gone.1, superseded _ gone.2⟩, fun same => kept (same ▸ gone.2)⟩
      omega
    · rw [superseded c.name here] at single
      cases single

/-- Only a bare instance with a parameterised namesake goes. -/
theorem mem_deleteBare_of_mem {constants : List ConstantInstance} {c : ConstantInstance} (member : c ∈ constants) :
    c ∈ deleteBare constants ∨ (c.bare = true ∧ supersedes constants c.name = true) := by
  obtain ⟨removed, superseded, kept, _⟩ := deleteBare_deleted constants
  rw [kept, List.mem_filter]
  by_cases gone : c.bare = true ∧ c.name ∈ removed
  · exact .inr ⟨gone.1, superseded c.name gone.2⟩
  · refine .inl ⟨member, ?_⟩
    cases bare : c.bare with
    | false => rfl
    | true => simpa [bare] using gone

theorem mem_of_mem_deleteBare {c : ConstantInstance} {constants : List ConstantInstance}
    (member : c ∈ deleteBare constants) : c ∈ constants := by
  obtain ⟨removed, _, kept, _⟩ := deleteBare_deleted constants
  rw [kept] at member
  exact (List.mem_filter.mp member).1

section
variable {typeOf typeOf' : ConstantInstance → Except RubyError RbsType} {constants constants' : List ConstantInstance}

/-- Only what is made of the constants themselves, and of `bool`, matters. -/
theorem unionType_congr (each : ∀ c ∈ constants, typeOf c = typeOf' c)
    (bool : typeOf { name := "bool" } = typeOf' { name := "bool" }) :
    unionType typeOf constants = unionType typeOf' constants := by
  have all := forall_mergeBooleans (P := fun c => typeOf c = typeOf' c) each bool
  unfold unionType
  rcases merged : mergeBooleans (uniq constants) with _ | ⟨c, _ | ⟨d, rest⟩⟩ <;> rw [merged] at all
  · exact all c List.mem_cons_self
  · have types : (deleteBare (c :: d :: rest)).mapM typeOf = (deleteBare (c :: d :: rest)).mapM typeOf' :=
      mapM_congr fun e member => all e (mem_of_mem_deleteBare member)
    simp only [types]

theorem unionType_total (nonempty : constants ≠ []) (each : ∀ c ∈ constants, ∃ t, typeOf c = .ok t)
    (bool : ∃ t, typeOf { name := "bool" } = .ok t) : ∃ t, unionType typeOf constants = .ok t := by
  have all := forall_mergeBooleans (P := fun c => ∃ t, typeOf c = .ok t) each bool
  unfold unionType
  rcases merged : mergeBooleans (uniq constants) with _ | ⟨c, _ | ⟨d, rest⟩⟩ <;> rw [merged] at all
  · obtain ⟨c, constants, rfl⟩ := List.exists_cons_of_ne_nil nonempty
    unfold mergeBooleans at merged
    split at merged
    · exact absurd merged (List.append_ne_nil_of_right_ne_nil _ (List.cons_ne_nil _ _))
    · cases merged
  · exact all c List.mem_cons_self
  · obtain ⟨types, run⟩ := mapM_total (f := typeOf) fun e member => all e (mem_of_mem_deleteBare member)
    exact ⟨.union types, bind_eq_ok.mpr ⟨types, run, rfl⟩⟩

/-- The same constants in another order give the same type. -/
theorem unionType_same (same : ∀ c, c ∈ constants ↔ c ∈ constants')
    (prunable : Prunable (mergeBooleans (uniq constants))) {t t' : RbsType}
    (run : unionType typeOf constants = .ok t) (run' : unionType typeOf constants' = .ok t') : t.same t' := by
  have perm := mergeBooleans_perm (uniq_perm same)
  have prunable' := prunable.perm perm
  unfold unionType at run run'
  rcases merged : mergeBooleans (uniq constants) with _ | ⟨c, _ | ⟨d, rest⟩⟩
  · rw [merged] at run
    cases run
  · rw [merged] at run perm
    rw [← List.singleton_perm.mp perm] at run'
    rw [run] at run'
    cases run'
    exact t.same_refl
  · have length := perm.length_eq
    rw [merged] at run perm prunable length
    rcases merged' : mergeBooleans (uniq constants') with _ | ⟨c', _ | ⟨d', rest'⟩⟩
    · rw [merged'] at length
      simp at length
    · rw [merged'] at length
      simp at length
    · rw [merged'] at run' perm prunable'
      obtain ⟨types, ran, single⟩ := bind_eq_ok.mp run
      obtain ⟨types', ran', single'⟩ := bind_eq_ok.mp run'
      cases single
      cases single'
      have members : SameMembers Eq (deleteBare (c :: d :: rest)) (deleteBare (c' :: d' :: rest')) := by
        refine .of_mem_iff (fun _ _ => rfl) fun e => ?_
        rw [mem_deleteBare prunable, mem_deleteBare prunable', perm.mem_iff, supersedes, supersedes, perm.any_eq]
      refine same_union_iff.mpr (members.images (mapM_eq_ok.mp ran) (mapM_eq_ok.mp ran') ?_)
      rintro e _ _ _ rfl u u' made made'
      rw [made] at made'
      cases made'
      exact u.same_refl

end

section
variable {env : Environment} {existingTypes : OrderedHash String ExistingType}

theorem constantType_bool : constantType env existingTypes { name := "bool" } = .ok .bool := by
  rw [constantType, if_pos rfl]
  rfl

theorem convertedType_convertAll {constants : List ConstantInstance} {c : ConstantInstance} (member : c ∈ constants) :
    convertedType (convertAll env existingTypes constants) c = constantType env existingTypes c := by
  induction constants with
  | nil => cases member
  | cons d constants ih =>
    rw [convertAll, convertedType, List.find?_cons]
    by_cases same : d = c
    · subst same
      simp
    · rw [decide_eq_false same]
      exact ih ((List.mem_cons.mp member).resolve_left (Ne.symm same))

theorem convertedType_of_not_mem {constants : List ConstantInstance} {c : ConstantInstance} (absent : c ∉ constants) :
    convertedType (convertAll env existingTypes constants) c = .ok .bool := by
  induction constants with
  | nil => rfl
  | cons d constants ih =>
    rw [List.mem_cons, not_or] at absent
    rw [convertAll, convertedType, List.find?_cons, decide_eq_false (Ne.symm absent.1)]
    exact ih absent.2

/-- The generic arguments are converted by `to_rbs_type` itself. -/
theorem unionTypes_eq (unions : List (List ConstantInstance)) :
    unionTypes env existingTypes unions = unions.map (toRbsType env existingTypes) := by
  induction unions with
  | nil => rw [unionTypes, List.map_nil]
  | cons union unions ih =>
    rw [unionTypes, List.map_cons, ih, toRbsType]
    refine congrArg (· :: _) (unionType_congr (fun c member => convertedType_convertAll member) ?_)
    rw [constantType_bool]
    by_cases member : { name := "bool" } ∈ union
    · rw [convertedType_convertAll member, constantType_bool]
    · rw [convertedType_of_not_mem member]

end

end Racer
