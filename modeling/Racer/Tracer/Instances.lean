import Racer.Library.Stateful
import Racer.Tracer.Anchored

namespace Racer
open Stateful

mutual

/-- The names an observed type mentions: its own and those of its generic unions. -/
def ConstantInstance.names : ConstantInstance → List String
  | ⟨name, _, unions⟩ => name :: unionsNames unions

def unionsNames : List (List ConstantInstance) → List String
  | [] => []
  | union :: unions => unionNames union ++ unionsNames unions

def unionNames : List ConstantInstance → List String
  | [] => []
  | i :: union => i.names ++ unionNames union

end

theorem mem_unionNames {n : String} {union : List ConstantInstance} :
    n ∈ unionNames union ↔ ∃ i ∈ union, n ∈ i.names := by
  induction union with
  | nil => simp [unionNames]
  | cons i union ih => simp [unionNames, ih]

theorem mem_unionsNames {n : String} {unions : List (List ConstantInstance)} :
    n ∈ unionsNames unions ↔ ∃ u ∈ unions, ∃ i ∈ u, n ∈ i.names := by
  induction unions with
  | nil => simp [unionsNames]
  | cons u unions ih => simp [unionsNames, ih, mem_unionNames]

theorem ConstantInstance.mem_names {n : String} {i : ConstantInstance} :
    n ∈ i.names ↔ n = i.name ∨ ∃ u ∈ i.genericArguments, ∃ j ∈ u, n ∈ j.names := by
  obtain ⟨name, singleton, unions⟩ := i
  rw [ConstantInstance.names, List.mem_cons, mem_unionsNames]

section
variable {κ : Type} [DecidableEq κ] [Fintype κ] (h : Hierarchy κ)

/-- `class_to_constant_instance`. The fuel is enough: `exploreConstant_total`. -/
def classToConstantInstance (klass : κ) (genericArguments : List (List ConstantInstance)) :
    StateT (Constants κ) Option ConstantInstance := fun s =>
  match exploreConstant h (Fintype.card κ + 1) klass s with
  | none => none
  | some (s, _) => some ({ name := s.nameOf klass, genericArguments }, s)

/-- One turn of the loops of `generic_arguments_by_value`: a plain instance is kept
once for each class, by the set of classes in front. -/
def addType (klass : κ) (constant : ConstantInstance) (types : List κ × List ConstantInstance) :
    List κ × List ConstantInstance :=
  if constant.genericArguments = [] ∧ constant.singleton = false then
    if klass ∈ types.1 then types else (klass :: types.1, types.2 ++ [constant])
  else (types.1, types.2 ++ [constant])

section
variable {m : Type → Type} [Monad m] (typeOf : Value κ → m ConstantInstance) (objClass : Value κ → κ)

def arrayTypes : List (Value κ) → List κ × List ConstantInstance → m (List ConstantInstance)
  | [], types => pure types.2
  | item :: items, types => do
    let constant ← typeOf item
    arrayTypes items (addType (objClass item) constant types)

def hashTypes : List (Value κ × Value κ) → List κ × List ConstantInstance → List κ × List ConstantInstance →
    m (List ConstantInstance × List ConstantInstance)
  | [], keys, values => pure (keys.2, values.2)
  | (key, value) :: items, keys, values => do
    let keyConstant ← typeOf key
    let valueConstant ← typeOf value
    hashTypes items (addType (objClass key) keyConstant keys) (addType (objClass value) valueConstant values)

/-- `generic_arguments_by_value`, for the recursive call `typeOf` at the next depth. -/
def genericArgumentsByValue (o : Objects κ) (maxGenericDepth : Int) (value : Value κ) (depth : Int) :
    m (List (List ConstantInstance)) :=
  if depth = maxGenericDepth then pure []
  else if value.objClass h o = h.cArray then
    if value.array o = [] then pure []
    else do
      let types ← arrayTypes typeOf (Value.objClass h o) (value.array o) ([], [])
      pure [types]
  else if value.objClass h o = h.cHash then
    if value.hash o = [] then pure []
    else do
      let types ← hashTypes typeOf (Value.objClass h o) (value.hash o) ([], []) ([], [])
      pure [types.1, types.2]
  else pure []

end

/-- The class object behind a value whose class is Class or Module. -/
def Value.singleton (o : Objects κ) : Value κ → Option κ
  | .constant k =>
    if (Value.constant k).objClass h o = h.cClass ∨ (Value.constant k).objClass h o = h.cModule then some k else none
  | .object _ => none

/-- `value_to_constant_instance`. Only the depth bounds its recursion: it returns
none when it goes deeper than `fuel`. -/
def valueToConstantInstance (o : Objects κ) (maxGenericDepth : Int) :
    Nat → Value κ → Int → StateT (Constants κ) Option ConstantInstance
  | 0, _, _ => fun _ => none
  | fuel + 1, value, depth =>
    match value.singleton h o with
    | some klass => do
      let constant ← classToConstantInstance h klass []
      pure { constant with singleton := true }
    | none => do
      let generics ← genericArgumentsByValue h (fun v => valueToConstantInstance o maxGenericDepth fuel v (depth + 1))
        o maxGenericDepth value depth
      classToConstantInstance h (value.objClass h o) generics

/-- The type of a value as the final names of the hierarchy spell it, whatever
has been explored before. -/
def typeOfValue (o : Objects κ) (maxGenericDepth : Int) : Nat → Value κ → Int → Option ConstantInstance
  | 0, _, _ => none
  | fuel + 1, value, depth =>
    match value.singleton h o with
    | some klass => some { name := finalName h klass, singleton := true }
    | none => do
      let generics ← genericArgumentsByValue h (fun v => typeOfValue o maxGenericDepth fuel v (depth + 1))
        o maxGenericDepth value depth
      some { name := finalName h (value.objClass h o), genericArguments := generics }

/-- Every constant in the map has its final name, as is the case between two events. -/
def Named (s : Constants κ) : Prop :=
  ∀ k c, s.constantMap k = some c → c.name = finalName h k

/-- The name is the final name of a constant in the map. -/
def Known (s : Constants κ) (n : String) : Prop :=
  ∃ k, s.constantMap k ≠ none ∧ n = finalName h k

/-- The entries made since `s` are announced, all that was there is as it was, and
what the new entries mention is in the map. -/
structure Grows (s t : Constants κ) : Prop where
  explored : ∃ new, Explored h s t new
  settled : Anchored h → Named h s → Settled h s t

variable {h}

omit [DecidableEq κ] [Fintype κ] in
theorem Explored.stays_named {s t : Constants κ} {new : List κ} (explored : Explored h s t new)
    (named : Named h s) : Named h t := by
  intro k c atK
  by_cases fresh : k ∈ new
  · obtain ⟨d, there, name⟩ := explored.named k fresh
    rw [there] at atK
    cases atK
    exact name
  · rw [explored.frame k fresh] at atK
    exact named k c atK

omit [Fintype κ] in
theorem Grows.named {s t : Constants κ} (grows : Grows h s t) (named : Named h s) : Named h t := by
  obtain ⟨new, explored⟩ := grows.explored
  exact explored.stays_named named

omit [Fintype κ] in
theorem Grows.known {s t : Constants κ} (grows : Grows h s t) {n : String} (known : Known h s n) :
    Known h t n := by
  obtain ⟨new, explored⟩ := grows.explored
  obtain ⟨k, there, name⟩ := known
  exact ⟨k, by rw [explored.keeps there]; exact there, name⟩

instance : Std.Refl (Grows h) :=
  ⟨fun s => ⟨⟨[], .refl s⟩, fun _ _ j fresh c atJ => by rw [fresh] at atJ; cases atJ⟩⟩

instance : IsTrans (Constants κ) (Grows h) where
  trans _ _ _ first second := by
    obtain ⟨new, explored⟩ := first.explored
    obtain ⟨more, next⟩ := second.explored
    refine ⟨⟨new ++ more, explored.trans next⟩, fun anchored named => ?_⟩
    exact (first.settled anchored named).explored next (second.settled anchored (first.named named))

theorem classToConstantInstance_ensures {s : Constants κ} (named : Named h s) (klass : κ)
    (generics : List (List ConstantInstance)) :
    Ensures (Grows h) s (classToConstantInstance h klass generics) fun i t =>
      i = { name := finalName h klass, genericArguments := generics } ∧ Known h t (finalName h klass) := by
  intro i t run
  unfold classToConstantInstance at run
  split at run
  next => cases run
  next u met explored =>
    cases run
    obtain ⟨⟨new, grows⟩, known⟩ := exploreConstant_explored _ _ _ _ _ explored
    obtain ⟨c, atK⟩ := Option.ne_none_iff_exists'.mp known
    have name := grows.stays_named named klass c atK
    refine ⟨⟨⟨new, grows⟩, fun anchored _ => ?_⟩, ?_, klass, known, rfl⟩
    · exact exploreConstant_settled anchored _ _ _ _ _ explored fun w d atW misnamed =>
        absurd (named w d atW) misnamed
    simp only [Constants.nameOf, atK, name]

theorem classToConstantInstance_total (klass : κ) (generics : List (List ConstantInstance)) (s : Constants κ) :
    ∃ r, classToConstantInstance h klass generics s = some r := by
  obtain ⟨t, met, run⟩ := exploreConstant_total (h := h) (Fintype.card κ) klass s (Finset.card_le_univ _)
  unfold classToConstantInstance
  simp only [run]
  exact ⟨_, rfl⟩

/-- The result is the one expected, and mentions known names only. -/
def Computes {α : Type} (h : Hierarchy κ) (names : α → List String) (expected : Option α) (a : α)
    (t : Constants κ) : Prop :=
  expected = some a ∧ ∀ n ∈ names a, Known h t n

/-- The reader of values returns the expected type from every state between two events. -/
def Sees (h : Hierarchy κ) (typeOf : Value κ → StateT (Constants κ) Option ConstantInstance)
    (expected : Value κ → Option ConstantInstance) : Prop :=
  ∀ value s, Named h s → Ensures (Grows h) s (typeOf value) (Computes h ConstantInstance.names (expected value))

omit [Fintype κ] in
theorem addType_names {klass : κ} {constant : ConstantInstance} {types : List κ × List ConstantInstance}
    {n : String} (member : n ∈ unionNames (addType klass constant types).2) :
    n ∈ unionNames types.2 ∨ n ∈ constant.names := by
  unfold addType at member
  split_ifs at member
  · exact .inl member
  all_goals
    obtain ⟨i, inside, named⟩ := mem_unionNames.mp member
    rcases List.mem_append.mp inside with old | new
    · exact .inl (mem_unionNames.mpr ⟨i, old, named⟩)
    · rw [List.mem_singleton.mp new] at named
      exact .inr named

section
variable {typeOf : Value κ → StateT (Constants κ) Option ConstantInstance}
  {expected : Value κ → Option ConstantInstance}

omit [Fintype κ] in
theorem arrayTypes_ensures (sees : Sees h typeOf expected) (objClass : Value κ → κ) (items : List (Value κ))
    {types : List κ × List ConstantInstance} {s : Constants κ} (named : Named h s)
    (known : ∀ n ∈ unionNames types.2, Known h s n) :
    Ensures (Grows h) s (arrayTypes typeOf objClass items types)
      (Computes h unionNames (arrayTypes expected objClass items types)) := by
  induction items generalizing types s with
  | nil => exact .pure ⟨rfl, known⟩
  | cons item items ih =>
    refine (sees item s named).bind fun constant t grows ⟨computed, knows⟩ => ?_
    refine (ih (grows.named named) fun n member => ?_).mono fun a u _ post => ⟨?_, post.2⟩
    · rcases addType_names member with old | new
      · exact grows.known (known n old)
      · exact knows n new
    · simp only [arrayTypes, computed, Option.bind_eq_bind, Option.bind_some]
      exact post.1

omit [Fintype κ] in
theorem hashTypes_ensures (sees : Sees h typeOf expected) (objClass : Value κ → κ)
    (items : List (Value κ × Value κ)) {keys values : List κ × List ConstantInstance} {s : Constants κ}
    (named : Named h s) (keysKnown : ∀ n ∈ unionNames keys.2, Known h s n)
    (valuesKnown : ∀ n ∈ unionNames values.2, Known h s n) :
    Ensures (Grows h) s (hashTypes typeOf objClass items keys values)
      (Computes h (fun types => unionNames types.1 ++ unionNames types.2)
        (hashTypes expected objClass items keys values)) := by
  induction items generalizing keys values s with
  | nil =>
    refine .pure ⟨rfl, fun n member => ?_⟩
    rcases List.mem_append.mp member with key | value
    · exact keysKnown n key
    · exact valuesKnown n value
  | cons item items ih =>
    obtain ⟨key, value⟩ := item
    refine (sees key s named).bind fun keyConstant t grows ⟨keyComputed, keyKnown⟩ => ?_
    refine (sees value t (grows.named named)).bind fun valueConstant u more ⟨valueComputed, valueKnown⟩ => ?_
    refine (ih (more.named (grows.named named)) (fun n member => ?_) fun n member => ?_).mono
      fun a v _ post => ⟨?_, post.2⟩
    · rcases addType_names member with old | new
      · exact more.known (grows.known (keysKnown n old))
      · exact more.known (keyKnown n new)
    · rcases addType_names member with old | new
      · exact more.known (grows.known (valuesKnown n old))
      · exact valueKnown n new
    · simp only [hashTypes, keyComputed, valueComputed, Option.bind_eq_bind, Option.bind_some]
      exact post.1

omit [Fintype κ] in
theorem genericArgumentsByValue_ensures (sees : Sees h typeOf expected) (o : Objects κ)
    (maxGenericDepth : Int) (value : Value κ) (depth : Int) {s : Constants κ} (named : Named h s) :
    Ensures (Grows h) s (genericArgumentsByValue h typeOf o maxGenericDepth value depth)
      (Computes h unionsNames (genericArgumentsByValue h expected o maxGenericDepth value depth)) := by
  have nothing : Computes h unionsNames (some []) [] s := ⟨rfl, by simp [unionsNames]⟩
  unfold genericArgumentsByValue
  split_ifs
  · exact .pure nothing
  · exact .pure nothing
  · refine (arrayTypes_ensures sees _ _ named (by simp [unionNames])).bind
      fun types t _ ⟨computed, known⟩ => .pure ⟨?_, ?_⟩
    · simp only [computed, Option.bind_eq_bind, Option.bind_some]
      rfl
    · simpa only [unionsNames, List.append_nil] using known
  · exact .pure nothing
  · refine (hashTypes_ensures sees _ _ named (by simp [unionNames]) (by simp [unionNames])).bind
      fun types t _ ⟨computed, known⟩ => .pure ⟨?_, ?_⟩
    · simp only [computed, Option.bind_eq_bind, Option.bind_some]
      rfl
    · simpa only [unionsNames, List.append_nil] using known
  · exact .pure nothing

end

/-- The type that is recorded for a value does not depend on what has been
explored, and every name in it is the name of an explored constant. -/
theorem valueToConstantInstance_ensures (o : Objects κ) (maxGenericDepth : Int) (fuel : Nat) (depth : Int) :
    Sees h (fun value => valueToConstantInstance h o maxGenericDepth fuel value depth)
      (fun value => typeOfValue h o maxGenericDepth fuel value depth) := by
  induction fuel generalizing depth with
  | zero => intro value s _ i t run; cases run
  | succ fuel ih =>
    intro value s named
    simp only [valueToConstantInstance, typeOfValue]
    cases value.singleton h o with
    | some klass =>
      simp only
      refine (classToConstantInstance_ensures named klass []).bind fun constant t _ ⟨same, known⟩ => .pure ⟨?_, ?_⟩
      · rw [same]
      · subst same
        intro n member
        rw [ConstantInstance.mem_names] at member
        rcases member with rfl | ⟨u, inside, _⟩
        · exact known
        · cases inside
    | none =>
      simp only
      refine (genericArgumentsByValue_ensures (ih (depth + 1)) o maxGenericDepth value depth named).bind
        fun generics t grows ⟨computed, knows⟩ => ?_
      refine (classToConstantInstance_ensures (grows.named named) (value.objClass h o) generics).mono
        fun i u more ⟨same, known⟩ => ⟨?_, ?_⟩
      · simp only [computed, Option.bind_eq_bind, Option.bind_some, same]
      · subst same
        intro n member
        rw [ConstantInstance.names, List.mem_cons] at member
        rcases member with rfl | generic
        · exact known
        · exact more.known (knows n generic)

end

end Racer
