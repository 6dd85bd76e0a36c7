import Mathlib.Data.List.Forall2
import Mathlib.Data.List.Induction
import Mathlib.Data.List.Nodup

/-- A hash that keeps its keys in the order of their insertion. -/
structure OrderedHash (κ ν : Type*) where
  entries : List (κ × ν)
  nodup : (entries.map Prod.fst).Nodup

namespace OrderedHash

variable {κ ν α : Type*}

def empty : OrderedHash κ ν :=
  ⟨[], List.nodup_nil⟩

theorem eq_of_entries {h h' : OrderedHash κ ν} (same : h'.entries = h.entries) : h' = h := by
  cases h
  cases h'
  cases same
  rfl

variable [DecidableEq κ]

def get? (h : OrderedHash κ ν) (k : κ) : Option ν :=
  (h.entries.find? fun entry => entry.1 = k).map Prod.snd

def storeIn (k : κ) (v : ν) : List (κ × ν) → List (κ × ν)
  | [] => [(k, v)]
  | (j, w) :: rest => if j = k then (j, v) :: rest else (j, w) :: storeIn k v rest

theorem map_fst_storeIn (k : κ) (v : ν) (entries : List (κ × ν)) :
    (storeIn k v entries).map Prod.fst =
      if k ∈ entries.map Prod.fst then entries.map Prod.fst else entries.map Prod.fst ++ [k] := by
  induction entries with
  | nil => rfl
  | cons entry rest ih =>
    obtain ⟨j, w⟩ := entry
    by_cases same : j = k
    · simp [storeIn, same]
    · have other : k ≠ j := Ne.symm same
      simp only [storeIn, if_neg same, List.map_cons, ih, List.mem_cons, other, false_or]
      split <;> rfl

/-- A key that is there keeps its place; a new one comes last. -/
def store (h : OrderedHash κ ν) (k : κ) (v : ν) : OrderedHash κ ν where
  entries := storeIn k v h.entries
  nodup := by
    rw [map_fst_storeIn]
    split
    next => exact h.nodup
    next absent => exact h.nodup.append (List.nodup_singleton k) (by simpa using absent)

@[simp]
theorem get?_empty (k : κ) : (empty : OrderedHash κ ν).get? k = none :=
  rfl

theorem find?_storeIn (k j : κ) (v : ν) (entries : List (κ × ν)) :
    ((storeIn k v entries).find? fun entry => entry.1 = j).map Prod.snd =
      if j = k then some v else (entries.find? fun entry => entry.1 = j).map Prod.snd := by
  induction entries with
  | nil =>
    by_cases same : j = k
    · simp [storeIn, same]
    · simp [storeIn, same, Ne.symm same]
  | cons entry rest ih =>
    obtain ⟨i, w⟩ := entry
    by_cases here : i = k
    · subst here
      by_cases same : j = i
      · simp [storeIn, same]
      · simp [storeIn, same, Ne.symm same]
    · rw [storeIn, if_neg here]
      by_cases found : i = j
      · subst found
        simp [here]
      · simp only [List.find?_cons, found, decide_false]
        exact ih

theorem get?_store (h : OrderedHash κ ν) (k j : κ) (v : ν) :
    (h.store k v).get? j = if j = k then some v else h.get? j :=
  find?_storeIn k j v h.entries

@[simp]
theorem get?_store_self (h : OrderedHash κ ν) (k : κ) (v : ν) : (h.store k v).get? k = some v := by
  rw [get?_store, if_pos rfl]

theorem get?_store_of_ne (h : OrderedHash κ ν) {k j : κ} (other : j ≠ k) (v : ν) :
    (h.store k v).get? j = h.get? j := by
  rw [get?_store, if_neg other]

theorem storeIn_of_not_mem {k : κ} {entries : List (κ × ν)} (absent : k ∉ entries.map Prod.fst) (v : ν) :
    storeIn k v entries = entries ++ [(k, v)] := by
  induction entries with
  | nil => rfl
  | cons entry rest ih =>
    rw [List.map_cons, List.mem_cons, not_or] at absent
    rw [storeIn, if_neg (Ne.symm absent.1), ih absent.2, List.cons_append]

/-- Entries with new keys are kept in the order in which they are stored. -/
theorem entries_foldl_store {more : List (κ × ν)} {h : OrderedHash κ ν}
    (nodup : ((h.entries ++ more).map Prod.fst).Nodup) :
    (more.foldl (fun h entry => h.store entry.1 entry.2) h).entries = h.entries ++ more := by
  induction more generalizing h with
  | nil => rw [List.foldl_nil, List.append_nil]
  | cons entry more ih =>
    have absent : entry.1 ∉ h.entries.map Prod.fst := by
      rw [List.map_append, List.nodup_append] at nodup
      exact fun member => nodup.2.2 entry.1 member entry.1 (by simp) rfl
    have stored : (h.store entry.1 entry.2).entries = h.entries ++ [entry] := storeIn_of_not_mem absent entry.2
    have rest := ih (h := h.store entry.1 entry.2) (by rwa [stored, List.append_assoc])
    rw [List.foldl_cons, rest, stored, List.append_assoc, List.singleton_append]

/-- The entries are exactly what can be looked up. -/
theorem mem_entries {h : OrderedHash κ ν} {k : κ} {v : ν} : (k, v) ∈ h.entries ↔ h.get? k = some v := by
  obtain ⟨entries, nodup⟩ := h
  unfold get?
  simp only
  induction entries with
  | nil => simp
  | cons entry rest ih =>
    obtain ⟨j, w⟩ := entry
    rw [List.map_cons, List.nodup_cons] at nodup
    by_cases here : j = k
    · subst here
      have absent : (j, v) ∉ rest := fun member => nodup.1 (List.mem_map.mpr ⟨_, member, rfl⟩)
      simp [absent, eq_comm]
    · simp only [List.mem_cons, Prod.mk.injEq, Ne.symm here, false_and, false_or, List.find?_cons, here, decide_false]
      exact ih nodup.2

theorem mem_entries_store {h : OrderedHash κ ν} {k : κ} {v : ν} {entry : κ × ν}
    (member : entry ∈ (h.store k v).entries) :
    entry ∈ h.entries ∨ entry = (k, v) := by
  obtain ⟨j, w⟩ := entry
  rw [mem_entries, get?_store] at member
  split at member
  next same =>
    cases member
    rw [same]
    exact .inr rfl
  next => exact .inl (mem_entries.mpr member)

theorem mem_entries_foldl_store {more : List (κ × ν)} {h : OrderedHash κ ν} {entry : κ × ν}
    (member : entry ∈ (more.foldl (fun h e => h.store e.1 e.2) h).entries) : entry ∈ h.entries ∨ entry ∈ more := by
  induction more generalizing h with
  | nil => exact .inl member
  | cons e more ih =>
    rcases ih member with old | new
    · rcases mem_entries_store old with old | rfl
      · exact .inl old
      · exact .inr List.mem_cons_self
    · exact .inr (List.mem_cons_of_mem e new)

/-- Values that are related stay so when related ones are stored. -/
theorem storeIn_related {R : ν → ν → Prop} {entries entries' : List (κ × ν)}
    (related : List.Forall₂ (fun a b => a.1 = b.1 ∧ R a.2 b.2) entries entries') (k : κ) {v w : ν} (values : R v w) :
    List.Forall₂ (fun a b => a.1 = b.1 ∧ R a.2 b.2) (storeIn k v entries) (storeIn k w entries') := by
  induction related with
  | nil => exact .cons ⟨rfl, values⟩ .nil
  | @cons a b rest rest' first later ih =>
    obtain ⟨j, u⟩ := a
    obtain ⟨j', u'⟩ := b
    obtain ⟨rfl, old⟩ := first
    unfold storeIn
    split
    · exact .cons ⟨rfl, values⟩ later
    · exact .cons ⟨rfl, old⟩ ih

/-- The same keys with changed values. -/
def map {ω : Type*} (f : ν → ω) (h : OrderedHash κ ν) : OrderedHash κ ω where
  entries := h.entries.map fun entry => (entry.1, f entry.2)
  nodup := by
    rw [List.map_map]
    exact h.nodup

section
variable {ω : Type*} {f g : ν → ω}

omit [DecidableEq κ] in
theorem map_congr {h : OrderedHash κ ν} (same : ∀ entry ∈ h.entries, f entry.2 = g entry.2) : h.map f = h.map g := by
  unfold map
  congr 1
  exact List.map_congr_left fun entry member => by rw [same entry member]

@[simp]
theorem get?_map (f : ν → ω) (h : OrderedHash κ ν) (k : κ) : (h.map f).get? k = (h.get? k).map f := by
  simp only [map, get?, List.find?_map, Option.map_map]
  rfl

theorem map_store (f : ν → ω) (h : OrderedHash κ ν) (k : κ) (v : ν) :
    (h.store k v).map f = (h.map f).store k (f v) := by
  have stored (entries : List (κ × ν)) : (storeIn k v entries).map (fun entry => (entry.1, f entry.2)) =
      storeIn k (f v) (entries.map fun entry => (entry.1, f entry.2)) := by
    induction entries with
    | nil => rfl
    | cons entry rest ih =>
      rw [storeIn, List.map_cons, storeIn]
      split
      · rfl
      · rw [List.map_cons, ih]
  simp only [map, store, stored]

end

/-- Elements under their key, in the order in which they come. -/
def groupBy (key : α → κ) (xs : List α) : OrderedHash κ (List α) :=
  xs.foldl (fun h x => h.store (key x) ((h.get? (key x)).getD [] ++ [x])) empty

/-- The group of a key: the elements that have it, if there are any. -/
theorem get?_groupBy (key : α → κ) (xs : List α) (k : κ) : (groupBy key xs).get? k =
    if xs.filter (key · = k) = [] then none else some (xs.filter (key · = k)) := by
  induction xs using List.reverseRecOn with
  | nil => rfl
  | append_singleton xs x ih =>
    rw [groupBy, List.foldl_append, List.foldl_cons, List.foldl_nil, ← groupBy, get?_store, List.filter_append]
    by_cases here : k = key x
    · subst here
      rw [ih]
      by_cases first : xs.filter (key · = key x) = [] <;> simp [first]
    · simp [here, Ne.symm here, ih]

theorem mem_groupBy {key : α → κ} {xs group : List α} {k : κ} :
    (k, group) ∈ (groupBy key xs).entries ↔ group = xs.filter (key · = k) ∧ group ≠ [] := by
  rw [mem_entries, get?_groupBy]
  split
  next none => simp [none]
  next some =>
    rw [Option.some.injEq]
    exact ⟨fun same => ⟨same.symm, same ▸ some⟩, fun ⟨same, _⟩ => same.symm⟩

end OrderedHash
