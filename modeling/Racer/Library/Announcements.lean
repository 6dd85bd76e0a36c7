import Mathlib.Data.List.Basic

/-! Logs in which names are announced before they are used. -/

namespace Announcements

variable {α β : Type*} {announces uses : α → List β}

/-- Every name an entry uses is announced by that entry or by an earlier one. -/
def Ordered (announces uses : α → List β) (log : List α) : Prop :=
  ∀ before t after, log = before ++ t :: after → ∀ n ∈ uses t, ∃ u ∈ before ++ [t], n ∈ announces u

theorem Ordered.nil : Ordered announces uses [] := by
  intro before t after split
  exact absurd split.symm (List.append_ne_nil_of_right_ne_nil _ (List.cons_ne_nil t after))

theorem Ordered.snoc {log : List α} {t : α} (ordered : Ordered announces uses log)
    (announced : ∀ n ∈ uses t, ∃ u ∈ log ++ [t], n ∈ announces u) : Ordered announces uses (log ++ [t]) := by
  intro before v after split
  rcases List.eq_nil_or_concat after with rfl | ⟨front, last, rfl⟩
  · obtain ⟨rfl, same⟩ := List.append_inj' split rfl
    cases same
    exact announced
  · rw [List.concat_eq_append, ← List.cons_append, ← List.append_assoc] at split
    exact ordered before v front (List.append_inj' split rfl).1

/-- Entries that announce what they use may come in any order. -/
theorem Ordered.of_own {log : List α} (own : ∀ t ∈ log, ∀ n ∈ uses t, n ∈ announces t) :
    Ordered announces uses log := by
  rintro before t after rfl n used
  exact ⟨t, by simp, own t (by simp) n used⟩

theorem Ordered.prefix {log more : List α} (ordered : Ordered announces uses (log ++ more)) :
    Ordered announces uses log := by
  intro before t after split
  refine ordered before t (after ++ more) ?_
  rw [split, List.append_assoc, List.cons_append]

theorem Ordered.map {γ : Type*} {f : γ → α} {log : List γ} (ordered : Ordered (announces ∘ f) (uses ∘ f) log) :
    Ordered announces uses (log.map f) := by
  intro before t after split n used
  obtain ⟨first, rest, rfl, rfl, tail⟩ := List.map_eq_append_iff.mp split
  obtain ⟨g, later, rfl, rfl, rfl⟩ := List.map_eq_cons_iff.mp tail
  obtain ⟨u, early, announces⟩ := ordered first g later rfl n used
  refine ⟨f u, ?_, announces⟩
  rw [← List.map_singleton, ← List.map_append]
  exact List.mem_map_of_mem early

theorem Ordered.of_map {γ : Type*} {f : γ → α} {log : List γ} (ordered : Ordered announces uses (log.map f)) :
    Ordered (announces ∘ f) (uses ∘ f) log := by
  rintro before t after rfl n used
  obtain ⟨v, early, announces⟩ := ordered (before.map f) (f t) (after.map f) (by simp) n used
  rw [← List.map_singleton, ← List.map_append] at early
  obtain ⟨u, inside, rfl⟩ := List.mem_map.mp early
  exact ⟨u, inside, announces⟩

/-- The same announcements serve fewer uses. -/
theorem Ordered.mono {uses' : α → List β} {log : List α} (ordered : Ordered announces uses log)
    (fewer : ∀ t ∈ log, ∀ n ∈ uses' t, n ∈ uses t) : Ordered announces uses' log := by
  intro before t after split n used
  exact ordered before t after split n (fewer t (by rw [split]; simp) n used)

theorem Ordered.announced {log : List α} (ordered : Ordered announces uses log) {n : β}
    (used : n ∈ log.flatMap uses) : n ∈ log.flatMap announces := by
  obtain ⟨t, member, uses⟩ := List.mem_flatMap.mp used
  obtain ⟨before, after, rfl⟩ := List.append_of_mem member
  obtain ⟨u, early, announces⟩ := ordered before t after rfl n uses
  refine List.mem_flatMap.mpr ⟨u, ?_, announces⟩
  rcases List.mem_append.mp early with earlier | last
  · exact List.mem_append_left _ earlier
  · rw [List.mem_singleton.mp last]
    exact member

end Announcements
