import Mathlib.Data.Set.Insert
import Mathlib.Logic.Relation

/-! What an exploration of a graph has seen in the end when it leaves alone what was
seen before. -/

namespace Reaching

variable {α : Type*} {R : α → α → Prop} {known starts more target : Set α} {a b : α}

/-- What is known, and what the starts lead to over elements that are not known. -/
def reached (R : α → α → Prop) (known starts : Set α) : Set α :=
  {b | b ∈ known ∨ ∃ a ∈ starts, Relation.ReflTransGen (fun i j => i ∉ known ∧ R i j) a b}

theorem known_subset : known ⊆ reached R known starts :=
  fun _ member => .inl member

theorem starts_subset : starts ⊆ reached R known starts :=
  fun a member => .inr ⟨a, member, .refl⟩

/-- Everything that was reached anew has been explored in turn. -/
theorem reached_step (member : a ∈ reached R known starts) (fresh : a ∉ known) (leads : R a b) :
    b ∈ reached R known starts := by
  obtain old | ⟨start, first, path⟩ := member
  · exact absurd old fresh
  · exact .inr ⟨start, first, path.tail ⟨fresh, leads⟩⟩

/-- Nothing smaller holds the known elements and the starts and is explored in turn. -/
theorem reached_subset (knowns : known ⊆ target) (firsts : starts ⊆ target)
    (steps : ∀ a ∈ target, a ∉ known → ∀ b, R a b → b ∈ target) : reached R known starts ⊆ target := by
  rintro b (old | ⟨a, first, path⟩)
  · exact knowns old
  · induction path with
    | refl => exact firsts first
    | tail _ edge ih => exact steps _ ih edge.1 _ edge.2

theorem reached_of_subset (old : starts ⊆ known) : reached R known starts = known :=
  (reached_subset subset_rfl old fun _ member fresh => absurd member fresh).antisymm known_subset

/-- A start that leads to something new is new itself. -/
theorem start_notMem (fresh : b ∉ known) (member : b ∈ reached R known {a}) : a ∉ known :=
  fun old => fresh (reached_of_subset (Set.singleton_subset_iff.mpr old) ▸ member)

theorem reached_nil (R : α → α → Prop) (known : Set α) : reached R known {a | a ∈ ([] : List α)} = known :=
  reached_of_subset fun _ none => absurd none List.not_mem_nil

/-- One exploration after the other reaches what both together would. -/
theorem reached_reached (R : α → α → Prop) (known starts more : Set α) :
    reached R (reached R known starts) more = reached R known (starts ∪ more) := by
  have first : reached R known starts ⊆ reached R known (starts ∪ more) :=
    reached_subset known_subset (Set.subset_union_left.trans starts_subset) fun _ member fresh _ =>
      reached_step member fresh
  have second : starts ∪ more ⊆ reached R (reached R known starts) more :=
    Set.union_subset (starts_subset.trans known_subset) starts_subset
  apply Set.Subset.antisymm
  · refine reached_subset first (Set.subset_union_right.trans starts_subset) fun a member fresh b leads => ?_
    exact reached_step member (fun old => fresh (known_subset old)) leads
  · refine reached_subset (known_subset.trans known_subset) second fun a member fresh b leads => ?_
    by_cases early : a ∈ reached R known starts
    · exact known_subset (reached_step early fresh leads)
    · exact reached_step member early leads

theorem reached_cons (R : α → α → Prop) (known : Set α) (a : α) (rest : List α) :
    reached R (reached R known {a}) {b | b ∈ rest} = reached R known {b | b ∈ a :: rest} := by
  rw [reached_reached]
  congr 1
  ext b
  simp

theorem reached_append (R : α → α → Prop) (known : Set α) (starts more : List α) :
    reached R (reached R known {b | b ∈ starts}) {b | b ∈ more} = reached R known {b | b ∈ starts ++ more} := by
  rw [reached_reached]
  congr 1
  ext b
  simp

theorem reached_snoc (R : α → α → Prop) (known : Set α) (starts : List α) (a : α) :
    reached R (reached R known {b | b ∈ starts}) {a} = reached R known {b | b ∈ starts ++ [a]} := by
  rw [← reached_append]
  simp

/-- Of starts that are explored in turn, one is the first to reach an element. -/
theorem exists_first {starts : List α} (fresh : b ∉ known) (member : b ∈ reached R known {c | c ∈ starts}) :
    ∃ before a after, starts = before ++ a :: after ∧ b ∉ reached R known {c | c ∈ before} ∧
      b ∈ reached R (reached R known {c | c ∈ before}) {a} := by
  induction starts generalizing known with
  | nil => exact absurd (reached_nil R known ▸ member) fresh
  | cons a starts ih =>
    by_cases early : b ∈ reached R known {a}
    · exact ⟨[], a, starts, rfl, by rwa [reached_nil], by rwa [reached_nil]⟩
    · obtain ⟨before, c, after, rfl, unseen, seen⟩ := ih early (by rwa [reached_cons])
      rw [reached_cons] at unseen seen
      exact ⟨a :: before, c, after, rfl, unseen, seen⟩

/-- An element that is not known is explored by exploring everything it leads to. -/
theorem reached_insert (fresh : a ∉ known) :
    reached R (insert a known) {b | R a b} = reached R known {a} := by
  apply Set.Subset.antisymm
  · have self : a ∈ reached R known {a} := starts_subset rfl
    refine reached_subset (Set.insert_subset self known_subset) (fun b leads => reached_step self fresh leads)
      fun b member other c leads => ?_
    exact reached_step member (fun old => other (Set.mem_insert_of_mem a old)) leads
  · have self : insert a known ⊆ reached R (insert a known) {b | R a b} := known_subset
    refine reached_subset ((Set.subset_insert a known).trans self)
      (Set.singleton_subset_iff.mpr (self (Set.mem_insert a known))) fun b member other c leads => ?_
    by_cases same : b = a
    · subst same
      exact starts_subset leads
    · exact reached_step member (fun old => (Set.mem_insert_iff.mp old).elim same other) leads

end Reaching
