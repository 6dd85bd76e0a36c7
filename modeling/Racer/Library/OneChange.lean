import Mathlib.Data.List.Perm.Basic

/-! Lists in which one element changes. -/

namespace OneChange

variable {α β : Type*}

/-- Where one element of a list gains something, the whole list gains it. -/
theorem perm_flatMap {xs : List α} {f : α → α} {g : α → List β} {new : List β} {p : α → Prop}
    (hit : ∀ x ∈ xs, p x → (g (f x)).Perm (g x ++ new)) (miss : ∀ x ∈ xs, ¬ p x → g (f x) = g x)
    (one : xs.Pairwise fun x y => ¬ (p x ∧ p y)) (some : ∃ x ∈ xs, p x) :
    ((xs.map f).flatMap g).Perm (xs.flatMap g ++ new) := by
  induction xs with
  | nil => simp at some
  | cons x xs ih =>
    have others := (List.pairwise_cons.mp one).1
    rw [List.map_cons, List.flatMap_cons, List.flatMap_cons]
    by_cases here : p x
    · have rest : (xs.map f).flatMap g = xs.flatMap g := by
        rw [List.flatMap_map]
        exact List.flatMap_congr fun y member =>
          miss y (List.mem_cons_of_mem x member) fun there => others y member ⟨here, there⟩
      have grown : (g (f x) ++ xs.flatMap g).Perm (g x ++ new ++ xs.flatMap g) :=
        (hit x List.mem_cons_self here).append_right _
      rw [rest, List.append_assoc]
      rw [List.append_assoc] at grown
      exact grown.trans (List.perm_append_comm.append_left (g x))
    · obtain ⟨y, member, there⟩ := some
      have inside : y ∈ xs := (List.mem_cons.mp member).resolve_left fun same => here (same ▸ there)
      have later := ih (fun z member => hit z (List.mem_cons_of_mem x member))
        (fun z member => miss z (List.mem_cons_of_mem x member)) (List.pairwise_cons.mp one).2 ⟨y, inside, there⟩
      rw [miss x List.mem_cons_self here, List.append_assoc]
      exact later.append_left (g x)

end OneChange
