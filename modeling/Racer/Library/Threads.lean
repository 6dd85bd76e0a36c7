import Mathlib.Algebra.BigOperators.Group.Finset.Basic
import Mathlib.Algebra.GroupWithZero.Nat
import Mathlib.Algebra.Order.BigOperators.Group.Finset
import Mathlib.Data.Fintype.BigOperators

namespace Threads
open Function

variable {ι π α : Type*}

/-- A weight of all threads, given what one thread weighs where it is. -/
def total [Fintype ι] (weight : π → Nat) (pc : ι → π) : Nat :=
  ∑ t, weight (pc t)

theorem total_update [Fintype ι] [DecidableEq ι] (weight : π → Nat) (pc : ι → π) (t : ι) (p : π) :
    total weight (update pc t p) + weight (pc t) = total weight pc + weight p := by
  have rest : ∑ u ∈ Finset.univ.erase t, weight (update pc t p u) = ∑ u ∈ Finset.univ.erase t, weight (pc u) :=
    Finset.sum_congr rfl fun u member => by rw [update_of_ne (Finset.ne_of_mem_erase member)]
  have after := Finset.sum_erase_add Finset.univ (fun u => weight (update pc t p u)) (Finset.mem_univ t)
  have before := Finset.sum_erase_add Finset.univ (fun u => weight (pc u)) (Finset.mem_univ t)
  simp only [update_self] at after
  simp only [total]
  omega

theorem total_eq_zero [Fintype ι] {weight : π → Nat} {pc : ι → π} :
    total weight pc = 0 ↔ ∀ t, weight (pc t) = 0 := by
  simp only [total, Finset.sum_eq_zero_iff, Finset.mem_univ, true_implies]

/-- A weight of all members of a list, of which one changes. -/
theorem sum_modify (weight : α → Nat) (f : α → α) {l : List α} {k : Nat} {a : α} (atK : l[k]? = some a) :
    ((l.modify k f).map weight).sum + weight a = (l.map weight).sum + weight (f a) := by
  induction l generalizing k with
  | nil => cases atK
  | cons b l ih =>
    cases k with
    | zero =>
      obtain rfl : b = a := Option.some.inj atK
      simp only [List.modify_zero_cons, List.map_cons, List.sum_cons]
      omega
    | succ k =>
      have rest := ih atK
      simp only [List.modify_succ_cons, List.map_cons, List.sum_cons]
      omega

theorem sum_modify_le (weight : α → Nat) {f : α → α} (l : List α) (k : Nat) (more : Nat)
    (bound : ∀ a, weight (f a) ≤ weight a + more) : ((l.modify k f).map weight).sum ≤ (l.map weight).sum + more := by
  cases atK : l[k]? with
  | none =>
    rw [List.modify_eq_self (List.getElem?_eq_none_iff.mp atK)]
    exact Nat.le_add_right _ _
  | some a =>
    have sum := sum_modify weight f atK
    have own := bound a
    omega

end Threads
