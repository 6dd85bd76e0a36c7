import Mathlib.Data.List.Basic
import Mathlib.Data.List.Pairwise

/-! A list that is read from left to right while the items that earlier ones have
brought along are skipped. -/

namespace SkippingWalk

variable {ι α : Type*}

/-- An item that was taken, with what it brought along. -/
structure Taken (ι α : Type*) where
  item : ι
  brought : List α

/-- An item is skipped when its key has been met; one without a key is always taken. -/
inductive Reads (key : ι → Option α) : List α → List ι → List (Taken ι α) → Prop
  | nil {met} : Reads key met [] []
  | skip {met i a items taken} : key i = some a → a ∈ met → Reads key met items taken →
      Reads key met (i :: items) taken
  | take {met i items taken} (brought : List α) : (∀ a ∈ key i, a ∉ met) → Reads key (met ++ brought) items taken →
      Reads key met (i :: items) (⟨i, brought⟩ :: taken)

variable {key : ι → Option α} {met : List α} {items : List ι} {taken : List (Taken ι α)}

theorem Reads.sublist (reads : Reads key met items taken) : (taken.map Taken.item).Sublist items := by
  induction reads with
  | nil => exact .slnil
  | skip _ _ _ ih => exact ih.cons _
  | take _ _ _ ih => exact ih.cons_cons _

/-- An item is taken, or it had been met, or an item before it was taken and brought it along. -/
theorem Reads.taken_or_met (reads : Reads key met items taken) {j : ι} (member : j ∈ items) :
    (∃ t ∈ taken, t.item = j) ∨
      ∃ a ∈ key j, a ∈ met ∨ ∃ t ∈ taken, [t.item, j].Sublist items ∧ a ∈ t.brought := by
  induction reads with
  | nil => cases member
  | @skip met i a items taken atI there _ ih =>
    rcases List.mem_cons.mp member with rfl | later
    · exact .inr ⟨a, atI, .inl there⟩
    · rcases ih later with found | ⟨b, atJ, found⟩
      · exact .inl found
      · refine .inr ⟨b, atJ, found.imp_right fun ⟨t, was, before, brought⟩ => ?_⟩
        exact ⟨t, was, before.cons i, brought⟩
  | @take met i items taken brought _ _ ih =>
    rcases List.mem_cons.mp member with rfl | later
    · exact .inl ⟨_, List.mem_cons_self, rfl⟩
    · rcases ih later with ⟨t, was, same⟩ | ⟨b, atJ, here | ⟨t, was, before, along⟩⟩
      · exact .inl ⟨t, List.mem_cons_of_mem _ was, same⟩
      · rcases List.mem_append.mp here with old | new
        · exact .inr ⟨b, atJ, .inl old⟩
        · have before : [i, j].Sublist (i :: items) := (List.singleton_sublist.mpr later).cons_cons i
          exact .inr ⟨b, atJ, .inr ⟨⟨i, brought⟩, List.mem_cons_self, before, new⟩⟩
      · exact .inr ⟨b, atJ, .inr ⟨t, List.mem_cons_of_mem _ was, before.cons i, along⟩⟩

/-- Where nothing has been met and no item brings a later one along, every item is taken. -/
theorem Reads.all (reads : Reads key met items taken) (unmet : ∀ j ∈ items, ∀ a ∈ key j, a ∉ met)
    (apart : ∀ t ∈ taken, ∀ j, [t.item, j].Sublist items → ∀ a ∈ key j, a ∉ t.brought) :
    taken.map Taken.item = items := by
  induction reads with
  | nil => rfl
  | skip atI there _ _ => exact absurd there (unmet _ List.mem_cons_self _ atI)
  | @take met i items taken brought _ _ ih =>
    rw [List.map_cons, ih]
    · intro j later a atJ here
      rcases List.mem_append.mp here with old | new
      · exact unmet j (List.mem_cons_of_mem _ later) a atJ old
      · have before : [i, j].Sublist (i :: items) := (List.singleton_sublist.mpr later).cons_cons i
        exact apart ⟨i, brought⟩ List.mem_cons_self j before a atJ new
    · exact fun t was j before => apart t (List.mem_cons_of_mem _ was) j (before.cons i)

end SkippingWalk
