import Mathlib.Data.List.Basic
import Mathlib.Data.List.Induction
import Mathlib.Data.List.Nodup
import Mathlib.Data.List.Pairwise

/-! The members of a list in order of first appearance, and loops that find them by a key. -/

namespace FirstAppearance

variable {α β ι : Type*} [DecidableEq β] [DecidableEq ι]

/-- Every member once, where it appears first. -/
def firsts (xs : List β) : List β :=
  xs.foldl (fun found x => if x ∈ found then found else found ++ [x]) []

theorem firsts_snoc (xs : List β) (x : β) :
    firsts (xs ++ [x]) = if x ∈ firsts xs then firsts xs else firsts xs ++ [x] := by
  rw [firsts, List.foldl_append]
  rfl

theorem mem_firsts {x : β} {xs : List β} : x ∈ firsts xs ↔ x ∈ xs := by
  induction xs using List.reverseRecOn with
  | nil => rfl
  | append_singleton xs y ih =>
    rw [firsts_snoc, List.mem_append, List.mem_singleton, ← ih]
    by_cases there : y ∈ firsts xs
    · rw [if_pos there]
      exact ⟨.inl, fun member => member.elim id fun same => same ▸ there⟩
    · rw [if_neg there, List.mem_append, List.mem_singleton]

theorem nodup_firsts (xs : List β) : (firsts xs).Nodup := by
  induction xs using List.reverseRecOn with
  | nil => exact List.nodup_nil
  | append_singleton xs y ih =>
    rw [firsts_snoc]
    by_cases there : y ∈ firsts xs
    · rwa [if_pos there]
    · rw [if_neg there, ← List.concat_eq_append]
      exact ih.concat there

variable (key : α → Option ι) (f : α → β)

/-- One turn of a loop that keeps the values of a list, once for each key. What has
no key is always kept. -/
def turn (kept : List ι × List β) (a : α) : List ι × List β :=
  match key a with
  | some k => if k ∈ kept.1 then kept else (k :: kept.1, kept.2 ++ [f a])
  | none => (kept.1, kept.2 ++ [f a])

def keep (xs : List α) : List ι × List β :=
  xs.foldl (turn key f) ([], [])

/-- Only members of one key have the same value. -/
def Distinguishes (xs : List α) : Prop :=
  xs.Pairwise fun a b => f a = f b → ∃ k, key a = some k ∧ key b = some k

variable {key f}

omit [DecidableEq β] in
theorem keep_snoc (xs : List α) (a : α) : keep key f (xs ++ [a]) = turn key f (keep key f xs) a := by
  rw [keep, List.foldl_append]
  rfl

omit [DecidableEq β] in
/-- A turn passes over a key it has seen, or keeps the value. -/
theorem turn_cases (key : α → Option ι) (f : α → β) (kept : List ι × List β) (a : α) :
    (∃ k, key a = some k ∧ k ∈ kept.1 ∧ turn key f kept a = kept) ∨
      ((∀ k, key a = some k → k ∉ kept.1) ∧
        turn key f kept a = ((key a).toList ++ kept.1, kept.2 ++ [f a])) := by
  unfold turn
  cases key a with
  | none => exact .inr ⟨by simp, rfl⟩
  | some k =>
    by_cases seen : k ∈ kept.1
    · exact .inl ⟨k, rfl, seen, if_pos seen⟩
    · refine .inr ⟨fun k' same => ?_, if_neg seen⟩
      cases same
      exact seen

omit [DecidableEq β] in
theorem mem_keep_keys {k : ι} {xs : List α} : k ∈ (keep key f xs).1 ↔ ∃ a ∈ xs, key a = some k := by
  induction xs using List.reverseRecOn with
  | nil => simp [keep]
  | append_singleton xs b ih =>
    have members : (∃ a ∈ xs ++ [b], key a = some k) ↔ key b = some k ∨ ∃ a ∈ xs, key a = some k := by
      simp [or_and_right, exists_or, or_comm]
    rw [keep_snoc, members, ← ih]
    rcases turn_cases key f (keep key f xs) b with ⟨k', keyed, seen, same⟩ | ⟨_, same⟩
    · rw [same]
      refine ⟨.inr, fun member => member.elim (fun here => ?_) id⟩
      rw [keyed] at here
      cases here
      exact seen
    · rw [same, List.mem_append, Option.mem_toList]

omit [DecidableEq β] in
/-- Every value of the list is kept, if a key stands for one value. -/
theorem mem_keep (values : ∀ a b k, key a = some k → key b = some k → f a = f b) {xs : List α} :
    ∀ a ∈ xs, f a ∈ (keep key f xs).2 := by
  induction xs using List.reverseRecOn with
  | nil => simp
  | append_singleton xs b ih =>
    intro a member
    rw [keep_snoc]
    rcases turn_cases key f (keep key f xs) b with ⟨k, keyed, seen, same⟩ | ⟨_, same⟩
    · rw [same]
      rcases List.mem_append.mp member with old | new
      · exact ih a old
      · obtain ⟨c, earlier, keyed'⟩ := mem_keep_keys.mp seen
        rw [List.mem_singleton.mp new, values b c k keyed keyed']
        exact ih c earlier
    · rw [same]
      rcases List.mem_append.mp member with old | new
      · exact List.mem_append_left _ (ih a old)
      · rw [List.mem_singleton.mp new]
        exact List.mem_append_right _ (List.mem_singleton.mpr rfl)

/-- Where only members of one key have the same value, the loop keeps the first
appearances. -/
theorem Distinguishes.keep_eq (values : ∀ a b k, key a = some k → key b = some k → f a = f b) {xs : List α}
    (distinguishes : Distinguishes key f xs) : (keep key f xs).2 = firsts (xs.map f) := by
  induction xs using List.reverseRecOn with
  | nil => rfl
  | append_singleton xs b ih =>
    obtain ⟨before, _, apart⟩ := List.pairwise_append.mp distinguishes
    rw [keep_snoc, List.map_append, List.map_singleton, firsts_snoc, ← ih before]
    rcases turn_cases key f (keep key f xs) b with ⟨k, keyed, seen, same⟩ | ⟨fresh, same⟩
    · obtain ⟨c, earlier, keyed'⟩ := mem_keep_keys.mp seen
      have there : f b ∈ (keep key f xs).2 := values b c k keyed keyed' ▸ mem_keep values c earlier
      rw [same, if_pos there]
    · have absent : f b ∉ (keep key f xs).2 := by
        intro there
        rw [ih before, mem_firsts] at there
        obtain ⟨a, earlier, equal⟩ := List.mem_map.mp there
        obtain ⟨k, keyed, keyed'⟩ := apart a earlier b (List.mem_singleton.mpr rfl) equal
        exact fresh k keyed' (mem_keep_keys.mpr ⟨a, earlier, keyed⟩)
      rw [same, if_neg absent]

omit [DecidableEq β] in
/-- Where the loop keeps no value twice, only members of one key have the same value. -/
theorem Distinguishes.of_nodup (values : ∀ a b k, key a = some k → key b = some k → f a = f b) {xs : List α}
    (nodup : (keep key f xs).2.Nodup) : Distinguishes key f xs := by
  induction xs using List.reverseRecOn with
  | nil => exact .nil
  | append_singleton xs b ih =>
    rw [keep_snoc] at nodup
    rcases turn_cases key f (keep key f xs) b with ⟨k, keyed, seen, same⟩ | ⟨_, same⟩
    · rw [same] at nodup
      obtain ⟨c, earlier, keyed'⟩ := mem_keep_keys.mp seen
      have before := ih nodup
      refine List.pairwise_append.mpr ⟨before, List.pairwise_singleton _ _, fun a member d new equal => ?_⟩
      rw [List.mem_singleton.mp new] at equal ⊢
      by_cases one : a = c
      · exact ⟨k, one ▸ keyed', keyed⟩
      · have alike : f a = f c := equal.trans (values b c k keyed keyed')
        have : Std.Symm fun a b => f a = f b → ∃ k, key a = some k ∧ key b = some k :=
          ⟨fun x y related same => (related same.symm).imp fun k both => both.symm⟩
        obtain ⟨k', first, second⟩ := before.forall member earlier one alike
        rw [keyed'] at second
        cases second
        exact ⟨k, first, keyed⟩
    · rw [same] at nodup
      obtain ⟨old, _, apart⟩ := List.nodup_append.mp nodup
      refine List.pairwise_append.mpr ⟨ih old, List.pairwise_singleton _ _, fun a member d new equal => ?_⟩
      rw [List.mem_singleton.mp new] at equal
      exact absurd equal (apart (f a) (mem_keep values a member) (f b) (List.mem_singleton.mpr rfl))

/-- The loop keeps the first appearances exactly if only members of one key have the
same value. -/
theorem keep_eq_firsts_iff (values : ∀ a b k, key a = some k → key b = some k → f a = f b) {xs : List α} :
    (keep key f xs).2 = firsts (xs.map f) ↔ Distinguishes key f xs :=
  ⟨fun same => .of_nodup values (same ▸ nodup_firsts _), fun distinguishes => distinguishes.keep_eq values⟩

end FirstAppearance
