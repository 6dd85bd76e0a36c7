import Mathlib.Data.List.Forall2

/-! Lists as sets, up to a relation between their members. -/

variable {α β γ δ : Type*}

def SameMembers (R : α → β → Prop) (xs : List α) (ys : List β) : Prop :=
  (∀ x ∈ xs, ∃ y ∈ ys, R x y) ∧ ∀ y ∈ ys, ∃ x ∈ xs, R x y

namespace SameMembers

variable {R : α → β → Prop} {S : γ → δ → Prop}

theorem of_mem_iff {R : α → α → Prop} {xs ys : List α} (refl : ∀ x ∈ xs, R x x) (same : ∀ x, x ∈ xs ↔ x ∈ ys) :
    SameMembers R xs ys :=
  ⟨fun x member => ⟨x, (same x).mp member, refl x member⟩,
    fun y member => ⟨y, (same y).mpr member, refl y ((same y).mpr member)⟩⟩

theorem mem_iff {xs ys : List α} (same : SameMembers Eq xs ys) (x : α) : x ∈ xs ↔ x ∈ ys := by
  refine ⟨fun member => ?_, fun member => ?_⟩
  · obtain ⟨y, there, rfl⟩ := same.1 x member
    exact there
  · obtain ⟨y, there, rfl⟩ := same.2 x member
    exact there

theorem symm {R : α → α → Prop} (flip : ∀ x y, R x y → R y x) {xs ys : List α} (same : SameMembers R xs ys) :
    SameMembers R ys xs := by
  refine ⟨fun y member => ?_, fun x member => ?_⟩
  · obtain ⟨x, there, related⟩ := same.2 y member
    exact ⟨x, there, flip x y related⟩
  · obtain ⟨y, there, related⟩ := same.1 x member
    exact ⟨y, there, flip x y related⟩

theorem trans {T : α → γ → Prop} {S : β → γ → Prop} {xs : List α} {ys : List β} {zs : List γ}
    (compose : ∀ x y z, R x y → S y z → T x z) (first : SameMembers R xs ys) (second : SameMembers S ys zs) :
    SameMembers T xs zs := by
  refine ⟨fun x member => ?_, fun z member => ?_⟩
  · obtain ⟨y, inside, related⟩ := first.1 x member
    obtain ⟨z, there, related'⟩ := second.1 y inside
    exact ⟨z, there, compose x y z related related'⟩
  · obtain ⟨y, inside, related⟩ := second.2 z member
    obtain ⟨x, there, related'⟩ := first.2 y inside
    exact ⟨x, there, compose x y z related' related⟩

theorem append {xs xs' : List α} {ys ys' : List β} (first : SameMembers R xs ys) (second : SameMembers R xs' ys') :
    SameMembers R (xs ++ xs') (ys ++ ys') := by
  refine ⟨fun x member => ?_, fun y member => ?_⟩
  · rcases List.mem_append.mp member with left | right
    · obtain ⟨y, there, related⟩ := first.1 x left
      exact ⟨y, List.mem_append_left _ there, related⟩
    · obtain ⟨y, there, related⟩ := second.1 x right
      exact ⟨y, List.mem_append_right _ there, related⟩
  · rcases List.mem_append.mp member with left | right
    · obtain ⟨x, there, related⟩ := first.2 y left
      exact ⟨x, List.mem_append_left _ there, related⟩
    · obtain ⟨x, there, related⟩ := second.2 y right
      exact ⟨x, List.mem_append_right _ there, related⟩

theorem filterMap {xs : List α} {ys : List β} {f : α → Option γ} {g : β → Option δ} (same : SameMembers R xs ys)
    (images : ∀ x y, R x y → Option.Rel S (f x) (g y)) : SameMembers S (xs.filterMap f) (ys.filterMap g) := by
  refine ⟨fun x' member => ?_, fun y' member => ?_⟩
  · obtain ⟨x, inside, image⟩ := List.mem_filterMap.mp member
    obtain ⟨y, there, related⟩ := same.1 x inside
    have images := images x y related
    rw [image] at images
    cases found : g y with
    | none => rw [found] at images; cases images
    | some y' =>
      rw [found] at images
      cases images with
      | some related => exact ⟨y', List.mem_filterMap.mpr ⟨y, there, found⟩, related⟩
  · obtain ⟨y, inside, image⟩ := List.mem_filterMap.mp member
    obtain ⟨x, there, related⟩ := same.2 y inside
    have images := images x y related
    rw [image] at images
    cases found : f x with
    | none => rw [found] at images; cases images
    | some x' =>
      rw [found] at images
      cases images with
      | some related => exact ⟨x', List.mem_filterMap.mpr ⟨x, there, found⟩, related⟩

theorem map {xs : List α} {ys : List β} {f : α → γ} {g : β → δ} (same : SameMembers R xs ys)
    (images : ∀ x y, R x y → S (f x) (g y)) : SameMembers S (xs.map f) (ys.map g) := by
  rw [← List.filterMap_eq_map, ← List.filterMap_eq_map]
  exact same.filterMap fun x y related => .some (images x y related)

theorem filter {xs : List α} {ys : List β} {p : α → Bool} {q : β → Bool} (same : SameMembers R xs ys)
    (agree : ∀ x y, R x y → p x = q y) : SameMembers R (xs.filter p) (ys.filter q) := by
  refine ⟨fun x member => ?_, fun y member => ?_⟩
  · obtain ⟨inside, holds⟩ := List.mem_filter.mp member
    obtain ⟨y, there, related⟩ := same.1 x inside
    exact ⟨y, List.mem_filter.mpr ⟨there, agree x y related ▸ holds⟩, related⟩
  · obtain ⟨inside, holds⟩ := List.mem_filter.mp member
    obtain ⟨x, there, related⟩ := same.2 y inside
    exact ⟨x, List.mem_filter.mpr ⟨there, (agree x y related).symm ▸ holds⟩, related⟩

theorem isEmpty_eq {xs : List α} {ys : List β} (same : SameMembers R xs ys) : xs.isEmpty = ys.isEmpty := by
  rcases xs with _ | ⟨x, xs⟩ <;> rcases ys with _ | ⟨y, ys⟩
  · rfl
  · obtain ⟨_, absent, _⟩ := same.2 y List.mem_cons_self
    cases absent
  · obtain ⟨_, absent, _⟩ := same.1 x List.mem_cons_self
    cases absent
  · rfl

theorem image_of_mem {P : α → γ → Prop} {xs : List α} {xs' : List γ} (images : List.Forall₂ P xs xs') {x : α}
    (member : x ∈ xs) : ∃ x' ∈ xs', P x x' := by
  induction images with
  | nil => cases member
  | @cons y y' _ _ first _ ih =>
    rcases List.mem_cons.mp member with rfl | later
    · exact ⟨y', List.mem_cons_self, first⟩
    · obtain ⟨x', there, image⟩ := ih later
      exact ⟨x', List.mem_cons_of_mem y' there, image⟩

/-- The images of lists with the same members have the same members. -/
theorem images {xs : List α} {ys : List β} {xs' : List γ} {ys' : List δ} {P : α → γ → Prop} {Q : β → δ → Prop}
    (same : SameMembers R xs ys) (left : List.Forall₂ P xs xs') (right : List.Forall₂ Q ys ys')
    (images : ∀ x ∈ xs, ∀ y ∈ ys, R x y → ∀ x' y', P x x' → Q y y' → S x' y') : SameMembers S xs' ys' := by
  refine ⟨fun x' member => ?_, fun y' member => ?_⟩
  · obtain ⟨x, inside, image⟩ := image_of_mem left.flip member
    obtain ⟨y, there, related⟩ := same.1 x inside
    obtain ⟨y', found, image'⟩ := image_of_mem right there
    exact ⟨y', found, images x inside y there related x' y' image image'⟩
  · obtain ⟨y, inside, image⟩ := image_of_mem right.flip member
    obtain ⟨x, there, related⟩ := same.2 y inside
    obtain ⟨x', found, image'⟩ := image_of_mem left there
    exact ⟨x', found, images x there y inside related x' y' image' image⟩

end SameMembers
