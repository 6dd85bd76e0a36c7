import Mathlib.Data.List.Forall2

/-! Computations that return or raise. -/

namespace Outcome

universe u v
variable {ε : Type u} {α β : Type v}

theorem bind_eq_ok {x : Except ε α} {f : α → Except ε β} {b : β} :
    (x >>= f) = .ok b ↔ ∃ a, x = .ok a ∧ f a = .ok b := by
  cases x with
  | error e => exact ⟨nofun, fun ⟨_, raised, _⟩ => by cases raised⟩
  | ok a => exact ⟨fun run => ⟨a, rfl, run⟩, fun ⟨_, same, run⟩ => by cases same; exact run⟩

theorem toOption_eq_some {x : Except ε α} {a : α} : x.toOption = some a ↔ x = .ok a := by
  cases x <;> simp [Except.toOption]

theorem exists_of_any {x : Except ε α} {p : α → Bool} (checked : x.toOption.any p = true) :
    ∃ a, x = .ok a ∧ p a = true := by
  cases x with
  | error e => cases checked
  | ok a => exact ⟨a, rfl, checked⟩

theorem exists_of_isSome {x : Except ε α} (returns : x.toOption.isSome = true) : ∃ a, x = .ok a := by
  cases x with
  | error e => cases returns
  | ok a => exact ⟨a, rfl⟩

theorem bind_total {x : Except ε α} {f : α → Except ε β} (first : ∃ a, x = .ok a)
    (rest : ∀ a, ∃ b, f a = .ok b) : ∃ b, (x >>= f) = .ok b := by
  obtain ⟨a, run⟩ := first
  obtain ⟨b, run'⟩ := rest a
  exact ⟨b, bind_eq_ok.mpr ⟨a, run, run'⟩⟩

theorem map_eq_ok {x : Except ε α} {f : α → β} {b : β} : f <$> x = .ok b ↔ ∃ a, x = .ok a ∧ f a = b := by
  cases x with
  | error e => exact ⟨nofun, fun ⟨_, raised, _⟩ => by cases raised⟩
  | ok a => exact ⟨fun run => ⟨a, rfl, Except.ok.inj run⟩, fun ⟨_, same, run⟩ => by cases same; exact congrArg _ run⟩

/-- A list is mapped when every member is, in the same order. -/
theorem mapM_eq_ok {f : α → Except ε β} {xs : List α} {ys : List β} :
    xs.mapM f = .ok ys ↔ List.Forall₂ (fun x y => f x = .ok y) xs ys := by
  induction xs generalizing ys with
  | nil =>
    rw [List.forall₂_nil_left_iff, List.mapM_nil]
    exact ⟨fun same => (Except.ok.inj same).symm, fun same => by rw [same]; rfl⟩
  | cons x xs ih =>
    rw [List.mapM_cons, List.forall₂_cons_left_iff]
    constructor
    · intro run
      obtain ⟨y, first, run⟩ := bind_eq_ok.mp run
      obtain ⟨rest, later, run⟩ := bind_eq_ok.mp run
      cases run
      exact ⟨y, rest, first, ih.mp later, rfl⟩
    · rintro ⟨y, rest, first, later, rfl⟩
      rw [first, ih.mpr later]
      rfl

theorem mapM_congr {f g : α → Except ε β} {xs : List α} (each : ∀ x ∈ xs, f x = g x) : xs.mapM f = xs.mapM g := by
  induction xs with
  | nil => rfl
  | cons x xs ih =>
    have rest := ih fun y member => each y (List.mem_cons_of_mem x member)
    rw [List.mapM_cons, List.mapM_cons, each x List.mem_cons_self, rest]

theorem mapM_total {f : α → Except ε β} {xs : List α} (each : ∀ x ∈ xs, ∃ y, f x = .ok y) :
    ∃ ys, xs.mapM f = .ok ys := by
  induction xs with
  | nil => exact ⟨[], rfl⟩
  | cons x xs ih =>
    obtain ⟨y, first⟩ := each x List.mem_cons_self
    obtain ⟨ys, rest⟩ := ih fun z member => each z (List.mem_cons_of_mem x member)
    exact ⟨y :: ys, by rw [List.mapM_cons, first, rest]; rfl⟩

theorem foldlM_total {σ : Type v} {f : σ → α → Except ε σ} {xs : List α} (each : ∀ s, ∀ x ∈ xs, ∃ t, f s x = .ok t)
    (s : σ) : ∃ t, xs.foldlM f s = .ok t := by
  induction xs generalizing s with
  | nil => exact ⟨s, rfl⟩
  | cons x xs ih =>
    obtain ⟨t, first⟩ := each s x List.mem_cons_self
    obtain ⟨u, rest⟩ := ih (fun s y member => each s y (List.mem_cons_of_mem x member)) t
    exact ⟨u, by rw [List.foldlM_cons, first]; exact rest⟩

/-- A loop whose turns convert an element first and then only update the state. -/
theorem foldlM_map {σ : Type v} {f : α → Except ε β} (step : σ → α → β → σ) (xs : List α) (s : σ) :
    xs.foldlM (fun s x => step s x <$> f x) s =
      (fun ys => (xs.zip ys).foldl (fun s e => step s e.1 e.2) s) <$> xs.mapM f := by
  induction xs generalizing s with
  | nil => rfl
  | cons x xs ih =>
    rw [List.foldlM_cons, List.mapM_cons]
    cases f x with
    | error e => rfl
    | ok y =>
      refine (ih (step s x y)).trans ?_
      cases xs.mapM f <;> rfl

/-- A loop that only appends what its turns return. -/
theorem foldlM_append {f : α → Except ε (List β)} {xs : List α} (init : List β) :
    xs.foldlM (fun all x => (all ++ ·) <$> f x) init = (fun found => init ++ found.flatten) <$> xs.mapM f := by
  induction xs generalizing init with
  | nil => exact congrArg Except.ok (List.append_nil init).symm
  | cons x xs ih =>
    rw [List.foldlM_cons, List.mapM_cons]
    cases f x with
    | error e => rfl
    | ok ys =>
      have rest : xs.foldlM (fun all x => (all ++ ·) <$> f x) (init ++ ys) =
          (fun found => init ++ (ys :: found).flatten) <$> xs.mapM f := by
        rw [ih]
        simp only [List.flatten_cons, List.append_assoc]
      refine rest.trans ?_
      cases xs.mapM f <;> rfl

/-- A computation that is skipped under a condition. -/
theorem unless_total {c : Prop} [Decidable c] {x : Except ε α} (runs : ¬ c → ∃ a, x = .ok a) :
    ∃ o, (if c then pure none else some <$> x) = Except.ok o := by
  split
  · exact ⟨none, rfl⟩
  next holds =>
    obtain ⟨a, run⟩ := runs holds
    exact ⟨some a, map_eq_ok.mpr ⟨a, run, rfl⟩⟩

theorem unless_related {R : α → β → Prop} {c d : Prop} [Decidable c] [Decidable d] (same : c ↔ d) {x : Except ε α}
    {y : Except ε β} (related : ∀ a b, x = .ok a → y = .ok b → R a b) {o : Option α} {o' : Option β}
    (left : (if c then pure none else some <$> x) = Except.ok o)
    (right : (if d then pure none else some <$> y) = Except.ok o') : Option.Rel R o o' := by
  by_cases holds : c
  · rw [if_pos holds] at left
    rw [if_pos (same.mp holds)] at right
    cases left
    cases right
    exact .none
  · rw [if_neg holds] at left
    rw [if_neg fun d => holds (same.mpr d)] at right
    obtain ⟨a, run, rfl⟩ := map_eq_ok.mp left
    obtain ⟨b, run', rfl⟩ := map_eq_ok.mp right
    exact .some (related a b run run')

theorem foldlM_invariant {σ : Type v} {P : σ → Prop} {f : σ → α → Except ε σ} {xs : List α}
    (turn : ∀ s x s', x ∈ xs → P s → f s x = .ok s' → P s') {s s' : σ} (start : P s) (run : xs.foldlM f s = .ok s') :
    P s' := by
  induction xs generalizing s with
  | nil =>
    cases run
    exact start
  | cons x xs ih =>
    obtain ⟨t, ran, run⟩ := bind_eq_ok.mp run
    exact ih (fun s y s' member => turn s y s' (List.mem_cons_of_mem x member))
      (turn s x t List.mem_cons_self start ran) run

/-- Two loops over related lists keep their states related when every turn does. -/
theorem foldlM_related {σ τ : Type v} {R : α → β → Prop} {S : σ → τ → Prop} {f : σ → α → Except ε σ}
    {g : τ → β → Except ε τ} {xs : List α} {ys : List β} (related : List.Forall₂ R xs ys)
    (turn : ∀ s t x y s' t', S s t → R x y → f s x = .ok s' → g t y = .ok t' → S s' t') {s s' : σ} {t t' : τ}
    (start : S s t) (left : xs.foldlM f s = .ok s') (right : ys.foldlM g t = .ok t') : S s' t' := by
  induction related generalizing s t with
  | nil =>
    cases left
    cases right
    exact start
  | cons first _ ih =>
    obtain ⟨u, ran, left⟩ := bind_eq_ok.mp left
    obtain ⟨v, ran', right⟩ := bind_eq_ok.mp right
    exact ih (turn _ _ _ _ _ _ start first ran ran') left right

end Outcome
