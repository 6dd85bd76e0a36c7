import Mathlib.Order.Defs.Unbundled

/-! Computations that thread a growing state and may fail. -/

namespace Stateful

variable {σ α β : Type} {R : σ → σ → Prop}

/-- If the computation returns from `s`, the state has grown along `R` and the
result meets `Q`. -/
def Ensures (R : σ → σ → Prop) (s : σ) (m : StateT σ Option α) (Q : α → σ → Prop) : Prop :=
  ∀ a t, m s = some (a, t) → R s t ∧ Q a t

theorem Ensures.pure [Std.Refl R] {s : σ} {a : α} {Q : α → σ → Prop} (post : Q a s) :
    Ensures R s (pure a) Q := by
  intro b t run
  cases run
  exact ⟨Std.Refl.refl s, post⟩

theorem bind_eq_some {m : StateT σ Option α} {f : α → StateT σ Option β} {s : σ} {r : β × σ} :
    (m >>= f) s = some r ↔ ∃ a t, m s = some (a, t) ∧ f a t = some r := by
  show (m s).bind (fun p => f p.1 p.2) = some r ↔ _
  rw [Option.bind_eq_some_iff]
  exact ⟨fun ⟨⟨a, t⟩, first, rest⟩ => ⟨a, t, first, rest⟩, fun ⟨a, t, first, rest⟩ => ⟨(a, t), first, rest⟩⟩

theorem Ensures.bind [IsTrans σ R] {s : σ} {m : StateT σ Option α} {f : α → StateT σ Option β}
    {P : α → σ → Prop} {Q : β → σ → Prop} (first : Ensures R s m P)
    (rest : ∀ a t, R s t → P a t → Ensures R t (f a) Q) : Ensures R s (m >>= f) Q := by
  intro b u run
  obtain ⟨a, t, ran, run⟩ := bind_eq_some.mp run
  obtain ⟨grown, mid⟩ := first a t ran
  obtain ⟨more, post⟩ := rest a t grown mid b u run
  exact ⟨IsTrans.trans _ _ _ grown more, post⟩

theorem Ensures.mono {s : σ} {m : StateT σ Option α} {P Q : α → σ → Prop} (ensures : Ensures R s m P)
    (weaker : ∀ a t, R s t → P a t → Q a t) : Ensures R s m Q := by
  intro a t run
  obtain ⟨grown, post⟩ := ensures a t run
  exact ⟨grown, weaker a t grown post⟩

/-- The computation returns from every state. -/
def Total (m : StateT σ Option α) : Prop :=
  ∀ s, ∃ r, m s = some r

/-- The computation returns from some state. -/
def CanReturn (m : StateT σ Option α) : Prop :=
  ∃ s r, m s = some r

theorem Total.pure (a : α) : Total (pure a : StateT σ Option α) := fun s => ⟨(a, s), rfl⟩

theorem Total.bind {m : StateT σ Option α} {f : α → StateT σ Option β} (first : Total m)
    (rest : ∀ a, Total (f a)) : Total (m >>= f) := by
  intro s
  obtain ⟨⟨a, t⟩, ran⟩ := first s
  obtain ⟨r, run⟩ := rest a t
  exact ⟨r, bind_eq_some.mpr ⟨a, t, ran, run⟩⟩

/-- Where two computations return one after the other, each of them returns. -/
theorem CanReturn.of_bind {m : StateT σ Option α} {f : α → StateT σ Option β} (returns : CanReturn (m >>= f)) :
    CanReturn m ∧ ∃ a, CanReturn (f a) := by
  obtain ⟨s, r, run⟩ := returns
  obtain ⟨a, t, first, rest⟩ := bind_eq_some.mp run
  exact ⟨⟨s, (a, t), first⟩, a, t, r, rest⟩

end Stateful
