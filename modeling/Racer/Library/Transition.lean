import Mathlib.Logic.Relation
import Mathlib.Order.WellFounded

namespace Transition

variable {σ : Type*}

/-- Zero or more steps, in any order the step relation allows. -/
abbrev Run (step : σ → σ → Prop) : σ → σ → Prop :=
  Relation.ReflTransGen step

/-- The steps that meet a condition on the state before and after them. -/
def Guarded (step : σ → σ → Prop) (condition : σ → σ → Prop) (a b : σ) : Prop :=
  step a b ∧ condition a b

theorem Run.invariant {step : σ → σ → Prop} {I : σ → Prop} (kept : ∀ a b, I a → step a b → I b)
    {a b : σ} (run : Run step a b) (start : I a) : I b := by
  induction run with
  | refl => exact start
  | tail _ last ih => exact kept _ _ ih last

/-- A step of an executable system is an event it accepts. -/
theorem Run.of_foldlM {ε : Type*} {exec : σ → ε → Option σ} {events : List ε} {a b : σ}
    (run : events.foldlM exec a = some b) : Run (fun a b => ∃ event, exec a event = some b) a b := by
  induction events generalizing a with
  | nil => cases run; exact .refl
  | cons event events ih =>
    rw [List.foldlM_cons] at run
    obtain ⟨c, first, rest⟩ := Option.bind_eq_some_iff.mp run
    exact .head ⟨event, first⟩ (ih rest)

/-- When every step decreases a number, every state runs into one that is stuck. -/
theorem exists_run_to_stuck {step : σ → σ → Prop} {I : σ → Prop} (kept : ∀ a b, I a → step a b → I b)
    (measure : σ → Nat) (decreases : ∀ a b, I a → step a b → measure b < measure a) (a : σ) (start : I a) :
    ∃ b, Run step a b ∧ ¬ ∃ c, step b c := by
  induction size : measure a using Nat.strong_induction_on generalizing a with
  | _ m ih =>
    by_cases stuck : ∃ c, step a c
    · obtain ⟨c, move⟩ := stuck
      subst size
      obtain ⟨b, run, ended⟩ := ih (measure c) (decreases a c start move) c (kept a c start move) rfl
      exact ⟨b, run.head move, ended⟩
    · exact ⟨a, .refl, stuck⟩

/-- Where each step takes a state to one of a smaller rank, no run goes on for ever. -/
theorem acc_of_rank {step : σ → σ → Prop} {Ranked : σ → Nat → Prop}
    (smaller : ∀ a n b, Ranked a n → step a b → ∃ m < n, Ranked b m) {a : σ} {n : Nat} (ranked : Ranked a n) :
    Acc (fun after before => step before after) a := by
  induction n using Nat.strong_induction_on generalizing a with
  | _ n ih =>
    refine ⟨a, fun b move => ?_⟩
    obtain ⟨m, less, ranked⟩ := smaller a n b ranked move
    exact ih m less ranked

end Transition
