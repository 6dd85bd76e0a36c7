import Mathlib.Logic.Relation

namespace Histories

variable {σ τ ε : Type*}

/-- The events that are seen while a system takes steps, some of which nobody sees. -/
inductive History (step : σ → Option ε → σ → Prop) : σ → List ε → σ → Prop
  | refl (a : σ) : History step a [] a
  | tail {a b c : σ} {events : List ε} {event : Option ε} :
      History step a events b → step b event c → History step a (events ++ event.toList) c

namespace History

theorem trans {step : σ → Option ε → σ → Prop} {a b c : σ} {before after : List ε}
    (first : History step a before b) (rest : History step b after c) : History step a (before ++ after) c := by
  induction rest with
  | refl => rwa [List.append_nil]
  | tail _ last ih =>
    rw [← List.append_assoc]
    exact ih.tail last

theorem single {step : σ → Option ε → σ → Prop} {a b : σ} {event : Option ε} (move : step a event b) :
    History step a event.toList b :=
  tail (refl a) move

theorem invariant {step : σ → Option ε → σ → Prop} {I : σ → Prop} (kept : ∀ a event b, I a → step a event b → I b)
    {a b : σ} {events : List ε} (history : History step a events b) (start : I a) : I b := by
  induction history with
  | refl => exact start
  | tail _ last ih => exact kept _ _ _ ih last

/-- Forward simulation: where another system can follow each step and show the same
event, each history is one of its histories. -/
theorem simulates {step : σ → Option ε → σ → Prop} {abstract : τ → Option ε → τ → Prop} {R : σ → τ → Prop}
    (follows : ∀ a event b x, R a x → step a event b → ∃ y, R b y ∧ History abstract x event.toList y)
    {a b : σ} {x : τ} {events : List ε} (history : History step a events b) (start : R a x) :
    ∃ y, R b y ∧ History abstract x events y := by
  induction history with
  | refl => exact ⟨x, start, .refl x⟩
  | tail _ last ih =>
    obtain ⟨y, related, earlier⟩ := ih
    obtain ⟨z, after, later⟩ := follows _ _ _ y related last
    exact ⟨z, after, earlier.trans later⟩

theorem silent {step : σ → Option ε → σ → Prop} {a b : σ} (history : History step a [] b) :
    Relation.ReflTransGen (fun a b => step a none b) a b := by
  generalize nothing : [] = events at history
  induction history with
  | refl => exact .refl
  | @tail b c events event _ last ih =>
    obtain ⟨rfl, hidden⟩ := List.append_eq_nil_iff.mp nothing.symm
    cases event with
    | none => exact (ih rfl).tail last
    | some e => cases hidden

/-- Before the first event that is seen, the steps are silent. -/
theorem split_event {step : σ → Option ε → σ → Prop} {a d : σ} {e : ε} {events : List ε}
    (history : History step a (e :: events) d) :
    ∃ b c, History step a [] b ∧ step b (some e) c ∧ History step c events d := by
  generalize seen : e :: events = all at history
  induction history generalizing events with
  | refl => cases seen
  | @tail c d before event earlier last ih =>
    cases event with
    | none =>
      obtain ⟨b, b', first, move, rest⟩ := ih (seen.trans (List.append_nil before))
      exact ⟨b, b', first, move, List.append_nil events ▸ rest.tail last⟩
    | some e' =>
      cases before with
      | nil =>
        obtain ⟨rfl, rfl⟩ := List.cons_eq_cons.mp seen
        exact ⟨c, d, earlier, last, .refl d⟩
      | cons first before =>
        obtain ⟨rfl, rfl⟩ := List.cons_eq_cons.mp seen
        obtain ⟨b, b', silent, move, rest⟩ := ih rfl
        exact ⟨b, b', silent, move, rest.tail last⟩

end History
end Histories
