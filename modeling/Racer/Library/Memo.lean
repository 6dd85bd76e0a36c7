import Mathlib.Data.List.Basic
import Mathlib.Logic.Function.Basic

/-! Tables that remember the answers of a function under a key of the question. -/

namespace Memo

variable {α β ι : Type*} [DecidableEq ι] (key : α → ι) (f : α → β)

/-- Look the key up, else compute the answer and keep it. -/
def ask (table : ι → Option β) (a : α) : β × (ι → Option β) :=
  match table (key a) with
  | some b => (b, table)
  | none => (f a, Function.update table (key a) (some (f a)))

/-- The table after the questions `asked`: under each key stands the answer to
the first of them. -/
def Holds (asked : List α) (table : ι → Option β) : Prop :=
  ∀ k, table k = (asked.find? (key · = k)).map f

/-- No two of the questions share a key but not the answer. -/
def Separates (asked : List α) : Prop :=
  ∀ p ∈ asked, ∀ q ∈ asked, key p = key q → f p = f q

variable {key f}

theorem holds_nil : Holds key f [] fun _ => none := fun _ => rfl

theorem Holds.congr {asked : List α} {table : ι → Option β} {g : α → β} (holds : Holds key f asked table)
    (same : ∀ a, f a = g a) : Holds key g asked table := by
  intro k
  rw [holds k, funext same]

theorem Holds.ask {asked : List α} {table : ι → Option β} (holds : Holds key f asked table) (a : α) :
    Holds key f (asked ++ [a]) (ask key f table a).2 := by
  intro k
  have kept := holds k
  have atKey := holds (key a)
  unfold Memo.ask
  rw [List.find?_append]
  cases known : table (key a) with
  | some b =>
    rw [known] at atKey
    by_cases here : key a = k
    · subst here
      obtain ⟨p, found, -⟩ := Option.map_eq_some_iff.mp atKey.symm
      simpa [found, known] using atKey
    · simpa [here] using kept
  | none =>
    have absent : asked.find? (key · = key a) = none := by simpa [known] using atKey.symm
    by_cases here : key a = k
    · subst here
      simp [absent]
    · have elsewhere : k ≠ key a := fun same => here same.symm
      simpa [here, elsewhere] using kept

/-- The table answers right when the questions so far and the new one are
separated. -/
theorem Holds.answer {asked : List α} {table : ι → Option β} (holds : Holds key f asked table) {a : α}
    (separates : Separates key f (asked ++ [a])) : (Memo.ask key f table a).1 = f a := by
  have atKey := holds (key a)
  unfold Memo.ask
  cases known : table (key a) with
  | none => rfl
  | some b =>
    rw [known] at atKey
    obtain ⟨p, found, answer⟩ := Option.map_eq_some_iff.mp atKey.symm
    have same : key p = key a := by simpa using List.find?_some found
    have earlier : p ∈ asked ++ [a] := List.mem_append_left _ (List.mem_of_find?_eq_some found)
    exact answer.symm.trans (separates p earlier a (by simp) same)

/-- Right answers so far and a right answer now leave the questions separated. -/
theorem Holds.separates {asked : List α} {table : ι → Option β} (holds : Holds key f asked table) {a : α}
    (before : Separates key f asked) (right : (Memo.ask key f table a).1 = f a) :
    Separates key f (asked ++ [a]) := by
  have old : ∀ p ∈ asked, key p = key a → f p = f a := by
    intro p member same
    have atKey := holds (key a)
    cases found : asked.find? (key · = key a) with
    | none => exact absurd same (by simpa using List.find?_eq_none.mp found p member)
    | some q =>
      rw [found] at atKey
      have first : key q = key a := by simpa using List.find?_some found
      simp only [Memo.ask, atKey, Option.map_some] at right
      exact (before p member q (List.mem_of_find?_eq_some found) (same.trans first.symm)).trans right
  intro p memberP q memberQ same
  rcases List.mem_append.mp memberP with earlierP | newP <;> rcases List.mem_append.mp memberQ with earlierQ | newQ
  · exact before p earlierP q earlierQ same
  · rw [List.mem_singleton.mp newQ] at same ⊢
    exact old p earlierP same
  · rw [List.mem_singleton.mp newP] at same ⊢
    exact (old q earlierQ same.symm).symm
  · rw [List.mem_singleton.mp newP, List.mem_singleton.mp newQ]

end Memo
