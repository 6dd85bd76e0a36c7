import Mathlib.Data.List.Basic
import Mathlib.Data.List.Count
import Mathlib.Data.Option.Basic

/-! Loops over an array that delete from it while they run. -/

namespace DeletingLoop

variable {α ι : Type*} [DecidableEq ι] (trigger victim : α → Option ι)

/-- The turn at index `i`: an element that triggers a key deletes the victims of it. -/
def turn (xs : List α) (i : Nat) : List α :=
  match xs[i]? with
  | none => xs
  | some c =>
    match trigger c with
    | none => xs
    | some k => xs.filter fun x => victim x ≠ some k

def loop (xs : List α) : List α :=
  (List.range xs.length).foldl (turn trigger victim) xs

/-- The keys that are triggered behind `front`, where those in `taken` have been
triggered and the next `skip` elements are passed over. The first trigger of a key moves
the elements behind it by the victims in front of it. -/
def reached (front : List α) (taken : List ι) (skip : Nat) : List α → List ι
  | [] => taken
  | c :: rest =>
    if ∃ k ∈ taken, victim c = some k then reached (front ++ [c]) taken skip rest
    else
      match skip with
      | skip + 1 => reached (front ++ [c]) taken skip rest
      | 0 =>
        match trigger c with
        | none => reached (front ++ [c]) taken 0 rest
        | some k =>
          if k ∈ taken then reached (front ++ [c]) taken 0 rest
          else reached (front ++ [c]) (k :: taken) (front.countP fun x => victim x = some k) rest

/-- What is left when the victims of some keys are deleted. -/
def left (taken : List ι) (xs : List α) : List α :=
  xs.filter fun x => ¬ ∃ k ∈ taken, victim x = some k

variable {trigger victim}

theorem left_cons_key (k : ι) (taken : List ι) (xs : List α) :
    left victim (k :: taken) xs = (left victim taken xs).filter fun x => victim x ≠ some k := by
  rw [left, left, List.filter_filter]
  refine List.filter_congr fun x _ => ?_
  by_cases here : victim x = some k <;> simp [here]

theorem left_snoc (victim : α → Option ι) (taken : List ι) (front : List α) (c : α) : left victim taken (front ++ [c]) =
    left victim taken front ++ if ∃ k ∈ taken, victim c = some k then [] else [c] := by
  rw [left, left, List.filter_append, List.filter_singleton]
  by_cases gone : ∃ k ∈ taken, victim c = some k
  · rw [if_pos gone]
    simp [gone]
  · rw [if_neg gone]
    simp [gone]

/-- Triggering a key again deletes nothing. -/
theorem filter_left_of_mem {k : ι} {taken : List ι} (member : k ∈ taken) (xs : List α) :
    (left victim taken xs).filter (fun x => victim x ≠ some k) = left victim taken xs := by
  refine List.filter_eq_self.mpr fun x inside => ?_
  have kept := (List.mem_filter.mp inside).2
  simp only [decide_eq_true_eq] at kept ⊢
  exact fun here => kept ⟨k, member, here⟩

/-- The victims of a new key are all still there. -/
theorem length_left_cons_key (victim : α → Option ι) {k : ι} {taken : List ι} (fresh : k ∉ taken) (front : List α) :
    (left victim (k :: taken) front).length + front.countP (fun x => victim x = some k) =
      (left victim taken front).length := by
  have there : (left victim taken front).countP (fun x => victim x = some k) =
      front.countP fun x => victim x = some k := by
    rw [left, List.countP_filter]
    refine List.countP_congr fun x _ => ?_
    simp only [Bool.and_eq_true, decide_eq_true_eq]
    refine ⟨And.left, fun here => ⟨here, ?_⟩⟩
    rintro ⟨k', member, other⟩
    rw [here] at other
    cases other
    exact fresh member
  have split := List.length_eq_countP_add_countP (fun x => decide (victim x = some k)) (l := left victim taken front)
  rw [left_cons_key, ← there, ← List.countP_eq_length_filter, Nat.add_comm]
  simpa using split.symm

/-- The element behind `front` is where the loop stands if it is left and none is to be
passed over. -/
theorem getElem?_left {taken : List ι} {front rest : List α} {c : α}
    (kept : ¬ ∃ k ∈ taken, victim c = some k) :
    (left victim taken (front ++ c :: rest))[(left victim taken front).length]? = some c := by
  rw [left, List.filter_append, ← left, List.getElem?_append_right (Nat.le_refl _), Nat.sub_self,
    List.filter_cons_of_pos (by simpa using kept)]
  rfl

theorem foldl_turn_of_length_le {xs : List α} {i n : Nat} (past : xs.length ≤ i) :
    (List.range' i n).foldl (turn trigger victim) xs = xs := by
  induction n generalizing i with
  | zero => rfl
  | succ n ih =>
    have none : xs[i]? = none := List.getElem?_eq_none past
    rw [List.range'_succ, List.foldl_cons, turn, none]
    exact ih (Nat.le_succ_of_le past)

/-- The turns that are left when the loop has come past `front`. -/
theorem foldl_turn_left (apart : ∀ c, trigger c ≠ none → victim c = none) {xs front rest : List α}
    (taken : List ι) (skip : Nat) {n : Nat} (whole : xs = front ++ rest) (enough : rest.length ≤ n) :
    (List.range' ((left victim taken front).length + skip) n).foldl (turn trigger victim) (left victim taken xs) =
      left victim (reached trigger victim front taken skip rest) xs := by
  induction rest generalizing front taken skip n with
  | nil =>
    rw [List.append_nil] at whole
    subst whole
    exact foldl_turn_of_length_le (Nat.le_add_right _ _)
  | cons c rest ih =>
    have next : xs = front ++ [c] ++ rest := by rw [whole, List.append_assoc]; rfl
    have fewer : rest.length ≤ n := Nat.le_of_succ_le enough
    obtain ⟨m, rfl⟩ := Nat.exists_eq_add_of_le' (Nat.le_trans (Nat.succ_le_succ (Nat.zero_le _)) enough)
    unfold reached
    by_cases gone : ∃ k ∈ taken, victim c = some k
    · have same := left_snoc victim taken front c
      rw [if_pos gone, List.append_nil] at same
      rw [if_pos gone, ← same]
      exact ih _ _ next fewer
    · have longer : (left victim taken (front ++ [c])).length = (left victim taken front).length + 1 := by
        rw [left_snoc, if_neg gone, List.length_append, List.length_singleton]
      rw [if_neg gone]
      cases skip with
      | succ skip =>
        have position : (left victim taken front).length + (skip + 1) =
            (left victim taken (front ++ [c])).length + skip := by omega
        rw [position]
        exact ih _ _ next fewer
      | zero =>
        have here : (left victim taken xs)[(left victim taken front).length]? = some c := whole ▸ getElem?_left gone
        have turned : turn trigger victim (left victim taken xs) (left victim taken front).length =
            match trigger c with
            | none => left victim taken xs
            | some k => (left victim taken xs).filter fun x => victim x ≠ some k := by
          rw [turn, here]
        rw [List.range'_succ, List.foldl_cons, Nat.add_zero, turned]
        cases triggered : trigger c with
        | none =>
          simp only
          rw [← longer, ← Nat.add_zero (left victim taken (front ++ [c])).length]
          exact ih _ _ next (Nat.le_of_succ_le_succ enough)
        | some k =>
          simp only
          by_cases again : k ∈ taken
          · rw [if_pos again, filter_left_of_mem again, ← longer,
              ← Nat.add_zero (left victim taken (front ++ [c])).length]
            exact ih _ _ next (Nat.le_of_succ_le_succ enough)
          · have position : (left victim taken front).length + 1 =
                (left victim (k :: taken) (front ++ [c])).length + front.countP (fun x => victim x = some k) := by
              have remaining := length_left_cons_key victim again front
              have stays : ¬ ∃ k' ∈ k :: taken, victim c = some k' := by
                rw [apart c (by simp [triggered])]
                simp
              rw [left_snoc, if_neg stays, List.length_append, List.length_singleton]
              omega
            rw [if_neg again, ← left_cons_key, position]
            exact ih _ _ next (Nat.le_of_succ_le_succ enough)

/-- The loop deletes the victims of the keys it reaches. -/
theorem loop_eq_left (apart : ∀ c, trigger c ≠ none → victim c = none) (xs : List α) :
    loop trigger victim xs = left victim (reached trigger victim [] [] 0 xs) xs := by
  have all : left victim [] xs = xs := by simp [left]
  have run := foldl_turn_left apart [] 0 (List.nil_append xs).symm (Nat.le_refl _)
  rw [all] at run
  rw [loop, List.range_eq_range', ← run]
  rfl

end DeletingLoop
