import Mathlib.Data.List.DropRight
import Mathlib.Data.List.Basic

namespace Delimited

variable {α : Type}

/-- Messages on the wire, each followed by the delimiter. -/
def frames (d : α) (messages : List (List α)) : List α :=
  messages.flatMap (· ++ [d])

theorem frames_append (d : α) (before after : List (List α)) :
    frames d (before ++ after) = frames d before ++ frames d after :=
  List.flatMap_append

theorem frames_getLast? (d : α) {messages : List (List α)} (nonempty : messages ≠ []) :
    (frames d messages).getLast? = some d := by
  obtain ⟨before, last, rfl⟩ := List.eq_nil_or_concat messages |>.resolve_left nonempty
  rw [List.concat_eq_append, frames_append]
  simp [frames]

section
variable [DecidableEq α]

/-- The messages whose delimiter has arrived. -/
def complete (d : α) (stream : List α) : List (List α) :=
  (stream.splitOn d).dropLast

/-- What follows the last delimiter. -/
def remainder (d : α) (stream : List α) : List α :=
  (stream.splitOn d).getLast (List.splitOn_ne_nil d stream)

theorem splitOn_frames {d : α} {messages : List (List α)} {tail : List α}
    (clean : ∀ m ∈ messages, d ∉ m) (cleanTail : d ∉ tail) :
    (frames d messages ++ tail).splitOn d = messages ++ [tail] := by
  induction messages with
  | nil => exact List.splitOn_eq_singleton cleanTail
  | cons m messages ih =>
    have head := clean m (by simp)
    have rest := ih (fun other member => clean other (by simp [member]))
    simp only [frames, List.flatMap_cons, List.append_assoc, List.cons_append]
    rw [List.splitOn_append_cons_self_of_not_mem head]
    exact congrArg (m :: ·) rest

theorem complete_frames {d : α} {messages : List (List α)} {tail : List α}
    (clean : ∀ m ∈ messages, d ∉ m) (cleanTail : d ∉ tail) :
    complete d (frames d messages ++ tail) = messages := by
  rw [complete, splitOn_frames clean cleanTail, List.dropLast_concat]

theorem remainder_frames {d : α} {messages : List (List α)} {tail : List α}
    (clean : ∀ m ∈ messages, d ∉ m) (cleanTail : d ∉ tail) :
    remainder d (frames d messages ++ tail) = tail := by
  simp only [remainder, splitOn_frames clean cleanTail, List.getLast_append_singleton]

/-- What is put in front of a stream belongs to its first field. -/
theorem splitOn_prefix {d : α} {fragment : List α} (clean : d ∉ fragment) (stream : List α) :
    (fragment ++ stream).splitOn d = (stream.splitOn d).modifyHead (fragment ++ ·) := by
  induction fragment with
  | nil =>
    rw [List.nil_append]
    cases stream.splitOn d <;> rfl
  | cons x fragment ih =>
    rw [List.mem_cons, not_or] at clean
    rw [List.cons_append, List.splitOn_cons_eq_if_modifyHead, if_neg (by simpa using Ne.symm clean.1),
      ih clean.2, List.modifyHead_modifyHead]
    rfl

/-- Every stream is a list of complete messages followed by a fragment. -/
theorem exists_frames (d : α) (stream : List α) :
    ∃ messages tail, stream = frames d messages ++ tail ∧ (∀ m ∈ messages, d ∉ m) ∧ d ∉ tail := by
  induction stream with
  | nil => exact ⟨[], [], rfl, by simp, by simp⟩
  | cons x stream ih =>
    obtain ⟨messages, tail, rfl, clean, cleanTail⟩ := ih
    by_cases delimiter : x = d
    · subst delimiter
      exact ⟨[] :: messages, tail, rfl, List.forall_mem_cons.mpr ⟨by simp, clean⟩, cleanTail⟩
    · cases messages with
      | nil => exact ⟨[], x :: tail, rfl, by simp, by simp [cleanTail, Ne.symm delimiter]⟩
      | cons m messages =>
        rw [List.forall_mem_cons] at clean
        exact ⟨(x :: m) :: messages, tail, rfl,
          List.forall_mem_cons.mpr ⟨by simp [clean.1, Ne.symm delimiter], clean.2⟩, cleanTail⟩

/-- A stream that is cut anywhere: the fragment before the cut is put in front of
what comes after it. -/
theorem exists_frames_append (d : α) (before after : List α) :
    ∃ messages later tail rest, before = frames d messages ++ tail ∧ tail ++ after = frames d later ++ rest ∧
      before ++ after = frames d (messages ++ later) ++ rest ∧
      (∀ m ∈ messages, d ∉ m) ∧ (∀ m ∈ later, d ∉ m) ∧ d ∉ tail ∧ d ∉ rest := by
  obtain ⟨messages, tail, rfl, clean, cleanTail⟩ := exists_frames d before
  obtain ⟨later, rest, split, cleanLater, cleanRest⟩ := exists_frames d (tail ++ after)
  refine ⟨messages, later, tail, rest, rfl, split, ?_, clean, cleanLater, cleanTail, cleanRest⟩
  rw [List.append_assoc, split, frames_append, List.append_assoc]

/-- Cutting the stream anywhere loses nothing. -/
theorem complete_append (d : α) (before after : List α) :
    complete d (before ++ after) = complete d before ++ complete d (remainder d before ++ after) := by
  obtain ⟨messages, later, tail, rest, rfl, split, whole, clean, cleanLater, cleanTail, cleanRest⟩ :=
    exists_frames_append d before after
  have all : ∀ m ∈ messages ++ later, d ∉ m := by
    intro m member
    exact (List.mem_append.mp member).elim (clean m) (cleanLater m)
  rw [whole, complete_frames all cleanRest, complete_frames clean cleanTail,
    remainder_frames clean cleanTail, split, complete_frames cleanLater cleanRest]

theorem remainder_append (d : α) (before after : List α) :
    remainder d (before ++ after) = remainder d (remainder d before ++ after) := by
  obtain ⟨messages, later, tail, rest, rfl, split, whole, clean, cleanLater, cleanTail, cleanRest⟩ :=
    exists_frames_append d before after
  have all : ∀ m ∈ messages ++ later, d ∉ m := by
    intro m member
    exact (List.mem_append.mp member).elim (clean m) (cleanLater m)
  rw [whole, remainder_frames all cleanRest, remainder_frames clean cleanTail, split,
    remainder_frames cleanLater cleanRest]

theorem remainder_clean (d : α) (stream : List α) : d ∉ remainder d stream := by
  obtain ⟨messages, tail, rfl, clean, cleanTail⟩ := exists_frames d stream
  rwa [remainder_frames clean cleanTail]

end

end Delimited
