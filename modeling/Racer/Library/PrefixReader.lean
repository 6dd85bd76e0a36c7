import Mathlib.Data.List.Basic

namespace PrefixReader

/-- A reader takes what it needs from the front of a list and leaves the rest.
`none` is a reader that gave up. -/
abbrev Reader (β α : Type) := StateT (List β) Option α

/-- The reader consumes exactly `written`, whatever follows it, and returns `a`. -/
def Reads {β α : Type} (read : Reader β α) (written : List β) (a : α) : Prop :=
  ∀ rest, read (written ++ rest) = some (a, rest)

section Rules
variable {β α γ : Type}

theorem Reads.pure (a : α) : Reads (Pure.pure a : Reader β α) [] a :=
  fun _ => rfl

/-- Sequencing two readers reads the concatenation of what they read. -/
theorem Reads.bind {read : Reader β α} {next : α → Reader β γ} {xs ys : List β} {a : α} {c : γ}
    (first : Reads read xs a) (second : Reads (next a) ys c) :
    Reads (read >>= next) (xs ++ ys) c := by
  intro rest
  have head := first (ys ++ rest)
  rw [← List.append_assoc] at head
  change (read ((xs ++ ys) ++ rest)).bind (fun p => next p.1 p.2) = some (c, rest)
  rw [head]
  exact second rest

theorem Reads.map {read : Reader β α} {xs : List β} {a : α} (f : α → γ) (first : Reads read xs a) :
    Reads (read >>= fun b => Pure.pure (f b)) xs (f a) := by
  intro rest
  change (read (xs ++ rest)).bind (fun p => some (f p.1, p.2)) = some (f a, rest)
  rw [first rest]
  rfl

/-- Continue with a computed value, or give up. -/
def give (o : Option α) : Reader β α :=
  fun rest => o.map (·, rest)

theorem Reads.give {o : Option α} {a : α} (h : o = some a) : Reads (give o) ([] : List β) a := by
  intro rest
  rw [h]
  rfl

/-- Run a reader a fixed number of times and collect the results. -/
def times : Nat → Reader β α → Reader β (List α)
  | 0, _ => Pure.pure []
  | n + 1, read => do
    let a ← read
    let as ← times n read
    return a :: as

/-- A counted loop reads the concatenation of the parts, when the body reads
every single one of them. -/
theorem Reads.times {read : Reader β α} {write : γ → List β} {value : γ → α} (parts : List γ)
    (each : ∀ part ∈ parts, Reads read (write part) (value part)) :
    Reads (times parts.length read) (parts.flatMap write) (parts.map value) := by
  induction parts with
  | nil => exact .pure []
  | cons part parts ih =>
    have head := each part (by simp)
    have tail := ih (fun other member => each other (by simp [member]))
    exact head.bind (tail.map (value part :: ·))

theorem Reads.complete {read : Reader β α} {written : List β} {a : α} (h : Reads read written a) :
    read written = some (a, []) := by
  simpa only [List.append_nil] using h []

end Rules

end PrefixReader
