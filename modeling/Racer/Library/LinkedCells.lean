import Mathlib.Data.List.Nodup
import Mathlib.Data.List.Basic
import Mathlib.Logic.Function.Basic

namespace LinkedCells
open Function

variable {δ : Type*}

/-- A cell of a singly linked list. -/
structure Cell (δ : Type*) where
  data : δ
  next : Option Nat

/-- The cells that are allocated. -/
abbrev Heap (δ : Type*) := Nat → Option (Cell δ)

/-- The cells passed on the way from `start` to `stop`, with their addresses. -/
def Segment (heap : Heap δ) : Option Nat → List (Nat × δ) → Option Nat → Prop
  | start, [], stop => start = stop
  | start, (a, x) :: cells, stop =>
    start = some a ∧ ∃ next, heap a = some ⟨x, next⟩ ∧ Segment heap next cells stop

def addresses (cells : List (Nat × δ)) : List Nat :=
  cells.map Prod.fst

/-- Where a pointer to the last cell points. -/
def lastAddress (cells : List (Nat × δ)) : Option Nat :=
  cells.getLast?.map Prod.fst

@[simp] theorem addresses_nil : addresses ([] : List (Nat × δ)) = [] := rfl

@[simp] theorem addresses_cons (cell : Nat × δ) (cells : List (Nat × δ)) :
    addresses (cell :: cells) = cell.1 :: addresses cells := rfl

@[simp] theorem addresses_append (cells rest : List (Nat × δ)) :
    addresses (cells ++ rest) = addresses cells ++ addresses rest :=
  List.map_append ..

@[simp] theorem lastAddress_nil : lastAddress ([] : List (Nat × δ)) = none := rfl

@[simp] theorem lastAddress_concat (cells : List (Nat × δ)) (cell : Nat × δ) :
    lastAddress (cells ++ [cell]) = some cell.1 := by
  simp only [lastAddress, List.getLast?_append, List.getLast?_singleton, Option.some_or, Option.map_some]

theorem lastAddress_cons {cell : Nat × δ} {cells : List (Nat × δ)} (more : cells ≠ []) :
    lastAddress (cell :: cells) = lastAddress cells := by
  obtain ⟨front, last, rfl⟩ := List.eq_nil_or_concat' cells |>.resolve_left more
  rw [← List.cons_append, lastAddress_concat, lastAddress_concat]

theorem lastAddress_eq_none {cells : List (Nat × δ)} : lastAddress cells = none ↔ cells = [] := by
  simp only [lastAddress, Option.map_eq_none_iff, List.getLast?_eq_none_iff]

theorem lastAddress_mem {cells : List (Nat × δ)} {a : Nat} (last : lastAddress cells = some a) :
    a ∈ addresses cells := by
  obtain ⟨cell, atEnd, same⟩ := Option.map_eq_some_iff.mp last
  exact same ▸ List.mem_map_of_mem (List.mem_of_getLast? atEnd)

/-- The first and the last cell are the same only where no other is. -/
theorem eq_singleton_of_last {cells : List (Nat × δ)} {cell : Nat × δ} (distinct : (addresses cells).Nodup)
    (first : cells.head? = some cell) (last : lastAddress cells = some cell.1) : cells = [cell] := by
  obtain ⟨rest, rfl⟩ : ∃ rest, cells = cell :: rest := by
    cases cells with
    | nil => exact (Option.some_ne_none cell first.symm).elim
    | cons other rest => exact ⟨rest, by rw [Option.some.inj first]⟩
  by_cases more : rest = []
  · rw [more]
  · rw [lastAddress_cons more] at last
    exact ((List.nodup_cons.mp distinct).1 (lastAddress_mem last)).elim

namespace Segment

theorem start_none {heap : Heap δ} {cells : List (Nat × δ)} (segment : Segment heap none cells none) :
    cells = [] := by
  cases cells with
  | nil => rfl
  | cons cell cells => exact (Option.some_ne_none _ segment.1.symm).elim

theorem start_eq {heap : Heap δ} {start : Option Nat} {cells : List (Nat × δ)}
    (segment : Segment heap start cells none) : start = cells.head?.map Prod.fst := by
  cases cells with
  | nil => exact segment
  | cons cell cells => exact segment.1

theorem cons_inv {heap : Heap δ} {a : Nat} {cells : List (Nat × δ)}
    (segment : Segment heap (some a) cells none) :
    ∃ x next rest, cells = (a, x) :: rest ∧ heap a = some ⟨x, next⟩ ∧ Segment heap next rest none := by
  cases cells with
  | nil => exact (Option.some_ne_none a segment).elim
  | cons cell cells =>
    obtain ⟨same, next, stored, rest⟩ := segment
    cases Option.some.inj same
    exact ⟨cell.2, next, cells, rfl, stored, rest⟩

theorem append {heap : Heap δ} {start stop : Option Nat} {cells rest : List (Nat × δ)} :
    Segment heap start (cells ++ rest) stop ↔
      ∃ middle, Segment heap start cells middle ∧ Segment heap middle rest stop := by
  induction cells generalizing start with
  | nil => exact ⟨fun h => ⟨start, rfl, h⟩, fun ⟨_, same, h⟩ => same ▸ h⟩
  | cons cell cells ih =>
    constructor
    · rintro ⟨same, next, stored, h⟩
      obtain ⟨middle, left, right⟩ := ih.mp h
      exact ⟨middle, ⟨same, next, stored, left⟩, right⟩
    · rintro ⟨middle, ⟨same, next, stored, left⟩, right⟩
      exact ⟨same, next, stored, ih.mpr ⟨middle, left, right⟩⟩

/-- Every cell of a segment is allocated. -/
theorem allocated {heap : Heap δ} {start stop : Option Nat} {cells : List (Nat × δ)}
    (segment : Segment heap start cells stop) {a : Nat} (member : a ∈ addresses cells) : heap a ≠ none := by
  induction cells generalizing start with
  | nil => exact (List.not_mem_nil member).elim
  | cons cell cells ih =>
    obtain ⟨-, next, stored, rest⟩ := segment
    rcases List.mem_cons.mp member with rfl | later
    · rw [stored]
      exact Option.some_ne_none _
    · exact ih rest later

/-- A write outside a segment leaves it as it is. -/
theorem update {heap : Heap δ} {start stop : Option Nat} {cells : List (Nat × δ)}
    (segment : Segment heap start cells stop) {a : Nat} (outside : a ∉ addresses cells) (cell : Option (Cell δ)) :
    Segment (update heap a cell) start cells stop := by
  induction cells generalizing start with
  | nil => exact segment
  | cons first cells ih =>
    obtain ⟨same, next, stored, rest⟩ := segment
    rw [addresses_cons, List.mem_cons, not_or] at outside
    exact ⟨same, next, by rw [update_of_ne (Ne.symm outside.1), stored], ih rest outside.2⟩

/-- The last cell of a list points nowhere. -/
theorem last_inv {heap : Heap δ} {start : Option Nat} {cells : List (Nat × δ)} {a : Nat}
    (segment : Segment heap start cells none) (last : lastAddress cells = some a) :
    ∃ front x, cells = front ++ [(a, x)] ∧ heap a = some ⟨x, none⟩ := by
  rcases List.eq_nil_or_concat' cells with rfl | ⟨front, ⟨b, x⟩, rfl⟩
  · exact (Option.some_ne_none a last.symm).elim
  · rw [lastAddress_concat] at last
    cases Option.some.inj last
    obtain ⟨middle, -, same, next, stored, ended⟩ := append.mp segment
    exact ⟨front, x, rfl, by rw [stored, show next = none from ended]⟩

/-- A list grows by a write to the `next` of its last cell. -/
theorem link {heap : Heap δ} {start : Option Nat} {front : List (Nat × δ)} {a node : Nat} {x y : δ}
    (segment : Segment heap start (front ++ [(a, x)]) none) (distinct : (addresses (front ++ [(a, x)])).Nodup)
    (fresh : heap node = some ⟨y, none⟩) (outside : node ∉ addresses (front ++ [(a, x)])) :
    Segment (Function.update heap a (some ⟨x, some node⟩)) start (front ++ [(a, x)] ++ [(node, y)]) none := by
  obtain ⟨middle, before, same, _⟩ := append.mp segment
  rw [addresses_append, addresses_cons, addresses_nil] at distinct outside
  have notBefore : a ∉ addresses front :=
    fun member => (List.nodup_append'.mp distinct).2.2 member (List.mem_singleton_self a)
  have different : node ≠ a :=
    fun h => outside (List.mem_append_right _ (h ▸ List.mem_singleton_self a))
  refine append.mpr
    ⟨some node, append.mpr ⟨middle, before.update notBefore _, same, some node, ?_, rfl⟩, rfl, none, ?_, rfl⟩
  · rw [update_self]
  · rw [update_of_ne different, fresh]

end Segment
end LinkedCells
