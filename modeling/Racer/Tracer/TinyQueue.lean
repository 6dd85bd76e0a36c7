import Racer.Library.LinkedCells

namespace Racer.TinyQueue
open Function LinkedCells

/-- The statement a thread is in front of, in `tiny_queue_push` or `tiny_queue_pop`,
with its local variables. At `popWait` it sleeps in `pthread_cond_wait`, from where
it goes to `popLock`. -/
inductive Pc (δ : Type)
  | idle
  | pushMalloc (x : δ)
  | pushLock (node : Nat) (x : δ)
  | pushTest (node : Nat) (x : δ)
  | pushFirst (node : Nat) (x : δ)
  | pushHead (node : Nat) (x : δ)
  | pushNext (node : Nat) (x : δ)
  | pushTail (node : Nat)
  | pushUnlock
  | pushSignal
  | popLock
  | popTest
  | popWait
  | popHead
  | popData (currentHead : Nat)
  | popCompare (currentHead : Nat) (data : δ)
  | popLast (currentHead : Nat) (data : δ)
  | popLastHead (currentHead : Nat) (data : δ)
  | popNext (currentHead : Nat) (data : δ)
  | popFree (currentHead : Nat) (data : δ)
  | popUnlock (data : δ)

/-- What the callers of the queue see. -/
inductive Event (ι δ : Type)
  | callPush (t : ι) (x : δ)
  | callPop (t : ι)
  | returnPush (t : ι) (result : Int)
  | returnPop (t : ι) (data : δ)

/-- `tiny_queue_t` with the thread that holds its mutex, the nodes that are
allocated and the threads `ι` that use it. -/
structure State (ι δ : Type) where
  head : Option Nat
  tail : Option Nat
  holder : Option ι
  heap : Heap δ
  pc : ι → Pc δ

section
variable {ι δ : Type}

/-- `tiny_queue_create` -/
def create : State ι δ :=
  { head := none, tail := none, holder := none, heap := fun _ => none, pc := fun _ => .idle }

variable [DecidableEq ι]

def State.goto (s : State ι δ) (t : ι) (p : Pc δ) : State ι δ :=
  { s with pc := update s.pc t p }

/-- One statement of a thread inside a call. A statement that follows a pointer
needs the node it points to. -/
inductive Move (t : ι) : State ι δ → Option (Event ι δ) → State ι δ → Prop
  | malloc {s x} (node : Nat) : s.pc t = .pushMalloc x → s.heap node = none →
      Move t s none { s.goto t (.pushLock node x) with heap := update s.heap node (some ⟨x, none⟩) }
  | mallocFails {s x} : s.pc t = .pushMalloc x → Move t s (some (.returnPush t (-1))) (s.goto t .idle)
  | lockPush {s node x} : s.pc t = .pushLock node x → s.holder = none →
      Move t s none { s.goto t (.pushTest node x) with holder := some t }
  | testEmpty {s node x} : s.pc t = .pushTest node x → (s.head = none ∧ s.tail = none) →
      Move t s none (s.goto t (.pushFirst node x))
  | testMore {s node x} : s.pc t = .pushTest node x → ¬ (s.head = none ∧ s.tail = none) →
      Move t s none (s.goto t (.pushNext node x))
  -- `queue->head = queue->tail = new_node`
  | setFirst {s node x} : s.pc t = .pushFirst node x →
      Move t s none { s.goto t (.pushHead node x) with tail := some node }
  | setFirstHead {s node x} : s.pc t = .pushHead node x →
      Move t s none { s.goto t .pushUnlock with head := some node }
  -- `queue->tail->next = new_node`
  | setNext {s node x a cell} : s.pc t = .pushNext node x → s.tail = some a → s.heap a = some cell →
      Move t s none { s.goto t (.pushTail node) with heap := update s.heap a (some { cell with next := some node }) }
  | setTail {s node} : s.pc t = .pushTail node →
      Move t s none { s.goto t .pushUnlock with tail := some node }
  | unlockPush {s} : s.pc t = .pushUnlock → Move t s none { s.goto t .pushSignal with holder := none }
  | signal {s} (u : ι) : s.pc t = .pushSignal → s.pc u = .popWait →
      Move t s (some (.returnPush t 0)) ((s.goto t .idle).goto u .popLock)
  | signalNobody {s} : s.pc t = .pushSignal → (∀ u, s.pc u ≠ .popWait) →
      Move t s (some (.returnPush t 0)) (s.goto t .idle)
  | lockPop {s} : s.pc t = .popLock → s.holder = none →
      Move t s none { s.goto t .popTest with holder := some t }
  | wait {s} : s.pc t = .popTest → s.head = none → Move t s none { s.goto t .popWait with holder := none }
  | found {s} : s.pc t = .popTest → s.head ≠ none → Move t s none (s.goto t .popHead)
  | readHead {s a} : s.pc t = .popHead → s.head = some a → Move t s none (s.goto t (.popData a))
  | readData {s a cell} : s.pc t = .popData a → s.heap a = some cell →
      Move t s none (s.goto t (.popCompare a cell.data))
  | onlyNode {s a data} : s.pc t = .popCompare a data → s.head = s.tail →
      Move t s none (s.goto t (.popLast a data))
  | moreNodes {s a data} : s.pc t = .popCompare a data → s.head ≠ s.tail →
      Move t s none (s.goto t (.popNext a data))
  -- `queue->head = queue->tail = nullptr`
  | clearTail {s a data} : s.pc t = .popLast a data →
      Move t s none { s.goto t (.popLastHead a data) with tail := none }
  | clearHead {s a data} : s.pc t = .popLastHead a data →
      Move t s none { s.goto t (.popFree a data) with head := none }
  -- `queue->head = queue->head->next`
  | advanceHead {s a data b cell} : s.pc t = .popNext a data → s.head = some b → s.heap b = some cell →
      Move t s none { s.goto t (.popFree a data) with head := cell.next }
  | free {s a data cell} : s.pc t = .popFree a data → s.heap a = some cell →
      Move t s none { s.goto t (.popUnlock data) with heap := update s.heap a none }
  | unlockPop {s data} : s.pc t = .popUnlock data →
      Move t s (some (.returnPop t data)) { s.goto t .idle with holder := none }

/-- A call, one statement of a call, or a wakeup of `pthread_cond_wait` without a signal. -/
inductive Step : State ι δ → Option (Event ι δ) → State ι δ → Prop
  | callPush {s t} (x : δ) : s.pc t = .idle → Step s (some (.callPush t x)) (s.goto t (.pushMalloc x))
  | callPop {s t} : s.pc t = .idle → Step s (some (.callPop t)) (s.goto t .popLock)
  | move {s e s'} (t : ι) : Move t s e s' → Step s e s'
  | spurious {s t} : s.pc t = .popWait → Step s none (s.goto t .popLock)

end

/-- The thread holds the mutex. -/
def Pc.holds {δ : Type} : Pc δ → Bool
  | .pushTest .. | .pushFirst .. | .pushHead .. | .pushNext .. | .pushTail _ | .pushUnlock => true
  | .popTest | .popHead | .popData _ | .popCompare .. | .popLast .. | .popLastHead .. => true
  | .popNext .. | .popFree .. | .popUnlock _ => true
  | _ => false

/-- The node that only this thread points to: allocated and not linked yet, or
unlinked and not freed yet. -/
def Pc.node {δ : Type} : Pc δ → Option Nat
  | .pushLock node _ | .pushTest node _ | .pushFirst node _ | .pushHead node _ | .pushNext node _ => some node
  | .popFree currentHead _ => some currentHead
  | _ => none

def Pc.Prepared {δ : Type} (heap : Heap δ) : Pc δ → Prop
  | .pushLock node x | .pushTest node x | .pushFirst node x | .pushHead node x | .pushNext node x =>
    heap node = some ⟨x, none⟩
  | .popFree currentHead _ => heap currentHead ≠ none
  | _ => True

/-- What the holder of the mutex knows of the linked nodes and of `tail`. -/
def Pc.Sees {δ : Type} (tail : Option Nat) (cells : List (Nat × δ)) : Pc δ → Prop
  | .pushTest .. | .pushUnlock | .popTest | .popFree .. | .popUnlock _ => tail = lastAddress cells
  | .pushFirst .. => cells = []
  | .pushHead node _ => cells = [] ∧ tail = some node
  | .pushNext .. | .popHead => cells ≠ [] ∧ tail = lastAddress cells
  | .pushTail node => lastAddress cells = some node
  | .popData currentHead => cells.head?.map Prod.fst = some currentHead ∧ tail = lastAddress cells
  | .popCompare currentHead data => cells.head? = some (currentHead, data) ∧ tail = lastAddress cells
  | .popLast currentHead data => cells = [(currentHead, data)]
  | .popLastHead currentHead data => cells = [(currentHead, data)] ∧ tail = none
  | .popNext currentHead data => ∃ rest, rest ≠ [] ∧ cells = (currentHead, data) :: rest ∧ tail = lastAddress cells
  | _ => True

/-- The nodes in the order in which `tiny_queue_pop` finds them, and what is true of
the rest of the memory. -/
structure Invariant {ι δ : Type} (s : State ι δ) (cells : List (Nat × δ)) : Prop where
  linked : Segment s.heap s.head cells none
  distinct : (addresses cells).Nodup
  mutex : ∀ t, (s.pc t).holds = true ↔ s.holder = some t
  unlocked : s.holder = none → s.tail = lastAddress cells
  seen : ∀ t, (s.pc t).Sees s.tail cells
  prepared : ∀ t, (s.pc t).Prepared s.heap
  outside : ∀ t a, (s.pc t).node = some a → a ∉ addresses cells
  alone : ∀ t u a, (s.pc t).node = some a → (s.pc u).node = some a → t = u
  accounted : ∀ a, s.heap a ≠ none → a ∈ addresses cells ∨ ∃ t, (s.pc t).node = some a

section
variable {ι δ : Type}

theorem Pc.sees_of_not_holds {p : Pc δ} (outside : p.holds = false) (tail : Option Nat) (cells : List (Nat × δ)) :
    p.Sees tail cells := by
  cases p <;> trivial

theorem Pc.Prepared.frame {heap heap' : Heap δ} {p : Pc δ} (prepared : p.Prepared heap)
    (same : ∀ a, p.node = some a → heap' a = heap a) : p.Prepared heap' := by
  cases p <;> simp only [Pc.Prepared] at prepared ⊢
  all_goals rw [same _ rfl]; exact prepared

theorem Pc.Prepared.allocated {heap : Heap δ} {p : Pc δ} (prepared : p.Prepared heap) {a : Nat}
    (node : p.node = some a) : heap a ≠ none := by
  cases p <;> simp only [Pc.node, Option.some.injEq, reduceCtorEq] at node
  all_goals subst node; simp only [Pc.Prepared] at prepared
  all_goals first | exact prepared | (rw [prepared]; exact Option.some_ne_none _)

theorem Invariant.create : Invariant (create : State ι δ) [] where
  linked := rfl
  distinct := List.nodup_nil
  mutex t := by simp only [TinyQueue.create, Pc.holds, Bool.false_eq_true, reduceCtorEq]
  unlocked _ := rfl
  seen _ := trivial
  prepared _ := trivial
  outside t a node := (Option.some_ne_none a node.symm).elim
  alone t u a node := (Option.some_ne_none a node.symm).elim
  accounted a used := (used rfl).elim

variable [DecidableEq ι]

/-- What a step of `t` owes to the other threads, when it takes `t` to `p` and
leaves the mutex to `holder`. -/
theorem Invariant.advance {s : State ι δ} {cells cells' : List (Nat × δ)} (inv : Invariant s cells) {t : ι}
    {p : Pc δ} {head tail : Option Nat} {holder : Option ι} {heap : Heap δ}
    (linked : Segment heap head cells' none) (distinct : (addresses cells').Nodup)
    (mutex : p.holds = true ↔ holder = some t) (others : ∀ u, u ≠ t → (s.holder = some u ↔ holder = some u))
    (unlocked : holder = none → tail = lastAddress cells')
    (unseen : ∀ u, u ≠ t → s.holder = some u → tail = s.tail ∧ cells' = cells)
    (sees : p.Sees tail cells') (prepared : p.Prepared heap)
    (kept : ∀ u a, u ≠ t → (s.pc u).node = some a → heap a = s.heap a ∧ a ∉ addresses cells')
    (own : ∀ a, p.node = some a → a ∉ addresses cells' ∧ ∀ u, u ≠ t → (s.pc u).node ≠ some a)
    (accounted : ∀ a, heap a ≠ none → a ∈ addresses cells' ∨ p.node = some a ∨ ∃ u, u ≠ t ∧ (s.pc u).node = some a) :
    Invariant (State.mk head tail holder heap (update s.pc t p)) cells' where
  linked := linked
  distinct := distinct
  mutex u := by
    by_cases same : u = t
    · subst same
      simpa only [update_self] using mutex
    · simp only [update_of_ne same, inv.mutex u, others u same]
  unlocked := unlocked
  seen u := by
    by_cases same : u = t
    · subst same
      simpa only [update_self] using sees
    · simp only [update_of_ne same]
      by_cases locked : s.holder = some u
      · obtain ⟨sameTail, sameCells⟩ := unseen u same locked
        rw [sameTail, sameCells]
        exact inv.seen u
      · exact Pc.sees_of_not_holds (Bool.eq_false_iff.mpr (mt (inv.mutex u).mp locked)) _ _
  prepared u := by
    by_cases same : u = t
    · subst same
      simpa only [update_self] using prepared
    · simp only [update_of_ne same]
      exact (inv.prepared u).frame fun a node => (kept u a same node).1
  outside u a node := by
    by_cases same : u = t
    · subst same
      exact (own a (by simpa only [update_self] using node)).1
    · exact (kept u a same (by simpa only [update_of_ne same] using node)).2
  alone u v a hu hv := by
    by_cases first : u = t <;> by_cases second : v = t
    · rw [first, second]
    · subst first
      simp only [update_self] at hu
      simp only [update_of_ne second] at hv
      exact absurd hv ((own a hu).2 v second)
    · subst second
      simp only [update_self] at hv
      simp only [update_of_ne first] at hu
      exact absurd hu ((own a hv).2 u first)
    · simp only [update_of_ne first] at hu
      simp only [update_of_ne second] at hv
      exact inv.alone u v a hu hv
  accounted a used := by
    rcases accounted a used with linked | mine | ⟨u, different, node⟩
    · exact .inl linked
    · exact .inr ⟨t, by simpa only [update_self] using mine⟩
    · exact .inr ⟨u, by simpa only [update_of_ne different] using node⟩

/-- The nodes that are not `t`'s are with the others. -/
theorem Invariant.elsewhere {s : State ι δ} {cells : List (Nat × δ)} (inv : Invariant s cells) (t : ι) {a : Nat}
    (used : s.heap a ≠ none) :
    a ∈ addresses cells ∨ (s.pc t).node = some a ∨ ∃ u, u ≠ t ∧ (s.pc u).node = some a := by
  rcases inv.accounted a used with linked | ⟨u, node⟩
  · exact .inl linked
  · by_cases same : u = t
    · exact .inr (.inl (same ▸ node))
    · exact .inr (.inr ⟨u, same, node⟩)

/-- A step that touches neither the nodes nor `head` nor `tail`. -/
theorem Invariant.goto {s : State ι δ} {cells : List (Nat × δ)} (inv : Invariant s cells) {t : ι} {p : Pc δ}
    {holder : Option ι} (node : p.node = (s.pc t).node) (prepared : p.Prepared s.heap) (sees : p.Sees s.tail cells)
    (mutex : p.holds = true ↔ holder = some t) (others : ∀ u, u ≠ t → (s.holder = some u ↔ holder = some u))
    (unlocked : holder = none → s.tail = lastAddress cells) :
    Invariant { s.goto t p with holder := holder } cells :=
  inv.advance inv.linked inv.distinct mutex others unlocked (fun _ _ _ => ⟨rfl, rfl⟩) sees prepared
    (fun u a _ mine => ⟨rfl, inv.outside u a mine⟩)
    (fun a mine => ⟨inv.outside t a (node ▸ mine), fun u different theirs =>
      different (inv.alone u t a theirs (node ▸ mine))⟩)
    (fun _ used => node ▸ inv.elsewhere t used)

/-- A step that leaves the mutex with who has it. -/
theorem Invariant.stay {s : State ι δ} {cells : List (Nat × δ)} (inv : Invariant s cells) {t : ι} {p q : Pc δ}
    (pc : s.pc t = q) (node : p.node = q.node) (holds : p.holds = q.holds) (prepared : p.Prepared s.heap)
    (sees : p.Sees s.tail cells) : Invariant (s.goto t p) cells := by
  subst pc
  have after := inv.goto node prepared sees (holds ▸ inv.mutex t) (fun _ _ => Iff.rfl) inv.unlocked
  exact after

theorem Invariant.lock {s : State ι δ} {cells : List (Nat × δ)} (inv : Invariant s cells) {t : ι} {p q : Pc δ}
    (pc : s.pc t = q) (node : p.node = q.node) (holds : p.holds = true) (prepared : p.Prepared s.heap)
    (sees : p.Sees s.tail cells) (free : s.holder = none) :
    Invariant { s.goto t p with holder := some t } cells := by
  subst pc
  refine inv.goto node prepared sees ⟨fun _ => rfl, fun _ => holds⟩ ?_ fun h => (Option.some_ne_none t h).elim
  intro u different
  exact ⟨fun theirs => (Option.some_ne_none u (theirs.symm.trans free)).elim,
    fun theirs => (different (Option.some.inj theirs).symm).elim⟩

theorem Invariant.unlock {s : State ι δ} {cells : List (Nat × δ)} (inv : Invariant s cells) {t : ι} {p q : Pc δ}
    (pc : s.pc t = q) (node : p.node = q.node) (held : q.holds = true) (holds : p.holds = false)
    (prepared : p.Prepared s.heap) (sees : s.tail = lastAddress cells) :
    Invariant { s.goto t p with holder := none } cells := by
  subst pc
  have mine := (inv.mutex t).mp held
  refine inv.goto node prepared (Pc.sees_of_not_holds holds _ _)
    ⟨fun h => (Bool.false_ne_true (holds.symm.trans h)).elim, fun h => (Option.some_ne_none t h.symm).elim⟩ ?_
    fun _ => sees
  intro u different
  exact ⟨fun theirs => (different (Option.some.inj (mine.symm.trans theirs)).symm).elim,
    fun theirs => (Option.some_ne_none u theirs.symm).elim⟩

/-- A step inside the critical section. -/
theorem Invariant.critical {s : State ι δ} {cells cells' : List (Nat × δ)} (inv : Invariant s cells) {t : ι}
    {p : Pc δ} {head tail : Option Nat} {heap : Heap δ} (held : (s.pc t).holds = true) (holds : p.holds = true)
    (linked : Segment heap head cells' none) (distinct : (addresses cells').Nodup)
    (sees : p.Sees tail cells') (prepared : p.Prepared heap)
    (kept : ∀ u a, u ≠ t → (s.pc u).node = some a → heap a = s.heap a ∧ a ∉ addresses cells')
    (own : ∀ a, p.node = some a → a ∉ addresses cells' ∧ ∀ u, u ≠ t → (s.pc u).node ≠ some a)
    (accounted : ∀ a, heap a ≠ none → a ∈ addresses cells' ∨ p.node = some a ∨ ∃ u, u ≠ t ∧ (s.pc u).node = some a) :
    Invariant (State.mk head tail s.holder heap (update s.pc t p)) cells' := by
  have mine := (inv.mutex t).mp held
  exact inv.advance linked distinct ⟨fun _ => mine, fun _ => holds⟩ (fun _ _ => Iff.rfl)
    (fun free => (Option.some_ne_none t (mine.symm.trans free)).elim)
    (fun u different theirs => (different (Option.some.inj (mine.symm.trans theirs)).symm).elim)
    sees prepared kept own accounted

/-- A write to `tail`. -/
theorem Invariant.setTail {s : State ι δ} {cells : List (Nat × δ)} (inv : Invariant s cells) {t : ι} {p q : Pc δ}
    {tail : Option Nat} (pc : s.pc t = q) (node : p.node = q.node) (held : q.holds = true) (holds : p.holds = true)
    (prepared : p.Prepared s.heap) (sees : p.Sees tail cells) :
    Invariant { s.goto t p with tail := tail } cells := by
  subst pc
  exact inv.critical held holds inv.linked inv.distinct sees prepared
    (fun u a _ theirs => ⟨rfl, inv.outside u a theirs⟩)
    (fun a mine => ⟨inv.outside t a (node ▸ mine), fun u different theirs =>
      different (inv.alone u t a theirs (node ▸ mine))⟩)
    (fun _ used => node ▸ inv.elsewhere t used)

/-- The node of a push becomes the last of the linked ones. -/
theorem Invariant.append {s : State ι δ} {cells : List (Nat × δ)} (inv : Invariant s cells) {t : ι} {p : Pc δ}
    {node : Nat} {x : δ} {head : Option Nat} {heap : Heap δ} (held : (s.pc t).holds = true) (holds : p.holds = true)
    (mine : (s.pc t).node = some node) (given : p.node = none)
    (linked : Segment heap head (cells ++ [(node, x)]) none) (same : ∀ a, a ∉ addresses cells → heap a = s.heap a)
    (sees : p.Sees s.tail (cells ++ [(node, x)])) (prepared : p.Prepared heap) :
    Invariant (State.mk head s.tail s.holder heap (update s.pc t p)) (cells ++ [(node, x)]) := by
  have fresh := inv.outside t node mine
  have distinct : (addresses (cells ++ [(node, x)])).Nodup := by
    rw [addresses_append]
    exact List.nodup_append'.mpr ⟨inv.distinct, List.nodup_singleton node,
      fun a old new => fresh ((show a = node from List.mem_singleton.mp new) ▸ old)⟩
  refine inv.critical held holds linked distinct sees prepared ?_ ?_ ?_
  · intro u a different theirs
    have old := inv.outside u a theirs
    refine ⟨same a old, ?_⟩
    rw [addresses_append, List.mem_append, not_or]
    exact ⟨old, fun new => different (inv.alone u t a theirs (List.mem_singleton.mp new ▸ mine))⟩
  · intro a node
    exact (Option.some_ne_none a (node.symm.trans given)).elim
  · intro a used
    by_cases old : a ∈ addresses cells
    · exact .inl (addresses_append cells _ ▸ List.mem_append_left _ old)
    · rw [same a old] at used
      rcases inv.elsewhere t used with linked | own | others
      · exact (old linked).elim
      · have new : a = node := Option.some.inj (own.symm.trans mine)
        exact .inl (addresses_append cells _ ▸ List.mem_append_right _ (new ▸ List.mem_singleton_self node))
      · exact .inr (.inr others)

/-- The first node leaves the linked ones. -/
theorem Invariant.unlink {s : State ι δ} {rest : List (Nat × δ)} {a : Nat} {data : δ}
    (inv : Invariant s ((a, data) :: rest)) {t : ι} {head : Option Nat} (held : (s.pc t).holds = true)
    (noNode : (s.pc t).node = none) (linked : Segment s.heap head rest none) (tail : s.tail = lastAddress rest) :
    Invariant { s.goto t (.popFree a data) with head := head } rest := by
  have distinct := List.nodup_cons.mp inv.distinct
  have stored := inv.linked.allocated (List.mem_cons_self (a := a) (l := addresses rest))
  refine inv.critical held rfl linked distinct.2 tail stored ?_ ?_ ?_
  · intro u b _ theirs
    exact ⟨rfl, fun member => inv.outside u b theirs (List.mem_cons_of_mem a member)⟩
  · intro b mine
    cases Option.some.inj mine
    exact ⟨distinct.1, fun u _ theirs => inv.outside u a theirs List.mem_cons_self⟩
  · intro b used
    rcases inv.elsewhere t used with linked | own | others
    · rcases List.mem_cons.mp linked with first | later
      · exact .inr (.inl (congrArg some first.symm))
      · exact .inl later
    · exact (Option.some_ne_none b (own.symm.trans noNode)).elim
    · exact .inr (.inr others)

/-- `malloc` hands out a node nobody has. -/
theorem Invariant.malloc {s : State ι δ} {cells : List (Nat × δ)} (inv : Invariant s cells) {t : ι} {x : δ}
    {node : Nat} (atMalloc : s.pc t = .pushMalloc x) (unused : s.heap node = none) :
    Invariant { s.goto t (.pushLock node x) with heap := update s.heap node (some ⟨x, none⟩) } cells := by
  have free : node ∉ addresses cells := fun member => inv.linked.allocated member unused
  have nobody : ∀ u, (s.pc u).node ≠ some node := fun u theirs => (inv.prepared u).allocated theirs unused
  have outsideLock : s.holder ≠ some t := fun mine => by
    have := (inv.mutex t).mpr mine
    rw [atMalloc] at this
    exact Bool.false_ne_true this
  refine inv.advance (inv.linked.update free _) inv.distinct ⟨fun h => (Bool.false_ne_true h).elim,
    fun mine => (outsideLock mine).elim⟩ (fun _ _ => Iff.rfl) inv.unlocked (fun _ _ _ => ⟨rfl, rfl⟩) trivial ?_ ?_ ?_ ?_
  · simp only [Pc.Prepared, update_self]
  · intro u a _ theirs
    have different : a ≠ node := fun same => nobody u (same ▸ theirs)
    exact ⟨update_of_ne different .., inv.outside u a theirs⟩
  · intro a mine
    cases Option.some.inj mine
    exact ⟨free, fun u _ => nobody u⟩
  · intro a used
    by_cases new : a = node
    · exact .inr (.inl (congrArg some new.symm))
    · rw [update_of_ne new] at used
      rcases inv.elsewhere t used with linked | own | others
      · exact .inl linked
      · rw [atMalloc] at own
        exact (Option.some_ne_none a own.symm).elim
      · exact .inr (.inr others)

/-- `free` takes back a node only its caller has. -/
theorem Invariant.free {s : State ι δ} {cells : List (Nat × δ)} (inv : Invariant s cells) {t : ι} {a : Nat}
    {data : δ} (atFree : s.pc t = .popFree a data) :
    Invariant { s.goto t (.popUnlock data) with heap := update s.heap a none } cells := by
  have mine : (s.pc t).node = some a := congrArg Pc.node atFree
  have free := inv.outside t a mine
  have sees : s.tail = lastAddress cells := by
    have := inv.seen t
    rwa [atFree] at this
  refine inv.critical (atFree ▸ rfl) rfl (inv.linked.update free _) inv.distinct sees trivial ?_ ?_ ?_
  · intro u b different theirs
    have other : b ≠ a := fun same => different (inv.alone u t b theirs (same ▸ mine))
    exact ⟨update_of_ne other .., inv.outside u b theirs⟩
  · intro b node
    exact (Option.some_ne_none b node.symm).elim
  · intro b used
    have other : b ≠ a := fun same => used (same ▸ update_self ..)
    rw [update_of_ne other] at used
    rcases inv.elsewhere t used with linked | own | others
    · exact .inl linked
    · exact (other (Option.some.inj (own.symm.trans mine))).elim
    · exact .inr (.inr others)

end
end Racer.TinyQueue
