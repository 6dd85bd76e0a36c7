import Mathlib.Data.Fintype.Basic
import Racer.Library.Histories
import Racer.Tracer.TinyQueue

namespace Racer.TinyQueue
open Function LinkedCells Histories

/-- Where a thread is in a call whose effect takes place at one moment. -/
inductive Phase (δ : Type)
  | idle
  | pushing (x : δ)
  | pushed
  | popping
  | waiting
  | popped (data : δ)

/-- What the queue is for: a list of pointers, first in first out, whose consumers
sleep while it is empty. -/
structure Atomic (ι δ : Type) where
  contents : List δ
  phase : ι → Phase δ

section
variable {ι δ : Type}

def Atomic.empty : Atomic ι δ :=
  { contents := [], phase := fun _ => .idle }

variable [DecidableEq ι]

def Atomic.goto (q : Atomic ι δ) (t : ι) (phase : Phase δ) : Atomic ι δ :=
  { q with phase := update q.phase t phase }

theorem Atomic.phase_goto (q : Atomic ι δ) (t : ι) (phase : Phase δ) : (q.goto t phase).phase t = phase :=
  update_self (f := q.phase) ..

theorem Atomic.phase_goto_of_ne (q : Atomic ι δ) {t u : ι} (different : u ≠ t) (phase : Phase δ) :
    (q.goto t phase).phase u = q.phase u :=
  update_of_ne (f := q.phase) different ..

/-- A push and a pop take effect at any one moment between call and return. A pop
sleeps only where there is nothing to take, and a push that returns wakes a sleeper. -/
inductive Atomic.Step : Atomic ι δ → Option (Event ι δ) → Atomic ι δ → Prop
  | callPush {q t} (x : δ) : q.phase t = .idle → Step q (some (.callPush t x)) (q.goto t (.pushing x))
  | pushFails {q t x} : q.phase t = .pushing x → Step q (some (.returnPush t (-1))) (q.goto t .idle)
  | push {q t x} : q.phase t = .pushing x → Step q none { q.goto t .pushed with contents := q.contents ++ [x] }
  | returnPush {q t} : q.phase t = .pushed → (∀ u, q.phase u ≠ .waiting) →
      Step q (some (.returnPush t 0)) (q.goto t .idle)
  | wake {q t} (u : ι) : q.phase t = .pushed → q.phase u = .waiting →
      Step q (some (.returnPush t 0)) ((q.goto t .idle).goto u .popping)
  | callPop {q t} : q.phase t = .idle → Step q (some (.callPop t)) (q.goto t .popping)
  | sleep {q t} : q.phase t = .popping → q.contents = [] → Step q none (q.goto t .waiting)
  | spurious {q t} : q.phase t = .waiting → Step q none (q.goto t .popping)
  | pop {q t x rest} : q.phase t = .popping → q.contents = x :: rest →
      Step q none { q.goto t (.popped x) with contents := rest }
  | returnPop {q t x} : q.phase t = .popped x → Step q (some (.returnPop t x)) (q.goto t .idle)

end

/-- A push takes effect when its node is linked, a pop when `head` moves on. -/
def Pc.phase {δ : Type} : Pc δ → Phase δ
  | .idle => .idle
  | .pushMalloc x | .pushLock _ x | .pushTest _ x | .pushFirst _ x | .pushHead _ x | .pushNext _ x => .pushing x
  | .pushTail _ | .pushUnlock | .pushSignal => .pushed
  | .popLock | .popTest | .popHead | .popData _ | .popCompare .. | .popLast .. => .popping
  | .popLastHead .. | .popNext .. => .popping
  | .popWait => .waiting
  | .popFree _ data | .popUnlock data => .popped data

def State.atomic {ι δ : Type} (s : State ι δ) (cells : List (Nat × δ)) : Atomic ι δ :=
  { contents := cells.map Prod.snd, phase := fun t => (s.pc t).phase }

section
variable {ι δ : Type} [DecidableEq ι]

/-- The atomic queue can follow a step and show the same event. -/
def Follows (s : State ι δ) (cells : List (Nat × δ)) (event : Option (Event ι δ)) (s' : State ι δ) : Prop :=
  ∃ cells', Invariant s' cells' ∧ History Atomic.Step (s.atomic cells) event.toList (s'.atomic cells')

theorem State.atomic_eq (s : State ι δ) (cells cells' : List (Nat × δ)) (t : ι) (p : Pc δ) (head tail : Option Nat)
    (holder : Option ι) (heap : Heap δ) :
    (State.mk head tail holder heap (update s.pc t p)).atomic cells' =
      { (s.atomic cells).goto t p.phase with contents := cells'.map Prod.snd } := by
  simp only [State.atomic, Atomic.goto, Atomic.mk.injEq, true_and]
  exact comp_update Pc.phase s.pc t p

variable {s s' : State ι δ} {cells cells' : List (Nat × δ)} {t : ι}

/-- A step of the atomic queue that goes with the step. -/
theorem Follows.step {p : Pc δ} {head tail : Option Nat} {holder : Option ι} {heap : Heap δ}
    {event : Option (Event ι δ)} (inv : Invariant (State.mk head tail holder heap (update s.pc t p)) cells')
    (move : Atomic.Step (s.atomic cells) event
      { (s.atomic cells).goto t p.phase with contents := cells'.map Prod.snd }) :
    Follows s cells event (State.mk head tail holder heap (update s.pc t p)) :=
  ⟨cells', inv, State.atomic_eq s cells cells' t p head tail holder heap ▸ .single move⟩

/-- A step that changes neither the linked nodes nor the phase of its thread. -/
theorem Follows.silent {p q : Pc δ} {head tail : Option Nat} {holder : Option ι} {heap : Heap δ}
    (inv : Invariant (State.mk head tail holder heap (update s.pc t p)) cells) (pc : s.pc t = q)
    (phase : q.phase = p.phase) : Follows s cells none (State.mk head tail holder heap (update s.pc t p)) := by
  refine ⟨cells, inv, ?_⟩
  have same : update (s.atomic cells).phase t p.phase = (s.atomic cells).phase := by
    rw [← phase, ← pc]
    exact update_eq_self t _
  rw [State.atomic_eq s cells, Atomic.goto, same]
  exact .refl _

/-- The atomic push. -/
theorem Follows.append {p q : Pc δ} {head tail : Option Nat} {holder : Option ι} {heap : Heap δ} {node : Nat} {x : δ}
    (inv : Invariant (State.mk head tail holder heap (update s.pc t p)) (cells ++ [(node, x)])) (pc : s.pc t = q)
    (before : q.phase = .pushing x) (after : p.phase = .pushed) :
    Follows s cells none (State.mk head tail holder heap (update s.pc t p)) := by
  have move : Atomic.Step (s.atomic cells) none _ := .push ((congrArg Pc.phase pc).trans before)
  refine .step inv ?_
  rw [after, List.map_append]
  exact move

omit [DecidableEq ι] in
theorem Invariant.seen_at (inv : Invariant s cells) {p : Pc δ} (pc : s.pc t = p) : p.Sees s.tail cells :=
  pc ▸ inv.seen t

omit [DecidableEq ι] in
theorem Invariant.prepared_at (inv : Invariant s cells) {p : Pc δ} (pc : s.pc t = p) : p.Prepared s.heap :=
  pc ▸ inv.prepared t

omit [DecidableEq ι] in
/-- Both pointers are null exactly where no node is linked. -/
theorem Invariant.empty_iff (inv : Invariant s cells) (sees : s.tail = lastAddress cells) :
    (s.head = none ∧ s.tail = none) ↔ cells = [] := by
  constructor
  · rintro ⟨-, noTail⟩
    exact lastAddress_eq_none.mp (sees.symm.trans noTail)
  · rintro rfl
    exact ⟨inv.linked.start_eq, sees⟩

omit [DecidableEq ι] in
/-- `head` and `tail` are the same exactly where one node is linked. -/
theorem Invariant.head_eq_tail_iff (inv : Invariant s cells) {a : Nat} {data : δ}
    (first : cells.head? = some (a, data)) (sees : s.tail = lastAddress cells) :
    s.head = s.tail ↔ cells = [(a, data)] := by
  have head : s.head = some a := inv.linked.start_eq.trans (congrArg (Option.map Prod.fst) first)
  constructor
  · intro same
    exact eq_singleton_of_last inv.distinct first (sees.symm.trans (same.symm.trans head))
  · rintro rfl
    exact head.trans sees.symm

/-- A push that found the queue empty. -/
theorem Follows.setFirstHead {node : Nat} {x : δ} (inv : Invariant s cells) (pc : s.pc t = .pushHead node x) :
    Follows s cells none { s.goto t .pushUnlock with head := some node } := by
  obtain ⟨rfl, tail⟩ := inv.seen_at pc
  have linked : Segment s.heap (some node) [(node, x)] none := ⟨rfl, none, inv.prepared_at pc, rfl⟩
  exact .append (inv.append (pc ▸ rfl) rfl (pc ▸ rfl) rfl linked (fun _ _ => rfl) tail trivial) pc rfl rfl

/-- A push behind the last node. -/
theorem Follows.setNext {node a : Nat} {x : δ} {cell : Cell δ} (inv : Invariant s cells)
    (pc : s.pc t = .pushNext node x) (tail : s.tail = some a) (stored : s.heap a = some cell) :
    Follows s cells none { s.goto t (.pushTail node) with
      heap := update s.heap a (some { cell with next := some node }) } := by
  obtain ⟨-, sees⟩ := inv.seen_at pc
  have last := sees.symm.trans tail
  have member := lastAddress_mem last
  have mine : (s.pc t).node = some node := pc ▸ rfl
  obtain ⟨front, y, rfl, atLast⟩ := inv.linked.last_inv last
  cases Option.some.inj (stored.symm.trans atLast)
  have linked := inv.linked.link inv.distinct (inv.prepared_at pc) (inv.outside t node mine)
  have same : ∀ b, b ∉ addresses (front ++ [(a, y)]) →
      update s.heap a (some ⟨y, some node⟩) b = s.heap b := by
    intro b outside
    exact update_of_ne (fun atA => outside (by rw [atA]; exact member)) ..
  exact .append (inv.append (pc ▸ rfl) rfl mine rfl linked same (lastAddress_concat ..) trivial) pc rfl rfl

/-- A pop of the only node. -/
theorem Follows.clearHead {a : Nat} {data : δ} (inv : Invariant s cells) (pc : s.pc t = .popLastHead a data) :
    Follows s cells none { s.goto t (.popFree a data) with head := none } := by
  obtain ⟨rfl, tail⟩ := inv.seen_at pc
  exact .step (inv.unlink (pc ▸ rfl) (pc ▸ rfl) rfl tail) (.pop (congrArg Pc.phase pc) rfl)

/-- A pop of the first of several nodes. -/
theorem Follows.advanceHead {a b : Nat} {data : δ} {cell : Cell δ} (inv : Invariant s cells)
    (pc : s.pc t = .popNext a data) (head : s.head = some b) (stored : s.heap b = some cell) :
    Follows s cells none { s.goto t (.popFree a data) with head := cell.next } := by
  obtain ⟨rest, more, rfl, tail⟩ := inv.seen_at pc
  obtain ⟨first, next, atHead, linked⟩ := inv.linked
  cases Option.some.inj (head.symm.trans first)
  cases Option.some.inj (stored.symm.trans atHead)
  exact .step (inv.unlink (pc ▸ rfl) (pc ▸ rfl) linked (tail.trans (lastAddress_cons more)))
    (.pop (congrArg Pc.phase pc) rfl)

/-- A signal wakes a thread that waits, inside its call. -/
theorem Follows.signal (inv : Invariant s cells) {u : ι} (pc : s.pc t = .pushSignal) (waits : s.pc u = .popWait) :
    Follows s cells (some (.returnPush t 0)) ((s.goto t .idle).goto u .popLock) := by
  have different : u ≠ t := by
    rintro rfl
    rw [pc] at waits
    cases waits
  have waits' : (s.goto t .idle).pc u = .popWait := (update_of_ne different ..).trans waits
  have after := (inv.stay (p := .idle) pc rfl rfl trivial trivial).stay (p := .popLock) waits' rfl rfl trivial trivial
  have move : Atomic.Step (s.atomic cells) (some (.returnPush t 0)) _ :=
    .wake u (congrArg Pc.phase pc) (congrArg Pc.phase waits)
  have woken : ((s.goto t .idle).goto u .popLock).atomic cells = ((s.atomic cells).goto t .idle).goto u .popping :=
    (State.atomic_eq (s.goto t .idle) cells cells u .popLock ..).trans
      (congrArg (Atomic.goto · u .popping) (State.atomic_eq s cells cells t .idle ..))
  exact ⟨cells, after, woken ▸ .single move⟩

theorem phase_eq_waiting {p : Pc δ} : p.phase = .waiting ↔ p = .popWait := by
  cases p <;> simp only [Pc.phase, reduceCtorEq]

/-- One statement of a push or a pop. -/
theorem Follows.move {event : Option (Event ι δ)} (inv : Invariant s cells) (move : Move t s event s') :
    Follows s cells event s' := by
  cases move with
  | malloc node pc unused => exact .silent (inv.malloc pc unused) pc rfl
  | mallocFails pc => exact .step (inv.stay pc rfl rfl trivial trivial) (.pushFails (congrArg Pc.phase pc))
  | lockPush pc free =>
    have prepared := inv.prepared_at pc
    exact .silent (inv.lock pc rfl rfl prepared (inv.unlocked free) free) pc rfl
  | testEmpty pc empty =>
    have prepared := inv.prepared_at pc
    have none := (inv.empty_iff (inv.seen_at pc)).mp empty
    exact .silent (inv.stay pc rfl rfl prepared none) pc rfl
  | testMore pc more =>
    have prepared := inv.prepared_at pc
    have some := mt (inv.empty_iff (inv.seen_at pc)).mpr more
    exact .silent (inv.stay pc rfl rfl prepared ⟨some, inv.seen_at pc⟩) pc rfl
  | setFirst pc =>
    have prepared := inv.prepared_at pc
    exact .silent (inv.setTail pc rfl rfl rfl prepared ⟨inv.seen_at pc, rfl⟩) pc rfl
  | setFirstHead pc => exact .setFirstHead inv pc
  | setNext pc tail stored => exact .setNext inv pc tail stored
  | setTail pc => exact .silent (inv.setTail pc rfl rfl rfl trivial (inv.seen_at pc).symm) pc rfl
  | unlockPush pc => exact .silent (inv.unlock pc rfl rfl rfl trivial (inv.seen_at pc)) pc rfl
  | signal u pc waits => exact .signal inv pc waits
  | signalNobody pc nobody =>
    exact .step (inv.stay pc rfl rfl trivial trivial)
      (.returnPush (congrArg Pc.phase pc) fun u => mt phase_eq_waiting.mp (nobody u))
  | lockPop pc free => exact .silent (inv.lock pc rfl rfl trivial (inv.unlocked free) free) pc rfl
  | wait pc empty =>
    have none : cells = [] := (empty ▸ inv.linked : Segment s.heap none cells none).start_none
    exact .step (inv.unlock pc rfl rfl rfl trivial (inv.seen_at pc))
      (.sleep (congrArg Pc.phase pc) (congrArg (List.map Prod.snd) none))
  | found pc more =>
    have some : cells ≠ [] := fun none => more ((inv.empty_iff (inv.seen_at pc)).mpr none).1
    exact .silent (inv.stay pc rfl rfl trivial ⟨some, inv.seen_at pc⟩) pc rfl
  | readHead pc head =>
    have first := inv.linked.start_eq.symm.trans head
    exact .silent (inv.stay pc rfl rfl trivial ⟨first, (inv.seen_at pc).2⟩) pc rfl
  | @readData a cell pc stored =>
    obtain ⟨first, tail⟩ := inv.seen_at pc
    have linked := inv.linked
    rw [inv.linked.start_eq, first] at linked
    obtain ⟨x, next, rest, rfl, atHead, -⟩ := linked.cons_inv
    cases Option.some.inj (stored.symm.trans atHead)
    exact .silent (inv.stay pc rfl rfl trivial ⟨rfl, tail⟩) pc rfl
  | onlyNode pc same =>
    obtain ⟨first, tail⟩ := inv.seen_at pc
    exact .silent (inv.stay pc rfl rfl trivial ((inv.head_eq_tail_iff first tail).mp same)) pc rfl
  | moreNodes pc different =>
    obtain ⟨first, tail⟩ := inv.seen_at pc
    have more := mt (inv.head_eq_tail_iff first tail).mpr different
    obtain ⟨rest, rfl⟩ : ∃ rest, cells = _ :: rest := List.head?_eq_some_iff.mp first
    have rest_ne : rest ≠ [] := fun none => more (none ▸ rfl)
    exact .silent (inv.stay pc rfl rfl trivial ⟨rest, rest_ne, rfl, tail⟩) pc rfl
  | clearTail pc => exact .silent (inv.setTail pc rfl rfl rfl trivial ⟨inv.seen_at pc, rfl⟩) pc rfl
  | clearHead pc => exact .clearHead inv pc
  | advanceHead pc head stored => exact .advanceHead inv pc head stored
  | free pc stored => exact .silent (inv.free pc) pc rfl
  | unlockPop pc =>
    exact .step (inv.unlock pc rfl rfl rfl trivial (inv.seen_at pc)) (.returnPop (congrArg Pc.phase pc))

theorem Follows.of_step {event : Option (Event ι δ)} (inv : Invariant s cells) (step : Step s event s') :
    Follows s cells event s' := by
  cases step with
  | callPush x pc => exact .step (inv.stay pc rfl rfl trivial trivial) (.callPush x (congrArg Pc.phase pc))
  | callPop pc => exact .step (inv.stay pc rfl rfl trivial trivial) (.callPop (congrArg Pc.phase pc))
  | move t move => exact .move inv move
  | spurious pc => exact .step (inv.stay pc rfl rfl trivial trivial) (.spurious (congrArg Pc.phase pc))

/-- The states of the two queues that go together. -/
def Represents (s : State ι δ) (q : Atomic ι δ) : Prop :=
  ∃ cells, Invariant s cells ∧ q = s.atomic cells

theorem Represents.follows {event : Option (Event ι δ)} {q : Atomic ι δ} (represents : Represents s q)
    (step : Step s event s') : ∃ q', Represents s' q' ∧ History Atomic.Step q event.toList q' := by
  obtain ⟨cells, inv, rfl⟩ := represents
  obtain ⟨cells', after, follows⟩ := Follows.of_step inv step
  exact ⟨s'.atomic cells', ⟨cells', after, rfl⟩, follows⟩

theorem State.goto_pc (s : State ι δ) (t : ι) (p : Pc δ) : (s.goto t p).pc t = p :=
  update_self ..

theorem State.goto_pc_of_ne (s : State ι δ) {t u : ι} (different : u ≠ t) (p : Pc δ) : (s.goto t p).pc u = s.pc u :=
  update_of_ne (f := s.pc) different ..

/-- A push into an empty queue that nobody else uses. -/
theorem push_alone (t : ι) (x : δ) (node : Nat) :
    ∃ s : State ι δ, History Step create [.callPush t x, .returnPush t 0] s ∧
      (∀ u, s.pc u = .idle) ∧ s.head = some node ∧ s.tail = some node := by
  have called := (History.refl create).tail (Step.callPush (t := t) x rfl)
  have allocated := called.tail (.move t (.malloc node (State.goto_pc ..) rfl))
  have locked := allocated.tail (.move t (.lockPush (State.goto_pc ..) rfl))
  have tested := locked.tail (.move t (.testEmpty (State.goto_pc ..) ⟨rfl, rfl⟩))
  have first := tested.tail (.move t (.setFirst (State.goto_pc ..)))
  have linked := first.tail (.move t (.setFirstHead (State.goto_pc ..)))
  have unlocked := linked.tail (.move t (.unlockPush (State.goto_pc ..)))
  have nobody : ∀ u, update create.pc t Pc.pushSignal u ≠ (Pc.popWait : Pc δ) := by
    intro u
    by_cases same : u = t
    · simp only [same, update_self, ne_eq, reduceCtorEq, not_false_eq_true]
    · simp only [update_of_ne same, create, ne_eq, reduceCtorEq, not_false_eq_true]
  have returned := unlocked.tail (.move t (.signalNobody (State.goto_pc ..) ?_))
  · refine ⟨_, returned, fun u => ?_, rfl, rfl⟩
    by_cases same : u = t
    · rw [same]
      exact State.goto_pc ..
    · simp only [State.goto, update_idem, update_of_ne same, create]
  · simpa only [State.goto, update_idem] using nobody

/-- Whatever the interleaving of the threads, the calls and the returns they see are
those of a queue whose operations take effect at once. -/
theorem history_atomic {events : List (Event ι δ)} (history : History Step create events s) :
    ∃ q, Represents s q ∧ History Atomic.Step Atomic.empty events q :=
  history.simulates (fun _ _ _ _ represents step => represents.follows step) ⟨[], .create, rfl⟩

end

/-- A thread that pops and two that push. -/
inductive Party
  | consumer | first | second
  deriving DecidableEq

instance : Fintype Party :=
  ⟨{.consumer, .first, .second}, fun t => by cases t <;> simp⟩

/-- Three threads get in each other's way: the consumer sleeps when the first push links its
node and the second waits for the mutex; woken, it takes the first of two nodes; and what
it pushes then goes behind the node that is left. -/
theorem overlapping_calls : ∃ asleep popping popped refilled : State Party Nat,
    (History Step create [.callPop .consumer, .callPush .first 7, .callPush .second 8] asleep ∧
      asleep.pc .consumer = .popWait ∧ asleep.pc .first = .pushSignal ∧ asleep.pc .second = .pushLock 1 8) ∧
    (History Step create [.callPop .consumer, .callPush .first 7, .callPush .second 8, .returnPush .first 0,
        .returnPush .second 0] popping ∧
      popping.pc .consumer = .popData 0 ∧ popping.head = some 0 ∧ popping.tail = some 1) ∧
    History Step create [.callPop .consumer, .callPush .first 7, .callPush .second 8, .returnPush .first 0,
      .returnPush .second 0, .returnPop .consumer 7] popped ∧
    History Step create [.callPop .consumer, .callPush .first 7, .callPush .second 8, .returnPush .first 0,
        .returnPush .second 0, .returnPop .consumer 7, .callPush .consumer 9, .returnPush .consumer 0] refilled ∧
      (∀ t, refilled.pc t = .idle) ∧ refilled.head = some 1 ∧ refilled.tail = some 0 := by
  have called := (History.refl (create : State Party Nat)).tail (Step.callPop (t := .consumer) rfl)
  have looking := called.tail (.move .consumer (.lockPop rfl rfl))
  have waiting := looking.tail (.move .consumer (.wait rfl rfl))
  have pushing := waiting.tail (.callPush (t := .first) 7 rfl)
  have allocated := pushing.tail (.move .first (.malloc 0 rfl rfl))
  have pushing' := allocated.tail (.callPush (t := .second) 8 rfl)
  have allocated' := pushing'.tail (.move .second (.malloc 1 rfl rfl))
  have locked := allocated'.tail (.move .first (.lockPush rfl rfl))
  have empty := locked.tail (.move .first (.testEmpty rfl ⟨rfl, rfl⟩))
  have first := empty.tail (.move .first (.setFirst rfl))
  have linked := first.tail (.move .first (.setFirstHead rfl))
  have unlocked := linked.tail (.move .first (.unlockPush rfl))
  have locked' := unlocked.tail (.move .second (.lockPush rfl rfl))
  have more := locked'.tail (.move .second (.testMore rfl (by decide)))
  have next := more.tail (.move .second (.setNext rfl rfl rfl))
  have linked' := next.tail (.move .second (.setTail rfl))
  have unlocked' := linked'.tail (.move .second (.unlockPush rfl))
  have woken := unlocked'.tail (.move .first (.signal .consumer rfl rfl))
  have returned := woken.tail (.move .second (.signalNobody rfl fun u same => (by cases u <;> cases same)))
  have again := returned.tail (.move .consumer (.lockPop rfl rfl))
  have found := again.tail (.move .consumer (.found rfl (by decide)))
  have head := found.tail (.move .consumer (.readHead rfl rfl))
  have data := head.tail (.move .consumer (.readData rfl rfl))
  have compared := data.tail (.move .consumer (.moreNodes rfl (by decide)))
  have advanced := compared.tail (.move .consumer (.advanceHead rfl rfl rfl))
  have freed := advanced.tail (.move .consumer (.free rfl rfl))
  have popped := freed.tail (.move .consumer (.unlockPop rfl))
  have third := popped.tail (.callPush (t := .consumer) 9 rfl)
  have reused := third.tail (.move .consumer (.malloc 0 rfl rfl))
  have held := reused.tail (.move .consumer (.lockPush rfl rfl))
  have behind := held.tail (.move .consumer (.testMore rfl (by decide)))
  have joined := behind.tail (.move .consumer (.setNext rfl rfl rfl))
  have last := joined.tail (.move .consumer (.setTail rfl))
  have released := last.tail (.move .consumer (.unlockPush rfl))
  have ended := released.tail (.move .consumer (.signalNobody rfl fun u same => (by cases u <;> cases same)))
  exact ⟨_, _, _, _, ⟨unlocked, rfl, rfl, rfl⟩, ⟨head, rfl, rfl, rfl⟩, popped, ended,
    fun u => (by cases u <;> rfl), rfl, rfl⟩

theorem history_atomic_overlapping : ∃ (s : State Party Nat) (q : Atomic Party Nat), Represents s q ∧
    History Atomic.Step Atomic.empty [.callPop .consumer, .callPush .first 7, .callPush .second 8,
      .returnPush .first 0, .returnPush .second 0, .returnPop .consumer 7] q := by
  obtain ⟨-, -, s, -, -, -, history, -⟩ := overlapping_calls
  obtain ⟨q, both⟩ := history_atomic history
  exact ⟨s, q, both⟩

end Racer.TinyQueue
