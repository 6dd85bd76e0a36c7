import Racer.Library.Threads
import Racer.Library.Transition
import Racer.Tracer.AtomicQueue

namespace Racer.TinyQueue
open Function LinkedCells Histories Threads Transition

section
variable {ι δ : Type}

/-- The pointer that the next statement of a thread follows. -/
def State.followed (s : State ι δ) : Pc δ → Option (Option Nat)
  | .pushNext .. => some s.tail
  | .popData currentHead | .popFree currentHead _ => some (some currentHead)
  | .popNext .. => some s.head
  | _ => none

/-- The next statement of the thread follows a null pointer or one to freed memory. -/
def Faults (s : State ι δ) (t : ι) : Prop :=
  ∃ pointer, s.followed (s.pc t) = some pointer ∧ ∀ a, pointer = some a → s.heap a = none

theorem Invariant.follows {s : State ι δ} {cells : List (Nat × δ)} (inv : Invariant s cells) {t : ι}
    {pointer : Option Nat} (followed : s.followed (s.pc t) = some pointer) :
    ∃ a, pointer = some a ∧ s.heap a ≠ none := by
  have seen := inv.seen t
  have prepared := inv.prepared t
  cases pc : s.pc t <;> rw [pc] at followed seen prepared <;> try cases followed
  case pushNext node x =>
    obtain ⟨some, tail⟩ := seen
    cases last : lastAddress cells with
    | none => exact (some (lastAddress_eq_none.mp last)).elim
    | some a => exact ⟨a, tail.trans last, inv.linked.allocated (lastAddress_mem last)⟩
  case popData currentHead =>
    obtain ⟨first, -⟩ := seen
    obtain ⟨cell, atHead, same⟩ := Option.map_eq_some_iff.mp first
    exact ⟨currentHead, rfl, inv.linked.allocated (same ▸ List.mem_map_of_mem (List.mem_of_head? atHead))⟩
  case popNext currentHead data =>
    obtain ⟨rest, -, rfl, -⟩ := seen
    exact ⟨currentHead, inv.linked.start_eq, inv.linked.allocated List.mem_cons_self⟩
  case popFree currentHead data => exact ⟨currentHead, rfl, prepared⟩

end

section
variable {ι δ : Type} [DecidableEq ι]

theorem reachable_invariant {s : State ι δ} {events : List (Event ι δ)} (history : History Step create events s) :
    ∃ cells, Invariant s cells := by
  refine history.invariant (I := fun s => ∃ cells, Invariant s cells) ?_ ⟨[], .create⟩
  rintro a event b ⟨cells, inv⟩ step
  obtain ⟨cells', after, -⟩ := Follows.of_step inv step
  exact ⟨cells', after⟩

/-- No thread ever follows a null pointer or touches a freed node, no node is freed
twice, and none is lost: each is linked or with the one thread that works on it. -/
theorem memory_safe {s : State ι δ} {events : List (Event ι δ)} (history : History Step create events s) :
    (∀ t, ¬ Faults s t) ∧ ∃ cells, Segment s.heap s.head cells none ∧
      ∀ a, s.heap a ≠ none ↔ (a ∈ addresses cells ∧ ∀ t, (s.pc t).node ≠ some a) ∨
        (a ∉ addresses cells ∧ ∃! t, (s.pc t).node = some a) := by
  obtain ⟨cells, inv⟩ := reachable_invariant history
  refine ⟨?_, cells, inv.linked, fun a => ⟨fun used => ?_, ?_⟩⟩
  · rintro t ⟨pointer, followed, freed⟩
    obtain ⟨a, points, used⟩ := inv.follows followed
    exact used (freed a points)
  · by_cases linked : a ∈ addresses cells
    · exact .inl ⟨linked, fun t node => inv.outside t a node linked⟩
    · obtain ⟨t, node⟩ := (inv.accounted a used).resolve_left linked
      exact .inr ⟨linked, t, node, fun u theirs => inv.alone u t a theirs node⟩
  · rintro (⟨linked, -⟩ | ⟨-, t, node, -⟩)
    · exact inv.linked.allocated linked
    · exact (inv.prepared t).allocated node

theorem memory_safe_overlapping : ∃ s : State Party Nat,
    (s.pc .consumer = .popData 0 ∧ s.head = some 0 ∧ s.tail = some 1) ∧ (∀ t, ¬ Faults s t) ∧
      ∃ cells, Segment s.heap s.head cells none ∧
        ∀ a, s.heap a ≠ none ↔ (a ∈ addresses cells ∧ ∀ t, (s.pc t).node ≠ some a) ∨
          (a ∉ addresses cells ∧ ∃! t, (s.pc t).node = some a) := by
  obtain ⟨-, s, -, -, -, ⟨history, reached⟩, -⟩ := overlapping_calls
  exact ⟨s, reached, memory_safe history⟩

/-- The loop of `tiny_queue_destroy`. It fails where it follows a pointer to freed
memory. -/
def freeNodes {δ : Type} : Nat → Heap δ → Nat → Option (Heap δ)
  | 0, _, _ => none
  | fuel + 1, heap, node =>
    match heap node with
    | none => none
    | some cell =>
      match cell.next with
      | none => some heap
      | some next => freeNodes fuel (update heap node none) next

/-- `tiny_queue_destroy`, once the mutex and the condition are destroyed: what is
still allocated when it returns. -/
def destroy {ι δ : Type} (fuel : Nat) (s : State ι δ) : Option (Heap δ) :=
  match s.head with
  | none => some s.heap
  | some node => freeNodes fuel s.heap node

omit [DecidableEq ι] in
theorem freeNodes_spec {fuel a : Nat} {heap : Heap δ} {cells : List (Nat × δ)}
    (linked : Segment heap (some a) cells none) (distinct : (addresses cells).Nodup) (enough : cells.length ≤ fuel) :
    ∃ heap', freeNodes fuel heap a = some heap' ∧
      ∀ b, heap' b ≠ none ↔ heap b ≠ none ∧ (b ∈ addresses cells → lastAddress cells = some b) := by
  induction cells generalizing fuel a heap with
  | nil => exact (Option.some_ne_none a linked).elim
  | cons cell cells ih =>
    obtain ⟨same, next, stored, rest⟩ := linked
    cases Option.some.inj same
    obtain ⟨fresh, distinct⟩ := List.nodup_cons.mp distinct
    obtain ⟨fuel, rfl⟩ : ∃ rest, fuel = rest + 1 := Nat.exists_eq_add_of_lt (Nat.lt_of_lt_of_le (Nat.succ_pos _) enough)
      |>.imp fun _ h => by omega
    cases next with
    | none =>
      obtain rfl := rest.start_none
      refine ⟨heap, by simp only [freeNodes, stored], fun b => ⟨fun used => ⟨used, fun member => ?_⟩, And.left⟩⟩
      exact congrArg some (List.mem_singleton.mp member).symm
    | some next =>
      have more : cells ≠ [] := by
        rintro rfl
        exact Option.some_ne_none next rest
      obtain ⟨heap', run, left⟩ := ih (rest.update fresh none) distinct (Nat.le_of_succ_le_succ enough)
      refine ⟨heap', by simpa only [freeNodes, stored] using run, fun b => ?_⟩
      rw [left, lastAddress_cons more, addresses_cons, List.mem_cons]
      by_cases first : b = cell.1
      · subst first
        rw [update_self]
        refine iff_of_false (fun h => h.1 rfl) fun h => fresh (lastAddress_mem (h.2 (.inl rfl)))
      · rw [update_of_ne first]
        simp only [first, false_or]

/-- Once no thread uses the queue, `tiny_queue_destroy` frees each node but the last
one: its loop stops in front of it. -/
theorem destroy_leaks_last {s : State ι δ} {events : List (Event ι δ)} (history : History Step create events s)
    (unused : ∀ t, s.pc t = .idle) :
    ∃ n, ∀ fuel, n ≤ fuel → ∃ heap, destroy fuel s = some heap ∧ ∀ a, heap a ≠ none ↔ s.tail = some a := by
  obtain ⟨cells, inv⟩ := reachable_invariant history
  have unlocked : s.holder = none := by
    cases holder : s.holder with
    | none => rfl
    | some t =>
      have held := (inv.mutex t).mpr holder
      rw [unused t] at held
      exact (Bool.false_ne_true held).elim
  have linkedOnly : ∀ a, s.heap a ≠ none → a ∈ addresses cells := by
    intro a used
    rcases inv.accounted a used with linked | ⟨t, node⟩
    · exact linked
    · rw [unused t] at node
      exact (Option.some_ne_none a node.symm).elim
  refine ⟨cells.length, fun fuel enough => ?_⟩
  rw [inv.unlocked unlocked]
  have linked := inv.linked
  unfold destroy
  cases head : s.head with
  | none =>
    rw [head] at linked
    obtain rfl := linked.start_none
    refine ⟨s.heap, rfl, fun a => iff_of_false (fun used => List.not_mem_nil (linkedOnly a used)) ?_⟩
    exact fun last => Option.some_ne_none a last.symm
  | some node =>
    rw [head] at linked
    obtain ⟨heap, run, left⟩ := freeNodes_spec linked inv.distinct enough
    refine ⟨heap, run, fun a => ⟨fun used => ?_, fun last => ?_⟩⟩
    · obtain ⟨used, last⟩ := (left a).mp used
      exact last (linkedOnly a used)
    · exact (left a).mpr ⟨inv.linked.allocated (lastAddress_mem last), fun _ => last⟩

theorem phase_eq_idle {p : Pc δ} : p.phase = .idle ↔ p = .idle := by
  cases p <;> simp only [Pc.phase, reduceCtorEq]

omit [DecidableEq ι] in
/-- A queue that nobody uses and that holds nothing. -/
theorem Represents.at_rest {s : State ι δ} {q : Atomic ι δ} (represents : Represents s q)
    (idle : ∀ t, q.phase t = .idle) (empty : q.contents = []) :
    s.holder = none ∧ (∀ t, s.pc t = .idle) ∧ ∀ fuel, destroy fuel s = some fun _ => none := by
  obtain ⟨cells, inv, rfl⟩ := represents
  obtain rfl : cells = [] := List.map_eq_nil_iff.mp empty
  have unused : ∀ t, s.pc t = .idle := fun t => phase_eq_idle.mp (idle t)
  refine ⟨?_, unused, fun fuel => ?_⟩
  · cases holder : s.holder with
    | none => rfl
    | some t =>
      have held := (inv.mutex t).mpr holder
      rw [unused t] at held
      exact (Bool.false_ne_true held).elim
  · have head : s.head = none := inv.linked.start_eq
    rw [destroy, head]
    refine congrArg some (funext fun a => ?_)
    by_contra used
    rcases inv.accounted a used with linked | ⟨t, node⟩
    · exact List.not_mem_nil linked
    · rw [unused t] at node
      exact Option.some_ne_none a node.symm

theorem destroy_leaks_last_of_two : ∃ s : State Party Nat, s.head = some 1 ∧ s.tail = some 0 ∧
    ∃ n, ∀ fuel, n ≤ fuel → ∃ heap, destroy fuel s = some heap ∧ ∀ a, heap a ≠ none ↔ s.tail = some a := by
  obtain ⟨-, -, -, s, -, -, -, history, idle, head, tail⟩ := overlapping_calls
  exact ⟨s, head, tail, destroy_leaks_last history idle⟩

end

section
variable {ι δ : Type}

/-- A thread that will still take a value or wake one that sleeps. -/
def Phase.awake : Phase δ → Nat
  | .pushed | .popping => 1
  | _ => 0

/-- While a thread sleeps, the threads that are awake are enough for the values. -/
def Atomic.Served [Fintype ι] (q : Atomic ι δ) : Prop :=
  (∃ t, q.phase t = .waiting) → q.contents.length ≤ total Phase.awake q.phase

variable [DecidableEq ι]

theorem Atomic.waiting_of_goto {q : Atomic ι δ} {t : ι} (phase : Phase δ) (awake : phase ≠ .waiting)
    (waits : ∃ u, update q.phase t phase u = .waiting) : ∃ u, q.phase u = .waiting := by
  obtain ⟨u, waits⟩ := waits
  by_cases same : u = t
  · subst same
    rw [update_self] at waits
    exact (awake waits).elim
  · exact ⟨u, by rwa [update_of_ne same] at waits⟩

variable [Fintype ι]

/-- A step of `t` that takes away as much of the contents as of the work of `t`. -/
theorem Atomic.Served.goto {q : Atomic ι δ} (served : q.Served) {t : ι} {before after : Phase δ} {contents : List δ}
    (phase : q.phase t = before) (awake : after ≠ .waiting)
    (balance : contents.length + before.awake ≤ q.contents.length + after.awake) :
    Served { q.goto t after with contents := contents } := by
  intro waits
  have enough := served (waiting_of_goto after awake waits)
  have sum := total_update Phase.awake q.phase t after
  rw [phase] at sum
  show contents.length ≤ total Phase.awake (update q.phase t after)
  omega

theorem Atomic.Step.served {q q' : Atomic ι δ} {event : Option (Event ι δ)} (served : q.Served)
    (step : Atomic.Step q event q') : q'.Served := by
  cases step with
  | callPush x phase => exact served.goto phase (by simp) (Nat.le_refl _)
  | pushFails phase => exact served.goto phase (by simp) (Nat.le_refl _)
  | push phase => exact served.goto phase (by simp) (by simp [Phase.awake])
  | returnPush phase nobody =>
    intro waits
    obtain ⟨u, waits⟩ := Atomic.waiting_of_goto .idle (by simp) waits
    exact (nobody u waits).elim
  | @wake t u phase waits =>
    intro _
    have different : u ≠ t := by
      rintro rfl
      rw [phase] at waits
      cases waits
    have enough := served ⟨u, waits⟩
    have first := total_update Phase.awake q.phase t .idle
    have second := total_update Phase.awake (update q.phase t .idle) u .popping
    rw [phase] at first
    rw [update_of_ne different, waits] at second
    simp only [Phase.awake] at first second
    show q.contents.length ≤ total Phase.awake (update (update q.phase t .idle) u .popping)
    omega
  | callPop phase => exact served.goto phase (by simp) (by simp [Phase.awake])
  | sleep phase empty =>
    intro _
    show q.contents.length ≤ _
    rw [empty]
    exact Nat.zero_le _
  | spurious phase => exact served.goto phase (by simp) (by simp [Phase.awake])
  | pop phase more => exact served.goto phase (by simp) (by simp [more, Phase.awake])
  | returnPop phase => exact served.goto phase (by simp) (Nat.le_refl _)

end

/-- No fewer than the statements that a thread still executes in its call. -/
def Pc.left {δ : Type} : Pc δ → Nat
  | .idle | .popWait => 0
  | .pushMalloc _ => 16
  | .pushLock .. => 15
  | .pushTest .. => 14
  | .pushFirst .. | .pushNext .. => 13
  | .pushHead .. | .pushTail _ => 12
  | .pushUnlock => 11
  | .pushSignal => 10
  | .popLock => 9
  | .popTest => 8
  | .popHead => 7
  | .popData _ => 6
  | .popCompare .. => 5
  | .popLast .. => 4
  | .popLastHead .. | .popNext .. => 3
  | .popFree .. => 2
  | .popUnlock _ => 1

section
variable {ι δ : Type} [DecidableEq ι]

/-- The steps of the threads inside their calls. -/
def Moves (s s' : State ι δ) : Prop :=
  ∃ t event, Move t s event s'

theorem left_goto [Fintype ι] {s : State ι δ} {t : ι} {p q : Pc δ} (pc : s.pc t = q) (less : p.left < q.left) :
    total Pc.left (update s.pc t p) < total Pc.left s.pc := by
  have sum := total_update Pc.left s.pc t p
  rw [pc] at sum
  omega

/-- A signal starts no more than it ends. -/
theorem Move.left [Fintype ι] {s s' : State ι δ} {t : ι} {event : Option (Event ι δ)} (move : Move t s event s') :
    total Pc.left s'.pc < total Pc.left s.pc := by
  cases move with
  | signal u pc waits =>
    have different : u ≠ t := by
      rintro rfl
      rw [pc] at waits
      cases waits
    have first := total_update Pc.left s.pc t .idle
    have second := total_update Pc.left (update s.pc t .idle) u .popLock
    rw [pc] at first
    rw [update_of_ne different, waits] at second
    simp only [Pc.left] at first second
    show total Pc.left (update (update s.pc t .idle) u .popLock) < _
    omega
  | _ => exact left_goto (by assumption) (by simp only [Pc.left]; omega)

/-- A thread leaves its call when it returns. -/
theorem Move.idle {s s' : State ι δ} {t u : ι} {event : Option (Event ι δ)} (move : Move t s event s')
    (idle : s'.pc u = .idle) : s.pc u = .idle ∨ u = t ∧ event ≠ none := by
  have goes {p : Pc δ} (busy : p ≠ .idle) (after : update s.pc t p u = .idle) : s.pc u = .idle := by
    by_cases same : u = t
    · rw [same, update_self] at after
      exact (busy after).elim
    · rwa [update_of_ne same] at after
  have leaves (after : update s.pc t .idle u = .idle) (e : Event ι δ) : s.pc u = .idle ∨ u = t ∧ some e ≠ none := by
    by_cases same : u = t
    · exact .inr ⟨same, Option.some_ne_none e⟩
    · rw [update_of_ne same] at after
      exact .inl after
  cases move with
  | mallocFails pc | signalNobody pc nobody | unlockPop pc => exact leaves idle _
  | signal v pc waits =>
    by_cases same : u = v
    · rw [same, State.goto_pc] at idle
      cases idle
    · exact leaves ((update_of_ne same ..).symm.trans idle) _
  | _ => exact .inl (goes (by simp) idle)

/-- Whoever may have the mutex can go on. -/
theorem Invariant.can_move {s : State ι δ} {cells : List (Nat × δ)} (inv : Invariant s cells) {t : ι}
    (calls : s.pc t ≠ .idle) (awake : s.pc t ≠ .popWait) (mutex : s.holder = none ∨ s.holder = some t) :
    ∃ s' event, Move t s event s' := by
  have unheld : (s.pc t).holds = false → s.holder = none := fun outside =>
    mutex.resolve_right fun mine => Bool.false_ne_true (outside.symm.trans ((inv.mutex t).mpr mine))
  have follows : ∀ pointer, s.followed (s.pc t) = some pointer → ∃ a, pointer = some a ∧ s.heap a ≠ none :=
    fun _ => inv.follows
  cases pc : s.pc t <;> rw [pc] at follows unheld
  case idle => exact (calls pc).elim
  case popWait => exact (awake pc).elim
  case pushMalloc x => exact ⟨_, _, .mallocFails pc⟩
  case pushLock node x => exact ⟨_, _, .lockPush pc (unheld rfl)⟩
  case pushTest node x =>
    by_cases empty : s.head = none ∧ s.tail = none
    · exact ⟨_, _, .testEmpty pc empty⟩
    · exact ⟨_, _, .testMore pc empty⟩
  case pushFirst node x => exact ⟨_, _, .setFirst pc⟩
  case pushHead node x => exact ⟨_, _, .setFirstHead pc⟩
  case pushNext node x =>
    obtain ⟨a, tail, used⟩ := follows s.tail rfl
    obtain ⟨cell, stored⟩ := Option.ne_none_iff_exists'.mp used
    exact ⟨_, _, .setNext pc tail stored⟩
  case pushTail node => exact ⟨_, _, .setTail pc⟩
  case pushUnlock => exact ⟨_, _, .unlockPush pc⟩
  case pushSignal =>
    by_cases waits : ∃ u, s.pc u = .popWait
    · obtain ⟨u, waits⟩ := waits
      exact ⟨_, _, .signal u pc waits⟩
    · exact ⟨_, _, .signalNobody pc (not_exists.mp waits)⟩
  case popLock => exact ⟨_, _, .lockPop pc (unheld rfl)⟩
  case popTest =>
    by_cases empty : s.head = none
    · exact ⟨_, _, .wait pc empty⟩
    · exact ⟨_, _, .found pc empty⟩
  case popHead =>
    have more := (inv.seen_at pc).1
    have linked := inv.linked
    cases head : s.head with
    | none => exact (more (head ▸ linked : Segment s.heap none cells none).start_none).elim
    | some a => exact ⟨_, _, .readHead pc head⟩
  case popData a =>
    obtain ⟨_, same, used⟩ := follows (some a) rfl
    cases Option.some.inj same
    obtain ⟨cell, stored⟩ := Option.ne_none_iff_exists'.mp used
    exact ⟨_, _, .readData pc stored⟩
  case popCompare a data =>
    by_cases same : s.head = s.tail
    · exact ⟨_, _, .onlyNode pc same⟩
    · exact ⟨_, _, .moreNodes pc same⟩
  case popLast a data => exact ⟨_, _, .clearTail pc⟩
  case popLastHead a data => exact ⟨_, _, .clearHead pc⟩
  case popNext a data =>
    obtain ⟨b, head, used⟩ := follows s.head rfl
    obtain ⟨cell, stored⟩ := Option.ne_none_iff_exists'.mp used
    exact ⟨_, _, .advanceHead pc head stored⟩
  case popFree a data =>
    obtain ⟨_, same, used⟩ := follows (some a) rfl
    cases Option.some.inj same
    obtain ⟨cell, stored⟩ := Option.ne_none_iff_exists'.mp used
    exact ⟨_, _, .free pc stored⟩
  case popUnlock data => exact ⟨_, _, .unlockPop pc⟩

omit [DecidableEq ι] in
/-- Only finitely many nodes are in use. -/
theorem Invariant.exists_unused [Fintype ι] {s : State ι δ} {cells : List (Nat × δ)} (inv : Invariant s cells) :
    ∃ node, s.heap node = none := by
  let used := (addresses cells).toFinset ∪ Finset.univ.image fun t => (s.pc t).node.getD 0
  obtain ⟨node, fresh⟩ := Infinite.exists_notMem_finset used
  refine ⟨node, by_contra fun allocated => fresh ?_⟩
  rcases inv.accounted node allocated with linked | ⟨t, mine⟩
  · exact Finset.mem_union_left _ (List.mem_toFinset.mpr linked)
  · exact Finset.mem_union_right _ (Finset.mem_image.mpr ⟨t, Finset.mem_univ t, by rw [mine, Option.getD_some]⟩)

/-- There is no deadlock: where no thread can go on, none is inside its call but those
that wait for a value. -/
theorem Invariant.stuck {s : State ι δ} {cells : List (Nat × δ)} (inv : Invariant s cells)
    (stuck : ¬ ∃ s', Moves s s') : s.holder = none ∧ ∀ t, s.pc t = .idle ∨ s.pc t = .popWait := by
  have rests : ∀ t, s.holder = none ∨ s.holder = some t → s.pc t = .idle ∨ s.pc t = .popWait := by
    intro t mutex
    by_contra inside
    rw [not_or] at inside
    obtain ⟨s', event, move⟩ := inv.can_move inside.1 inside.2 mutex
    exact stuck ⟨s', t, event, move⟩
  have unlocked : s.holder = none := by
    cases holder : s.holder with
    | none => rfl
    | some t =>
      have held := (inv.mutex t).mpr holder
      rcases rests t (.inr holder) with pc | pc <;> rw [pc] at held <;> exact (Bool.false_ne_true held).elim
  exact ⟨unlocked, fun t => rests t (.inl unlocked)⟩

/-- A queue whose sleeping threads are owed no value. -/
def Serves [Fintype ι] (s : State ι δ) : Prop :=
  ∃ q, Represents s q ∧ q.Served

theorem Serves.step [Fintype ι] {s s' : State ι δ} {event : Option (Event ι δ)} (serves : Serves s)
    (step : Step s event s') : Serves s' := by
  obtain ⟨q, represents, served⟩ := serves
  obtain ⟨q', after, follows⟩ := represents.follows step
  exact ⟨q', after, follows.invariant (fun _ _ _ served step => step.served served) served⟩

omit [DecidableEq ι] in
theorem Serves.start [Fintype ι] : Serves (create : State ι δ) :=
  ⟨Atomic.empty, ⟨[], .create, rfl⟩, fun _ => Nat.zero_le _⟩

/-- Where no thread can go on, the threads that wait have nothing to wait for. -/
theorem Serves.rests [Fintype ι] {s : State ι δ} (serves : Serves s) (stuck : ¬ ∃ s', Moves s s') :
    s.holder = none ∧ (∀ t, s.pc t = .idle ∨ s.pc t = .popWait) ∧
      ((∃ t, s.pc t = .popWait) → s.head = none ∧ s.tail = none) := by
  obtain ⟨q, ⟨cells, inv, rfl⟩, served⟩ := serves
  obtain ⟨unlocked, rests⟩ := inv.stuck stuck
  refine ⟨unlocked, rests, fun ⟨t, waits⟩ => (inv.empty_iff (inv.unlocked unlocked)).mpr ?_⟩
  have asleep : total Phase.awake (s.atomic cells).phase = 0 := by
    refine total_eq_zero.mpr fun u => ?_
    rcases rests u with idle | waits
    · exact congrArg (fun p => (Pc.phase p).awake) idle
    · exact congrArg (fun p => (Pc.phase p).awake) waits
  have few := served ⟨t, congrArg Pc.phase waits⟩
  rw [asleep] at few
  exact List.map_eq_nil_iff.mp (List.length_eq_zero_iff.mp (Nat.le_zero.mp few))

/-- No wakeup is lost and nobody waits for ever: left alone, the threads inside their
calls come to rest after finitely many steps, and if one then waits, the queue is empty. -/
theorem no_lost_wakeup [Fintype ι] {s : State ι δ} {events : List (Event ι δ)}
    (history : History Step create events s) :
    Acc (fun after before => Moves before after) s ∧
      ∀ s', Run Moves s s' → (¬ ∃ next, Moves s' next) →
        s'.holder = none ∧ (∀ t, s'.pc t = .idle ∨ s'.pc t = .popWait) ∧
          ((∃ t, s'.pc t = .popWait) → s'.head = none ∧ s'.tail = none) := by
  have decreases : ∀ a b : State ι δ, Moves a b → total Pc.left b.pc < total Pc.left a.pc :=
    fun _ _ ⟨_, _, move⟩ => move.left
  have wellFounded : WellFounded fun after before : State ι δ => Moves before after :=
    Subrelation.wf (decreases _ _) (measure fun s : State ι δ => total Pc.left s.pc).wf
  have reached := history.invariant (fun _ _ _ serves step => serves.step step) Serves.start
  refine ⟨wellFounded.apply s, fun s' run stuck => ?_⟩
  exact (run.invariant (fun _ _ serves ⟨t, _, move⟩ => Serves.step serves (.move t move)) reached).rests stuck

theorem no_lost_wakeup_overlapping : ∃ s : State Party Nat,
    (s.pc .consumer = .popWait ∧ s.pc .first = .pushSignal ∧ s.pc .second = .pushLock 1 8) ∧
    Acc (fun after before => Moves before after) s ∧
      ∀ s', Run Moves s s' → (¬ ∃ next, Moves s' next) →
        s'.holder = none ∧ (∀ t, s'.pc t = .idle ∨ s'.pc t = .popWait) ∧
          ((∃ t, s'.pc t = .popWait) → s'.head = none ∧ s'.tail = none) := by
  obtain ⟨s, -, -, -, ⟨history, reached⟩, -⟩ := overlapping_calls
  exact ⟨s, reached, no_lost_wakeup history⟩

end
end Racer.TinyQueue
