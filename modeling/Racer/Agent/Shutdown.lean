import Racer.Library.Transition
import Mathlib.Logic.Function.Basic
import Mathlib.Algebra.BigOperators.Fin

namespace Racer.Shutdown
open Transition

/-- A connection thread: the traces before its stop message that it still has to
push, and whether `worker_loop` has returned. -/
structure ConnectionThread (τ : Type) where
  traces : List τ
  returned : Bool := false

/-- The worker thread: in `@queue.pop`, in front of the next collector's
`collect` or `stop`, or finished. -/
inductive WorkerPc (τ : Type)
  | popping
  | collecting (trace : τ) (collector : Nat)
  | stopping (collector : Nat)
  | finished

/-- The main thread in the `at_exit` block, statement by statement. -/
inductive MainPc
  | joining (thread : Nat)
  | closingServer | testingQueue | closingQueue | unlinking | joiningWorker | done
  deriving DecidableEq

/-- The agent at shutdown with `n` connection threads. `pushed`, `collected` and
`stopped` record what was pushed and what each collector has been given. -/
structure Agent (n : Nat) (τ : Type) where
  connections : Fin n → ConnectionThread τ
  queue : List τ := []
  closed : Bool := false
  worker : WorkerPc τ := .popping
  main : MainPc := .joining 0
  pushed : List τ := []
  collected : Nat → List τ := fun _ => []
  stopped : Nat → Bool := fun _ => false

section
variable {n : Nat} {τ : Type}

def Agent.setConnection (s : Agent n τ) (i : Fin n) (c : ConnectionThread τ) : Agent n τ :=
  { s with connections := Function.update s.connections i c }

/-- One step of one thread, with `c` collectors. `pop` blocks on an open empty
queue and returns nil on a closed empty one. -/
inductive Step (c : Nat) : Agent n τ → Agent n τ → Prop
  | push {s i trace traces} : s.connections i = ⟨trace :: traces, false⟩ →
      Step c s { s.setConnection i ⟨traces, false⟩ with
        queue := s.queue ++ [trace], pushed := s.pushed ++ [trace] }
  | hangUp {s i} : s.connections i = ⟨[], false⟩ → Step c s (s.setConnection i ⟨[], true⟩)
  | pop {s trace queue} : s.worker = .popping → s.queue = trace :: queue →
      Step c s { s with queue := queue, worker := .collecting trace 0 }
  | popNil {s} : s.worker = .popping → s.queue = [] → s.closed = true →
      Step c s { s with worker := .stopping 0 }
  | collect {s trace k} : s.worker = .collecting trace k → k < c →
      Step c s { s with
        collected := Function.update s.collected k (s.collected k ++ [trace])
        worker := .collecting trace (k + 1) }
  | collectedAll {s trace} : s.worker = .collecting trace c → Step c s { s with worker := .popping }
  | stop {s k} : s.worker = .stopping k → k < c →
      Step c s { s with stopped := Function.update s.stopped k true, worker := .stopping (k + 1) }
  | stoppedAll {s} : s.worker = .stopping c → Step c s { s with worker := .finished }
  | join {s k} (bound : k < n) : s.main = .joining k → (s.connections ⟨k, bound⟩).returned = true →
      Step c s { s with main := .joining (k + 1) }
  | joinedAll {s} : s.main = .joining n → Step c s { s with main := .closingServer }
  | closeServer {s} : s.main = .closingServer → Step c s { s with main := .testingQueue }
  | queueEmpty {s} : s.main = .testingQueue → s.queue = [] → Step c s { s with main := .closingQueue }
  | queueNotEmpty {s} : s.main = .testingQueue → s.queue ≠ [] → Step c s { s with main := .unlinking }
  | closeQueue {s} : s.main = .closingQueue → Step c s { s with closed := true, main := .unlinking }
  | unlink {s} : s.main = .unlinking → Step c s { s with main := .joiningWorker }
  | joinWorker {s} : s.main = .joiningWorker → s.worker = .finished → Step c s { s with main := .done }

/-- The worker has passed every pushed trace to every collector and has called
stop on every collector. -/
structure Drained (c : Nat) (s : Agent n τ) : Prop where
  collected : ∀ k < c, s.collected k = s.pushed
  stopped : ∀ k < c, s.stopped k = true

/-- Some thread can step, or the agent is drained. -/
def NotStuck (c : Nat) (s : Agent n τ) : Prop :=
  (∃ s', Step c s s') ∨ Drained c s

/-- The condition on a step: the main thread tests the queue only when the
worker has emptied it. -/
def DrainedAtTest (s s' : Agent n τ) : Prop :=
  s.main = .testingQueue → s'.main ≠ .testingQueue → s.queue = []

/-- How many connection threads the main thread has joined. -/
def MainPc.joined (n : Nat) : MainPc → Nat
  | .joining k => k
  | _ => n

/-- The main thread is past the test and the close. -/
def MainPc.PastClose : MainPc → Prop
  | .unlinking | .joiningWorker | .done => True
  | _ => False

/-- Where the pushed traces are, for each position of the worker. -/
def WorkerAccounts (c : Nat) (s : Agent n τ) : Prop :=
  match s.worker with
  | .popping => ∀ j < c, s.collected j ++ s.queue = s.pushed
  | .collecting trace k => k ≤ c ∧ (∀ j < k, s.collected j ++ s.queue = s.pushed) ∧
      ∀ j < c, k ≤ j → s.collected j ++ trace :: s.queue = s.pushed
  | .stopping k => k ≤ c ∧ s.queue = [] ∧ s.closed = true ∧ (∀ j < c, s.collected j = s.pushed) ∧
      ∀ j < k, s.stopped j = true
  | .finished => s.queue = [] ∧ s.closed = true ∧ (∀ j < c, s.collected j = s.pushed) ∧
      ∀ j < c, s.stopped j = true

structure Invariant (c : Nat) (s : Agent n τ) : Prop where
  bound : s.main.joined n ≤ n
  joined : ∀ i : Fin n, i.val < s.main.joined n → (s.connections i).returned = true
  closed : s.main.PastClose → s.closed = true
  closedLate : s.closed = true → ∀ i, (s.connections i).returned = true
  accounts : WorkerAccounts c s

theorem Step.joined {c : Nat} {s s' : Agent n τ} (step : Step c s s')
    (bound : s.main.joined n ≤ n)
    (joined : ∀ i : Fin n, i.val < s.main.joined n → (s.connections i).returned = true) :
    s'.main.joined n ≤ n ∧ ∀ i : Fin n, i.val < s'.main.joined n → (s'.connections i).returned = true := by
  cases step with
  | @push i trace traces atI =>
    refine ⟨bound, fun j before => ?_⟩
    by_cases same : j = i
    · subst same
      have returned := joined j before
      rw [atI] at returned
      cases returned
    · simpa [Agent.setConnection, same] using joined j before
  | @hangUp i atI =>
    refine ⟨bound, fun j before => ?_⟩
    by_cases same : j = i
    · subst same
      simp [Agent.setConnection]
    · simpa [Agent.setConnection, same] using joined j before
  | @join k inRange atMain returned =>
    rw [atMain] at joined
    refine ⟨inRange, fun i before => ?_⟩
    rcases Nat.lt_succ_iff_lt_or_eq.mp before with earlier | rfl
    · exact joined i earlier
    · exact returned
  | joinedAll atMain | closeServer atMain | queueEmpty atMain | queueNotEmpty atMain | closeQueue atMain
  | unlink atMain | joinWorker atMain =>
    rw [atMain] at joined
    exact ⟨Nat.le_refl n, joined⟩
  | _ => exact ⟨bound, joined⟩

/-- The queue is closed after all connection threads have returned. -/
theorem not_closed_of_running {s : Agent n τ} (closedLate : s.closed = true → ∀ i, (s.connections i).returned = true)
    {i : Fin n} {traces : List τ} (atI : s.connections i = ⟨traces, false⟩) : s.closed ≠ true := by
  intro closed
  have returned := closedLate closed i
  rw [atI] at returned
  cases returned

/-- A push extends both sides of every account. It cannot happen behind a
closed queue, since the queue is closed after all threads have returned. -/
theorem accounts_push {c : Nat} {s : Agent n τ} {i : Fin n} {trace : τ} {traces : List τ}
    (accounts : WorkerAccounts c s) (closedLate : s.closed = true → ∀ i, (s.connections i).returned = true)
    (atI : s.connections i = ⟨trace :: traces, false⟩) :
    WorkerAccounts c { s.setConnection i ⟨traces, false⟩ with
      queue := s.queue ++ [trace], pushed := s.pushed ++ [trace] } := by
  have late := not_closed_of_running closedLate atI
  unfold WorkerAccounts at accounts ⊢
  cases worker : s.worker with
  | popping =>
    simp only [worker, Agent.setConnection] at accounts ⊢
    intro j inRange
    rw [← List.append_assoc, accounts j inRange]
  | collecting current k =>
    simp only [worker, Agent.setConnection] at accounts ⊢
    refine ⟨accounts.1, fun j before => ?_, fun j inRange after => ?_⟩
    · rw [← List.append_assoc, accounts.2.1 j before]
    · rw [← accounts.2.2 j inRange after, List.append_assoc, List.cons_append]
  | stopping k => simp only [worker] at accounts; exact absurd accounts.2.2.1 late
  | finished => simp only [worker] at accounts; exact absurd accounts.2.1 late

theorem accounts_collect {c k : Nat} {s : Agent n τ} {trace : τ} (accounts : WorkerAccounts c s)
    (worker : s.worker = .collecting trace k) (inRange : k < c) :
    WorkerAccounts c { s with
      collected := Function.update s.collected k (s.collected k ++ [trace])
      worker := .collecting trace (k + 1) } := by
  simp only [WorkerAccounts, worker] at accounts ⊢
  obtain ⟨_, before, after⟩ := accounts
  refine ⟨inRange, fun j early => ?_, fun j late beyond => ?_⟩
  · by_cases same : j = k
    · subst same
      rw [Function.update_self, List.append_assoc, List.singleton_append]
      exact after j inRange le_rfl
    · rw [Function.update_of_ne same]
      exact before j (by omega)
  · rw [Function.update_of_ne (by omega)]
    exact after j late (by omega)

theorem Step.accounts {c : Nat} {s s' : Agent n τ} (step : Step c s s') (accounts : WorkerAccounts c s)
    (closedLate : s.closed = true → ∀ i, (s.connections i).returned = true) : WorkerAccounts c s' := by
  cases step with
  | push atI => exact accounts_push accounts closedLate atI
  | pop worker atQueue =>
    simp only [WorkerAccounts, worker, atQueue] at accounts ⊢
    exact ⟨Nat.zero_le c, fun j none => absurd none (Nat.not_lt_zero j), fun j inRange _ => accounts j inRange⟩
  | popNil worker empty closed =>
    simp only [WorkerAccounts, worker, empty, List.append_nil] at accounts ⊢
    exact ⟨Nat.zero_le c, trivial, closed, accounts, fun j none => absurd none (Nat.not_lt_zero j)⟩
  | collect worker inRange => exact accounts_collect accounts worker inRange
  | collectedAll worker =>
    simp only [WorkerAccounts, worker] at accounts ⊢
    exact accounts.2.1
  | @stop k worker inRange =>
    simp only [WorkerAccounts, worker] at accounts ⊢
    obtain ⟨_, empty, closed, collected, stopped⟩ := accounts
    refine ⟨inRange, empty, closed, collected, fun j before => ?_⟩
    by_cases same : j = k
    · rw [same, Function.update_self]
    · rw [Function.update_of_ne same]
      exact stopped j (by omega)
  | stoppedAll worker =>
    simp only [WorkerAccounts, worker] at accounts ⊢
    exact accounts.2
  | closeQueue atMain =>
    unfold WorkerAccounts at accounts ⊢
    cases worker : s.worker <;> simp only [worker] at accounts ⊢ <;> simp_all
  | _ => exact accounts

/-- Under the condition the queue is closed before the main thread goes on. -/
theorem Step.closed {c : Nat} {s s' : Agent n τ} (step : Step c s s') (drained : DrainedAtTest s s')
    (closed : s.main.PastClose → s.closed = true) : s'.main.PastClose → s'.closed = true := by
  cases step with
  | queueNotEmpty atMain nonempty => exact absurd (drained atMain (by simp)) nonempty
  | closeQueue => exact fun _ => rfl
  | unlink atMain | joinWorker atMain => exact fun _ => closed (by rw [atMain]; trivial)
  | join | joinedAll | closeServer | queueEmpty => exact fun past => past.elim
  | _ => exact closed

theorem Step.closedLate {c : Nat} {s s' : Agent n τ} (step : Step c s s')
    (joined : ∀ i : Fin n, i.val < s.main.joined n → (s.connections i).returned = true)
    (closedLate : s.closed = true → ∀ i, (s.connections i).returned = true) :
    s'.closed = true → ∀ i, (s'.connections i).returned = true := by
  cases step with
  | push atI | hangUp atI =>
    have late : s.closed ≠ true := not_closed_of_running closedLate atI
    exact fun closed => absurd closed late
  | closeQueue atMain =>
    rw [atMain] at joined
    exact fun _ i => joined i i.isLt
  | _ => exact closedLate

theorem Invariant.step {c : Nat} {s s' : Agent n τ} (inv : Invariant c s)
    (step : Guarded (Step c) DrainedAtTest s s') : Invariant c s' where
  bound := (step.1.joined inv.bound inv.joined).1
  joined := (step.1.joined inv.bound inv.joined).2
  closed := step.1.closed step.2 inv.closed
  closedLate := step.1.closedLate inv.joined inv.closedLate
  accounts := step.1.accounts inv.accounts inv.closedLate

/-- The agent when the exit begins: every connection has its traces still to push. -/
def initial (traces : Fin n → List τ) : Agent n τ :=
  { connections := fun i => ⟨traces i, false⟩ }

theorem Invariant.initial (c : Nat) (traces : Fin n → List τ) : Invariant c (initial traces) where
  bound := Nat.zero_le n
  joined := fun i before => absurd before (Nat.not_lt_zero i)
  closed := fun past => past.elim
  closedLate := fun closed => by cases closed
  accounts := fun _ _ => rfl

theorem thread_steps (c : Nat) (s : Agent n τ) {i : Fin n} (running : (s.connections i).returned = false) :
    ∃ s', Step c s s' ∧ s'.main = s.main := by
  rcases atI : s.connections i with ⟨traces, returned⟩
  rw [atI] at running
  cases running
  cases traces with
  | nil => exact ⟨_, .hangUp atI, rfl⟩
  | cons trace traces => exact ⟨_, .push atI, rfl⟩

/-- Before the close, the main thread or the thread it waits for can step. -/
theorem main_steps {c : Nat} {s : Agent n τ} (inv : Invariant c s) (early : s.closed = false)
    (empty : s.queue = []) : ∃ s', Guarded (Step c) DrainedAtTest s s' := by
  have ready (s' : Agent n τ) (step : Step c s s') : Guarded (Step c) DrainedAtTest s s' :=
    ⟨step, fun _ _ => empty⟩
  have open_queue : ¬ s.main.PastClose := fun past => by
    rw [inv.closed past] at early
    cases early
  cases atMain : s.main with
  | joining k =>
    have bound := inv.bound
    rw [atMain] at bound
    by_cases last : k = n
    · subst last
      exact ⟨_, ready _ (.joinedAll atMain)⟩
    · have inRange : k < n := Nat.lt_of_le_of_ne bound last
      cases returned : (s.connections ⟨k, inRange⟩).returned with
      | true => exact ⟨_, ready _ (.join inRange atMain returned)⟩
      | false =>
        obtain ⟨s', step, _⟩ := thread_steps c s returned
        exact ⟨s', ready s' step⟩
  | closingServer => exact ⟨_, ready _ (.closeServer atMain)⟩
  | testingQueue => exact ⟨_, ready _ (.queueEmpty atMain empty)⟩
  | closingQueue => exact ⟨_, ready _ (.closeQueue atMain)⟩
  | unlinking | joiningWorker | done => exact absurd (by rw [atMain]; trivial) open_queue

/-- Steps of the worker never touch the main thread, so they meet the condition. -/
theorem worker_guarded {c : Nat} {s s' : Agent n τ} (step : Step c s s') (same : s'.main = s.main) :
    Guarded (Step c) DrainedAtTest s s' :=
  ⟨step, fun testing moved => absurd (same.trans testing) moved⟩

theorem Invariant.guarded_notStuck {c : Nat} {s : Agent n τ} (inv : Invariant c s) :
    (∃ s', Guarded (Step c) DrainedAtTest s s') ∨ (Drained c s ∧ s.closed = true) := by
  have accounts := inv.accounts
  cases worker : s.worker with
  | popping =>
    cases atQueue : s.queue with
    | cons trace queue => exact .inl ⟨_, worker_guarded (.pop worker atQueue) rfl⟩
    | nil =>
      cases closed : s.closed with
      | true => exact .inl ⟨_, worker_guarded (.popNil worker atQueue closed) rfl⟩
      | false => exact .inl (main_steps inv closed atQueue)
  | collecting trace k =>
    simp only [WorkerAccounts, worker] at accounts
    by_cases last : k = c
    · subst last
      exact .inl ⟨_, worker_guarded (.collectedAll worker) rfl⟩
    · exact .inl ⟨_, worker_guarded (.collect worker (Nat.lt_of_le_of_ne accounts.1 last)) rfl⟩
  | stopping k =>
    simp only [WorkerAccounts, worker] at accounts
    by_cases last : k = c
    · subst last
      exact .inl ⟨_, worker_guarded (.stoppedAll worker) rfl⟩
    · exact .inl ⟨_, worker_guarded (.stop worker (Nat.lt_of_le_of_ne accounts.1 last)) rfl⟩
  | finished =>
    simp only [WorkerAccounts, worker] at accounts
    exact .inr ⟨⟨accounts.2.2.1, accounts.2.2.2⟩, accounts.2.1⟩

/-- In every run in which the main thread tests the queue only when the worker
has emptied it, no state is stuck before the agent is drained. -/
theorem notStuck_of_drainedAtTest (c : Nat) (traces : Fin n → List τ) {s : Agent n τ}
    (run : Run (Guarded (Step c) DrainedAtTest) (initial traces) s) : NotStuck c s := by
  have inv := run.invariant (fun _ _ inv step => Invariant.step inv step) (Invariant.initial c traces)
  exact inv.guarded_notStuck.imp (fun ⟨s', step⟩ => ⟨s', step.1⟩) And.left

/-! Every step uses up work: a trace in a connection thread is worth more than
in the queue, and in the queue more than the `c` calls of `collect` it costs. -/

def ConnectionThread.work (c : Nat) (t : ConnectionThread τ) : Nat :=
  t.traces.length * (c + 3) + if t.returned then 0 else 1

def WorkerPc.work (c : Nat) : WorkerPc τ → Nat
  | .popping => c + 2
  | .collecting _ k => c + 2 + (c - k + 1)
  | .stopping k => c - k + 1
  | .finished => 0

def MainPc.work (n : Nat) : MainPc → Nat
  | .joining k => n - k + 6
  | .closingServer => 5
  | .testingQueue => 4
  | .closingQueue => 3
  | .unlinking => 2
  | .joiningWorker => 1
  | .done => 0

def Agent.work (c : Nat) (s : Agent n τ) : Nat :=
  ∑ i, (s.connections i).work c + s.queue.length * (c + 2) + s.worker.work c + s.main.work n

theorem work_setConnection (c : Nat) (s : Agent n τ) (i : Fin n) (t : ConnectionThread τ) :
    ∑ j, ((s.setConnection i t).connections j).work c + (s.connections i).work c =
      ∑ j, (s.connections j).work c + t.work c := by
  have others : ∀ j ∈ Finset.univ.erase i,
      ((s.setConnection i t).connections j).work c = (s.connections j).work c := by
    intro j member
    simp only [Agent.setConnection, Function.update_of_ne (Finset.ne_of_mem_erase member)]
  rw [← Finset.add_sum_erase _ _ (Finset.mem_univ i), Finset.sum_congr rfl others,
    ← Finset.add_sum_erase _ (fun j => (s.connections j).work c) (Finset.mem_univ i)]
  simp only [Agent.setConnection, Function.update_self]
  omega

theorem Step.work_decreases {c : Nat} {s s' : Agent n τ} (step : Step c s s') :
    s'.work c < s.work c := by
  cases step with
  | @push i trace traces atI =>
    have moved := work_setConnection c s i ⟨traces, false⟩
    rw [atI] at moved
    simp only [Agent.work, List.length_append, List.length_singleton, Nat.add_mul]
    simp only [ConnectionThread.work, List.length_cons, Nat.add_mul] at moved ⊢
    simp only [Agent.setConnection] at moved ⊢
    omega
  | @hangUp i atI =>
    have moved := work_setConnection c s i ⟨[], true⟩
    rw [atI] at moved
    simp only [Agent.work, ConnectionThread.work, Agent.setConnection, if_true, reduceCtorEq, if_false] at moved ⊢
    omega
  | pop worker atQueue =>
    simp only [Agent.work, worker, atQueue, WorkerPc.work, List.length_cons, Nat.add_mul]
    omega
  | popNil worker | collect worker | collectedAll worker | stop worker | stoppedAll worker =>
    simp only [Agent.work, worker, WorkerPc.work]
    omega
  | join inRange atMain =>
    simp only [Agent.work, atMain, MainPc.work]
    omega
  | joinedAll atMain | closeServer atMain | queueEmpty atMain | queueNotEmpty atMain | closeQueue atMain
  | unlink atMain | joinWorker atMain =>
    simp only [Agent.work, atMain, MainPc.work]
    omega

/-- Shutdown drains and terminates: under the condition every state leads into
a drained one, in which all connection threads have returned. -/
theorem drainedAtTest_terminates (c : Nat) (traces : Fin n → List τ) {s : Agent n τ}
    (run : Run (Guarded (Step c) DrainedAtTest) (initial traces) s) :
    ∃ s', Run (Guarded (Step c) DrainedAtTest) s s' ∧ Drained c s' ∧ ∀ i, (s'.connections i).returned = true := by
  have inv := run.invariant (fun _ _ inv step => Invariant.step inv step) (Invariant.initial c traces)
  obtain ⟨s', later, stuck⟩ := exists_run_to_stuck (fun _ _ inv step => Invariant.step inv step)
    (Agent.work c) (fun _ _ _ step => step.1.work_decreases) s inv
  have inv' := later.invariant (fun _ _ inv step => Invariant.step inv step) inv
  obtain ⟨drained, closed⟩ := inv'.guarded_notStuck.resolve_left stuck
  exact ⟨s', later, drained, inv'.closedLate closed⟩

end

/-- One connection with one trace and one collector, drained before the test. -/
theorem notStuck_after_drain : ∃ s : Agent 1 Unit, s.main = .unlinking ∧ s.pushed = [()] ∧ NotStuck 1 s := by
  refine ⟨_, ?_, ?_, notStuck_of_drainedAtTest 1 (fun _ => [()]) (.head ⟨.push (i := 0) rfl, ?_⟩ <|
    .head ⟨.pop rfl rfl, ?_⟩ <| .head ⟨.collect rfl Nat.one_pos, ?_⟩ <| .head ⟨.collectedAll rfl, ?_⟩ <|
    .head ⟨.hangUp (i := 0) rfl, ?_⟩ <| .head ⟨.join Nat.one_pos rfl rfl, ?_⟩ <|
    .head ⟨.joinedAll rfl, ?_⟩ <| .head ⟨.closeServer rfl, ?_⟩ <| .head ⟨.queueEmpty rfl rfl, ?_⟩ <|
    .head ⟨.closeQueue rfl, ?_⟩ .refl)⟩ <;> simp [DrainedAtTest, Agent.setConnection, initial]

/-- One connection with one trace and one collector: the main thread tests the
queue before the worker has popped the trace, and leaves it open. -/
theorem stuck_after_early_test : ∃ s : Agent 1 Unit, Run (Step 1) (initial fun _ => [()]) s ∧ ¬ NotStuck 1 s := by
  refine ⟨_, .head (.push (i := 0) rfl) <| .head (.hangUp (i := 0) rfl) <|
    .head (.join Nat.one_pos rfl rfl) <| .head (.joinedAll rfl) <| .head (.closeServer rfl) <|
    .head (.queueNotEmpty rfl (by simp [initial, Agent.setConnection])) <| .head (.unlink rfl) <|
    .head (.pop rfl rfl) <| .head (.collect rfl Nat.one_pos) <| .head (.collectedAll rfl) .refl, ?_⟩
  rintro (⟨s', step⟩ | drained)
  · cases step with
    | @push i _ _ atI | @hangUp i atI =>
      rw [Fin.eq_zero i] at atI
      simp [initial, Agent.setConnection] at atI
    | _ => simp_all [initial, Agent.setConnection]
  · have stopped := drained.stopped 0 Nat.one_pos
    cases stopped

end Racer.Shutdown
