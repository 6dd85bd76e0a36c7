import Mathlib.Tactic.FinCases
import Racer.Agent.Shutdown
import Racer.Collectors.Collected

namespace Racer.Connections
open Announcements Transition Shutdown

/-! The traces of several connections on their way into the collectors. -/

/-- Clients that send their traces over `n` connections. `earlier i` are the
connections that the process of connection `i`, or one it was forked from, had ended
before; what was announced there is not announced again. -/
structure Clients (n : Nat) where
  traces : Fin n → List Trace
  earlier : Fin n → List (Fin n)
  before : ∀ i, ∀ j ∈ earlier i, j < i
  announced : ∀ i sent t rest, traces i = sent ++ t :: rest → ∀ name ∈ t.uses,
    (∃ u ∈ sent ++ [t], name ∈ u.announces) ∨ ∃ j ∈ earlier i, ∃ u ∈ traces j, name ∈ u.announces

section
variable {n : Nat}

/-- A connection thread pushes a trace only when the threads of the earlier
connections of its client have pushed all of theirs. -/
def InTurn (clients : Clients n) (s s' : Agent n Trace) : Prop :=
  ∀ i, (s'.connections i).traces ≠ (s.connections i).traces →
    ∀ j ∈ clients.earlier i, (s.connections j).traces = []

/-- Threads push in the order of their connection, and every collector is given
what has been pushed in that order. -/
structure Invariant (clients : Clients n) (c : Nat) (s : Agent n Trace) : Prop where
  bound : s.main.joined n ≤ n
  joined : ∀ i : Fin n, i.val < s.main.joined n → (s.connections i).returned = true
  closedLate : s.closed = true → ∀ i, (s.connections i).returned = true
  accounts : WorkerAccounts c s
  sent : ∀ i, ∃ sent, clients.traces i = sent ++ (s.connections i).traces ∧ ∀ t ∈ sent, t ∈ s.pushed
  members : ∀ t ∈ s.pushed, ∃ i, t ∈ clients.traces i
  ordered : Ordered Trace.announces Trace.uses s.pushed

theorem Invariant.init (clients : Clients n) (c : Nat) : Invariant clients c (initial clients.traces) :=
  { bound      := Nat.zero_le n
    joined     := fun _ early => absurd early (Nat.not_lt_zero _)
    closedLate := nofun
    accounts   := fun _ _ => rfl
    sent       := fun _ => ⟨[], rfl, nofun⟩
    members    := nofun
    ordered    := .nil }

/-- What the thread of connection `i` pushes next has been announced. -/
theorem Invariant.announced {clients : Clients n} {c : Nat} {s : Agent n Trace} (inv : Invariant clients c s)
    {i : Fin n} {t : Trace} {rest : List Trace} (atI : s.connections i = ⟨t :: rest, false⟩)
    (finished : ∀ j ∈ clients.earlier i, (s.connections j).traces = []) :
    ∀ name ∈ t.uses, ∃ u ∈ s.pushed ++ [t], name ∈ u.announces := by
  intro name used
  obtain ⟨sent, split, pushed⟩ := inv.sent i
  rw [atI] at split
  rcases clients.announced i sent t rest split name used with ⟨u, member, announces⟩ | ⟨j, early, u, member, announces⟩
  · refine ⟨u, ?_, announces⟩
    rcases List.mem_append.mp member with old | new
    · exact List.mem_append_left _ (pushed u old)
    · exact List.mem_append_right _ new
  · obtain ⟨all, whole, done⟩ := inv.sent j
    rw [finished j early, List.append_nil] at whole
    rw [whole] at member
    exact ⟨u, List.mem_append_left _ (done u member), announces⟩

theorem Invariant.step {clients : Clients n} {c : Nat} {s s' : Agent n Trace} (inv : Invariant clients c s)
    (step : Guarded (Step c) (InTurn clients) s s') : Invariant clients c s' := by
  obtain ⟨step, inTurn⟩ := step
  have threads := step.joined inv.bound inv.joined
  have closedLate := step.closedLate inv.joined inv.closedLate
  have accounts := step.accounts inv.accounts inv.closedLate
  cases step with
  | @push i t rest atI =>
    have finished : ∀ j ∈ clients.earlier i, (s.connections j).traces = [] := by
      refine inTurn i ?_
      simp [Agent.setConnection, atI]
    refine ⟨threads.1, threads.2, closedLate, accounts, fun j => ?_, fun u member => ?_,
      inv.ordered.snoc (inv.announced atI finished)⟩
    · obtain ⟨sent, split, pushed⟩ := inv.sent j
      by_cases same : j = i
      · subst same
        refine ⟨sent ++ [t], ?_, fun u member => ?_⟩
        · simp [Agent.setConnection, split, atI]
        · rcases List.mem_append.mp member with old | new
          · exact List.mem_append_left _ (pushed u old)
          · exact List.mem_append_right _ new
      · refine ⟨sent, ?_, fun u member => List.mem_append_left _ (pushed u member)⟩
        simp only [Agent.setConnection, Function.update_of_ne same]
        exact split
    · rcases List.mem_append.mp member with old | new
      · exact inv.members u old
      · obtain ⟨sent, split, _⟩ := inv.sent i
        rw [List.mem_singleton.mp new]
        exact ⟨i, by simp [split, atI]⟩
  | @hangUp i atI =>
    refine ⟨threads.1, threads.2, closedLate, accounts, fun j => ?_, inv.members, inv.ordered⟩
    obtain ⟨sent, split, pushed⟩ := inv.sent j
    refine ⟨sent, ?_, pushed⟩
    by_cases same : j = i
    · subst same
      simpa [Agent.setConnection, atI] using split
    · simp only [Agent.setConnection, Function.update_of_ne same]
      exact split
  | _ => exact ⟨threads.1, threads.2, closedLate, accounts, inv.sent, inv.members, inv.ordered⟩

/-- Every collector has been given the first traces of the pushed ones. -/
theorem collected_prefix {c k : Nat} {s : Agent n Trace} (accounts : WorkerAccounts c s) (collector : k < c) :
    ∃ rest, s.pushed = s.collected k ++ rest := by
  unfold WorkerAccounts at accounts
  cases worker : s.worker with
  | popping =>
    rw [worker] at accounts
    exact ⟨s.queue, (accounts k collector).symm⟩
  | collecting t i =>
    rw [worker] at accounts
    obtain ⟨_, given, waiting⟩ := accounts
    by_cases early : k < i
    · exact ⟨s.queue, (given k early).symm⟩
    · exact ⟨t :: s.queue, (waiting k collector (Nat.le_of_not_lt early)).symm⟩
  | stopping i =>
    rw [worker] at accounts
    exact ⟨[], by rw [List.append_nil, accounts.2.2.2.1 k collector]⟩
  | finished =>
    rw [worker] at accounts
    exact ⟨[], by rw [List.append_nil, accounts.2.2.1 k collector]⟩

/-- As long as the threads of a client push in turn, every trace that a collector is
given comes after the announcement of its owner, and `collect` finds that owner. -/
theorem owner_announced_before_collect (env : Environment) (clients : Clients n)
    (valid : ∀ i, ∀ t ∈ clients.traces i, NamesValid env t) {c k : Nat} (collector : k < c) {s : Agent n Trace}
    (run : Run (Guarded (Step c) (InTurn clients)) (initial clients.traces) s) :
    Ordered Trace.announces Trace.uses (s.collected k) ∧ ∃ r, collectAll env (s.collected k) = .ok r := by
  have inv : Invariant clients c s := run.invariant (fun a b inv step => inv.step step) (.init clients c)
  obtain ⟨rest, whole⟩ := collected_prefix inv.accounts collector
  have ordered : Ordered Trace.announces Trace.uses (s.collected k) := by
    have pushed := inv.ordered
    rw [whole] at pushed
    exact pushed.prefix
  refine ⟨ordered, collectAll_total (fun t member => ?_) ordered⟩
  obtain ⟨i, sent⟩ := inv.members t (by rw [whole]; exact List.mem_append_left _ member)
  exact valid i t sent

end

/-- No signatures are loaded, and only ASCII letters have a case. -/
def noSignatures : Environment where
  classDecls _ := none
  methods _ _ _ := false
  implementedIn _ _ _ := false
  interfaceMethods _ := []
  upcase c := c.toUpper.toString
  downcase c := c.toLower.toString

/-- A call of `A#name` that returns nil and announces `constantUpdates`. -/
def traceOf (name : String) (constantUpdates : List Constant) : Trace where
  methodOwner := { name := "A" }
  methodCallee := none
  methodName := name
  methodKind := .INSTANCE
  methodVisibility := .PUBLIC
  returnType := { name := "NilClass" }
  params := []
  blockParam := none
  constantUpdates := constantUpdates

/-- A client that ends one connection and opens another. -/
def reconnected : Clients 2 where
  traces i := if i = 0 then [traceOf "first" [{ name := "A", type := .CLASS }]] else [traceOf "second" []]
  earlier i := if i = 0 then [] else [0]
  before := by decide
  announced := by
    intro i sent t rest split name used
    rcases sent with _ | ⟨u, sent⟩
    · by_cases first : i = 0
      · simp only [first, if_true, List.nil_append, List.cons.injEq] at split
        rw [← split.1] at used
        rw [List.mem_singleton.mp used]
        exact .inl ⟨t, List.mem_singleton_self t, by rw [← split.1]; decide⟩
      · simp only [first, if_false, List.nil_append, List.cons.injEq] at split
        rw [← split.1] at used
        rw [List.mem_singleton.mp used]
        simp only [first, if_false]
        exact .inr ⟨0, List.mem_singleton_self 0, _, List.mem_singleton_self _, by decide⟩
    · split at split <;> simp at split

theorem reconnected_valid : ∀ i, ∀ t ∈ reconnected.traces i, NamesValid noSignatures t := by
  intro i t member
  have names : validName noSignatures "A" = .ok "A" := by decide +kernel
  have constant : ensureValidNames noSignatures { name := "A", type := .CLASS } =
      .ok { name := "A", type := .CLASS } := by
    decide +kernel
  by_cases first : i = 0
  · simp only [reconnected, first, if_true, List.mem_singleton] at member
    subst member
    refine ⟨fun c update => ?_, names⟩
    rw [List.mem_singleton.mp update]
    exact ⟨_, constant⟩
  · simp only [reconnected, first, if_false, List.mem_singleton] at member
    subst member
    exact ⟨nofun, names⟩

theorem collect_second : collectAll noSignatures [traceOf "second" []] = .error .NoMethodError := by
  have valid : validMethodName (traceOf "second" []).methodName = true := by decide +kernel
  have filed : RBSCollector.file {} (traceOf "second" []) = .error .NoMethodError := by
    rw [RBSCollector.file, if_pos valid]
    rfl
  rw [collectAll, List.foldlM_cons, RBSCollector.collect]
  simp only [traceOf, List.foldlM_nil] at filed ⊢
  exact congrArg (· >>= _) filed

/-- The thread of the second connection is the first to push. -/
theorem owner_unknown_after_reconnect : ∃ s : Agent 2 Trace, Run (Step 1) (initial reconnected.traces) s ∧
    ¬ Ordered Trace.announces Trace.uses (s.collected 0) ∧
      collectAll noSignatures (s.collected 0) = .error .NoMethodError := by
  refine ⟨_, .head (.push (i := 1) rfl) <| .head (.pop rfl rfl) <| .head (.collect rfl Nat.one_pos) .refl, ?_, ?_⟩
  · intro ordered
    obtain ⟨u, member, announces⟩ := ordered [] (traceOf "second" []) [] rfl "A" List.mem_cons_self
    rw [List.nil_append, List.mem_singleton] at member
    rw [member] at announces
    cases announces
  · exact collect_second

/-- Both connections push in turn. -/
theorem owner_announced_in_turn : ∃ s : Agent 2 Trace, (s.collected 0).length = 2 ∧
    Ordered Trace.announces Trace.uses (s.collected 0) ∧
      ∃ r, collectAll noSignatures (s.collected 0) = .ok r := by
  refine ⟨_, ?_, owner_announced_before_collect noSignatures reconnected reconnected_valid Nat.one_pos
    (.head ⟨.push (i := 0) rfl, ?_⟩ <| .head ⟨.push (i := 1) rfl, ?_⟩ <| .head ⟨.pop rfl rfl, ?_⟩ <|
      .head ⟨.collect rfl Nat.one_pos, ?_⟩ <| .head ⟨.collectedAll rfl, ?_⟩ <| .head ⟨.pop rfl rfl, ?_⟩ <|
      .head ⟨.collect rfl Nat.one_pos, ?_⟩ .refl)⟩
  · rfl
  all_goals
    intro i moved j early
    fin_cases i <;> simp_all [reconnected, initial, Agent.setConnection]

end Racer.Connections
