import Mathlib.Data.List.Nodup
import Racer.Agent.WorkerLoop
import Racer.Library.Transition

namespace Racer.Accepting
open Transition Delimited

/-! The accept loop of the agent, and the signal that ends it. -/

/-- A client: the traces it has written to its socket, the bytes they make up, and
whether its flush has sent the stop message and closed the socket. -/
structure Client (τ : Type) where
  traces : List τ := []
  written : Bytes := []
  closed : Bool := false

/-- A connection thread in `worker_loop`, and how many bytes it has read. -/
structure Thread where
  connection : Nat
  received : Nat := 0
  pendingMessage : Option Bytes := none
  status : Status := .running

/-- The main thread: in `@server.accept`, in front of `Thread.new`, in front of the
append to `@agent_threads`, or in the `at_exit` block, where it joins them in order. -/
inductive MainPc
  | accepting
  | starting (connection : Nat)
  | recording (thread : Nat)
  | joining (k : Nat)

/-- The agent and its clients. `queue` are the traces pushed to `@queue` with their
connections, and `hup` is the number of clients when the signal was sent. -/
structure Agent (τ : Type) where
  clients : List (Client τ) := []
  backlog : List Nat := []
  main : MainPc := .accepting
  threads : List Thread := []
  agentThreads : List Nat := []
  queue : List (Nat × τ) := []
  hup : Option Nat := none

/-- The connection that `accept` has returned, as long as no thread has it. -/
def MainPc.held : MainPc → List Nat
  | .starting j => [j]
  | _ => []

def MainPc.joined : MainPc → Option Nat
  | .joining k => some k
  | _ => none

section
variable {τ : Type}

def Client.send (bytes : Bytes) (c : Client τ) : Client τ :=
  { c with written := c.written ++ bytes ++ [nul] }

/-- One iteration of `worker_loop`, and the traces it pushes. -/
def Thread.read (decode : Bytes → Option τ) (t : Thread) (chunk : Bytes) : Thread × List τ :=
  let w := iteration decode { unread := [chunk], pendingMessage := t.pendingMessage, status := t.status }
  ({ t with received := t.received + chunk.length, pendingMessage := w.pendingMessage, status := w.status }, w.queue)

/-- One step of a client, of the main thread or of a connection thread. A `connect`
succeeds when the connection is in the backlog, a read takes any part of what has
been written, and the signal is sent after all flushes up to then. The handler of
the signal leaves the loop wherever it is. -/
inductive Step (decode : Bytes → Option τ) : Agent τ → Agent τ → Prop
  | connect {s} : Step decode s { s with clients := s.clients ++ [{}], backlog := s.backlog ++ [s.clients.length] }
  | send {s j c} (message : Bytes) {trace} : s.clients[j]? = some c → c.closed = false → decode message = some trace →
      message ≠ [] → nul ∉ message → message ≠ stop →
      Step decode s { s with clients := s.clients.set j { c.send message with traces := c.traces ++ [trace] } }
  | flush {s j c} : s.clients[j]? = some c → c.closed = false →
      Step decode s { s with clients := s.clients.set j { c.send stop with closed := true } }
  | accept {s j backlog} : s.main = .accepting → s.backlog = j :: backlog →
      Step decode s { s with backlog, main := .starting j }
  | start {s j} : s.main = .starting j →
      Step decode s { s with threads := s.threads ++ [{ connection := j }], main := .recording s.threads.length }
  | record {s k} : s.main = .recording k →
      Step decode s { s with agentThreads := s.agentThreads ++ [k], main := .accepting }
  | kill {s} : s.hup = none → (∀ c ∈ s.clients, c.closed = true) →
      Step decode s { s with hup := some s.clients.length }
  | exit {s n} : s.hup = some n → s.main.joined = none → Step decode s { s with main := .joining 0 }
  | read {s k t c} (chunk : Bytes) : s.threads[k]? = some t → t.status = .running →
      s.clients[t.connection]? = some c → chunk ≠ [] → chunk <+: c.written.drop t.received →
      Step decode s { s with
        threads := s.threads.set k (t.read decode chunk).1
        queue := s.queue ++ (t.read decode chunk).2.map (t.connection, ·) }
  | join {s k i t} : s.main = .joining k → s.agentThreads[k]? = some i → s.threads[i]? = some t →
      t.status = .returned → Step decode s { s with main := .joining (k + 1) }

/-- What has been pushed for a connection. -/
def Agent.pushed (s : Agent τ) (j : Nat) : List τ :=
  s.queue.filterMap fun (i, trace) => if i = j then some trace else none

/-- The thread of a connection is in `@agent_threads`. -/
def Agent.Recorded (s : Agent τ) (j : Nat) : Prop :=
  ∃ k ∈ s.agentThreads, ∃ t, s.threads[k]? = some t ∧ t.connection = j

/-- The condition on a step: the handler of the signal runs when the thread of every
client that had flushed is in `@agent_threads`. -/
def RecordedAtExit (s s' : Agent τ) : Prop :=
  s.main.joined = none → s'.main.joined ≠ none → ∀ n ∈ s.hup, ∀ j < n, s.Recorded j

/-- The connections in the backlog, in the hands of the main thread, and of threads. -/
def Agent.connections (s : Agent τ) : List Nat :=
  s.backlog ++ s.main.held ++ s.threads.map (·.connection)

/-- What a client has written: the messages of its traces, and the stop message last. -/
def Client.Wrote (decode : Bytes → Option τ) (c : Client τ) : Prop :=
  ∃ messages, c.written = frames nul (messages ++ if c.closed then [stop] else []) ∧
    messages.map decode = c.traces.map some ∧ ∀ m ∈ messages, m ≠ [] ∧ nul ∉ m ∧ m ≠ stop

/-- A thread has handled the messages that are complete in what it has read, up to
the stop message. -/
structure Thread.Handled (decode : Bytes → Option τ) (c : Client τ) (pushed : List τ) (t : Thread) : Prop where
  bound : t.received ≤ c.written.length
  pushed : pushed = (untilStop (complete nul (c.written.take t.received))).filterMap decode
  status : t.status = if stop ∈ complete nul (c.written.take t.received) then .returned else .running
  pending : t.status = .running → Pending t.pendingMessage (remainder nul (c.written.take t.received))

structure Invariant (decode : Bytes → Option τ) (s : Agent τ) : Prop where
  distinct : s.connections.Nodup
  below : ∀ j ∈ s.connections, j < s.clients.length
  wrote : ∀ c ∈ s.clients, c.Wrote decode
  unread : ∀ j, j ∉ s.threads.map (·.connection) → s.pushed j = []
  handled : ∀ t ∈ s.threads, ∀ c, s.clients[t.connection]? = some c → t.Handled decode c (s.pushed t.connection)
  flushed : ∀ n ∈ s.hup, ∀ j < n, ∃ c, s.clients[j]? = some c ∧ c.closed = true
  sent : ∀ k ∈ s.main.joined, s.hup ≠ none
  recorded : ∀ k ∈ s.main.joined, ∀ n ∈ s.hup, ∀ j < n, s.Recorded j
  returned : ∀ k ∈ s.main.joined, ∀ i ∈ s.agentThreads.take k, ∃ t, s.threads[i]? = some t ∧ t.status = .returned

variable {decode : Bytes → Option τ}

/-- What is complete in a part of the stream is a part of its messages. -/
theorem Client.Wrote.complete {c : Client τ} (wrote : c.Wrote decode) {read rest : Bytes}
    (split : c.written = read ++ rest) :
    ∃ messages, messages.map decode = c.traces.map some ∧ (∀ m ∈ messages, m ≠ [] ∧ nul ∉ m ∧ m ≠ stop) ∧
      ∃ later, messages ++ (if c.closed then [stop] else []) = Delimited.complete nul read ++ later := by
  obtain ⟨messages, written, decoded, clean⟩ := wrote
  have cleanAll : ∀ m ∈ messages ++ (if c.closed then [stop] else []), nul ∉ m := by
    intro m member
    rcases List.mem_append.mp member with early | last
    · exact (clean m early).2.1
    · split at last
      · rw [List.mem_singleton.mp last]
        decide
      · cases last
  have whole := complete_frames cleanAll (List.not_mem_nil (a := nul))
  rw [List.append_nil, ← written, split, complete_append] at whole
  exact ⟨messages, decoded, clean, _, whole.symm⟩

theorem mem_of_untilStop {messages : List Bytes} {m : Bytes} (member : m ∈ untilStop messages) :
    m ∈ messages ∧ m ≠ stop :=
  ⟨(List.takeWhile_prefix _).mem member, by simpa using List.mem_takeWhile_imp member⟩

/-- A read handles the messages it completes. -/
theorem Thread.Handled.read {c : Client τ} {pushed : List τ} {t : Thread} {chunk : Bytes}
    (handled : t.Handled decode c pushed) (wrote : c.Wrote decode) (running : t.status = .running)
    (nonempty : chunk ≠ []) (next : chunk <+: c.written.drop t.received) :
    (t.read decode chunk).1.Handled decode c (pushed ++ (t.read decode chunk).2) := by
  obtain ⟨rest, after⟩ := next
  have bound := handled.bound
  have split : c.written = c.written.take t.received ++ chunk ++ rest := by
    rw [List.append_assoc, after, List.take_append_drop]
  have taken : c.written.take (t.received + chunk.length) = c.written.take t.received ++ chunk := by
    rw [List.take_add, ← after, List.take_left]
  have before : stop ∉ complete nul (c.written.take t.received) := by
    intro stopped
    have status := handled.status
    rw [if_pos stopped, running] at status
    cases status
  obtain ⟨messages, decoded, clean, later, whole⟩ := wrote.complete split
  rw [complete_append] at whole
  have accepted : ∀ m ∈ untilStop (complete nul (remainder nul (c.written.take t.received) ++ chunk)),
      WellFormed decode m := by
    intro m member
    obtain ⟨completed, notStop⟩ := mem_of_untilStop member
    have inside : m ∈ messages ++ (if c.closed then [stop] else []) := by
      rw [whole]
      exact List.mem_append_left _ (List.mem_append_right _ completed)
    have message : m ∈ messages := by
      refine (List.mem_append.mp inside).resolve_right fun last => ?_
      split at last
      · exact notStop (List.mem_singleton.mp last)
      · cases last
    have trace : decode m ∈ c.traces.map some := by
      rw [← decoded]
      exact List.mem_map_of_mem message
    obtain ⟨_, _, same⟩ := List.mem_map.mp trace
    exact ⟨(clean m message).1, by rw [← same]; rfl⟩
  obtain ⟨drained, _, pending⟩ := iteration_drained
    (w := { unread := [chunk], pendingMessage := t.pendingMessage, status := t.status }) rfl running
    (handled.pending running) (remainder_clean nul _) nonempty accepted
  refine ⟨?_, ?_, ?_, fun _ => ?_⟩
  · have length := congrArg List.length split
    simp only [List.length_append, List.length_take] at length
    simp only [Thread.read]
    omega
  · simp only [Thread.read]
    rw [taken, complete_append, untilStop_of_not_mem before, List.filterMap_append, drained.queue, handled.pushed,
      untilStop_eq_self before]
    rfl
  · have stopped : stop ∈ complete nul (c.written.take (t.received + chunk.length)) ↔
        stop ∈ complete nul (remainder nul (c.written.take t.received) ++ chunk) := by
      rw [taken, complete_append, List.mem_append, or_iff_right before]
    exact drained.status.trans (if_congr stopped.symm rfl rfl)
  · simp only [Thread.read]
    rw [taken, remainder_append]
    exact pending

/-- What a client writes later does not touch what has been read. -/
theorem Thread.Handled.grow {c c' : Client τ} {pushed : List τ} {t : Thread} {bytes : Bytes}
    (handled : t.Handled decode c pushed) (more : c'.written = c.written ++ bytes) : t.Handled decode c' pushed := by
  have same : c'.written.take t.received = c.written.take t.received := by
    rw [more, List.take_append_of_le_length handled.bound]
  refine ⟨?_, ?_, ?_, ?_⟩
  · have bound := handled.bound
    rw [more, List.length_append]
    omega
  · rw [same]
    exact handled.pushed
  · rw [same]
    exact handled.status
  · rw [same]
    exact handled.pending

/-- A thread that has just been started has read nothing. -/
theorem Thread.Handled.init (c : Client τ) (j : Nat) : ({ connection := j } : Thread).Handled decode c [] :=
  ⟨Nat.zero_le _, rfl, rfl, fun _ => rfl⟩

theorem Client.Wrote.send {c : Client τ} {message : Bytes} {trace : τ} (wrote : c.Wrote decode)
    (opened : c.closed = false) (decoded : decode message = some trace)
    (clean : message ≠ [] ∧ nul ∉ message ∧ message ≠ stop) :
    Client.Wrote decode { c.send message with traces := c.traces ++ [trace] } := by
  obtain ⟨messages, written, all, each⟩ := wrote
  refine ⟨messages ++ [message], ?_, ?_, fun m member => ?_⟩
  · simp only [Client.send, written, opened, Bool.false_eq_true, if_false, List.append_nil, frames_append]
    simp [frames]
  · rw [List.map_append, all, List.map_append, List.map_singleton, List.map_singleton, decoded]
  · rcases List.mem_append.mp member with old | new
    · exact each m old
    · rw [List.mem_singleton.mp new]
      exact clean

theorem Client.Wrote.flush {c : Client τ} (wrote : c.Wrote decode) (opened : c.closed = false) :
    Client.Wrote decode { c.send stop with closed := true } := by
  obtain ⟨messages, written, all, each⟩ := wrote
  refine ⟨messages, ?_, all, each⟩
  simp only [Client.send, written, opened, Bool.false_eq_true, if_false, if_true, List.append_nil, frames_append]
  simp [frames]

/-- The thread that has returned has pushed all that its client wrote. -/
theorem Thread.Handled.returned {c : Client τ} {pushed : List τ} {t : Thread} (handled : t.Handled decode c pushed)
    (wrote : c.Wrote decode) (returned : t.status = .returned) : pushed = c.traces := by
  have stopped : stop ∈ complete nul (c.written.take t.received) := by
    by_contra absent
    have status := handled.status
    rw [if_neg absent, returned] at status
    cases status
  obtain ⟨messages, decoded, clean, later, whole⟩ := wrote.complete (List.take_append_drop t.received c.written).symm
  have before : stop ∉ messages := fun member => (clean stop member).2.2 rfl
  have closed : untilStop (messages ++ if c.closed then [stop] else []) = messages := by
    rw [untilStop_of_not_mem before]
    split <;> simp [untilStop]
  rw [whole, untilStop_of_mem stopped] at closed
  calc pushed = messages.filterMap decode := by rw [handled.pushed, closed]
    _ = (messages.map decode).filterMap id := by rw [List.filterMap_map]; rfl
    _ = (c.traces.map some).filterMap id := by rw [decoded]
    _ = c.traces := by rw [List.filterMap_map]; exact List.filterMap_some

theorem Agent.pushed_append (s : Agent τ) (i j : Nat) (traces : List τ) :
    Agent.pushed { s with queue := s.queue ++ traces.map (i, ·) } j = s.pushed j ++ if i = j then traces else [] := by
  unfold Agent.pushed
  rw [List.filterMap_append, List.filterMap_map]
  split
  next same => simp [same]
  next other => simp [other]

/-- A connection that is moved on, or lost, is in one place still. -/
theorem Invariant.moved {s : Agent τ} (inv : Invariant decode s) (s' : Agent τ) (lost : List Nat)
    (moved : s.connections.Perm (s'.connections ++ lost)) (clients : s'.clients = s.clients) :
    s'.connections.Nodup ∧ ∀ j ∈ s'.connections, j < s'.clients.length := by
  refine ⟨(moved.nodup_iff.mp inv.distinct).of_append_left, fun j member => ?_⟩
  rw [clients]
  exact inv.below j (moved.mem_iff.mpr (List.mem_append_left _ member))

/-- A client that has not closed its socket writes to it. -/
theorem Invariant.write {s : Agent τ} {j : Nat} {c c' : Client τ} (inv : Invariant decode s) (bytes : Bytes)
    (atJ : s.clients[j]? = some c) (opened : c.closed = false) (wrote : c'.Wrote decode)
    (more : c'.written = c.written ++ bytes) : Invariant decode { s with clients := s.clients.set j c' } := by
  have same {i : Nat} (other : i ≠ j) : (s.clients.set j c')[i]? = s.clients[i]? :=
    List.getElem?_set_ne (Ne.symm other)
  refine ⟨inv.distinct, fun i member => ?_, fun d member => ?_, inv.unread, fun t member d atD => ?_,
    fun n sent i before => ?_, inv.sent, inv.recorded, inv.returned⟩
  · rw [List.length_set]
    exact inv.below i member
  · rcases List.mem_or_eq_of_mem_set member with old | rfl
    · exact inv.wrote d old
    · exact wrote
  · by_cases here : t.connection = j
    · have bound : j < s.clients.length := (List.getElem?_eq_some_iff.mp atJ).1
      rw [here, List.getElem?_set_self bound] at atD
      obtain rfl := Option.some.inj atD
      exact (inv.handled t member c (here ▸ atJ)).grow more
    · rw [same here] at atD
      exact inv.handled t member d atD
  · obtain ⟨d, atI, closed⟩ := inv.flushed n sent i before
    have other : i ≠ j := by
      rintro rfl
      rw [atJ] at atI
      rw [← Option.some.inj atI, opened] at closed
      cases closed
    exact ⟨d, by rw [same other]; exact atI, closed⟩

theorem Invariant.connect {s : Agent τ} (inv : Invariant decode s) :
    Invariant decode { s with clients := s.clients ++ [{}], backlog := s.backlog ++ [s.clients.length] } := by
  have arrived : Agent.connections
      { s with clients := s.clients ++ [{}], backlog := s.backlog ++ [s.clients.length] } =
      s.backlog ++ s.clients.length :: (s.main.held ++ s.threads.map (·.connection)) := by
    simp [Agent.connections]
  have waiting : (s.backlog ++ s.clients.length :: (s.main.held ++ s.threads.map (·.connection))).Perm
      (s.clients.length :: s.connections) := by
    rw [Agent.connections, List.append_assoc]
    exact List.perm_middle
  refine ⟨?_, fun j member => ?_, fun c member => ?_, inv.unread, fun t member c atC => ?_, fun n sent j before => ?_,
    inv.sent, inv.recorded, inv.returned⟩
  · rw [arrived, waiting.nodup_iff, List.nodup_cons]
    exact ⟨fun member => Nat.lt_irrefl _ (inv.below _ member), inv.distinct⟩
  · rw [List.length_append, List.length_singleton]
    rw [arrived, waiting.mem_iff, List.mem_cons] at member
    rcases member with rfl | old
    · omega
    · have below := inv.below j old
      omega
  · rcases List.mem_append.mp member with old | new
    · exact inv.wrote c old
    · rw [List.mem_singleton.mp new]
      exact ⟨[], rfl, rfl, nofun⟩
  · have below := inv.below t.connection (List.mem_append_right _ (List.mem_map_of_mem member))
    rw [List.getElem?_append_left below] at atC
    exact inv.handled t member c atC
  · obtain ⟨c, atJ, closed⟩ := inv.flushed n sent j before
    refine ⟨c, ?_, closed⟩
    rw [List.getElem?_append_left (List.getElem?_eq_some_iff.mp atJ).1]
    exact atJ

/-- The main thread starts the thread of the connection it holds. -/
theorem Invariant.start {s : Agent τ} {j : Nat} (inv : Invariant decode s) (atMain : s.main = .starting j) :
    Invariant decode
      { s with threads := s.threads ++ [{ connection := j }], main := .recording s.threads.length } := by
  have moved := inv.moved
    ({ s with threads := s.threads ++ [{ connection := j }], main := .recording s.threads.length }) [] (by
      simp only [Agent.connections, atMain, MainPc.held, List.map_append, List.map_singleton, List.append_nil,
        List.append_assoc]
      exact List.perm_append_comm.append_left s.backlog) rfl
  have fresh : j ∉ s.threads.map (·.connection) := by
    have distinct := inv.distinct
    rw [Agent.connections, atMain, MainPc.held, List.append_assoc, List.singleton_append] at distinct
    exact (List.nodup_cons.mp distinct.of_append_right).1
  refine ⟨moved.1, moved.2, inv.wrote, fun i absent => ?_, fun t member c atC => ?_, inv.flushed, nofun, nofun, nofun⟩
  · rw [List.map_append, List.mem_append, not_or] at absent
    exact inv.unread i absent.1
  · rcases List.mem_append.mp member with old | new
    · exact inv.handled t old c atC
    · obtain rfl := List.mem_singleton.mp new
      have nothing : s.pushed j = [] := inv.unread j fresh
      exact nothing ▸ Thread.Handled.init c j

theorem Thread.read_connection (t : Thread) (chunk : Bytes) : (t.read decode chunk).1.connection = t.connection :=
  rfl

/-- A connection has one thread at most. -/
theorem Invariant.apart {s : Agent τ} (inv : Invariant decode s) {i k : Nat} {t u : Thread}
    (atK : s.threads[k]? = some t) (atI : s.threads[i]? = some u) (same : u.connection = t.connection) : i = k := by
  have distinct : (s.threads.map (·.connection)).Nodup := inv.distinct.of_append_right
  have bound : i < (s.threads.map (·.connection)).length := by
    rw [List.length_map]
    exact (List.getElem?_eq_some_iff.mp atI).1
  refine (List.getElem?_inj bound distinct).mp ?_
  rw [List.getElem?_map, List.getElem?_map, atI, atK, Option.map_some, Option.map_some, same]

/-- The threads keep their connections, and return for good. -/
theorem Invariant.read {s : Agent τ} {k : Nat} {t : Thread} {c : Client τ} {chunk : Bytes} (inv : Invariant decode s)
    (atK : s.threads[k]? = some t) (running : t.status = .running) (atC : s.clients[t.connection]? = some c)
    (nonempty : chunk ≠ []) (next : chunk <+: c.written.drop t.received) :
    Invariant decode { s with
      threads := s.threads.set k (t.read decode chunk).1
      queue := s.queue ++ (t.read decode chunk).2.map (t.connection, ·) } := by
  have bound : k < s.threads.length := (List.getElem?_eq_some_iff.mp atK).1
  have written : (s.threads.set k (t.read decode chunk).1)[k]? = some (t.read decode chunk).1 :=
    List.getElem?_set_self bound
  have kept {i : Nat} (other : i ≠ k) : (s.threads.set k (t.read decode chunk).1)[i]? = s.threads[i]? :=
    List.getElem?_set_ne (Ne.symm other)
  have same : (s.threads.set k (t.read decode chunk).1).map (·.connection) = s.threads.map (·.connection) := by
    refine List.ext_getElem? fun i => ?_
    rw [List.getElem?_map, List.getElem?_map]
    by_cases here : i = k
    · rw [here, written, atK, Option.map_some, Option.map_some, Thread.read_connection]
    · rw [kept here]
  have member : t ∈ s.threads := List.mem_of_getElem? atK
  have moved := inv.moved { s with threads := s.threads.set k (t.read decode chunk).1 } []
    (by rw [List.append_nil, Agent.connections, Agent.connections, same]) rfl
  have pushes (j : Nat) : Agent.pushed { s with
      threads := s.threads.set k (t.read decode chunk).1
      queue := s.queue ++ (t.read decode chunk).2.map (t.connection, ·) } j =
      s.pushed j ++ if t.connection = j then (t.read decode chunk).2 else [] :=
    s.pushed_append t.connection j _
  refine ⟨moved.1, moved.2, inv.wrote, fun j absent => ?_, fun u inside d atD => ?_, inv.flushed, inv.sent,
    fun joined atMain n sent j before => ?_, fun joined atMain i taken => ?_⟩
  · rw [same] at absent
    have other : t.connection ≠ j := by
      rintro rfl
      exact absent (List.mem_map_of_mem member)
    rw [pushes, if_neg other, List.append_nil]
    exact inv.unread j absent
  · obtain ⟨i, atI⟩ := List.mem_iff_getElem?.mp inside
    rw [pushes]
    by_cases here : i = k
    · subst here
      rw [written] at atI
      obtain rfl := Option.some.inj atI
      rw [Thread.read_connection] at atD ⊢
      obtain rfl := Option.some.inj (atC.symm.trans atD)
      rw [if_pos rfl]
      exact (inv.handled t member c atC).read (inv.wrote c (List.mem_of_getElem? atC)) running nonempty next
    · rw [kept here] at atI
      have other : t.connection ≠ u.connection := fun shared => here (inv.apart atK atI shared.symm)
      rw [if_neg other, List.append_nil]
      exact inv.handled u (List.mem_of_getElem? atI) d atD
  · obtain ⟨i, recorded, u, atI, connection⟩ := inv.recorded joined atMain n sent j before
    by_cases here : i = k
    · subst here
      obtain rfl := Option.some.inj (atK.symm.trans atI)
      exact ⟨i, recorded, _, written, connection⟩
    · exact ⟨i, recorded, u, by rw [kept here]; exact atI, connection⟩
  · obtain ⟨u, atI, returned⟩ := inv.returned joined atMain i taken
    have other : i ≠ k := by
      rintro rfl
      obtain rfl := Option.some.inj (atK.symm.trans atI)
      rw [running] at returned
      cases returned
    exact ⟨u, by rw [kept other]; exact atI, returned⟩

theorem Invariant.step {s s' : Agent τ} (inv : Invariant decode s)
    (step : Guarded (Step decode) RecordedAtExit s s') : Invariant decode s' := by
  obtain ⟨step, atExit⟩ := step
  cases step with
  | connect => exact inv.connect
  | @send j c message trace atJ opened decoded nonempty clean notStop =>
    have wrote := (inv.wrote c (List.mem_of_getElem? atJ)).send opened decoded ⟨nonempty, clean, notStop⟩
    exact inv.write (message ++ [nul]) atJ opened wrote (List.append_assoc ..)
  | @flush j c atJ opened =>
    have wrote := (inv.wrote c (List.mem_of_getElem? atJ)).flush opened
    exact inv.write (stop ++ [nul]) atJ opened wrote (List.append_assoc ..)
  | @accept j backlog atMain waiting =>
    have moved := inv.moved { s with backlog, main := .starting j } [] (by
      simp only [Agent.connections, atMain, waiting, MainPc.held, List.append_nil, List.append_assoc]
      exact List.perm_middle.symm) rfl
    exact ⟨moved.1, moved.2, inv.wrote, inv.unread, inv.handled, inv.flushed, nofun, nofun, nofun⟩
  | start atMain => exact inv.start atMain
  | @record k atMain =>
    have moved := inv.moved { s with agentThreads := s.agentThreads ++ [k], main := .accepting } []
      (by simp [Agent.connections, atMain, MainPc.held]) rfl
    exact ⟨moved.1, moved.2, inv.wrote, inv.unread, inv.handled, inv.flushed, nofun, nofun, nofun⟩
  | kill unsent closed =>
    refine ⟨inv.distinct, inv.below, inv.wrote, inv.unread, inv.handled, fun n sent j before => ?_,
      fun k atMain => absurd unsent (inv.sent k atMain), fun k atMain => absurd unsent (inv.sent k atMain),
      inv.returned⟩
    obtain rfl := Option.some.inj sent
    have atJ := List.getElem?_eq_getElem before
    exact ⟨s.clients[j], atJ, closed _ (List.mem_of_getElem? atJ)⟩
  | @exit n sent loop =>
    have moved := inv.moved { s with main := .joining 0 } s.main.held (by
      simp only [Agent.connections, MainPc.held, List.append_nil, List.append_assoc]
      exact List.perm_append_comm.append_left s.backlog) rfl
    refine ⟨moved.1, moved.2, inv.wrote, inv.unread, inv.handled, inv.flushed, fun k _ unsent => ?_,
      fun k _ => atExit loop nofun, fun k atMain => ?_⟩
    · rw [sent] at unsent
      cases unsent
    · obtain rfl := Option.some.inj atMain
      nofun
  | read chunk atK running atC nonempty next => exact inv.read atK running atC nonempty next
  | @join k i t atMain atK atI returned =>
    have joining : k ∈ s.main.joined := by rw [atMain]; rfl
    have moved := inv.moved { s with main := .joining (k + 1) } []
      (by simp [Agent.connections, atMain, MainPc.held]) rfl
    refine ⟨moved.1, moved.2, inv.wrote, inv.unread, inv.handled, inv.flushed, fun _ _ => inv.sent k joining,
      fun _ _ => inv.recorded k joining, fun k' atMain' j taken => ?_⟩
    obtain rfl := Option.some.inj atMain'
    rw [List.take_add_one, atK] at taken
    rcases List.mem_append.mp taken with old | new
    · exact inv.returned k joining j old
    · rw [Option.toList_some, List.mem_singleton] at new
      subst new
      exact ⟨t, atI, returned⟩

theorem Invariant.init : Invariant decode ({} : Agent τ) :=
  ⟨List.nodup_nil, nofun, nofun, fun _ _ => rfl, nofun, nofun, nofun, nofun, nofun⟩

/-- As long as the handler of the signal runs only when every client that had
flushed is in `@agent_threads`, all that these clients wrote has been pushed when
the `at_exit` block has joined the threads. -/
theorem finished_clients_pushed {s : Agent τ} (run : Run (Guarded (Step decode) RecordedAtExit) {} s)
    (joined : s.main = .joining s.agentThreads.length) :
    ∀ n ∈ s.hup, ∀ j < n, ∃ c, s.clients[j]? = some c ∧ s.pushed j = c.traces := by
  have inv : Invariant decode s := run.invariant (fun a b inv step => inv.step step) .init
  intro n sent j before
  have joining : s.agentThreads.length ∈ s.main.joined := by rw [joined]; rfl
  obtain ⟨c, atJ, _⟩ := inv.flushed n sent j before
  obtain ⟨k, recorded, t, atK, connection⟩ := inv.recorded _ joining n sent j before
  have taken : k ∈ s.agentThreads.take s.agentThreads.length := by rwa [List.take_length]
  obtain ⟨u, atK', returned⟩ := inv.returned _ joining k taken
  obtain rfl := Option.some.inj (atK.symm.trans atK')
  subst connection
  have handled := inv.handled t (List.mem_of_getElem? atK) c atJ
  exact ⟨c, atJ, handled.returned (inv.wrote c (List.mem_of_getElem? atJ)) returned⟩

end

/-- A client with one trace, whose thread is in `@agent_threads` when the signal arrives. -/
theorem finished_clients_pushed_one : ∃ s : Agent Bytes, s.hup = some 1 ∧
    ∀ n ∈ s.hup, ∀ j < n, ∃ c, s.clients[j]? = some c ∧ s.pushed j = c.traces := by
  have looping {s s' : Agent Bytes} (step : Step some s s') (still : s'.main.joined = none) :
      Guarded (Step some) RecordedAtExit s s' := ⟨step, fun _ left => absurd still left⟩
  have r1 : Run (Guarded (Step some) RecordedAtExit) ({} : Agent Bytes) _ :=
    Relation.ReflTransGen.refl.tail (looping .connect rfl)
  have r2 := r1.tail (looping (.send (j := 0) [91, 93] rfl rfl rfl (by decide) (by decide) (by decide)) rfl)
  have r3 := r2.tail (looping (.flush (j := 0) rfl rfl) rfl)
  have r4 := r3.tail (looping (.accept rfl rfl) rfl)
  have r5 := r4.tail (looping (.start rfl) rfl)
  have r6 := r5.tail (looping (.record rfl) rfl)
  have r7 : Run (Guarded (Step some) RecordedAtExit) ({} : Agent Bytes)
      { clients := [⟨[[91, 93]], [91, 93, 0, 115, 116, 111, 112, 0], true⟩], threads := [{ connection := 0 }]
        agentThreads := [0], hup := some 1 } :=
    r6.tail (looping (.kill rfl (by simp)) rfl)
  have r8 := r7.tail ⟨.exit rfl rfl, fun _ _ n sent j before => by
    obtain rfl := Option.some.inj sent
    obtain rfl : j = 0 := by omega
    exact ⟨0, List.mem_singleton_self 0, _, rfl, rfl⟩⟩
  have r9 := r8.tail ⟨.read (k := 0) [91, 93, 0, 115, 116, 111, 112, 0] rfl rfl rfl (by decide) ⟨[], rfl⟩, nofun⟩
  have r10 := r9.tail ⟨.join rfl rfl rfl rfl, nofun⟩
  exact ⟨_, rfl, finished_clients_pushed r10 rfl⟩

/-- The signal arrives when the connection is in the backlog, or when its thread has
been started and is not in `@agent_threads`. -/
theorem finished_client_lost :
    (∃ s : Agent Bytes, Run (Step some) {} s ∧ s.main = .joining s.agentThreads.length ∧ s.backlog = [0] ∧
      ∃ n ∈ s.hup, ∃ j < n, ∃ c, s.clients[j]? = some c ∧ s.pushed j ≠ c.traces) ∧
    ∃ s : Agent Bytes, Run (Step some) {} s ∧ s.main = .joining s.agentThreads.length ∧ s.threads.length = 1 ∧
      ∃ n ∈ s.hup, ∃ j < n, ∃ c, s.clients[j]? = some c ∧ s.pushed j ≠ c.traces := by
  have r1 : Run (Step some) ({} : Agent Bytes) _ := Relation.ReflTransGen.refl.tail .connect
  have r2 := r1.tail (.send (j := 0) [91, 93] rfl rfl rfl (by decide) (by decide) (by decide))
  have r3 := r2.tail (.flush (j := 0) rfl rfl)
  constructor
  · have r4 := r3.tail (.kill rfl (by simp))
    have r5 := r4.tail (.exit rfl rfl)
    exact ⟨_, r5, rfl, rfl, 1, rfl, 0, Nat.one_pos, _, rfl, by decide⟩
  · have r4 := r3.tail (.accept rfl rfl)
    have r5 := r4.tail (.start rfl)
    have r6 := r5.tail (.kill rfl (by simp))
    have r7 := r6.tail (.exit rfl rfl)
    exact ⟨_, r7, rfl, rfl, 1, rfl, 0, Nat.one_pos, _, rfl, by decide⟩

end Racer.Accepting
