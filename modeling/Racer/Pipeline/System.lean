import Racer.Agent.Accepting
import Racer.Collectors.Received
import Racer.Pipeline.Sessions
import Racer.Pipeline.Traced
import Racer.Tracer.Shapes

namespace Racer.Session

section
variable {τ : Type}

/-- `start`, where `fd` is what `socket` returned if it was called. -/
def State.start (fd : Option Nat) (s : State τ) : State τ :=
  match s.tpCall, fd with
  | some _, _ => s.enable
  | none, some fd => s.openSession fd
  | none, none => { s with socketFd := -1 }

/-- The steps of a session that are nothing to the tracer: those of a worker, and those
of a flush except its first two. -/
def Apart (s s' : State τ) : Prop :=
  s' = { s with channels := s'.channels } ∨ s' = s.flush ∨
    s.main ≠ .idle ∧ s.main ≠ .stopping ∧ s.main ≠ .clearing

theorem Step.apart {text : τ → Bytes} {s s' : State τ} (step : Step text s s') (apart : Apart s s') :
    s'.tpCall = s.tpCall ∧ s'.queued = s.queued := by
  rcases apart with same | rfl | ⟨notIdle, notStopping, notClearing⟩
  · rw [same]
    exact ⟨rfl, rfl⟩
  · unfold State.flush
    split <;> exact ⟨rfl, rfl⟩
  · cases step with
    | startAgain main tpCall | socketFails main tpCall | start fd main tpCall | stop main
    | returnEvent trace main tpCall | flush main => exact (notIdle main).elim
    | flushStop main => exact (notStopping main).elim
    | flushClear main => exact (notClearing main).elim
    | _ => exact ⟨rfl, rfl⟩

/-- While no session is open, `start` is the only step that changes `tpCall`. -/
theorem start_step {text : τ → Bytes} {s : State τ} (fd : Option Nat) (main : s.main = .idle) :
    Step text s (s.start fd) := by
  unfold State.start
  split
  next enabled tpCall => exact .startAgain main tpCall
  next fd tpCall => exact .start fd main tpCall
  next tpCall => exact .socketFails main tpCall

end

end Racer.Session

namespace Racer.Pipeline
open Announced Delimited Transition

/-! A traced process, its sockets, and the threads of the agent that read them. -/

/-- The thread of the agent on a socket, and the traces that it has pushed. -/
structure Reader where
  thread : Accepting.Thread
  pushed : List Trace := []

/-- `received` are the traces in the order in which the threads pushed them. -/
structure System (κ : Type) where
  tracer : Tracer κ := {}
  session : Session.State ReturnTrace := {}
  readers : Nat → Reader := fun j => { thread := { connection := j } }
  received : List Trace := []

/-- What `init_worker` sends for a trace, where `write` prints an array. -/
def messageOf (write : List Json → Bytes) (t : ReturnTrace) : Bytes :=
  write ((writeTrace t).getD [])

/-- An array is printed as one JSON text without NUL bytes, which the parser reads back. -/
structure Printed (write : List Json → Bytes) (parse : Bytes → Option (List Json)) (data : List Json) : Prop where
  parsed : parse (write data) = some data
  bracket : (write data).head? = some 91
  clean : nul ∉ write data

section
variable {κ : Type} [DecidableEq κ] [Fintype κ] (h : Hierarchy κ) (write : List Json → Bytes)
  (parse : Bytes → Option (List Json))

/-- The next read of a thread. -/
def System.read (s : System κ) (j : Nat) (chunk : Bytes) : System κ :=
  let (thread, traces) := (s.readers j).thread.read (decodeData parse) chunk
  { s with
    readers := Function.update s.readers j { thread, pushed := (s.readers j).pushed ++ traces }
    received := s.received ++ traces }

omit [DecidableEq κ] [Fintype κ] in
theorem System.read_received (s : System κ) (j : Nat) (chunk : Bytes) :
    (s.read parse j chunk).received =
      s.received ++ ((s.readers j).thread.read (decodeData parse) chunk).2 := rfl

/-- One statement of the main thread, of a worker or of a thread of the agent, with the
event that the tracer is given. Tracepoints run only while the main thread is between
calls of the extension; what they add to the queue of the tracer goes to the session. -/
inductive Step : System κ → Option (Event κ) → System κ → Prop
  | start {s} (maxGenericDepth : Int) (fd : Option Nat) : s.session.main = .idle →
      Step s (some (.start maxGenericDepth fd.isSome))
        { s with tracer := s.tracer.start maxGenericDepth fd.isSome, session := s.session.start fd }
  | stop {s} : s.session.main = .idle →
      Step s (some .stop) { s with tracer := s.tracer.stop, session := s.session.stop }
  | event {s tracer event} : s.session.main = .idle → Program event → Announced.Step h s.tracer event tracer →
      Step s (some event)
        { s with tracer
                 session := (tracer.queue.drop s.tracer.queue.length).foldl (fun s t => s.pushTrace t) s.session }
  | flushStop {s} : s.session.main = .stopping →
      Step s (some .stop) { s with tracer := s.tracer.stop, session := { s.session.stop with main := .clearing } }
  | flushClear {s} : s.session.main = .clearing →
      Step s none
        { s with tracer := { s.tracer with tpCall := none }
                 session := { s.session with tpCall := none, main := .terminating } }
  | session {s session} : Session.Step (messageOf write) s.session session → Session.Apart s.session session →
      Step s none { s with session }
  | read {s ch} (j : Nat) (chunk : Bytes) : s.session.channels[j]? = some ch →
      (s.readers j).thread.status = .running → chunk ≠ [] →
      chunk <+: ch.written.drop (s.readers j).thread.received → Step s none (s.read parse j chunk)

/-- Steps in which Ruby and the program keep to what the tracer needs. -/
def Admitted (s s' : System κ) : Prop :=
  ∃ event, (∀ e ∈ event, Tracepoints.Admits s.tracer e) ∧ Step h write parse s event s'

/-- Admitted steps in which Ruby reports parameters that share no slot. -/
def Reported (s s' : System κ) : Prop :=
  ∃ event, (∀ e ∈ event, Tracepoints.Admits s.tracer e ∧ Shapes.Reports e) ∧ Step h write parse s event s'

/-- A thread pushes only after the threads of earlier sessions have returned. A process
with one session has no others. -/
def InTurn (s s' : System κ) : Prop :=
  ∀ j, (s'.readers j).pushed ≠ (s.readers j).pushed → ∀ i < j, (s.readers i).thread.status = .returned

/-- The bytes on a socket, as the threads of the agent see them. -/
def bytesOf (ch : Session.Channel ReturnTrace) : Accepting.Client Trace :=
  { written := ch.written }

/-- The tracer and the session agree, and every thread has handled what it has read. -/
structure Invariant (s : System κ) (sessions : List (List ReturnTrace)) : Prop where
  traced : Traced h s.tracer
  tpCall : s.session.tpCall = s.tracer.tpCall
  recorded : Session.Recorded (messageOf write) s.session sessions
  queue : sessions.flatten = s.tracer.queue
  connection : ∀ j, (s.readers j).thread.connection = j
  handled : ∀ (j : Nat) (ch : Session.Channel ReturnTrace), s.session.channels[j]? = some ch →
    (s.readers j).thread.Handled (decodeData parse) (bytesOf ch) (s.readers j).pushed
  unread : ∀ j, s.session.channels[j]? = none → s.readers j = { thread := { connection := j } }

variable {h write parse}

theorem Reported.admitted {s s' : System κ} (step : Reported h write parse s s') : Admitted h write parse s s' := by
  obtain ⟨event, admits, step⟩ := step
  exact ⟨event, fun e member => (admits e member).1, step⟩

omit [Fintype κ] in
theorem Traced.methodTrace {s : Tracer κ} (traced : Traced h s) {t : ReturnTrace} (queued : t ∈ s.queue) :
    ∃ m : MethodTrace, m.trace = t := by
  obtain ⟨methodName, named⟩ := Option.ne_none_iff_exists'.mp (traced.methods t queued)
  have self := blockParamHasSelf_of_kept fun n below => traced.blocks.kept n (Blocks.mem_nodes_of_queue queued below)
  exact ⟨⟨t, methodName, named, self⟩, rfl⟩

end

/-- The message of a trace is decoded to the trace. -/
theorem messageOf_decoded {write : List Json → Bytes} {parse : Bytes → Option (List Json)} (m : MethodTrace)
    (printed : ∀ data, writeTrace m.trace = some data → Printed write parse data) :
    decodeData parse (messageOf write m.trace) = some m.toTrace ∧ messageOf write m.trace ≠ [] ∧
      nul ∉ messageOf write m.trace ∧ messageOf write m.trace ≠ stop := by
  obtain ⟨data, written, read⟩ := decodeMessage_writeTrace m
  obtain ⟨parsed, bracket, clean⟩ := printed data written
  have message : messageOf write m.trace = write data := by rw [messageOf, written, Option.getD_some]
  rw [message]
  refine ⟨?_, fun empty => ?_, clean, fun same => ?_⟩
  · rw [decodeData, parsed, Option.bind_some, read, Option.map_some]
  · rw [empty] at bracket
    cases bracket
  · rw [same] at bracket
    cases bracket

end Racer.Pipeline
