import Mathlib.Data.List.Nodup
import Racer.Tracer.Session

namespace Racer.Forks
open Transition Delimited Session

/-! Sessions of a process and of the processes that are forked from it. -/

/-- A stream to the agent: what has been written to it, by any process, and whether
one has shut it down for writing. -/
structure Stream where
  written : Bytes := []
  shut : Bool := false

/-- A process: its own copy of the globals, the streams behind its sockets, and
whether it was forked with a session open that it has not flushed. -/
structure Process (τ : Type) where
  session : State τ := {}
  streams : List Nat := []
  inherited : Bool := false

/-- `flushed` records the traces that a process had queued in the session that it
has flushed, with the stream. -/
structure System (τ : Type) where
  processes : List (Process τ) := [{}]
  streams : List Stream := []
  flushed : List (List τ × Nat) := []

section
variable {τ : Type}

def Stream.send (bytes : Bytes) (stream : Stream) : Stream :=
  { stream with written := stream.written ++ bytes ++ [nul] }

/-- What a session has written to its sockets, and which of them it has closed. -/
def sockets (s : State τ) : List (Bytes × Bool) :=
  s.channels.map fun ch => (ch.written, ch.closed)

/-- `fork` copies the memory and the sockets; a worker thread is not copied, and to
join it returns at once. -/
def Process.fork (p : Process τ) : Process τ :=
  { p with
    session := { p.session with
      queued := []
      channels := p.session.channels.map ({ · with worker := .returned }) }
    inherited := p.session.channels.any (!·.closed) }

/-- `start` without an open session, on a new stream. -/
def Process.start (fd stream : Nat) (p : Process τ) : Process τ :=
  { p with session := p.session.openSession fd, streams := p.streams ++ [stream] }

/-- One step of a process: a step of its session that touches no socket, or one that
writes to the stream behind a socket, shuts it down, or is refused there. -/
inductive Step (text : τ → Bytes) : System τ → System τ → Prop
  | quiet {S p after s'} (before : List (Process τ)) : S.processes = before ++ p :: after →
      Session.Step text p.session s' → sockets s' = sockets p.session →
      Step text S { S with processes := before ++ { p with session := s' } :: after }
  | start {S p after} (before : List (Process τ)) (fd : Nat) : S.processes = before ++ p :: after →
      p.session.main = .idle → p.session.tpCall = none →
      Step text S { S with
        processes := before ++ p.start fd S.streams.length :: after
        streams := S.streams ++ [{}] }
  | fork {S p} : p ∈ S.processes → p.session.main = .idle →
      Step text S { S with processes := S.processes ++ [p.fork] }
  | send {S p after k j ch trace id stream} (before : List (Process τ)) : S.processes = before ++ p :: after →
      p.session.channels[k]? = some ch → ch.worker = .sending trace → p.session.Resolves ch.fd j →
      p.streams[j]? = some id → S.streams[id]? = some stream → stream.shut = false →
      Step text S { S with
        processes := before ++ { p with
          session := (p.session.modify j (.send (text trace))).modify k ({ · with worker := .popping }) } :: after
        streams := S.streams.set id (stream.send (text trace)) }
  | sendRefused {S p after k j ch trace id stream} (before : List (Process τ)) : S.processes = before ++ p :: after →
      p.session.channels[k]? = some ch → ch.worker = .sending trace → p.session.Resolves ch.fd j →
      p.streams[j]? = some id → S.streams[id]? = some stream → stream.shut = true →
      Step text S { S with
        processes := before ++ { p with session := p.session.modify k ({ · with worker := .returned }) } :: after }
  | flushSend {S p after j id stream} (before : List (Process τ)) : S.processes = before ++ p :: after →
      p.session.main = .sendingStop → p.session.Resolves p.session.socketFd j → p.streams[j]? = some id →
      S.streams[id]? = some stream → stream.shut = false →
      Step text S { S with
        processes := before ++ { p with
          session := { p.session.modify j ({ ·.send stop with stopSent := true }) with main := .closing } } :: after
        streams := S.streams.set id (stream.send stop) }
  | flushSendRefused {S p after j id stream} (before : List (Process τ)) : S.processes = before ++ p :: after →
      p.session.main = .sendingStop → p.session.Resolves p.session.socketFd j → p.streams[j]? = some id →
      S.streams[id]? = some stream → stream.shut = true →
      Step text S { S with
        processes := before ++ { p with session := { p.session with main := .closing } } :: after }
  | flushClose {S p after j id stream} (before : List (Process τ)) : S.processes = before ++ p :: after →
      p.session.main = .closing → p.session.Resolves p.session.socketFd j → p.streams[j]? = some id →
      S.streams[id]? = some stream →
      Step text S { S with
        processes := before ++ { p with
          session := { p.session.modify j ({ · with closed := true }) with socketFd := -1, main := .idle }
          inherited := false } :: after
        streams := S.streams.set id { stream with shut := true }
        flushed := S.flushed ++ [(p.session.queued, id)] }

/-- The traces that have been queued for a stream and flushed. -/
def System.flushedTo (S : System τ) (id : Nat) : List τ :=
  (S.flushed.filter (·.2 = id)).flatMap (·.1)

/-- The agent queues these traces, however the stream is cut into reads. -/
def Delivered (decode : Bytes → Option τ) (traces : List τ) (written : Bytes) : Prop :=
  ∀ chunks : List Bytes, (∀ chunk ∈ chunks, chunk ≠ []) → chunks.flatten = written →
    ∃ n, (workerLoop decode n { unread := chunks }).status = .returned ∧
      (workerLoop decode n { unread := chunks }).queue = traces

/-- The condition on a step: in a session that it was forked with, a process queues
no trace, and starts to flush only when the stream has been shut down. -/
def SparesParent (S S' : System τ) : Prop :=
  ∀ (i : Nat) (p p' : Process τ), S.processes[i]? = some p → S'.processes[i]? = some p' → p.inherited = true →
    p'.session.queued = p.session.queued ∧
      (p'.session.main ≠ .idle → p.session.main = .idle → ∀ id ∈ p.streams.getLast?, ∀ stream ∈ S.streams[id]?,
        stream.shut = true)

/-- The messages of traces are read back, and none is taken for a stop message. -/
structure Faithful (text : τ → Bytes) (decode : Bytes → Option τ) : Prop where
  decoded : ∀ t, decode (text t) = some t
  nonempty : ∀ t, text t ≠ []
  clean : ∀ t, nul ∉ text t
  notStop : ∀ t, text t ≠ stop

theorem Faithful.delivered {text : τ → Bytes} {decode : Bytes → Option τ} (faithful : Faithful text decode)
    (traces : List τ) : Delivered decode traces (frames nul (traces.map text ++ [stop])) := by
  intro chunks nonempty cut
  have each {P : Bytes → Prop} (all : ∀ t, P (text t)) : ∀ m ∈ traces.map text, P m := by
    intro m member
    obtain ⟨t, _, rfl⟩ := List.mem_map.mp member
    exact all t
  have accepted (t : τ) : (decode (text t)).isSome := by
    rw [faithful.decoded]
    rfl
  obtain ⟨returned, _, queue⟩ := workerLoop_frames (each accepted) (each faithful.nonempty) (each faithful.clean)
    (each faithful.notStop) cut nonempty
  refine ⟨chunks.length, returned, queue.trans ?_⟩
  rw [List.filterMap_map]
  exact (List.filterMap_congr fun t _ => faithful.decoded t).trans List.filterMap_some

/-- A session that a process was forked with, and has not flushed: it has no worker. -/
structure Inherits (streams : List Stream) (p : Process τ) (before : List (Channel τ)) (ch : Channel τ) (id : Nat) :
    Prop where
  channels : p.session.channels = before ++ [ch]
  ended : ∀ c ∈ before, c.Ended
  opened : ch.closed = false
  worker : ch.worker = .returned
  tinyQueue : p.session.tinyQueue = some before.length
  queued : p.session.queued = []
  tpCall : TpCallAt p.session.main p.session.tpCall
  stream : p.streams[before.length]? = some id
  known : id < streams.length
  flushing : p.session.main ≠ .idle → ∃ stream, streams[id]? = some stream ∧ stream.shut = true

/-- A process without an open session, with one that it has opened, or with one that
it was forked with. -/
inductive Placed (text : τ → Bytes) (streams : List Stream) (p : Process τ) : Prop
  | between : p.inherited = false → Between p.session → Placed text streams p
  | owner {before ch id} : p.inherited = false → During text p.session before ch →
      p.streams[before.length]? = some id → streams[id]? = some ⟨ch.written, false⟩ → Placed text streams p
  | inheritor {before ch id} : p.inherited = true → Inherits streams p before ch id → Placed text streams p

/-- The stream of a session that the process has opened. -/
def Process.own (p : Process τ) : Option Nat :=
  if p.inherited ∨ p.session.channels.all (·.closed) then none else p.streams.getLast?

/-- Every process has its place, and no stream is that of two sessions. -/
structure Places (text : τ → Bytes) (streams : List Stream) (processes : List (Process τ)) : Prop where
  lengths : ∀ p ∈ processes, p.streams.length = p.session.channels.length
  placed : ∀ p ∈ processes, Placed text streams p
  distinct : (processes.filterMap Process.own).Nodup

structure Invariant (text : τ → Bytes) (S : System τ) : Prop where
  places : Places text S.streams S.processes
  unflushed : ∀ id ∈ S.processes.filterMap Process.own, ∀ f ∈ S.flushed, f.2 ≠ id
  flushed : ∀ f ∈ S.flushed, ∃ stream, S.streams[f.2]? = some stream ∧ stream.shut = true
  shut : ∀ (id : Nat) (stream : Stream), S.streams[id]? = some stream → stream.shut = true →
    stream.written = frames nul ((S.flushedTo id).map text ++ [stop])

variable {text : τ → Bytes} {streams streams' : List Stream} {p : Process τ}

theorem Process.own_between (between : Between p.session) : p.own = none := by
  have closed : p.session.channels.all (·.closed) = true := by
    rw [List.all_eq_true]
    exact fun ch member => (between.ended ch member).closed
  rw [Process.own, if_pos (.inr closed)]

theorem Process.own_owner {before : List (Channel τ)} {ch : Channel τ} {id : Nat} (opened : p.inherited = false)
    (during : During text p.session before ch) (length : p.streams.length = p.session.channels.length)
    (stream : p.streams[before.length]? = some id) : p.own = some id := by
  have open' : p.session.channels.all (·.closed) ≠ true := by
    intro closed
    have last := List.all_eq_true.mp closed ch (by simp [during.channels])
    rw [during.opened] at last
    cases last
  rw [Process.own, if_neg (by simp [opened, open']), List.getLast?_eq_getElem?, length, during.channels]
  simpa using stream

theorem Process.own_inherited (inherited : p.inherited = true) : p.own = none := by
  rw [Process.own, if_pos (.inl inherited)]

/-- What other processes do leaves a process where it is. -/
theorem Placed.frame (placed : Placed text streams p) (length : p.streams.length = p.session.channels.length)
    (kept : ∀ id ∈ p.own, streams'[id]? = streams[id]?) (more : streams.length ≤ streams'.length)
    (shut : ∀ (id : Nat) (stream : Stream), streams[id]? = some stream → stream.shut = true →
      ∃ stream' : Stream, streams'[id]? = some stream' ∧ stream'.shut = true) : Placed text streams' p := by
  cases placed with
  | between opened between => exact .between opened between
  | owner opened during stream atId =>
    refine .owner opened during stream ?_
    rw [kept _ (Process.own_owner opened during length stream)]
    exact atId
  | inheritor inherited inherits =>
    have known := Nat.lt_of_lt_of_le inherits.known more
    refine .inheritor inherited { inherits with known, flushing := fun main => ?_ }
    obtain ⟨stream, atId, isShut⟩ := inherits.flushing main
    exact shut _ stream atId isShut

section
variable {before : List (Channel τ)} {ch ch' : Channel τ} {id : Nat} {s' : State τ}

theorem Inherits.returned (inherits : Inherits streams p before ch id) {k : Nat} {c : Channel τ}
    (atK : p.session.channels[k]? = some c) : c.worker = .returned := by
  have member := List.mem_of_getElem? atK
  rw [inherits.channels] at member
  rcases List.mem_append.mp member with old | last
  · exact (inherits.ended c old).worker
  · rw [List.mem_singleton.mp last]
    exact inherits.worker

/-- A step of the main thread that leaves the inherited session as `ch'`. -/
theorem Inherits.moves (inherits : Inherits streams p before ch id) (channels : s'.channels = before ++ [ch'])
    (frame : ch'.closed = ch.closed ∧ ch'.worker = ch.worker) (tinyQueue : s'.tinyQueue = p.session.tinyQueue)
    (queued : s'.queued = p.session.queued) (tpCall : TpCallAt s'.main s'.tpCall)
    (flushing : s'.main ≠ .idle → ∃ stream, streams[id]? = some stream ∧ stream.shut = true) :
    Inherits streams { p with session := s' } before ch' id :=
  { channels  := channels
    ended     := inherits.ended
    opened    := frame.1.trans inherits.opened
    worker    := frame.2.trans inherits.worker
    tinyQueue := tinyQueue.trans inherits.tinyQueue
    queued    := queued.trans inherits.queued
    tpCall    := tpCall
    stream    := inherits.stream
    known     := inherits.known
    flushing  := flushing }

theorem sockets_last (channels : p.session.channels = before ++ [ch]) (channels' : s'.channels = before ++ [ch'])
    (same : sockets s' = sockets p.session) : ch'.written = ch.written ∧ ch'.closed = ch.closed := by
  rw [sockets, sockets, channels, channels', List.map_append, List.map_append] at same
  simpa using List.append_cancel_left same

/-- A step that touches no socket, in a session that the process was forked with. -/
theorem Inherits.quiet (inherits : Inherits streams p before ch id) (step : Session.Step text p.session s')
    (same : sockets s' = sockets p.session) (queued : s'.queued = p.session.queued)
    (flushing : s'.main ≠ .idle → p.session.main = .idle →
      ∃ stream, streams[id]? = some stream ∧ stream.shut = true) :
    ∃ ch', Inherits streams { p with session := s' } before ch' id := by
  have traced := inherits.tpCall
  have started (main : p.session.main ≠ .idle) : s'.main ≠ .idle →
      ∃ stream, streams[id]? = some stream ∧ stream.shut = true := fun _ => inherits.flushing main
  cases step with
  | startAgain main tpCall =>
    refine ⟨ch, inherits.moves inherits.channels ⟨rfl, rfl⟩ rfl rfl ?_ inherits.flushing⟩
    rw [State.enable, main]
    exact Option.some_ne_none true
  | socketFails main tpCall | start fd main tpCall =>
    rw [main] at traced
    exact absurd tpCall traced
  | stop main =>
    refine ⟨ch, inherits.moves inherits.channels ⟨rfl, rfl⟩ rfl rfl ?_ inherits.flushing⟩
    rw [main] at traced
    rw [State.stop, main]
    exact fun none => traced (Option.map_eq_none_iff.mp none)
  | returnEvent trace main tpCall tinyQueue => simp at queued
  | flush main =>
    unfold State.flush at flushing ⊢
    split
    next => exact ⟨ch, inherits⟩
    next opened =>
      rw [if_neg opened] at flushing
      exact ⟨ch, inherits.moves inherits.channels ⟨rfl, rfl⟩ rfl rfl trivial fun _ => flushing (by simp) main⟩
  | flushStop main =>
    exact ⟨ch, inherits.moves inherits.channels ⟨rfl, rfl⟩ rfl rfl trivial (started (by simp [main]))⟩
  | flushClear main =>
    exact ⟨ch, inherits.moves inherits.channels ⟨rfl, rfl⟩ rfl rfl rfl (started (by simp [main]))⟩
  | @flushTerminate k main tinyQueue =>
    obtain rfl : before.length = k := Option.some.inj (inherits.tinyQueue.symm.trans tinyQueue)
    rw [main] at traced
    have channels := State.modify_last inherits.channels (.push .terminator)
    exact ⟨_, inherits.moves channels ⟨rfl, rfl⟩ rfl rfl traced (started (by simp [main]))⟩
  | flushJoin main =>
    rw [main] at traced
    exact ⟨ch, inherits.moves inherits.channels ⟨rfl, rfl⟩ rfl rfl traced (started (by simp [main]))⟩
  | @flushDestroy k main tinyQueue =>
    obtain rfl : before.length = k := Option.some.inj (inherits.tinyQueue.symm.trans tinyQueue)
    rw [main] at traced
    have channels := State.modify_last inherits.channels ({ · with destroyed := true })
    exact ⟨_, inherits.moves channels ⟨rfl, rfl⟩ rfl rfl traced (started (by simp [main]))⟩
  | @flushSend j main resolves =>
    obtain rfl := resolves.last inherits.channels inherits.ended
    have channels := State.modify_last inherits.channels ({ ·.send stop with stopSent := true })
    have written := (sockets_last inherits.channels channels same).1
    simp [Channel.send] at written
  | @flushClose j main resolves =>
    obtain rfl := resolves.last inherits.channels inherits.ended
    have channels := State.modify_last inherits.channels ({ · with closed := true })
    have closed := (sockets_last inherits.channels channels same).2
    rw [inherits.opened] at closed
    cases closed
  | pop atK worker | popTerminator atK worker | send atK worker | sendFails atK worker =>
    rw [inherits.returned atK] at worker
    cases worker

theorem Placed.quiet (placed : Placed text streams p) (step : Session.Step text p.session s')
    (same : sockets s' = sockets p.session) (length : p.streams.length = p.session.channels.length)
    (spares : p.inherited = true → s'.queued = p.session.queued ∧
      (s'.main ≠ .idle → p.session.main = .idle → ∀ id ∈ p.streams.getLast?, ∀ stream ∈ streams[id]?,
        stream.shut = true)) :
    Placed text streams { p with session := s' } ∧ Process.own { p with session := s' } = p.own := by
  have lengths : s'.channels.length = p.session.channels.length := by
    have same := congrArg List.length same
    simpa [sockets] using same
  cases placed with
  | between opened between =>
    rcases step.between between with ⟨still, _⟩ | ⟨fd, during⟩
    · exact ⟨.between opened still, (Process.own_between still).trans (Process.own_between between).symm⟩
    · have channels := congrArg List.length during.channels
      rw [List.length_append, List.length_singleton] at channels
      omega
  | @owner before ch id opened during stream atId =>
    obtain ⟨ch', kept, still | ⟨closing, between, channels, finished⟩⟩ := step.during during
    · have written := (sockets_last during.channels still.channels same).1
      refine ⟨.owner opened still stream (written ▸ atId), ?_⟩
      rw [Process.own_owner opened during length stream]
      exact Process.own_owner opened still (length.trans lengths.symm) stream
    · have closed := (sockets_last during.channels channels same).2
      rw [during.opened, (between.ended ch' (by simp [channels])).closed] at closed
      cases closed
  | @inheritor before ch id inherited inherits =>
    obtain ⟨queued, unstarted⟩ := spares inherited
    have last : p.streams.getLast? = some id := by
      rw [List.getLast?_eq_getElem?, length, inherits.channels]
      simpa using inherits.stream
    obtain ⟨ch', still⟩ := inherits.quiet step same queued fun started idle =>
      ⟨_, List.getElem?_eq_getElem inherits.known,
        unstarted started idle id last _ (List.getElem?_eq_getElem inherits.known)⟩
    have own : Process.own { p with session := s' } = none := Process.own_inherited inherited
    exact ⟨.inheritor inherited still, own.trans (Process.own_inherited inherited).symm⟩

end

theorem Process.fork_length (p : Process τ) : p.fork.session.channels.length = p.session.channels.length := by
  rw [Process.fork, List.length_map]

/-- A child that is forked with a session open. -/
theorem Placed.fork_open {before : List (Channel τ)} {ch : Channel τ} {id : Nat}
    (channels : p.session.channels = before ++ [ch]) (ended : ∀ c ∈ before, c.Ended) (opened : ch.closed = false)
    (tinyQueue : p.session.tinyQueue = some before.length) (idle : p.session.main = .idle)
    (tpCall : TpCallAt p.session.main p.session.tpCall) (stream : p.streams[before.length]? = some id)
    (known : id < streams.length) : Placed text streams p.fork ∧ p.fork.own = none := by
  have inherited : p.fork.inherited = true := by
    rw [Process.fork]
    simp [channels, opened]
  have ended' : ∀ c ∈ before.map fun old => { old with worker := .returned }, c.Ended := by
    intro c member
    obtain ⟨old, inside, rfl⟩ := List.mem_map.mp member
    exact ⟨(ended old inside).closed, rfl⟩
  have inherits : Inherits streams p.fork (before.map ({ · with worker := .returned }))
      { ch with worker := .returned } id :=
    { channels  := by simp [Process.fork, channels]
      ended     := ended'
      opened    := opened
      worker    := rfl
      tinyQueue := by rw [List.length_map]; exact tinyQueue
      queued    := rfl
      tpCall    := tpCall
      stream    := by rw [List.length_map]; exact stream
      known     := known
      flushing  := fun started => absurd idle started }
  exact ⟨.inheritor inherited inherits, Process.own_inherited inherited⟩

theorem Placed.fork (placed : Placed text streams p) (idle : p.session.main = .idle) :
    Placed text streams p.fork ∧ p.fork.own = none := by
  cases placed with
  | between opened between =>
    have ended : ∀ c ∈ p.fork.session.channels, c.Ended := by
      intro c member
      obtain ⟨old, inside, rfl⟩ := List.mem_map.mp member
      exact ⟨(between.ended old inside).closed, rfl⟩
    have closed : p.fork.inherited = false := by
      rw [Process.fork, List.any_eq_false]
      exact fun c member => by simp [(between.ended c member).closed]
    have forked : Between p.fork.session := ⟨between.main, between.tpCall, between.socketFd, ended⟩
    exact ⟨.between closed forked, Process.own_between forked⟩
  | owner opened during stream atId =>
    exact Placed.fork_open during.channels during.ended during.opened during.tinyQueue idle during.tpCall stream
      (List.getElem?_eq_some_iff.mp atId).1
  | inheritor inherited inherits =>
    exact Placed.fork_open inherits.channels inherits.ended inherits.opened inherits.tinyQueue idle inherits.tpCall
      inherits.stream inherits.known

theorem Placed.known (placed : Placed text streams p) (length : p.streams.length = p.session.channels.length)
    {id : Nat} (own : p.own = some id) : id < streams.length := by
  cases placed with
  | between opened between =>
    rw [Process.own_between between] at own
    cases own
  | owner opened during stream atId =>
    rw [Process.own_owner opened during length stream] at own
    obtain rfl := Option.some.inj own
    exact (List.getElem?_eq_some_iff.mp atId).1
  | inheritor inherited inherits =>
    rw [Process.own_inherited inherited] at own
    cases own

theorem Placed.unshut (placed : Placed text streams p) (length : p.streams.length = p.session.channels.length)
    {id : Nat} (own : p.own = some id) {stream : Stream} (atId : streams[id]? = some stream) :
    stream.shut = false := by
  cases placed with
  | between opened between =>
    rw [Process.own_between between] at own
    cases own
  | owner opened during mine started =>
    rw [Process.own_owner opened during length mine] at own
    obtain rfl := Option.some.inj own
    rw [Option.some.inj (atId.symm.trans started)]
  | inheritor inherited inherits =>
    rw [Process.own_inherited inherited] at own
    cases own

section
variable {before after : List (Process τ)} {p' : Process τ}

theorem owns_split (before : List (Process τ)) (p : Process τ) (after : List (Process τ)) :
    ((before ++ p :: after).filterMap Process.own).Perm
      (p.own.toList ++ (before ++ after).filterMap Process.own) := by
  have middle : (before ++ p :: after).Perm (p :: (before ++ after)) := List.perm_middle
  refine (middle.filterMap Process.own).trans ?_
  cases own : p.own <;> simp [own]

/-- No two processes have opened the same stream. -/
theorem Places.own_ne (places : Places text streams (before ++ p :: after)) {id : Nat}
    (member : id ∈ (before ++ after).filterMap Process.own) : p.own ≠ some id := by
  have distinct := (owns_split before p after).nodup_iff.mp places.distinct
  intro same
  rw [same, Option.toList_some, List.singleton_append, List.nodup_cons] at distinct
  exact distinct.1 member

/-- One process moves, and the streams change for it alone. -/
theorem Places.replace (places : Places text streams (before ++ p :: after))
    (length : p'.streams.length = p'.session.channels.length) (placed : Placed text streams' p')
    (own : ∀ id, p'.own = some id → p.own = some id ∨ streams.length ≤ id) (more : streams.length ≤ streams'.length)
    (kept : ∀ id < streams.length, p.own ≠ some id → streams'[id]? = streams[id]?)
    (shut : ∀ (id : Nat) (stream : Stream), streams[id]? = some stream → stream.shut = true →
      ∃ stream' : Stream, streams'[id]? = some stream' ∧ stream'.shut = true) :
    Places text streams' (before ++ p' :: after) := by
  have distinct := (owns_split before p after).nodup_iff.mp places.distinct
  have beside {q : Process τ} (member : q ∈ before ++ after) : q ∈ before ++ p :: after := by
    rcases List.mem_append.mp member with early | late
    · exact List.mem_append_left _ early
    · exact List.mem_append_right _ (List.mem_cons_of_mem p late)
  have inside {q : Process τ} (member : q ∈ before ++ p' :: after) : q = p' ∨ q ∈ before ++ after := by
    simp only [List.mem_append, List.mem_cons] at member ⊢
    tauto
  have known {id : Nat} (member : id ∈ (before ++ after).filterMap Process.own) : id < streams.length := by
    obtain ⟨q, other, atId⟩ := List.mem_filterMap.mp member
    exact (places.placed q (beside other)).known (places.lengths q (beside other)) atId
  refine ⟨fun q member => ?_, fun q member => ?_, ?_⟩
  · rcases inside member with rfl | other
    · exact length
    · exact places.lengths q (beside other)
  · rcases inside member with rfl | other
    · exact placed
    · refine (places.placed q (beside other)).frame (places.lengths q (beside other)) (fun id own => ?_) more shut
      have member := List.mem_filterMap.mpr ⟨q, other, own⟩
      exact kept id (known member) (places.own_ne member)
  · rw [(owns_split before p' after).nodup_iff]
    refine List.Nodup.append ?_ distinct.of_append_right fun id here there => ?_
    · cases p'.own <;> simp
    · rcases own id (Option.mem_toList.mp here) with same | new
      · exact places.own_ne there same
      · have old := known there
        omega

theorem mem_owns {id : Nat} : id ∈ (before ++ p :: after).filterMap Process.own ↔
    p.own = some id ∨ id ∈ (before ++ after).filterMap Process.own := by
  rw [(owns_split before p after).mem_iff, List.mem_append, Option.mem_toList]

/-- The worker that runs is that of a session its process has opened. -/
theorem Placed.running (placed : Placed text streams p) {k : Nat} {ch : Channel τ}
    (atK : p.session.channels[k]? = some ch) (running : ch.worker ≠ .returned) :
    p.inherited = false ∧ ∃ first id, During text p.session first ch ∧ k = first.length ∧
      p.streams[first.length]? = some id ∧ streams[id]? = some ⟨ch.written, false⟩ := by
  cases placed with
  | between opened between => exact absurd (between.ended ch (List.mem_of_getElem? atK)).worker running
  | owner opened during stream atId =>
    obtain ⟨rfl, rfl⟩ := during.running atK running
    exact ⟨opened, _, _, during, rfl, stream, atId⟩
  | inheritor inherited inherits => exact absurd (inherits.returned atK) running

variable {S : System τ} {s' : State τ}

/-- A process moves, and the streams stay as they are. -/
theorem Invariant.move (inv : Invariant text S) (split : S.processes = before ++ p :: after)
    (lengths : p'.streams.length = p'.session.channels.length) (placed : Placed text S.streams p')
    (own : p'.own = p.own) : Invariant text { S with processes := before ++ p' :: after } := by
  have places := inv.places
  rw [split] at places
  refine ⟨places.replace lengths placed (fun id mine => .inl (own ▸ mine)) le_rfl (fun _ _ _ => rfl)
    fun id stream atId isShut => ⟨stream, atId, isShut⟩, fun id mine => ?_, inv.flushed, inv.shut⟩
  rw [mem_owns, own, ← mem_owns, ← split] at mine
  exact inv.unflushed id mine

theorem Invariant.quiet (inv : Invariant text S) (split : S.processes = before ++ p :: after)
    (step : Session.Step text p.session s') (same : sockets s' = sockets p.session)
    (spares : p.inherited = true → s'.queued = p.session.queued ∧
      (s'.main ≠ .idle → p.session.main = .idle → ∀ id ∈ p.streams.getLast?, ∀ stream ∈ S.streams[id]?,
        stream.shut = true)) :
    Invariant text { S with processes := before ++ { p with session := s' } :: after } := by
  have member : p ∈ S.processes := by simp [split]
  have length := inv.places.lengths p member
  obtain ⟨placed, own⟩ := (inv.places.placed p member).quiet step same length spares
  have lengths : s'.channels.length = p.session.channels.length := by
    have same := congrArg List.length same
    simpa [sockets] using same
  exact inv.move split (length.trans lengths.symm) placed own

/-- A process that starts a session had none. -/
theorem Placed.start (placed : Placed text streams p) (fd : Nat) (idle : p.session.main = .idle)
    (tpCall : p.session.tpCall = none) :
    p.inherited = false ∧ ∃ ch : Channel τ,
      During text (p.session.openSession fd) p.session.channels ch ∧ ch.written = [] := by
  cases placed with
  | between opened between =>
    have step : Session.Step text p.session (p.session.openSession fd) := .start fd idle tpCall
    rcases step.between between with ⟨still, _⟩ | ⟨fd', during⟩
    · cases still.tpCall
    · exact ⟨opened, _, during, rfl⟩
  | owner opened during stream atId =>
    have traced := during.tpCall
    rw [idle] at traced
    exact absurd tpCall traced
  | inheritor inherited inherits =>
    have traced := inherits.tpCall
    rw [idle] at traced
    exact absurd tpCall traced

theorem Invariant.start (inv : Invariant text S) (split : S.processes = before ++ p :: after) (fd : Nat)
    (idle : p.session.main = .idle) (tpCall : p.session.tpCall = none) :
    Invariant text { S with
      processes := before ++ p.start fd S.streams.length :: after
      streams := S.streams ++ [{}] } := by
  have places := inv.places
  rw [split] at places
  have member : p ∈ before ++ p :: after := by simp
  have length := places.lengths p member
  have old {id : Nat} (known : id < S.streams.length) : (S.streams ++ [({} : Stream)])[id]? = S.streams[id]? :=
    List.getElem?_append_left known
  obtain ⟨opened, ch, during, fresh⟩ := (places.placed p member).start fd idle tpCall
  have stream : (p.start fd S.streams.length).streams[p.session.channels.length]? = some S.streams.length := by
    rw [Process.start, ← length, List.getElem?_concat_length]
  have lengths : (p.start fd S.streams.length).streams.length =
      (p.start fd S.streams.length).session.channels.length := by
    simp [Process.start, State.openSession, length]
  have own : (p.start fd S.streams.length).own = some S.streams.length :=
    Process.own_owner opened during lengths stream
  have started : (S.streams ++ [({} : Stream)])[S.streams.length]? = some ⟨ch.written, false⟩ := by
    rw [List.getElem?_concat_length, fresh]
  refine ⟨places.replace lengths (.owner opened during stream started) (fun id mine => ?_) (by simp)
    (fun id known _ => old known) fun id stream atId isShut => ?_, fun id mine f member => ?_, fun f member => ?_,
    fun id stream atId isShut => ?_⟩
  · rw [own] at mine
    exact .inr (Nat.le_of_eq (Option.some.inj mine))
  · exact ⟨stream, (old (List.getElem?_eq_some_iff.mp atId).1).trans atId, isShut⟩
  · rcases mem_owns.mp mine with new | other
    · rw [own] at new
      obtain ⟨stream, atId, _⟩ := inv.flushed f member
      have known := (List.getElem?_eq_some_iff.mp atId).1
      have new := Option.some.inj new
      omega
    · refine inv.unflushed id ?_ f member
      rw [split, mem_owns]
      exact .inr other
  · obtain ⟨stream, atId, isShut⟩ := inv.flushed f member
    exact ⟨stream, (old (List.getElem?_eq_some_iff.mp atId).1).trans atId, isShut⟩
  · by_cases known : id < S.streams.length
    · exact inv.shut id stream ((old known).symm.trans atId) isShut
    · simp only at atId
      rw [List.getElem?_append_right (Nat.not_lt.mp known)] at atId
      rw [List.mem_singleton.mp (List.mem_of_getElem? atId)] at isShut
      cases isShut

theorem getElem?_set_cases {streams : List Stream} {id i : Nat} {stream stream' : Stream}
    (atI : (streams.set id stream')[i]? = some stream) :
    i = id ∧ stream = stream' ∨ i ≠ id ∧ streams[i]? = some stream := by
  by_cases here : id = i
  · subst here
    have bound := (List.getElem?_eq_some_iff.mp atI).1
    rw [List.length_set] at bound
    rw [List.getElem?_set_self bound] at atI
    exact .inl ⟨rfl, (Option.some.inj atI).symm⟩
  · rw [List.getElem?_set_ne here] at atI
    exact .inr ⟨Ne.symm here, atI⟩

/-- The process whose session is open writes to its stream. -/
theorem Invariant.write (inv : Invariant text S) (split : S.processes = before ++ p :: after)
    {first : List (Channel τ)} {ch ch' : Channel τ} {id : Nat} {stream : Stream} (bytes : Bytes)
    (opened : p.inherited = false) (during : During text p.session first ch)
    (mine : p.streams[first.length]? = some id) (atId : S.streams[id]? = some stream)
    (same : stream = ⟨ch.written, false⟩) (during' : During text s' first ch')
    (written : ch'.written = ch.written ++ bytes ++ [nul]) :
    Invariant text { S with
      processes := before ++ { p with session := s' } :: after
      streams := S.streams.set id (stream.send bytes) } := by
  have places := inv.places
  rw [split] at places
  have member : p ∈ before ++ p :: after := by simp
  have length := places.lengths p member
  have own := Process.own_owner opened during length mine
  have known := (List.getElem?_eq_some_iff.mp atId).1
  have lengths : p.streams.length = s'.channels.length := by
    rw [length, during.channels, during'.channels, List.length_append, List.length_append, List.length_singleton,
      List.length_singleton]
  have own' : Process.own { p with session := s' } = some id := Process.own_owner opened during' lengths mine
  have sent : (S.streams.set id (stream.send bytes))[id]? = some ⟨ch'.written, false⟩ := by
    rw [List.getElem?_set_self known, same, written]
    rfl
  have other {i : Nat} (apart : i ≠ id) : (S.streams.set id (stream.send bytes))[i]? = S.streams[i]? :=
    List.getElem?_set_ne (Ne.symm apart)
  have unshut {i : Nat} {old : Stream} (atI : S.streams[i]? = some old) (isShut : old.shut = true) : i ≠ id := by
    rintro rfl
    rw [Option.some.inj (atI.symm.trans atId), same] at isShut
    cases isShut
  refine ⟨places.replace lengths (.owner opened during' mine sent) (fun i atOwn => .inl ?_) (by rw [List.length_set])
    (fun i _ apart => other fun same => apart (same ▸ own)) fun i old atI isShut => ⟨old, ?_, isShut⟩,
    fun i atOwn => ?_, fun f member => ?_, fun i old atI isShut => ?_⟩
  · rw [own, ← own', atOwn]
  · rw [other (unshut atI isShut)]
    exact atI
  · rw [mem_owns, own', ← own, ← mem_owns, ← split] at atOwn
    exact inv.unflushed i atOwn
  · obtain ⟨old, atF, isShut⟩ := inv.flushed f member
    exact ⟨old, by rw [other (unshut atF isShut)]; exact atF, isShut⟩
  · rcases getElem?_set_cases atI with ⟨rfl, rfl⟩ | ⟨_, before⟩
    · rw [Stream.send, same] at isShut
      cases isShut
    · exact inv.shut i old before isShut

theorem flushedTo_append (S : System τ) (traces : List τ) (id i : Nat) :
    System.flushedTo { S with flushed := S.flushed ++ [(traces, id)] } i =
      S.flushedTo i ++ if id = i then traces else [] := by
  unfold System.flushedTo
  rw [List.filter_append, List.flatMap_append]
  by_cases same : id = i <;> simp [same]

/-- The session of a process is over, and its stream is shut down. -/
theorem Invariant.close (inv : Invariant text S) (split : S.processes = before ++ p :: after) {id : Nat}
    {stream : Stream} (opened : p'.inherited = false) (between : Between p'.session)
    (lengths : p'.streams.length = p'.session.channels.length) (atId : S.streams[id]? = some stream)
    (mine : p.own = some id ∨ stream.shut = true)
    (written : stream.written = frames nul ((S.flushedTo id ++ p.session.queued).map text ++ [stop])) :
    Invariant text { S with
      processes := before ++ p' :: after
      streams := S.streams.set id { stream with shut := true }
      flushed := S.flushed ++ [(p.session.queued, id)] } := by
  have places := inv.places
  rw [split] at places
  have known := (List.getElem?_eq_some_iff.mp atId).1
  have own' : p'.own = none := Process.own_between between
  have shut : (S.streams.set id { stream with shut := true })[id]? = some { stream with shut := true } :=
    List.getElem?_set_self known
  have other {i : Nat} (apart : i ≠ id) : (S.streams.set id { stream with shut := true })[i]? = S.streams[i]? :=
    List.getElem?_set_ne (Ne.symm apart)
  have stays {i : Nat} {old : Stream} (atI : S.streams[i]? = some old) (isShut : old.shut = true) :
      ∃ new : Stream, (S.streams.set id { stream with shut := true })[i]? = some new ∧ new.shut = true := by
    by_cases here : i = id
    · subst here
      exact ⟨_, shut, rfl⟩
    · exact ⟨old, by rw [other here]; exact atI, isShut⟩
  have beside {i : Nat} (member : i ∈ (before ++ after).filterMap Process.own) : i ≠ id := by
    rintro rfl
    rcases mine with own | isShut
    · exact places.own_ne member own
    · have all : i ∈ (before ++ p :: after).filterMap Process.own := mem_owns.mpr (.inr member)
      obtain ⟨q, inside, own⟩ := List.mem_filterMap.mp all
      have unshut := (places.placed q inside).unshut (places.lengths q inside) own atId
      rw [isShut] at unshut
      cases unshut
  refine ⟨places.replace lengths (.between opened between) (fun i own => ?_) (by rw [List.length_set])
    (fun i _ apart => ?_) fun i old atI isShut => stays atI isShut, fun i own f member => ?_, fun f member => ?_,
    fun i old atI isShut => ?_⟩
  · rw [own'] at own
    cases own
  · by_cases here : i = id
    · subst here
      rcases mine with own | isShut
      · exact absurd own apart
      · rw [shut, atId, ← isShut]
    · exact other here
  · rcases mem_owns.mp own with new | old
    · rw [own'] at new
      cases new
    · rcases List.mem_append.mp member with early | late
      · refine inv.unflushed i ?_ f early
        rw [split, mem_owns]
        exact .inr old
      · rw [List.mem_singleton.mp late]
        exact Ne.symm (beside old)
  · rcases List.mem_append.mp member with early | late
    · obtain ⟨old, atF, isShut⟩ := inv.flushed f early
      exact stays atF isShut
    · rw [List.mem_singleton.mp late]
      exact ⟨_, shut, rfl⟩
  · have flushedTo : System.flushedTo { S with
        processes := before ++ p' :: after
        streams := S.streams.set id { stream with shut := true }
        flushed := S.flushed ++ [(p.session.queued, id)] } i =
        S.flushedTo i ++ if id = i then p.session.queued else [] := flushedTo_append S p.session.queued id i
    rw [flushedTo]
    rcases getElem?_set_cases atI with ⟨rfl, rfl⟩ | ⟨apart, before⟩
    · rw [if_pos rfl]
      exact written
    · rw [if_neg (Ne.symm apart), List.append_nil]
      exact inv.shut i old before isShut

theorem Invariant.fork (inv : Invariant text S) (member : p ∈ S.processes) (idle : p.session.main = .idle) :
    Invariant text { S with processes := S.processes ++ [p.fork] } := by
  obtain ⟨placed, own⟩ := (inv.places.placed p member).fork idle
  have owns : (S.processes ++ [p.fork]).filterMap Process.own = S.processes.filterMap Process.own := by
    simp [own]
  have lengths : p.fork.streams.length = p.fork.session.channels.length := by
    rw [p.fork_length]
    exact inv.places.lengths p member
  refine ⟨⟨fun q inside => ?_, fun q inside => ?_, ?_⟩, ?_, inv.flushed, inv.shut⟩
  · rcases List.mem_append.mp inside with old | child
    · exact inv.places.lengths q old
    · rw [List.mem_singleton.mp child]
      exact lengths
  · rcases List.mem_append.mp inside with old | child
    · exact inv.places.placed q old
    · rw [List.mem_singleton.mp child]
      exact placed
  · rw [owns]
    exact inv.places.distinct
  · rw [owns]
    exact inv.unflushed

/-- A step of the open session that does not end its flush leaves it open. -/
theorem still_during {first : List (Channel τ)} {ch ch' : Channel τ} (during : During text p.session first ch)
    (step : Session.Step text p.session s') (channels : s'.channels = first ++ [ch'])
    (main : s'.main = .idle → p.session.main ≠ .closing) : During text s' first ch' := by
  obtain ⟨new, _, still | ⟨closing, between, _, _⟩⟩ := step.during during
  · have same := List.append_cancel_left (still.channels.symm.trans channels)
    rw [← List.singleton_inj.mp same]
    exact still
  · exact absurd closing (main between.main)

theorem Invariant.send (inv : Invariant text S) (split : S.processes = before ++ p :: after) {k j id : Nat}
    {ch : Channel τ} {trace : τ} {stream : Stream} (atK : p.session.channels[k]? = some ch)
    (worker : ch.worker = .sending trace) (resolves : p.session.Resolves ch.fd j) (atJ : p.streams[j]? = some id)
    (atId : S.streams[id]? = some stream) :
    stream.shut = false ∧ Invariant text { S with
      processes := before ++ { p with
        session := (p.session.modify j (.send (text trace))).modify k ({ · with worker := .popping }) } :: after
      streams := S.streams.set id (stream.send (text trace)) } := by
  have placed := inv.places.placed p (by simp [split])
  obtain ⟨opened, first, own, during, rfl, mine, ownStream⟩ := placed.running atK (by simp [worker])
  obtain rfl := during.resolves resolves
  obtain rfl := Option.some.inj (mine.symm.trans atJ)
  have same := Option.some.inj (atId.symm.trans ownStream)
  have channels := State.modify_last (during.modify (.send (text trace))) ({ · with worker := .popping })
  have still := still_during during (.send atK worker resolves) channels fun idle => by
    simp [show p.session.main = .idle from idle]
  exact ⟨by rw [same], inv.write split (text trace) opened during mine atId same still rfl⟩

/-- The end of a flush: what is sent, or refused, on the stream of the session. -/
theorem Placed.flushing (placed : Placed text streams p) (flushing : p.session.main ≠ .idle) {j id : Nat}
    {stream : Stream} (resolves : p.session.Resolves p.session.socketFd j) (atJ : p.streams[j]? = some id)
    (atId : streams[id]? = some stream) :
    (∃ first ch, p.inherited = false ∧ During text p.session first ch ∧ j = first.length ∧
      stream = ⟨ch.written, false⟩) ∨
    ∃ first ch, p.inherited = true ∧ Inherits streams p first ch id ∧ j = first.length ∧ stream.shut = true := by
  cases placed with
  | between opened between => exact absurd between.main flushing
  | @owner first ch own opened during mine ownStream =>
    obtain rfl := during.resolves resolves
    obtain rfl := Option.some.inj (mine.symm.trans atJ)
    exact .inl ⟨first, ch, opened, during, rfl, Option.some.inj (atId.symm.trans ownStream)⟩
  | @inheritor first ch own inherited inherits =>
    obtain rfl := resolves.last inherits.channels inherits.ended
    obtain rfl := Option.some.inj (inherits.stream.symm.trans atJ)
    obtain ⟨old, atOld, shut⟩ := inherits.flushing flushing
    obtain rfl := Option.some.inj (atId.symm.trans atOld)
    exact .inr ⟨first, ch, inherited, inherits, rfl, shut⟩

theorem Invariant.flushClose (inv : Invariant text S) (split : S.processes = before ++ p :: after) {j id : Nat}
    {stream : Stream} (main : p.session.main = .closing) (resolves : p.session.Resolves p.session.socketFd j)
    (atJ : p.streams[j]? = some id) (atId : S.streams[id]? = some stream) :
    Invariant text { S with
      processes := before ++ { p with
        session := { p.session.modify j ({ · with closed := true }) with socketFd := -1, main := .idle }
        inherited := false } :: after
      streams := S.streams.set id { stream with shut := true }
      flushed := S.flushed ++ [(p.session.queued, id)] } := by
  have member : p ∈ S.processes := by simp [split]
  have lengths := inv.places.lengths p member
  have modified : (p.session.modify j ({ · with closed := true })).channels.length = p.session.channels.length := by
    rw [State.modify, List.length_modify]
  rcases (inv.places.placed p member).flushing (by simp [main]) resolves atJ atId with
    ⟨first, ch, opened, during, rfl, same⟩ | ⟨first, ch, inherited, inherits, rfl, shut⟩
  · have own := Process.own_owner opened during lengths atJ
    have nothing : S.flushedTo id = [] := by
      have none : ∀ f ∈ S.flushed, ¬ (decide (f.2 = id) = true) := fun f flushed => by
        simpa using inv.unflushed id (List.mem_filterMap.mpr ⟨p, member, own⟩) f flushed
      rw [System.flushedTo, List.filter_eq_nil_iff.mpr none]
      rfl
    have closed := during.modify ({ · with closed := true })
    obtain ⟨new, _, still | ⟨_, between, channels, finished⟩⟩ := (Session.Step.flushClose main resolves).during during
    · have opened := still.opened
      rw [List.singleton_inj.mp (List.append_cancel_left (still.channels.symm.trans closed))] at opened
      cases opened
    · refine inv.close split rfl between (lengths.trans modified.symm) atId (.inl own) ?_
      have written := finished.written
      rw [List.singleton_inj.mp (List.append_cancel_left (channels.symm.trans closed))] at written
      rw [nothing, same]
      exact written
  · have traced := inherits.tpCall
    rw [main] at traced
    have closed := State.modify_last inherits.channels ({ · with closed := true })
    have between : Between { p.session.modify first.length ({ · with closed := true }) with
        socketFd := -1, main := .idle } := by
      refine ⟨rfl, traced, Int.le_of_lt (by decide : (-1 : Int) < 0), fun c inside => ?_⟩
      simp only [closed] at inside
      rcases List.mem_append.mp inside with old | last
      · exact inherits.ended c old
      · rw [List.mem_singleton.mp last]
        exact ⟨rfl, inherits.worker⟩
    refine inv.close split rfl between (lengths.trans modified.symm) atId (.inr shut) ?_
    rw [inherits.queued, List.append_nil]
    exact inv.shut id stream atId shut

theorem Invariant.flushSend (inv : Invariant text S) (split : S.processes = before ++ p :: after) {j id : Nat}
    {stream : Stream} (main : p.session.main = .sendingStop) (resolves : p.session.Resolves p.session.socketFd j)
    (atJ : p.streams[j]? = some id) (atId : S.streams[id]? = some stream) (unshut : stream.shut = false) :
    Invariant text { S with
      processes := before ++ { p with
        session := { p.session.modify j ({ ·.send stop with stopSent := true }) with main := .closing } } :: after
      streams := S.streams.set id (stream.send stop) } := by
  rcases (inv.places.placed p (by simp [split])).flushing (by simp [main]) resolves atJ atId with
    ⟨first, ch, opened, during, rfl, same⟩ | ⟨first, ch, inherited, inherits, rfl, shut⟩
  · have channels := during.modify ({ ·.send stop with stopSent := true })
    have still := still_during during (.flushSend main resolves) channels (by simp)
    exact inv.write split stop opened during atJ atId same still rfl
  · rw [unshut] at shut
    cases shut

/-- The stop message of a child is refused when its parent has flushed. -/
theorem Invariant.flushSendRefused (inv : Invariant text S) (split : S.processes = before ++ p :: after) {j id : Nat}
    {stream : Stream} (main : p.session.main = .sendingStop) (resolves : p.session.Resolves p.session.socketFd j)
    (atJ : p.streams[j]? = some id) (atId : S.streams[id]? = some stream) (shut : stream.shut = true) :
    Invariant text { S with
      processes := before ++ { p with session := { p.session with main := .closing } } :: after } := by
  have member : p ∈ S.processes := by simp [split]
  rcases (inv.places.placed p member).flushing (by simp [main]) resolves atJ atId with
    ⟨first, ch, opened, during, rfl, same⟩ | ⟨first, ch, inherited, inherits, rfl, _⟩
  · rw [same] at shut
    cases shut
  · have traced := inherits.tpCall
    rw [main] at traced
    have moved : Inherits S.streams { p with session := { p.session with main := .closing } } first ch id :=
      inherits.moves inherits.channels ⟨rfl, rfl⟩ rfl rfl traced fun _ => inherits.flushing (by simp [main])
    refine inv.move split (inv.places.lengths p member) (.inheritor inherited moved) ?_
    rw [Process.own_inherited inherited]
    exact Process.own_inherited inherited

theorem Invariant.step {S' : System τ} (inv : Invariant text S) (step : Guarded (Step text) SparesParent S S') :
    Invariant text S' := by
  obtain ⟨step, spares⟩ := step
  cases step with
  | @quiet p after s' before split step same =>
    refine inv.quiet split step same fun inherited => ?_
    exact spares before.length p { p with session := s' } (by simp [split]) (by simp) inherited
  | start before fd split idle tpCall => exact inv.start split fd idle tpCall
  | fork member idle => exact inv.fork member idle
  | send before split atK worker resolves atJ atId => exact (inv.send split atK worker resolves atJ atId).2
  | sendRefused before split atK worker resolves atJ atId shut =>
    rw [(inv.send split atK worker resolves atJ atId).1] at shut
    cases shut
  | flushSend before split main resolves atJ atId unshut => exact inv.flushSend split main resolves atJ atId unshut
  | flushSendRefused before split main resolves atJ atId shut =>
    exact inv.flushSendRefused split main resolves atJ atId shut
  | flushClose before split main resolves atJ atId => exact inv.flushClose split main resolves atJ atId

end

theorem Invariant.init : Invariant text ({} : System τ) := by
  have between : Between ({} : Process τ).session := initial_between
  have own : Process.own ({} : Process τ) = none := Process.own_between between
  have none : ([{}] : List (Process τ)).filterMap Process.own = [] := by simp [own]
  refine ⟨⟨fun p member => ?_, fun p member => ?_, ?_⟩, fun id mine => ?_, nofun, nofun⟩
  · rw [List.mem_singleton.mp member]
    rfl
  · rw [List.mem_singleton.mp member]
    exact .between rfl between
  · rw [none]
    exact List.nodup_nil
  · rw [none] at mine
    cases mine

/-- As long as no process queues a trace in a session it was forked with, or flushes
it before its parent has, the agent queues every trace that has been flushed once. -/
theorem flushed_traces_delivered {decode : Bytes → Option τ} (faithful : Faithful text decode) {S : System τ}
    (run : Run (Guarded (Step text) SparesParent) {} S) :
    ∀ f ∈ S.flushed, ∃ stream, S.streams[f.2]? = some stream ∧
      Delivered decode (S.flushedTo f.2) stream.written := by
  have inv : Invariant text S := run.invariant (fun a b inv step => inv.step step) .init
  intro f member
  obtain ⟨stream, atId, isShut⟩ := inv.flushed f member
  refine ⟨stream, atId, ?_⟩
  rw [inv.shut f.2 stream atId isShut]
  exact faithful.delivered (S.flushedTo f.2)

theorem SparesParent.of_split {S S' : System τ} {after : List (Process τ)} {p p' : Process τ}
    (before : List (Process τ)) (split : S.processes = before ++ p :: after)
    (moved : S'.processes = before ++ p' :: after) (spares : p.inherited = true → p'.session.queued = p.session.queued ∧
      (p'.session.main ≠ .idle → p.session.main = .idle → ∀ id ∈ p.streams.getLast?, ∀ stream ∈ S.streams[id]?,
        stream.shut = true)) : SparesParent S S' := by
  intro i q q' atI atI' inherited
  rw [split] at atI
  rw [moved] at atI'
  by_cases here : i = before.length
  · subst here
    rw [List.getElem?_append_right le_rfl, Nat.sub_self, List.getElem?_cons_zero, Option.some.injEq] at atI atI'
    subst atI atI'
    exact spares inherited
  · have same : q' = q := by
      rcases Nat.lt_or_gt_of_ne here with early | late
      · rw [List.getElem?_append_left early] at atI atI'
        exact Option.some.inj (atI'.symm.trans atI)
      · obtain ⟨k, rfl⟩ := Nat.exists_eq_add_of_lt late
        rw [List.getElem?_append_right (by omega), show before.length + k + 1 - before.length = k + 1 by omega,
          List.getElem?_cons_succ] at atI atI'
        exact Option.some.inj (atI'.symm.trans atI)
    rw [same]
    exact ⟨rfl, fun started idle => absurd idle started⟩

/-- A stream is read in one way. -/
theorem Delivered.unique {decode : Bytes → Option τ} {traces traces' : List τ} {written : Bytes}
    (delivered : Delivered decode traces written) (delivered' : Delivered decode traces' written)
    (nonempty : written ≠ []) : traces = traces' := by
  obtain ⟨n, returned, queue⟩ := delivered [written] (by simpa using nonempty) (by simp)
  obtain ⟨m, returned', queue'⟩ := delivered' [written] (by simpa using nonempty) (by simp)
  have later := @workerLoop_of_not_running τ decode _ (by rw [returned]; decide) m
  have earlier := @workerLoop_of_not_running τ decode _ (by rw [returned']; decide) n
  simp only [workerLoop, ← Function.iterate_add_apply] at later earlier queue queue'
  rw [Nat.add_comm, later] at earlier
  rw [← queue, ← queue', earlier]

end

/-- The message of the one trace. -/
def oneText (_ : Unit) : Bytes := [91, 93]

def oneTrace (message : Bytes) : Option Unit :=
  if message = [91, 93] then some () else none

theorem oneText_faithful : Faithful oneText oneTrace :=
  ⟨fun _ => rfl, by simp [oneText], by simp [oneText, nul], by simp [oneText, stop]⟩

/-- A process that queues the trace and flushes, beside a child that flushes after it. -/
theorem flushed_traces_delivered_child : ∃ S : System Unit, S.flushed = [([()], 0), ([], 0)] ∧
    ∀ f ∈ S.flushed, ∃ stream, S.streams[f.2]? = some stream ∧
      Delivered oneTrace (S.flushedTo f.2) stream.written := by
  have parent {S S' : System Unit} {p p' : Process Unit} {after : List (Process Unit)} (step : Step oneText S S')
      (split : S.processes = p :: after) (moved : S'.processes = p' :: after) (own : p.inherited = false) :
      Guarded (Step oneText) SparesParent S S' :=
    ⟨step, .of_split [] split moved fun inherited => absurd own (by simp [inherited])⟩
  have child {S S' : System Unit} {q p p' : Process Unit} (step : Step oneText S S') (split : S.processes = [q, p])
      (moved : S'.processes = [q, p']) (queued : p'.session.queued = p.session.queued)
      (running : p.session.main ≠ .idle) : Guarded (Step oneText) SparesParent S S' :=
    ⟨step, .of_split [q] split moved fun _ => ⟨queued, fun _ idle => absurd idle running⟩⟩
  have r1 : Run (Guarded (Step oneText) SparesParent) ({} : System Unit) _ :=
    Relation.ReflTransGen.refl.tail (parent (.start [] 3 rfl rfl rfl) rfl rfl rfl)
  have r2 := r1.tail (parent (.quiet [] rfl (.returnEvent () rfl rfl rfl) rfl) rfl rfl rfl)
  have r3 := r2.tail (parent (.quiet [] rfl (.pop (k := 0) rfl rfl rfl) rfl) rfl rfl rfl)
  have r4 := r3.tail ⟨.fork (List.mem_singleton_self _) rfl, fun i p p' atI atI' inherited => by
    rw [List.getElem?_append_left (List.getElem?_eq_some_iff.mp atI).1] at atI'
    obtain rfl := Option.some.inj (atI.symm.trans atI')
    exact ⟨rfl, fun started idle => absurd idle started⟩⟩
  have r5 := r4.tail (parent (.send [] (k := 0) (j := 0) rfl rfl rfl ⟨_, rfl, rfl, rfl⟩ rfl rfl rfl) rfl rfl rfl)
  have r6 := r5.tail (parent (.quiet [] rfl (.flush rfl) rfl) rfl rfl rfl)
  have r7 := r6.tail (parent (.quiet [] rfl (.flushStop rfl) rfl) rfl rfl rfl)
  have r8 := r7.tail (parent (.quiet [] rfl (.flushClear rfl) rfl) rfl rfl rfl)
  have r9 := r8.tail (parent (.quiet [] rfl (.flushTerminate rfl rfl) rfl) rfl rfl rfl)
  have r10 := r9.tail (parent (.quiet [] rfl (.popTerminator (k := 0) rfl rfl rfl) rfl) rfl rfl rfl)
  have r11 := r10.tail (parent (.quiet [] rfl (.flushJoin rfl rfl rfl rfl) rfl) rfl rfl rfl)
  have r12 := r11.tail (parent (.quiet [] rfl (.flushDestroy rfl rfl) rfl) rfl rfl rfl)
  have r13 := r12.tail (parent (.flushSend [] (j := 0) rfl rfl ⟨_, rfl, rfl, rfl⟩ rfl rfl rfl) rfl rfl rfl)
  have r14 := r13.tail (parent (.flushClose [] (j := 0) rfl rfl ⟨_, rfl, rfl, rfl⟩ rfl rfl) rfl rfl rfl)
  have r15 := r14.tail ⟨.quiet [_] rfl (.flush rfl) rfl, .of_split [_] rfl rfl fun _ =>
    ⟨rfl, fun _ _ id last stream atId => by
      obtain rfl := Option.some.inj last
      obtain rfl := Option.some.inj atId
      rfl⟩⟩
  have r16 := r15.tail (child (.quiet [_] rfl (.flushStop rfl) rfl) rfl rfl rfl nofun)
  have r17 := r16.tail (child (.quiet [_] rfl (.flushClear rfl) rfl) rfl rfl rfl nofun)
  have r18 := r17.tail (child (.quiet [_] rfl (.flushTerminate rfl rfl) rfl) rfl rfl rfl nofun)
  have r19 := r18.tail (child (.quiet [_] rfl (.flushJoin rfl rfl rfl rfl) rfl) rfl rfl rfl nofun)
  have r20 := r19.tail (child (.quiet [_] rfl (.flushDestroy rfl rfl) rfl) rfl rfl rfl nofun)
  have r21 := r20.tail
    (child (.flushSendRefused [_] (j := 0) rfl rfl ⟨_, rfl, rfl, rfl⟩ rfl rfl rfl) rfl rfl rfl nofun)
  have r22 := r21.tail (child (.flushClose [_] (j := 0) rfl rfl ⟨_, rfl, rfl, rfl⟩ rfl rfl) rfl rfl rfl nofun)
  exact ⟨_, rfl, flushed_traces_delivered oneText_faithful r22⟩

/-- A child that flushes ends the session of its parent, whose next trace is refused;
and the trace that a child queues is in no worker's hands. -/
theorem child_ends_session :
    (∃ S : System Unit, Run (Step oneText) {} S ∧ S.flushed = [([], 0), ([()], 0)] ∧
      ∃ stream, S.streams[0]? = some stream ∧ ¬ Delivered oneTrace (S.flushedTo 0) stream.written) ∧
    ∃ S : System Unit, Run (Step oneText) {} S ∧ S.flushed = [([()], 0)] ∧
      ∃ stream, S.streams[0]? = some stream ∧ ¬ Delivered oneTrace (S.flushedTo 0) stream.written := by
  have lost : ¬ Delivered oneTrace [()] [115, 116, 111, 112, 0] := by
    intro delivered
    have nothing : Delivered oneTrace [] [115, 116, 111, 112, 0] := oneText_faithful.delivered []
    cases delivered.unique nothing (by decide)
  have r1 : Run (Step oneText) ({} : System Unit) _ := Relation.ReflTransGen.refl.tail (.start [] 3 rfl rfl rfl)
  have r2 := r1.tail (.fork (List.mem_singleton_self _) rfl)
  constructor
  · have r3 := r2.tail (.quiet [_] rfl (.flush rfl) rfl)
    have r4 := r3.tail (.quiet [_] rfl (.flushStop rfl) rfl)
    have r5 := r4.tail (.quiet [_] rfl (.flushClear rfl) rfl)
    have r6 := r5.tail (.quiet [_] rfl (.flushTerminate rfl rfl) rfl)
    have r7 := r6.tail (.quiet [_] rfl (.flushJoin rfl rfl rfl rfl) rfl)
    have r8 := r7.tail (.quiet [_] rfl (.flushDestroy rfl rfl) rfl)
    have r9 := r8.tail (.flushSend [_] (j := 0) rfl rfl ⟨_, rfl, rfl, rfl⟩ rfl rfl rfl)
    have r10 := r9.tail (.flushClose [_] (j := 0) rfl rfl ⟨_, rfl, rfl, rfl⟩ rfl rfl)
    have r11 := r10.tail (.quiet [] rfl (.returnEvent () rfl rfl rfl) rfl)
    have r12 := r11.tail (.quiet [] rfl (.pop (k := 0) rfl rfl rfl) rfl)
    have r13 := r12.tail (.sendRefused [] (k := 0) (j := 0) rfl rfl rfl ⟨_, rfl, rfl, rfl⟩ rfl rfl rfl)
    have r14 := r13.tail (.quiet [] rfl (.flush rfl) rfl)
    have r15 := r14.tail (.quiet [] rfl (.flushStop rfl) rfl)
    have r16 := r15.tail (.quiet [] rfl (.flushClear rfl) rfl)
    have r17 := r16.tail (.quiet [] rfl (.flushTerminate rfl rfl) rfl)
    have r18 := r17.tail (.quiet [] rfl (.flushJoin rfl rfl rfl rfl) rfl)
    have r19 := r18.tail (.quiet [] rfl (.flushDestroy rfl rfl) rfl)
    have r20 := r19.tail (.flushSendRefused [] (j := 0) rfl rfl ⟨_, rfl, rfl, rfl⟩ rfl rfl rfl)
    have r21 := r20.tail (.flushClose [] (j := 0) rfl rfl ⟨_, rfl, rfl, rfl⟩ rfl rfl)
    exact ⟨_, r21, rfl, _, rfl, lost⟩
  · have r3 := r2.tail (.quiet [_] rfl (.returnEvent () rfl rfl rfl) rfl)
    have r4 := r3.tail (.quiet [_] rfl (.flush rfl) rfl)
    have r5 := r4.tail (.quiet [_] rfl (.flushStop rfl) rfl)
    have r6 := r5.tail (.quiet [_] rfl (.flushClear rfl) rfl)
    have r7 := r6.tail (.quiet [_] rfl (.flushTerminate rfl rfl) rfl)
    have r8 := r7.tail (.quiet [_] rfl (.flushJoin rfl rfl rfl rfl) rfl)
    have r9 := r8.tail (.quiet [_] rfl (.flushDestroy rfl rfl) rfl)
    have r10 := r9.tail (.flushSend [_] (j := 0) rfl rfl ⟨_, rfl, rfl, rfl⟩ rfl rfl rfl)
    have r11 := r10.tail (.flushClose [_] (j := 0) rfl rfl ⟨_, rfl, rfl, rfl⟩ rfl rfl)
    exact ⟨_, r11, rfl, _, rfl, lost⟩

end Racer.Forks
