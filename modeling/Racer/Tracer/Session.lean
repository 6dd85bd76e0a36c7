import Racer.Agent.WorkerLoop
import Racer.Library.Transition

namespace Racer.Session
open Transition Delimited

/-- `tiny_queue_message_t`: `queue_state` 1 with a trace, or 0. -/
inductive Message (τ : Type)
  | trace (data : τ)
  | terminator

/-- `init_worker`: in `tiny_queue_pop`, in front of `send`, or returned. -/
inductive WorkerPc (τ : Type)
  | popping
  | sending (trace : τ)
  | returned

/-- What one successful `start` makes: a socket, a queue and a worker thread. -/
structure Channel (τ : Type) where
  fd : Nat
  queue : List (Message τ) := []
  destroyed : Bool := false
  worker : WorkerPc τ := .popping
  written : Bytes := []
  stopSent : Bool := false
  closed : Bool := false

/-- The main thread: between calls, or inside `flush_end`. -/
inductive MainPc
  | idle | stopping | clearing | terminating | joining | destroying | sendingStop | closing
  deriving DecidableEq

/-- The globals of the extension. `tpCall` is nil or a tracepoint with its enabled
flag, `tinyQueue` and `pthread` point into `channels`, and `queued` records the
traces pushed since the last `start` that opened a session. -/
structure State (τ : Type) where
  tpCall : Option Bool := none
  socketFd : Int := 0
  tinyQueue : Option Nat := none
  pthread : Option Nat := none
  main : MainPc := .idle
  channels : List (Channel τ) := []
  queued : List τ := []

section
variable {τ : Type}

def State.modify (s : State τ) (k : Nat) (f : Channel τ → Channel τ) : State τ :=
  { s with channels := s.channels.modify k f }

def Channel.push (message : Message τ) (ch : Channel τ) : Channel τ :=
  { ch with queue := ch.queue ++ [message] }

def Channel.send (bytes : Bytes) (ch : Channel τ) : Channel τ :=
  { ch with written := ch.written ++ bytes ++ [nul] }

/-- A file descriptor names the open socket that has it. -/
def State.Resolves (s : State τ) (fd : Int) (j : Nat) : Prop :=
  ∃ ch, s.channels[j]? = some ch ∧ (ch.fd : Int) = fd ∧ ch.closed = false

def State.enable (s : State τ) : State τ :=
  { s with tpCall := some true }

/-- `start` without an open session, once `socket` returned `fd`. The worker can
only wait on the empty queue before the tracepoint is enabled. -/
def State.openSession (s : State τ) (fd : Nat) : State τ :=
  { s with
    tpCall := some true
    socketFd := fd
    tinyQueue := some s.channels.length
    pthread := some s.channels.length
    channels := s.channels ++ [{ fd }]
    queued := [] }

def State.stop (s : State τ) : State τ :=
  { s with tpCall := s.tpCall.map fun _ => false }

/-- The guard of `flush_end`. -/
def State.flush (s : State τ) : State τ :=
  if s.socketFd ≤ 0 then s else { s with main := .stopping }

/-- One step of the main thread or of a worker. `text` is the JSON text of a trace. -/
inductive Step (text : τ → Bytes) : State τ → State τ → Prop
  | startAgain {s enabled} : s.main = .idle → s.tpCall = some enabled → Step text s s.enable
  | socketFails {s} : s.main = .idle → s.tpCall = none → Step text s { s with socketFd := -1 }
  | start {s} (fd : Nat) : s.main = .idle → s.tpCall = none → Step text s (s.openSession fd)
  | stop {s} : s.main = .idle → Step text s s.stop
  | returnEvent {s k} (trace : τ) : s.main = .idle → s.tpCall = some true → s.tinyQueue = some k →
      Step text s { s.modify k (.push (.trace trace)) with queued := s.queued ++ [trace] }
  | flush {s} : s.main = .idle → Step text s s.flush
  | flushStop {s} : s.main = .stopping → Step text s { s.stop with main := .clearing }
  | flushClear {s} : s.main = .clearing → Step text s { s with tpCall := none, main := .terminating }
  | flushTerminate {s k} : s.main = .terminating → s.tinyQueue = some k →
      Step text s { s.modify k (.push .terminator) with main := .joining }
  | flushJoin {s k ch} : s.main = .joining → s.pthread = some k → s.channels[k]? = some ch →
      ch.worker = .returned → Step text s { s with main := .destroying }
  | flushDestroy {s k} : s.main = .destroying → s.tinyQueue = some k →
      Step text s { s.modify k ({ · with destroyed := true }) with main := .sendingStop }
  | flushSend {s j} : s.main = .sendingStop → s.Resolves s.socketFd j →
      Step text s { s.modify j ({ ·.send Racer.stop with stopSent := true }) with main := .closing }
  | flushClose {s j} : s.main = .closing → s.Resolves s.socketFd j →
      Step text s { s.modify j ({ · with closed := true }) with socketFd := -1, main := .idle }
  | pop {s k ch trace queue} : s.channels[k]? = some ch → ch.worker = .popping →
      ch.queue = .trace trace :: queue →
      Step text s (s.modify k ({ · with queue := queue, worker := .sending trace }))
  | popTerminator {s k ch queue} : s.channels[k]? = some ch → ch.worker = .popping →
      ch.queue = .terminator :: queue →
      Step text s (s.modify k ({ · with queue := queue, worker := .returned }))
  | send {s k j ch trace} : s.channels[k]? = some ch → ch.worker = .sending trace →
      s.Resolves ch.fd j →
      Step text s ((s.modify j (.send (text trace))).modify k ({ · with worker := .popping }))
  | sendFails {s k ch trace} : s.channels[k]? = some ch → ch.worker = .sending trace →
      (∀ j, ¬ s.Resolves ch.fd j) → Step text s (s.modify k ({ · with worker := .returned }))

def WorkerPc.inHand : WorkerPc τ → List τ
  | .sending trace => [trace]
  | _ => []

/-- A worker that streams: what is on the socket, in its hand and in the queue
makes up the queued traces, in this order. `last` is what ends the queue. -/
structure Streaming (text : τ → Bytes) (queued : List τ) (ch : Channel τ) (last : List (Message τ)) : Prop where
  running : ch.worker ≠ .returned
  accounts : ∃ sent waiting, ch.written = frames nul (sent.map text) ∧
    ch.queue = waiting.map .trace ++ last ∧ queued = sent ++ ch.worker.inHand ++ waiting

/-- A worker that has taken the terminator. -/
structure Written (text : τ → Bytes) (queued : List τ) (ch : Channel τ) : Prop where
  worker : ch.worker = .returned
  queue : ch.queue = []
  written : ch.written = frames nul (queued.map text)

structure Finished (text : τ → Bytes) (queued : List τ) (ch : Channel τ) : Prop where
  worker : ch.worker = .returned
  queue : ch.queue = []
  written : ch.written = frames nul (queued.map text ++ [Racer.stop])

/-- The open session at each position of the main thread. -/
def Position (text : τ → Bytes) (main : MainPc) (queued : List τ) (ch : Channel τ) : Prop :=
  match main with
  | .idle | .stopping | .clearing | .terminating =>
    ch.destroyed = false ∧ ch.stopSent = false ∧ Streaming text queued ch []
  | .joining => ch.destroyed = false ∧ ch.stopSent = false ∧
      (Streaming text queued ch [.terminator] ∨ Written text queued ch)
  | .destroying => ch.destroyed = false ∧ ch.stopSent = false ∧ Written text queued ch
  | .sendingStop => ch.stopSent = false ∧ Written text queued ch
  | .closing => ch.stopSent = true ∧ Finished text queued ch

/-- `tpCall` at each position of the main thread, while a session is open. -/
def TpCallAt (main : MainPc) (tpCall : Option Bool) : Prop :=
  match main with
  | .idle => tpCall ≠ none
  | .stopping | .clearing => True
  | _ => tpCall = none

/-- A session that is over. -/
structure Channel.Ended (ch : Channel τ) : Prop where
  closed : ch.closed = true
  worker : ch.worker = .returned

/-- No session is open. -/
structure Between (s : State τ) : Prop where
  main : s.main = .idle
  tpCall : s.tpCall = none
  socketFd : s.socketFd ≤ 0
  ended : ∀ ch ∈ s.channels, ch.Ended

/-- The session of `ch` is open, after the sessions `before`. -/
structure During (text : τ → Bytes) (s : State τ) (before : List (Channel τ)) (ch : Channel τ) : Prop where
  channels : s.channels = before ++ [ch]
  ended : ∀ c ∈ before, c.Ended
  opened : ch.closed = false
  tinyQueue : s.tinyQueue = some before.length
  pthread : s.pthread = some before.length
  socketFd : s.socketFd = ch.fd
  tpCall : TpCallAt s.main s.tpCall
  position : Position text s.main s.queued ch

/-- What no step may do to a channel: push behind `tiny_queue_destroy`, or write
behind the stop frame. -/
structure Channel.Kept (ch ch' : Channel τ) : Prop where
  queue : ch.destroyed = true → ch'.destroyed = true ∧ ch'.queue = ch.queue
  written : ch.stopSent = true → ch'.stopSent = true ∧ ch'.written = ch.written

theorem Channel.Kept.refl (ch : Channel τ) : ch.Kept ch :=
  ⟨fun h => ⟨h, rfl⟩, fun h => ⟨h, rfl⟩⟩

theorem modify_last {α : Type} (before : List α) (a : α) (f : α → α) :
    (before ++ [a]).modify before.length f = before ++ [f a] := by
  induction before with
  | nil => rfl
  | cons b before ih => simp only [List.cons_append, List.length_cons, List.modify_succ_cons, ih]

/-- What one iteration of `init_worker` does to the queue and the socket. -/
inductive Works (text : τ → Bytes) : Channel τ → Channel τ → Prop
  | pop {ch trace queue} : ch.worker = .popping → ch.queue = .trace trace :: queue →
      Works text ch { ch with queue := queue, worker := .sending trace }
  | popTerminator {ch queue} : ch.worker = .popping → ch.queue = .terminator :: queue →
      Works text ch { ch with queue := queue, worker := .returned }
  | send {ch trace} : ch.worker = .sending trace →
      Works text ch { ch.send (text trace) with worker := .popping }

theorem Works.running {text : τ → Bytes} {ch ch' : Channel τ} (works : Works text ch ch') :
    ch.worker ≠ .returned := by
  cases works with
  | pop worker _ | popTerminator worker _ | send worker => rw [worker]; nofun

theorem Works.frame {text : τ → Bytes} {ch ch' : Channel τ} (works : Works text ch ch') :
    ch'.fd = ch.fd ∧ ch'.closed = ch.closed ∧ ch'.destroyed = ch.destroyed ∧ ch'.stopSent = ch.stopSent := by
  cases works <;> exact ⟨rfl, rfl, rfl, rfl⟩

theorem Works.streaming {text : τ → Bytes} {ch ch' : Channel τ} {queued : List τ} {last : List (Message τ)}
    (works : Works text ch ch') (ending : last = [] ∨ last = [.terminator])
    (streaming : Streaming text queued ch last) :
    Streaming text queued ch' last ∨ last = [.terminator] ∧ Written text queued ch' := by
  obtain ⟨running, sent, waiting, written, queue, accounts⟩ := streaming
  cases works with
  | @pop trace rest worker atQueue =>
    rw [atQueue] at queue
    rcases waiting with _ | ⟨next, waiting⟩
    · rcases ending with rfl | rfl <;> simp at queue
    · simp only [List.map_cons, List.cons_append, List.cons.injEq, Message.trace.injEq] at queue
      obtain ⟨rfl, rfl⟩ := queue
      refine .inl ⟨nofun, sent, waiting, written, rfl, ?_⟩
      rw [accounts, worker]
      simp [WorkerPc.inHand]
  | @popTerminator rest worker atQueue =>
    rw [atQueue] at queue
    rcases waiting with _ | ⟨next, waiting⟩
    · rcases ending with rfl | rfl
      · simp at queue
      · simp only [List.map_nil, List.nil_append, List.cons.injEq, true_and] at queue
        refine .inr ⟨rfl, rfl, queue, ?_⟩
        rw [accounts, worker, written]
        simp [WorkerPc.inHand]
    · simp at queue
  | @send trace worker =>
    refine .inl ⟨nofun, sent ++ [trace], waiting, ?_, queue, ?_⟩
    · simp only [Channel.send, written, List.map_append, frames_append]
      simp [frames]
    · rw [accounts, worker]
      simp [WorkerPc.inHand]

theorem Works.position {text : τ → Bytes} {ch ch' : Channel τ} {main : MainPc} {queued : List τ}
    (works : Works text ch ch') (position : Position text main queued ch) :
    Position text main queued ch' := by
  obtain ⟨_, _, destroyed, stopSent⟩ := works.frame
  have running := works.running
  unfold Position at position ⊢
  rw [destroyed, stopSent]
  cases main with
  | idle | stopping | clearing | terminating =>
    obtain ⟨alive, unsent, streaming⟩ := position
    rcases works.streaming (.inl rfl) streaming with still | ⟨ended, _⟩
    · exact ⟨alive, unsent, still⟩
    · exact absurd ended (by simp)
  | joining =>
    obtain ⟨alive, unsent, streaming | written⟩ := position
    · refine ⟨alive, unsent, ?_⟩
      rcases works.streaming (.inr rfl) streaming with still | ⟨_, written⟩
      · exact .inl still
      · exact .inr written
    · exact absurd written.worker running
  | destroying => exact absurd position.2.2.worker running
  | sendingStop => exact absurd position.2.worker running
  | closing => exact absurd position.2.worker running

theorem Works.kept {text : τ → Bytes} {ch ch' : Channel τ} {main : MainPc} {queued : List τ}
    (works : Works text ch ch') (position : Position text main queued ch) : ch.Kept ch' := by
  have running := works.running
  unfold Position at position
  cases main with
  | idle | stopping | clearing | terminating | joining | destroying =>
    obtain ⟨alive, unsent, _⟩ := position
    exact ⟨fun h => by simp [alive] at h, fun h => by simp [unsent] at h⟩
  | sendingStop => exact absurd position.2.worker running
  | closing => exact absurd position.2.worker running

section
variable {text : τ → Bytes} {s : State τ} {before : List (Channel τ)} {ch : Channel τ}

theorem State.modify_last (channels : s.channels = before ++ [ch]) (f : Channel τ → Channel τ) :
    (s.modify before.length f).channels = before ++ [f ch] := by
  rw [State.modify, channels, Session.modify_last]

/-- Where the earlier sockets are closed, a file descriptor names the last one. -/
theorem State.Resolves.last {fd : Int} {j : Nat} (resolves : s.Resolves fd j) (channels : s.channels = before ++ [ch])
    (ended : ∀ c ∈ before, c.Ended) : j = before.length := by
  obtain ⟨c, atJ, _, opened⟩ := resolves
  rw [channels] at atJ
  rcases Nat.lt_or_ge j before.length with early | late
  · rw [List.getElem?_append_left early] at atJ
    rw [(ended c (List.mem_of_getElem? atJ)).closed] at opened
    cases opened
  · have bound := (List.getElem?_eq_some_iff.mp atJ).1
    rw [List.length_append, List.length_singleton] at bound
    omega

theorem During.modify (during : During text s before ch) (f : Channel τ → Channel τ) :
    (s.modify before.length f).channels = before ++ [f ch] :=
  State.modify_last during.channels f

theorem During.at_last (during : During text s before ch) : s.channels[before.length]? = some ch := by
  rw [during.channels, List.getElem?_concat_length]

/-- A worker that has not returned is the worker of the open session. -/
theorem During.running (during : During text s before ch) {k : Nat} {c : Channel τ}
    (atK : s.channels[k]? = some c) (running : c.worker ≠ .returned) : k = before.length ∧ c = ch := by
  rw [during.channels] at atK
  rcases Nat.lt_or_ge k before.length with early | late
  · rw [List.getElem?_append_left early] at atK
    exact absurd (during.ended c (List.mem_of_getElem? atK)).worker running
  · have bound := (List.getElem?_eq_some_iff.mp atK).1
    rw [List.length_append, List.length_singleton] at bound
    have same : k = before.length := by omega
    subst same
    rw [List.getElem?_concat_length] at atK
    exact ⟨rfl, (Option.some.inj atK).symm⟩

theorem During.resolves (during : During text s before ch) {fd : Int} {j : Nat}
    (resolves : s.Resolves fd j) : j = before.length :=
  resolves.last during.channels during.ended

theorem During.resolves_fd (during : During text s before ch) : s.Resolves ch.fd before.length :=
  ⟨ch, during.at_last, rfl, during.opened⟩

/-- What becomes of the open session in one step: it stays open, or a flush has
returned and its bytes are on the socket. -/
inductive Outcome (text : τ → Bytes) (s s' : State τ) (before : List (Channel τ)) (ch' : Channel τ) : Prop
  | opened (during : During text s' before ch')
  | flushed (closing : s.main = .closing) (between : Between s') (channels : s'.channels = before ++ [ch'])
      (finished : Finished text s'.queued ch')

theorem During.works (during : During text s before ch) {ch' : Channel τ} (works : Works text ch ch') :
    ch.Kept ch' ∧ During text { s with channels := before ++ [ch'] } before ch' := by
  obtain ⟨fd, closed, _, _⟩ := works.frame
  exact ⟨works.kept during.position,
    { channels  := rfl
      ended     := during.ended
      opened    := closed.trans during.opened
      tinyQueue := during.tinyQueue
      pthread   := during.pthread
      socketFd  := by rw [fd]; exact during.socketFd
      tpCall    := during.tpCall
      position  := works.position during.position }⟩

/-- A step of the main thread that moves on to `main` and leaves the open session
as `ch'`. -/
theorem During.moves (during : During text s before ch) {s' : State τ} {ch' : Channel τ}
    (channels : s'.channels = before ++ [ch']) (frame : ch'.fd = ch.fd ∧ ch'.closed = ch.closed)
    (globals : s'.tinyQueue = s.tinyQueue ∧ s'.pthread = s.pthread ∧ s'.socketFd = s.socketFd)
    (tpCall : TpCallAt s'.main s'.tpCall) (position : Position text s'.main s'.queued ch') :
    During text s' before ch' :=
  { channels  := channels
    ended     := during.ended
    opened    := frame.2.trans during.opened
    tinyQueue := globals.1.trans during.tinyQueue
    pthread   := globals.2.1.trans during.pthread
    socketFd  := by rw [globals.2.2, during.socketFd, frame.1]
    tpCall    := tpCall
    position  := position }

theorem Streaming.push {queued : List τ} (streaming : Streaming text queued ch []) (trace : τ) :
    Streaming text (queued ++ [trace]) (ch.push (.trace trace)) [] := by
  obtain ⟨running, sent, waiting, written, queue, accounts⟩ := streaming
  refine ⟨running, sent, waiting ++ [trace], written, ?_, ?_⟩
  · simp [Channel.push, queue]
  · rw [accounts, List.append_assoc]
    rfl

theorem Streaming.terminate {queued : List τ} (streaming : Streaming text queued ch []) :
    Streaming text queued (ch.push .terminator) [.terminator] := by
  obtain ⟨running, sent, waiting, written, queue, accounts⟩ := streaming
  refine ⟨running, sent, waiting, written, ?_, accounts⟩
  simp [Channel.push, queue]

theorem Written.finish {queued : List τ} (written : Written text queued ch) :
    Finished text queued { ch.send Racer.stop with stopSent := true } := by
  refine ⟨written.worker, written.queue, ?_⟩
  simp only [Channel.send, written.written, frames_append]
  simp [frames]

theorem Step.during {s' : State τ} (step : Step text s s') (during : During text s before ch) :
    ∃ ch', ch.Kept ch' ∧ Outcome text s s' before ch' := by
  have same := during.position
  have traced := during.tpCall
  cases step with
  | startAgain main tpCall =>
    refine ⟨ch, .refl ch, .opened (during.moves during.channels ⟨rfl, rfl⟩ ⟨rfl, rfl, rfl⟩ ?_ same)⟩
    rw [State.enable, main]
    nofun
  | socketFails main tpCall | start fd main tpCall =>
    rw [main] at traced
    exact absurd tpCall traced
  | stop main =>
    refine ⟨ch, .refl ch, .opened (during.moves during.channels ⟨rfl, rfl⟩ ⟨rfl, rfl, rfl⟩ ?_ same)⟩
    rw [main] at traced
    rw [State.stop, main]
    exact fun none => traced (Option.map_eq_none_iff.mp none)
  | @returnEvent k trace main tpCall tinyQueue =>
    obtain rfl : before.length = k := Option.some.inj (during.tinyQueue.symm.trans tinyQueue)
    rw [main] at same
    obtain ⟨alive, unsent, streaming⟩ := same
    refine ⟨ch.push (.trace trace), ⟨fun h => by simp [alive] at h, fun h => by simp [unsent] at h⟩,
      .opened (during.moves (during.modify _) ⟨rfl, rfl⟩ ⟨rfl, rfl, rfl⟩ traced ?_)⟩
    rw [State.modify, main]
    exact ⟨alive, unsent, streaming.push trace⟩
  | flush main =>
    rw [main] at same
    unfold State.flush
    split
    · exact ⟨ch, .refl ch, .opened during⟩
    · exact ⟨ch, .refl ch, .opened (during.moves during.channels ⟨rfl, rfl⟩ ⟨rfl, rfl, rfl⟩ trivial same)⟩
  | flushStop main =>
    rw [main] at same
    exact ⟨ch, .refl ch, .opened (during.moves during.channels ⟨rfl, rfl⟩ ⟨rfl, rfl, rfl⟩ trivial same)⟩
  | flushClear main =>
    rw [main] at same
    exact ⟨ch, .refl ch, .opened (during.moves during.channels ⟨rfl, rfl⟩ ⟨rfl, rfl, rfl⟩ rfl same)⟩
  | @flushTerminate k main tinyQueue =>
    obtain rfl : before.length = k := Option.some.inj (during.tinyQueue.symm.trans tinyQueue)
    rw [main] at same traced
    obtain ⟨alive, unsent, streaming⟩ := same
    refine ⟨ch.push .terminator, ⟨fun h => by simp [alive] at h, fun h => by simp [unsent] at h⟩,
      .opened (during.moves (during.modify _) ⟨rfl, rfl⟩ ⟨rfl, rfl, rfl⟩ traced ?_)⟩
    exact ⟨alive, unsent, .inl streaming.terminate⟩
  | @flushJoin k c main pthread atK returned =>
    obtain rfl : before.length = k := Option.some.inj (during.pthread.symm.trans pthread)
    obtain rfl : ch = c := Option.some.inj (during.at_last.symm.trans atK)
    rw [main] at same traced
    obtain ⟨alive, unsent, streaming | written⟩ := same
    · exact absurd returned streaming.running
    · exact ⟨ch, .refl ch, .opened (during.moves during.channels ⟨rfl, rfl⟩ ⟨rfl, rfl, rfl⟩ traced
        ⟨alive, unsent, written⟩)⟩
  | @flushDestroy k main tinyQueue =>
    obtain rfl : before.length = k := Option.some.inj (during.tinyQueue.symm.trans tinyQueue)
    rw [main] at same traced
    obtain ⟨alive, unsent, written⟩ := same
    refine ⟨{ ch with destroyed := true }, ⟨fun _ => ⟨rfl, rfl⟩, fun h => ⟨h, rfl⟩⟩,
      .opened (during.moves (during.modify _) ⟨rfl, rfl⟩ ⟨rfl, rfl, rfl⟩ traced ?_)⟩
    exact ⟨unsent, written.worker, written.queue, written.written⟩
  | @flushSend j main resolves =>
    obtain rfl := during.resolves resolves
    rw [main] at same traced
    obtain ⟨unsent, written⟩ := same
    refine ⟨{ ch.send Racer.stop with stopSent := true }, ⟨fun h => ⟨h, rfl⟩, fun h => by simp [unsent] at h⟩,
      .opened (during.moves (during.modify _) ⟨rfl, rfl⟩ ⟨rfl, rfl, rfl⟩ traced ?_)⟩
    exact ⟨rfl, written.finish⟩
  | @flushClose j main resolves =>
    obtain rfl := during.resolves resolves
    rw [main] at same traced
    obtain ⟨_, finished⟩ := same
    have channels := during.modify ({ · with closed := true })
    refine ⟨{ ch with closed := true }, ⟨fun h => ⟨h, rfl⟩, fun h => ⟨h, rfl⟩⟩,
      .flushed main ⟨rfl, traced, Int.le_of_lt (by decide : (-1 : Int) < 0), ?_⟩ channels
        ⟨finished.worker, finished.queue, finished.written⟩⟩
    intro c member
    rw [channels] at member
    rcases List.mem_append.mp member with old | new
    · exact during.ended c old
    · rw [List.mem_singleton.mp new]
      exact ⟨rfl, finished.worker⟩
  | @pop k c trace queue atK worker atQueue =>
    obtain ⟨rfl, rfl⟩ := during.running atK (by rw [worker]; nofun)
    obtain ⟨kept, still⟩ := during.works (.pop worker atQueue)
    refine ⟨_, kept, .opened ?_⟩
    rw [State.modify, during.channels, modify_last]
    exact still
  | @popTerminator k c queue atK worker atQueue =>
    obtain ⟨rfl, rfl⟩ := during.running atK (by rw [worker]; nofun)
    obtain ⟨kept, still⟩ := during.works (.popTerminator worker atQueue)
    refine ⟨_, kept, .opened ?_⟩
    rw [State.modify, during.channels, modify_last]
    exact still
  | @send k j c trace atK worker resolves =>
    obtain ⟨rfl, rfl⟩ := during.running atK (by rw [worker]; nofun)
    obtain rfl := during.resolves resolves
    obtain ⟨kept, still⟩ := during.works (.send worker)
    refine ⟨_, kept, .opened ?_⟩
    simp only [State.modify]
    rw [during.channels, modify_last, modify_last]
    exact still
  | @sendFails k c trace atK worker unresolved =>
    obtain ⟨rfl, rfl⟩ := during.running atK (by rw [worker]; nofun)
    exact absurd during.resolves_fd (unresolved _)

/-- Without an open session a step changes nothing that matters, or opens one. -/
theorem Step.between {s' : State τ} (step : Step text s s') (between : Between s) :
    (Between s' ∧ s'.channels = s.channels) ∨ ∃ fd, During text s' s.channels { fd } := by
  have ended {k : Nat} {c : Channel τ} (atK : s.channels[k]? = some c) : c.worker = .returned :=
    (between.ended c (List.mem_of_getElem? atK)).worker
  cases step with
  | startAgain main tpCall | returnEvent _ main tpCall => simp [between.tpCall] at tpCall
  | socketFails main tpCall =>
    exact .inl ⟨⟨main, tpCall, Int.le_of_lt (by decide : (-1 : Int) < 0), between.ended⟩, rfl⟩
  | start fd main tpCall =>
    refine .inr ⟨fd, ⟨rfl, between.ended, rfl, rfl, rfl, rfl, ?_, ?_⟩⟩
    · rw [State.openSession, main]
      nofun
    · rw [State.openSession, main]
      exact ⟨rfl, rfl, nofun, [], [], rfl, rfl, rfl⟩
  | stop main =>
    refine .inl ⟨⟨main, ?_, between.socketFd, between.ended⟩, rfl⟩
    rw [State.stop, between.tpCall]
    rfl
  | flush main =>
    rw [State.flush, if_pos between.socketFd]
    exact .inl ⟨between, rfl⟩
  | flushStop main | flushClear main | flushTerminate main | flushJoin main | flushDestroy main
  | flushSend main | flushClose main => simp [between.main] at main
  | pop atK worker | popTerminator atK worker | send atK worker | sendFails atK worker =>
    simp [ended atK] at worker

end

/-- The invariant of every run: no session is open, or the last one is. -/
def Invariant (text : τ → Bytes) (s : State τ) : Prop :=
  Between s ∨ ∃ before ch, During text s before ch

theorem Step.invariant {text : τ → Bytes} {s s' : State τ} (step : Step text s s')
    (inv : Invariant text s) : Invariant text s' := by
  rcases inv with between | ⟨before, ch, during⟩
  · rcases step.between between with ⟨still, _⟩ | ⟨fd, opened⟩
    · exact .inl still
    · exact .inr ⟨_, _, opened⟩
  · obtain ⟨ch', _, opened | ⟨_, between, _, _⟩⟩ := step.during during
    · exact .inr ⟨_, _, opened⟩
    · exact .inl between

theorem initial_between : Between ({} : State τ) :=
  ⟨rfl, rfl, Int.le_refl 0, by simp⟩

theorem reachable_invariant {text : τ → Bytes} {s : State τ} (run : Run (Step text) {} s) :
    Invariant text s :=
  run.invariant (fun _ _ inv step => step.invariant inv) (.inl initial_between)

/-- No step touches a channel of an earlier session. -/
theorem Step.kept {text : τ → Bytes} {s s' : State τ} (step : Step text s s') (inv : Invariant text s)
    {k : Nat} {ch : Channel τ} (atK : s.channels[k]? = some ch) :
    ∃ ch', s'.channels[k]? = some ch' ∧ ch.Kept ch' := by
  rcases inv with between | ⟨before, open', during⟩
  · rcases step.between between with ⟨_, channels⟩ | ⟨fd, opened⟩
    · exact ⟨ch, by rw [channels]; exact atK, .refl ch⟩
    · refine ⟨ch, ?_, .refl ch⟩
      rw [opened.channels, List.getElem?_append_left (List.getElem?_eq_some_iff.mp atK).1]
      exact atK
  · obtain ⟨ch', kept, outcome⟩ := step.during during
    have channels : s'.channels = before ++ [ch'] := by
      rcases outcome with opened | ⟨_, _, channels, _⟩
      · exact opened.channels
      · exact channels
    rw [during.channels] at atK
    rw [channels]
    rcases Nat.lt_or_ge k before.length with early | late
    · rw [List.getElem?_append_left early] at atK ⊢
      exact ⟨ch, atK, .refl ch⟩
    · have bound := (List.getElem?_eq_some_iff.mp atK).1
      rw [List.length_append, List.length_singleton] at bound
      obtain rfl : k = before.length := by omega
      rw [List.getElem?_concat_length] at atK ⊢
      obtain rfl := Option.some.inj atK
      exact ⟨ch', rfl, kept⟩

/-- The step with which a flush that closes a session returns. -/
def FlushReturns (s s' : State τ) : Prop :=
  s.main = .closing ∧ s'.main = .idle

/-- A flush that closes a session leaves the frames of the traces queued since the
`start` that opened it, and one stop frame, on its socket. Nothing is pushed to a
destroyed queue or written behind a stop frame, and a flush without an open
session changes nothing. -/
theorem session_protocol {text : τ → Bytes} {s : State τ} (run : Run (Step text) {} s) :
    (∀ s', Step text s s' → FlushReturns s s' → ∃ before ch, s'.channels = before ++ [ch] ∧
      ch.closed = true ∧ ch.written = frames nul (s'.queued.map text ++ [Racer.stop])) ∧
    (∀ s', Step text s s' → ∀ (k : Nat) (ch : Channel τ), s.channels[k]? = some ch →
      ∃ ch', s'.channels[k]? = some ch' ∧ ch.Kept ch') ∧
    (s.main = .idle → (∀ ch ∈ s.channels, ch.closed = true) → s.flush = s) := by
  have inv := reachable_invariant run
  refine ⟨fun s' step ⟨closing, idle⟩ => ?_, fun s' step k ch atK => step.kept inv atK, fun _ closed => ?_⟩
  · rcases inv with between | ⟨before, open', during⟩
    · rw [between.main] at closing
      cases closing
    · obtain ⟨ch', kept, opened | ⟨_, between, channels, finished⟩⟩ := step.during during
      · have sent := during.position
        have unsent := opened.position
        rw [closing] at sent
        rw [idle] at unsent
        have behind := (kept.written sent.1).1
        rw [unsent.2.1] at behind
        cases behind
      · exact ⟨before, ch', channels, (between.ended ch' (by simp [channels])).closed, finished.written⟩
  · rcases inv with between | ⟨before, ch, during⟩
    · rw [State.flush, if_pos between.socketFd]
    · have opened := during.opened
      rw [closed ch (by simp [during.channels])] at opened
      cases opened

end

/-- A session with one trace reaches the end of its flush. -/
theorem session_protocol_one_trace : ∃ s : State Bytes, s.queued = [[91, 93]] ∧
    (∃ s', Step id s s' ∧ FlushReturns s s') ∧
    ∀ s', Step id s s' → FlushReturns s s' → ∃ before ch, s'.channels = before ++ [ch] ∧
      ch.closed = true ∧ ch.written = frames nul (s'.queued.map id ++ [Racer.stop]) := by
  have r1 : Run (Step id) ({} : State Bytes) _ := Relation.ReflTransGen.refl.tail (Step.start 3 rfl rfl)
  have r2 := r1.tail (Step.returnEvent (k := 0) [91, 93] rfl rfl rfl)
  have r3 := r2.tail (Step.pop (k := 0) rfl rfl rfl)
  have r4 := r3.tail (Step.flush rfl)
  have r5 := r4.tail (Step.flushStop rfl)
  have r6 := r5.tail (Step.flushClear rfl)
  have r7 := r6.tail (Step.flushTerminate (k := 0) rfl rfl)
  have r8 := r7.tail (Step.send (k := 0) (j := 0) rfl rfl ⟨_, rfl, rfl, rfl⟩)
  have r9 := r8.tail (Step.popTerminator (k := 0) rfl rfl rfl)
  have r10 := r9.tail (Step.flushJoin (k := 0) rfl rfl rfl rfl)
  have r11 := r10.tail (Step.flushDestroy (k := 0) rfl rfl)
  have r12 := r11.tail (Step.flushSend (j := 0) rfl ⟨_, rfl, rfl, rfl⟩)
  exact ⟨_, rfl, ⟨_, .flushClose (j := 0) rfl ⟨_, rfl, rfl, rfl⟩, rfl, rfl⟩, (session_protocol r12).1⟩

end Racer.Session
