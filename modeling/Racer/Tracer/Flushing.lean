import Racer.Tracer.QueuedSession

namespace Racer.Session
open Transition Delimited Function Histories

/-! The flush of a process: its queue at the end, and that it returns. -/

section
variable {τ : Type} {text : τ → Bytes} {wakeups : Prop} {s : State τ} {k : Nat} {queues : Nat → Atomic τ}

/-- The worker has returned before its queue is destroyed. -/
structure Retired (s : State τ) : Prop where
  joins : s.pthread = s.tinyQueue
  joined : s.main = .destroying → ∀ k ch, s.tinyQueue = some k → s.channels[k]? = some ch → ch.worker = .returned
  destroyed : ∀ (k : Nat) (ch : Channel τ), s.channels[k]? = some ch → ch.destroyed = true → ch.worker = .returned

/-- A change of a channel that neither starts its worker again nor destroys the queue of a
worker that runs. -/
theorem Retired.modify (retired : Retired s) {f : Channel τ → Channel τ}
    (returned : ∀ ch, s.channels[k]? = some ch → ch.worker = .returned → (f ch).worker = .returned)
    (destroyed : ∀ ch, s.channels[k]? = some ch → (f ch).destroyed = true → (f ch).worker = .returned) :
    Retired (s.modify k f) where
  joins := retired.joins
  joined main j ch current atJ := by
    rw [State.modify, List.getElem?_modify] at atJ
    obtain ⟨c, atC, rfl⟩ := Option.map_eq_some_iff.mp atJ
    have worker := retired.joined main j c current atC
    split
    next same => exact returned c (same ▸ atC) worker
    next => exact worker
  destroyed j ch atJ := by
    rw [State.modify, List.getElem?_modify] at atJ
    obtain ⟨c, atC, rfl⟩ := Option.map_eq_some_iff.mp atJ
    split
    next same => exact destroyed c (same ▸ atC)
    next => exact retired.destroyed j c atC

/-- The worker of a channel goes on. -/
theorem Retired.works (retired : Retired s) {ch : Channel τ} (atK : s.channels[k]? = some ch)
    (running : ch.worker ≠ .returned) {f : Channel τ → Channel τ} (same : ∀ ch, (f ch).destroyed = ch.destroyed) :
    Retired (s.modify k f) := by
  refine retired.modify (fun c atC returned => ?_) fun c atC destroyed => ?_
  · cases atK.symm.trans atC
    exact (running returned).elim
  · cases atK.symm.trans atC
    exact (running (retired.destroyed k ch atK ((same ch).symm.trans destroyed))).elim

theorem Retired.congr (retired : Retired s) {s' : State τ} (channels : s'.channels = s.channels)
    (tinyQueue : s'.tinyQueue = s.tinyQueue) (pthread : s'.pthread = s.pthread)
    (main : s'.main = .destroying → s.main = .destroying) : Retired s' where
  joins := by rw [pthread, tinyQueue, retired.joins]
  joined destroying := by
    rw [tinyQueue, channels]
    exact retired.joined (main destroying)
  destroyed := by
    rw [channels]
    exact retired.destroyed

theorem Retired.start (retired : Retired s) (main : s.main = .idle) (fd : Nat) : Retired (s.openSession fd) where
  joins := rfl
  joined destroying := by
    rw [State.openSession, main] at destroying
    cases destroying
  destroyed j ch atJ destroyed := by
    rcases List.mem_append.mp (List.mem_of_getElem? atJ) with old | new
    · obtain ⟨i, atI⟩ := List.mem_iff_getElem?.mp old
      exact retired.destroyed i ch atI destroyed
    · rw [List.mem_singleton.mp new] at destroyed
      cases destroyed

theorem Retired.step (retired : Retired s) {s' : State τ} (step : Step text s s') : Retired s' := by
  -- what a change does that leaves the worker alone
  have keeps {k : Nat} {f : Channel τ → Channel τ} (same : ∀ ch, (f ch).worker = ch.worker)
      (destroyed : ∀ ch, (f ch).destroyed = ch.destroyed) : Retired (s.modify k f) :=
    retired.modify (fun ch _ returned => (same ch).trans returned)
      fun ch atK gone => (same ch).trans (retired.destroyed _ ch atK ((destroyed ch).symm.trans gone))
  cases step with
  | startAgain main | socketFails main | stop main => exact retired.congr rfl rfl rfl id
  | start fd main => exact retired.start main fd
  | @returnEvent k trace main =>
    exact (keeps (k := k) (f := .push (.trace trace)) (fun _ => rfl) fun _ => rfl).congr rfl rfl rfl id
  | flush main =>
    unfold State.flush
    split
    · exact retired
    · exact retired.congr rfl rfl rfl fun destroying => (by cases destroying)
  | flushStop main | flushClear main => exact retired.congr rfl rfl rfl fun destroying => (by cases destroying)
  | @flushTerminate k main =>
    exact (keeps (k := k) (f := .push .terminator) (fun _ => rfl) fun _ => rfl).congr rfl rfl rfl
      fun destroying => (by cases destroying)
  | @flushJoin k ch main pthread atK returned =>
    refine ⟨retired.joins, fun _ j c current atJ => ?_, retired.destroyed⟩
    obtain rfl : k = j := Option.some.inj ((pthread.symm.trans retired.joins).trans current)
    cases atK.symm.trans atJ
    exact returned
  | @flushDestroy k main current =>
    have worker (ch : Channel τ) (atK : s.channels[k]? = some ch) := retired.joined main k ch current atK
    exact (retired.modify (f := ({ · with destroyed := true })) (fun _ _ returned => returned)
      fun ch atK _ => worker ch atK).congr rfl rfl rfl fun destroying => (by cases destroying)
  | @flushSend j main =>
    exact (keeps (k := j) (f := ({ ·.send Racer.stop with stopSent := true })) (fun _ => rfl) fun _ => rfl).congr
      rfl rfl rfl fun destroying => (by cases destroying)
  | @flushClose j main =>
    exact (keeps (k := j) (f := ({ · with closed := true })) (fun _ => rfl) fun _ => rfl).congr rfl rfl rfl
      fun destroying => (by cases destroying)
  | pop atK popping first | popTerminator atK popping first => exact retired.works atK (by simp [popping]) fun _ => rfl
  | @send k j ch trace atK working resolves =>
    have running : ∀ c, (s.modify j (.send (text trace))).channels[k]? = some c → c.worker ≠ .returned := by
      intro c atC
      rw [State.modify, List.getElem?_modify, atK] at atC
      obtain ⟨_, same, rfl⟩ := Option.map_eq_some_iff.mp atC
      cases same
      split <;> simp [Channel.send, working]
    have sent := keeps (k := j) (f := .send (text trace)) (fun _ => rfl) fun _ => rfl
    refine sent.modify (fun c atC returned => (running c atC returned).elim) fun c atC destroyed => ?_
    exact (running c atC (sent.destroyed k c atC destroyed)).elim
  | sendFails atK working unresolved => exact retired.works atK (by simp [working]) fun _ => rfl

variable {p p' : Process τ} {a : State τ}

/-- A queue whose operations are those of `queue` where its threads are. -/
theorem phase_of_represents {q : Queue τ} {queue : Atomic τ} (represents : TinyQueue.Represents q queue) (user : User) :
    queue.phase user = (q.pc user).phase := by
  obtain ⟨cells, -, rfl⟩ := represents
  rfl

/-- The worker that returns from a pop was in front of it. -/
theorem Process.Follows.popping (follows : p.Follows a) {message : Message τ} {queue : Queue τ}
    (returns : TinyQueue.Step (p.queues k) (some (.returnPop .worker message)) queue) :
    ∃ ch, p.session.channels[k]? = some ch ∧ ch.worker = .popping := by
  obtain ⟨queues, b, represents, owned, -, -⟩ := follows
  refine owned.popping ?_
  rw [phase_of_represents (represents k)]
  cases returns with
  | move t move =>
    cases move with
    | unlockPop pc =>
      rw [pc]
      exact trivial

theorem Process.QueueStep.retired (step : Process.QueueStep wakeups k p p') (follows : p.Follows a)
    (retired : Retired p.session) : Retired p'.session := by
  cases step with
  | callPush | lost | callPop | inside | wakeup => exact retired
  | @returnPush message queue inside returns =>
    cases message with
    | trace data => exact retired.congr rfl rfl rfl id
    | terminator => exact retired.congr rfl rfl rfl fun destroying => (by cases destroying)
  | returnPop message returns =>
    obtain ⟨ch, atK, popping⟩ := follows.popping returns
    exact retired.works atK (by simp [popping]) fun _ => rfl

/-- A step at a queue is a step of that queue. -/
theorem Process.QueueStep.at_queue (step : Process.QueueStep wakeups k p p') :
    ∃ event queue, TinyQueue.Step (p.queues k) event queue ∧ p'.queues = update p.queues k queue := by
  cases step with
  | callPush message outside calls current move => exact ⟨_, _, move, rfl⟩
  | returnPush inside move | lost inside move => exact ⟨_, _, move, rfl⟩
  | callPop atK popping move => exact ⟨_, _, move, rfl⟩
  | returnPop message move => exact ⟨_, _, move, rfl⟩
  | inside move => exact ⟨_, _, .move _ move, rfl⟩
  | wakeup _ waits => exact ⟨_, _, .spurious waits, rfl⟩

/-- What is true of a process whose session is at `a`. -/
structure Process.Reaches (text : τ → Bytes) (p : Process τ) (a : State τ) : Prop where
  follows : p.Follows a
  session : Session.Invariant text a
  retired : Retired p.session
  serves : ∀ k, TinyQueue.Serves (p.queues k)

theorem Inside.invariant (run : Run (Inside text) s a) (inv : Invariant text s) : Invariant text a :=
  run.invariant (fun _ _ inv step => step.1.invariant inv) inv

theorem Process.Reaches.queue_step (reaches : p.Reaches text a) (step : Process.QueueStep wakeups k p p') :
    ∃ a', p'.Reaches text a' ∧ Run (Inside text) a a' := by
  obtain ⟨a', follows, run⟩ := step.follows text reaches.follows
  obtain ⟨event, queue, move, queues⟩ := step.at_queue
  refine ⟨a', ⟨follows, Inside.invariant run reaches.session, step.retired reaches.follows reaches.retired,
    fun j => ?_⟩, run⟩
  rw [queues]
  by_cases here : j = k
  · rw [here, update_self]
    exact (reaches.serves k).step move
  · rw [update_of_ne here]
    exact reaches.serves j

theorem Process.Reaches.start : Process.Reaches text ({} : Process τ) {} where
  follows := Process.follows_start
  session := .inl initial_between
  retired := ⟨rfl, fun main => (by cases main), by simp⟩
  serves _ := TinyQueue.Serves.start

theorem Process.Reaches.step (reaches : p.Reaches text a) (step : Process.Step text wakeups p p') :
    (∃ k a', Process.QueueStep wakeups k p p' ∧ p'.Reaches text a' ∧ Run (Inside text) a a') ∨
      Process.Quiet text p p' ∧ ∃ a', p'.Reaches text a' ∧ Session.Step text a a' := by
  rcases step.follows reaches.follows with ⟨k, step⟩ | ⟨quiet, a', follows, step⟩
  · obtain ⟨a', reaches', run⟩ := reaches.queue_step step
    exact .inl ⟨k, a', step, reaches', run⟩
  · refine .inr ⟨quiet, a', ⟨follows, step.invariant reaches.session, reaches.retired.step quiet.step, ?_⟩, step⟩
    rw [quiet.queues]
    exact reaches.serves

theorem Process.reaches (run : Run (Process.Step text wakeups) {} p) : ∃ a, p.Reaches text a := by
  refine run.invariant (I := fun p => ∃ a, p.Reaches text a) (fun p p' ⟨a, reaches⟩ step => ?_) ⟨{}, .start⟩
  rcases reaches.step step with ⟨_, a', -, reaches', -⟩ | ⟨-, a', reaches', -⟩
  · exact ⟨a', reaches'⟩
  · exact ⟨a', reaches'⟩

/-- The main thread pushes between `start` and the end of `flush_end` only. -/
theorem Pushes.calls {b : State τ} {message : Message τ} (pushes : Pushes s queues (some (k, message)) b) :
    s.Calls message ∧ (b = s ∨ b = s.pushed message) := by
  cases pushes with
  | pushing calls => exact ⟨calls, .inl rfl⟩
  | pushed calls => exact ⟨calls, .inr rfl⟩

theorem Process.Follows.not_pushing (follows : p.Follows a) (idle : p.session.main ≠ .idle)
    (terminating : p.session.main ≠ .terminating) : p.pushing = none := by
  obtain ⟨queues, b, -, -, pushes, -⟩ := follows
  cases pushing : p.pushing with
  | none => rfl
  | some call =>
    obtain ⟨k, message⟩ := call
    rw [pushing] at pushes
    cases message with
    | trace data => exact (idle pushes.calls.1.1).elim
    | terminator => exact (terminating pushes.calls.1).elim

/-- A queue that is pushed to has not been destroyed. -/
theorem Invariant.alive {ch : Channel τ} (inv : Invariant text s)
    (calls : s.main = .idle ∧ s.tpCall = some true ∨ s.main = .terminating ∨ s.main = .joining)
    (current : s.tinyQueue = some k) (atK : s.channels[k]? = some ch) : ch.destroyed = false := by
  rcases inv with between | ⟨before, last, during⟩
  · rcases calls with ⟨-, enabled⟩ | main | main
    · cases between.tpCall.symm.trans enabled
    · cases between.main.symm.trans main
    · cases between.main.symm.trans main
  · obtain rfl : before.length = k := Option.some.inj (during.tinyQueue.symm.trans current)
    cases during.at_last.symm.trans atK
    have position := during.position
    rcases calls with ⟨main, -⟩ | main | main <;> rw [main] at position <;> exact position.1

/-- Once a queue is destroyed, the main thread is in no push to it. -/
theorem Process.Reaches.idle (reaches : p.Reaches text a) {ch : Channel τ} (atK : p.session.channels[k]? = some ch)
    (destroyed : ch.destroyed = true) (user : User) : (p.queues k).pc user = .idle := by
  obtain ⟨queues, b, represents, owned, pushes, rfl⟩ := reaches.follows
  rw [← TinyQueue.phase_eq_idle, ← phase_of_represents (represents k)]
  cases user with
  | worker =>
    exact owned.idle atK (by simp [reaches.retired.destroyed k ch atK destroyed])
  | main =>
    by_contra busy
    obtain ⟨message, pushing, current, -, -⟩ := pushes.using busy
    rw [pushing] at pushes
    obtain ⟨calls, position⟩ := pushes.calls
    have atB : (b.above queues).channels[k]? = some (ch.above (queues k)) := by
      rw [State.above_at, pushes.channels, atK, Option.map_some]
    have alive := reaches.session.alive (k := k) ?_ (pushes.tinyQueue.trans current) atB
    · exact Bool.false_ne_true (alive.symm.trans destroyed)
    · cases message with
      | trace data => rcases position with rfl | rfl <;> exact .inl calls
      | terminator =>
        rcases position with rfl | rfl
        · exact .inr (.inl calls)
        · exact .inr (.inr rfl)

end
end Racer.Session
