import Mathlib.Data.Fintype.Defs
import Racer.Tracer.QueueProgress
import Racer.Tracer.Session

namespace Racer.Session
open Transition Delimited Function Histories

/-! The sessions of a process over its queues, statement by statement. -/

/-- The threads that use the queue of a session. -/
inductive User
  | main | worker
  deriving DecidableEq

instance : Fintype User :=
  ⟨{.main, .worker}, fun user => by cases user <;> decide⟩

abbrev Queue (τ : Type) := TinyQueue.State User (Message τ)

section
variable {τ : Type}

/-- Where `init_worker` goes with what it has popped. -/
def Message.worker : Message τ → WorkerPc τ
  | .trace data => .sending data
  | .terminator => .returned

/-- The main thread is in `process_return_event`, or in `flush_end` where it pushes the
message. -/
def State.Calls (s : State τ) : Message τ → Prop
  | .trace _ => s.main = .idle ∧ s.tpCall = some true
  | .terminator => s.main = .terminating

/-- The main thread goes on when its push has returned. -/
def State.pushed (s : State τ) : Message τ → State τ
  | .trace trace => { s with queued := s.queued ++ [trace] }
  | .terminator => { s with main := .joining }

/-- `session` is everything but the contents of the queues: its own queues stay empty.
`pushing` is what the main thread is pushing, and to which queue. -/
structure Process (τ : Type) where
  session : State τ := {}
  queues : Nat → Queue τ := fun _ => TinyQueue.create
  pushing : Option (Nat × Message τ) := none

/-- What the threads do with the queue of `k`. There is always memory for the terminator:
without it `flush_end` waits for ever. `wakeups` tells whether `pthread_cond_wait` may
return without a signal. -/
inductive Process.QueueStep (wakeups : Prop) (k : Nat) : Process τ → Process τ → Prop
  | callPush {s queue} (message : Message τ) : s.pushing = none → s.session.Calls message →
      s.session.tinyQueue = some k → TinyQueue.Step (s.queues k) (some (.callPush .main message)) queue →
      QueueStep wakeups k s { s with queues := update s.queues k queue, pushing := some (k, message) }
  | returnPush {s message queue} : s.pushing = some (k, message) →
      TinyQueue.Step (s.queues k) (some (.returnPush .main 0)) queue →
      QueueStep wakeups k s
        { session := s.session.pushed message, queues := update s.queues k queue, pushing := none }
  -- `process_return_event` does not look at the result: the trace is lost
  | lost {s trace queue} : s.pushing = some (k, .trace trace) →
      TinyQueue.Step (s.queues k) (some (.returnPush .main (-1))) queue →
      QueueStep wakeups k s { s with queues := update s.queues k queue, pushing := none }
  | callPop {s ch queue} : s.session.channels[k]? = some ch → ch.worker = .popping →
      TinyQueue.Step (s.queues k) (some (.callPop .worker)) queue →
      QueueStep wakeups k s { s with queues := update s.queues k queue }
  | returnPop {s queue} (message : Message τ) :
      TinyQueue.Step (s.queues k) (some (.returnPop .worker message)) queue →
      QueueStep wakeups k s
        { s with
          session := s.session.modify k ({ · with worker := message.worker })
          queues := update s.queues k queue }
  | inside {s t queue} : TinyQueue.Move t (s.queues k) none queue →
      QueueStep wakeups k s { s with queues := update s.queues k queue }
  | wakeup {s t} : wakeups → (s.queues k).pc t = .popWait →
      QueueStep wakeups k s { s with queues := update s.queues k ((s.queues k).goto t .popLock) }

/-- A worker that is `popping` is in `tiny_queue_pop` or in front of it. -/
inductive Process.Step (text : τ → Bytes) (wakeups : Prop) : Process τ → Process τ → Prop
  | queue {s s'} (k : Nat) : QueueStep wakeups k s s' → Step text wakeups s s'
  | send {s k j ch trace} : s.session.channels[k]? = some ch → ch.worker = .sending trace →
      s.session.Resolves ch.fd j →
      Step text wakeups s
        { s with session := (s.session.modify j (.send (text trace))).modify k ({ · with worker := .popping }) }
  | sendFails {s k ch trace} : s.session.channels[k]? = some ch → ch.worker = .sending trace →
      (∀ j, ¬ s.session.Resolves ch.fd j) →
      Step text wakeups s { s with session := s.session.modify k ({ · with worker := .returned }) }
  -- the other statements of the main thread
  | other {s session} : s.pushing = none → Session.Step text s.session session →
      (∀ ch ∈ session.channels, ch.queue = []) → Step text wakeups s { s with session }

end

section
variable {τ : Type}

/-- The queue of a session, where operations take effect at once. -/
abbrev Atomic (τ : Type) := TinyQueue.Atomic User (Message τ)

/-- Where the worker is once the pop that it is in has taken effect. -/
def workerAt : TinyQueue.Phase (Message τ) → WorkerPc τ → WorkerPc τ
  | .popped message, _ => message.worker
  | _, worker => worker

def Channel.above (queue : Atomic τ) (ch : Channel τ) : Channel τ :=
  { ch with queue := queue.contents, worker := workerAt (queue.phase .worker) ch.worker }

/-- The session whose queues are these. -/
def State.above (s : State τ) (queues : Nat → Atomic τ) : State τ :=
  { s with channels := s.channels.mapIdx fun k ch => ch.above (queues k) }

/-- Whether the push of the main thread has taken effect, and where the main thread
is then. -/
inductive Pushes (s : State τ) (queues : Nat → Atomic τ) : Option (Nat × Message τ) → State τ → Prop
  | outside : (∀ k, (queues k).phase .main = .idle) → Pushes s queues none s
  | pushing {k message} : s.Calls message → s.tinyQueue = some k → (∀ j ≠ k, (queues j).phase .main = .idle) →
      (queues k).phase .main = .pushing message → Pushes s queues (some (k, message)) s
  | pushed {k message} : s.Calls message → s.tinyQueue = some k → (∀ j ≠ k, (queues j).phase .main = .idle) →
      (queues k).phase .main = .pushed → Pushes s queues (some (k, message)) (s.pushed message)

/-- A step inside the calls of the main thread. -/
def Inside (text : τ → Bytes) : State τ → State τ → Prop :=
  Guarded (Step text) fun s s' => s.main = .idle ↔ s'.main = .idle

/-- The worker is in a pop. -/
def InPop : TinyQueue.Phase (Message τ) → Prop
  | .popping | .waiting | .popped _ => True
  | _ => False

/-- The queues are those of the channels, and only its worker pops a queue. -/
structure Owned (s : State τ) (queues : Nat → Atomic τ) : Prop where
  empty : ∀ ch ∈ s.channels, ch.queue = []
  current : ∀ k, s.tinyQueue = some k → k < s.channels.length
  unused : ∀ k, s.channels.length ≤ k → queues k = TinyQueue.Atomic.empty
  worker : ∀ k, (queues k).phase .worker = .idle ∨
    InPop ((queues k).phase .worker) ∧ ∃ ch, s.channels[k]? = some ch ∧ ch.worker = .popping

theorem State.pushed_channels (s : State τ) (message : Message τ) : (s.pushed message).channels = s.channels := by
  cases message <;> rfl

theorem State.pushed_tinyQueue (s : State τ) (message : Message τ) : (s.pushed message).tinyQueue = s.tinyQueue := by
  cases message <;> rfl

theorem State.pushed_above (s : State τ) (queues : Nat → Atomic τ) (message : Message τ) :
    (s.above queues).pushed message = (s.pushed message).above queues := by
  cases message <;> rfl

theorem State.pushed_modify (s : State τ) (message : Message τ) (k : Nat) (f : Channel τ → Channel τ) :
    (s.modify k f).pushed message = (s.pushed message).modify k f := by
  cases message <;> rfl

theorem State.Calls.above {s : State τ} {message : Message τ} (calls : s.Calls message) (queues : Nat → Atomic τ) :
    (s.above queues).Calls message := by
  cases message <;> exact calls

theorem State.above_at (s : State τ) (queues : Nat → Atomic τ) (k : Nat) :
    (s.above queues).channels[k]? = s.channels[k]?.map (·.above (queues k)) :=
  List.getElem?_mapIdx

variable {text : τ → Bytes} {s b : State τ} {queues : Nat → Atomic τ} {k : Nat} {queue : Atomic τ}
  {pushing : Option (Nat × Message τ)}

/-- A change of one channel, and of its queue. -/
theorem State.above_modify {f g : Channel τ → Channel τ}
    (same : ∀ ch, s.channels[k]? = some ch → (f ch).above queue = g (ch.above (queues k))) :
    (s.modify k f).above (update queues k queue) = (s.above queues).modify k g := by
  have channels : ((s.modify k f).above (update queues k queue)).channels = ((s.above queues).modify k g).channels := by
    refine List.ext_getElem? fun j => ?_
    rw [above_at, modify, modify, List.getElem?_modify, List.getElem?_modify, above_at]
    by_cases here : k = j
    · subst here
      cases atK : s.channels[k]? with
      | none => rfl
      | some ch => simpa using same ch atK
    · simp [here, update_of_ne (Ne.symm here)]
  simpa only [above, modify, mk.injEq, true_and, and_true] using channels

/-- A change of a queue. -/
theorem State.above_update (queue : Atomic τ) {g : Channel τ → Channel τ}
    (same : ∀ ch, s.channels[k]? = some ch → ch.above queue = g (ch.above (queues k))) :
    s.above (update queues k queue) = (s.above queues).modify k g := by
  rw [← above_modify (f := id) same, modify, List.modify_id]

/-- A change of a queue that the session does not see. -/
theorem State.above_silent (queue : Atomic τ) (contents : queue.contents = (queues k).contents)
    (worker : ∀ ch, s.channels[k]? = some ch →
      workerAt (queue.phase .worker) ch.worker = workerAt ((queues k).phase .worker) ch.worker) :
    s.above (update queues k queue) = s.above queues := by
  rw [above_update queue (g := id) fun ch atK => ?_, modify, List.modify_id]
  rw [id, Channel.above, Channel.above, contents, worker ch atK]

theorem Pushes.congr {queues' : Nat → Atomic τ} (pushes : Pushes s queues pushing b)
    (same : ∀ j, (queues' j).phase .main = (queues j).phase .main) : Pushes s queues' pushing b := by
  cases pushes with
  | outside idle => exact .outside fun j => (same j).trans (idle j)
  | pushing calls current others here =>
    exact .pushing calls current (fun j other => (same j).trans (others j other)) ((same _).trans here)
  | pushed calls current others here =>
    exact .pushed calls current (fun j other => (same j).trans (others j other)) ((same _).trans here)

theorem Pushes.channels (pushes : Pushes s queues pushing b) : b.channels = s.channels := by
  cases pushes with
  | outside | pushing => rfl
  | pushed => exact s.pushed_channels _

theorem Pushes.tinyQueue (pushes : Pushes s queues pushing b) : b.tinyQueue = s.tinyQueue := by
  cases pushes with
  | outside | pushing => rfl
  | pushed => exact s.pushed_tinyQueue _

theorem Pushes.resolves (pushes : Pushes s queues pushing b) {fd : Int} {j : Nat} :
    b.Resolves fd j ↔ s.Resolves fd j := by
  rw [State.Resolves, State.Resolves, pushes.channels]

/-- A queue that the main thread uses is the one that it pushes to. -/
theorem Pushes.using (pushes : Pushes s queues pushing b) (busy : (queues k).phase .main ≠ .idle) :
    ∃ message, pushing = some (k, message) ∧ s.tinyQueue = some k ∧ (∀ j ≠ k, (queues j).phase .main = .idle) ∧
      ((queues k).phase .main = .pushing message ∧ s.Calls message ∧ b = s ∨
        (queues k).phase .main = .pushed ∧ b = s.pushed message) := by
  cases pushes with
  | outside idle => exact (busy (idle k)).elim
  | @pushing j message calls current others here =>
    obtain rfl : k = j := by_contra fun other => busy (others k other)
    exact ⟨message, rfl, current, others, .inl ⟨here, calls, rfl⟩⟩
  | @pushed j message calls current others here =>
    obtain rfl : k = j := by_contra fun other => busy (others k other)
    exact ⟨message, rfl, current, others, .inr ⟨here, rfl⟩⟩

/-- The main thread is never in a pop. -/
theorem Pushes.not_inPop (pushes : Pushes s queues pushing b) : ¬ InPop ((queues k).phase .main) := by
  intro busy
  obtain ⟨message, -, -, -, ⟨here, -⟩ | ⟨here, -⟩⟩ := pushes.using (k := k) fun idle => (idle ▸ busy :)
  all_goals
    rw [here] at busy
    exact busy

theorem Owned.update (owned : Owned s queues) (bound : k < s.channels.length)
    (worker : queue.phase .worker = .idle ∨
      InPop (queue.phase .worker) ∧ ∃ ch, s.channels[k]? = some ch ∧ ch.worker = .popping) :
    Owned s (update queues k queue) where
  empty := owned.empty
  current := owned.current
  unused j beyond := by
    rw [update_of_ne (by omega)]
    exact owned.unused j beyond
  worker j := by
    by_cases here : j = k
    · rw [here, update_self]
      exact worker
    · rw [update_of_ne here]
      exact owned.worker j

/-- The worker that is in a pop is in front of it in the session. -/
theorem Owned.popping (owned : Owned s queues) (busy : InPop ((queues k).phase .worker)) :
    ∃ ch, s.channels[k]? = some ch ∧ ch.worker = .popping := by
  rcases owned.worker k with idle | ⟨-, popping⟩
  · rw [idle] at busy
    exact busy.elim
  · exact popping

/-- A push takes effect. -/
theorem State.push_step (text : τ → Bytes) (s : State τ) {message : Message τ} (calls : s.Calls message)
    (current : s.tinyQueue = some k) :
    Inside text s ((s.pushed message).modify k (.push message)) := by
  cases message with
  | trace data => exact ⟨.returnEvent data calls.1 calls.2 current, Iff.rfl⟩
  | terminator =>
    have terminating : s.main = .terminating := calls
    refine ⟨.flushTerminate calls current, ?_⟩
    show s.main = .idle ↔ MainPc.joining = .idle
    rw [terminating]
    decide

/-- A pop takes effect. -/
theorem State.pop_step (text : τ → Bytes) (s : State τ) {ch : Channel τ} {message : Message τ} {rest : List (Message τ)}
    (atK : s.channels[k]? = some ch) (popping : ch.worker = .popping) (first : ch.queue = message :: rest) :
    Inside text s (s.modify k ({ · with queue := rest, worker := message.worker })) := by
  cases message with
  | trace data => exact ⟨.pop atK popping first, Iff.rfl⟩
  | terminator => exact ⟨.popTerminator atK popping first, Iff.rfl⟩

/-- The worker moves on inside its pop. -/
theorem Owned.inside (owned : Owned s queues) (busy : InPop ((queues k).phase .worker))
    (phase : TinyQueue.Phase (Message τ)) (still : InPop phase) (contents : List (Message τ)) :
    Owned s (Function.update queues k { (queues k).goto .worker phase with contents := contents }) := by
  obtain ⟨ch, atK, popping⟩ := owned.popping busy
  refine owned.update (List.getElem?_eq_some_iff.mp atK).1 (.inr ⟨?_, ch, atK, popping⟩)
  exact (TinyQueue.Atomic.phase_goto (queues k) .worker phase).symm ▸ still

/-- Only what happens in the queue of `k` can be seen of a user of it. -/
theorem phase_update_of_ne {user other : User} (different : other ≠ user) (phase : TinyQueue.Phase (Message τ))
    (contents : List (Message τ)) (j : Nat) :
    (update queues k { (queues k).goto user phase with contents := contents } j).phase other =
      (queues j).phase other := by
  by_cases here : j = k
  · rw [here, update_self]
    exact TinyQueue.Atomic.phase_goto_of_ne _ different _
  · rw [update_of_ne here]

/-- A push takes effect inside the queue of the session. -/
theorem Pushes.takes_effect (pushes : Pushes s queues pushing b) (owned : Owned s queues) {message : Message τ}
    (here : (queues k).phase .main = .pushing message)
    (queue_eq : queue = { (queues k).goto .main .pushed with contents := (queues k).contents ++ [message] }) :
    ∃ b', Owned s (update queues k queue) ∧ Pushes s (update queues k queue) pushing b' ∧
      Inside text (b.above queues) (b'.above (update queues k queue)) := by
  have same : queue.phase .worker = (queues k).phase .worker :=
    queue_eq ▸ TinyQueue.Atomic.phase_goto_of_ne (queues k) (t := .main) (u := .worker) (by decide) .pushed
  obtain ⟨message', rfl, current, others, ⟨atPushing, calls, rfl⟩ | ⟨atPushed, -⟩⟩ :=
    pushes.using (k := k) (by simp [here])
  · cases atPushing.symm.trans here
    refine ⟨b.pushed message, owned.update (owned.current k current) (same ▸ owned.worker k),
      .pushed calls current (fun j other => ?_) ?_, ?_⟩
    · rw [update_of_ne other]
      exact others j other
    · rw [update_self, queue_eq]
      exact TinyQueue.Atomic.phase_goto (queues k) .main .pushed
    · have step := (b.above queues).push_step text (calls.above queues) current
      rwa [State.pushed_above, ← State.above_update queue] at step
      intro ch atK
      rw [Channel.above, same, queue_eq]
      rfl
  · rw [here] at atPushed
    cases atPushed

/-- What happens inside a queue is at most one step of its session. -/
theorem Owned.internal (text : τ → Bytes) (owned : Owned s queues) (pushes : Pushes s queues pushing b)
    (step : TinyQueue.Atomic.Step (queues k) none queue) :
    ∃ b', Owned s (Function.update queues k queue) ∧ Pushes s (Function.update queues k queue) pushing b' ∧
      Run (Inside text) (b.above queues) (b'.above (Function.update queues k queue)) := by
  have notMain {phase} (here : (queues k).phase .main = phase) (busy : InPop phase) : False :=
    pushes.not_inPop (here ▸ busy)
  cases step with
  | @push user message here =>
    cases user with
    | worker =>
      rcases owned.worker k with idle | ⟨busy, -⟩
      · rw [here] at idle
        cases idle
      · rw [here] at busy
        exact busy.elim
    | main =>
      obtain ⟨b', owned', pushes', step⟩ := pushes.takes_effect owned here rfl
      exact ⟨b', owned', pushes', .single step⟩
  | @sleep user here empty =>
    cases user with
    | main => exact (notMain here trivial).elim
    | worker =>
      refine ⟨b, owned.inside (here ▸ trivial) .waiting trivial _,
        pushes.congr (phase_update_of_ne (by decide) _ _), ?_⟩
      rw [State.above_silent ((queues k).goto .worker .waiting) rfl]
      intro ch atK
      rw [TinyQueue.Atomic.phase_goto, here]
      rfl
  | @spurious user here =>
    cases user with
    | main => exact (notMain here trivial).elim
    | worker =>
      refine ⟨b, owned.inside (here ▸ trivial) .popping trivial _,
        pushes.congr (phase_update_of_ne (by decide) _ _), ?_⟩
      rw [State.above_silent ((queues k).goto .worker .popping) rfl]
      intro ch atK
      rw [TinyQueue.Atomic.phase_goto, here]
      rfl
  | @pop user message rest here first =>
    cases user with
    | main => exact (notMain here trivial).elim
    | worker =>
      have busy : InPop ((queues k).phase .worker) := here ▸ trivial
      obtain ⟨ch, atK, popping⟩ := owned.popping busy
      refine ⟨b, owned.inside busy (.popped message) trivial _,
        pushes.congr (phase_update_of_ne (by decide) _ _), .single ?_⟩
      have above : (b.above queues).channels[k]? = some (ch.above (queues k)) := by
        rw [State.above_at, pushes.channels, atK, Option.map_some]
      have step := (b.above queues).pop_step text above (by rw [Channel.above, here]; exact popping) first
      rwa [← State.above_update] at step
      intro c atK
      rw [Channel.above, show _ = _ from TinyQueue.Atomic.phase_goto ..]
      rfl

theorem Owned.internals (text : τ → Bytes) (owned : Owned s queues) (pushes : Pushes s queues pushing b)
    (history : History TinyQueue.Atomic.Step (queues k) [] queue) :
    ∃ b', Owned s (Function.update queues k queue) ∧ Pushes s (Function.update queues k queue) pushing b' ∧
      Run (Inside text) (b.above queues) (b'.above (Function.update queues k queue)) := by
  have silent := history.silent
  clear history
  induction silent with
  | refl =>
    rw [update_eq_self]
    exact ⟨b, owned, pushes, .refl⟩
  | @tail queue queue' _ last ih =>
    obtain ⟨b', owned', pushes', run⟩ := ih
    obtain ⟨b'', owned'', pushes'', more⟩ :=
      owned'.internal (k := k) text pushes' (by rwa [update_self] : TinyQueue.Atomic.Step _ none queue')
    rw [update_idem] at owned'' pushes'' more
    exact ⟨b'', owned'', pushes'', run.trans more⟩

theorem Owned.congr {s' : State τ} (owned : Owned s queues) (channels : s'.channels = s.channels)
    (tinyQueue : s'.tinyQueue = s.tinyQueue) : Owned s' queues where
  empty := channels ▸ owned.empty
  current := channels ▸ tinyQueue ▸ owned.current
  unused := channels ▸ owned.unused
  worker := channels ▸ owned.worker

theorem modify_empty {f : Channel τ → Channel τ} (empty : ∀ ch ∈ s.channels, ch.queue = [])
    (same : ∀ ch, (f ch).queue = ch.queue) : ∀ ch ∈ (s.modify k f).channels, ch.queue = [] := by
  intro ch member
  obtain ⟨j, atJ⟩ := List.mem_iff_getElem?.mp member
  rw [State.modify, List.getElem?_modify] at atJ
  obtain ⟨c, atC, rfl⟩ := Option.map_eq_some_iff.mp atJ
  have nothing := empty c (List.mem_of_getElem? atC)
  split
  · rw [same, nothing]
  · exact nothing

/-- The worker of a channel changes outside of its pops only. -/
theorem Owned.modify (owned : Owned s queues) {f : Channel τ → Channel τ} (empty : ∀ ch, (f ch).queue = ch.queue)
    (worker : (queues k).phase .worker = .idle ∨ ∀ ch, (f ch).worker = ch.worker) : Owned (s.modify k f) queues where
  empty := modify_empty owned.empty empty
  current j current := by
    rw [State.modify, List.length_modify]
    exact owned.current j current
  unused j beyond := by
    rw [State.modify, List.length_modify] at beyond
    exact owned.unused j beyond
  worker j := by
    rw [State.modify, List.getElem?_modify]
    rcases owned.worker j with idle | ⟨busy, ch, atJ, popping⟩
    · exact .inl idle
    · rcases worker with idle | same
      · by_cases here : k = j
        · exact .inl (here ▸ idle)
        · exact .inr ⟨busy, ch, by simp [atJ, here], popping⟩
      · refine .inr ⟨busy, _, congrArg (Option.map _) atJ, ?_⟩
        split
        · exact (same ch).trans popping
        · exact popping

theorem Pushes.modify (pushes : Pushes s queues pushing b) (j : Nat) (f : Channel τ → Channel τ) :
    Pushes (s.modify j f) queues pushing (b.modify j f) := by
  cases pushes with
  | outside idle => exact .outside idle
  | @pushing k message calls current others here =>
    exact .pushing (by cases message <;> exact calls) current others here
  | @pushed k message calls current others here =>
    rw [← State.pushed_modify]
    exact .pushed (by cases message <;> exact calls) current others here

/-- A change of a channel that leaves the queues alone. -/
theorem State.modify_above {f g : Channel τ → Channel τ}
    (same : ∀ ch, (f ch).above (queues k) = g (ch.above (queues k))) :
    (s.above queues).modify k g = (s.modify k f).above queues := by
  have modified := above_modify (s := s) fun ch _ => same ch
  rw [← modified, update_eq_self]

theorem State.Resolves.above {fd : Int} {j : Nat} :
    (s.above queues).Resolves fd j ↔ s.Resolves fd j := by
  simp only [Resolves, above_at]
  constructor
  · rintro ⟨_, found, same, opened⟩
    obtain ⟨ch, atJ, rfl⟩ := Option.map_eq_some_iff.mp found
    exact ⟨ch, atJ, same, opened⟩
  · rintro ⟨ch, atJ, same, opened⟩
    exact ⟨_, congrArg (Option.map _) atJ, same, opened⟩

/-- A worker that is not in front of a pop is in none. -/
theorem Owned.idle (owned : Owned s queues) {ch : Channel τ} (atK : s.channels[k]? = some ch)
    (working : ch.worker ≠ .popping) : (queues k).phase .worker = .idle := by
  rcases owned.worker k with idle | ⟨-, c, atC, popping⟩
  · exact idle
  · cases atK.symm.trans atC
    exact (working popping).elim

theorem Owned.above_at (owned : Owned s queues) {ch : Channel τ} (atK : s.channels[k]? = some ch)
    (working : ch.worker ≠ .popping) :
    (s.above queues).channels[k]? = some { ch with queue := (queues k).contents } := by
  rw [State.above_at, atK, Option.map_some, Channel.above, owned.idle atK working]
  rfl

theorem Owned.start (owned : Owned s queues) (fd : Nat) : Owned (s.openSession fd) queues where
  empty ch member := by
    rcases List.mem_append.mp member with old | new
    · exact owned.empty ch old
    · rw [List.mem_singleton.mp new]
  current j current := by
    obtain rfl : s.channels.length = j := Option.some.inj current
    simp [State.openSession]
  unused j beyond := by
    have more : (s.openSession fd).channels.length = s.channels.length + 1 := List.length_append ..
    exact owned.unused j (by omega)
  worker j := by
    rcases owned.worker j with idle | ⟨busy, ch, atJ, popping⟩
    · exact .inl idle
    · refine .inr ⟨busy, ch, ?_, popping⟩
      exact (List.getElem?_append_left (List.getElem?_eq_some_iff.mp atJ).1).trans atJ

theorem Owned.start_above (owned : Owned s queues) (fd : Nat) :
    (s.above queues).openSession fd = (s.openSession fd).above queues := by
  have fresh := owned.unused s.channels.length le_rfl
  simp [State.openSession, State.above, List.mapIdx_append, fresh, Channel.above, TinyQueue.Atomic.empty, workerAt]

/-- The steps that push nothing and pop nothing are the same over any queues. -/
theorem Owned.step (owned : Owned s queues) {s' : State τ} (step : Step text s s')
    (empty : ∀ ch ∈ s'.channels, ch.queue = []) : Owned s' queues ∧ Step text (s.above queues) (s'.above queues) := by
  have unpushed {k : Nat} {message : Message τ} (current : s.tinyQueue = some k)
      (pushed : s'.channels = s.channels.modify k (.push message)) : False := by
    have bound := owned.current k current
    have member : (s.channels[k].push message) ∈ s'.channels := by
      rw [pushed]
      exact List.mem_of_getElem? (i := k) (by simp [bound])
    exact List.append_ne_nil_of_right_ne_nil _ (List.cons_ne_nil message []) (empty _ member)
  have unpopped {k : Nat} {ch : Channel τ} {message : Message τ} {rest : List (Message τ)}
      (atK : s.channels[k]? = some ch) (first : ch.queue = message :: rest) : False := by
    rw [owned.empty ch (List.mem_of_getElem? atK)] at first
    cases first
  cases step with
  | startAgain main tpCall => exact ⟨owned.congr rfl rfl, .startAgain main tpCall⟩
  | socketFails main tpCall => exact ⟨owned.congr rfl rfl, .socketFails main tpCall⟩
  | start fd main tpCall => exact ⟨owned.start fd, owned.start_above fd ▸ .start fd main tpCall⟩
  | stop main => exact ⟨owned.congr rfl rfl, .stop main⟩
  | returnEvent trace main tpCall current => exact (unpushed current rfl).elim
  | flush main =>
    have same : (s.above queues).flush = s.flush.above queues :=
      (apply_ite (State.above · queues) (s.socketFd ≤ 0) s { s with main := .stopping }).symm
    refine ⟨?_, same ▸ .flush main⟩
    unfold State.flush
    split
    · exact owned
    · exact owned.congr rfl rfl
  | flushStop main => exact ⟨owned.congr rfl rfl, .flushStop main⟩
  | flushClear main => exact ⟨owned.congr rfl rfl, .flushClear main⟩
  | flushTerminate main current => exact (unpushed current rfl).elim
  | flushJoin main pthread atK returned =>
    exact ⟨owned.congr rfl rfl, .flushJoin main pthread (owned.above_at atK (by simp [returned])) returned⟩
  | @flushDestroy k main current =>
    let destroy (ch : Channel τ) : Channel τ := { ch with destroyed := true }
    refine ⟨Owned.congr (owned.modify (f := destroy) (fun _ => rfl) (.inr fun _ => rfl)) rfl rfl, ?_⟩
    have step : Step text (s.above queues) _ := .flushDestroy main current
    rwa [State.modify_above (f := destroy) fun _ => rfl] at step
  | @flushSend j main resolves =>
    let stop (ch : Channel τ) : Channel τ := { ch.send Racer.stop with stopSent := true }
    refine ⟨Owned.congr (owned.modify (f := stop) (fun _ => rfl) (.inr fun _ => rfl)) rfl rfl, ?_⟩
    have step : Step text (s.above queues) _ := .flushSend main (State.Resolves.above.mpr resolves)
    rwa [State.modify_above (f := stop) fun _ => rfl] at step
  | @flushClose j main resolves =>
    let close (ch : Channel τ) : Channel τ := { ch with closed := true }
    refine ⟨Owned.congr (owned.modify (f := close) (fun _ => rfl) (.inr fun _ => rfl)) rfl rfl, ?_⟩
    have step : Step text (s.above queues) _ := .flushClose main (State.Resolves.above.mpr resolves)
    rwa [State.modify_above (f := close) fun _ => rfl] at step
  | pop atK popping first => exact (unpopped atK first).elim
  | popTerminator atK popping first => exact (unpopped atK first).elim
  | @send k j ch trace atK working resolves =>
    have idle := owned.idle atK (by simp [working])
    refine ⟨Owned.modify (owned.modify (f := .send (text trace)) (fun _ => rfl) (.inr fun _ => rfl)) (fun _ => rfl)
      (.inl idle), ?_⟩
    have step : Step text (s.above queues) _ :=
      .send (owned.above_at atK (by simp [working])) working (State.Resolves.above.mpr resolves)
    rwa [State.modify_above (f := .send (text trace)) fun _ => rfl,
      State.modify_above (f := ({ · with worker := .popping })) fun ch => by simp [Channel.above, idle, workerAt]]
      at step
  | @sendFails k ch trace atK working unresolved =>
    have idle := owned.idle atK (by simp [working])
    refine ⟨owned.modify (fun _ => rfl) (.inl idle), ?_⟩
    have step : Step text (s.above queues) _ :=
      .sendFails (owned.above_at atK (by simp [working])) working fun j => mt State.Resolves.above.mp (unresolved j)
    rwa [State.modify_above (f := ({ · with worker := .returned })) fun ch => by simp [Channel.above, idle, workerAt]]
      at step

/-- A change of the current queue that the session does not see: its main thread moves, and
may wake the worker. -/
theorem Owned.silent (owned : Owned s queues) (queue : Atomic τ) (b : State τ) (current : s.tinyQueue = some k)
    (contents : queue.contents = (queues k).contents)
    (worker : queue.phase .worker = (queues k).phase .worker ∨
      (queues k).phase .worker = .waiting ∧ queue.phase .worker = .popping) :
    Owned s (Function.update queues k queue) ∧ b.above (Function.update queues k queue) = b.above queues := by
  constructor
  · refine owned.update (owned.current k current) ?_
    rcases worker with same | ⟨waiting, popping⟩
    · exact same ▸ owned.worker k
    · exact .inr ⟨popping ▸ trivial, owned.popping (waiting ▸ trivial)⟩
  · refine State.above_silent queue contents fun ch _ => ?_
    rcases worker with same | ⟨waiting, popping⟩
    · rw [same]
    · rw [waiting, popping]
      rfl

theorem Owned.callPush (owned : Owned s queues) (pushes : Pushes s queues none b) {message : Message τ}
    (calls : s.Calls message) (current : s.tinyQueue = some k)
    (step : TinyQueue.Atomic.Step (queues k) (some (.callPush .main message)) queue) :
    Owned s (Function.update queues k queue) ∧ Pushes s (Function.update queues k queue) (some (k, message)) s ∧
      s.above (Function.update queues k queue) = b.above queues := by
  cases pushes with
  | outside idle =>
    cases step with
    | callPush _ here =>
      obtain ⟨owned', same⟩ := owned.silent ((queues k).goto .main (.pushing message)) s current rfl
        (.inl (TinyQueue.Atomic.phase_goto_of_ne _ (by decide) _))
      refine ⟨owned', .pushing calls current (fun j other => ?_) ?_, same⟩
      · rw [update_of_ne other]
        exact idle j
      · rw [update_self]
        exact TinyQueue.Atomic.phase_goto ..

/-- The main thread is in no push any more. -/
theorem Pushes.leave (others : ∀ j ≠ k, (queues j).phase .main = .idle) (here : queue.phase .main = .idle)
    (s : State τ) : Pushes s (update queues k queue) none s := by
  refine .outside fun j => ?_
  by_cases same : j = k
  · rw [same, update_self]
    exact here
  · rw [update_of_ne same]
    exact others j same

theorem Owned.returnPush (owned : Owned s queues) {message : Message τ} (pushes : Pushes s queues (some (k, message)) b)
    (step : TinyQueue.Atomic.Step (queues k) (some (.returnPush .main 0)) queue) :
    Owned (s.pushed message) (Function.update queues k queue) ∧
      Pushes (s.pushed message) (Function.update queues k queue) none b ∧
      b.above (Function.update queues k queue) = b.above queues := by
  have after {queue : Atomic τ} (here : (queues k).phase .main = .pushed) (idle : queue.phase .main = .idle)
      (contents : queue.contents = (queues k).contents)
      (worker : queue.phase .worker = (queues k).phase .worker ∨
        (queues k).phase .worker = .waiting ∧ queue.phase .worker = .popping) :
      Owned (s.pushed message) (Function.update queues k queue) ∧
        Pushes (s.pushed message) (Function.update queues k queue) none b ∧
        b.above (Function.update queues k queue) = b.above queues := by
    obtain ⟨message', same, current, others, ⟨atPushing, -⟩ | ⟨-, rfl⟩⟩ := pushes.using (k := k) (by simp [here])
    · rw [here] at atPushing
      cases atPushing
    · cases same
      obtain ⟨owned', same⟩ := owned.silent queue (s.pushed message) current contents worker
      exact ⟨owned'.congr (s.pushed_channels message) (s.pushed_tinyQueue message), .leave others idle _, same⟩
  cases step with
  | returnPush here nobody =>
    exact after here (TinyQueue.Atomic.phase_goto ..) rfl (.inl (TinyQueue.Atomic.phase_goto_of_ne _ (by decide) _))
  | wake user here waiting =>
    cases user with
    | main =>
      rw [here] at waiting
      cases waiting
    | worker =>
      refine after here ?_ rfl (.inr ⟨waiting, TinyQueue.Atomic.phase_goto ..⟩)
      rw [TinyQueue.Atomic.phase_goto_of_ne _ (by decide), TinyQueue.Atomic.phase_goto]

theorem Owned.lost (owned : Owned s queues) {message : Message τ} (pushes : Pushes s queues (some (k, message)) b)
    (step : TinyQueue.Atomic.Step (queues k) (some (.returnPush .main (-1))) queue) :
    Owned s (Function.update queues k queue) ∧ Pushes s (Function.update queues k queue) none b ∧
      b.above (Function.update queues k queue) = b.above queues := by
  cases step with
  | pushFails here =>
    obtain ⟨message', same, current, others, ⟨-, -, rfl⟩ | ⟨atPushed, -⟩⟩ := pushes.using (k := k) (by simp [here])
    · obtain ⟨owned', same⟩ := owned.silent ((queues k).goto .main .idle) b current rfl
        (.inl (TinyQueue.Atomic.phase_goto_of_ne _ (by decide) _))
      exact ⟨owned', .leave others (TinyQueue.Atomic.phase_goto ..) b, same⟩
    · rw [here] at atPushed
      cases atPushed

theorem Owned.callPop (owned : Owned s queues) (pushes : Pushes s queues pushing b) {ch : Channel τ}
    (atK : s.channels[k]? = some ch) (popping : ch.worker = .popping)
    (step : TinyQueue.Atomic.Step (queues k) (some (.callPop .worker)) queue) :
    Owned s (Function.update queues k queue) ∧ Pushes s (Function.update queues k queue) pushing b ∧
      b.above (Function.update queues k queue) = b.above queues := by
  cases step with
  | callPop here =>
    have phase := TinyQueue.Atomic.phase_goto (queues k) .worker .popping
    refine ⟨owned.update (List.getElem?_eq_some_iff.mp atK).1 (.inr ⟨phase ▸ trivial, ch, atK, popping⟩),
      pushes.congr (phase_update_of_ne (by decide) _ (queues k).contents), State.above_silent _ rfl fun c _ => ?_⟩
    rw [phase, here]
    rfl

theorem Owned.returnPop (owned : Owned s queues) (pushes : Pushes s queues pushing b) {message : Message τ}
    (step : TinyQueue.Atomic.Step (queues k) (some (.returnPop .worker message)) queue) :
    Owned (s.modify k ({ · with worker := message.worker })) (Function.update queues k queue) ∧
      Pushes (s.modify k ({ · with worker := message.worker })) (Function.update queues k queue) pushing
        (b.modify k ({ · with worker := message.worker })) ∧
      (b.modify k ({ · with worker := message.worker })).above (Function.update queues k queue) = b.above queues := by
  cases step with
  | returnPop here =>
    have phase := TinyQueue.Atomic.phase_goto (queues k) .worker .idle
    obtain ⟨ch, atK, -⟩ := owned.popping (k := k) (here ▸ trivial)
    have owned' : Owned s (Function.update queues k ((queues k).goto .worker .idle)) :=
      owned.update (List.getElem?_eq_some_iff.mp atK).1 (.inl phase)
    refine ⟨owned'.modify (fun _ => rfl) (.inl ?_),
      (pushes.congr (phase_update_of_ne (by decide) _ (queues k).contents)).modify .., ?_⟩
    · rw [update_self]
      exact phase
    · rw [State.above_modify (g := id) fun c _ => ?_, State.modify, List.modify_id]
      rw [Channel.above, phase, id, Channel.above, here]
      rfl

/-- The session of the process, where a push or a pop that is under way has taken effect
or not. -/
def Process.Follows (p : Process τ) (a : State τ) : Prop :=
  ∃ queues b, (∀ j, TinyQueue.Represents (p.queues j) (queues j)) ∧ Owned p.session queues ∧
    Pushes p.session queues p.pushing b ∧ a = b.above queues

theorem represents_update {concrete : Nat → Queue τ} (represents : ∀ j, TinyQueue.Represents (concrete j) (queues j))
    {queue' : Queue τ} (here : TinyQueue.Represents queue' queue) :
    ∀ j, TinyQueue.Represents (update concrete k queue' j) (update queues k queue j) := by
  intro j
  by_cases same : j = k
  · rw [same, update_self, update_self]
    exact here
  · rw [update_of_ne same, update_of_ne same]
    exact represents j

theorem Process.Follows.inside {p : Process τ} {a : State τ} (follows : p.Follows a) {queue' : Queue τ}
    (step : TinyQueue.Step (p.queues k) none queue') :
    ∃ a', Process.Follows { p with queues := update p.queues k queue' } a' ∧ Run (Inside text) a a' := by
  obtain ⟨queues, b, represents, owned, pushes, rfl⟩ := follows
  obtain ⟨queue, represents', history⟩ := (represents k).follows step
  obtain ⟨b', owned', pushes', run⟩ := owned.internals text pushes history
  exact ⟨_, ⟨_, b', represents_update represents represents', owned', pushes', rfl⟩, run⟩

/-- A call or a return of a queue operation, before and after which the operation may take
effect. -/
theorem Process.Follows.event {p : Process τ} {a : State τ} (follows : p.Follows a)
    {event : TinyQueue.Event User (Message τ)} {queue' : Queue τ}
    (step : TinyQueue.Step (p.queues k) (some event) queue') {session : State τ} {pushing : Option (Nat × Message τ)}
    (moves : ∀ queues b queue, Owned p.session queues → Pushes p.session queues p.pushing b →
      TinyQueue.Atomic.Step (queues k) (some event) queue →
      ∃ b', Owned session (update queues k queue) ∧ Pushes session (update queues k queue) pushing b' ∧
        b'.above (update queues k queue) = b.above queues) :
    ∃ a', Process.Follows { session, queues := update p.queues k queue', pushing } a' ∧ Run (Inside text) a a' := by
  obtain ⟨queues, b, represents, owned, pushes, rfl⟩ := follows
  obtain ⟨queue, represents', history⟩ := (represents k).follows step
  obtain ⟨before, after, first, move, last⟩ := History.split_event history
  obtain ⟨b₁, owned₁, pushes₁, run₁⟩ := owned.internals text pushes first
  obtain ⟨b₂, owned₂, pushes₂, same⟩ := moves _ b₁ after owned₁ pushes₁ (by rwa [update_self])
  rw [update_idem] at owned₂ pushes₂ same
  obtain ⟨b₃, owned₃, pushes₃, run₂⟩ := owned₂.internals (k := k) text pushes₂
    (by rwa [update_self] : History _ _ [] queue)
  rw [update_idem] at owned₃ pushes₃ run₂
  rw [← same] at run₁
  exact ⟨_, ⟨_, b₃, represents_update represents represents', owned₃, pushes₃, rfl⟩, run₁.trans run₂⟩

/-- A step that leaves the queues alone. -/
theorem Process.Follows.step {p : Process τ} {a : State τ} (follows : p.Follows a) {session : State τ}
    (empty : ∀ ch ∈ session.channels, ch.queue = [])
    (moves : ∀ queues b, Pushes p.session queues p.pushing b →
      ∃ b', Pushes session queues p.pushing b' ∧ Session.Step text b b') :
    ∃ a', Process.Follows { p with session } a' ∧ Session.Step text a a' := by
  obtain ⟨queues, b, represents, owned, pushes, rfl⟩ := follows
  obtain ⟨b', pushes', step⟩ := moves queues b pushes
  obtain ⟨owned', step'⟩ := (owned.congr pushes.channels pushes.tinyQueue).step step (pushes'.channels ▸ empty)
  exact ⟨_, ⟨queues, b', represents, owned'.congr pushes'.channels.symm pushes'.tinyQueue.symm, pushes', rfl⟩,
    step'⟩

theorem Process.Follows.empty {p : Process τ} {a : State τ} (follows : p.Follows a) :
    ∀ ch ∈ p.session.channels, ch.queue = [] := by
  obtain ⟨_, _, _, owned, _⟩ := follows
  exact owned.empty

/-- What happens at a queue is a run of the session. -/
theorem Process.QueueStep.follows (text : τ → Bytes) {wakeups : Prop} {p p' : Process τ} {a : State τ}
    (step : QueueStep wakeups k p p') (follows : p.Follows a) : ∃ a', p'.Follows a' ∧ Run (Inside text) a a' := by
  cases step with
  | callPush message outside calls current call =>
    refine follows.event call fun queues b queue owned pushes move => ⟨p.session, ?_⟩
    rw [outside] at pushes
    exact owned.callPush pushes calls current move
  | returnPush inside returns =>
    refine follows.event returns fun queues b queue owned pushes move => ⟨b, ?_⟩
    rw [inside] at pushes
    exact owned.returnPush pushes move
  | lost inside returns =>
    refine follows.event returns fun queues b queue owned pushes move => ⟨b, ?_⟩
    rw [inside] at pushes
    exact owned.lost pushes move
  | callPop atK popping call =>
    exact follows.event call fun queues b queue owned pushes move => ⟨b, owned.callPop pushes atK popping move⟩
  | returnPop message returns =>
    exact follows.event returns fun queues b queue owned pushes move => ⟨_, owned.returnPop pushes move⟩
  | inside move => exact follows.inside (.move _ move)
  | wakeup _ waits => exact follows.inside (.spurious waits)

/-- A step that leaves the queues alone. -/
structure Process.Quiet (text : τ → Bytes) (p p' : Process τ) : Prop where
  queues : p'.queues = p.queues
  pushing : p'.pushing = p.pushing
  step : Session.Step text p.session p'.session

theorem Process.Step.follows {wakeups : Prop} {p p' : Process τ} {a : State τ} (step : Process.Step text wakeups p p')
    (follows : p.Follows a) : (∃ k, QueueStep wakeups k p p') ∨
      Quiet text p p' ∧ ∃ a', p'.Follows a' ∧ Session.Step text a a' := by
  cases step with
  | queue k step => exact .inl ⟨k, step⟩
  | @send k j ch trace atK working resolves =>
    refine .inr ⟨⟨rfl, rfl, .send atK working resolves⟩, follows.step ?_ fun queues b pushes =>
      ⟨_, (pushes.modify ..).modify .., .send (pushes.channels ▸ atK) working (pushes.resolves.mpr resolves)⟩⟩
    exact modify_empty (modify_empty follows.empty fun _ => rfl) fun _ => rfl
  | @sendFails k ch trace atK working unresolved =>
    refine .inr ⟨⟨rfl, rfl, .sendFails atK working unresolved⟩, follows.step ?_ fun queues b pushes =>
      ⟨_, pushes.modify .., .sendFails (pushes.channels ▸ atK) working fun j => mt pushes.resolves.mp (unresolved j)⟩⟩
    exact modify_empty follows.empty fun _ => rfl
  | @other session outside step empty =>
    refine .inr ⟨⟨rfl, rfl, step⟩, follows.step empty fun queues b pushes => ?_⟩
    rw [outside] at pushes ⊢
    cases pushes with
    | outside idle => exact ⟨session, .outside idle, step⟩

theorem Process.follows_start : Process.Follows ({} : Process τ) {} := by
  refine ⟨fun _ => TinyQueue.Atomic.empty, {}, fun _ => ⟨[], .create, rfl⟩, ⟨?_, ?_, fun _ _ => rfl, fun _ => .inl rfl⟩,
    .outside fun _ => rfl, rfl⟩
  · simp
  · simp

theorem Process.reachable_follows {wakeups : Prop} {p : Process τ} (run : Run (Process.Step text wakeups) {} p) :
    ∃ a, p.Follows a ∧ Run (Session.Step text) {} a := by
  induction run with
  | refl => exact ⟨{}, Process.follows_start, .refl⟩
  | tail _ last ih =>
    obtain ⟨a, follows, run⟩ := ih
    rcases last.follows follows with ⟨k, step⟩ | ⟨-, a', follows', step⟩
    · obtain ⟨a', follows', more⟩ := step.follows text follows
      exact ⟨a', follows', run.trans (Relation.ReflTransGen.mono (fun _ _ step => step.1) _ _ more)⟩
    · exact ⟨a', follows', run.tail step⟩

theorem Process.Follows.outside {p : Process τ} {a : State τ} (follows : p.Follows a) (outside : p.pushing = none) :
    ∃ queues, (∀ j, TinyQueue.Represents (p.queues j) (queues j)) ∧ Owned p.session queues ∧
      (∀ j, (queues j).phase .main = .idle) ∧ a = p.session.above queues := by
  obtain ⟨queues, b, represents, owned, pushes, rfl⟩ := follows
  rw [outside] at pushes
  cases pushes with
  | outside idle => exact ⟨queues, represents, owned, idle, rfl⟩

/-- What the flush that closes a session leaves behind. -/
theorem Invariant.flush_returns {s s' : State τ} (inv : Invariant text s) (step : Session.Step text s s')
    (returns : FlushReturns s s') : ∃ before ch, s'.channels = before ++ [ch] ∧ ch.closed = true ∧
      Finished text s'.queued ch := by
  obtain ⟨closing, idle⟩ := returns
  rcases inv with between | ⟨before, open', during⟩
  · rw [between.main] at closing
    cases closing
  · obtain ⟨ch', kept, opened | ⟨_, between, channels, finished⟩⟩ := step.during during
    · have sent := during.position
      have unsent := opened.position
      rw [closing] at sent
      rw [idle] at unsent
      exact (Bool.false_ne_true (unsent.2.1.symm.trans (kept.written sent.1).1)).elim
    · exact ⟨before, ch', channels, (between.ended ch' (by simp [channels])).closed, finished⟩

/-- Only the last step of `flush_end` lets a flush return. -/
theorem Process.Step.of_flush_returns {wakeups : Prop} {p p' : Process τ} (step : Process.Step text wakeups p p')
    (returns : FlushReturns p.session p'.session) :
    p.pushing = none ∧ Session.Step text p.session p'.session ∧ ∀ ch ∈ p'.session.channels, ch.queue = [] := by
  obtain ⟨closing, idle⟩ := returns
  have unchanged (main : p'.session.main = p.session.main) : False := by
    rw [main, closing] at idle
    cases idle
  cases step with
  | queue k step =>
    cases step with
    | @returnPush message queue inside returns =>
      cases message with
      | trace data => exact (unchanged rfl).elim
      | terminator => cases idle
    | _ => exact (unchanged rfl).elim
  | other outside step empty => exact ⟨outside, step, empty⟩
  | send | sendFails => exact (unchanged rfl).elim

/-- The socket of the last session carries the traces that have been queued in it, and one
stop frame. -/
def Process.Delivered (text : τ → Bytes) (p : Process τ) : Prop :=
  ∃ ch, p.session.channels.getLast? = some ch ∧ ch.closed = true ∧
    ch.written = frames nul (p.session.queued.map text ++ [Racer.stop])

theorem Process.Follows.delivered {wakeups : Prop} {p p' : Process τ} {a : State τ} (follows : p.Follows a)
    (inv : Invariant text a) (step : Process.Step text wakeups p p') (returns : FlushReturns p.session p'.session) :
    p'.Delivered text := by
  obtain ⟨outside, step, empty⟩ := step.of_flush_returns returns
  obtain ⟨queues, -, owned, -, rfl⟩ := follows.outside outside
  obtain ⟨-, step⟩ := owned.step step empty
  obtain ⟨before, last, channels, closed, finished⟩ := inv.flush_returns step returns
  have atLast : (p'.session.above queues).channels.getLast? = some last := by
    rw [channels, List.getLast?_concat]
  rw [State.above, List.getLast?_mapIdx] at atLast
  obtain ⟨ch, here, rfl⟩ := Option.map_eq_some_iff.mp atLast
  exact ⟨ch, here, closed, finished.written⟩

end
end Racer.Session
