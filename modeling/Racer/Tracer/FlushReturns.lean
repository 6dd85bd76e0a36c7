import Racer.Tracer.Flushing

namespace Racer.Session
open Transition Delimited Function Threads

/-! A flush returns. -/

section
variable {τ : Type} {text : τ → Bytes} {s s' a a' : State τ} {k : Nat} {p p' : Process τ}
  {queues : Nat → Atomic τ}

/-- No fewer than the steps that `flush_end` still takes, and the messages that it pushes. -/
def MainPc.left : MainPc → Nat
  | .idle => 0
  | .closing => 1
  | .sendingStop => 2
  | .destroying => 3
  | .joining => 4
  | .terminating => 9
  | .clearing => 10
  | .stopping => 11

def Channel.left (ch : Channel τ) : Nat :=
  3 * ch.queue.length + ch.worker.inHand.length

def State.left (s : State τ) : Nat :=
  s.main.left + (s.channels.map Channel.left).sum

theorem State.modify_left {ch : Channel τ} (atK : s.channels[k]? = some ch) (f : Channel τ → Channel τ) :
    (s.modify k f).left + ch.left = s.left + (f ch).left := by
  have sum := sum_modify Channel.left f atK
  simp only [left, modify]
  omega

/-- A step of the main thread. -/
theorem State.left_lt {main : MainPc} (more : Nat) (before : s.main = main)
    (sum : (s'.channels.map Channel.left).sum ≤ (s.channels.map Channel.left).sum + more)
    (less : s'.main.left + more < main.left) : s'.left < s.left := by
  rw [left, left, before]
  omega

/-- Each step of a session in `flush_end` brings its end nearer. -/
theorem Step.left (step : Step text s s') (flushing : s.main ≠ .idle) : s'.left < s.left := by
  cases step with
  | startAgain main | socketFails main | start _ main | stop main | returnEvent _ main | flush main =>
    exact (flushing main).elim
  | flushStop main | flushClear main | flushJoin main =>
    exact State.left_lt 0 main le_rfl (by simp [MainPc.left])
  | flushTerminate main =>
    refine State.left_lt 3 main (sum_modify_le _ _ _ _ fun ch => ?_) (by simp [MainPc.left])
    simp [Channel.left, Channel.push, Nat.mul_add, Nat.add_right_comm]
  | flushDestroy main | flushSend main | flushClose main =>
    exact State.left_lt 0 main (sum_modify_le _ _ _ _ fun _ => le_rfl) (by simp [MainPc.left])
  | @pop k ch trace rest atK popping first =>
    have sum := s.modify_left atK ({ · with queue := rest, worker := .sending trace })
    simp only [Channel.left, first, popping, WorkerPc.inHand, List.length_cons, List.length_nil] at sum
    omega
  | @popTerminator k ch rest atK popping first =>
    have sum := s.modify_left atK ({ · with queue := rest, worker := .returned })
    simp only [Channel.left, first, popping, WorkerPc.inHand, List.length_cons, List.length_nil] at sum
    omega
  | @send k j ch trace atK working resolves =>
    have same := sum_modify_le (f := .send (text trace)) Channel.left s.channels j 0 fun _ => le_rfl
    have sent : (s.modify j (.send (text trace))).left ≤ s.left := Nat.add_le_add_left same s.main.left
    obtain ⟨c, atC, working⟩ :
        ∃ c, (s.modify j (.send (text trace))).channels[k]? = some c ∧ c.worker = .sending trace := by
      rw [State.modify, List.getElem?_modify, atK]
      exact ⟨_, rfl, by split <;> exact working⟩
    have sum := State.modify_left atC ({ · with worker := .popping })
    simp only [Channel.left, working, WorkerPc.inHand, List.length_cons, List.length_nil] at sum
    omega
  | @sendFails k ch trace atK working unresolved =>
    have sum := s.modify_left atK ({ · with worker := .returned })
    simp only [Channel.left, working, WorkerPc.inHand, List.length_cons, List.length_nil] at sum
    omega

theorem Inside.left (run : Run (Inside text) s s') (flushing : s.main ≠ .idle) :
    s'.main ≠ .idle ∧ s'.left ≤ s.left := by
  induction run with
  | refl => exact ⟨flushing, le_rfl⟩
  | tail _ last ih =>
    obtain ⟨still, nearer⟩ := ih
    exact ⟨mt last.2.mpr still, ((last.1.left still).trans_le nearer).le⟩

/-- The pop that a worker is in front of. -/
def popLeft : Option (WorkerPc τ) → TinyQueue.Pc (Message τ) → Nat
  | some .popping, .idle => 10
  | _, _ => 0

/-- The statements that are left of the calls at a queue. -/
def credit (q : Queue τ) (worker : Option (WorkerPc τ)) : Nat :=
  total TinyQueue.Pc.left q.pc + popLeft worker (q.pc .worker)

/-- The call that `flush_end` is in front of. -/
def Process.callLeft (p : Process τ) : Nat :=
  match p.pushing, p.session.main with
  | none, .terminating => 17
  | _, _ => 0

def State.worker (s : State τ) (k : Nat) : Option (WorkerPc τ) :=
  s.channels[k]?.map Channel.worker

def Process.left (p : Process τ) : Nat :=
  p.callLeft + ∑ k ∈ Finset.range p.session.channels.length, credit (p.queues k) (p.session.worker k)

/-- Where nothing changes but at `k`. -/
theorem Process.left_lt {queue : Queue τ} (bound : k < p.session.channels.length)
    (queues : p'.queues = update p.queues k queue) (length : p'.session.channels.length = p.session.channels.length)
    (workers : ∀ j ≠ k, p'.session.worker j = p.session.worker j)
    (less : p'.callLeft + credit queue (p'.session.worker k) < p.callLeft + credit (p.queues k) (p.session.worker k)) :
    p'.left < p.left := by
  have member := Finset.mem_range.mpr bound
  have rest : ∑ j ∈ (Finset.range p.session.channels.length).erase k, credit (p'.queues j) (p'.session.worker j) =
      ∑ j ∈ (Finset.range p.session.channels.length).erase k, credit (p.queues j) (p.session.worker j) := by
    refine Finset.sum_congr rfl fun j other => ?_
    rw [queues, update_of_ne (Finset.ne_of_mem_erase other), workers j (Finset.ne_of_mem_erase other)]
  have before := Finset.sum_erase_add _ (fun j => credit (p.queues j) (p.session.worker j)) member
  have after := Finset.sum_erase_add _ (fun j => credit (p'.queues j) (p'.session.worker j)) member
  simp only [queues, update_self] at after
  simp only [left, length, queues] at rest ⊢
  omega

theorem popLeft_of_busy (worker : Option (WorkerPc τ)) {pc : TinyQueue.Pc (Message τ)} (busy : pc ≠ .idle) :
    popLeft worker pc = 0 := by
  cases worker with
  | none => rfl
  | some worker => cases worker <;> cases pc <;> first | rfl | exact (busy rfl).elim

theorem popLeft_message (message : Message τ) (pc : TinyQueue.Pc (Message τ)) :
    popLeft (some message.worker) pc = 0 := by
  cases message <;> rfl

theorem popLeft_le (worker : Option (WorkerPc τ)) (pc : TinyQueue.Pc (Message τ)) : popLeft worker pc ≤ 10 := by
  unfold popLeft
  split <;> omega

theorem Process.callLeft_le (p : Process τ) : p.callLeft ≤ 17 := by
  unfold callLeft
  split <;> omega

/-- A queue that threads use is the queue of a channel. -/
theorem Process.Follows.bound (follows : p.Follows a) (busy : 0 < total TinyQueue.Pc.left (p.queues k).pc) :
    k < p.session.channels.length := by
  obtain ⟨queues, b, represents, owned, -, -⟩ := follows
  by_contra beyond
  have nothing : total TinyQueue.Pc.left (p.queues k).pc = 0 := by
    refine total_eq_zero.mpr fun user => ?_
    have phase := phase_of_represents (represents k) user
    rw [owned.unused k (Nat.le_of_not_lt beyond)] at phase
    rw [TinyQueue.phase_eq_idle.mp phase.symm]
    rfl
  omega

/-- A statement of a call that does not end the call of the worker. -/
theorem credit_lt {q q' : Queue τ} {user : User} {event : Option (TinyQueue.Event User (Message τ))}
    (move : TinyQueue.Move user q event q') (still : user = .worker → event = none) (worker : Option (WorkerPc τ)) :
    credit q' worker < credit q worker := by
  have less := move.left
  have next : popLeft worker (q'.pc .worker) ≤ popLeft worker (q.pc .worker) := by
    by_cases idle : q'.pc .worker = .idle
    · rcases move.idle idle with before | ⟨same, returns⟩
      · rw [idle, before]
      · exact (returns (still same.symm)).elim
    · rw [popLeft_of_busy worker idle]
      exact Nat.zero_le _
  unfold credit
  omega

/-- Each statement of a call, and each call, brings the end of the flush nearer. -/
theorem Process.QueueStep.left (step : Process.QueueStep False k p p') (follows : p.Follows a)
    (flushing : p.session.main ≠ .idle) : p'.left < p.left := by
  have terminator {message : Message τ} (calls : p.session.Calls message) :
      message = .terminator ∧ p.session.main = .terminating := by
    cases message with
    | trace data => exact (flushing calls.1).elim
    | terminator => exact ⟨rfl, calls⟩
  have ⟨queues, b, represents, owned, pushes, _⟩ := follows
  cases step with
  | @callPush queue message outside calls current call =>
    cases call with
    | move user move => cases move
    | callPush _ pc =>
      refine Process.left_lt (owned.current k current) rfl rfl (fun _ _ => rfl) ?_
      have called := total_update TinyQueue.Pc.left (p.queues k).pc .main (.pushMalloc message)
      have before : p.callLeft = 17 := by rw [Process.callLeft, outside, (terminator calls).2]
      have same : ((p.queues k).goto .main (.pushMalloc message)).pc .worker = (p.queues k).pc .worker :=
        TinyQueue.State.goto_pc_of_ne _ (by decide) _
      rw [pc] at called
      show 0 + credit _ (p.session.worker k) < _
      rw [before, credit, credit, same]
      simp only [TinyQueue.State.goto, TinyQueue.Pc.left] at called ⊢
      omega
  | @returnPush message queue inside returns =>
    rw [inside] at pushes
    obtain ⟨rfl, main⟩ := terminator pushes.calls.1
    cases returns with
    | move user move =>
      have bound := follows.bound ((Nat.zero_le _).trans_lt move.left)
      refine Process.left_lt bound rfl rfl (fun _ _ => rfl) ?_
      have before : p.callLeft = 0 := by rw [Process.callLeft, inside]
      show 0 + credit queue (p.session.worker k) < _
      rw [before]
      refine Nat.add_lt_add_left (credit_lt move (fun same => ?_) _) 0
      subst same
      cases move
  | @lost trace queue inside returns =>
    rw [inside] at pushes
    cases (terminator pushes.calls.1).1
  | @callPop ch queue atK popping call =>
    cases call with
    | move user move => cases move
    | callPop pc =>
      refine Process.left_lt (List.getElem?_eq_some_iff.mp atK).1 rfl rfl (fun _ _ => rfl) ?_
      have called := total_update TinyQueue.Pc.left (p.queues k).pc .worker .popLock
      have popping' : p.session.worker k = some .popping := by rw [State.worker, atK, Option.map_some, popping]
      have busy : ((p.queues k).goto .worker .popLock).pc .worker ≠ .idle := by simp [TinyQueue.State.goto_pc]
      rw [pc] at called
      show p.callLeft + credit _ (p.session.worker k) < _
      rw [credit, credit, popLeft_of_busy _ busy, popping', pc]
      simp only [TinyQueue.State.goto, TinyQueue.Pc.left, popLeft] at called ⊢
      omega
  | @returnPop queue message returns =>
    cases returns with
    | move user move =>
      have bound := follows.bound ((Nat.zero_le _).trans_lt move.left)
      refine Process.left_lt bound rfl (List.length_modify ..) (fun j other => ?_) ?_
      · simp [State.worker, State.modify, Ne.symm other]
      · have after : (p.session.modify k ({ · with worker := message.worker })).worker k = some message.worker := by
          simp [State.worker, State.modify, bound]
        have less := move.left
        show p.callLeft + credit queue ((p.session.modify k _).worker k) < _
        rw [after, credit, credit, popLeft_message]
        omega
  | @inside user queue move =>
    have bound := follows.bound ((Nat.zero_le _).trans_lt move.left)
    refine Process.left_lt bound rfl rfl (fun _ _ => rfl) ?_
    exact Nat.add_lt_add_left (credit_lt move (fun _ => rfl) _) _
  | wakeup wakes => exact wakes.elim

/-- A step of a session in `flush_end` leaves the workers of all channels but one where
they are. -/
theorem Step.workers (step : Step text s s') (flushing : s.main ≠ .idle) :
    s'.channels.length = s.channels.length ∧
      ∃ k, ∀ j ≠ k, s'.worker j = s.worker j := by
  have changes (k : Nat) (f : Channel τ → Channel τ) :
      (s.modify k f).channels.length = s.channels.length ∧ ∃ i, ∀ j ≠ i, (s.modify k f).worker j = s.worker j :=
    ⟨List.length_modify .., k, fun j other => by simp [State.worker, State.modify, Ne.symm other]⟩
  cases step with
  | startAgain main | socketFails main | start _ main | stop main | returnEvent _ main | flush main =>
    exact (flushing main).elim
  | flushStop | flushClear | flushJoin => exact ⟨rfl, 0, fun _ _ => rfl⟩
  | flushTerminate | flushDestroy | flushSend | flushClose | pop | popTerminator | sendFails => exact changes _ _
  | @send k j ch trace =>
    refine ⟨(List.length_modify ..).trans (List.length_modify ..), k, fun i other => ?_⟩
    have elsewhere : k ≠ i := Ne.symm other
    simp only [State.worker, State.modify, List.getElem?_modify, if_neg elsewhere]
    cases s.channels[i]? with
    | none => rfl
    | some ch =>
      refine congrArg some ?_
      show (if j = i then ch.send (text trace) else ch).worker = ch.worker
      split <;> rfl

theorem Process.Quiet.left_le (quiet : Process.Quiet text p p') (flushing : p.session.main ≠ .idle) :
    p'.left ≤ p.left + 27 := by
  obtain ⟨length, k, same⟩ := quiet.step.workers flushing
  have each : ∀ j ∈ Finset.range p.session.channels.length,
      credit (p'.queues j) (p'.session.worker j) ≤
        credit (p.queues j) (p.session.worker j) + if j = k then 10 else 0 := by
    intro j _
    rw [quiet.queues]
    by_cases here : j = k
    · have next := popLeft_le (p'.session.worker j) ((p.queues j).pc .worker)
      rw [if_pos here, credit, credit]
      omega
    · rw [same j here]
      exact Nat.le_add_right _ _
  have sum := Finset.sum_le_sum each
  have once : (∑ j ∈ Finset.range p.session.channels.length, if j = k then 10 else 0) ≤ 10 := by
    rw [Finset.sum_ite_eq']
    split <;> omega
  have call := p'.callLeft_le
  rw [Finset.sum_add_distrib] at sum
  simp only [Process.left, length]
  omega

theorem Pushes.flushing {b : State τ} {pushing : Option (Nat × Message τ)} (pushes : Pushes s queues pushing b)
    (flushing : s.main ≠ .idle) : b.main ≠ .idle := by
  cases pushes with
  | outside | pushing => exact flushing
  | @pushed k message calls =>
    cases message with
    | trace data => exact flushing
    | terminator => exact fun joining => (by cases joining)

theorem Process.Follows.flushing (follows : p.Follows a) (flushing : p.session.main ≠ .idle) : a.main ≠ .idle := by
  obtain ⟨queues, b, -, -, pushes, rfl⟩ := follows
  exact pushes.flushing flushing

/-- The steps of a process while `flush_end` runs, where no thread wakes without a signal. -/
def Process.Flushes (text : τ → Bytes) : Process τ → Process τ → Prop :=
  Guarded (Process.Step text False) fun p _ => p.session.main ≠ .idle

/-- How far a process is from the end of the flush. -/
def Process.Ranked (text : τ → Bytes) (p : Process τ) (n : Nat) : Prop :=
  ∃ a, p.Reaches text a ∧ n = 30 * a.left + p.left

theorem Process.Flushes.ranked (flushes : Process.Flushes text p p') {n : Nat} (ranked : p.Ranked text n) :
    ∃ m < n, p'.Ranked text m := by
  obtain ⟨a, reaches, rfl⟩ := ranked
  obtain ⟨step, flushing⟩ := flushes
  have busy := reaches.follows.flushing flushing
  rcases reaches.step step with ⟨k, a', step, reaches', run⟩ | ⟨quiet, a', reaches', step⟩
  · have nearer := step.left reaches.follows flushing
    have less := (Inside.left run busy).2
    exact ⟨_, by omega, a', reaches', rfl⟩
  · have near := quiet.left_le flushing
    have less := step.left busy
    exact ⟨_, by omega, a', reaches', rfl⟩

theorem Process.Reaches.acc (reaches : p.Reaches text a) :
    Acc (fun after before => Process.Flushes text before after) p := by
  have smaller (p : Process τ) (n : Nat) (next : Process τ) (ranked : p.Ranked text n)
      (flushes : Process.Flushes text p next) : ∃ m < n, next.Ranked text m := flushes.ranked ranked
  exact acc_of_rank smaller ⟨a, reaches, rfl⟩

/-- A thread that can go on in its call takes the process on. -/
theorem Process.Reaches.move (reaches : p.Reaches text a) {queue : Queue τ}
    (moves : TinyQueue.Moves (p.queues k) queue) : ∃ next, Process.Step text False p next := by
  obtain ⟨user, event, move⟩ := moves
  obtain ⟨queues, b, represents, owned, pushes, -⟩ := reaches.follows
  have ⟨cells, inv, _⟩ := represents k
  have phase := phase_of_represents (represents k)
  have pushing {pc} (here : (p.queues k).pc user = pc) (busy : pc.phase ≠ .idle) (outside : ¬ InPop pc.phase) :
      user = .main ∧ ∃ message, p.pushing = some (k, message) := by
    cases user with
    | main =>
      obtain ⟨message, pushing, -⟩ := pushes.using (k := k) (by rwa [phase, here])
      exact ⟨rfl, message, pushing⟩
    | worker =>
      rcases owned.worker k with idle | ⟨popping, -⟩
      · rw [phase, here] at idle
        exact (busy idle).elim
      · rw [phase, here] at popping
        exact (outside popping).elim
  cases event with
  | none => exact ⟨_, .queue k (.inside move)⟩
  | some event =>
    cases move with
    | mallocFails pc =>
      obtain ⟨node, unused⟩ := inv.exists_unused
      exact ⟨_, .queue k (.inside (.malloc node pc unused))⟩
    | signal other pc waits =>
      obtain ⟨rfl, message, pushing⟩ := pushing pc (by simp [TinyQueue.Pc.phase]) id
      exact ⟨_, .queue k (.returnPush pushing (.move _ (.signal other pc waits)))⟩
    | signalNobody pc nobody =>
      obtain ⟨rfl, message, pushing⟩ := pushing pc (by simp [TinyQueue.Pc.phase]) id
      exact ⟨_, .queue k (.returnPush pushing (.move _ (.signalNobody pc nobody)))⟩
    | @unlockPop message pc =>
      cases user with
      | main => exact (pushes.not_inPop (k := k) (by rw [phase, pc]; exact trivial)).elim
      | worker => exact ⟨_, .queue k (.returnPop message (.move _ (.unlockPop pc)))⟩

/-- The main thread does not wait for ever in its push. -/
theorem Process.Reaches.push_progress (reaches : p.Reaches text a) {message : Message τ}
    (pushing : p.pushing = some (k, message)) : ∃ next, Process.Step text False p next := by
  by_cases moves : ∃ queue, TinyQueue.Moves (p.queues k) queue
  · obtain ⟨queue, moves⟩ := moves
    exact reaches.move moves
  · obtain ⟨-, rests, -⟩ := (reaches.serves k).rests moves
    obtain ⟨queues, b, represents, owned, pushes, -⟩ := reaches.follows
    have phase := phase_of_represents (represents k) .main
    rw [pushing] at pushes
    cases pushes with
    | pushing calls current others here | pushed calls current others here =>
      rw [here] at phase
      rcases rests .main with pc | pc <;> rw [pc] at phase <;> cases phase

/-- The main thread does not wait for ever in `pthread_join`. -/
theorem Process.Reaches.join_progress (reaches : p.Reaches text a) (joining : p.session.main = .joining) :
    ∃ next, Process.Step text False p next := by
  have flushing : p.session.main ≠ .idle := by simp [joining]
  have outside := reaches.follows.not_pushing flushing (by simp [joining])
  obtain ⟨queues, represents, owned, idle, rfl⟩ := reaches.follows.outside outside
  rcases reaches.session with between | ⟨before, last, during⟩
  · cases between.main.symm.trans joining
  · obtain ⟨ch, atK, rfl⟩ :
        ∃ ch, p.session.channels[before.length]? = some ch ∧ ch.above (queues before.length) = last :=
      Option.map_eq_some_iff.mp ((State.above_at ..).symm.trans during.at_last)
    cases worker : ch.worker with
    | returned => exact ⟨_, .other outside (.flushJoin joining during.pthread atK worker) owned.empty⟩
    | sending trace => exact ⟨_, .send atK worker (State.Resolves.above.mp during.resolves_fd)⟩
    | popping =>
      by_cases moves : ∃ queue, TinyQueue.Moves (p.queues before.length) queue
      · obtain ⟨queue, moves⟩ := moves
        exact reaches.move moves
      · obtain ⟨-, rests, waits⟩ := (reaches.serves before.length).rests moves
        rcases rests .worker with pc | pc
        · exact ⟨_, .queue before.length (.callPop atK worker (.callPop pc))⟩
        · obtain ⟨cells, inv, same⟩ := represents before.length
          have phase : (queues before.length).phase .worker = .waiting := by
            rw [phase_of_represents (represents before.length), pc]
            rfl
          have empty : (queues before.length).contents = [] := by
            obtain ⟨head, -⟩ := waits ⟨_, pc⟩
            have none : cells = [] := (head ▸ inv.linked : LinkedCells.Segment _ none cells none).start_none
            rw [same, none]
            rfl
          have position := during.position
          rw [show (p.session.above queues).main = .joining from joining] at position
          rcases position.2.2 with ⟨-, sent, waiting, -, queue, -⟩ | written
          · rw [Channel.above, empty] at queue
            simp at queue
          · have returned : workerAt ((queues before.length).phase .worker) ch.worker = .returned := written.worker
            rw [phase, worker] at returned
            cases returned

/-- A flush is never stuck. -/
theorem Process.Reaches.progress (reaches : p.Reaches text a) (flushing : p.session.main ≠ .idle) :
    ∃ next, Process.Step text False p next := by
  cases pushing : p.pushing with
  | some call =>
    obtain ⟨k, message⟩ := call
    exact reaches.push_progress pushing
  | none =>
    obtain ⟨queues, represents, owned, idle, rfl⟩ := reaches.follows.outside pushing
    have goes {session : State τ} (step : Session.Step text p.session session)
        (empty : ∀ ch ∈ session.channels, ch.queue = []) : ∃ next, Process.Step text False p next :=
      ⟨_, .other pushing step empty⟩
    rcases reaches.session with between | ⟨before, last, during⟩
    · exact (flushing between.main).elim
    · cases main : p.session.main with
      | idle => exact (flushing main).elim
      | stopping => exact goes (.flushStop main) owned.empty
      | clearing => exact goes (.flushClear main) owned.empty
      | terminating =>
        have pc : (p.queues before.length).pc .main = .idle := by
          rw [← TinyQueue.phase_eq_idle, ← phase_of_represents (represents before.length)]
          exact idle _
        exact ⟨_, .queue before.length (.callPush .terminator pushing main during.tinyQueue (.callPush _ pc))⟩
      | joining => exact reaches.join_progress main
      | destroying => exact goes (.flushDestroy main during.tinyQueue) (modify_empty owned.empty fun _ => rfl)
      | sendingStop | closing =>
        have resolves : p.session.Resolves p.session.socketFd before.length := by
          rw [show p.session.socketFd = _ from during.socketFd]
          exact State.Resolves.above.mp during.resolves_fd
        first
        | exact goes (.flushSend main resolves) (modify_empty owned.empty fun _ => rfl)
        | exact goes (.flushClose main resolves) (modify_empty owned.empty fun _ => rfl)

/-- No trace is queued while `flush_end` runs. -/
theorem Process.Flushes.queued (flushes : Process.Flushes text p p') (follows : p.Follows a) :
    p'.session.queued = p.session.queued := by
  obtain ⟨step, flushing⟩ := flushes
  cases step with
  | queue k step =>
    cases step with
    | @returnPush message queue inside returns =>
      obtain ⟨queues, b, -, -, pushes, -⟩ := follows
      rw [inside] at pushes
      cases message with
      | trace data => exact (flushing pushes.calls.1.1).elim
      | terminator => rfl
    | _ => rfl
  | send | sendFails => rfl
  | other outside step empty =>
    cases step with
    | startAgain main | socketFails main | start _ main | stop main | returnEvent _ main | flush main =>
      exact (flushing main).elim
    | _ => rfl

theorem Process.Flushes.returns (flushes : Process.Flushes text p p') (idle : p'.session.main = .idle) :
    FlushReturns p.session p'.session := by
  obtain ⟨step, flushing⟩ := flushes
  refine ⟨?_, idle⟩
  cases step with
  | queue k step =>
    cases step with
    | @returnPush message queue inside returns =>
      cases message with
      | trace data => exact (flushing idle).elim
      | terminator => cases idle
    | _ => exact (flushing idle).elim
  | send | sendFails => exact (flushing idle).elim
  | other outside step empty =>
    cases step with
    | flushClose main => exact main
    | startAgain main | socketFails main | start _ main | stop main | returnEvent _ main | flush main =>
      exact (flushing main).elim
    | flushStop | flushClear | flushTerminate | flushJoin | flushDestroy | flushSend => cases idle
    | _ => exact (flushing idle).elim

/-- What is true while a flush runs, and when it has returned. -/
structure Process.Flushing (text : τ → Bytes) (queued : List τ) (p : Process τ) : Prop where
  reached : ∃ a, p.Reaches text a
  queued : p.session.queued = queued
  delivered : p.session.main = .idle → p.Delivered text

theorem Process.Flushes.flushing {queued : List τ} (flushes : Process.Flushes text p p')
    (flushing : p.Flushing text queued) : p'.Flushing text queued := by
  obtain ⟨a, reaches⟩ := flushing.reached
  obtain ⟨_, _, a', reaches', _⟩ := flushes.ranked ⟨a, reaches, rfl⟩
  exact
    { reached   := ⟨a', reaches'⟩
      queued    := (flushes.queued reaches.follows).trans flushing.queued
      delivered := fun idle => reaches.follows.delivered reaches.session flushes.1 (flushes.returns idle) }

theorem Process.QueueStep.of_false {wakeups : Prop} (step : Process.QueueStep False k p p') :
    Process.QueueStep wakeups k p p' := by
  cases step with
  | callPush message outside calls current call => exact .callPush message outside calls current call
  | returnPush inside returns => exact .returnPush inside returns
  | lost inside returns => exact .lost inside returns
  | callPop atK popping call => exact .callPop atK popping call
  | returnPop message returns => exact .returnPop message returns
  | inside move => exact .inside move
  | wakeup wakes => exact wakes.elim

theorem Process.Step.of_false {wakeups : Prop} (step : Process.Step text False p p') :
    Process.Step text wakeups p p' := by
  cases step with
  | queue k step => exact .queue k step.of_false
  | send atK working resolves => exact .send atK working resolves
  | sendFails atK working unresolved => exact .sendFails atK working unresolved
  | other outside step empty => exact .other outside step empty

theorem Process.Flushes.run {wakeups : Prop} (flushes : Run (Process.Flushes text) p p') :
    Run (Process.Step text wakeups) p p' :=
  Relation.ReflTransGen.mono (fun _ _ flushes => flushes.1.of_false) _ _ flushes

/-- A flush can be run to its last step. -/
theorem Process.Reaches.exists_return (reaches : p.Reaches text a) (flushing : p.session.main ≠ .idle) :
    ∃ last next, Run (Process.Flushes text) p last ∧ Process.Flushes text last next ∧
      FlushReturns last.session next.session := by
  have acc := reaches.acc
  induction acc generalizing a with
  | intro p _ ih =>
    obtain ⟨next, step⟩ := reaches.progress flushing
    have flushes : Process.Flushes text p next := ⟨step, flushing⟩
    by_cases idle : next.session.main = .idle
    · exact ⟨p, next, .refl, flushes, flushes.returns idle⟩
    · obtain ⟨_, _, a', reaches', _⟩ := flushes.ranked ⟨a, reaches, rfl⟩
      obtain ⟨last, after, run, returns⟩ := ih next flushes reaches' idle
      exact ⟨last, after, .head flushes run, returns⟩

/-- `flush_end` joins the worker before it destroys the queue. -/
theorem Process.Flushes.main (flushes : Process.Flushes text p p')
    (early : MainPc.destroying.left < p.session.main.left) : MainPc.destroying.left ≤ p'.session.main.left := by
  obtain ⟨step, flushing⟩ := flushes
  cases step with
  | queue k step =>
    cases step with
    | @returnPush message queue inside returns =>
      cases message with
      | trace data => exact early.le
      | terminator => exact Nat.le_succ 3
    | _ => exact early.le
  | send | sendFails => exact early.le
  | other outside step empty =>
    cases step with
    | startAgain main | socketFails main | start _ main | stop main | returnEvent _ main | flush main =>
      exact (flushing main).elim
    | flushDestroy main | flushSend main | flushClose main =>
      rw [main] at early
      exact absurd early (by decide)
    | flushStop | flushClear | flushTerminate | flushJoin => simp [MainPc.left]
    | _ => exact early.le

theorem Process.Reaches.exists_destroying (reaches : p.Reaches text a)
    (early : MainPc.destroying.left < p.session.main.left) :
    ∃ next, Run (Process.Flushes text) p next ∧ (∃ a, next.Reaches text a) ∧ next.session.main = .destroying := by
  have acc := reaches.acc
  induction acc generalizing a with
  | intro p _ ih =>
    have flushing : p.session.main ≠ .idle := fun idle => by
      rw [idle] at early
      exact absurd early (by decide)
    obtain ⟨next, step⟩ := reaches.progress flushing
    have flushes : Process.Flushes text p next := ⟨step, flushing⟩
    obtain ⟨_, _, a', reaches', _⟩ := flushes.ranked ⟨a, reaches, rfl⟩
    rcases (flushes.main early).eq_or_lt with here | before
    · refine ⟨next, .single flushes, ⟨a', reaches'⟩, ?_⟩
      cases main : next.session.main <;> rw [main] at here <;> first | rfl | cases here
    · obtain ⟨last, run, rest⟩ := ih next flushes reaches' before
      exact ⟨last, .head flushes run, rest⟩

/-- The silent steps of a queue, in the process. -/
theorem Process.run_silent {queue : Queue τ} (history : Histories.History TinyQueue.Step (p.queues k) [] queue) :
    Run (Process.Step text True) p { p with queues := update p.queues k queue } := by
  have silent := history.silent
  clear history
  induction silent with
  | refl => rw [update_eq_self]
  | @tail queue queue' _ last ih =>
    refine ih.tail (.queue k ?_)
    have again : update p.queues k queue' = update (update p.queues k queue) k queue' := (update_idem ..).symm
    have here : update p.queues k queue k = queue := update_self ..
    rw [again]
    cases last with
    | move user move => exact .inside (here.symm ▸ move)
    | @spurious user waits =>
      have wakes : Process.QueueStep True k { p with queues := update p.queues k queue }
          { p with
            queues := update (update p.queues k queue) k ((update p.queues k queue k).goto user .popLock) } :=
        .wakeup trivial ((congrArg (TinyQueue.State.pc · user) here).trans waits)
      rwa [here] at wakes

theorem Process.run_push {message : Message τ} (outside : p.pushing = none) (calls : p.session.Calls message)
    (current : p.session.tinyQueue = some k) {queue : Queue τ}
    (history : Histories.History TinyQueue.Step (p.queues k) [.callPush .main message, .returnPush .main 0] queue) :
    Run (Process.Step text True) p
      { session := p.session.pushed message, queues := update p.queues k queue, pushing := none } := by
  obtain ⟨before, called, first, call, history⟩ := history.split_event
  obtain ⟨inside, returned, second, returns, last⟩ := history.split_event
  have here (queue : Queue τ) : update p.queues k queue k = queue := update_self ..
  have r1 : Run (Process.Step text True) p _ := Process.run_silent first
  have r2 := r1.tail (.queue k (.callPush message outside calls current ((here before).symm ▸ call)))
  simp only [update_idem] at r2
  have r3 := r2.trans (Process.run_silent ((here called).symm ▸ second))
  simp only [update_idem] at r3
  have r4 := r3.tail (.queue k (.returnPush rfl ((here inside).symm ▸ returns)))
  simp only [update_idem] at r4
  have r5 := r4.trans (Process.run_silent ((here returned).symm ▸ last))
  simpa only [update_idem] using r5

/-- A process that has queued one trace and begins to flush. -/
theorem exists_flushing : ∃ p : Process Bytes, Run (Process.Step id True) {} p ∧ p.session.main = .stopping ∧
    p.session.queued = [[91, 93]] := by
  obtain ⟨queue, history, -⟩ := TinyQueue.push_alone (ι := User) .main (Message.trace ([91, 93] : Bytes)) 0
  have started : Process.Step id True ({} : Process Bytes) { session := State.openSession {} 3 } :=
    .other rfl (.start 3 rfl rfl) (by simp [State.openSession])
  have calls : (State.openSession {} 3).Calls (Message.trace ([91, 93] : Bytes)) := ⟨rfl, rfl⟩
  have pushed : Run (Process.Step id True) { session := State.openSession {} 3 } _ :=
    Process.run_push rfl calls rfl history
  refine ⟨_, (pushed.head started).tail (.other rfl (.flush rfl) ?_), rfl, rfl⟩
  simp [State.flush, State.pushed, State.openSession]

/-- A flush returns: left alone, with no wakeup that nobody signals, `flush_end` and the
worker take finitely many steps. They can only stop where the flush has returned, and then
all that was queued when it began is on the socket. -/
theorem flush_terminates {wakeups : Prop} (run : Run (Process.Step text wakeups) {} p)
    (flushing : p.session.main ≠ .idle) :
    Acc (fun after before => Process.Flushes text before after) p ∧
      ∀ p', Run (Process.Flushes text) p p' → (¬ ∃ next, Process.Flushes text p' next) →
        p'.session.main = .idle ∧ p'.session.queued = p.session.queued ∧ p'.Delivered text := by
  obtain ⟨a, reaches⟩ := Process.reaches run
  refine ⟨reaches.acc, fun p' more stuck => ?_⟩
  have start : p.Flushing text p.session.queued := ⟨⟨a, reaches⟩, rfl, fun idle => (flushing idle).elim⟩
  have ended := more.invariant (fun _ _ flushing flushes => Process.Flushes.flushing flushes flushing) start
  have idle : p'.session.main = .idle := by
    by_contra busy
    obtain ⟨a', reaches'⟩ := ended.reached
    obtain ⟨next, step⟩ := reaches'.progress busy
    exact stuck ⟨next, step, busy⟩
  exact ⟨idle, ended.queued, ended.delivered idle⟩

theorem flush_terminates_one_trace : ∃ p : Process Bytes, p.session.queued = [[91, 93]] ∧
    Acc (fun after before => Process.Flushes id before after) p ∧
      ∀ p', Run (Process.Flushes id) p p' → (¬ ∃ next, Process.Flushes id p' next) →
        p'.session.main = .idle ∧ p'.session.queued = p.session.queued ∧ p'.Delivered id := by
  obtain ⟨p, run, main, queued⟩ := exists_flushing
  exact ⟨p, queued, flush_terminates run (by simp [main])⟩

/-- A process with its real queues goes through the sessions that its queues promise. A
flush that closes a session leaves on the socket the frames of the traces whose push has
returned since its `start`, in this order, and one stop frame. -/
theorem queued_session_protocol {wakeups : Prop} {p : Process τ} (run : Run (Process.Step text wakeups) {} p) :
    (∃ a, p.Follows a ∧ Run (Session.Step text) {} a) ∧
      ∀ p', Process.Step text wakeups p p' → FlushReturns p.session p'.session → p'.Delivered text := by
  obtain ⟨a, follows, session⟩ := Process.reachable_follows run
  exact ⟨⟨a, follows, session⟩, fun p' step returns => follows.delivered (reachable_invariant session) step returns⟩

theorem queued_session_protocol_one_trace : ∃ p p' : Process Bytes, Process.Step id True p p' ∧
    FlushReturns p.session p'.session ∧ p'.session.queued = [[91, 93]] ∧ p'.Delivered id := by
  obtain ⟨p, run, main, queued⟩ := exists_flushing
  obtain ⟨a, reaches⟩ := Process.reaches run
  obtain ⟨last, next, more, flushes, returns⟩ := reaches.exists_return (by simp [main])
  have begun : p.Flushing id [[91, 93]] := ⟨⟨a, reaches⟩, queued, fun idle => (by cases main.symm.trans idle)⟩
  have ended := more.invariant (fun _ _ flushing flushes => Process.Flushes.flushing flushes flushing) begun
  have whole := run.trans (Process.Flushes.run more)
  exact ⟨last, next, flushes.1.of_false, returns, (flushes.flushing ended).queued,
    (queued_session_protocol whole).2 next flushes.1.of_false returns⟩

/-- `tiny_queue_destroy` gets a queue whose mutex nobody holds, that nobody uses and that
is empty, so it leaks no node. Nobody ever uses a queue that has been destroyed. -/
theorem destroyed_queues_unused {wakeups : Prop} (run : Run (Process.Step text wakeups) {} p) :
    (∀ k, p.session.main = .destroying → p.session.tinyQueue = some k →
      (p.queues k).holder = none ∧ (∀ user, (p.queues k).pc user = .idle) ∧
        ∀ fuel, TinyQueue.destroy fuel (p.queues k) = some fun _ => none) ∧
      ∀ (k : Nat) (ch : Channel τ), p.session.channels[k]? = some ch → ch.destroyed = true →
        ∀ user, (p.queues k).pc user = .idle := by
  obtain ⟨a, reaches⟩ := Process.reaches run
  refine ⟨fun k main current => ?_, fun k ch atK destroyed => reaches.idle atK destroyed⟩
  have outside := reaches.follows.not_pushing (by simp [main]) (by simp [main])
  obtain ⟨queues, represents, owned, idle, rfl⟩ := reaches.follows.outside outside
  have bound := owned.current k current
  have worker := reaches.retired.joined main k _ current (List.getElem?_eq_getElem bound)
  rcases reaches.session with between | ⟨before, last, during⟩
  · cases between.main.symm.trans main
  · obtain rfl : before.length = k := Option.some.inj (during.tinyQueue.symm.trans current)
    have same := during.at_last
    rw [State.above_at, List.getElem?_eq_getElem bound] at same
    obtain rfl := Option.some.inj same
    have position := during.position
    rw [show (p.session.above queues).main = .destroying from main] at position
    refine (represents before.length).at_rest (fun user => ?_) position.2.2.queue
    cases user with
    | main => exact idle _
    | worker => exact owned.idle (List.getElem?_eq_getElem bound) (by simp [worker])

theorem destroyed_queues_unused_one_trace : ∃ (p : Process Bytes) (k : Nat),
    p.session.main = .destroying ∧ p.session.tinyQueue = some k ∧ (p.queues k).holder = none ∧
      (∀ user, (p.queues k).pc user = .idle) ∧ ∀ fuel, TinyQueue.destroy fuel (p.queues k) = some fun _ => none := by
  obtain ⟨p, run, main, -⟩ := exists_flushing
  obtain ⟨a, reaches⟩ := Process.reaches run
  obtain ⟨next, more, ⟨a', reaches'⟩, destroying⟩ := reaches.exists_destroying (by rw [main]; decide)
  have whole := run.trans (Process.Flushes.run more)
  obtain ⟨queues, b, -, -, pushes, rfl⟩ := reaches'.follows
  have busy := reaches'.follows.flushing (by simp [destroying])
  rcases reaches'.session with between | ⟨before, last, during⟩
  · exact (busy between.main).elim
  · have current : next.session.tinyQueue = some before.length := pushes.tinyQueue.symm.trans during.tinyQueue
    exact ⟨next, before.length, destroying, current, (destroyed_queues_unused whole).1 _ destroying current⟩

end
end Racer.Session
