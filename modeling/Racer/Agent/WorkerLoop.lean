import Racer.Library.Delimited
import Racer.Agent.Shift
import Mathlib.Logic.Function.Iterate

namespace Racer
open Delimited

abbrev Bytes := List UInt8

def nul : UInt8 := 0

/-- The bytes of "stop". -/
def stop : Bytes := [115, 116, 111, 112]

/-- Ruby's `split("\0")`: the fields between the separators, without the
empty fields at the end. -/
def splitNul (s : Bytes) : List Bytes :=
  (s.splitOn nul).rdropWhile (·.isEmpty)

/-- The `if pending_message` branch: the pending message goes in front of the
first new field, which may be the last one as well. -/
def joinPending (pendingMessage : Option Bytes) (messages : List Bytes) (lastMessage : Option Bytes) :
    List Bytes × Option Bytes :=
  match pendingMessage, messages with
  | none, _ => (messages, lastMessage)
  | some pending, [] => ([], some (pending ++ lastMessage.getD []))
  | some pending, firstMessage :: messages => (splitNul (pending ++ firstMessage) ++ messages, lastMessage)

/-- One string returned by `connection.read`, turned into the messages to
handle and the new pending message. A `none` message is nil. -/
def receive (pendingMessage : Option Bytes) (receivedMessage : Bytes) :
    List (Option Bytes) × Option Bytes :=
  let fields := splitNul receivedMessage
  let (messages, lastMessage) := joinPending pendingMessage fields.dropLast fields.getLast?
  if receivedMessage.getLast? = some nul then (messages.map some ++ [lastMessage], none)
  else (messages.map some, lastMessage)

inductive Status
  | running | returned | raised
  deriving DecidableEq, Repr

/-- A connection thread inside `worker_loop`: the strings that successive
reads will still return before end of file, the pending message, what was
handed to the decoder and what was queued. -/
structure Connection (τ : Type) where
  unread : List Bytes
  pendingMessage : Option Bytes := none
  handed : List Bytes := []
  queue : List τ := []
  status : Status := .running

section
variable {τ : Type} (decode : Bytes → Option τ)

/-- `messages.each`. The decoder stands for `JSON.parse`, the shifts and the
construction of the trace; `none` is an exception, which ends the thread. -/
def handleMessages : List (Option Bytes) → Connection τ → Connection τ
  | [], w => w
  | none :: _, w => { w with status := .raised }
  | some data :: messages, w =>
    if data = stop then { w with status := .returned }
    else
      match decode data with
      | none => { w with handed := w.handed ++ [data], status := .raised }
      | some trace =>
        handleMessages messages { w with handed := w.handed ++ [data], queue := w.queue ++ [trace] }

/-- One iteration of `loop do`. At end of file `read` returns nil, and so does
every later read: the iteration does nothing. -/
def iteration (w : Connection τ) : Connection τ :=
  match w.status, w.unread with
  | .running, receivedMessage :: unread =>
    let (messages, pendingMessage) := receive w.pendingMessage receivedMessage
    handleMessages decode messages { w with unread, pendingMessage }
  | _, _ => w

/-- The loop after `n` iterations. -/
def workerLoop (n : Nat) (w : Connection τ) : Connection τ :=
  (iteration decode)^[n] w

end

/-- The messages that come before the first stop message. -/
def untilStop (messages : List Bytes) : List Bytes :=
  messages.takeWhile (· ≠ stop)

/-- A pending message stands for the fragment behind the last delimiter. -/
def Pending (pendingMessage : Option Bytes) (fragment : Bytes) : Prop :=
  match pendingMessage with
  | none => fragment = []
  | some pending => pending = fragment ∧ fragment ≠ []

theorem splitNul_clean {s : Bytes} (nonempty : s ≠ []) (clean : nul ∉ s) : splitNul s = [s] := by
  rw [splitNul, List.splitOn_eq_singleton clean, ← List.nil_append [s], List.rdropWhile_concat_neg]
  simpa using nonempty

theorem splitNul_frames {messages : List Bytes} {tail : Bytes} (clean : ∀ m ∈ messages, nul ∉ m)
    (cleanTail : nul ∉ tail) (nonempty : tail ≠ []) :
    splitNul (frames nul messages ++ tail) = messages ++ [tail] := by
  rw [splitNul, splitOn_frames clean cleanTail, List.rdropWhile_concat_neg]
  simpa using nonempty

theorem rdropWhile_isEmpty (messages : List Bytes) :
    ∃ kept k, messages.rdropWhile (·.isEmpty) = kept ∧ messages = kept ++ List.replicate k [] ∧
      ∀ before last, kept = before ++ [last] → last ≠ [] := by
  induction messages using List.reverseRecOn with
  | nil => exact ⟨[], 0, rfl, rfl, by simp⟩
  | append_singleton messages m ih =>
    by_cases empty : m.isEmpty
    · obtain ⟨kept, k, rfl, shape, last⟩ := ih
      refine ⟨_, k + 1, List.rdropWhile_concat_pos _ _ _ empty, ?_, last⟩
      rw [List.replicate_succ', ← List.append_assoc, ← shape, List.isEmpty_iff.mp empty]
    · refine ⟨messages ++ [m], 0, List.rdropWhile_concat_neg _ _ _ empty, by simp, ?_⟩
      intro before last shape same
      obtain ⟨_, rfl⟩ := List.append_inj' shape rfl |>.imp_right List.singleton_inj.mp
      exact empty (List.isEmpty_iff.mpr same)

/-- Messages that all arrived: the split drops the empty ones at the end. -/
theorem splitNul_terminated {messages : List Bytes} (clean : ∀ m ∈ messages, nul ∉ m) :
    ∃ kept k, splitNul (frames nul messages) = kept ∧ messages = kept ++ List.replicate k [] ∧
      ∀ before last, kept = before ++ [last] → last ≠ [] := by
  have fields := splitOn_frames clean (List.not_mem_nil (a := nul))
  rw [List.append_nil] at fields
  rw [splitNul, fields, List.rdropWhile_concat_pos _ _ _ rfl]
  exact rdropWhile_isEmpty messages

theorem joinPending_spec {pendingMessage : Option Bytes} {fragment : Bytes}
    (pending : Pending pendingMessage fragment) (cleanFragment : nul ∉ fragment)
    {messages : List Bytes} (clean : ∀ m ∈ messages, nul ∉ m) {lastMessage : Bytes}
    (nonempty : lastMessage ≠ []) :
    ∃ joined last, joinPending pendingMessage messages (some lastMessage) = (joined, some last) ∧
      joined ++ [last] = (messages ++ [lastMessage]).modifyHead (fragment ++ ·) ∧ last ≠ [] := by
  cases pendingMessage with
  | none =>
    have empty : fragment = [] := pending
    subst empty
    exact ⟨messages, lastMessage, rfl, by cases messages <;> rfl, nonempty⟩
  | some q =>
    obtain ⟨rfl, some_byte⟩ := pending
    cases messages with
    | nil => exact ⟨[], q ++ lastMessage, rfl, rfl, by simp [nonempty]⟩
    | cons first messages =>
      have joinedClean : nul ∉ q ++ first := fun member =>
        (List.mem_append.mp member).elim cleanFragment (clean first (by simp))
      refine ⟨(q ++ first) :: messages, lastMessage, ?_, rfl, nonempty⟩
      rw [joinPending, splitNul_clean (by simp [some_byte]) joinedClean]
      rfl

/-- A read that ends inside a message. -/
theorem receive_open {pendingMessage : Option Bytes} {fragment tail : Bytes} {fields : List Bytes}
    (pending : Pending pendingMessage fragment) (cleanFragment : nul ∉ fragment)
    (clean : ∀ m ∈ fields, nul ∉ m) (cleanTail : nul ∉ tail) (nonempty : tail ≠ []) :
    ∃ messages, (receive pendingMessage (frames nul fields ++ tail)).1 = messages.map some ∧
      complete nul (fragment ++ (frames nul fields ++ tail)) = messages ∧
      Pending (receive pendingMessage (frames nul fields ++ tail)).2
        (remainder nul (fragment ++ (frames nul fields ++ tail))) := by
  have split := splitOn_prefix cleanFragment (frames nul fields ++ tail)
  have ends : (frames nul fields ++ tail).getLast? ≠ some nul := by
    rw [List.getLast?_append_of_ne_nil _ nonempty]
    exact fun last => cleanTail (List.mem_of_getLast? last)
  obtain ⟨joined, last, join, shape, some_byte⟩ := joinPending_spec pending cleanFragment clean nonempty
  rw [splitOn_frames clean cleanTail, ← shape] at split
  have received : receive pendingMessage (frames nul fields ++ tail) = (joined.map some, some last) := by
    simp only [receive, splitNul_frames clean cleanTail nonempty, if_neg ends, List.dropLast_concat,
      List.getLast?_concat, join]
  refine ⟨joined, ?_, ?_, ?_⟩
  · rw [received]
  · rw [complete, split, List.dropLast_concat]
  · simp only [received, remainder, split, List.getLast_append_singleton]
    exact ⟨rfl, some_byte⟩

/-- A read that ends with a delimiter. -/
theorem receive_closed {pendingMessage : Option Bytes} {fragment first : Bytes} {fields : List Bytes}
    (pending : Pending pendingMessage fragment) (cleanFragment : nul ∉ fragment)
    (clean : ∀ m ∈ first :: fields, nul ∉ m) (firstNonempty : fragment ++ first ≠ []) :
    ∃ messages k, (receive pendingMessage (frames nul (first :: fields))).1 = messages.map some ∧
      (fragment ++ first) :: fields = messages ++ List.replicate k [] ∧
      (receive pendingMessage (frames nul (first :: fields))).2 = none := by
  have ends := frames_getLast? nul (List.cons_ne_nil first fields)
  obtain ⟨kept, k, split, shape, lastNonempty⟩ := splitNul_terminated clean
  have joined : (fragment ++ first) :: fields = (first :: fields).modifyHead (fragment ++ ·) := rfl
  rcases List.eq_nil_or_concat kept with rfl | ⟨messages, last, rfl⟩
  · -- Only delimiters arrived, so they complete the pending message.
    cases k with
    | zero => simp at shape
    | succ k =>
      obtain ⟨rfl, rfl⟩ := List.cons.inj shape
      cases pendingMessage with
      | none =>
        have empty : fragment = [] := pending
        exact absurd empty (by simpa using firstNonempty)
      | some q =>
        obtain ⟨rfl, _⟩ := pending
        refine ⟨[q], k, ?_, by simp, ?_⟩ <;>
          simp [receive, split, ends, joinPending]
  · rw [List.concat_eq_append] at split shape lastNonempty
    have cleanKept : ∀ m ∈ messages, nul ∉ m := fun m member => clean m (by rw [shape]; simp [member])
    obtain ⟨joinedMessages, joinedLast, join, joinShape, _⟩ :=
      joinPending_spec pending cleanFragment cleanKept (lastNonempty messages last rfl)
    have received : receive pendingMessage (frames nul (first :: fields)) =
        ((joinedMessages ++ [joinedLast]).map some, none) := by
      simp only [receive, split, if_pos ends, List.dropLast_concat, List.getLast?_concat, join,
        List.map_append, List.map_singleton]
    refine ⟨joinedMessages ++ [joinedLast], k, by rw [received], ?_, by rw [received]⟩
    rw [joined, shape, joinShape]
    cases messages <;> rfl

/-- One read. The messages are those that the new bytes complete, up to empty
ones at the end, and the pending message is the new fragment. Only an empty
first message would make the loop handle nil. -/
theorem receive_spec {pendingMessage : Option Bytes} {fragment receivedMessage : Bytes}
    (pending : Pending pendingMessage fragment) (cleanFragment : nul ∉ fragment)
    (nonempty : receivedMessage ≠ [])
    (firstNonempty : (complete nul (fragment ++ receivedMessage)).head? ≠ some []) :
    ∃ messages k, (receive pendingMessage receivedMessage).1 = messages.map some ∧
      complete nul (fragment ++ receivedMessage) = messages ++ List.replicate k [] ∧
      Pending (receive pendingMessage receivedMessage).2 (remainder nul (fragment ++ receivedMessage)) := by
  obtain ⟨fields, tail, rfl, clean, cleanTail⟩ := exists_frames nul receivedMessage
  by_cases terminated : tail = []
  · subst terminated
    rw [List.append_nil] at nonempty firstNonempty ⊢
    cases fields with
    | nil => exact absurd rfl nonempty
    | cons first fields =>
      have split := splitOn_prefix cleanFragment (frames nul (first :: fields))
      have fieldsOf := splitOn_frames clean (List.not_mem_nil (a := nul))
      rw [List.append_nil] at fieldsOf
      have completed : complete nul (fragment ++ frames nul (first :: fields)) =
          (fragment ++ first) :: fields := by
        rw [complete, split, fieldsOf, List.cons_append, List.modifyHead_cons, ← List.cons_append,
          List.dropLast_concat]
      have rest : remainder nul (fragment ++ frames nul (first :: fields)) = [] := by
        simp only [remainder, split, fieldsOf, List.cons_append, List.modifyHead_cons]
        simp only [← List.cons_append, List.getLast_append_singleton]
      rw [completed] at firstNonempty ⊢
      obtain ⟨messages, k, handled, shape, none_pending⟩ :=
        receive_closed pending cleanFragment clean (fun empty => firstNonempty (by rw [empty]; rfl))
      exact ⟨messages, k, handled, shape, by rw [none_pending, rest]; rfl⟩
  · obtain ⟨messages, handled, completed, rest⟩ :=
      receive_open pending cleanFragment clean cleanTail terminated
    exact ⟨messages, 0, handled, by simp [completed], rest⟩

/-- A message the decoder accepts. The empty string is not a JSON text. -/
def WellFormed {τ : Type} (decode : Bytes → Option τ) (message : Bytes) : Prop :=
  message ≠ [] ∧ (decode message).isSome

instance {τ : Type} (decode : Bytes → Option τ) (message : Bytes) : Decidable (WellFormed decode message) :=
  inferInstanceAs (Decidable (_ ∧ _))

/-- What `final` did more than `w`: it handed on the messages before the first
stop message, queued their traces, and returned if there was a stop message. -/
structure Drained {τ : Type} (decode : Bytes → Option τ) (w final : Connection τ)
    (messages : List Bytes) : Prop where
  handed : final.handed = w.handed ++ untilStop messages
  queue : final.queue = w.queue ++ (untilStop messages).filterMap decode
  status : final.status = if stop ∈ messages then .returned else .running

section
variable {τ : Type} {decode : Bytes → Option τ}

theorem untilStop_of_mem {messages : List Bytes} (member : stop ∈ messages) (later : List Bytes) :
    untilStop (messages ++ later) = untilStop messages := by
  induction messages with
  | nil => simp at member
  | cons m messages ih =>
    by_cases same : m = stop
    · simp [untilStop, same]
    · have rest := ih ((List.mem_cons.mp member).resolve_left (Ne.symm same))
      simp only [untilStop, List.cons_append, List.takeWhile_cons, ne_eq, same, not_false_eq_true,
        decide_true, if_true] at rest ⊢
      rw [rest]

theorem untilStop_of_not_mem {messages : List Bytes} (absent : stop ∉ messages) (later : List Bytes) :
    untilStop (messages ++ later) = messages ++ untilStop later :=
  List.takeWhile_append_of_pos fun m member => by
    simpa using fun same : m = stop => absent (same ▸ member)

theorem untilStop_eq_self {messages : List Bytes} (absent : stop ∉ messages) :
    untilStop messages = messages := by
  have whole := untilStop_of_not_mem absent []
  simpa [untilStop] using whole

theorem handleMessages_drained {messages : List Bytes} {w : Connection τ} (running : w.status = .running)
    (accepted : ∀ m ∈ untilStop messages, (decode m).isSome) :
    Drained decode w (handleMessages decode (messages.map some) w) messages ∧
      (handleMessages decode (messages.map some) w).unread = w.unread ∧
      (handleMessages decode (messages.map some) w).pendingMessage = w.pendingMessage := by
  induction messages generalizing w with
  | nil => exact ⟨⟨by simp [handleMessages, untilStop], by simp [handleMessages, untilStop], running⟩, rfl, rfl⟩
  | cons m messages ih =>
    by_cases isStop : m = stop
    · subst isStop
      simp only [List.map_cons, handleMessages, if_true]
      exact ⟨⟨by simp [untilStop], by simp [untilStop], by simp⟩, trivial, trivial⟩
    · have cut : untilStop (m :: messages) = m :: untilStop messages := by
        simp [untilStop, isStop]
      rw [cut, List.forall_mem_cons] at accepted
      obtain ⟨trace, decoded⟩ := Option.isSome_iff_exists.mp accepted.1
      simp only [List.map_cons, handleMessages, if_neg isStop, decoded]
      obtain ⟨drained, unread, pending⟩ := ih (w := { w with
        handed := w.handed ++ [m], queue := w.queue ++ [trace] }) running accepted.2
      refine ⟨⟨?_, ?_, ?_⟩, unread, pending⟩
      · rw [drained.handed, cut, List.append_assoc, List.singleton_append]
      · rw [drained.queue, cut, List.filterMap_cons_some decoded, List.append_assoc, List.singleton_append]
      · rw [drained.status]
        simp [Ne.symm isStop]

theorem workerLoop_of_fixed {w : Connection τ} (fixed : iteration decode w = w) (n : Nat) :
    workerLoop decode n w = w := by
  induction n with
  | zero => rfl
  | succ n ih =>
    rw [workerLoop, Function.iterate_succ_apply'] at *
    rw [ih, fixed]

theorem workerLoop_of_not_running {w : Connection τ} (ended : w.status ≠ .running) (n : Nat) :
    workerLoop decode n w = w := by
  refine workerLoop_of_fixed ?_ n
  unfold iteration
  split
  next running _ => exact absurd running ended
  next => rfl

/-- `next` on end of file: the loop spins without an effect. -/
theorem workerLoop_of_unread_nil {w : Connection τ} (ended : w.unread = []) (n : Nat) :
    workerLoop decode n w = w := by
  refine workerLoop_of_fixed ?_ n
  unfold iteration
  split
  next more =>
    rw [ended] at more
    cases more
  next => rfl

/-- The empty messages that a split drops never come before the first stop
message, since those messages are not empty. -/
theorem untilStop_trailing {messages : List Bytes} {k : Nat}
    (nonempty : ∀ m ∈ untilStop (messages ++ List.replicate k []), m ≠ []) :
    untilStop (messages ++ List.replicate k []) = untilStop messages ∧
      (stop ∈ messages ++ List.replicate k [] ↔ stop ∈ messages) := by
  by_cases stopped : stop ∈ messages
  · exact ⟨untilStop_of_mem stopped _, by simp [stopped]⟩
  · have absent : stop ∉ List.replicate k ([] : Bytes) := fun member =>
      absurd (List.eq_of_mem_replicate member) (by decide)
    rw [untilStop_of_not_mem stopped, untilStop_eq_self absent] at nonempty
    cases k with
    | zero => simp
    | succ k => exact absurd rfl (nonempty [] (by simp))

/-- One iteration drains the messages that its read completes. -/
theorem iteration_drained {chunk : Bytes} {chunks : List Bytes} {w : Connection τ} {fragment : Bytes}
    (unread : w.unread = chunk :: chunks) (running : w.status = .running)
    (pending : Pending w.pendingMessage fragment) (cleanFragment : nul ∉ fragment) (nonempty : chunk ≠ [])
    (accepted : ∀ m ∈ untilStop (complete nul (fragment ++ chunk)), WellFormed decode m) :
    Drained decode w (iteration decode w) (complete nul (fragment ++ chunk)) ∧
      (iteration decode w).unread = chunks ∧
      Pending (iteration decode w).pendingMessage (remainder nul (fragment ++ chunk)) := by
  have firstNonempty : (complete nul (fragment ++ chunk)).head? ≠ some [] := by
    intro empty
    obtain ⟨later, shape⟩ := List.head?_eq_some_iff.mp empty
    rw [shape] at accepted
    exact (accepted [] (by simp [untilStop, stop])).1 rfl
  obtain ⟨messages, k, handled, shape, fragmentLeft⟩ :=
    receive_spec pending cleanFragment nonempty firstNonempty
  rw [shape] at accepted ⊢
  obtain ⟨same, stopped⟩ := untilStop_trailing fun m member => (accepted m member).1
  rw [same] at accepted
  have step : iteration decode w = handleMessages decode (messages.map some)
      { w with unread := chunks, pendingMessage := (receive w.pendingMessage chunk).2 } := by
    simp only [iteration, running, unread, handled]
  obtain ⟨drained, left, fragmentKept⟩ := handleMessages_drained
    (w := { w with unread := chunks, pendingMessage := (receive w.pendingMessage chunk).2 })
    running fun m member => (accepted m member).2
  rw [step]
  refine ⟨⟨?_, ?_, ?_⟩, left, fragmentKept ▸ fragmentLeft⟩
  · rw [drained.handed, same]
  · rw [drained.queue, same]
  · simp only [drained.status, stopped]

/-- The state of the loop once it has read everything, for every way of cutting
the stream. The induction is on the reads; a fragment stands in front of the
bytes still to come. -/
theorem workerLoop_drained (chunks : List Bytes) (w : Connection τ) (fragment : Bytes)
    (unread : w.unread = chunks) (running : w.status = .running)
    (pending : Pending w.pendingMessage fragment) (cleanFragment : nul ∉ fragment)
    (nonempty : ∀ chunk ∈ chunks, chunk ≠ [])
    (accepted : ∀ m ∈ untilStop (complete nul (fragment ++ chunks.flatten)), WellFormed decode m) :
    Drained decode w (workerLoop decode chunks.length w) (complete nul (fragment ++ chunks.flatten)) ∧
      ((workerLoop decode chunks.length w).status = .running →
        (workerLoop decode chunks.length w).unread = []) := by
  induction chunks generalizing w fragment with
  | nil =>
    have nothing : complete nul (fragment ++ ([] : List Bytes).flatten) = [] := by
      simp [complete, List.splitOn_eq_singleton cleanFragment]
    rw [nothing]
    exact ⟨⟨by simp [workerLoop, untilStop], by simp [workerLoop, untilStop], running⟩, fun _ => unread⟩
  | cons chunk chunks ih =>
    rw [List.forall_mem_cons] at nonempty
    rw [List.flatten_cons, ← List.append_assoc, complete_append] at accepted ⊢
    rw [List.length_cons, workerLoop, Function.iterate_succ_apply, ← workerLoop]
    by_cases stopped : stop ∈ complete nul (fragment ++ chunk)
    · rw [untilStop_of_mem stopped] at accepted
      obtain ⟨first, _, _⟩ := iteration_drained unread running pending cleanFragment nonempty.1 accepted
      have returned : (iteration decode w).status = .returned := by rw [first.status, if_pos stopped]
      rw [workerLoop_of_not_running (by rw [returned]; decide)]
      refine ⟨⟨?_, ?_, ?_⟩, fun again => by rw [returned] at again; cases again⟩
      · rw [first.handed, untilStop_of_mem stopped]
      · rw [first.queue, untilStop_of_mem stopped]
      · rw [returned, if_pos (List.mem_append_left _ stopped)]
    · rw [untilStop_of_not_mem stopped] at accepted
      have now : ∀ m ∈ untilStop (complete nul (fragment ++ chunk)), WellFormed decode m := by
        rw [untilStop_eq_self stopped]
        exact fun m member => accepted m (List.mem_append_left _ member)
      obtain ⟨first, left, fragmentLeft⟩ :=
        iteration_drained unread running pending cleanFragment nonempty.1 now
      have going : (iteration decode w).status = .running := by rw [first.status, if_neg stopped]
      obtain ⟨later, ended⟩ := ih _ _ left going fragmentLeft (remainder_clean nul _) nonempty.2
        fun m member => accepted m (List.mem_append_right _ member)
      refine ⟨⟨?_, ?_, ?_⟩, ended⟩
      · rw [later.handed, first.handed, untilStop_of_not_mem stopped, untilStop_eq_self stopped,
          List.append_assoc]
      · rw [later.queue, first.queue, untilStop_of_not_mem stopped, untilStop_eq_self stopped,
          List.filterMap_append, List.append_assoc]
      · simp only [later.status, List.mem_append, stopped, false_or]

/-- The loop takes the messages in front of a stop message from the stream, however
it is cut. -/
theorem workerLoop_frames {messages chunks : List Bytes} (accepted : ∀ m ∈ messages, (decode m).isSome)
    (nonempty : ∀ m ∈ messages, m ≠ []) (clean : ∀ m ∈ messages, nul ∉ m) (noStop : ∀ m ∈ messages, m ≠ stop)
    (cut : chunks.flatten = frames nul (messages ++ [stop])) (chunksNonempty : ∀ chunk ∈ chunks, chunk ≠ []) :
    (workerLoop decode chunks.length { unread := chunks }).status = .returned ∧
      (workerLoop decode chunks.length { unread := chunks }).handed = messages ∧
      (workerLoop decode chunks.length { unread := chunks }).queue = messages.filterMap decode := by
  have cleanAll : ∀ m ∈ messages ++ [stop], nul ∉ m := by
    intro m member
    rcases List.mem_append.mp member with early | last
    · exact clean m early
    · rw [List.mem_singleton.mp last]
      decide
  have completed : complete nul ([] ++ chunks.flatten) = messages ++ [stop] := by
    have whole := complete_frames cleanAll (List.not_mem_nil (a := nul))
    rwa [List.append_nil, ← cut] at whole
  have absent : stop ∉ messages := fun member => noStop stop member rfl
  have before : untilStop (messages ++ [stop]) = messages := by
    rw [untilStop_of_not_mem absent]
    simp [untilStop]
  have wellFormed : ∀ m ∈ untilStop (complete nul ([] ++ chunks.flatten)), WellFormed decode m := by
    rw [completed, before]
    exact fun m member => ⟨nonempty m member, accepted m member⟩
  obtain ⟨drained, _⟩ := workerLoop_drained chunks { unread := chunks } []
    rfl rfl rfl (by simp) chunksNonempty wellFormed
  rw [completed] at drained
  refine ⟨?_, ?_, ?_⟩
  · rw [drained.status, if_pos (by simp)]
  · rw [drained.handed, before, List.nil_append]
  · rw [drained.queue, before, List.nil_append]

end

/-- Message framing is independent of how the stream is cut: for every list of
messages, followed by the stop message, and every way of cutting the stream
into reads, the loop hands exactly these messages to the decoder, in order and
once each, and returns. -/
theorem framing_independent_of_cuts {τ : Type} (decode : Bytes → Option τ) (messages chunks : List Bytes)
    (accepted : ∀ m ∈ messages, (decode m).isSome)
    (nonempty : ∀ m ∈ messages, m ≠ []) (clean : ∀ m ∈ messages, nul ∉ m) (noStop : ∀ m ∈ messages, m ≠ stop)
    (cut : chunks.flatten = frames nul (messages ++ [stop])) (chunksNonempty : ∀ chunk ∈ chunks, chunk ≠ []) :
    ∃ n, (workerLoop decode n { unread := chunks }).status = .returned ∧
      (workerLoop decode n { unread := chunks }).handed = messages := by
  obtain ⟨returned, handed, _⟩ := workerLoop_frames accepted nonempty clean noStop cut chunksNonempty
  exact ⟨chunks.length, returned, handed⟩

/-- Two messages, cut inside the first frame, inside the second and inside the
stop message. -/
theorem framing_of_two_messages :
    ∃ n, (workerLoop some n { unread := [[65], [0, 66], [67, 0, 115], [116, 111, 112], [0]] }).status = .returned ∧
      (workerLoop some n { unread := [[65], [0, 66], [67, 0, 115], [116, 111, 112], [0]] }).handed =
        [[65], [66, 67]] :=
  framing_independent_of_cuts some [[65], [66, 67]] _ (by simp) (by simp) (by decide) (by decide)
    (by decide) (by simp)

/-- `JSON.parse`, then the shifts; the parser is a parameter. -/
def decodeData (parse : Bytes → Option (List Json)) (data : Bytes) : Option Trace :=
  (parse data).bind fun values => (decodeMessage values).map Prod.fst

/-- A connection that ends is finished with: the loop returns after it queued the
trace of every complete message before the first stop message or the end. -/
def FinishedWith (parse : Bytes → Option (List Json)) (chunks : List Bytes) : Prop :=
  ∃ n, (workerLoop (decodeData parse) n { unread := chunks }).status = .returned ∧
    (workerLoop (decodeData parse) n { unread := chunks }).queue =
      (untilStop (complete nul chunks.flatten)).filterMap (decodeData parse)

/-- For a stream of acceptable messages the loop finishes with the connection
exactly when a complete stop message is in the stream. -/
theorem finishedWith_iff_stop (parse : Bytes → Option (List Json)) (chunks : List Bytes)
    (nonempty : ∀ chunk ∈ chunks, chunk ≠ [])
    (accepted : ∀ m ∈ untilStop (complete nul chunks.flatten), WellFormed (decodeData parse) m) :
    FinishedWith parse chunks ↔ stop ∈ complete nul chunks.flatten := by
  obtain ⟨drained, ended⟩ := workerLoop_drained chunks { unread := chunks } []
    rfl rfl rfl (by simp) nonempty (by rwa [List.nil_append])
  rw [List.nil_append] at drained
  constructor
  · rintro ⟨n, returned, _⟩
    by_contra absent
    have spinning : (workerLoop (decodeData parse) chunks.length { unread := chunks }).status = .running := by
      rw [drained.status, if_neg absent]
    have later := @workerLoop_of_unread_nil _ (decodeData parse) _ (ended spinning) n
    have earlier := @workerLoop_of_not_running _ (decodeData parse)
      (workerLoop (decodeData parse) n { unread := chunks }) (by rw [returned]; decide) chunks.length
    simp only [workerLoop, ← Function.iterate_add_apply] at later earlier spinning returned
    rw [Nat.add_comm, later] at earlier
    rw [← earlier, spinning] at returned
    cases returned
  · intro stopped
    exact ⟨chunks.length, by rw [drained.status, if_pos stopped], by rw [drained.queue, List.nil_append]⟩

/-- A call of `to_s` on the main object, as the worker prints it. -/
def toSMessage : Bytes :=
  "[\"to_s\",0,0,\"String\",false,0,\"Object\",false,0,null,0,0,false]".toList.map fun c => c.toNat.toUInt8

/-- A parser that knows this message. -/
def parseToS (data : Bytes) : Option (List Json) :=
  if data = toSMessage then
    some [.string "to_s", .int 0, .int 0, .string "String", .boolean false, .int 0, .string "Object", .boolean false,
      .int 0, .null, .int 0, .int 0, .boolean false]
  else none

/-- This message and the stop message, cut inside both. -/
def toSChunks : List Bytes :=
  [toSMessage.take 5, toSMessage.drop 5 ++ [nul, 115], [116, 111, 112, nul]]

/-- The trace of the message is queued before the loop returns. -/
theorem finishedWith_stop : FinishedWith parseToS toSChunks ∧
    ((untilStop (complete nul toSChunks.flatten)).filterMap (decodeData parseToS)).map (·.methodName) = ["to_s"] :=
  ⟨(finishedWith_iff_stop _ _ (by decide +kernel) (by decide +kernel)).mpr (by decide +kernel), by decide +kernel⟩

/-- A client that dies inside a frame: its connection thread never returns. -/
theorem truncated_never_finished :
    (∀ m ∈ untilStop (complete nul [[91]].flatten), WellFormed (decodeData fun _ => none) m) ∧
      ¬ FinishedWith (fun _ => none) [[91]] := by
  refine ⟨by decide, ?_⟩
  rintro ⟨n, returned, _⟩
  cases n with
  | zero => cases returned
  | succ n =>
    have spins := @workerLoop_of_unread_nil _ (decodeData fun _ => none)
      (iteration (decodeData fun _ => none) { unread := [[91]] }) rfl n
    rw [workerLoop, Function.iterate_succ_apply, ← workerLoop, spins] at returned
    cases returned

end Racer
