import Mathlib.Data.Set.List
import Racer.Pipeline.System

namespace Racer.Accepting
open Delimited

section
variable {τ : Type} {decode : Bytes → Option τ} {c : Client τ} {pushed : List τ} {t : Thread}

theorem untilStop_prefix (messages later : List Bytes) : untilStop messages <+: untilStop (messages ++ later) := by
  by_cases stopped : stop ∈ messages
  · rw [untilStop_of_mem stopped]
  · rw [untilStop_of_not_mem stopped, untilStop_eq_self stopped]
    exact List.prefix_append _ _

/-- What a thread has pushed are the first traces of its client. -/
theorem Thread.Handled.pushed_prefix (handled : t.Handled decode c pushed) (wrote : c.Wrote decode) :
    pushed <+: c.traces := by
  obtain ⟨messages, decoded, clean, later, whole⟩ :=
    wrote.complete (List.take_append_drop t.received c.written).symm
  have before : stop ∉ messages := fun member => (clean stop member).2.2 rfl
  have closed : untilStop (messages ++ if c.closed then [stop] else []) = messages := by
    rw [untilStop_of_not_mem before]
    split <;> simp [untilStop]
  have first := untilStop_prefix (complete nul (c.written.take t.received)) later
  rw [← whole, closed] at first
  have all : messages.filterMap decode = c.traces := by
    calc messages.filterMap decode = (messages.map decode).filterMap id := by rw [List.filterMap_map]; rfl
      _ = (c.traces.map some).filterMap id := by rw [decoded]
      _ = c.traces := by rw [List.filterMap_map]; exact List.filterMap_some
  rw [handled.pushed, ← all]
  exact first.filterMap decode

/-- A thread returns behind the stop message. -/
theorem Thread.Handled.closed_of_returned (handled : t.Handled decode c pushed) (wrote : c.Wrote decode)
    (returned : t.status = .returned) : c.closed = true := by
  have stopped : stop ∈ complete nul (c.written.take t.received) := by
    by_contra absent
    have status := handled.status
    rw [if_neg absent, returned] at status
    cases status
  obtain ⟨messages, -, clean, later, whole⟩ := wrote.complete (List.take_append_drop t.received c.written).symm
  have inside : stop ∈ messages ++ if c.closed then [stop] else [] := whole ▸ List.mem_append_left later stopped
  rcases List.mem_append.mp inside with message | last
  · exact ((clean stop message).2.2 rfl).elim
  · by_contra opened
    rw [if_neg opened] at last
    cases last

/-- A thread that has read all of a closed socket has returned. -/
theorem Thread.Handled.returned_of_all (handled : t.Handled decode c pushed) (wrote : c.Wrote decode)
    (closed : c.closed = true) (all : t.received = c.written.length) : t.status = .returned := by
  obtain ⟨messages, written, decoded, clean⟩ := wrote
  rw [closed, if_pos rfl] at written
  have cleanAll : ∀ m ∈ messages ++ [stop], nul ∉ m := by
    intro m member
    rcases List.mem_append.mp member with early | last
    · exact (clean m early).2.1
    · rw [List.mem_singleton.mp last]
      decide
  have completed := complete_frames cleanAll (List.not_mem_nil (a := nul))
  rw [List.append_nil, ← written] at completed
  rw [handled.status, all, List.take_length, completed, if_pos (by simp)]

theorem Thread.Handled.not_raised (handled : t.Handled decode c pushed) : t.status ≠ .raised := by
  rw [handled.status]
  split <;> nofun

end

end Racer.Accepting

namespace Racer.Pipeline
open Announced Delimited Transition

section
variable {κ : Type} [DecidableEq κ] {h : Hierarchy κ} {write : List Json → Bytes}
  {parse : Bytes → Option (List Json)} {s s' : System κ} {sessions : List (List ReturnTrace)}

/-- The arrays of the queued traces are printed as they should be. -/
def PrintsQueue (write : List Json → Bytes) (parse : Bytes → Option (List Json)) (s : System κ) : Prop :=
  ∀ t ∈ s.tracer.queue, ∀ data, writeTrace t = some data → Printed write parse data

theorem Invariant.methodTraces (inv : Invariant h write parse s sessions) :
    ∃ named : List (List MethodTrace), named.map (List.map (·.trace)) = sessions := by
  have each : ∀ traces ∈ sessions, traces ∈ Set.range (List.map MethodTrace.trace) := by
    intro traces member
    rw [Set.range_list_map]
    intro t inside
    exact inv.traced.methodTrace (inv.queue ▸ List.mem_flatten.mpr ⟨traces, member, inside⟩)
  have all : sessions ∈ Set.range (List.map (List.map MethodTrace.trace)) := by
    rw [Set.range_list_map]
    exact each
  exact all

theorem Invariant.length_eq (inv : Invariant h write parse s sessions) {named : List (List MethodTrace)}
    (same : named.map (List.map (·.trace)) = sessions) : named.length = s.session.channels.length := by
  rw [← inv.recorded.carries.length_eq, ← same, List.length_map]

/-- What has been written to the socket of a session, as a client of the agent. -/
theorem Invariant.wrote (inv : Invariant h write parse s sessions) (prints : PrintsQueue write parse s)
    {named : List (List MethodTrace)} (same : named.map (List.map (·.trace)) = sessions) {j : Nat}
    {traces : List MethodTrace} {ch : Session.Channel ReturnTrace} (atNamed : named[j]? = some traces)
    (atJ : s.session.channels[j]? = some ch) :
    ∃ sent waiting, traces = sent ++ waiting ∧ (ch.stopSent = true → waiting = []) ∧
      Accepting.Client.Wrote (decodeData parse)
        { traces := sent.map (·.toTrace), written := ch.written, closed := ch.stopSent } := by
  have atSessions : sessions[j]? = some (traces.map (·.trace)) := by
    rw [← same, List.getElem?_map, atNamed, Option.map_some]
  obtain ⟨sent, waiting, queued, written, emptied⟩ : Session.Carries (messageOf write) (traces.map (·.trace)) ch := by
    have carries := inv.recorded.carries
    obtain ⟨inside, here⟩ := List.getElem?_eq_some_iff.mp atSessions
    obtain ⟨inside', here'⟩ := List.getElem?_eq_some_iff.mp atJ
    have pair := (List.forall₂_iff_get.mp carries).2 j inside inside'
    simpa only [List.get_eq_getElem, here, here'] using pair
  obtain ⟨first, rest, rfl, rfl, rfl⟩ := List.map_eq_append_iff.mp queued
  refine ⟨first, rest, rfl, fun stopSent => List.map_eq_nil_iff.mp (emptied stopSent),
    first.map (fun m => messageOf write m.trace), ?_, ?_, ?_⟩
  · rw [written, List.map_map]
    rfl
  all_goals
    have decoded : ∀ m ∈ first, decodeData parse (messageOf write m.trace) = some m.toTrace ∧
        messageOf write m.trace ≠ [] ∧ nul ∉ messageOf write m.trace ∧ messageOf write m.trace ≠ stop := by
      intro m member
      refine messageOf_decoded m (prints m.trace ?_)
      rw [← inv.queue]
      refine List.mem_flatten.mpr ⟨_, List.mem_of_getElem? atSessions, ?_⟩
      exact List.mem_map_of_mem (List.mem_append_left _ member)
  · rw [List.map_map, List.map_map]
    exact List.map_congr_left fun m member => (decoded m member).1
  · exact List.forall_mem_map.mpr fun m member => (decoded m member).2

theorem Invariant.handled_wrote (inv : Invariant h write parse s sessions) {j : Nat}
    {ch : Session.Channel ReturnTrace} (atJ : s.session.channels[j]? = some ch) {c : Accepting.Client Trace}
    (same : c.written = ch.written) :
    (s.readers j).thread.Handled (decodeData parse) c (s.readers j).pushed := by
  have more : c.written = (bytesOf ch).written ++ [] := by
    rw [same, List.append_nil]
    rfl
  exact (inv.handled j ch atJ).grow more

/-- A step of the session, with what the tracer has to do with it. -/
theorem Invariant.move (inv : Invariant h write parse s sessions) {tracer : Tracer κ}
    {session : Session.State ReturnTrace} (traced : Traced h tracer)
    (extends_ : Session.Extends s.session.channels session.channels) (tpCall : session.tpCall = tracer.tpCall)
    (recorded : ∃ sessions', Session.Recorded (messageOf write) session sessions' ∧ sessions'.flatten = tracer.queue) :
    ∃ sessions', Invariant h write parse { s with tracer, session } sessions' := by
  obtain ⟨sessions', recorded, queue⟩ := recorded
  refine ⟨sessions', traced, tpCall, recorded, queue, inv.connection, fun j ch atJ => ?_, fun j absent => ?_⟩
  · cases before : s.session.channels[j]? with
    | none =>
      rw [inv.unread j before]
      exact .init _ j
    | some old =>
      obtain ⟨ch', more, there, written⟩ := extends_ j old before
      obtain rfl := Option.some.inj (atJ.symm.trans there)
      exact (inv.handled j old before).grow written
  · refine inv.unread j ?_
    cases before : s.session.channels[j]? with
    | none => rfl
    | some old =>
      obtain ⟨ch', more, there, -⟩ := extends_ j old before
      rw [absent] at there
      cases there

theorem Invariant.read (inv : Invariant h write parse s sessions) (prints : PrintsQueue write parse s) {j : Nat}
    {chunk : Bytes} {ch : Session.Channel ReturnTrace} (atJ : s.session.channels[j]? = some ch)
    (running : (s.readers j).thread.status = .running) (nonempty : chunk ≠ [])
    (next : chunk <+: ch.written.drop (s.readers j).thread.received) :
    Invariant h write parse (s.read parse j chunk) sessions := by
  refine ⟨inv.traced, inv.tpCall, inv.recorded, inv.queue, fun i => ?_, fun i c atI => ?_, fun i absent => ?_⟩
  · by_cases here : i = j
    · subst here
      simpa [System.read, Accepting.Thread.read] using inv.connection i
    · simpa [System.read, here] using inv.connection i
  · by_cases here : i = j
    · subst here
      obtain rfl := Option.some.inj (atJ.symm.trans atI)
      obtain ⟨named, same⟩ := inv.methodTraces
      have inside : i < named.length := inv.length_eq same ▸ (List.getElem?_eq_some_iff.mp atJ).1
      obtain ⟨sent, -, -, -, wrote⟩ := inv.wrote prints same (List.getElem?_eq_getElem inside) atJ
      have handled := (inv.handled_wrote atJ rfl).read wrote running nonempty next
      have bytes : (s.readers i).pushed ++ ((s.readers i).thread.read (decodeData parse) chunk).2 =
          ((s.read parse i chunk).readers i).pushed := by simp [System.read]
      have thread : ((s.readers i).thread.read (decodeData parse) chunk).1 =
          ((s.read parse i chunk).readers i).thread := by simp [System.read]
      rw [bytes, thread] at handled
      exact handled.grow (List.append_nil _).symm
    · simpa [System.read, here] using inv.handled i c atI
  · have other : i ≠ j := by
      rintro rfl
      rw [show s.session.channels[i]? = none from absent] at atJ
      cases atJ
    simpa [System.read, other] using inv.unread i absent

/-- An event of the program, with the push of the trace that it queues. -/
theorem Invariant.event [Fintype κ] (inv : Invariant h write parse s sessions) {tracer : Tracer κ} {event : Event κ}
    (main : s.session.main = .idle) (program : Program event) (admits : Tracepoints.Admits s.tracer event)
    (step : Announced.Step h s.tracer event tracer) :
    ∃ sessions', Invariant h write parse
      { s with tracer
               session := (tracer.queue.drop s.tracer.queue.length).foldl (fun s t => s.pushTrace t) s.session }
      sessions' := by
  have traced := inv.traced.step admits step
  obtain ⟨queues, tpCall⟩ := inv.traced.queues program step
  have agree : s.session.tpCall = tracer.tpCall := inv.tpCall.trans tpCall.symm
  cases queues with
  | nothing queue =>
    rw [queue, List.drop_length, List.foldl_nil]
    exact inv.move traced (.refl _) agree ⟨sessions, inv.recorded, inv.queue.trans queue.symm⟩
  | trace t enabled queue method =>
    rw [queue, List.drop_left, List.foldl_cons, List.foldl_nil]
    obtain ⟨push, sessions', recorded, flatten⟩ := inv.recorded.push main (inv.tpCall.trans enabled) t
    refine inv.move traced push.extends ?_ ⟨sessions', recorded, ?_⟩
    · rw [← agree]
      unfold Session.State.pushTrace
      split <;> rfl
    · rw [flatten, inv.queue, queue]

theorem Invariant.start [Fintype κ] (inv : Invariant h write parse s sessions) (main : s.session.main = .idle)
    (maxGenericDepth : Int) (fd : Option Nat)
    (admits : Tracepoints.Admits s.tracer (.start maxGenericDepth fd.isSome)) :
    ∃ sessions', Invariant h write parse
      { s with tracer := s.tracer.start maxGenericDepth fd.isSome, session := s.session.start fd } sessions' := by
  have traced : Traced h (s.tracer.start maxGenericDepth fd.isSome) := inv.traced.step admits ⟨0, rfl⟩
  have step : Session.Step (messageOf write) s.session (s.session.start fd) := Session.start_step fd main
  have quiet : (s.session.start fd).queued = s.session.queued ∨ Session.Between s.session := by
    unfold Session.State.start
    split
    next => exact .inl rfl
    next fd closed =>
      right
      cases recorded : inv.recorded with
      | between between ended => exact between
      | during during ended =>
        have enabled := during.tpCall
        rw [main] at enabled
        exact (enabled closed).elim
    next => exact .inl rfl
  obtain ⟨sessions', recorded, flatten⟩ := inv.recorded.quiet step quiet
  refine inv.move traced step.extends ?_ ⟨sessions', recorded, ?_⟩
  · have agree := inv.tpCall
    unfold Session.State.start Tracer.start
    cases open_ : s.session.tpCall <;> cases fd <;>
      simp [open_, ← agree, Session.State.enable, Session.State.openSession]
  · rw [flatten, inv.queue, start_queue]

/-- Whatever happens in the pipeline keeps its invariant. -/
theorem Invariant.step [Fintype κ] (inv : Invariant h write parse s sessions) (prints : PrintsQueue write parse s)
    (step : Admitted h write parse s s') : ∃ sessions', Invariant h write parse s' sessions' := by
  obtain ⟨event, admits, step⟩ := step
  cases step with
  | start maxGenericDepth fd main => exact inv.start main maxGenericDepth fd (admits _ rfl)
  | stop main =>
    have step : Session.Step (messageOf write) s.session s.session.stop := .stop main
    obtain ⟨sessions', recorded, flatten⟩ := inv.recorded.quiet step (.inl rfl)
    refine inv.move (inv.traced.step (admits _ rfl) ⟨0, rfl⟩) step.extends ?_ ⟨sessions', recorded, ?_⟩
    · rw [Session.State.stop, Tracer.stop, inv.tpCall]
    · exact flatten.trans inv.queue
  | event main program step => exact inv.event main program (admits _ rfl) step
  | flushStop main =>
    have step : Session.Step (messageOf write) s.session { s.session.stop with main := .clearing } := .flushStop main
    obtain ⟨sessions', recorded, flatten⟩ := inv.recorded.quiet step (.inl rfl)
    refine inv.move (inv.traced.step (admits _ rfl) ⟨0, rfl⟩) step.extends ?_ ⟨sessions', recorded, ?_⟩
    · simp only [Session.State.stop, Tracer.stop, inv.tpCall]
    · exact flatten.trans inv.queue
  | flushClear main =>
    have step : Session.Step (messageOf write) s.session { s.session with tpCall := none, main := .terminating } :=
      .flushClear main
    obtain ⟨sessions', recorded, flatten⟩ := inv.recorded.quiet step (.inl rfl)
    exact inv.move inv.traced.clear step.extends rfl ⟨sessions', recorded, flatten.trans inv.queue⟩
  | session step apart =>
    obtain ⟨tpCall, queued⟩ := step.apart apart
    obtain ⟨sessions', recorded, flatten⟩ := inv.recorded.quiet step (.inl queued)
    exact inv.move inv.traced step.extends (tpCall.trans inv.tpCall) ⟨sessions', recorded, flatten.trans inv.queue⟩
  | read j chunk atJ running nonempty next => exact ⟨sessions, inv.read prints atJ running nonempty next⟩

theorem Invariant.init : Invariant h write parse ({} : System κ) [] :=
  ⟨.init, rfl, .between Session.initial_between .nil, rfl, fun _ => rfl, nofun, fun _ _ => rfl⟩

/-- The tracer keeps its invariants, and only adds to its queue. -/
theorem Admitted.tracer [Fintype κ] (traced : Traced h s.tracer) (step : Admitted h write parse s s') :
    Traced h s'.tracer ∧ s.tracer.queue <+: s'.tracer.queue := by
  obtain ⟨event, admits, step⟩ := step
  cases step with
  | start maxGenericDepth fd main =>
    exact ⟨traced.step (admits _ rfl) ⟨0, rfl⟩,
      (start_queue s.tracer maxGenericDepth fd.isSome) ▸ List.prefix_rfl⟩
  | stop main | flushStop main => exact ⟨traced.step (admits _ rfl) ⟨0, rfl⟩, List.prefix_rfl⟩
  | event main program step =>
    refine ⟨traced.step (admits _ rfl) step, ?_⟩
    obtain ⟨⟨queue⟩ | ⟨t, -, queue, -⟩, -⟩ := traced.queues program step
    · exact queue ▸ List.prefix_rfl
    · exact queue ▸ List.prefix_append _ _
  | flushClear main => exact ⟨traced.clear, List.prefix_rfl⟩
  | session step apart => exact ⟨traced, List.prefix_rfl⟩
  | read j chunk atJ running nonempty next => exact ⟨traced, List.prefix_rfl⟩

theorem exists_invariant [Fintype κ] (run : Run (Admitted h write parse) {} s) (prints : PrintsQueue write parse s) :
    ∃ sessions, Invariant h write parse s sessions := by
  have both : Traced h s.tracer ∧ (PrintsQueue write parse s → ∃ sessions, Invariant h write parse s sessions) := by
    refine run.invariant (I := fun s => Traced h s.tracer ∧
      (PrintsQueue write parse s → ∃ sessions, Invariant h write parse s sessions)) (fun a b inv step => ?_)
      ⟨.init, fun _ => ⟨[], .init⟩⟩
    obtain ⟨traced, more⟩ := step.tracer inv.1
    refine ⟨traced, fun prints => ?_⟩
    have earlier : PrintsQueue write parse a := fun t queued => prints t (more.mem queued)
    obtain ⟨sessions, inv⟩ := inv.2 earlier
    exact inv.step earlier step
  exact both.2 prints

/-- What the thread of a session has pushed. -/
structure Delivers (r : Reader) (ch : Session.Channel ReturnTrace) (traces : List Trace) : Prop where
  pushed : r.pushed <+: traces
  returned : r.thread.status = .returned → r.pushed = traces
  raises : r.thread.status ≠ .raised
  finished : ch.closed = true → r.thread.received = ch.written.length → r.thread.status = .returned

theorem Invariant.delivers (inv : Invariant h write parse s sessions) (prints : PrintsQueue write parse s)
    {named : List (List MethodTrace)} (same : named.map (List.map (·.trace)) = sessions) {j : Nat}
    {traces : List MethodTrace} {ch : Session.Channel ReturnTrace} (atNamed : named[j]? = some traces)
    (atJ : s.session.channels[j]? = some ch) : Delivers (s.readers j) ch (traces.map (·.toTrace)) := by
  obtain ⟨sent, waiting, rfl, emptied, wrote⟩ := inv.wrote prints same atNamed atJ
  have handled : (s.readers j).thread.Handled (decodeData parse)
      { traces := sent.map (·.toTrace), written := ch.written, closed := ch.stopSent } (s.readers j).pushed :=
    inv.handled_wrote atJ rfl
  refine ⟨?_, fun returned => ?_, handled.not_raised, fun closed all => ?_⟩
  · rw [List.map_append]
    exact (handled.pushed_prefix wrote).trans (List.prefix_append _ _)
  · rw [emptied (handled.closed_of_returned wrote returned), List.append_nil]
    exact handled.returned wrote returned
  · exact handled.returned_of_all wrote (inv.recorded.stopSent_of_closed atJ closed) all

/-- From the events of the program to the threads of the agent, whatever the order of the
steps and the cuts of the reads: the traces that the tracer has queued belong to the
sessions in turn; each thread has pushed the first of the traces of its session, as
they were recorded; it pushes all of them before it returns, never raises, and has
returned once it has read a closed socket to its end. -/
theorem traces_delivered [Fintype κ] (run : Run (Admitted h write parse) {} s)
    (prints : PrintsQueue write parse s) :
    ∃ sessions : List (List MethodTrace), sessions.flatten.map (·.trace) = s.tracer.queue ∧
      sessions.length = s.session.channels.length ∧
        ∀ (j : Nat) traces ch, sessions[j]? = some traces → s.session.channels[j]? = some ch →
          Delivers (s.readers j) ch (traces.map (·.toTrace)) := by
  obtain ⟨sessions, inv⟩ := exists_invariant run prints
  obtain ⟨named, same⟩ := inv.methodTraces
  refine ⟨named, ?_, inv.length_eq same, fun j traces ch atNamed atJ => inv.delivers prints same atNamed atJ⟩
  rw [List.map_flatten, same, inv.queue]

end

/-- As json-c prints arrays whose strings need no escapes. -/
def printPlain (data : List Json) : Bytes :=
  let print : Json → List Char
    | .string s => ['"'] ++ s.toList ++ ['"']
    | .boolean b => (if b then "true" else "false").toList
    | .int n => (toString n).toList
    | .null => "null".toList
  (['['] ++ [','].intercalate (data.map print) ++ [']']).map fun c => c.toNat.toUInt8

/-- The message of a call of the module function. -/
def moduleArray : List Json :=
  [.string "run", .int 1, .int 0, .string "Object", .boolean false, .int 0, .string "C", .boolean false, .int 0, .null,
    .int 2, .string "C", .boolean false, .int 0, .null, .int 0, .int 0, .int 0, .string "Object", .boolean false,
    .int 1, .null, .int 0, .int 0, .int 0, .int 0, .boolean true, .string "block", .int 0]

/-- A parser that knows one array. -/
def parseOnly (data : List Json) (text : Bytes) : Option (List Json) :=
  if text = printPlain data then some data else none

deriving instance DecidableEq for Trace

/-- What the agent decodes it to. -/
def moduleTrace : Trace where
  methodOwner := { name := "C" }
  methodCallee := none
  methodName := "run"
  methodKind := .SINGLETON
  methodVisibility := .PUBLIC
  returnType := { name := "Object" }
  params := []
  blockParam := some { name := some "block", traces := [] }
  constantUpdates := [{ name := "C" }, { name := "Object", type := .CLASS }]

/-- The function returns an object. -/
def runReturn : Event (Sample × Bool) := .ret 0 "run" ⟨.object 8, noObjects⟩

/-- Whether this call of the function is recorded as this array. -/
def records (maxGenericDepth : Int) (e : CallEvent (Sample × Bool)) (data : List Json) : Bool :=
  (deliver flatSample 4 (Tracer.start maxGenericDepth true {}) (.call 0 e)).any fun t =>
    t.queue.isEmpty && decide (Tracepoints.Admits t runReturn) && (deliver flatSample 4 t runReturn).any fun u =>
      decide (Tracepoints.Admits u .stop) && u.queue.map writeTrace = [some data]

/-- What is written to the socket of a session that queues one trace. -/
def sessionText (data : List Json) : Bytes :=
  printPlain data ++ [nul] ++ stop ++ [nul]

/-- The thread that reads it in one piece. -/
def readSession (data : List Json) : Accepting.Thread × List Trace :=
  Accepting.Thread.read (decodeData (parseOnly data)) { connection := 0 } (sessionText data)

/-- A session in which the function is called once, up to the end of its socket. -/
theorem exists_call_session (maxGenericDepth : Int) (e : CallEvent (Sample × Bool)) (data : List Json) (trace : Trace)
    (admits : Tracepoints.Admits {} (.call 0 e)) (reports : Shapes.Reports (.call 0 e))
    (traced : records maxGenericDepth e data = true)
    (bracket : (printPlain data).head? = some 91) (clean : nul ∉ printPlain data)
    (returns : (readSession data).1.status = .returned) (decoded : (readSession data).2 = [trace]) :
    ∃ s : System (Sample × Bool), Run (Guarded (Reported flatSample printPlain (parseOnly data)) InTurn) {} s ∧
      PrintsQueue printPlain (parseOnly data) s ∧ s.tracer.queue.length = 1 ∧
        s.session.channels.length = 1 ∧ (s.readers 0).thread.status = .returned ∧ s.received = [trace] := by
  unfold records at traced
  obtain ⟨begun, start⟩ : ∃ begun : Tracer (Sample × Bool), Tracer.start maxGenericDepth true {} = begun := ⟨_, rfl⟩
  rw [start] at traced
  obtain ⟨t, called, checked⟩ := (Option.any_eq_true _ _).mp traced
  simp only [Bool.and_eq_true, List.isEmpty_iff, decide_eq_true_eq] at checked
  obtain ⟨⟨empty, admitsReturn⟩, checked⟩ := checked
  obtain ⟨u, returned, checked⟩ := (Option.any_eq_true _ _).mp checked
  simp only [Bool.and_eq_true, decide_eq_true_eq] at checked
  obtain ⟨x, queue, written⟩ := List.map_eq_singleton_iff.mp checked.2
  have message : messageOf printPlain x = printPlain data := by rw [messageOf, written, Option.getD_some]
  let Pipeline := Step flatSample printPlain (parseOnly data)
  have reported {e : Event (Sample × Bool)} {a b : System (Sample × Bool)} (step : Pipeline a (some e) b)
      (admits : Tracepoints.Admits a.tracer e) (reports : Shapes.Reports e) (same : b.readers = a.readers) :
      Guarded (Reported flatSample printPlain (parseOnly data)) InTurn a b :=
    ⟨⟨some e, by simpa using ⟨admits, reports⟩, step⟩, fun j more => (more (by rw [same])).elim⟩
  have silent {a b : System (Sample × Bool)} (step : Pipeline a none b) (same : b.readers = a.readers) :
      Guarded (Reported flatSample printPlain (parseOnly data)) InTurn a b :=
    ⟨⟨none, by simp, step⟩, fun j more => (more (by rw [same])).elim⟩
  let opened : Session.State ReturnTrace := Session.State.openSession {} 3
  have call : Pipeline { tracer := begun, session := opened } (some (.call 0 e))
      { tracer := t, session := (t.queue.drop begun.queue.length).foldl (fun s t => s.pushTrace t) opened } :=
    .event rfl trivial ⟨4, called⟩
  simp only [empty, List.drop_nil, List.foldl_nil] at call
  have leave : Pipeline { tracer := t, session := opened } (some runReturn)
      { tracer := u, session := (u.queue.drop t.queue.length).foldl (fun s t => s.pushTrace t) opened } :=
    .event rfl trivial ⟨4, returned⟩
  simp only [empty, queue, List.length_nil, List.drop_zero, List.foldl_cons, List.foldl_nil] at leave
  have r1 : Run (Guarded (Reported flatSample printPlain (parseOnly data)) InTurn) {}
      { tracer := begun, session := opened } :=
    start ▸ .tail .refl (reported (.start maxGenericDepth (some 3) rfl) trivial trivial rfl)
  have r2 := r1.tail (reported call admits reports rfl)
  have r3 := r2.tail (reported leave admitsReturn trivial rfl)
  have r4 := r3.tail (silent (.session (.pop (k := 0) rfl rfl rfl) (.inl rfl)) rfl)
  have r5 := r4.tail (silent (.session (.flush rfl) (.inr (.inl rfl))) rfl)
  have r6 := r5.tail (reported (.flushStop rfl) checked.1 trivial rfl)
  have r7 := r6.tail (silent (.flushClear rfl) rfl)
  have apart {m : Session.MainPc} {a b : Session.State ReturnTrace} (main : a.main = m)
      (late : m ≠ .idle ∧ m ≠ .stopping ∧ m ≠ .clearing) : Session.Apart a b := .inr (.inr (main ▸ late))
  have r8 := r7.tail
    (silent (.session (.flushTerminate (k := 0) rfl rfl) (apart (m := .terminating) rfl (by decide))) rfl)
  have r9 := r8.tail
    (silent (.session (.send (k := 0) (j := 0) rfl rfl ⟨_, rfl, rfl, rfl⟩) (apart (m := .joining) rfl (by decide))) rfl)
  have r10 := r9.tail
    (silent (.session (.popTerminator (k := 0) rfl rfl rfl) (apart (m := .joining) rfl (by decide))) rfl)
  have r11 := r10.tail
    (silent (.session (.flushJoin (k := 0) rfl rfl rfl rfl) (apart (m := .joining) rfl (by decide))) rfl)
  have r12 := r11.tail
    (silent (.session (.flushDestroy (k := 0) rfl rfl) (apart (m := .destroying) rfl (by decide))) rfl)
  have r13 := r12.tail
    (silent (.session (.flushSend (j := 0) rfl ⟨_, rfl, rfl, rfl⟩) (apart (m := .sendingStop) rfl (by decide))) rfl)
  have r14 := r13.tail
    (silent (.session (.flushClose (j := 0) rfl ⟨_, rfl, rfl, rfl⟩) (apart (m := .closing) rfl (by decide))) rfl)
  have whole : [] ++ messageOf printPlain x ++ [nul] ++ stop ++ [nul] = sessionText data := by
    rw [message]
    rfl
  have turn {a b : System (Sample × Bool)} (others : ∀ j, j ≠ 0 → b.readers j = a.readers j) : InTurn a b := by
    intro j more i before
    exact (more (by rw [others j (Nat.ne_zero_of_lt before)])).elim
  have r15 := r14.tail ⟨⟨none, by simp, .read 0 (sessionText data) rfl rfl (by simp [sessionText])
    ⟨[], (List.append_nil _).trans whole.symm⟩⟩, turn fun j other => Function.update_of_ne other _ _⟩
  refine ⟨_, r15, ?_, congrArg List.length queue, rfl, returns, ?_⟩
  · intro y member data' printed
    obtain rfl : y = x := List.mem_singleton.mp (queue ▸ member)
    obtain rfl := Option.some.inj (written.symm.trans printed)
    exact ⟨if_pos rfl, bracket, clean⟩
  · rw [System.read_received]
    exact (List.nil_append _).trans decoded

/-- A session in which the module function is called with a block. -/
theorem exists_moduleCall_session : ∃ s : System (Sample × Bool),
    Run (Guarded (Admitted flatSample printPlain (parseOnly moduleArray)) InTurn) {} s ∧
      PrintsQueue printPlain (parseOnly moduleArray) s ∧ s.tracer.queue.length = 1 ∧
        s.session.channels.length = 1 ∧ (s.readers 0).thread.status = .returned ∧ s.received = [moduleTrace] := by
  obtain ⟨s, run, session⟩ := exists_call_session 1 moduleCall moduleArray moduleTrace (by decide) (by decide)
    (by decide +kernel) (by decide +kernel) (by decide +kernel) (by decide +kernel) (by decide +kernel)
  exact ⟨s, Relation.ReflTransGen.mono (fun _ _ step => ⟨step.1.admitted, step.2⟩) _ _ run, session⟩

/-- The thread on the socket of this session. -/
theorem traces_delivered_module_call : ∃ s : System (Sample × Bool), s.tracer.queue.length = 1 ∧
    (s.readers 0).thread.status = .returned ∧
      ∃ sessions : List (List MethodTrace), sessions.flatten.map (·.trace) = s.tracer.queue ∧
        sessions.length = s.session.channels.length ∧
          ∀ (j : Nat) traces ch, sessions[j]? = some traces → s.session.channels[j]? = some ch →
            Delivers (s.readers j) ch (traces.map (·.toTrace)) := by
  obtain ⟨s, run, prints, length, -, returned, -⟩ := exists_moduleCall_session
  exact ⟨s, length, returned, traces_delivered (Relation.ReflTransGen.mono (fun _ _ step => step.1) _ _ run) prints⟩

end Racer.Pipeline
