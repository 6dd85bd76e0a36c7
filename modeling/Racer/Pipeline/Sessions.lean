import Mathlib.Data.List.Forall2
import Racer.Library.SameMembers
import Racer.Tracer.Session

namespace Racer.Session
open Transition Delimited

/-! What the sockets of all sessions of a process carry. -/

section
variable {τ : Type}

/-- The first traces that the session has queued, and the stop message behind all of them. -/
def Carries (text : τ → Bytes) (queued : List τ) (ch : Channel τ) : Prop :=
  ∃ sent waiting, queued = sent ++ waiting ∧
    ch.written = frames nul (sent.map text ++ if ch.stopSent then [Racer.stop] else []) ∧
      (ch.stopSent = true → waiting = [])

/-- A session that is over has sent all its traces. -/
structure Sealed (text : τ → Bytes) (queued : List τ) (ch : Channel τ) : Prop where
  stopSent : ch.stopSent = true
  finished : Finished text queued ch

/-- The traces queued in each session, where the last one may be open. -/
inductive Recorded (text : τ → Bytes) (s : State τ) : List (List τ) → Prop
  | between {sessions} (between : Between s) (ended : List.Forall₂ (Sealed text) sessions s.channels) :
      Recorded text s sessions
  | during {sessions before ch} (during : During text s before ch)
      (ended : List.Forall₂ (Sealed text) sessions before) : Recorded text s (sessions ++ [s.queued])

/-- No socket is taken away, and none loses what has been written to it. -/
def Extends (channels channels' : List (Channel τ)) : Prop :=
  ∀ (j : Nat) (ch : Channel τ), channels[j]? = some ch →
    ∃ ch' more, channels'[j]? = some ch' ∧ ch'.written = ch.written ++ more

variable {text : τ → Bytes} {s s' : State τ} {sessions : List (List τ)}

theorem Position.carries {main : MainPc} {queued : List τ} {ch : Channel τ}
    (position : Position text main queued ch) : Carries text queued ch := by
  have streaming {last : List (Message τ)} (unsent : ch.stopSent = false) (streams : Streaming text queued ch last) :
      Carries text queued ch := by
    obtain ⟨-, sent, waiting, written, -, accounts⟩ := streams
    refine ⟨sent, ch.worker.inHand ++ waiting, by rw [accounts, List.append_assoc], ?_, ?_⟩
    · rw [written, unsent, if_neg Bool.false_ne_true, List.append_nil]
    · rw [unsent]
      exact fun h => (Bool.false_ne_true h).elim
  have written (unsent : ch.stopSent = false) (written : Written text queued ch) : Carries text queued ch := by
    refine ⟨queued, [], (List.append_nil queued).symm, ?_, fun _ => rfl⟩
    rw [written.written, unsent, if_neg Bool.false_ne_true, List.append_nil]
  unfold Position at position
  cases main with
  | idle | stopping | clearing | terminating => exact streaming position.2.1 position.2.2
  | joining =>
    obtain ⟨-, unsent, streams | finished⟩ := position
    · exact streaming unsent streams
    · exact written unsent finished
  | destroying => exact written position.2.1 position.2.2
  | sendingStop => exact written position.1 position.2
  | closing =>
    obtain ⟨sent, finished⟩ := position
    refine ⟨queued, [], (List.append_nil queued).symm, ?_, fun _ => rfl⟩
    rw [finished.written, sent, if_pos rfl]

theorem Sealed.carries {queued : List τ} {ch : Channel τ} (isSealed : Sealed text queued ch) :
    Carries text queued ch := by
  refine ⟨queued, [], (List.append_nil queued).symm, ?_, fun _ => rfl⟩
  rw [isSealed.finished.written, isSealed.stopSent, if_pos rfl]

theorem Recorded.carries (recorded : Recorded text s sessions) : List.Forall₂ (Carries text) sessions s.channels := by
  cases recorded with
  | between between ended => exact ended.imp fun _ _ isSealed => isSealed.carries
  | during during ended =>
    rw [during.channels]
    exact List.rel_append (ended.imp fun _ _ isSealed => isSealed.carries) (.cons during.position.carries .nil)

/-- A socket that has been closed carries the stop message. -/
theorem Recorded.stopSent_of_closed (recorded : Recorded text s sessions) {j : Nat} {ch : Channel τ}
    (atJ : s.channels[j]? = some ch) (closed : ch.closed = true) : ch.stopSent = true := by
  have isSealed {sessions : List (List τ)} {channels : List (Channel τ)}
      (ended : List.Forall₂ (Sealed text) sessions channels) (member : ch ∈ channels) : ch.stopSent = true := by
    obtain ⟨queued, -, isSealed⟩ := SameMembers.image_of_mem ended.flip member
    exact isSealed.stopSent
  have member := List.mem_of_getElem? atJ
  cases recorded with
  | between between ended => exact isSealed ended member
  | during during ended =>
    rw [during.channels] at member
    rcases List.mem_append.mp member with old | last
    · exact isSealed ended old
    · rw [List.mem_singleton.mp last, during.opened] at closed
      cases closed

theorem Recorded.during_of_enabled (recorded : Recorded text s sessions) (enabled : s.tpCall ≠ none) :
    ∃ earlier before ch, During text s before ch ∧ List.Forall₂ (Sealed text) earlier before ∧
      sessions = earlier ++ [s.queued] := by
  cases recorded with
  | between between ended => exact (enabled between.tpCall).elim
  | during during ended => exact ⟨_, _, _, during, ended, rfl⟩

theorem During.not_between {before : List (Channel τ)} {ch : Channel τ} (during : During text s before ch) :
    ¬ Between s := by
  intro between
  have closed := (between.ended ch (by rw [during.channels]; exact List.mem_append_right _ (by simp))).closed
  rw [during.opened] at closed
  cases closed

/-- A session that has just been opened has queued nothing. -/
theorem During.queued_eq_nil {before : List (Channel τ)} {fd : Nat} (during : During text s before { fd }) :
    s.queued = [] := by
  have streaming (streams : Streaming text s.queued { fd } []) : s.queued = [] := by
    obtain ⟨-, sent, waiting, written, queue, accounts⟩ := streams
    have nothing : sent = [] := by
      cases sent with
      | nil => rfl
      | cons t sent => simp [frames] at written
    have none : waiting = [] := by simpa using queue.symm
    rw [accounts, nothing, none]
    rfl
  have position := during.position
  unfold Position at position
  cases main : s.main <;> rw [main] at position
  case idle | stopping | clearing | terminating => exact streaming position.2.2
  case joining =>
    obtain ⟨-, -, ⟨-, sent, waiting, -, queue, -⟩ | written⟩ := position
    · simp at queue
    · cases written.worker
  case destroying => cases position.2.2.worker
  case sendingStop => cases position.2.worker
  case closing => cases position.2.worker

/-- A step that queues no trace, or opens a session. -/
theorem Recorded.quiet (recorded : Recorded text s sessions) (step : Step text s s')
    (quiet : s'.queued = s.queued ∨ Between s) :
    ∃ sessions', Recorded text s' sessions' ∧ sessions'.flatten = sessions.flatten := by
  cases recorded with
  | between between ended =>
    rcases step.between between with ⟨still, channels⟩ | ⟨fd, opened⟩
    · exact ⟨sessions, .between still (channels ▸ ended), rfl⟩
    · exact ⟨_, .during opened ended, by simp [opened.queued_eq_nil]⟩
  | @during earlier before ch during ended =>
    have same : s'.queued = s.queued := quiet.resolve_right during.not_between
    obtain ⟨ch', kept, opened | ⟨closing, between, channels, finished⟩⟩ := step.during during
    · exact ⟨_, .during opened ended, by rw [same]⟩
    · have sent := during.position
      rw [closing] at sent
      refine ⟨earlier ++ [s'.queued], .between between ?_, by rw [same]⟩
      rw [channels]
      exact List.rel_append ended (.cons ⟨(kept.written sent.1).1, finished⟩ .nil)

/-- `tiny_queue_push` of a trace, through the global pointer. -/
def State.pushTrace (trace : τ) (s : State τ) : State τ :=
  match s.tinyQueue with
  | some k => { s.modify k (.push (.trace trace)) with queued := s.queued ++ [trace] }
  | none => s

theorem Recorded.push (recorded : Recorded text s sessions) (main : s.main = .idle) (enabled : s.tpCall = some true)
    (trace : τ) : Step text s (s.pushTrace trace) ∧
      ∃ sessions', Recorded text (s.pushTrace trace) sessions' ∧ sessions'.flatten = sessions.flatten ++ [trace] := by
  obtain ⟨earlier, before, ch, during, ended, rfl⟩ := recorded.during_of_enabled (enabled ▸ nofun)
  have pushed : s.pushTrace trace =
      { s.modify before.length (.push (.trace trace)) with queued := s.queued ++ [trace] } := by
    simp only [State.pushTrace, during.tinyQueue]
  have step : Step text s (s.pushTrace trace) := pushed ▸ .returnEvent trace main enabled during.tinyQueue
  refine ⟨step, ?_⟩
  obtain ⟨ch', -, opened | ⟨closing, -, -, -⟩⟩ := step.during during
  · refine ⟨_, .during opened ended, ?_⟩
    rw [pushed]
    simp
  · rw [main] at closing
    cases closing

theorem Extends.refl (channels : List (Channel τ)) : Extends channels channels :=
  fun _ ch atJ => ⟨ch, [], atJ, (List.append_nil _).symm⟩

theorem Extends.modify (channels : List (Channel τ)) (k : Nat) {f : Channel τ → Channel τ}
    (more : ∀ ch, ∃ more, (f ch).written = ch.written ++ more) : Extends channels (channels.modify k f) := by
  intro j ch atJ
  rw [List.getElem?_modify, atJ]
  by_cases same : k = j
  · obtain ⟨bytes, written⟩ := more ch
    exact ⟨f ch, bytes, by simp [same], written⟩
  · exact ⟨ch, [], by simp [same], (List.append_nil _).symm⟩

theorem Step.extends (step : Step text s s') : Extends s.channels s'.channels := by
  have frame {k : Nat} {f : Channel τ → Channel τ} (same : ∀ ch, (f ch).written = ch.written) :
      Extends s.channels (s.modify k f).channels :=
    .modify _ k fun ch => ⟨[], by rw [same, List.append_nil]⟩
  cases step with
  | start fd main tpCall =>
    intro j ch atJ
    refine ⟨ch, [], ?_, (List.append_nil _).symm⟩
    exact (List.getElem?_append_left (List.getElem?_eq_some_iff.mp atJ).1).trans atJ
  | returnEvent trace main tpCall tinyQueue => exact frame fun _ => rfl
  | flush main =>
    unfold State.flush
    split <;> exact .refl _
  | flushTerminate main tinyQueue | flushDestroy main tinyQueue | flushClose main resolves => exact frame fun _ => rfl
  | flushSend main resolves => exact .modify _ _ fun ch => ⟨Racer.stop ++ [nul], List.append_assoc ..⟩
  | pop atK worker atQueue | popTerminator atK worker atQueue | sendFails atK worker unresolved =>
    exact frame fun _ => rfl
  | @send k j ch trace atK worker resolves =>
    intro i c atI
    obtain ⟨c', more, atI', written⟩ :=
      Extends.modify s.channels j (f := .send (text trace)) (fun ch => ⟨text trace ++ [nul], List.append_assoc ..⟩)
        i c atI
    obtain ⟨c'', more', atI'', written'⟩ :=
      Extends.modify (s.channels.modify j (.send (text trace))) k
        (f := ({ · with worker := .popping })) (fun ch => ⟨[], (List.append_nil _).symm⟩) i c' atI'
    exact ⟨c'', more ++ more', atI'', by rw [written', written, List.append_assoc]⟩
  | _ => exact .refl _

end

end Racer.Session
