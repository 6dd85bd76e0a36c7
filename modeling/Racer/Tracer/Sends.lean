import Racer.Library.Offers
import Racer.Tracer.Session

namespace Racer.Sends
open Offers Delimited

/-! What `send(2)` accepts of the messages that `init_worker` and `flush_end` write. -/

/-- A call of `send(2)`: its number, its buffer and what it returned. -/
structure Send where
  call : Nat
  buffer : Bytes
  result : Int

/-- What a blocking stream socket may return: -1, or the number of bytes it accepted. -/
def Send.Possible (s : Send) : Prop :=
  s.result = -1 ∨ (0 < s.result ∧ s.result ≤ s.buffer.length)

/-- The bytes of a call, each with the number of the call. -/
def Send.offer (s : Send) : Offer Nat UInt8 where
  name := s.call
  message := s.buffer
  accepted := s.result.toNat

section
variable {τ : Type} (text : τ → Bytes) (results : Nat → Int)

/-- The JSON text with its terminating NUL. -/
def frame (trace : τ) : Bytes :=
  text trace ++ [nul]

/-- `init_worker` from the call with this number on, for the traces in front of the
terminator. -/
def initWorker : Nat → List τ → List Send
  | _, [] => []
  | call, trace :: traces =>
    let result := results call
    if result < 0 then [{ call, buffer := frame text trace, result }]
    else { call, buffer := frame text trace, result } :: initWorker (call + 1) traces

/-- The call of `flush_end`, made when the worker has returned. -/
def flushEnd (call : Nat) : Send where
  call := call
  buffer := stop ++ [nul]
  result := results call

/-- The calls from this number on. -/
def sendsFrom (call : Nat) (traces : List τ) : List Send :=
  let sent := initWorker text results call traces
  sent ++ [flushEnd results (call + sent.length)]

/-- All calls of a session in which these traces are queued. -/
def sends (traces : List τ) : List Send :=
  sendsFrom text results 0 traces

/-- The bytes on the connection, each with the number of the call that wrote it. -/
def connection (traces : List τ) : List (Nat × UInt8) :=
  stream ((sends text results traces).map Send.offer)

/-- Up to each frame boundary the connection has complete frames only. -/
def FramesWhole (traces : List τ) : Prop :=
  Whole ((sends text results traces).map Send.offer)

/-- A frame of which only a part is accepted is the last thing that is accepted: the
call behind it fails, and if that was one for a trace, the one for the stop message too. -/
def OnlyLastShort (traces : List τ) : Prop :=
  ∀ i trace, traces[i]? = some trace → (∀ j < i, results j ≠ -1) →
    results i ≠ -1 → results i < (frame text trace).length →
      results (i + 1) = -1 ∧ (i + 1 < traces.length → results (i + 2) = -1)

variable {text results}

theorem sendsFrom_failed {call : Nat} (failed : results call < 0) (trace : τ) (traces : List τ) :
    sendsFrom text results call (trace :: traces) =
      [⟨call, frame text trace, results call⟩, flushEnd results (call + 1)] := by
  simp only [sendsFrom, initWorker, if_pos failed, List.length_singleton, List.cons_append, List.nil_append]

theorem sendsFrom_accepted {call : Nat} (accepted : ¬ results call < 0) (trace : τ) (traces : List τ) :
    sendsFrom text results call (trace :: traces) =
      ⟨call, frame text trace, results call⟩ :: sendsFrom text results (call + 1) traces := by
  simp only [sendsFrom, initWorker, if_neg accepted, List.length_cons, List.cons_append]
  congr 4
  omega

theorem sendsFrom_calls (call : Nat) (traces : List τ) :
    (sendsFrom text results call traces).map Send.call =
      List.range' call (sendsFrom text results call traces).length := by
  induction traces generalizing call with
  | nil => rfl
  | cons trace traces ih =>
    by_cases failed : results call < 0
    · rw [sendsFrom_failed failed]
      rfl
    · rw [sendsFrom_accepted failed, List.map_cons, ih, List.length_cons, List.range'_succ]

theorem sends_distinct (traces : List τ) :
    (((sends text results traces).map Send.offer).map Offer.name).Nodup := by
  have names : ((sends text results traces).map Send.offer).map Offer.name =
      (sends text results traces).map Send.call :=
    List.map_map
  rw [names, sends, sendsFrom_calls]
  exact List.nodup_range'

/-- Every buffer is the message of a queued trace or the stop message, with its NUL. -/
theorem sendsFrom_buffer {call : Nat} {traces : List τ} {s : Send}
    (member : s ∈ sendsFrom text results call traces) : ∃ m ∈ traces.map text ++ [stop], s.buffer = m ++ [nul] := by
  induction traces generalizing call with
  | nil =>
    rw [List.mem_singleton.mp member]
    exact ⟨stop, by simp, rfl⟩
  | cons trace traces ih =>
    by_cases failed : results call < 0
    · rw [sendsFrom_failed failed] at member
      rcases List.mem_pair.mp member with rfl | rfl
      · exact ⟨text trace, by simp, rfl⟩
      · exact ⟨stop, by simp, rfl⟩
    · rw [sendsFrom_accepted failed] at member
      rcases List.mem_cons.mp member with rfl | later
      · exact ⟨text trace, by simp, rfl⟩
      · obtain ⟨m, queued, buffer⟩ := ih later
        exact ⟨m, List.mem_cons_of_mem _ queued, buffer⟩

theorem Send.Possible.refused {s : Send} (possible : s.Possible) : s.offer.accepted = 0 ↔ s.result = -1 := by
  unfold Send.Possible at possible
  simp only [Send.offer]
  omega

theorem Send.Possible.short {s : Send} (possible : s.Possible) :
    s.offer.Short ↔ s.result ≠ -1 ∧ s.result < s.buffer.length := by
  unfold Send.Possible at possible
  simp only [Offer.Short, Send.offer]
  omega

/-- Nothing is accepted from a call on: it fails, and so does the one for the stop
message behind it. -/
theorem sendsFrom_refused {call : Nat} {traces : List τ} :
    (∀ s ∈ sendsFrom text results call traces, s.result = -1) ↔
      results call = -1 ∧ (0 < traces.length → results (call + 1) = -1) := by
  cases traces with
  | nil => simp [sendsFrom, initWorker, flushEnd]
  | cons trace traces =>
    by_cases failed : results call < 0
    · simp [sendsFrom_failed failed, flushEnd]
    · have accepted : results call ≠ -1 := by omega
      rw [sendsFrom_accepted failed, List.forall_mem_cons]
      exact ⟨fun ⟨refused, _⟩ => absurd refused accepted, fun ⟨refused, _⟩ => absurd refused accepted⟩

variable (text results) in
/-- `OnlyLastShort` for the calls from this number on. -/
def LastShortFrom (call : Nat) (traces : List τ) : Prop :=
  ∀ i trace, traces[i]? = some trace → (∀ j < i, results (call + j) ≠ -1) →
    results (call + i) ≠ -1 → results (call + i) < (frame text trace).length →
      results (call + i + 1) = -1 ∧ (i + 1 < traces.length → results (call + i + 2) = -1)

theorem LastShortFrom.of_refused {call : Nat} {traces : List τ} (refused : results call = -1) :
    LastShortFrom text results call traces := by
  rintro (_ | i) _ _ before accepted
  · exact absurd refused accepted
  · exact absurd refused (before 0 (Nat.succ_pos i))

theorem lastShortFrom_cons {call : Nat} (accepted : results call ≠ -1) (trace : τ) (traces : List τ) :
    LastShortFrom text results call (trace :: traces) ↔
      (results call < (frame text trace).length →
        results (call + 1) = -1 ∧ (0 < traces.length → results (call + 2) = -1)) ∧
      LastShortFrom text results (call + 1) traces := by
  have shifted : ∀ k, call + 1 + k = call + (k + 1) := by omega
  constructor
  · intro all
    refine ⟨fun part => ?_, fun i other here before reached part => ?_⟩
    · obtain ⟨next, stops⟩ := all 0 trace rfl (by simp) accepted part
      exact ⟨next, fun more => stops (by simpa using more)⟩
    · simp only [shifted] at before reached part ⊢
      have earlier : ∀ j < i + 1, results (call + j) ≠ -1 := by
        rintro (_ | j) less
        · exact accepted
        · exact before j (by omega)
      obtain ⟨next, stops⟩ := all (i + 1) other here earlier reached part
      exact ⟨next, fun more => stops (by simpa using more)⟩
  · rintro ⟨head, tail⟩ (_ | i) other here before reached part
    · cases Option.some.inj here
      obtain ⟨next, stops⟩ := head part
      exact ⟨next, fun more => stops (by simpa using more)⟩
    · have found := tail i other here
      simp only [shifted] at found
      obtain ⟨next, stops⟩ := found (fun j less => before (j + 1) (by omega)) reached part
      exact ⟨next, fun more => stops (by simpa using more)⟩

/-- The condition on the calls as one on their results. -/
theorem sendsFrom_pairwise {call : Nat} {traces : List τ}
    (possible : ∀ s ∈ sendsFrom text results call traces, s.Possible) :
    (sendsFrom text results call traces).Pairwise (fun s later => s.offer.Short → later.offer.accepted = 0) ↔
      LastShortFrom text results call traces := by
  induction traces generalizing call with
  | nil => simp [sendsFrom, initWorker, LastShortFrom]
  | cons trace traces ih =>
    by_cases failed : results call < 0
    · rw [sendsFrom_failed failed] at possible ⊢
      obtain ⟨first, _⟩ := List.forall_mem_cons.mp possible
      have refused : results call = -1 := by
        rcases first with refused | ⟨accepted, _⟩
        · exact refused
        · simp only at accepted
          omega
      refine iff_of_true (List.pairwise_pair.mpr fun short => absurd refused ?_) (.of_refused refused)
      exact (first.short.mp short).1
    · rw [sendsFrom_accepted failed] at possible ⊢
      obtain ⟨first, later⟩ := List.forall_mem_cons.mp possible
      have accepted : results call ≠ -1 := by omega
      have refusals : (∀ s ∈ sendsFrom text results (call + 1) traces, s.offer.accepted = 0) ↔
          results (call + 1) = -1 ∧ (0 < traces.length → results (call + 2) = -1) :=
        (forall₂_congr fun s member => (later s member).refused).trans sendsFrom_refused
      rw [List.pairwise_cons, ih later, lastShortFrom_cons accepted]
      refine and_congr_left' ⟨fun head part => ?_, fun cut s member short => ?_⟩
      · exact refusals.mp fun s member => head s member (first.short.mpr ⟨accepted, part⟩)
      · exact refusals.mpr (cut (first.short.mp short).2) s member

/-- Where the frames are whole, every message that the agent takes from the connection
is the one of a queued trace, or the stop message. -/
theorem received_of_whole {traces : List τ} (clean : ∀ trace ∈ traces, nul ∉ text trace)
    (whole : FramesWhole text results traces) :
    complete nul ((connection text results traces).map Prod.snd) ⊆ traces.map text ++ [stop] := by
  have messages {o : Offer Nat UInt8} (member : o ∈ (sends text results traces).map Send.offer) :
      ∃ m ∈ traces.map text ++ [stop], nul ∉ m ∧ o.items.map Prod.snd = m ++ [nul] := by
    obtain ⟨s, sent, rfl⟩ := List.mem_map.mp member
    obtain ⟨m, queued, buffer⟩ := sendsFrom_buffer sent
    refine ⟨m, queued, ?_, by simp [Offer.items, Send.offer, buffer, Function.comp_def]⟩
    rcases List.mem_append.mp queued with trace | last
    · obtain ⟨t, there, rfl⟩ := List.mem_map.mp trace
      exact clean t there
    · rw [List.mem_singleton.mp last]
      decide
  obtain ⟨offers, rest, subset, same, ending⟩ := whole
  have taken : ∃ ms ⊆ traces.map text ++ [stop], (∀ m ∈ ms, nul ∉ m) ∧
      (offers.flatMap Offer.items).map Prod.snd = frames nul ms := by
    clear same
    induction offers with
    | nil => exact ⟨[], by simp, by simp, rfl⟩
    | cons o offers ih =>
      obtain ⟨offered, others⟩ := List.cons_subset.mp subset
      obtain ⟨ms, queued, cleanAll, read⟩ := ih others
      obtain ⟨m, first, cleanFirst, items⟩ := messages offered
      refine ⟨m :: ms, List.cons_subset.mpr ⟨first, queued⟩, List.forall_mem_cons.mpr ⟨cleanFirst, cleanAll⟩, ?_⟩
      rw [List.flatMap_cons, List.map_append, items, read]
      rfl
  have open_ : nul ∉ rest.map Prod.snd := by
    rcases ending with rfl | ⟨o, offered, beginning, part⟩
    · simp
    · obtain ⟨m, _, cleanLast, items⟩ := messages offered
      have inside : rest.map Prod.snd <+: m ++ [nul] := items ▸ beginning.map Prod.snd
      rcases List.prefix_concat_iff.mp inside with all | within
      · have lengths := congrArg List.length (all.trans items.symm)
        rw [List.length_map, List.length_map] at lengths
        exact absurd (beginning.eq_of_length lengths) part
      · exact fun there => cleanLast (within.subset there)
  obtain ⟨ms, queued, cleanAll, read⟩ := taken
  rw [connection, same, List.map_append, read, complete_frames cleanAll open_]
  exact queued

/-- Where every call accepts its whole buffer, the connection is as `Session.Finished`
has it. -/
theorem connection_of_full {traces : List τ}
    (full : ∀ s ∈ sends text results traces, s.result = s.buffer.length) :
    (connection text results traces).map Prod.snd = frames nul (traces.map text ++ [stop]) := by
  have whole {s : Send} (all : s.result = s.buffer.length) :
      (s.offer.items.take s.offer.accepted).map Prod.snd = s.buffer := by
    simp [Offer.items, Send.offer, all, Function.comp_def]
  have from_ (call : Nat) (traces : List τ)
      (full : ∀ s ∈ sendsFrom text results call traces, s.result = s.buffer.length) :
      (stream ((sendsFrom text results call traces).map Send.offer)).map Prod.snd =
        frames nul (traces.map text ++ [stop]) := by
    induction traces generalizing call with
    | nil =>
      have last := whole (full _ (List.mem_singleton_self _))
      simpa [sendsFrom, initWorker, stream, flushEnd, frames] using last
    | cons trace traces ih =>
      by_cases failed : results call < 0
      · rw [sendsFrom_failed failed] at full
        have first := (List.forall_mem_cons.mp full).1
        simp only at first
        omega
      · rw [sendsFrom_accepted failed] at full ⊢
        obtain ⟨first, later⟩ := List.forall_mem_cons.mp full
        rw [List.map_cons, stream_cons, List.map_append, whole first, ih (call + 1) later]
        rfl
  exact from_ 0 traces full

/-- A session puts complete frames on the connection just where a frame that is cut off
is the last thing that is accepted. -/
theorem frames_whole_iff (text : τ → Bytes) (results : Nat → Int) (traces : List τ)
    (possible : ∀ s ∈ sends text results traces, s.Possible) :
    FramesWhole text results traces ↔ OnlyLastShort text results traces := by
  have calls : ((sends text results traces).map Send.offer).Pairwise (fun o later => o.Short → later.accepted = 0) ↔
      OnlyLastShort text results traces := by
    rw [List.pairwise_map]
    simpa only [sends, OnlyLastShort, LastShortFrom, Nat.zero_add] using sendsFrom_pairwise possible
  rw [← calls]
  refine ⟨fun whole => whole.pairwise (sends_distinct traces) fun o member => ?_, .of_pairwise⟩
  obtain ⟨s, sent, rfl⟩ := List.mem_map.mp member
  obtain ⟨m, _, buffer⟩ := sendsFrom_buffer sent
  simp [Send.offer, buffer]

end

/-- The traces `[1]` and `[2]`, as their texts. -/
def twoTexts : List Bytes :=
  [[91, 49, 93], [91, 50, 93]]

/-- The first call accepts two of four bytes, and the agent reads `[1[2]`. -/
theorem short_count_glues :
    (∀ s ∈ sends id (fun call => [2, 4, 5].getD call (-1)) twoTexts, s.Possible) ∧
      complete nul ((connection id (fun call => [2, 4, 5].getD call (-1)) twoTexts).map Prod.snd) =
        [[91, 49, 91, 50, 93], stop] ∧
      ¬ FramesWhole id (fun call => [2, 4, 5].getD call (-1)) twoTexts := by
  have read : complete nul ((connection id (fun call => [2, 4, 5].getD call (-1)) twoTexts).map Prod.snd) =
      [[91, 49, 91, 50, 93], stop] := by decide
  refine ⟨by unfold Send.Possible; decide, read, fun whole => ?_⟩
  have queued := received_of_whole (by decide) whole
  rw [read] at queued
  exact absurd queued (by decide)

/-- The second frame is cut off, and the stop message not accepted. -/
theorem frames_whole_cut_off : FramesWhole id (fun call => [4, 2].getD call (-1)) twoTexts := by
  refine (frames_whole_iff id _ twoTexts (by unfold Send.Possible; decide)).mpr ?_
  rintro (_ | _ | i) trace here before accepted part
  · cases Option.some.inj here
    exact absurd part (by decide)
  · decide
  · cases here

end Racer.Sends
