import Racer.Library.OneChange
import Racer.Tracer.Announced

namespace Racer.Tracepoints
open Announced Stateful Transition

/-! The enabled tracepoints of blocks, and the traces that they refer to. -/

/-- The tracepoint that follows a block, or 0. -/
def tracepointOf (block : Option (BlockParameter ReturnTrace)) : Nat :=
  (block.map (·.tracepointId)).getD 0

/-- The address of a trace and the tracepoint of its block. -/
def link (t : ReturnTrace) : Nat × Nat :=
  (t.addr, tracepointOf t.blockParam)

/-- The links of a trace and of those below it. -/
def links (t : ReturnTrace) : List (Nat × Nat) :=
  t.nodes.map link

/-- The calls of a block, finished and unfinished. -/
def calls (block : BlockParameter ReturnTrace) : List ReturnTrace :=
  block.blockTraces ++ block.currentBlockCallStack.filterMap id

theorem blockNodes_eq (block : BlockParameter ReturnTrace) :
    blockNodes (some block) = (calls block).flatMap ReturnTrace.nodes := by
  have traces (ts : List ReturnTrace) : tracesNodes ts = ts.flatMap ReturnTrace.nodes := by
    induction ts with
    | nil => rfl
    | cons t ts ih => rw [tracesNodes, ih, List.flatMap_cons]
  have unfinished (cs : List (Option ReturnTrace)) : callsNodes cs = (cs.filterMap id).flatMap ReturnTrace.nodes := by
    induction cs with
    | nil => rfl
    | cons c cs ih => cases c <;> simp [callsNodes, ih]
  obtain ⟨name, tracepointId, blockTraces, currentBlockCallStack⟩ := block
  rw [blockNodes, traces, unfinished, calls, List.flatMap_append]

def blockLinks (block : BlockParameter ReturnTrace) : List (Nat × Nat) :=
  (calls block).flatMap links

theorem links_eq {t : ReturnTrace} {block : BlockParameter ReturnTrace} (atBlock : t.blockParam = some block) :
    links t = link t :: blockLinks block := by
  rw [links, ReturnTrace.nodes_eq, atBlock, blockNodes_eq, List.map_cons, List.map_flatMap]
  rfl

theorem links_of_fresh {t : ReturnTrace} (fresh : ∀ b ∈ t.blockParam, b.Fresh) : links t = [link t] := by
  rw [links, ReturnTrace.nodes_eq, blockNodes_fresh fresh]
  rfl

theorem links_congr {t u : ReturnTrace} (addr : u.addr = t.addr) (block : u.blockParam = t.blockParam) :
    links u = links t := by
  have same : link u = link t := by rw [link, link, addr, block]
  rw [links, links, ReturnTrace.nodes_eq, ReturnTrace.nodes_eq, List.map_cons, List.map_cons, same, block]

theorem mem_links {l : Nat × Nat} {t : ReturnTrace} : l ∈ links t ↔ ∃ n ∈ t.nodes, link n = l :=
  List.mem_map

/-- Writing a block that has gained calls adds them to the trace that has the block. -/
theorem links_setBlock {addr : Nat} {block block' : BlockParameter ReturnTrace} {new : List (Nat × Nat)}
    (same : block'.tracepointId = block.tracepointId) (gained : (blockLinks block').Perm (blockLinks block ++ new))
    {t : ReturnTrace} (once : (t.nodes.map (·.addr)).Nodup)
    (own : ∀ n ∈ t.nodes, n.addr = addr → n.blockParam = some block) (present : ∃ n ∈ t.nodes, n.addr = addr) :
    (links (t.setBlock addr block')).Perm (links t ++ new) := by
  induction t using ReturnTrace.block_induction with
  | step t ih =>
    by_cases here : t.addr = addr
    · have atBlock := own t (ReturnTrace.mem_nodes.mpr (.inl rfl)) here
      have written : (t.setBlock addr block').blockParam = some block' := by
        rw [ReturnTrace.setBlock_eq, if_pos here]
      have head : link (t.setBlock addr block') = link t := by
        rw [link, link, written, atBlock, ReturnTrace.setBlock_eq]
        simp only [tracepointOf, Option.map_some, Option.getD_some, same]
      rw [links_eq written, links_eq atBlock, head]
      exact gained.cons (link t)
    · obtain ⟨n, member, atAddr⟩ := present
      have below := (ReturnTrace.mem_nodes.mp member).resolve_left fun same => here (same ▸ atAddr)
      obtain ⟨b, atBlock, _⟩ := mem_blockNodes.mp below
      have atBlock : t.blockParam = some b := atBlock
      rw [atBlock, blockNodes_eq] at below
      have inside {c n : ReturnTrace} (call : c ∈ calls b) (under : n ∈ c.nodes) : n ∈ t.nodes := by
        rw [ReturnTrace.mem_nodes, atBlock, blockNodes_eq]
        exact .inr (List.mem_flatMap.mpr ⟨c, call, under⟩)
      rw [ReturnTrace.nodes_eq, atBlock, blockNodes_eq, List.map_cons, List.nodup_cons, List.map_flatMap,
        List.nodup_flatMap] at once
      have hypothesis {c : ReturnTrace} (call : c ∈ calls b) (present : ∃ n ∈ c.nodes, n.addr = addr) :
          (links (c.setBlock addr block')).Perm (links c ++ new) := by
        have unique := once.2.1 c call
        have blocks : ∀ n ∈ c.nodes, n.addr = addr → n.blockParam = some block :=
          fun n under => own n (inside call under)
        rcases List.mem_append.mp call with finished | unfinished
        · exact (ih b atBlock).1 c finished unique blocks present
        · exact (ih b atBlock).2 c (by simpa using unfinished) unique blocks present
      have grown : (((calls b).map (·.setBlock addr block')).flatMap links).Perm (blockLinks b ++ new) := by
        refine OneChange.perm_flatMap (p := fun c => ∃ n ∈ c.nodes, n.addr = addr) (fun c => hypothesis)
          (fun c _ absent => ?_) (once.2.2.imp fun {c d} apart both => ?_)
          (List.mem_flatMap.mp below |>.imp fun c ⟨call, under⟩ => ⟨call, n, under, atAddr⟩)
        · rw [ReturnTrace.setBlock_absent block' fun n under atN => absent ⟨n, under, atN⟩]
        · obtain ⟨⟨n, under, atN⟩, m, under', atM⟩ := both
          exact apart (List.mem_map.mpr ⟨n, under, atN⟩) (List.mem_map.mpr ⟨m, under', atM⟩)
      have written : (t.setBlock addr block').blockParam = some
          { b with
            blockTraces := b.blockTraces.map (·.setBlock addr block')
            currentBlockCallStack := b.currentBlockCallStack.map (Option.map (·.setBlock addr block')) } := by
        rw [ReturnTrace.setBlock_eq, if_neg here, atBlock]
        rfl
      have head : link (t.setBlock addr block') = link t := by
        rw [link, link, written, atBlock, ReturnTrace.setBlock_eq]
        rfl
      have mapped : (calls b).map (·.setBlock addr block') = b.blockTraces.map (·.setBlock addr block') ++
          (b.currentBlockCallStack.map (Option.map (·.setBlock addr block'))).filterMap id := by
        rw [calls, List.map_append, List.filterMap_map, List.map_filterMap]
        rfl
      rw [links_eq written, links_eq atBlock, head, blockLinks, calls, ← mapped]
      exact grown.cons (link t)

section
variable {κ : Type}

/-- No tracepoint is made. -/
def Quiet (g g' : Globals κ) : Prop :=
  g'.tracepoints = g.tracepoints ∧ g'.next = g.next

instance : Std.Refl (Quiet (κ := κ)) := ⟨fun _ => ⟨rfl, rfl⟩⟩

instance : IsTrans (Globals κ) Quiet :=
  ⟨fun _ _ _ first second => ⟨second.1.trans first.1, second.2.trans first.2⟩⟩

/-- The block of the trace has been assigned, with a tracepoint or without. -/
structure Followed (trace : Nat) (g g' : Globals κ) (block : Option (BlockParameter ReturnTrace)) : Prop where
  fresh : ∀ b ∈ block, b.Fresh
  next : g.next ≤ g'.next
  tracepoints : (tracepointOf block = 0 ∧ g'.tracepoints = g.tracepoints) ∨
    (g.next ≤ tracepointOf block ∧ tracepointOf block < g'.next ∧
      g'.tracepoints = g.tracepoints ++ [⟨tracepointOf block, trace⟩])

/-- The block entries of a parameter list; Ruby has one at most. -/
def OneBlock (args : Arguments κ) : Prop :=
  args.parameters.countP (·.1 = .block) ≤ 1

/-- The new links of a handler: none, or that of the trace it has made. -/
inductive Gains (g g' : Globals κ) : List (Nat × Nat) → Prop
  | nothing : g'.tracepoints = g.tracepoints → g.next ≤ g'.next → Gains g g' []
  | trace {block} : Followed g.next { g with next := g.next + 1 } g' block → Gains g g' [(g.next, tracepointOf block)]

/-- The links of owned and of queued traces, each of another address. Every
enabled tracepoint has an owned link. -/
structure Linked (owned queued : List (Nat × Nat)) (g : Globals κ) : Prop where
  distinct : ((owned ++ queued).map (·.1)).Nodup
  below : ∀ l ∈ owned ++ queued, l.1 < g.next
  positive : 0 < g.next
  tracepoints : ∀ tp ∈ g.tracepoints, tp.id ≠ 0 ∧ (tp.data, tp.id) ∈ owned

/-- No trace below this one has an enabled tracepoint. -/
def Unfollowed (s : Tracer κ) (t : ReturnTrace) : Prop :=
  ∀ n ∈ blockNodes t.blockParam, ∀ tp ∈ s.globals.tracepoints, tp.data ≠ n.addr

/-- A parameter list of Ruby has one block, and no trace that is given away has a
followed block below it. -/
def Admits (s : Tracer κ) : Event κ → Prop
  | .call _ e => OneBlock e.arguments
  | .blockCall _ e => OneBlock e.arguments
  | .ret fiber methodId _ => ∀ t ∈ ((s.stack fiber).getD []).head?, t.methodName = some methodId → Unfollowed s t
  | .stop => ∀ t ∈ openFrames s, Unfollowed s t
  | .rescue _ _ | .blockReturn _ _ | .start _ _ => True

/-- The links of the open frames and of the queue. -/
def Invariant (s : Tracer κ) : Prop :=
  Linked ((openFrames s).flatMap links) (s.queue.flatMap links) s.globals

theorem Followed.before {trace : Nat} {g g' g'' : Globals κ} {block : Option (BlockParameter ReturnTrace)}
    (quiet : Quiet g g') (followed : Followed trace g' g'' block) : Followed trace g g'' block := by
  obtain ⟨tracepoints, next⟩ := quiet
  exact ⟨followed.fresh, next ▸ followed.next, tracepoints ▸ next ▸ followed.tracepoints⟩

theorem Followed.after {trace : Nat} {g g' g'' : Globals κ} {block : Option (BlockParameter ReturnTrace)}
    (followed : Followed trace g g' block) (quiet : Quiet g' g'') : Followed trace g g'' block := by
  obtain ⟨tracepoints, next⟩ := quiet
  exact ⟨followed.fresh, next ▸ followed.next, tracepoints ▸ next ▸ followed.tracepoints⟩

theorem Followed.unfollowed {trace : Nat} {g : Globals κ} {block : Option (BlockParameter ReturnTrace)}
    (fresh : ∀ b ∈ block, b.Fresh) (id : tracepointOf block = 0) : Followed trace g g block :=
  ⟨fresh, le_rfl, .inl ⟨id, rfl⟩⟩

theorem followBlock_followed {trace : Nat} {name : String} {block : LocalBlock} {g g' : Globals κ}
    {b : BlockParameter ReturnTrace} (run : followBlock trace name block g = some (b, g')) :
    Followed trace g g' (some b) := by
  unfold followBlock at run
  split at run
  · cases run
    exact ⟨fun _ same => Option.some.inj same ▸ ⟨rfl, rfl⟩, le_rfl, .inl ⟨rfl, rfl⟩⟩
  · cases run
    exact ⟨fun _ same => Option.some.inj same ▸ ⟨rfl, rfl⟩, Nat.le_succ _, .inl ⟨rfl, rfl⟩⟩
  · cases run
    exact ⟨fun _ same => Option.some.inj same ▸ ⟨rfl, rfl⟩, Nat.le_succ _,
      .inr ⟨le_rfl, Nat.lt_succ_self _, rfl⟩⟩

theorem onConstants_quiet {α : Type} {m : StateT (Constants κ) Option α} {g : Globals κ} :
    Ensures Quiet g (onConstants m) fun _ _ => True := by
  intro a g' run
  unfold onConstants at run
  split at run
  next => cases run
  next =>
    cases run
    exact ⟨⟨rfl, rfl⟩, trivial⟩

section
variable {owned owned' queued queued' new : List (Nat × Nat)} {g g' : Globals κ}

theorem Linked.perm (linked : Linked owned queued g) (same : owned'.Perm owned) : Linked owned' queued g :=
  { distinct    := ((same.append_right queued).map (·.1)).nodup_iff.mpr linked.distinct
    below       := fun l member => linked.below l ((same.append_right queued).mem_iff.mp member)
    positive    := linked.positive
    tracepoints := fun tp member => (linked.tracepoints tp member).imp_right same.mem_iff.mpr }

theorem Linked.gain (linked : Linked owned queued g) (gains : Gains g g' new) : Linked (owned ++ new) queued g' := by
  cases gains with
  | nothing tracepoints next =>
    rw [List.append_nil]
    refine ⟨linked.distinct, fun l member => ?_, ?_, ?_⟩
    · have below := linked.below l member
      omega
    · have positive := linked.positive
      omega
    · rw [tracepoints]
      exact linked.tracepoints
  | @trace block followed =>
    have next : g.next + 1 ≤ g'.next := followed.next
    have rearranged : (owned ++ [(g.next, tracepointOf block)] ++ queued).Perm
        ((g.next, tracepointOf block) :: (owned ++ queued)) := by
      rw [List.append_assoc]
      exact List.perm_middle
    refine ⟨?_, fun l member => ?_, by omega, fun tp member => ?_⟩
    · rw [(rearranged.map (·.1)).nodup_iff, List.map_cons, List.nodup_cons]
      refine ⟨fun member => ?_, linked.distinct⟩
      obtain ⟨l, member, same⟩ := List.mem_map.mp member
      have below := linked.below l member
      omega
    · rcases List.mem_cons.mp (rearranged.mem_iff.mp member) with rfl | old
      · exact next
      · have below := linked.below l old
        omega
    · have old {tp : Tracepoint} (member : tp ∈ g.tracepoints) :
          tp.id ≠ 0 ∧ (tp.data, tp.id) ∈ owned ++ [(g.next, tracepointOf block)] :=
        (linked.tracepoints tp member).imp_right (List.mem_append_left _)
      rcases followed.tracepoints with ⟨_, same⟩ | ⟨above, _, more⟩
      · rw [same] at member
        exact old member
      · rw [more] at member
        rcases List.mem_append.mp member with before | made
        · exact old before
        · rw [List.mem_singleton.mp made]
          have above : g.next + 1 ≤ tracepointOf block := above
          exact ⟨by simp only; omega, List.mem_append_right _ (List.mem_singleton_self _)⟩

/-- Links whose tracepoints are disabled may be freed or queued. -/
theorem Linked.leave {gone : List (Nat × Nat)} (linked : Linked (gone ++ owned) queued g)
    (freed : List (Nat × Nat)) (moved : (gone ++ owned ++ queued).Perm (freed ++ (owned ++ queued')))
    (next : g'.next = g.next) (fewer : ∀ tp ∈ g'.tracepoints, tp ∈ g.tracepoints)
    (disabled : ∀ tp ∈ g'.tracepoints, (tp.data, tp.id) ∉ gone) : Linked owned queued' g' := by
  refine ⟨?_, fun l member => ?_, next ▸ linked.positive, fun tp member => ?_⟩
  · have all := ((moved.map (·.1)).nodup_iff.mp linked.distinct)
    rw [List.map_append] at all
    exact all.of_append_right
  · rw [next]
    exact linked.below l (moved.mem_iff.mpr (List.mem_append_right freed member))
  · obtain ⟨nonzero, here⟩ := linked.tracepoints tp (fewer tp member)
    exact ⟨nonzero, (List.mem_append.mp here).resolve_left (disabled tp member)⟩

end

/-- The frames beside a stack stay where it is replaced. -/
theorem setStack_perm (callStacks : List (Nat × List ReturnTrace)) (fiber : Nat) (stack : List ReturnTrace) :
    ∃ others, (callStacks.flatMap (·.2)).Perm ((callStacks.lookup fiber).getD [] ++ others) ∧
      ((setStack callStacks fiber stack).flatMap (·.2)).Perm (stack ++ others) := by
  induction callStacks with
  | nil => exact ⟨[], .nil, by simp [setStack]⟩
  | cons entry rest ih =>
    obtain ⟨f, old⟩ := entry
    by_cases same : f = fiber
    · subst same
      refine ⟨rest.flatMap (·.2), ?_, ?_⟩
      · rw [List.lookup_cons_self, List.flatMap_cons, Option.getD_some]
      · rw [setStack, if_pos rfl, List.flatMap_cons]
    · obtain ⟨others, split, written⟩ := ih
      have other : (fiber == f) = false := by simpa using Ne.symm same
      refine ⟨old ++ others, ?_, ?_⟩
      · rw [List.lookup_cons, other, List.flatMap_cons]
        exact (split.append_left old).trans (List.perm_append_comm_assoc ..)
      · rw [setStack, if_neg same, List.flatMap_cons]
        exact (written.append_left old).trans (List.perm_append_comm_assoc ..)

theorem pushed_links (s : Tracer κ) (fiber : Nat) (t : ReturnTrace) :
    (((setStack s.callStacks fiber (t :: (s.stack fiber).getD [])).flatMap (·.2)).flatMap links).Perm
      ((openFrames s).flatMap links ++ links t) := by
  obtain ⟨others, split, pushed⟩ := setStack_perm s.callStacks fiber (t :: (s.stack fiber).getD [])
  have frames : ((setStack s.callStacks fiber (t :: (s.stack fiber).getD [])).flatMap (·.2)).Perm
      (t :: openFrames s) :=
    pushed.trans (split.symm.cons t)
  exact (frames.flatMap_right links).trans List.perm_append_comm

theorem mem_disableBlock {tracepoints : List Tracepoint} {t : ReturnTrace} {tp : Tracepoint} :
    tp ∈ disableBlock tracepoints t ↔
      tp ∈ tracepoints ∧ (tracepointOf t.blockParam ≠ 0 → tp.id ≠ tracepointOf t.blockParam) := by
  unfold disableBlock tracepointOf disable
  cases t.blockParam with
  | none => simp
  | some block =>
    by_cases followed : block.tracepointId = 0 <;> simp [followed]

theorem mem_stop {frames : List ReturnTrace} {tracepoints : List Tracepoint} {tp : Tracepoint}
    (member : tp ∈ frames.foldl disableBlock tracepoints) :
    tp ∈ tracepoints ∧ ∀ t ∈ frames, tp ∈ disableBlock tracepoints t := by
  induction frames generalizing tracepoints with
  | nil => exact ⟨member, by simp⟩
  | cons t frames ih =>
    obtain ⟨first, later⟩ := ih member
    have before := (mem_disableBlock.mp first).1
    refine ⟨before, fun u inside => ?_⟩
    rcases List.mem_cons.mp inside with rfl | inside
    · exact first
    · exact mem_disableBlock.mpr ⟨before, (mem_disableBlock.mp (later u inside)).2⟩

theorem addrs_links (ts : List ReturnTrace) :
    (ts.flatMap links).map (·.1) = (ts.flatMap ReturnTrace.nodes).map (·.addr) := by
  rw [List.map_flatMap, List.map_flatMap]
  exact List.flatMap_congr fun t _ => List.map_map

section
variable {s s' : Tracer κ}

/-- A tracepoint that stays enabled is not linked to the trace whose own tracepoint is disabled. -/
theorem Unfollowed.disabled {t : ReturnTrace} (unfollowed : Unfollowed s t) {tp : Tracepoint} (nonzero : tp.id ≠ 0)
    (member : tp ∈ disableBlock s.globals.tracepoints t) : (tp.data, tp.id) ∉ links t := by
  obtain ⟨before, kept⟩ := mem_disableBlock.mp member
  intro linked
  obtain ⟨n, inside, same⟩ := mem_links.mp linked
  obtain ⟨atAddr, atId⟩ := Prod.mk.inj same
  rcases ReturnTrace.mem_nodes.mp inside with rfl | below
  · exact kept (atId ▸ nonzero) atId.symm
  · exact unfollowed n below tp before atAddr.symm

/-- A rescue marks a frame only. -/
theorem rescue_links (s : Tracer κ) (fiber : Nat) (methodId : Option String) :
    ((openFrames ((processRescuedEvent fiber methodId s).toOption.getD s)).flatMap links).Perm
        ((openFrames s).flatMap links) ∧
      ((processRescuedEvent fiber methodId s).toOption.getD s).queue = s.queue ∧
      ((processRescuedEvent fiber methodId s).toOption.getD s).globals = s.globals := by
  rcases processRescuedEvent_getD_spec (s := s) with same | ⟨t, stack, atTop, after⟩
  · rw [same]
    exact ⟨.refl _, rfl, rfl⟩
  · rw [after]
    obtain ⟨others, split, written⟩ := setStack_perm s.callStacks fiber ({ t with rescued := true } :: stack)
    have top : s.callStacks.lookup fiber = some (t :: stack) := atTop
    rw [top, Option.getD_some] at split
    have marked : links { t with rescued := true } = links t := links_congr rfl rfl
    refine ⟨(written.flatMap_right links).trans ?_, rfl, rfl⟩
    rw [List.cons_append, List.flatMap_cons, marked, ← List.flatMap_cons, ← List.cons_append]
    exact (split.flatMap_right links).symm

theorem Invariant.rescue {fiber : Nat} {methodId : Option String} (inv : Invariant s) :
    Invariant ((processRescuedEvent fiber methodId s).toOption.getD s) := by
  obtain ⟨frames, queue, globals⟩ := rescue_links s fiber methodId
  rw [Invariant, queue, globals]
  exact Linked.perm inv frames

theorem Invariant.stop (inv : Invariant s) (unfollowed : ∀ t ∈ openFrames s, Unfollowed s t) : Invariant s.stop := by
  have all : Linked ((openFrames s).flatMap links ++ []) (s.queue.flatMap links) s.globals := by
    rw [List.append_nil]
    exact inv
  refine all.leave ((openFrames s).flatMap links) (by simp [Tracer.stop, openFrames]) rfl
    (fun tp member => (mem_stop member).1) fun tp member linked => ?_
  obtain ⟨before, disabled⟩ := mem_stop member
  obtain ⟨t, inside, here⟩ := List.mem_flatMap.mp linked
  exact (unfollowed t inside).disabled (inv.tracepoints tp before).1 (disabled t inside) here

/-- An address is that of one trace. -/
theorem Invariant.distinct (inv : Invariant s) :
    ((s.owned ++ s.queue.flatMap ReturnTrace.nodes).map (·.addr)).Nodup := by
  have linked := Linked.distinct inv
  rw [← List.flatMap_append, addrs_links, List.flatMap_append] at linked
  exact linked

theorem Invariant.owned (inv : Invariant s) {tp : Tracepoint} (enabled : tp ∈ s.globals.tracepoints) :
    (∃ n ∈ s.owned, n.addr = tp.data) ∧ ∀ t ∈ s.queue.flatMap ReturnTrace.nodes, t.addr ≠ tp.data := by
  have distinct := inv.distinct
  rw [List.map_append] at distinct
  obtain ⟨n, owned, atAddr⟩ : ∃ n ∈ s.owned, n.addr = tp.data := by
    have linked := List.mem_map_of_mem (f := Prod.fst) (inv.tracepoints tp enabled).2
    rw [addrs_links] at linked
    exact List.mem_map.mp linked
  refine ⟨⟨n, owned, atAddr⟩, fun t queued here => ?_⟩
  have apart := List.disjoint_of_nodup_append distinct
  exact apart (List.mem_map_of_mem owned) (List.mem_map.mpr ⟨t, queued, here.trans atAddr.symm⟩)

/-- Writing the block of an enabled tracepoint adds the new links to a frame. -/
theorem Invariant.written (inv : Invariant s) {tp : Tracepoint} (member : tp ∈ s.globals.tracepoints)
    {trace : ReturnTrace} {block block' : BlockParameter ReturnTrace} {new : List (Nat × Nat)}
    (there : trace ∈ s.owned ++ s.queue.flatMap ReturnTrace.nodes) (here : trace.addr = tp.data)
    (atBlock : trace.blockParam = some block) (same : block'.tracepointId = block.tracepointId)
    (gained : (blockLinks block').Perm (blockLinks block ++ new)) :
    s.queue.map (·.setBlock tp.data block') = s.queue ∧
      (((openFrames s).map (·.setBlock tp.data block')).flatMap links).Perm
        ((openFrames s).flatMap links ++ new) := by
  have absent := (inv.owned member).2
  have distinct := inv.distinct
  rw [List.map_append] at distinct
  have inside : trace ∈ s.owned :=
    (List.mem_append.mp there).resolve_right fun queued => absent trace queued here
  have own : ∀ m ∈ s.owned, m.addr = tp.data → m.blockParam = some block := by
    intro m below atM
    have same := List.inj_on_of_nodup_map distinct.of_append_left below inside (atM.trans here.symm)
    rw [same, atBlock]
  have apart := distinct.of_append_left
  rw [Tracer.owned, List.map_flatMap, List.nodup_flatMap] at apart
  refine ⟨(List.map_congr_left fun t queued => ?_).trans (List.map_id _),
    OneChange.perm_flatMap (p := fun t => ∃ n ∈ t.nodes, n.addr = tp.data)
      (fun t framed present => ?_) (fun t _ missing => ?_) ?_ ?_⟩
  · exact ReturnTrace.setBlock_absent block' fun n below => absent n (List.mem_flatMap.mpr ⟨t, queued, below⟩)
  · exact links_setBlock same gained (apart.1 t framed)
      (fun m below => own m (List.mem_flatMap.mpr ⟨t, framed, below⟩)) present
  · rw [ReturnTrace.setBlock_absent block' fun n below atN => missing ⟨n, below, atN⟩]
  · refine apart.2.imp fun {t u} separate both => ?_
    obtain ⟨⟨n, below, atN⟩, m, under, atM⟩ := both
    exact separate (List.mem_map.mpr ⟨n, below, atN⟩) (List.mem_map.mpr ⟨m, under, atM⟩)
  · obtain ⟨f, framed, below⟩ := List.mem_flatMap.mp inside
    exact ⟨f, framed, trace, below, here⟩

theorem Invariant.block {addr : Nat}
    {handler : BlockParameter ReturnTrace → StateT (Globals κ) Option (BlockParameter ReturnTrace)}
    (inv : Invariant s) (enabled : ∃ tp ∈ s.globals.tracepoints, tp.data = addr)
    (handles : ∀ block block' g, handler block s.globals = some (block', g) → ∃ new, Gains s.globals g new ∧
      block'.tracepointId = block.tracepointId ∧ (blockLinks block').Perm (blockLinks block ++ new))
    (run : processBlockTracepoint addr handler s = some s') : Invariant s' := by
  obtain ⟨trace, found, ⟨_, rfl⟩ | ⟨block, block', g, atBlock, handled, rfl⟩⟩ := processBlockTracepoint_spec run
  · exact inv
  · obtain ⟨new, gains, same, gained⟩ := handles block block' g handled
    obtain ⟨tp, member, rfl⟩ := enabled
    have here : trace.addr = tp.data := by simpa using List.find?_some found
    obtain ⟨queue, grown⟩ := inv.written member (List.mem_of_find?_eq_some found) here atBlock same gained
    have frames : openFrames { s with
        globals := g
        callStacks := s.callStacks.map fun entry => (entry.1, entry.2.map (·.setBlock tp.data block'))
        queue := s.queue.map (·.setBlock tp.data block') } = (openFrames s).map (·.setBlock tp.data block') := by
      rw [openFrames, openFrames, List.map_flatMap, List.flatMap_map]
    rw [Invariant, frames, queue]
    exact (Linked.gain inv gains).perm grown

end

variable [DecidableEq κ] [Fintype κ] {h : Hierarchy κ}

theorem namedType_quiet (fuel : Nat) (maxGenericDepth : Int) (args : Arguments κ) (o : Objects κ) (name : String)
    {g : Globals κ} : Ensures Quiet g (namedType h fuel maxGenericDepth args o name) fun _ _ => True := by
  unfold namedType valueType
  split_ifs <;> exact onConstants_quiet

/-- Only the block parameter makes a tracepoint. -/
theorem assignParameter_quiet (fuel : Nat) (maxGenericDepth : Int) (trace : Nat) (args : Arguments κ) (o : Objects κ)
    {entry : ParameterKind × Option String} (other : entry.1 ≠ .block) {g : Globals κ} :
    Ensures Quiet g (assignParameter h fuel maxGenericDepth trace args o entry) fun a _ => ∀ b, a ≠ .block b := by
  obtain ⟨kind, name⟩ := entry
  cases name with
  | none =>
    cases kind with
    | req => exact onConstants_quiet.bind fun _ _ _ _ => .pure nofun
    | block => exact absurd rfl other
    | _ => exact .pure nofun
  | some name =>
    have typed := namedType_quiet (h := h) fuel maxGenericDepth args o name (g := g)
    cases kind with
    | block => exact absurd rfl other
    | _ => exact typed.bind fun _ _ _ _ => .pure nofun

theorem assignAll_quiet (fuel : Nat) (maxGenericDepth : Int) (trace : Nat) (args : Arguments κ) (o : Objects κ)
    {entries : List (ParameterKind × Option String)} (others : ∀ entry ∈ entries, entry.1 ≠ .block)
    (params : List Parameter) (block : Option (BlockParameter ReturnTrace)) {g : Globals κ} :
    Ensures Quiet g (assignAll h fuel maxGenericDepth trace args o entries params block) fun r _ => r.2 = block := by
  induction entries generalizing params g with
  | nil => exact .pure rfl
  | cons entry entries ih =>
    have rest := fun e member => others e (List.mem_cons_of_mem entry member)
    refine (assignParameter_quiet fuel maxGenericDepth trace args o (others entry List.mem_cons_self)).bind
      fun a g' _ noBlock => ?_
    cases a with
    | parameter p => exact ih rest (params ++ [p])
    | block b => exact absurd rfl (noBlock b)
    | skipped => exact ih rest params

theorem assignParameter_block (fuel : Nat) (maxGenericDepth : Int) (trace : Nat) (args : Arguments κ) (o : Objects κ)
    {entry : ParameterKind × Option String} (isBlock : entry.1 = .block) {g g' : Globals κ} {a : Assigned}
    (run : assignParameter h fuel maxGenericDepth trace args o entry g = some (a, g')) :
    (a = .skipped ∧ g' = g) ∨ ∃ b, a = .block b ∧ Followed trace g g' (some b) := by
  obtain ⟨kind, name⟩ := entry
  obtain rfl : kind = .block := isBlock
  cases name with
  | none =>
    cases run
    exact .inl ⟨rfl, rfl⟩
  | some name =>
    rw [assignParameter] at run
    by_cases anonymous : name = "&"
    · rw [if_pos anonymous] at run
      cases run
      exact .inr ⟨{}, rfl, .unfollowed (by simp [BlockParameter.Fresh]) rfl⟩
    · rw [if_neg anonymous] at run
      obtain ⟨b, g'', followed, rest⟩ := bind_eq_some.mp run
      cases rest
      exact .inr ⟨b, rfl, followBlock_followed followed⟩

/-- Where the parameters have one block at most, one tracepoint is made at most, and
the block of the trace has it. -/
theorem assignAll_followed (fuel : Nat) (maxGenericDepth : Int) (trace : Nat) (args : Arguments κ) (o : Objects κ)
    {entries : List (ParameterKind × Option String)} (one : entries.countP (·.1 = .block) ≤ 1)
    {params params' : List Parameter} {block : Option (BlockParameter ReturnTrace)} {g g' : Globals κ}
    (run : assignAll h fuel maxGenericDepth trace args o entries params none g = some ((params', block), g')) :
    Followed trace g g' block := by
  induction entries generalizing params g with
  | nil =>
    cases run
    exact .unfollowed (by simp) rfl
  | cons entry entries ih =>
    obtain ⟨a, g₁, assigned, rest⟩ := bind_eq_some.mp run
    by_cases isBlock : entry.1 = .block
    · rw [List.countP_cons_of_pos (by simpa using isBlock)] at one
      have others : ∀ e ∈ entries, e.1 ≠ .block := by
        have none : entries.countP (·.1 = .block) = 0 := by omega
        simpa [List.countP_eq_zero] using none
      rcases assignParameter_block fuel maxGenericDepth trace args o isBlock assigned with
        ⟨rfl, rfl⟩ | ⟨b, rfl, followed⟩
      · obtain ⟨quiet, same⟩ := assignAll_quiet fuel maxGenericDepth trace args o others params none _ _ rest
        obtain rfl : block = none := same
        exact .before quiet (.unfollowed (by simp) rfl)
      · obtain ⟨quiet, same⟩ := assignAll_quiet fuel maxGenericDepth trace args o others params (some b) _ _ rest
        obtain rfl : block = some b := same
        exact followed.after quiet
    · rw [List.countP_cons_of_neg (by simpa using isBlock)] at one
      obtain ⟨quiet, noBlock⟩ := assignParameter_quiet fuel maxGenericDepth trace args o isBlock _ _ assigned
      cases a with
      | parameter p => exact .before quiet (ih one rest)
      | block b => exact absurd rfl (noBlock b)
      | skipped => exact .before quiet (ih one rest)

theorem assignParameters_followed (fuel : Nat) (maxGenericDepth : Int) (trace : Nat) {args : Arguments κ}
    (o : Objects κ) (one : OneBlock args) {params : List Parameter} {block : Option (BlockParameter ReturnTrace)}
    {g g' : Globals κ}
    (run : assignParameters h fuel maxGenericDepth trace args o g = some ((params, block), g')) :
    Followed trace g g' block := by
  obtain ⟨⟨params', block'⟩, g₁, assigned, rest⟩ := bind_eq_some.mp run
  have followed := assignAll_followed fuel maxGenericDepth trace args o one assigned
  simp only at rest
  split at rest
  next missing =>
    cases rest
    obtain rfl : block' = none := Option.isNone_iff_eq_none.mp missing.1
    exact ⟨by simp [BlockParameter.Fresh], followed.next, followed.tracepoints⟩
  next =>
    cases rest
    exact followed

theorem processCallEvent_gains {fuel fiber : Nat} {e : CallEvent κ} {s s' : Tracer κ} (one : OneBlock e.arguments)
    (run : processCallEvent h fuel fiber e s = some s') :
    ∃ g new, Gains s.globals g new ∧ (s' = { s with globals := g } ∧ new = [] ∨ ∃ t, new = links t ∧
      s' = { s with
        globals := g
        callStacks := setStack s.callStacks fiber (t :: (s.stack fiber).getD []) }) := by
  unfold processCallEvent at run
  simp only at run
  split at run
  next => cases run
  next callee owner g header =>
    obtain ⟨⟨tracepoints, next⟩, _⟩ := onConstants_quiet _ _ header
    split at run
    next =>
      cases run
      exact ⟨g, [], .nothing tracepoints (by rw [next]; exact Nat.le_succ _), .inl ⟨rfl, rfl⟩⟩
    next =>
    split at run
    next => cases run
    next params blockParam g' assigned =>
      cases run
      have followed := assignParameters_followed fuel s.maxGenericDepth s.globals.next e.objects one assigned
      refine ⟨g', _, .trace (.before ⟨tracepoints, next⟩ followed), .inr ⟨_, ?_, rfl⟩⟩
      rw [links_of_fresh followed.fresh]
      rfl

theorem processBlockCallEvent_gains {fuel : Nat} {maxGenericDepth : Int} {e : BlockCallEvent κ}
    {block block' : BlockParameter ReturnTrace} {g g' : Globals κ} (one : OneBlock e.arguments)
    (run : processBlockCallEvent h fuel maxGenericDepth e block g = some (block', g')) :
    ∃ new, Gains g g' new ∧ block'.tracepointId = block.tracepointId ∧
      (blockLinks block').Perm (blockLinks block ++ new) ∧
      new.map (·.1) = if block.blockTraces.isEmpty && block.currentBlockCallStack.isEmpty then [g.next] else [] := by
  obtain ⟨name, tracepointId, blockTraces, currentBlockCallStack⟩ := block
  rcases processBlockCallEvent_spec run with ⟨recorded, rfl, rfl⟩ | ⟨rfl, ⟨call, calls, rfl⟩, rfl, rfl⟩ |
    ⟨rfl, rfl, params, blockParam, self, g₁, assigned, value, rfl⟩
  · exact ⟨[], .nothing rfl le_rfl, rfl, by rw [List.append_nil], by simp [recorded]⟩
  · exact ⟨[], .nothing rfl le_rfl, rfl, by simp [blockLinks, Tracepoints.calls], rfl⟩
  · have followed := assignParameters_followed fuel maxGenericDepth g.next e.objects one assigned
    obtain ⟨quiet, _⟩ := onConstants_quiet _ _ value
    refine ⟨_, .trace (followed.after quiet), rfl, ?_, rfl⟩
    have made := links_of_fresh (t := { addr := g.next, params, blockParam, blockSelfType := some self })
      followed.fresh
    simp [blockLinks, calls, made, link]

theorem processBlockReturnEvent_gains {fuel : Nat} {maxGenericDepth : Int} {e : ReturnEvent κ}
    {block block' : BlockParameter ReturnTrace} {g g' : Globals κ}
    (run : processBlockReturnEvent h fuel maxGenericDepth e block g = some (block', g')) :
    Gains g g' [] ∧ block'.tracepointId = block.tracepointId ∧ (blockLinks block').Perm (blockLinks block) := by
  obtain ⟨name, tracepointId, blockTraces, currentBlockCallStack⟩ := block
  rcases processBlockReturnEvent_spec run with ⟨_, rfl, rfl⟩ | ⟨rfl, stack, rfl, rfl, rfl⟩ |
    ⟨rfl, call, stack, returnType, rfl, value, rfl⟩
  · exact ⟨.nothing rfl le_rfl, rfl, .refl _⟩
  · exact ⟨.nothing rfl le_rfl, rfl, by simp [blockLinks, calls]⟩
  · obtain ⟨⟨tracepoints, next⟩, _⟩ := onConstants_quiet _ _ value
    refine ⟨.nothing tracepoints (by rw [next]), rfl, ?_⟩
    have kept : links { call with returnType } = links call := links_congr rfl rfl
    simp [blockLinks, calls, kept]

section
variable {s s' : Tracer κ}

theorem Invariant.call {fuel fiber : Nat} {e : CallEvent κ} (inv : Invariant s) (one : OneBlock e.arguments)
    (run : processCallEvent h fuel fiber e s = some s') : Invariant s' := by
  obtain ⟨g, new, gains, ⟨rfl, rfl⟩ | ⟨t, rfl, rfl⟩⟩ := processCallEvent_gains one run
  · have gained := Linked.gain inv gains
    rw [List.append_nil] at gained
    exact gained
  · exact (Linked.gain inv gains).perm (pushed_links s fiber t)

theorem Invariant.ret {fuel fiber : Nat} {methodId : String} {e : ReturnEvent κ} (inv : Invariant s)
    (admits : Admits s (.ret fiber methodId e)) (run : processReturnEvent h fuel fiber methodId e s = some s') :
    Invariant s' := by
  unfold processReturnEvent at run
  split at run
  next => cases run; exact inv
  next => cases run; exact inv
  next t stack atTop =>
    split at run
    next => cases run; exact inv
    next matching =>
    split at run
    next => cases run
    next returnType g value =>
      cases run
      obtain ⟨⟨tracepoints, next⟩, _⟩ := onConstants_quiet _ _ value
      have unfollowed : Unfollowed s t := admits t (by simp [atTop]) (not_not.mp matching)
      obtain ⟨others, split, popped⟩ := setStack_perm s.callStacks fiber stack
      have top : s.callStacks.lookup fiber = some (t :: stack) := atTop
      rw [top, Option.getD_some] at split
      have frames : ((openFrames s).flatMap links).Perm (links t ++ (stack ++ others).flatMap links) :=
        split.flatMap_right links
      have owned := Linked.perm inv frames.symm
      have left : Linked ((stack ++ others).flatMap links) (s.queue.flatMap links ++ links t)
          { g with
            tracepoints := disableBlock g.tracepoints t
            constants := { g.constants with constantUpdates := [] } } := by
        refine owned.leave [] ?_ next (fun tp member => ?_) fun tp member => ?_
        · rw [List.append_assoc]
          exact List.perm_append_comm.trans (by rw [List.nil_append, List.append_assoc])
        · exact tracepoints ▸ (mem_disableBlock.mp member).1
        · rw [tracepoints] at member
          exact unfollowed.disabled (inv.tracepoints tp (mem_disableBlock.mp member).1).1 member
      have queued : ∀ updates, links { t with returnType, constantUpdates := updates } = links t :=
        fun updates => links_congr rfl rfl
      rw [Invariant, List.flatMap_append, List.flatMap_singleton, queued]
      exact left.perm (popped.flatMap_right links)

theorem Invariant.step {event : Event κ} (inv : Invariant s) (admits : Admits s event) (step : Step h s event s') :
    Invariant s' := by
  obtain ⟨fuel, delivered⟩ := step
  cases event with
  | call fiber e =>
    simp only [deliver] at delivered
    split at delivered
    · exact inv.call admits delivered
    · cases delivered
  | ret fiber methodId e =>
    simp only [deliver] at delivered
    split at delivered
    · exact inv.ret admits delivered
    · cases delivered
  | rescue fiber methodId =>
    simp only [deliver] at delivered
    split at delivered <;> cases delivered
    exact inv.rescue
  | blockCall addr e =>
    simp only [deliver] at delivered
    split at delivered
    · refine inv.block ‹_› (fun block block' g handled => ?_) delivered
      obtain ⟨new, gains, same, gained, _⟩ := processBlockCallEvent_gains admits handled
      exact ⟨new, gains, same, gained⟩
    · cases delivered
  | blockReturn addr e =>
    simp only [deliver] at delivered
    split at delivered
    · refine inv.block ‹_› (fun block block' g handled => ?_) delivered
      obtain ⟨gains, same, kept⟩ := processBlockReturnEvent_gains handled
      exact ⟨[], gains, same, by rwa [List.append_nil]⟩
    · cases delivered
  | start maxGenericDepth connects =>
    cases delivered
    unfold Tracer.start
    simp only
    split <;> exact inv
  | stop =>
    cases delivered
    exact inv.stop admits

end

omit [DecidableEq κ] [Fintype κ] in
theorem Invariant.init : Invariant ({} : Tracer κ) :=
  ⟨List.nodup_nil, nofun, Nat.one_pos, nofun⟩

/-- As long as no trace that is given away has a followed block below it, every
enabled tracepoint refers to a trace that the tracer owns. -/
theorem enabled_tracepoints_owned {s : Tracer κ}
    (run : Run (fun a b => ∃ event : Event κ, Admits a event ∧ Step h a event b) {} s) :
    ∀ tp ∈ s.globals.tracepoints,
      (∃ n ∈ s.owned, n.addr = tp.data) ∧ ∀ t ∈ s.queue.flatMap ReturnTrace.nodes, t.addr ≠ tp.data := by
  have inv : Invariant s := run.invariant (fun a b inv ⟨event, admits, step⟩ => inv.step admits step) .init
  exact fun tp => inv.owned

omit [DecidableEq κ] [Fintype κ] in
instance (s : Tracer κ) (event : Event κ) : Decidable (Admits s event) :=
  match event with
  | .call _ e => inferInstanceAs (Decidable (e.arguments.parameters.countP (·.1 = .block) ≤ 1))
  | .blockCall _ e => inferInstanceAs (Decidable (e.arguments.parameters.countP (·.1 = .block) ≤ 1))
  | .ret fiber methodId _ =>
    inferInstanceAs (Decidable (∀ t ∈ ((s.stack fiber).getD []).head?, t.methodName = some methodId →
      ∀ n ∈ blockNodes t.blockParam, ∀ tp ∈ s.globals.tracepoints, tp.data ≠ n.addr))
  | .stop =>
    inferInstanceAs (Decidable (∀ t ∈ openFrames s,
      ∀ n ∈ blockNodes t.blockParam, ∀ tp ∈ s.globals.tracepoints, tp.data ≠ n.addr))
  | .rescue _ _ | .blockReturn _ _ | .start _ _ => inferInstanceAs (Decidable True)

end

/-- The block of the module function is called with a block, and both are followed
until the function returns. -/
theorem enabled_tracepoints_owned_nested : ∃ s : Tracer (Sample × Bool), s.globals.tracepoints.length = 2 ∧
    ∀ tp ∈ s.globals.tracepoints,
      (∃ n ∈ s.owned, n.addr = tp.data) ∧ ∀ t ∈ s.queue.flatMap ReturnTrace.nodes, t.addr ≠ tp.data := by
  have counts : ((nestedBlocks.take 4).foldlM
      (fun s event => if Admits s event then deliver flatSample 2 s event else none) {}).map
      (fun s => s.globals.tracepoints.length) = some 2 := by decide +kernel
  obtain ⟨s, run, length⟩ := Option.map_eq_some_iff.mp counts
  refine ⟨s, length, enabled_tracepoints_owned (h := flatSample)
    (Relation.ReflTransGen.mono (fun a b ⟨event, delivered⟩ => ?_) _ _ (Run.of_foldlM run))⟩
  split at delivered
  · exact ⟨event, ‹_›, 2, delivered⟩
  · cases delivered

/-- The tracepoint of the inner block stays enabled: its trace is in the queue once the
function has returned, and has been freed where the tracer is stopped instead. -/
theorem inner_tracepoint_stays :
    (∃ s : Tracer (Sample × Bool), Run (fun a b => ∃ event : Event (Sample × Bool), Step flatSample a event b) {} s ∧
      ∃ tp ∈ s.globals.tracepoints, ∃ t ∈ s.queue.flatMap ReturnTrace.nodes, t.addr = tp.data) ∧
    ∃ s : Tracer (Sample × Bool), Run (fun a b => ∃ event : Event (Sample × Bool), Step flatSample a event b) {} s ∧
      ∃ tp ∈ s.globals.tracepoints, ∀ t ∈ s.owned ++ s.queue.flatMap ReturnTrace.nodes, t.addr ≠ tp.data := by
  have reached {events : List (Event (Sample × Bool))} {s : Tracer (Sample × Bool)}
      (run : events.foldlM (deliver flatSample 2) {} = some s) :
      Run (fun a b => ∃ event : Event (Sample × Bool), Step flatSample a event b) {} s :=
    Relation.ReflTransGen.mono (fun a b ⟨event, delivered⟩ => ⟨event, 2, delivered⟩) _ _ (Run.of_foldlM run)
  constructor
  · have queued : (nestedBlocks.foldlM (deliver flatSample 2) {}).map (fun s => decide
        (∃ tp ∈ s.globals.tracepoints, ∃ t ∈ s.queue.flatMap ReturnTrace.nodes, t.addr = tp.data)) =
        some true := by decide +kernel
    obtain ⟨s, run, stays⟩ := Option.map_eq_some_iff.mp queued
    exact ⟨s, reached run, of_decide_eq_true stays⟩
  · have freed : ((nestedBlocks.take 4 ++ [Event.stop]).foldlM (deliver flatSample 2) {}).map
        (fun s : Tracer (Sample × Bool) => decide (∃ tp ∈ s.globals.tracepoints,
          ∀ t ∈ s.owned ++ s.queue.flatMap ReturnTrace.nodes, t.addr ≠ tp.data)) =
        some true := by decide +kernel
    obtain ⟨s, run, stays⟩ := Option.map_eq_some_iff.mp freed
    exact ⟨s, reached run, of_decide_eq_true stays⟩

end Racer.Tracepoints
