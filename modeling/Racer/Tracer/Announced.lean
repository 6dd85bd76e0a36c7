import Racer.Library.Announcements
import Racer.Library.Transition
import Racer.Tracer.Nodes

namespace Racer

mutual

/-- The names that a recorded block trace mentions. -/
def ReturnTrace.blockTraceMentions (t : ReturnTrace) : List String :=
  match t with
  | { params, returnType, blockSelfType, blockParam, .. } =>
    params.flatMap (·.typeName.names) ++ returnType.names ++ blockSelfType.toList.flatMap (·.names) ++
      blockMentions blockParam

/-- Unfinished block calls are not sent. -/
def blockMentions : Option (BlockParameter ReturnTrace) → List String
  | none => []
  | some { blockTraces, .. } => blockTracesMentions blockTraces

def blockTracesMentions : List ReturnTrace → List String
  | [] => []
  | t :: traces => t.blockTraceMentions ++ blockTracesMentions traces

end

/-- The names that a queued trace mentions. -/
def ReturnTrace.mentions (t : ReturnTrace) : List String :=
  t.methodOwner.names ++ t.methodCallee.toList.flatMap (·.names) ++ t.returnType.names ++
    t.params.flatMap (·.typeName.names) ++ blockMentions t.blockParam ++ t.constantUpdates.flatMap (·.mentions)

def ReturnTrace.announces (t : ReturnTrace) : List String :=
  t.constantUpdates.map (·.name)

end Racer

namespace Racer.Announced
open Announcements Transition

/-! Every name in the queue is announced before it is used. -/

inductive Event (κ : Type)
  | call (fiber : Nat) (e : CallEvent κ)
  | ret (fiber : Nat) (methodId : String) (e : ReturnEvent κ)
  | rescue (fiber : Nat) (methodId : Option String)
  | blockCall (trace : Nat) (e : BlockCallEvent κ)
  | blockReturn (trace : Nat) (e : ReturnEvent κ)
  | start (maxGenericDepth : Int) (connects : Bool)
  | stop

section
variable {κ : Type}

/-- No block event is delivered to a trace that is already in the queue. -/
def SparesQueue (s : Tracer κ) : Event κ → Prop
  | .blockCall addr _ | .blockReturn addr _ => ∀ t ∈ s.queue.flatMap ReturnTrace.nodes, t.addr ≠ addr
  | .call _ _ | .ret _ _ _ | .rescue _ _ | .start _ _ | .stop => True

section
variable [DecidableEq κ] [Fintype κ]

/-- Deliver an event; none where its tracepoint is not enabled, or its handler has
not returned. An exception in the handler of a rescue leaves all as it is. -/
def deliver (h : Hierarchy κ) (fuel : Nat) (s : Tracer κ) : Event κ → Option (Tracer κ)
  | .call fiber e => if s.tpCall = some true then processCallEvent h fuel fiber e s else none
  | .ret fiber methodId e => if s.tpCall = some true then processReturnEvent h fuel fiber methodId e s else none
  | .rescue fiber methodId =>
    if s.tpCall = some true then some ((processRescuedEvent fiber methodId s).toOption.getD s) else none
  | .blockCall addr e =>
    if ∃ tp ∈ s.globals.tracepoints, tp.data = addr then
      processBlockTracepoint addr (processBlockCallEvent h fuel s.maxGenericDepth e) s
    else none
  | .blockReturn addr e =>
    if ∃ tp ∈ s.globals.tracepoints, tp.data = addr then
      processBlockTracepoint addr (processBlockReturnEvent h fuel s.maxGenericDepth e) s
    else none
  | .start maxGenericDepth connects => some (s.start maxGenericDepth connects)
  | .stop => some s.stop

def Step (h : Hierarchy κ) (s : Tracer κ) (event : Event κ) (t : Tracer κ) : Prop :=
  ∃ fuel, deliver h fuel s event = some t

end

/-- What a trace mentions by itself, and what the recorded calls of its block return. -/
structure Inside (P : String → Prop) (t : ReturnTrace) : Prop where
  params : ∀ p ∈ t.params, ∀ n ∈ p.typeName.names, P n
  selfType : ∀ i ∈ t.blockSelfType, ∀ n ∈ i.names, P n
  returned : ∀ b ∈ t.blockParam, ∀ r ∈ b.blockTraces, ∀ n ∈ r.returnType.names, P n

structure InsideBlock (P : String → Prop) (b : BlockParameter ReturnTrace) : Prop where
  returned : ∀ r ∈ b.blockTraces, ∀ n ∈ r.returnType.names, P n
  below : ∀ n ∈ blockNodes (some b), Inside P n

/-- A frame of a call stack. -/
structure Framed (P : String → Prop) (t : ReturnTrace) : Prop where
  constantUpdates : t.constantUpdates = []
  owner : ∀ n ∈ t.methodOwner.names, P n
  callee : ∀ i ∈ t.methodCallee, ∀ n ∈ i.names, P n
  nodes : ∀ n ∈ t.nodes, Inside P n

def openFrames (s : Tracer κ) : List ReturnTrace :=
  s.callStacks.flatMap (·.2)

/-- The map, the pending updates, the open frames and the queue. -/
structure Invariant (h : Hierarchy κ) (s : Tracer κ) : Prop where
  named : Named h s.globals.constants
  pushed : ∀ k, s.globals.constants.constantMap k ≠ none ↔ k ∈ s.shipped ++ s.globals.constants.constantUpdates
  once : (s.shipped ++ s.globals.constants.constantUpdates).Nodup
  delivered : s.queue.flatMap (·.constantUpdates) = s.shipped.filterMap s.globals.constants.constantMap
  records : ∀ k c, s.globals.constants.constantMap k = some c → Mentioned h s.globals.constants c
  frames : ∀ t ∈ openFrames s, Framed (Known h s.globals.constants) t
  ordered : Ordered ReturnTrace.announces ReturnTrace.mentions s.queue

variable {P Q : String → Prop}

theorem Inside.mono {t : ReturnTrace} (inside : Inside P t) (weaker : ∀ n, P n → Q n) : Inside Q t :=
  ⟨fun p member n mentioned => weaker n (inside.params p member n mentioned),
    fun i member n mentioned => weaker n (inside.selfType i member n mentioned),
    fun b member r recorded n mentioned => weaker n (inside.returned b member r recorded n mentioned)⟩

theorem Framed.mono {t : ReturnTrace} (framed : Framed P t) (weaker : ∀ n, P n → Q n) : Framed Q t :=
  ⟨framed.constantUpdates, fun n mentioned => weaker n (framed.owner n mentioned),
    fun i member n mentioned => weaker n (framed.callee i member n mentioned),
    fun n member => (framed.nodes n member).mono weaker⟩

theorem Inside.block {t : ReturnTrace} {b : BlockParameter ReturnTrace} (nodes : ∀ n ∈ t.nodes, Inside P n)
    (atBlock : b ∈ t.blockParam) : InsideBlock P b := by
  have same : t.blockParam = some b := atBlock
  refine ⟨(nodes t (ReturnTrace.mem_nodes.mpr (.inl rfl))).returned b atBlock, fun n member => nodes n ?_⟩
  exact ReturnTrace.mem_nodes.mpr (.inr (same ▸ member))

theorem Inside.setBlock {t : ReturnTrace} {block : BlockParameter ReturnTrace} (inside : Inside P t)
    (written : InsideBlock P block) (addr : Nat) : Inside P (t.setBlock addr block) := by
  rw [ReturnTrace.setBlock_eq]
  refine ⟨inside.params, inside.selfType, fun b atBlock r member => ?_⟩
  simp only at atBlock
  split at atBlock
  next =>
    cases atBlock
    exact written.returned r member
  next =>
    obtain ⟨old, atOld, rfl⟩ := Option.mem_map.mp atBlock
    obtain ⟨before, recorded, rfl⟩ := List.mem_map.mp member
    obtain ⟨blockParam, same⟩ := before.setBlock_frame addr block
    rw [same]
    exact inside.returned old atOld before recorded

theorem Framed.setBlock {t : ReturnTrace} {block : BlockParameter ReturnTrace} (framed : Framed P t)
    (written : InsideBlock P block) (addr : Nat) : Framed P (t.setBlock addr block) := by
  have nodes : ∀ n ∈ (t.setBlock addr block).nodes, Inside P n := by
    intro n member
    rcases ReturnTrace.mem_nodes_setBlock member with new | ⟨m, old, rfl⟩
    · exact written.below n new
    · exact (framed.nodes m old).setBlock written addr
  obtain ⟨blockParam, same⟩ := t.setBlock_frame addr block
  rw [same] at nodes ⊢
  exact ⟨framed.constantUpdates, framed.owner, framed.callee, nodes⟩

/-- What is said about the traces below a trace does not depend on its own fields. -/
theorem nodes_congr {t u : ReturnTrace} (nodes : ∀ n ∈ t.nodes, Inside P n) (block : u.blockParam = t.blockParam)
    (inside : Inside P u) : ∀ n ∈ u.nodes, Inside P n := by
  intro n member
  rcases ReturnTrace.mem_nodes.mp member with rfl | below
  · exact inside
  · exact nodes n (ReturnTrace.mem_nodes.mpr (.inr (block ▸ below)))

theorem blockNodes_fresh {block : Option (BlockParameter ReturnTrace)} (fresh : ∀ b ∈ block, b.Fresh) :
    blockNodes block = [] := by
  refine List.eq_nil_iff_forall_not_mem.mpr fun n member => ?_
  obtain ⟨b, atBlock, below⟩ := mem_blockNodes.mp member
  obtain ⟨traces, calls⟩ := fresh b atBlock
  simp [traces, calls] at below

/-- A trace whose block has not been called yet mentions what it has itself. -/
theorem nodes_fresh {t : ReturnTrace} (fresh : ∀ b ∈ t.blockParam, b.Fresh)
    (params : ∀ p ∈ t.params, ∀ n ∈ p.typeName.names, P n) (selfType : ∀ i ∈ t.blockSelfType, ∀ n ∈ i.names, P n) :
    ∀ n ∈ t.nodes, Inside P n := by
  intro n member
  rw [ReturnTrace.nodes_eq, blockNodes_fresh fresh, List.mem_singleton] at member
  subst member
  refine ⟨params, selfType, fun b atBlock r recorded => ?_⟩
  rw [(fresh b atBlock).1] at recorded
  cases recorded

theorem blockTraceMentions_subset (t : ReturnTrace) (nodes : ∀ n ∈ t.nodes, Inside P n) :
    ∀ n ∈ blockMentions t.blockParam, P n := by
  induction t using ReturnTrace.block_induction with
  | step t ih =>
    intro n member
    cases atBlock : t.blockParam with
    | none => simp [atBlock, blockMentions] at member
    | some b =>
      rw [atBlock, blockMentions] at member
      have recorded : ∀ traces : List ReturnTrace, (∀ r ∈ traces, r ∈ b.blockTraces) →
          n ∈ blockTracesMentions traces → P n := by
        intro traces subset mentioned
        induction traces with
        | nil => cases mentioned
        | cons r traces more =>
          rcases List.mem_append.mp mentioned with first | later
          · have here := subset r List.mem_cons_self
            have below : ∀ m ∈ r.nodes, Inside P m := fun m inside => nodes m
              (ReturnTrace.mem_nodes.mpr (.inr (mem_blockNodes.mpr ⟨b, atBlock, .inl ⟨r, here, inside⟩⟩)))
            have own := below r (ReturnTrace.mem_nodes.mpr (.inl rfl))
            have deeper := (ih b atBlock).1 r here below n
            have returned := (nodes t (ReturnTrace.mem_nodes.mpr (.inl rfl))).returned b atBlock r here n
            cases r
            simp only [ReturnTrace.blockTraceMentions, List.mem_append, List.mem_flatMap, Option.mem_toList] at first
            rcases first with ((⟨p, inside, mentioned⟩ | mentioned) | ⟨i, inside, mentioned⟩) | mentioned
            · exact own.params p inside n mentioned
            · exact returned mentioned
            · exact own.selfType i inside n mentioned
            · exact deeper mentioned
          · exact more (fun r member => subset r (List.mem_cons_of_mem _ member)) later
      exact recorded b.blockTraces (fun _ inside => inside) member

theorem mem_setStack_frames {callStacks : List (Nat × List ReturnTrace)} {fiber : Nat} {stack : List ReturnTrace}
    {t : ReturnTrace} (member : t ∈ (setStack callStacks fiber stack).flatMap (·.2)) :
    t ∈ stack ∨ t ∈ callStacks.flatMap (·.2) := by
  induction callStacks with
  | nil => exact .inl (by simpa [setStack] using member)
  | cons entry rest ih =>
    obtain ⟨f, old⟩ := entry
    unfold setStack at member
    split at member
    · rcases List.mem_append.mp member with new | later
      · exact .inl new
      · exact .inr (List.mem_append_right old later)
    · rcases List.mem_append.mp member with here | later
      · exact .inr (List.mem_append_left _ here)
      · exact (ih later).imp_right (List.mem_append_right old)

theorem mem_stack_frames {s : Tracer κ} {fiber : Nat} {t : ReturnTrace} (member : t ∈ (s.stack fiber).getD []) :
    t ∈ openFrames s := by
  unfold Tracer.stack at member
  unfold openFrames
  generalize s.callStacks = callStacks at member
  induction callStacks with
  | nil => simp at member
  | cons entry rest ih =>
    obtain ⟨f, old⟩ := entry
    by_cases same : fiber = f
    · subst same
      rw [List.lookup_cons_self] at member
      exact List.mem_append_left _ member
    · have other : (fiber == f) = false := by simpa using same
      simp only [List.lookup_cons, other] at member
      exact List.mem_append_right old (ih member)

theorem mem_top_frames {s : Tracer κ} {fiber : Nat} {stack : List ReturnTrace} (atTop : s.stack fiber = some stack) :
    ∀ t ∈ stack, t ∈ openFrames s := by
  intro t member
  have below : t ∈ (s.stack fiber).getD [] := by rwa [atTop]
  exact mem_stack_frames below

section
variable [DecidableEq κ] {h : Hierarchy κ}

omit [DecidableEq κ] in
/-- The step of a block keeps what is said about its traces. -/
theorem InsideBlock.step {g g' : Globals κ} {block block' : BlockParameter ReturnTrace}
    (step : BlockStep h g g' block block') (inside : InsideBlock (Known h g'.constants) block) :
    InsideBlock (Known h g'.constants) block' := by
  have calls {b : BlockParameter ReturnTrace} {n : ReturnTrace} (member : n ∈ blockNodes (some b)) :
      (∃ t ∈ b.blockTraces, n ∈ t.nodes) ∨ ∃ t, some t ∈ b.currentBlockCallStack ∧ n ∈ t.nodes := by
    simpa [mem_blockNodes] using member
  have old {n : ReturnTrace} (member : (∃ t ∈ block.blockTraces, n ∈ t.nodes) ∨
      ∃ t, some t ∈ block.currentBlockCallStack ∧ n ∈ t.nodes) : Inside (Known h g'.constants) n :=
    inside.below n (by simpa [mem_blockNodes] using member)
  cases step with
  | kept => exact inside
  | @called t traces _ new =>
    refine ⟨inside.returned, fun n member => ?_⟩
    rcases calls member with recorded | ⟨c, here, below⟩
    · exact old (.inl recorded)
    · obtain rfl : c = t := by simpa using here
      obtain ⟨self, selfType, known⟩ := new.selfType
      refine nodes_fresh new.fresh new.params (fun i member => ?_) n below
      rw [selfType] at member
      cases member
      exact known
  | calledInside _ calling =>
    refine ⟨inside.returned, fun n member => ?_⟩
    rcases calls member with recorded | ⟨c, here, below⟩
    · exact old (.inl recorded)
    · exact old (.inr ⟨c, by simpa [calling] using here, below⟩)
  | returnedInside _ calling =>
    refine ⟨inside.returned, fun n member => ?_⟩
    rcases calls member with recorded | ⟨c, here, below⟩
    · exact old (.inl recorded)
    · exact old (.inr ⟨c, by rw [calling]; exact List.mem_cons_of_mem none here, below⟩)
  | @returned call rest returnType _ calling known =>
    refine ⟨fun r member => ?_, fun n member => ?_⟩
    · rw [List.mem_singleton.mp member]
      exact known
    · rcases calls member with ⟨r, recorded, below⟩ | ⟨c, here, below⟩
      · rw [List.mem_singleton.mp recorded] at below
        have nodes : ∀ m ∈ call.nodes, Inside (Known h g'.constants) m :=
          fun m under => old (.inr ⟨call, by rw [calling]; exact List.mem_cons_self, under⟩)
        have own := nodes call (ReturnTrace.mem_nodes.mpr (.inl rfl))
        refine nodes_congr (t := call) (u := { call with returnType }) nodes rfl
          ⟨own.params, own.selfType, own.returned⟩ n below
      · exact old (.inr ⟨c, by rw [calling]; exact List.mem_cons_of_mem _ here, below⟩)

/-- The constants of an invariant state may grow. -/
theorem Invariant.grow {s : Tracer κ} {g : Globals κ} (inv : Invariant h s) (anchored : Anchored h)
    (grows : Globals.Grows h s.globals g) : Invariant h { s with globals := g } := by
  obtain ⟨new, explored⟩ := grows.constants.explored
  have known {k : κ} (pushed : k ∈ s.shipped ++ s.globals.constants.constantUpdates) :
      g.constants.constantMap k = s.globals.constants.constantMap k := explored.keeps ((inv.pushed k).mpr pushed)
  refine ⟨grows.named inv.named, fun k => ?_, ?_, ?_, fun k c atK => ?_, fun t member => ?_, inv.ordered⟩
  · rw [explored.updates, ← List.append_assoc, List.mem_append, ← inv.pushed k]
    by_cases recent : k ∈ new
    · obtain ⟨c, atK, _⟩ := explored.named k recent
      simp [atK, recent]
    · rw [explored.frame k recent]
      simp [recent]
  · rw [explored.updates, ← List.append_assoc]
    refine inv.once.append explored.nodup fun k early late => ?_
    exact (inv.pushed k).mpr early (explored.fresh k late)
  · refine inv.delivered.trans (List.filterMap_congr fun k shipped => ?_)
    exact (known (List.mem_append_left _ shipped)).symm
  · by_cases recent : s.globals.constants.constantMap k = none
    · exact grows.constants.settled anchored inv.named k recent c atK
    · rw [explored.keeps recent] at atK
      exact (inv.records k c atK).mono fun d there => by rw [explored.keeps there]; exact there
  · exact (inv.frames t member).mono fun n => Racer.Grows.known grows.constants

omit [DecidableEq κ] in
/-- A name of the map is announced in the queue or by what is pending. -/
theorem Invariant.announced {s : Tracer κ} (inv : Invariant h s) {n : String} (known : Known h s.globals.constants n) :
    (∃ t ∈ s.queue, n ∈ t.announces) ∨
      ∃ c ∈ s.globals.constants.constantUpdates.filterMap s.globals.constants.constantMap, c.name = n := by
  obtain ⟨k, there, rfl⟩ := known
  obtain ⟨c, atK⟩ := Option.ne_none_iff_exists'.mp there
  have name := inv.named k c atK
  rcases List.mem_append.mp ((inv.pushed k).mp there) with shipped | pending
  · have delivered : c ∈ s.queue.flatMap (·.constantUpdates) := by
      rw [inv.delivered]
      exact List.mem_filterMap.mpr ⟨k, shipped, atK⟩
    obtain ⟨t, queued, announces⟩ := List.mem_flatMap.mp delivered
    exact .inl ⟨t, queued, List.mem_map.mpr ⟨c, announces, name⟩⟩
  · exact .inr ⟨c, List.mem_filterMap.mpr ⟨k, pending, atK⟩, name⟩

theorem Invariant.call [Fintype κ] {s s' : Tracer κ} {fuel fiber : Nat} {e : CallEvent κ} (inv : Invariant h s)
    (anchored : Anchored h) (run : processCallEvent h fuel fiber e s = some s') : Invariant h s' := by
  obtain ⟨g, grows, ⟨_, rfl⟩ | ⟨_, t, called, new, rfl⟩⟩ := processCallEvent_spec inv.named run
  · exact inv.grow anchored grows
  · have grown := inv.grow anchored grows
    refine ⟨grown.named, grown.pushed, grown.once, grown.delivered, grown.records, fun u member => ?_, grown.ordered⟩
    rcases mem_setStack_frames member with stack | old
    · rcases List.mem_cons.mp stack with rfl | below
      · refine ⟨new.constantUpdates, new.known _ ?_, fun i callee => new.known i ?_,
          nodes_fresh new.fresh (fun p param => new.known _ ?_) ?_⟩
        · simp [ReturnTrace.types]
        · simp [ReturnTrace.types, Option.mem_def.mp callee]
        · exact List.mem_append_right _ (List.mem_map_of_mem param)
        · rw [new.blockSelfType]
          nofun
      · exact grown.frames u (mem_stack_frames (s := s) below)
    · exact grown.frames u old

theorem Invariant.ret [Fintype κ] {s s' : Tracer κ} {fuel fiber : Nat} {methodId : String} {e : ReturnEvent κ}
    (inv : Invariant h s) (anchored : Anchored h) (run : processReturnEvent h fuel fiber methodId e s = some s') :
    Invariant h s' := by
  rcases processReturnEvent_spec inv.named run with
    ⟨rfl, _⟩ | ⟨t, stack, returnType, g, atTop, _, grows, _, returned, rfl⟩
  · exact inv
  · have grown := inv.grow anchored grows
    have onStack := mem_top_frames atTop
    have framed := grown.frames t (onStack t List.mem_cons_self)
    let updates := g.constants.constantUpdates.filterMap g.constants.constantMap
    let queued : ReturnTrace := { t with returnType, constantUpdates := t.constantUpdates ++ updates }
    have announced : ∀ n, Known h g.constants n → ∃ u ∈ s.queue ++ [queued], n ∈ u.announces := by
      intro n known
      rcases grown.announced known with ⟨u, early, announces⟩ | ⟨c, pending, name⟩
      · exact ⟨u, List.mem_append_left _ early, announces⟩
      · refine ⟨queued, List.mem_append_right _ (List.mem_singleton_self _), List.mem_map.mpr ⟨c, ?_, name⟩⟩
        exact List.mem_append_right _ pending
    refine ⟨grown.named, fun k => ?_, ?_, ?_, grown.records, fun u member => ?_,
      grown.ordered.snoc fun n mentioned => ?_⟩
    · rw [List.append_nil]
      exact grown.pushed k
    · rw [List.append_nil]
      exact grown.once
    · simp only [List.flatMap_append, List.filterMap_append, List.flatMap_cons, List.flatMap_nil, List.append_nil,
        framed.constantUpdates, List.nil_append]
      exact congrArg (· ++ updates) grown.delivered
    · rcases mem_setStack_frames member with below | old
      · exact grown.frames u (onStack u (List.mem_cons_of_mem t below))
      · exact grown.frames u old
    · refine announced n ?_
      have own := framed.nodes t (ReturnTrace.mem_nodes.mpr (.inl rfl))
      simp only [ReturnTrace.mentions, List.mem_append, List.mem_flatMap, Option.mem_toList] at mentioned
      rcases mentioned with ((((owner | ⟨i, callee, name⟩) | value) | ⟨p, param, name⟩) | block) | ⟨c, update, name⟩
      · exact framed.owner n owner
      · exact framed.callee i callee n name
      · exact returned n value
      · exact own.params p param n name
      · exact blockTraceMentions_subset t framed.nodes n block
      · simp only [framed.constantUpdates, List.not_mem_nil, false_or] at update
        obtain ⟨k, _, atK⟩ := List.mem_filterMap.mp update
        exact grown.records k c atK n name

omit [DecidableEq κ] in
theorem Invariant.rescue {s : Tracer κ} {fiber : Nat} {methodId : Option String} (inv : Invariant h s) :
    Invariant h ((processRescuedEvent fiber methodId s).toOption.getD s) := by
  rcases processRescuedEvent_getD_spec (s := s) with same | ⟨t, stack, atTop, marked⟩
  · rw [same]
    exact inv
  · rw [marked]
    have onStack := mem_top_frames atTop
    refine ⟨inv.named, inv.pushed, inv.once, inv.delivered, inv.records, fun u member => ?_, inv.ordered⟩
    rcases mem_setStack_frames member with below | old
    · rcases List.mem_cons.mp below with rfl | below
      · have framed := inv.frames t (onStack t List.mem_cons_self)
        have own := framed.nodes t (ReturnTrace.mem_nodes.mpr (.inl rfl))
        exact ⟨framed.constantUpdates, framed.owner, framed.callee,
          nodes_congr framed.nodes rfl ⟨own.params, own.selfType, own.returned⟩⟩
      · exact inv.frames u (onStack u (List.mem_cons_of_mem t below))
    · exact inv.frames u old

/-- A block event that spares the queue writes to a trace below a frame. -/
theorem Invariant.block {s s' : Tracer κ} {addr : Nat}
    {handler : BlockParameter ReturnTrace → StateT (Globals κ) Option (BlockParameter ReturnTrace)}
    (inv : Invariant h s) (anchored : Anchored h) (spares : ∀ t ∈ s.queue.flatMap ReturnTrace.nodes, t.addr ≠ addr)
    (ensures : ∀ block, Stateful.Ensures (Globals.Grows h) s.globals (handler block) fun block' g =>
      BlockStep h s.globals g block block')
    (run : processBlockTracepoint addr handler s = some s') : Invariant h s' := by
  obtain ⟨trace, found, ⟨_, rfl⟩ | ⟨block, block', g, atBlock, handled, rfl⟩⟩ := processBlockTracepoint_spec run
  · exact inv
  · obtain ⟨grows, step⟩ := ensures block block' g handled
    have grown := inv.grow anchored grows
    obtain ⟨f, framed, below⟩ : ∃ f ∈ openFrames s, trace ∈ f.nodes := by
      have here : trace.addr = addr := by simpa using List.find?_some found
      rcases List.mem_append.mp (List.mem_of_find?_eq_some found) with owned | queued
      · exact List.mem_flatMap.mp owned
      · exact absurd here (spares trace queued)
    have nodes : ∀ n ∈ trace.nodes, Inside (Known h g.constants) n := fun n member =>
      (grown.frames f framed).nodes n (ReturnTrace.nodes_trans below member)
    have written := (Inside.block nodes atBlock).step step
    have queue : s.queue.map (·.setBlock addr block') = s.queue := by
      refine (List.map_congr_left fun t member => ?_).trans (List.map_id _)
      exact ReturnTrace.setBlock_absent block' fun n inside => spares n (List.mem_flatMap.mpr ⟨t, member, inside⟩)
    simp only [queue]
    refine ⟨grown.named, grown.pushed, grown.once, grown.delivered, grown.records, fun u member => ?_, grown.ordered⟩
    obtain ⟨entry, mapped, inside⟩ := List.mem_flatMap.mp member
    obtain ⟨old, stacked, rfl⟩ := List.mem_map.mp mapped
    obtain ⟨t, before, rfl⟩ := List.mem_map.mp inside
    exact (grown.frames t (List.mem_flatMap.mpr ⟨old, stacked, before⟩)).setBlock written addr

theorem Invariant.step [Fintype κ] {s s' : Tracer κ} {event : Event κ} (inv : Invariant h s) (anchored : Anchored h)
    (spares : SparesQueue s event) (step : Step h s event s') : Invariant h s' := by
  obtain ⟨fuel, delivered⟩ := step
  cases event with
  | call fiber e =>
    simp only [deliver] at delivered
    split at delivered
    · exact inv.call anchored delivered
    · cases delivered
  | ret fiber methodId e =>
    simp only [deliver] at delivered
    split at delivered
    · exact inv.ret anchored delivered
    · cases delivered
  | rescue fiber methodId =>
    simp only [deliver] at delivered
    split at delivered <;> cases delivered
    exact inv.rescue
  | blockCall addr e =>
    simp only [deliver] at delivered
    split at delivered
    · exact inv.block anchored spares
        (fun block => processBlockCallEvent_ensures fuel s.maxGenericDepth e block inv.named) delivered
    · cases delivered
  | blockReturn addr e =>
    simp only [deliver] at delivered
    split at delivered
    · exact inv.block anchored spares
        (fun block => processBlockReturnEvent_ensures fuel s.maxGenericDepth e block inv.named) delivered
    · cases delivered
  | start maxGenericDepth connects =>
    cases delivered
    unfold Tracer.start
    simp only
    split <;> exact ⟨inv.named, inv.pushed, inv.once, inv.delivered, inv.records, inv.frames, inv.ordered⟩
  | stop =>
    cases delivered
    exact ⟨inv.named, inv.pushed, inv.once, inv.delivered, inv.records, nofun, inv.ordered⟩

omit [DecidableEq κ] in
theorem Invariant.init : Invariant h ({} : Tracer κ) :=
  { named     := nofun
    pushed    := fun k => by simp
    once      := List.nodup_nil
    delivered := rfl
    records   := nofun
    frames    := nofun
    ordered   := .nil }

/-- In an anchored hierarchy, and as long as no block event reaches a trace in the
queue, every name is announced before it is used, and every constant once. -/
theorem announced_before_use [Fintype κ] (anchored : Anchored h) {s : Tracer κ}
    (run : Run (fun a b => ∃ event : Event κ, SparesQueue a event ∧ Step h a event b) {} s) :
    Ordered ReturnTrace.announces ReturnTrace.mentions s.queue ∧
      (s.shipped ++ s.globals.constants.constantUpdates).Nodup ∧
      s.queue.flatMap (·.constantUpdates) = s.shipped.filterMap s.globals.constants.constantMap := by
  have inv : Invariant h s :=
    run.invariant (fun a b inv ⟨event, spares, step⟩ => inv.step anchored spares step) .init
  exact ⟨inv.ordered, inv.once, inv.delivered⟩

omit [DecidableEq κ] in
instance (s : Tracer κ) (event : Event κ) : Decidable (SparesQueue s event) :=
  match event with
  | .blockCall addr _ | .blockReturn addr _ =>
    inferInstanceAs (Decidable (∀ t ∈ s.queue.flatMap ReturnTrace.nodes, t.addr ≠ addr))
  | .call _ _ | .ret _ _ _ | .rescue _ _ | .start _ _ | .stop => inferInstanceAs (Decidable True)

end

end

/-- The small program with `A::B::C` under the name `C`. -/
def flatSample : Hierarchy (Sample × Bool) :=
  { sample with modName := fun k => if k = (.C, false) then some "C" else sample.modName k }

theorem flatSample_anchored : Anchored flatSample := by
  intro k broken
  have resolves : ∀ k, namespaceResolves flatSample flatSample.cObject (namespaceOf flatSample k) = true := by
    decide +kernel
  rw [Broken, resolves k] at broken
  cases broken

def noObjects : Objects (Sample × Bool) where
  objClass _ := (.Object, false)
  array _ := []
  hash _ := []

/-- Nothing but a block is passed. -/
def blockArguments : Arguments (Sample × Bool) where
  parameters := [(.block, some "block")]
  localVariable _ := .object 8
  localBlock _ := .proc true
  blockGiven := true

/-- A call of a module function of the module below `A`. -/
def moduleCall : CallEvent (Sample × Bool) where
  methodId := "run"
  definedClass := (.C, true)
  attachedObject := some (.constant (.C, false))
  self := .constant (.C, false)
  methodDefined _ := true
  publicMethodDefined _ := true
  privateMethodDefined _ := false
  arguments := blockArguments
  objects := noObjects

def innerCall : BlockCallEvent (Sample × Bool) where
  self := .object 8
  arguments := blockArguments
  objects := noObjects

/-- The module function is called with a block, which is called with a block of its own. -/
def nestedBlocks : List (Event (Sample × Bool)) :=
  [.start 1 true, .call 0 moduleCall, .blockCall 1 innerCall, .blockReturn 1 ⟨.object 8, noObjects⟩,
    .ret 0 "run" ⟨.object 8, noObjects⟩]

/-- Each of the two conditions is needed. `A` copies the name of `A::B::C` before the
namespace of that name turns out to be broken; and the inner block is called, and
returns `A`, when its trace is already in the queue. -/
theorem used_before_announced :
    (∃ s : Tracer (Sample × Bool),
      Run (fun a b => ∃ event : Event (Sample × Bool), SparesQueue a event ∧ Step sample a event b) {} s ∧
        ¬ Ordered ReturnTrace.announces ReturnTrace.mentions s.queue) ∧
      ∃ s : Tracer (Sample × Bool), Run (fun a b => ∃ event : Event (Sample × Bool), Step flatSample a event b) {} s ∧
        ¬ Ordered ReturnTrace.announces ReturnTrace.mentions s.queue := by
  constructor
  · have names : ([Event.start 1 true, .call 0 moduleCall, .ret 0 "run" ⟨.object 8, noObjects⟩].foldlM
        (fun s event => if SparesQueue s event then deliver sample 2 s event else none) {}).map
        (fun s => decide ("A::B::C" ∈ s.queue.flatMap (·.mentions) ∧ "A::B::C" ∉ s.queue.flatMap (·.announces))) =
        some true := by decide +kernel
    obtain ⟨s, run, unannounced⟩ := Option.map_eq_some_iff.mp names
    obtain ⟨used, absent⟩ := of_decide_eq_true unannounced
    refine ⟨s, Relation.ReflTransGen.mono (fun a b ⟨event, delivered⟩ => ?_) _ _ (Run.of_foldlM run),
      fun ordered => absent (ordered.announced used)⟩
    split at delivered
    · exact ⟨event, ‹_›, 2, delivered⟩
    · cases delivered
  · have names : ((nestedBlocks ++
        [Event.blockCall 3 innerCall, Event.blockReturn 3 ⟨.constant (.A, false), noObjects⟩]).foldlM
        (deliver flatSample 2) {}).map
        (fun s => decide ("A" ∈ s.queue.flatMap (·.mentions) ∧ "A" ∉ s.queue.flatMap (·.announces))) =
        some true := by decide +kernel
    obtain ⟨s, run, unannounced⟩ := Option.map_eq_some_iff.mp names
    obtain ⟨used, absent⟩ := of_decide_eq_true unannounced
    exact ⟨s, Relation.ReflTransGen.mono (fun a b ⟨event, delivered⟩ => ⟨event, 2, delivered⟩) _ _ (Run.of_foldlM run),
      fun ordered => absent (ordered.announced used)⟩

/-- The same program up to the return of the module function. -/
theorem announced_before_use_blocks : ∃ s : Tracer (Sample × Bool), s.queue.length = 1 ∧
    Ordered ReturnTrace.announces ReturnTrace.mentions s.queue := by
  have counts : (nestedBlocks.foldlM
      (fun s event => if SparesQueue s event then deliver flatSample 2 s event else none) {}).map
      (fun s => s.queue.length) = some 1 := by decide +kernel
  obtain ⟨s, run, length⟩ := Option.map_eq_some_iff.mp counts
  refine ⟨s, length, (announced_before_use flatSample_anchored
    (Relation.ReflTransGen.mono (fun a b ⟨event, delivered⟩ => ?_) _ _ (Run.of_foldlM run))).1⟩
  split at delivered
  · exact ⟨event, ‹_›, 2, delivered⟩
  · cases delivered

end Racer.Announced
