import Racer.Tracer.Bookkeeping
import Racer.Tracer.Depth

namespace Racer

/-- Only arrays and hashes have generic arguments: the types of the elements, or those of the
keys and those of the values. -/
inductive ConstantInstance.Regular {κ : Type} (h : Hierarchy κ) : ConstantInstance → Prop
  | plain {name singleton} : Regular h { name, singleton }
  | array {types} : types ≠ [] → (∀ c ∈ types, Regular h c) →
      Regular h { name := finalName h h.cArray, genericArguments := [types] }
  | hash {keys values} : keys ≠ [] → values ≠ [] → (∀ c ∈ keys, Regular h c) → (∀ c ∈ values, Regular h c) →
      Regular h { name := finalName h h.cHash, genericArguments := [keys, values] }

/-- All types that a trace records beside those of its block. -/
def ReturnTrace.recordedTypes (t : ReturnTrace) : List ConstantInstance :=
  t.types ++ t.returnType :: t.blockSelfType.toList

/-- Parameters that share no slot: there is one rest of each kind, and no keyword twice. -/
def SingleParameters (params : List Parameter) : Prop :=
  params.Pairwise fun p q => p.paramType = q.paramType → p.paramType ≠ .REST ∧ p.paramType ≠ .KEYWORD_REST ∧
    (p.paramType = .KEYWORD_REQUIRED ∨ p.paramType = .KEYWORD_OPTIONAL → p.name ≠ q.name)

namespace Shapes
open Announced Blocks Stateful Transition

/-! What the traces of a process look like, whatever is called in it. -/

/-- The entries of a parameter list of Ruby. -/
def SingleEntries (entries : List (ParameterKind × Option String)) : Prop :=
  entries.Pairwise fun p q => p.1 = q.1 → p.1 ≠ .rest ∧ p.1 ≠ .keyrest ∧
    (p.1 = .keyreq ∨ p.1 = .key → p.2 ≠ q.2)

section
variable {κ : Type}

/-- Ruby reports parameters that share no slot. -/
def Reports : Announced.Event κ → Prop
  | .call _ e => SingleEntries e.arguments.parameters
  | .blockCall _ e => SingleEntries e.arguments.parameters
  | .ret _ _ _ | .rescue _ _ | .blockReturn _ _ | .start _ _ | .stop => True

/-- `reported` stands for what Ruby is to report. -/
structure Shaped (h : Hierarchy κ) (reported : Prop) (t : ReturnTrace) : Prop where
  regular : ∀ c ∈ t.recordedTypes, c.Regular h
  single : reported → SingleParameters t.params

structure Invariant (h : Hierarchy κ) (reported : Prop) (s : Tracer κ) : Prop where
  named : Named h s.globals.constants
  shaped : ∀ n ∈ nodes s, Shaped h reported n

end

section
variable {κ : Type} {h : Hierarchy κ} {reported : Prop} {s t : Tracer κ}

/-- A trace that differs in what is not looked at. -/
theorem Shaped.congr {t u : ReturnTrace} (shaped : Shaped h reported t) (types : u.recordedTypes = t.recordedTypes)
    (params : u.params = t.params) : Shaped h reported u :=
  ⟨types ▸ shaped.regular, params ▸ shaped.single⟩

theorem Shaped.returned {t : ReturnTrace} (shaped : Shaped h reported t) {returnType : ConstantInstance}
    (regular : returnType.Regular h) (updates : List Constant) :
    Shaped h reported { t with returnType, constantUpdates := updates } := by
  have before := shaped.regular
  refine ⟨?_, shaped.single⟩
  simp only [ReturnTrace.recordedTypes, ReturnTrace.types, List.forall_mem_append, List.forall_mem_cons] at before ⊢
  exact ⟨before.1, regular, before.2.2⟩

/-- A handler that writes one stack and appends to the queue. -/
theorem shaped_of_setStack {P : ReturnTrace → Prop} (before : ∀ n ∈ nodes s, P n) {fiber : Nat}
    {stack : List ReturnTrace} (frames : t.callStacks = setStack s.callStacks fiber stack)
    (onStack : ∀ u ∈ stack, ∀ n ∈ u.nodes, P n) (queued : ∀ u ∈ t.queue, u ∈ s.queue ∨ ∀ n ∈ u.nodes, P n) :
    ∀ n ∈ nodes t, P n := by
  intro n member
  rcases mem_nodes_cases member with ⟨u, frame, below⟩ | ⟨u, inQueue, below⟩
  · rw [openFrames, frames] at frame
    rcases mem_setStack_frames frame with written | old
    · exact onStack u written n below
    · exact before n (mem_nodes_of_frame old below)
  · rcases queued u inQueue with old | new
    · exact before n (mem_nodes_of_queue old below)
    · exact new n below

/-- A frame that is written back with other own fields. -/
theorem shaped_nodes {f u : ReturnTrace} (below : ∀ n ∈ f.nodes, Shaped h reported n)
    (block : u.blockParam = f.blockParam) (own : Shaped h reported f → Shaped h reported u) :
    ∀ n ∈ u.nodes, Shaped h reported n := by
  intro n member
  rcases ReturnTrace.mem_nodes.mp member with rfl | under
  · exact own (below f (ReturnTrace.mem_nodes.mpr (.inl rfl)))
  · exact below n (ReturnTrace.mem_nodes.mpr (.inr (block ▸ under)))

theorem Invariant.init : Invariant h reported ({} : Tracer κ) :=
  ⟨by simp [Named], by simp [nodes, Tracer.owned]⟩

theorem Invariant.frame (inv : Invariant h reported s) {f : ReturnTrace} (frame : f ∈ openFrames s) :
    ∀ n ∈ f.nodes, Shaped h reported n :=
  fun n below => inv.shaped n (mem_nodes_of_frame frame below)

theorem Invariant.rescue {fiber : Nat} {methodId : Option String} (inv : Invariant h reported s) :
    Invariant h reported ((processRescuedEvent fiber methodId s).toOption.getD s) := by
  rcases processRescuedEvent_getD_spec (s := s) with same | ⟨f, stack, atTop, marked⟩
  · rwa [same]
  · rw [marked]
    have onStack := mem_top_frames atTop
    refine ⟨inv.named, shaped_of_setStack inv.shaped rfl (fun u top => ?_) fun u old => .inl old⟩
    rcases List.mem_cons.mp top with rfl | under
    · exact shaped_nodes (inv.frame (onStack f List.mem_cons_self)) rfl fun shaped => shaped.congr rfl rfl
    · exact inv.frame (onStack u (List.mem_cons_of_mem f under))

/-- What may be a call of a block after an event: an old call, a new one, or one that has returned. -/
inductive Renews (h : Hierarchy κ) (reported : Prop) (block : BlockParameter ReturnTrace) : ReturnTrace → Prop
  | kept {call} : call ∈ block.blockTraces ∨ some call ∈ block.currentBlockCallStack → Renews h reported block call
  | called {call} : Shaped h reported call → (∀ b ∈ call.blockParam, b.Fresh) → Renews h reported block call
  | returned {call returnType} : some call ∈ block.currentBlockCallStack → returnType.Regular h →
      Renews h reported block { call with returnType }

theorem Renews.shaped (inv : Invariant h reported s) {trace call : ReturnTrace} {block : BlockParameter ReturnTrace}
    (there : trace ∈ nodes s) (atBlock : trace.blockParam = some block) (renews : Renews h reported block call) :
    ∀ n ∈ call.nodes, Shaped h reported n := by
  have old {c : ReturnTrace} (call : c ∈ block.blockTraces ∨ some c ∈ block.currentBlockCallStack) :
      ∀ n ∈ c.nodes, Shaped h reported n := by
    refine fun n below => inv.shaped n (mem_nodes_below there (mem_blockNodes.mpr ⟨block, atBlock, ?_⟩))
    exact call.imp (fun recorded => ⟨c, recorded, below⟩) fun pending => ⟨c, pending, below⟩
  cases renews with
  | kept call => exact old call
  | called shaped fresh =>
    intro n below
    rw [ReturnTrace.nodes_eq, blockNodes_fresh fresh, List.mem_singleton] at below
    exact below ▸ shaped
  | returned pending regular => exact shaped_nodes (old (.inr pending)) rfl fun shaped => shaped.returned regular _

/-- An event of a block that renews its calls. -/
theorem Invariant.block {addr : Nat}
    {handler : BlockParameter ReturnTrace → StateT (Globals κ) Option (BlockParameter ReturnTrace)}
    (inv : Invariant h reported s) (handles : ∀ block block' g, handler block s.globals = some (block', g) →
      Named h g.constants ∧
        ∀ c, c ∈ block'.blockTraces ∨ some c ∈ block'.currentBlockCallStack → Renews h reported block c)
    (run : processBlockTracepoint addr handler s = some t) : Invariant h reported t := by
  obtain ⟨trace, found, ⟨_, rfl⟩ | ⟨block, block', g, atBlock, ran, rfl⟩⟩ := processBlockTracepoint_spec run
  · exact inv
  · have there : trace ∈ nodes s := List.mem_of_find?_eq_some found
    obtain ⟨named, renews⟩ := handles block block' g ran
    refine ⟨named, fun n member => ?_⟩
    rcases mem_nodes_written (by exact openFrames_written s addr block') rfl member with below | ⟨m, before, rfl⟩
    · obtain ⟨b, same, ⟨c, recorded, under⟩ | ⟨c, pending, under⟩⟩ := mem_blockNodes.mp below
      · cases Option.mem_def.mp same
        exact (renews c (.inl recorded)).shaped inv there atBlock n under
      · cases Option.mem_def.mp same
        exact (renews c (.inr pending)).shaped inv there atBlock n under
    · rw [ReturnTrace.setBlock_eq]
      exact (inv.shaped m before).congr rfl rfl

end

section
variable {κ : Type} [DecidableEq κ] {h : Hierarchy κ}

section
variable {P : ConstantInstance → Prop} {typeOf : Value κ → Option ConstantInstance} {objClass : Value κ → κ}

theorem addType_ne_nil (klass : κ) (constant : ConstantInstance) {types : List κ × List ConstantInstance}
    (started : types.2 = [] → types.1 = []) : (addType klass constant types).2 ≠ [] := by
  unfold addType
  split_ifs with _ known
  · intro none
    rw [started none] at known
    cases known
  all_goals
    exact List.append_ne_nil_of_right_ne_nil _ (List.cons_ne_nil _ _)

/-- The union of a list that is not empty. -/
theorem arrayTypes_shape (each : ∀ item i, typeOf item = some i → P i) {items : List (Value κ)}
    {types : List κ × List ConstantInstance} {r : List ConstantInstance} (started : types.2 = [] → types.1 = [])
    (old : ∀ i ∈ types.2, P i) (run : arrayTypes typeOf objClass items types = some r) :
    (∀ i ∈ r, P i) ∧ (types.2 ≠ [] ∨ items ≠ [] → r ≠ []) := by
  induction items generalizing types with
  | nil =>
    cases run
    exact ⟨old, fun given => given.resolve_right fun items => items rfl⟩
  | cons item items ih =>
    obtain ⟨constant, ran, rest⟩ := Option.bind_eq_some_iff.mp run
    have added := addType_ne_nil (objClass item) constant started
    obtain ⟨all, some⟩ := ih (fun none => (added none).elim) (addType_forall old (each item constant ran)) rest
    exact ⟨all, fun _ => some (.inl added)⟩

theorem hashTypes_shape (each : ∀ item i, typeOf item = some i → P i) {items : List (Value κ × Value κ)}
    {keys values : List κ × List ConstantInstance} {r : List ConstantInstance × List ConstantInstance}
    (startedKeys : keys.2 = [] → keys.1 = []) (startedValues : values.2 = [] → values.1 = [])
    (oldKeys : ∀ i ∈ keys.2, P i) (oldValues : ∀ i ∈ values.2, P i)
    (run : hashTypes typeOf objClass items keys values = some r) :
    ((∀ i ∈ r.1, P i) ∧ ∀ i ∈ r.2, P i) ∧ (keys.2 ≠ [] ∧ values.2 ≠ [] ∨ items ≠ [] → r.1 ≠ [] ∧ r.2 ≠ []) := by
  induction items generalizing keys values with
  | nil =>
    cases run
    exact ⟨⟨oldKeys, oldValues⟩, fun given => given.resolve_right fun items => items rfl⟩
  | cons item items ih =>
    obtain ⟨key, value⟩ := item
    obtain ⟨keyConstant, ranKey, rest⟩ := Option.bind_eq_some_iff.mp run
    obtain ⟨valueConstant, ranValue, rest⟩ := Option.bind_eq_some_iff.mp rest
    have addedKey := addType_ne_nil (objClass key) keyConstant startedKeys
    have addedValue := addType_ne_nil (objClass value) valueConstant startedValues
    obtain ⟨all, some⟩ := ih (fun none => (addedKey none).elim) (fun none => (addedValue none).elim)
      (addType_forall oldKeys (each key keyConstant ranKey))
      (addType_forall oldValues (each value valueConstant ranValue)) rest
    exact ⟨all, fun _ => some (.inl ⟨addedKey, addedValue⟩)⟩

end

theorem regular_of_generics {typeOf : Value κ → Option ConstantInstance} {o : Objects κ} {maxGenericDepth depth : Int}
    {value : Value κ} {generics : List (List ConstantInstance)}
    (each : ∀ item i, typeOf item = some i → i.Regular h)
    (run : genericArgumentsByValue h typeOf o maxGenericDepth value depth = some generics) :
    ConstantInstance.Regular h { name := finalName h (value.objClass h o), genericArguments := generics } := by
  unfold genericArgumentsByValue at run
  split_ifs at run with _ array elements hash entries
  · cases run
    exact .plain
  · cases run
    exact .plain
  · obtain ⟨types, ran, rest⟩ := Option.bind_eq_some_iff.mp run
    cases rest
    obtain ⟨all, full⟩ := arrayTypes_shape each (fun _ => rfl) (by simp) ran
    rw [array]
    exact .array (full (.inr elements)) all
  · cases run
    exact .plain
  · obtain ⟨types, ran, rest⟩ := Option.bind_eq_some_iff.mp run
    cases rest
    obtain ⟨⟨keys, values⟩, full⟩ := hashTypes_shape each (fun _ => rfl) (fun _ => rfl) (by simp) (by simp) ran
    obtain ⟨fullKeys, fullValues⟩ := full (.inr entries)
    rw [hash]
    exact .hash fullKeys fullValues keys values
  · cases run
    exact .plain

theorem typeOfValue_regular {o : Objects κ} {maxGenericDepth depth : Int} {fuel : Nat} {value : Value κ}
    {c : ConstantInstance} (run : typeOfValue h o maxGenericDepth fuel value depth = some c) : c.Regular h := by
  induction fuel generalizing value depth c with
  | zero => cases run
  | succ fuel ih =>
    unfold typeOfValue at run
    split at run
    · cases run
      exact .plain
    · obtain ⟨generics, ran, rest⟩ := Option.bind_eq_some_iff.mp run
      cases rest
      exact regular_of_generics (fun item i computed => ih computed) ran

theorem expectedType_regular {fuel : Nat} {maxGenericDepth : Int} {args : Arguments κ} {o : Objects κ} {name : String}
    {c : ConstantInstance} (run : expectedType h fuel maxGenericDepth args o name = some c) : c.Regular h := by
  unfold expectedType at run
  split_ifs at run
  · cases run
    exact .plain
  · cases run
    exact .plain
  · exact typeOfValue_regular run

/-- The parameter of an entry is of its kind and name, and its type is regular. -/
theorem expectedParameter_shape {fuel : Nat} {maxGenericDepth : Int} {args : Arguments κ} {o : Objects κ}
    {entry : ParameterKind × Option String} {p : Parameter}
    (run : expectedParameter h fuel maxGenericDepth args o entry = some (some p)) :
    p.typeName.Regular h ∧ entry.1.paramType = some p.paramType ∧ p.name = entry.2 := by
  obtain ⟨kind, name⟩ := entry
  cases name with
  | none =>
    cases kind <;> cases run
    exact ⟨.plain, rfl, rfl⟩
  | some name =>
    have typed (run : (do
        let typeName ← expectedType h fuel maxGenericDepth args o name
        some (kind.paramType.map fun paramType => { name, typeName, paramType })) = some (some p)) :
        p.typeName.Regular h ∧ kind.paramType = some p.paramType ∧ p.name = some name := by
      obtain ⟨c, computed, rest⟩ := Option.bind_eq_some_iff.mp run
      obtain ⟨type, found, rfl⟩ := Option.map_eq_some_iff.mp (Option.some.inj rest)
      exact ⟨expectedType_regular computed, found, rfl⟩
    cases kind with
    | block => cases run
    | _ => exact typed run

theorem paramType_injective {k l : ParameterKind} {type : ParamType} (first : k.paramType = some type)
    (second : l.paramType = some type) : k = l := by
  cases k <;> cases first <;> cases l <;> first | rfl | cases second

theorem expectedParameters_shape {fuel : Nat} {maxGenericDepth : Int} {args : Arguments κ} {o : Objects κ}
    {entries : List (ParameterKind × Option String)} {params : List Parameter}
    (run : expectedParameters h fuel maxGenericDepth args o entries = some params) :
    (∀ p ∈ params, p.typeName.Regular h ∧ ∃ entry ∈ entries, entry.1.paramType = some p.paramType ∧ p.name = entry.2) ∧
      (SingleEntries entries → SingleParameters params) := by
  induction entries generalizing params with
  | nil =>
    cases run
    exact ⟨by simp, fun _ => .nil⟩
  | cons entry entries ih =>
    obtain ⟨p, own, rest⟩ := Option.bind_eq_some_iff.mp run
    obtain ⟨others, later, rest⟩ := Option.bind_eq_some_iff.mp rest
    cases rest
    obtain ⟨shapes, single⟩ := ih later
    have below : ∀ q ∈ others, q.typeName.Regular h ∧
        ∃ e ∈ entry :: entries, e.1.paramType = some q.paramType ∧ q.name = e.2 := by
      intro q member
      obtain ⟨regular, e, inside, kind⟩ := shapes q member
      exact ⟨regular, e, List.mem_cons_of_mem entry inside, kind⟩
    cases p with
    | none => exact ⟨below, fun apart => single (List.pairwise_cons.mp apart).2⟩
    | some p =>
      obtain ⟨regular, kind, name⟩ := expectedParameter_shape own
      refine ⟨List.forall_mem_cons.mpr ⟨⟨regular, entry, List.mem_cons_self, kind, name⟩, below⟩, fun apart => ?_⟩
      obtain ⟨first, apart⟩ := List.pairwise_cons.mp apart
      refine List.pairwise_cons.mpr ⟨fun q member same => ?_, single apart⟩
      obtain ⟨_, e, inside, kind', name'⟩ := shapes q member
      obtain ⟨notRest, notKeyrest, keywords⟩ := first e inside (paramType_injective kind (same ▸ kind'))
      rw [name, name']
      refine ⟨fun rest => notRest ?_, fun keyrest => notKeyrest ?_, fun keyword => keywords ?_⟩
      · exact paramType_injective (rest ▸ kind) rfl
      · exact paramType_injective (keyrest ▸ kind) rfl
      · exact keyword.imp (fun same => paramType_injective (same ▸ kind) rfl)
          fun same => paramType_injective (same ▸ kind) rfl

section
variable {reported : Prop} {s t : Tracer κ}

variable [Fintype κ]

theorem Invariant.call {fuel fiber : Nat} {e : CallEvent κ} (inv : Invariant h reported s)
    (reports : reported → SingleEntries e.arguments.parameters) (run : processCallEvent h fuel fiber e s = some t) :
    Invariant h reported t := by
  obtain ⟨g, grows, ⟨_, rfl⟩ | ⟨_, f, call, new, rfl⟩⟩ := processCallEvent_spec inv.named run
  · exact ⟨Globals.Grows.named grows inv.named, inv.shaped⟩
  · refine ⟨Globals.Grows.named grows inv.named,
      shaped_of_setStack inv.shaped rfl (fun u top n below => ?_) fun u old => .inl old⟩
    rcases List.mem_cons.mp top with rfl | under
    · rw [ReturnTrace.nodes_eq, blockNodes_fresh new.fresh, List.mem_singleton] at below
      obtain ⟨_, params⟩ := call.params
      obtain ⟨shapes, single⟩ := expectedParameters_shape params
      subst below
      refine ⟨?_, fun given => single (reports given)⟩
      rw [ReturnTrace.recordedTypes, ReturnTrace.types, call.methodOwner, call.methodCallee, new.returnType,
        new.blockSelfType]
      simp only [List.forall_mem_append, List.forall_mem_cons, List.forall_mem_map]
      refine ⟨⟨⟨.plain, fun c callee => ?_⟩, fun p member => (shapes p member).1⟩, .plain, by simp⟩
      unfold CallEvent.expectedCallee at callee
      split_ifs at callee <;> simp at callee
      exact callee ▸ .plain
    · exact inv.frame (mem_stack_frames under) n below

theorem Invariant.ret {fuel fiber : Nat} {methodId : String} {e : ReturnEvent κ} (inv : Invariant h reported s)
    (run : processReturnEvent h fuel fiber methodId e s = some t) : Invariant h reported t := by
  obtain ⟨rfl, _⟩ | ⟨f, stack, returnType, g, atTop, _, grows, typed, _, rfl⟩ := processReturnEvent_spec inv.named run
  · exact inv
  · have onStack := mem_top_frames atTop
    have named : Named h g.constants := Globals.Grows.named grows inv.named
    refine ⟨named, shaped_of_setStack inv.shaped rfl (fun u under => ?_) fun u queued => ?_⟩
    · exact inv.frame (onStack u (List.mem_cons_of_mem f under))
    · refine (List.mem_append.mp queued).imp_right fun new => ?_
      cases List.mem_singleton.mp new
      exact shaped_nodes (inv.frame (onStack f List.mem_cons_self)) rfl
        fun shaped => shaped.returned (typeOfValue_regular typed) _

theorem Invariant.blockCall {fuel addr : Nat} {e : BlockCallEvent κ} (inv : Invariant h reported s)
    (reports : reported → SingleEntries e.arguments.parameters)
    (run : processBlockTracepoint addr (processBlockCallEvent h fuel s.maxGenericDepth e) s = some t) :
    Invariant h reported t := by
  refine inv.block (fun block block' g ran => ?_) run
  rcases processBlockCallEvent_spec ran with ⟨_, rfl, rfl⟩ | ⟨_, _, rfl, rfl⟩ |
    ⟨traces, _, params, blockParam, self, g₁, assigned, value, rfl⟩
  · exact ⟨inv.named, fun c call => .kept call⟩
  · exact ⟨inv.named, fun c call => .kept (by simpa using call)⟩
  · obtain ⟨grows, as⟩ := assignParameters_ensures fuel s.maxGenericDepth s.globals.next e.arguments e.objects
      (g := { s.globals with next := s.globals.next + 1 }) inv.named _ _ assigned
    obtain ⟨more, computed, _⟩ := valueType_ensures fuel s.maxGenericDepth e.objects e.self
      (Globals.Grows.named grows inv.named) _ _ value
    obtain ⟨shapes, single⟩ := expectedParameters_shape as.expected
    refine ⟨Globals.Grows.named more (Globals.Grows.named grows inv.named), fun c call => ?_⟩
    rcases call with recorded | pending
    · exact .kept (.inl recorded)
    · cases List.mem_singleton.mp pending
      refine .called ⟨?_, fun given => single (reports given)⟩ as.fresh
      simp only [ReturnTrace.recordedTypes, ReturnTrace.types, List.forall_mem_append, List.forall_mem_cons,
        List.forall_mem_map]
      exact ⟨⟨⟨.plain, by simp⟩, fun p member => (shapes p member).1⟩, .plain, by
        simpa using typeOfValue_regular computed⟩

theorem Invariant.blockReturn {fuel addr : Nat} {e : ReturnEvent κ} (inv : Invariant h reported s)
    (run : processBlockTracepoint addr (processBlockReturnEvent h fuel s.maxGenericDepth e) s = some t) :
    Invariant h reported t := by
  refine inv.block (fun block block' g ran => ?_) run
  rcases processBlockReturnEvent_spec ran with ⟨_, rfl, rfl⟩ | ⟨_, calls, stack, rfl, rfl⟩ |
    ⟨_, call, calls, returnType, stack, value, rfl⟩
  · exact ⟨inv.named, fun c call => .kept call⟩
  · exact ⟨inv.named, fun c call => .kept (call.imp_right fun pending => stack ▸ List.mem_cons_of_mem none pending)⟩
  · obtain ⟨grows, computed, _⟩ := valueType_ensures fuel s.maxGenericDepth e.objects e.returnValue inv.named _ _ value
    refine ⟨Globals.Grows.named grows inv.named, fun c call => ?_⟩
    rcases call with recorded | pending
    · cases List.mem_singleton.mp recorded
      exact .returned (stack ▸ List.mem_cons_self) (typeOfValue_regular computed)
    · exact .kept (.inr (stack ▸ List.mem_cons_of_mem _ pending))

theorem Invariant.step {event : Announced.Event κ} (inv : Invariant h reported s)
    (reports : reported → Reports event) (step : Announced.Step h s event t) : Invariant h reported t := by
  obtain ⟨fuel, delivered⟩ := step
  cases event with
  | call fiber e =>
    simp only [deliver] at delivered
    split at delivered
    · exact inv.call reports delivered
    · cases delivered
  | ret fiber methodId e =>
    simp only [deliver] at delivered
    split at delivered
    · exact inv.ret delivered
    · cases delivered
  | rescue fiber methodId =>
    simp only [deliver] at delivered
    split at delivered <;> cases delivered
    exact inv.rescue
  | blockCall addr e =>
    simp only [deliver] at delivered
    split at delivered
    · exact inv.blockCall reports delivered
    · cases delivered
  | blockReturn addr e =>
    simp only [deliver] at delivered
    split at delivered
    · exact inv.blockReturn delivered
    · cases delivered
  | start maxGenericDepth connects =>
    cases delivered
    unfold Tracer.start
    simp only
    split <;> exact ⟨inv.named, inv.shaped⟩
  | stop =>
    cases delivered
    refine ⟨inv.named, fun n member => ?_⟩
    rcases mem_nodes_cases member with ⟨f, frame, _⟩ | ⟨u, queued, below⟩
    · cases frame
    · exact inv.shaped n (mem_nodes_of_queue queued below)

/-- Every type that the tracer has recorded is regular to any depth, and where Ruby reports
parameters that share no slot, those of every trace share none. -/
theorem recorded_types_regular {s : Tracer κ}
    (run : Run (fun a b => ∃ event : Announced.Event κ, Announced.Step h a event b) {} s) :
    (∀ n ∈ nodes s, ∀ c ∈ n.recordedTypes, c.Regular h) ∧
      (Run (fun a b => ∃ event : Announced.Event κ, Reports event ∧ Announced.Step h a event b) {} s →
        ∀ n ∈ nodes s, SingleParameters n.params) := by
  constructor
  · have inv : Invariant h False s :=
      run.invariant (fun _ _ inv ⟨_, step⟩ => inv.step (fun never => never.elim) step) .init
    exact fun n member => (inv.shaped n member).regular
  · intro reported
    have inv : Invariant h True s :=
      reported.invariant (fun _ _ inv ⟨_, reports, step⟩ => inv.step (fun _ => reports) step) .init
    exact fun n member => (inv.shaped n member).single trivial

end

end

instance {κ : Type} (event : Announced.Event κ) : Decidable (Reports event) :=
  match event with
  | .call _ e => inferInstanceAs (Decidable (e.arguments.parameters.Pairwise _))
  | .blockCall _ e => inferInstanceAs (Decidable (e.arguments.parameters.Pairwise _))
  | .ret _ _ _ | .rescue _ _ | .blockReturn _ _ | .start _ _ | .stop => inferInstanceAs (Decidable True)

/-- An array with an object and the class object of `A` in it, and a hash with this array as a value. -/
def listObjects : Objects (Sample × Bool) where
  objClass k := if k = 7 then (.Array, false) else if k = 9 then (.Hash, false) else (.Object, false)
  array k := if k = 7 then [.object 8, .constant (.A, false)] else []
  hash k := if k = 9 then [(.object 8, .object 7)] else []

/-- A call of the module function with both. -/
def listCall : CallEvent (Sample × Bool) :=
  { moduleCall with
    arguments :=
      { blockArguments with
        parameters := [(.req, some "list"), (.keyreq, some "of")]
        localVariable := fun name => if name = "list" then .object 7 else .object 9
        blockGiven := false }
    objects := listObjects }

/-- The types of its parameters. -/
def listType : ConstantInstance :=
  { name := "Array", genericArguments := [[{ name := "Object" }, { name := "A", singleton := true }]] }

def listHashType : ConstantInstance :=
  { name := "Hash", genericArguments := [[{ name := "Object" }], [listType]] }

theorem recorded_types_regular_list : ∃ s : Tracer (Sample × Bool),
    s.queue.flatMap (fun t => t.params.map (·.typeName)) = [listType, listHashType] ∧
      (∀ n ∈ nodes s, ∀ c ∈ n.recordedTypes, c.Regular flatSample) ∧ ∀ n ∈ nodes s, SingleParameters n.params := by
  have recorded : ([Announced.Event.start 2 true, .call 0 listCall, .ret 0 "run" ⟨.object 8, noObjects⟩].foldlM
      (fun s event => if Reports event then deliver flatSample 4 s event else none) {}).map
      (fun s => s.queue.flatMap fun t => t.params.map (·.typeName)) = some [listType, listHashType] := by
    decide +kernel
  obtain ⟨s, run, types⟩ := Option.map_eq_some_iff.mp recorded
  have reported : Run (fun a b => ∃ event : Announced.Event (Sample × Bool),
      Reports event ∧ Announced.Step flatSample a event b) {} s := by
    refine Relation.ReflTransGen.mono (fun a b ⟨event, delivered⟩ => ?_) _ _ (Run.of_foldlM run)
    split at delivered
    next reports => exact ⟨event, reports, 4, delivered⟩
    next => cases delivered
  obtain ⟨regular, single⟩ := recorded_types_regular
    (Relation.ReflTransGen.mono (fun _ _ ⟨event, _, step⟩ => ⟨event, step⟩) _ _ reported)
  exact ⟨s, types, regular, single reported⟩

end Shapes

end Racer
