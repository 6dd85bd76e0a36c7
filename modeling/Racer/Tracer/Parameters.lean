import Racer.Tracer.Instances

namespace Racer
open Stateful

/-- An enabled block tracepoint: its VALUE, and the address it hands to the handlers. -/
structure Tracepoint where
  id : Nat
  data : Nat
  deriving DecidableEq, Repr

/-- The memory that handlers write to besides the call stacks and the queue. New
traces and tracepoints take their address from `next`. -/
structure Globals (κ : Type) where
  constants : Constants κ := {}
  tracepoints : List Tracepoint := []
  next : Nat := 1

def ParameterKind.paramType : ParameterKind → Option ParamType
  | .req => some .REQUIRED
  | .opt => some .OPTIONAL
  | .rest => some .REST
  | .keyreq => some .KEYWORD_REQUIRED
  | .key => some .KEYWORD_OPTIONAL
  | .keyrest => some .KEYWORD_REST
  | .nokey | .block | .other _ => none

/-- One turn of the loop of `assign_parameters`: a parameter, the block, or an
entry that is passed over. -/
inductive Assigned
  | parameter (p : Parameter)
  | block (b : BlockParameter ReturnTrace)
  | skipped

def Assigned.parameter? : Assigned → Option Parameter
  | .parameter p => some p
  | _ => none

section
variable {κ : Type} [DecidableEq κ] [Fintype κ] (h : Hierarchy κ)

def onConstants {α : Type} (m : StateT (Constants κ) Option α) : StateT (Globals κ) Option α := fun g =>
  match m g.constants with
  | none => none
  | some (a, constants) => some (a, { g with constants })

/-- A tracepoint is made for every block, but enabled and remembered only where
its target can be set. -/
def followBlock (trace : Nat) (name : String) (block : LocalBlock) :
    StateT (Globals κ) Option (BlockParameter ReturnTrace) := fun g =>
  match block with
  | .nil => some ({ name }, g)
  | .proc false => some ({ name }, { g with next := g.next + 1 })
  | .proc true =>
    some ({ name, tracepointId := g.next },
      { g with tracepoints := g.tracepoints ++ [⟨g.next, trace⟩], next := g.next + 1 })

/-- The reader of values at the outermost depth. -/
def valueType (fuel : Nat) (maxGenericDepth : Int) (o : Objects κ) (value : Value κ) :
    StateT (Globals κ) Option ConstantInstance :=
  onConstants (valueToConstantInstance h o maxGenericDepth fuel value 0)

/-- The type of a named parameter; anonymous rest parameters cannot be read. -/
def namedType (fuel : Nat) (maxGenericDepth : Int) (args : Arguments κ) (o : Objects κ) (name : String) :
    StateT (Globals κ) Option ConstantInstance :=
  if name = "*" then onConstants (classToConstantInstance h h.cArray [])
  else if name = "**" then onConstants (classToConstantInstance h h.cHash [])
  else valueType h fuel maxGenericDepth o (args.localVariable name)

def assignParameter (fuel : Nat) (maxGenericDepth : Int) (trace : Nat) (args : Arguments κ) (o : Objects κ) :
    ParameterKind × Option String → StateT (Globals κ) Option Assigned
  | (.block, some name) =>
    if name = "&" then pure (.block {})
    else do
      let block ← followBlock trace name (args.localBlock name)
      pure (.block block)
  | (kind, some name) => do
    let constant ← namedType h fuel maxGenericDepth args o name
    match kind.paramType with
    | some paramType => pure (.parameter { name, typeName := constant, paramType })
    -- "Unknown parameter type"
    | none => pure .skipped
  | (.req, none) => do
    let constant ← onConstants (classToConstantInstance h h.cArray [])
    pure (.parameter { name := none, typeName := constant, paramType := .REQUIRED })
  -- `**nil`, and what is warned about as "Unexpected: Parameter has no name"
  | (_, none) => pure .skipped

/-- The loop of `assign_parameters` over the parameters and the block found so far. -/
def assignAll (fuel : Nat) (maxGenericDepth : Int) (trace : Nat) (args : Arguments κ) (o : Objects κ) :
    List (ParameterKind × Option String) → List Parameter → Option (BlockParameter ReturnTrace) →
    StateT (Globals κ) Option (List Parameter × Option (BlockParameter ReturnTrace))
  | [], params, block => pure (params, block)
  | entry :: entries, params, block => do
    match ← assignParameter h fuel maxGenericDepth trace args o entry with
    | .parameter p => assignAll fuel maxGenericDepth trace args o entries (params ++ [p]) block
    | .block b => assignAll fuel maxGenericDepth trace args o entries params (some b)
    | .skipped => assignAll fuel maxGenericDepth trace args o entries params block

/-- `assign_parameters` for the trace at the address `trace`. -/
def assignParameters (fuel : Nat) (maxGenericDepth : Int) (trace : Nat) (args : Arguments κ) (o : Objects κ) :
    StateT (Globals κ) Option (List Parameter × Option (BlockParameter ReturnTrace)) := do
  let (params, block) ← assignAll h fuel maxGenericDepth trace args o args.parameters [] none
  if block.isNone ∧ args.blockGiven then pure (params, some {}) else pure (params, block)

def expectedType (fuel : Nat) (maxGenericDepth : Int) (args : Arguments κ) (o : Objects κ) (name : String) :
    Option ConstantInstance :=
  if name = "*" then some { name := finalName h h.cArray }
  else if name = "**" then some { name := finalName h h.cHash }
  else typeOfValue h o maxGenericDepth fuel (args.localVariable name) 0

/-- The parameter an entry stands for, by the final names of the hierarchy. -/
def expectedParameter (fuel : Nat) (maxGenericDepth : Int) (args : Arguments κ) (o : Objects κ) :
    ParameterKind × Option String → Option (Option Parameter)
  | (.block, some _) => some none
  | (kind, some name) => do
    let typeName ← expectedType h fuel maxGenericDepth args o name
    some (kind.paramType.map fun paramType => { name, typeName, paramType })
  | (.req, none) =>
    some (some { name := none, typeName := { name := finalName h h.cArray }, paramType := .REQUIRED })
  | (_, none) => some none

def expectedParameters (fuel : Nat) (maxGenericDepth : Int) (args : Arguments κ) (o : Objects κ) :
    List (ParameterKind × Option String) → Option (List Parameter)
  | [] => some []
  | entry :: entries => do
    let p ← expectedParameter h fuel maxGenericDepth args o entry
    let params ← expectedParameters fuel maxGenericDepth args o entries
    some (p.toList ++ params)

/-- The constants of the globals have grown, and no address will be used again. -/
structure Globals.Grows (g g' : Globals κ) : Prop where
  constants : Racer.Grows h g.constants g'.constants
  next : g.next ≤ g'.next

instance : Std.Refl (Globals.Grows h) :=
  ⟨fun g => ⟨Std.Refl.refl (r := Racer.Grows h) g.constants, le_rfl⟩⟩

instance : IsTrans (Globals κ) (Globals.Grows h) :=
  ⟨fun _ _ _ first second => ⟨IsTrans.trans (r := Racer.Grows h) _ _ _ first.constants second.constants,
    first.next.trans second.next⟩⟩

variable {h}

omit [Fintype κ] in
theorem onConstants_ensures {α : Type} {m : StateT (Constants κ) Option α} {g : Globals κ}
    {Q : α → Constants κ → Prop} (ensures : Ensures (Racer.Grows h) g.constants m Q) :
    Ensures (Globals.Grows h) g (onConstants m) fun a g' => Q a g'.constants := by
  intro a g' run
  unfold onConstants at run
  split at run
  next => cases run
  next b constants ran =>
    cases run
    obtain ⟨grows, post⟩ := ensures a constants ran
    exact ⟨⟨grows, le_rfl⟩, post⟩

theorem valueType_ensures (fuel : Nat) (maxGenericDepth : Int) (o : Objects κ) (value : Value κ)
    {g : Globals κ} (named : Named h g.constants) :
    Ensures (Globals.Grows h) g (valueType h fuel maxGenericDepth o value) fun i g' =>
      Computes h ConstantInstance.names (typeOfValue h o maxGenericDepth fuel value 0) i g'.constants :=
  onConstants_ensures (valueToConstantInstance_ensures o maxGenericDepth fuel 0 value g.constants named)

theorem classType_ensures (klass : κ) {g : Globals κ} (named : Named h g.constants) :
    Ensures (Globals.Grows h) g (onConstants (classToConstantInstance h klass [])) fun i g' =>
      Computes h ConstantInstance.names (some { name := finalName h klass }) i g'.constants := by
  refine onConstants_ensures ((classToConstantInstance_ensures named klass []).mono
    fun i t _ ⟨same, known⟩ => ⟨congrArg some same.symm, fun n member => ?_⟩)
  subst same
  rw [ConstantInstance.mem_names] at member
  rcases member with rfl | ⟨u, inside, _⟩
  · exact known
  · cases inside

/-- A block that has just been assigned has no calls yet. -/
def BlockParameter.Fresh (b : BlockParameter ReturnTrace) : Prop :=
  b.blockTraces = [] ∧ b.currentBlockCallStack = []

/-- What one turn of `assign_parameters` leaves behind. -/
structure AssignedAs (h : Hierarchy κ) (expected : Option (Option Parameter)) (a : Assigned) (s : Constants κ) :
    Prop where
  expected : expected = some a.parameter?
  known : ∀ p ∈ a.parameter?, ∀ n ∈ p.typeName.names, Known h s n
  fresh : ∀ b, a = .block b → b.Fresh

theorem namedType_ensures (fuel : Nat) (maxGenericDepth : Int) (args : Arguments κ) (o : Objects κ)
    (name : String) {g : Globals κ} (named : Named h g.constants) :
    Ensures (Globals.Grows h) g (namedType h fuel maxGenericDepth args o name) fun i g' =>
      Computes h ConstantInstance.names (expectedType h fuel maxGenericDepth args o name) i g'.constants := by
  unfold namedType expectedType
  split_ifs
  · exact classType_ensures h.cArray named
  · exact classType_ensures h.cHash named
  · exact valueType_ensures fuel maxGenericDepth o _ named

omit [Fintype κ] in
theorem followBlock_ensures (trace : Nat) (name : String) (block : LocalBlock) (g : Globals κ) :
    Ensures (Globals.Grows h) g (followBlock trace name block) fun b _ => b.Fresh := by
  intro b g' run
  unfold followBlock at run
  have same : Racer.Grows h g.constants g.constants := Std.Refl.refl (r := Racer.Grows h) g.constants
  split at run <;> cases run
  next => exact ⟨⟨same, le_rfl⟩, rfl, rfl⟩
  next => exact ⟨⟨same, Nat.le_succ g.next⟩, rfl, rfl⟩
  next => exact ⟨⟨same, Nat.le_succ g.next⟩, rfl, rfl⟩

omit [Fintype κ] [DecidableEq κ] in
theorem AssignedAs.skipped {s : Constants κ} : AssignedAs h (some none) .skipped s :=
  ⟨rfl, nofun, nofun⟩

omit [Fintype κ] [DecidableEq κ] in
theorem AssignedAs.block {s : Constants κ} {b : BlockParameter ReturnTrace} (fresh : b.Fresh) :
    AssignedAs h (some none) (.block b) s := by
  refine ⟨rfl, nofun, fun c same => ?_⟩
  cases same
  exact fresh

omit [Fintype κ] [DecidableEq κ] in
theorem AssignedAs.parameter {s : Constants κ} {p : Parameter} (known : ∀ n ∈ p.typeName.names, Known h s n) :
    AssignedAs h (some (some p)) (.parameter p) s := by
  refine ⟨rfl, fun q same => ?_, nofun⟩
  cases same
  exact known

theorem assignParameter_ensures (fuel : Nat) (maxGenericDepth : Int) (trace : Nat) (args : Arguments κ)
    (o : Objects κ) (entry : ParameterKind × Option String) {g : Globals κ} (named : Named h g.constants) :
    Ensures (Globals.Grows h) g (assignParameter h fuel maxGenericDepth trace args o entry) fun a g' =>
      AssignedAs h (expectedParameter h fuel maxGenericDepth args o entry) a g'.constants := by
  obtain ⟨kind, name⟩ := entry
  cases name with
  | none =>
    cases kind with
    | req =>
      refine (classType_ensures h.cArray named).bind fun i g' _ ⟨same, known⟩ => .pure ?_
      cases same
      exact .parameter known
    | _ => exact .pure .skipped
  | some name =>
    have typed := namedType_ensures fuel maxGenericDepth args o name named
    cases kind with
    | block =>
      simp only [assignParameter]
      split_ifs
      · exact .pure (.block ⟨rfl, rfl⟩)
      · exact (followBlock_ensures trace name (args.localBlock name) g).bind fun b g' _ fresh => .pure (.block fresh)
    | nokey | other _ =>
      refine typed.bind fun i g' _ ⟨computed, known⟩ => .pure ?_
      simp only [expectedParameter, computed, ParameterKind.paramType, Option.bind_eq_bind, Option.bind_some]
      exact .skipped
    | _ =>
      refine typed.bind fun i g' _ ⟨computed, known⟩ => .pure ?_
      simp only [expectedParameter, computed, ParameterKind.paramType, Option.bind_eq_bind, Option.bind_some]
      exact .parameter known

omit [Fintype κ] in
theorem Globals.Grows.named {g g' : Globals κ} (grows : Globals.Grows h g g') (named : Named h g.constants) :
    Named h g'.constants :=
  Racer.Grows.named grows.constants named

/-- What `assign_parameters` leaves in the trace. -/
structure ParametersAs (h : Hierarchy κ) (expected : Option (List Parameter)) (params : List Parameter)
    (block : Option (BlockParameter ReturnTrace)) (s : Constants κ) : Prop where
  expected : expected = some params
  known : ∀ p ∈ params, ∀ n ∈ p.typeName.names, Known h s n
  fresh : ∀ b ∈ block, b.Fresh

theorem assignAll_ensures (fuel : Nat) (maxGenericDepth : Int) (trace : Nat) (args : Arguments κ)
    (o : Objects κ) (entries : List (ParameterKind × Option String)) {params : List Parameter}
    {block : Option (BlockParameter ReturnTrace)} {g : Globals κ} (named : Named h g.constants)
    (known : ∀ p ∈ params, ∀ n ∈ p.typeName.names, Known h g.constants n) (fresh : ∀ b ∈ block, b.Fresh) :
    Ensures (Globals.Grows h) g (assignAll h fuel maxGenericDepth trace args o entries params block) fun r g' =>
      ParametersAs h ((expectedParameters h fuel maxGenericDepth args o entries).map (params ++ ·)) r.1 r.2
        g'.constants := by
  induction entries generalizing params block g with
  | nil => exact .pure ⟨by simp [expectedParameters], known, fresh⟩
  | cons entry entries ih =>
    refine (assignParameter_ensures fuel maxGenericDepth trace args o entry named).bind
      fun a g' grows assigned => ?_
    have later : ∀ p ∈ params, ∀ n ∈ p.typeName.names, Known h g'.constants n :=
      fun p member n mentioned => Racer.Grows.known grows.constants (known p member n mentioned)
    have expected := assigned.expected
    cases a with
    | parameter p =>
      have all : ∀ q ∈ params ++ [p], ∀ n ∈ q.typeName.names, Known h g'.constants n := by
        intro q member
        rcases List.mem_append.mp member with old | new
        · exact later q old
        · rw [List.mem_singleton.mp new]
          exact assigned.known p rfl
      refine (ih (grows.named named) all fresh).mono fun r u _ post => ⟨?_, post.known, post.fresh⟩
      rw [← post.expected]
      simp only [expectedParameters, expected, Assigned.parameter?, Option.bind_eq_bind, Option.bind_some]
      cases expectedParameters h fuel maxGenericDepth args o entries <;> simp
    | block b =>
      refine (ih (grows.named named) later fun c same => ?_).mono fun r u _ post => ⟨?_, post.known, post.fresh⟩
      · cases same
        exact assigned.fresh b rfl
      · rw [← post.expected]
        simp only [expectedParameters, expected, Assigned.parameter?, Option.bind_eq_bind, Option.bind_some]
        cases expectedParameters h fuel maxGenericDepth args o entries <;> simp
    | skipped =>
      refine (ih (grows.named named) later fresh).mono fun r u _ post => ⟨?_, post.known, post.fresh⟩
      rw [← post.expected]
      simp only [expectedParameters, expected, Assigned.parameter?, Option.bind_eq_bind, Option.bind_some]
      cases expectedParameters h fuel maxGenericDepth args o entries <;> simp

/-- The recorded parameters are the expected ones, whatever has been explored. -/
theorem assignParameters_ensures (fuel : Nat) (maxGenericDepth : Int) (trace : Nat) (args : Arguments κ)
    (o : Objects κ) {g : Globals κ} (named : Named h g.constants) :
    Ensures (Globals.Grows h) g (assignParameters h fuel maxGenericDepth trace args o) fun r g' =>
      ParametersAs h (expectedParameters h fuel maxGenericDepth args o args.parameters) r.1 r.2 g'.constants := by
  refine (assignAll_ensures fuel maxGenericDepth trace args o args.parameters named (by simp) (by simp)).bind
    fun r g' _ post => ?_
  obtain ⟨params, block⟩ := r
  have expected : expectedParameters h fuel maxGenericDepth args o args.parameters = some params := by
    simpa using post.expected
  simp only
  split
  · refine .pure ⟨expected, post.known, fun b same => ?_⟩
    cases same
    exact ⟨rfl, rfl⟩
  · exact .pure ⟨expected, post.known, post.fresh⟩

end

end Racer
