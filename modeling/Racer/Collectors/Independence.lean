import Racer.Collectors.Sharing

namespace Racer.Sharing
open Outcome

/-! The collectors of one agent: what each of them builds, and when it is what it would
build on its own. -/

section
variable (env : Environment)

/-- `to_rbs_type` may have given the constant and its generic arguments valid names. -/
inductive Renamed : ConstantInstance → ConstantInstance → Prop
  | mk {name name' singleton unions unions'} : (name' = name ∨ validName env name = .ok name') →
      List.Forall₂ (List.Forall₂ Renamed) unions unions' → Renamed ⟨name, singleton, unions⟩ ⟨name', singleton, unions'⟩

def RenamedParam (p q : Trace.Param) : Prop :=
  q.name = p.name ∧ q.type = p.type ∧ Renamed env p.typeName q.typeName

def RenamedCall (x y : Trace.BlockTrace) : Prop :=
  Option.Rel (Renamed env) x.selfType y.selfType ∧ Renamed env x.returnType y.returnType ∧
    List.Forall₂ (RenamedParam env) x.params y.params ∧ y.blockParam = x.blockParam

def RenamedBlock (b c : Trace.BlockParam Trace.BlockTrace) : Prop :=
  c.name = b.name ∧ List.Forall₂ (RenamedCall env) b.traces c.traces

/-- The types of the trace may have been given valid names. -/
def RenamedTrace (t u : Trace) : Prop :=
  ∃ returnType params blockParam, u = { t with returnType, params, blockParam } ∧ Renamed env t.returnType returnType ∧
    List.Forall₂ (RenamedParam env) t.params params ∧ Option.Rel (RenamedBlock env) t.blockParam blockParam

def RenamedMethods (methods methods' : OrderedHash String (List Trace)) : Prop :=
  List.Forall₂ (fun a b => b.1 = a.1 ∧ List.Forall₂ (RenamedTrace env) a.2 b.2) methods.entries methods'.entries

def RenamedOwner (o o' : Owner) : Prop :=
  o'.constant = o.constant ∧ RenamedMethods env o.instanceMethods o'.instanceMethods ∧
    RenamedMethods env o.singletonMethods o'.singletonMethods

/-- What the `stop` of one collector may leave of another one. Which of the types it has
converted, and so renamed, is left open. -/
def RenamedCollector (s s' : RBSCollector) : Prop :=
  s'.existingTypes = s.existingTypes ∧ s'.modulesInObjectClass = s.modulesInObjectClass ∧
    List.Forall₂ (fun a b => b.1 = a.1 ∧ RenamedOwner env a.2 b.2) s.results.entries s'.results.entries

end

/-- What a collector has built: the declarations under their files, and what was raised. -/
abbrev Build := List (String × Declaration) × Option RubyError

/-- The loop of the worker thread that stops the collectors. One that raises ends it. -/
inductive Stops : List (Collector × RBSCollector) → List (Option Build) → Prop
  | done : Stops [] []
  | rbs {env s rest rest' builds} : (s.stop env).2 = none →
      List.Forall₂ (fun a b => b.1 = a.1 ∧ RenamedCollector env a.2 b.2) rest rest' → Stops rest' builds →
      Stops ((.rbs env, s) :: rest) (some (s.stop env) :: builds)
  | rbsRaises {env s rest raised} : (s.stop env).2 = some raised →
      Stops ((.rbs env, s) :: rest) (some (s.stop env) :: rest.map fun _ => none)
  | other {collect s rest builds} : Stops rest builds → Stops ((.other collect (.ok ()), s) :: rest) (none :: builds)
  | otherRaises {collect raised s rest} :
      Stops ((.other collect (.error raised), s) :: rest) (none :: rest.map fun _ => none)

/-- A run of the worker thread: what each of the collectors has built in the end. -/
def AgentRun (collectors : List Collector) (traces : List Trace) (builds : List (Option Build)) : Prop :=
  match collectTraces 0 traces (received traces, collectors.map fun collector => (collector, {})) with
  | .error _ => builds = collectors.map fun _ => none
  | .ok state => Stops (state.2.map fun collector => (collector.1, collector.2.view state.1)) builds

/-- The types in the trace that `to_rbs_type` may be given. -/
def types (t : Trace) : List ConstantInstance :=
  t.params.map (·.typeName) ++ t.returnType ::
    t.blockParam.toList.flatMap fun block => block.traces.flatMap (·.constants)

/-- A run in which no type is renamed. -/
def stopAll : List (Collector × RBSCollector) → List (Option Build)
  | [] => []
  | (.rbs env, s) :: rest =>
    some (s.stop env) :: if (s.stop env).2.isNone then stopAll rest else rest.map fun _ => none
  | (.other _ stop, _) :: rest => none :: if stop.isOk then stopAll rest else rest.map fun _ => none

def agentRun (collectors : List Collector) (traces : List Trace) : List (Option Build) :=
  match collectTraces 0 traces (received traces, collectors.map fun collector => (collector, {})) with
  | .error _ => collectors.map fun _ => none
  | .ok state => stopAll (state.2.map fun collector => (collector.1, collector.2.view state.1))

/-- The constants that collector `i` is given with trace number `n`. -/
def given (collectors : List Collector) (traces : List Trace) (n i : Nat) : Except RubyError Objects := do
  let state ← collectTraces 0 (traces.take n) (received traces, collectors.map fun collector => (collector, {}))
  match traces[n]? with
  | some trace => Prod.fst <$> collectInTurn n trace (state.2.take i) state.1
  | none => pure state.1

def mixinLists (c : Constant) : List (List String) :=
  [c.includedModules, c.prependedModules, c.extendedModules]

/-- What a collector builds on its own. -/
def Collector.build (traces : List Trace) : Collector → Option Build
  | .rbs env =>
    match collectAll env traces with
    | .ok s => some (s.stop env)
    | .error _ => none
  | .other _ _ => none

/-- `to_rbs_type` has nothing to rename in the type. -/
def HasValidNames (env : Environment) (c : ConstantInstance) : Prop :=
  ∀ name, c.Mentions name → validName env name = .ok name

/-- The environment of an `RBSCollector` which is not the last collector. -/
def Followed (collectors : List Collector) (env : Environment) : Prop :=
  ∃ before after, collectors = before ++ .rbs env :: after ∧ after ≠ []

/-- What keeps collectors from disturbing one another. -/
structure Undisturbed (collectors : List Collector) (traces : List Trace) : Prop where
  others : ∀ collect stop, .other collect stop ∈ collectors →
    (∀ n objects, collect n objects = .ok objects) ∧ stop = .ok ()
  upcase : ∀ env env', .rbs env ∈ collectors → .rbs env' ∈ collectors → env.upcase = env'.upcase
  names : ∀ env, .rbs env ∈ collectors → ∀ c ∈ announced traces, ∀ name ∈ c.mentions,
    ∀ valid, validName env name = .ok valid → validName env valid = .ok valid
  mixins : ∀ env env', .rbs env ∈ collectors → .rbs env' ∈ collectors → ∀ n c,
    announcement env (announced traces) n = some c → recorded env c = recorded env' c
  types : ∀ env, Followed collectors env → ∀ t ∈ traces, ∀ c ∈ types t, HasValidNames env c
  stops : ∀ env, Followed collectors env → ∀ s, collectAll env traces = .ok s → (s.stop env).2 = none

theorem forall₂_unchanged {α : Type} {R : α → α → Prop} {l l' : List α} (related : List.Forall₂ R l l')
    (each : ∀ a ∈ l, ∀ b, R a b → b = a) : l' = l := by
  induction related with
  | nil => rfl
  | cons first _ ih =>
    obtain ⟨head, tail⟩ := List.forall_mem_cons.mp each
    rw [head _ first, ih tail]

theorem rel_unchanged {α : Type} {R : α → α → Prop} {o o' : Option α} (related : Option.Rel R o o')
    (each : ∀ a ∈ o, ∀ b, R a b → b = a) : o' = o := by
  cases related with
  | none => rfl
  | some first => rw [each _ rfl _ first]

theorem rel_refl {α : Type} {R : α → α → Prop} {o : Option α} (each : ∀ a ∈ o, R a a) : Option.Rel R o o := by
  cases o with
  | none => exact .none
  | some a => exact .some (each a rfl)

section
variable {env : Environment}

theorem Renamed.refl (c : ConstantInstance) : Renamed env c c := by
  induction c using ConstantInstance.union_induction with
  | step c ih =>
    obtain ⟨name, singleton, unions⟩ := c
    exact .mk (.inl rfl)
      (List.forall₂_same.mpr fun union inside => List.forall₂_same.mpr fun d member => ih union inside d member)

theorem RenamedCall.refl (x : Trace.BlockTrace) : RenamedCall env x x :=
  ⟨rel_refl fun c _ => .refl c, .refl _, List.forall₂_same.mpr fun _ _ => ⟨rfl, rfl, .refl _⟩, rfl⟩

theorem RenamedTrace.refl (t : Trace) : RenamedTrace env t t :=
  ⟨_, _, _, rfl, .refl _, List.forall₂_same.mpr fun _ _ => ⟨rfl, rfl, .refl _⟩,
    rel_refl fun _ _ => ⟨rfl, List.forall₂_same.mpr fun x _ => .refl x⟩⟩

theorem RenamedCollector.refl (s : RBSCollector) : RenamedCollector env s s := by
  have methods (methods : OrderedHash String (List Trace)) : RenamedMethods env methods methods :=
    List.forall₂_same.mpr fun _ _ => ⟨rfl, List.forall₂_same.mpr fun t _ => .refl t⟩
  exact ⟨rfl, rfl, List.forall₂_same.mpr fun _ _ => ⟨rfl, rfl, methods _, methods _⟩⟩

theorem Renamed.eq {c d : ConstantInstance} (renamed : Renamed env c d) (valid : HasValidNames env c) : d = c := by
  induction c using ConstantInstance.union_induction generalizing d with
  | step c ih =>
    cases renamed with
    | @mk name name' singleton unions unions' names generics =>
      have sameName : name' = name := by
        rcases names with same | renamed
        · exact same
        · rw [show validName env name = .ok name from valid name .self] at renamed
          exact (Except.ok.inj renamed).symm
      have sameUnions : unions' = unions := by
        refine forall₂_unchanged generics fun union inside union' related => ?_
        refine forall₂_unchanged related fun d member d' renamed => ?_
        exact ih union inside d member renamed fun n mentions => valid n (.nested inside member mentions)
      rw [sameName, sameUnions]

theorem RenamedParam.eq {p q : Trace.Param} (renamed : RenamedParam env p q) (valid : HasValidNames env p.typeName) :
    q = p := by
  obtain ⟨name, typeName, type⟩ := p
  obtain ⟨name', typeName', type'⟩ := q
  obtain ⟨rfl, rfl, type⟩ := renamed
  rw [show typeName' = typeName from type.eq valid]

theorem RenamedCall.eq {x y : Trace.BlockTrace} (renamed : RenamedCall env x y)
    (valid : ∀ c ∈ x.constants, HasValidNames env c) : y = x := by
  obtain ⟨selfType, returnType, params, block⟩ := x
  obtain ⟨selfType', returnType', params', block'⟩ := y
  simp only [Trace.BlockTrace.constants, List.forall_mem_append, List.forall_mem_cons, List.forall_mem_map,
    Option.mem_toList] at valid
  obtain ⟨self, return', parameters, rfl⟩ := renamed
  have sameSelf : selfType' = selfType :=
    rel_unchanged self fun c there d renamed => renamed.eq (valid.2.2 c there)
  have sameReturn : returnType' = returnType := return'.eq valid.2.1
  have sameParams : params' = params :=
    forall₂_unchanged parameters fun p member q renamed => renamed.eq (valid.1 p member)
  rw [sameSelf, sameReturn, sameParams]

theorem RenamedBlock.eq {b b' : Trace.BlockParam Trace.BlockTrace} (renamed : RenamedBlock env b b')
    (valid : ∀ x ∈ b.traces, ∀ c ∈ x.constants, HasValidNames env c) : b' = b := by
  obtain ⟨name, traces⟩ := b
  obtain ⟨name', traces'⟩ := b'
  obtain ⟨rfl, calls⟩ := renamed
  rw [show traces' = traces from forall₂_unchanged calls fun x member y renamed => renamed.eq (valid x member)]

theorem RenamedTrace.eq {t u : Trace} (renamed : RenamedTrace env t u) (valid : ∀ c ∈ types t, HasValidNames env c) :
    u = t := by
  obtain ⟨returnType, params, blockParam, rfl, return', parameters, block⟩ := renamed
  simp only [types, List.forall_mem_append, List.forall_mem_cons, List.forall_mem_map, List.forall_mem_flatMap,
    Option.mem_toList] at valid
  have sameReturn : returnType = t.returnType := return'.eq valid.2.1
  have sameParams : params = t.params :=
    forall₂_unchanged parameters fun p member q renamed => renamed.eq (valid.1 p member)
  have sameBlock : blockParam = t.blockParam :=
    rel_unchanged block fun b there b' renamed => renamed.eq (valid.2.2 b there)
  rw [sameReturn, sameParams, sameBlock]

theorem RenamedMethods.eq {methods methods' : OrderedHash String (List Trace)}
    (renamed : RenamedMethods env methods methods')
    (valid : ∀ entry ∈ methods.entries, ∀ t ∈ entry.2, ∀ c ∈ types t, HasValidNames env c) : methods' = methods := by
  refine OrderedHash.eq_of_entries (forall₂_unchanged renamed fun entry member entry' related => ?_)
  exact Prod.ext related.1
    (forall₂_unchanged related.2 fun t inside u renamed => renamed.eq (valid entry member t inside))

theorem RenamedOwner.eq {o o' : Owner} (renamed : RenamedOwner env o o')
    (valid : ∀ kind, ∀ entry ∈ (o.methods kind).entries, ∀ t ∈ entry.2, ∀ c ∈ types t, HasValidNames env c) :
    o' = o := by
  obtain ⟨constant, instanceMethods, singletonMethods⟩ := o
  obtain ⟨constant', instanceMethods', singletonMethods'⟩ := o'
  obtain ⟨same, instances, singletons⟩ := renamed
  rw [show constant' = constant from same, show instanceMethods' = instanceMethods from instances.eq (valid .INSTANCE),
    show singletonMethods' = singletonMethods from singletons.eq (valid .SINGLETON)]

theorem RenamedCollector.eq {s s' : RBSCollector} (renamed : RenamedCollector env s s')
    (valid : ∀ owner ∈ s.results.entries, ∀ kind, ∀ entry ∈ (owner.2.methods kind).entries, ∀ t ∈ entry.2,
      ∀ c ∈ types t, HasValidNames env c) : s' = s := by
  obtain ⟨results, existing, modules⟩ := s
  obtain ⟨results', existing', modules'⟩ := s'
  obtain ⟨same, same', owners⟩ := renamed
  have sameResults : results' = results := by
    refine OrderedHash.eq_of_entries (forall₂_unchanged owners fun entry member entry' related => ?_)
    exact Prod.ext related.1 (related.2.eq (valid entry member))
  rw [sameResults, show existing' = existing from same, show modules' = modules from same']

/-- Only collected traces are stored. -/
theorem stored_of_collectAll {traces : List Trace} {s : RBSCollector} (run : collectAll env traces = .ok s)
    {owner : String × Owner} (member : owner ∈ s.results.entries) {kind : MethodKind} {entry : String × List Trace}
    (inside : entry ∈ (owner.2.methods kind).entries) {t : Trace} (there : t ∈ entry.2) : t ∈ traces := by
  have found := OrderedHash.mem_entries.mp member
  obtain ⟨same, _⟩ := ((collectAll_collected run).group found).mp inside
  rw [same] at there
  exact (Collected.isOf there).1

end

section
variable {collectors : List Collector} {traces : List Trace}

theorem validName_upcase {env env' : Environment} (same : env.upcase = env'.upcase) :
    validName env = validName env' := by
  funext name
  unfold validName
  rw [same]

theorem ensureValidNames_upcase {env env' : Environment} (same : env.upcase = env'.upcase) :
    ensureValidNames env = ensureValidNames env' := by
  funext c
  unfold ensureValidNames
  rw [validName_upcase same]

theorem announcement_upcase {env env' : Environment} (same : env.upcase = env'.upcase) (constants : List Constant)
    (n : String) : announcement env constants n = announcement env' constants n := by
  unfold announcement
  rw [ensureValidNames_upcase same]

theorem announcement_append (env : Environment) (constants more : List Constant) (n : String) :
    announcement env (constants ++ more) n = (announcement env constants n).or (announcement env more n) := by
  rw [announcement, List.filterMap_append, List.find?_append]
  rfl

theorem announcement_first {env : Environment} {before later : List Constant} {c valid : Constant}
    (ensured : ensureValidNames env c = .ok valid) (first : announcement env before valid.name = none) :
    announcement env (before ++ c :: later) valid.name = some valid := by
  have own : announcement env ([] ++ [c]) valid.name = _ := announcement_snoc ensured valid.name
  rw [if_pos rfl, List.nil_append] at own
  rw [announcement_append, first, Option.none_or, ← List.singleton_append, announcement_append, own]
  rfl

/-- Undisturbed collectors leave the same of every announced constant. -/
theorem Undisturbed.settled_eq (undisturbed : Undisturbed collectors traces) {env env' : Environment}
    (member : .rbs env ∈ collectors) (member' : .rbs env' ∈ collectors) {before later : List Constant}
    {c valid : Constant} (all : announced traces = before ++ c :: later)
    (ensured : ensureValidNames env c = .ok valid) :
    settled env before valid = settled env' before valid := by
  have upcase := undisturbed.upcase env env' member member'
  unfold settled
  rw [← announcement_upcase upcase]
  split
  next => rfl
  next absent =>
    have first : announcement env before valid.name = none := by simpa using absent
    refine undisturbed.mixins env env' member member' valid.name valid ?_
    rw [all]
    exact announcement_first ensured first

theorem heldFrom_of_fresh {env : Environment} {objects : Objects} {n p : Nat} {constants cs : List Constant}
    (fresh : ∀ i c, cs[i]? = some c → objects (n, p + i) = { constant := c }) :
    HeldFrom env n objects p constants cs := by
  induction cs generalizing p constants with
  | nil => trivial
  | cons c cs ih =>
    refine ⟨?_, ih fun i d there => ?_⟩
    · rw [show objects (n, p) = { constant := c } from fresh 0 c rfl]
      exact .fresh
    · rw [show p + 1 + i = p + (i + 1) by omega]
      exact fresh (i + 1) d there

/-- What one collector has seen is what another one expects. -/
theorem Undisturbed.held (undisturbed : Undisturbed collectors traces) {env env' : Environment}
    (member : .rbs env ∈ collectors) (member' : .rbs env' ∈ collectors) {objects : Objects} {n p : Nat}
    {before cs later : List Constant} (all : announced traces = before ++ cs ++ later)
    (seen : SeenFrom env n objects p before cs) : HeldFrom env' n objects p before cs := by
  induction cs generalizing p before with
  | nil => trivial
  | cons c cs ih =>
    obtain ⟨⟨valid, ensured, atRef⟩, rest⟩ := seen
    have split : announced traces = before ++ c :: (cs ++ later) := by simpa using all
    refine ⟨?_, ih (by simpa using all) rest⟩
    rw [atRef, undisturbed.settled_eq member member' split ensured]
    rw [ensureValidNames_upcase (undisturbed.upcase env env' member member')] at ensured
    refine .seen ensured fun m mentioned => ?_
    obtain ⟨name, original, valid'⟩ := ensureValidNames_mentions ensured mentioned
    exact undisturbed.names env' member' c (by rw [split]; simp) name original m valid'

/-- Whether all traces are collected does not depend on the signatures. -/
theorem collectAll_returns_upcase {env env' : Environment} (upcase : env.upcase = env'.upcase) {ts : List Trace}
    {a : RBSCollector} (run : collectAll env ts = .ok a) : ∃ a', collectAll env' ts = .ok a' := by
  have ensured : ∀ c ∈ announced ts, ∃ valid, ensureValidNames env' c = .ok valid := by
    rw [← ensureValidNames_upcase upcase]
    exact collectAll_ensured run
  refine collectAll_returns (fun t member c update => ensured c (List.mem_flatMap.mpr ⟨t, member, update⟩)) ?_
  intro before t after split method
  rw [split, collectAll, List.foldlM_append] at run
  obtain ⟨b, first, run⟩ := bind_eq_ok.mp run
  rw [List.foldlM_cons] at run
  obtain ⟨b', last, _⟩ := bind_eq_ok.mp run
  have collected := (collectAll_collected first).collect last
  have known := ((collectAll_collected first).collect_returns_iff (t := t) fun c update => ?_).mp ⟨b', last⟩ method
  · rw [← announcement_upcase upcase]
    simpa using known
  · rw [ensureValidNames_upcase upcase]
    refine ensured c (List.mem_flatMap.mpr ⟨t, ?_, update⟩)
    rw [split]
    simp

theorem collectAll_raises_all (undisturbed : Undisturbed collectors traces) {env : Environment}
    (member : .rbs env ∈ collectors) {ts : List Trace} {e : RubyError} (raised : collectAll env ts = .error e) :
    ∀ env', .rbs env' ∈ collectors → ∃ e, collectAll env' ts = .error e := by
  intro env' member'
  cases other : collectAll env' ts with
  | error e' => exact ⟨e', rfl⟩
  | ok a =>
    obtain ⟨a', run⟩ := collectAll_returns_upcase (undisturbed.upcase env' env member' member) other
    rw [raised] at run
    cases run

theorem collectAll_snoc {env : Environment} {ts : List Trace} {t : Trace} {a : RBSCollector}
    (run : collectAll env ts = .ok a) : collectAll env (ts ++ [t]) = a.collect env t := by
  rw [collectAll, List.foldlM_append, ← collectAll, run]
  show (a.collect env t >>= pure) = _
  exact bind_pure _

/-- The collectors of the agent are where each would be on its own. -/
structure Agrees (done : List Trace) (objects : Objects) (states : List (Collector × SharedCollector)) : Prop where
  rbs : ∀ env s, (Collector.rbs env, s) ∈ states → collectAll env done = .ok (s.view objects)
  named : ∀ env s, (Collector.rbs env, s) ∈ states → ∀ r ∈ s.refs, (objects r).named = true

theorem Agrees.kept {done : List Trace} {objects objects' : Objects} {states : List (Collector × SharedCollector)}
    (agrees : Agrees done objects states) (kept : ∀ r, (objects r).named = true → objects' r = objects r) :
    Agrees done objects' states := by
  refine ⟨fun env s member => ?_, fun env s member r ref => ?_⟩
  · rw [agrees.rbs env s member]
    exact congrArg Except.ok (SharedCollector.view_congr fun r ref => (kept r (agrees.named env s member r ref)).symm)
  · rw [kept r (agrees.named env s member r ref)]
    exact agrees.named env s member r ref

/-- The objects of a trace before all collectors or after some of them. -/
def Ready (collectors : List Collector) (done : List Trace) (t : Trace) (objects : Objects) : Prop :=
  (∀ i c, t.constantUpdates[i]? = some c → objects (done.length, i) = { constant := c }) ∨
    ∃ env, .rbs env ∈ collectors ∧ SeenFrom env done.length objects 0 (announced done) t.constantUpdates

theorem Undisturbed.ready (undisturbed : Undisturbed collectors traces) {done later : List Trace} {t : Trace}
    (split : traces = done ++ t :: later) {objects : Objects} (ready : Ready collectors done t objects)
    {env : Environment} (member : .rbs env ∈ collectors) :
    HeldFrom env done.length objects 0 (announced done) t.constantUpdates := by
  rcases ready with fresh | ⟨env', member', seen⟩
  · exact heldFrom_of_fresh fun i c there => by rw [Nat.zero_add]; exact fresh i c there
  · have all : announced traces = announced done ++ t.constantUpdates ++ announced later := by
      rw [split]
      simp [announced]
    exact undisturbed.held member' member all seen

theorem Agrees.tail {done : List Trace} {objects : Objects} {state : Collector × SharedCollector}
    {states : List (Collector × SharedCollector)} (agrees : Agrees done objects (state :: states)) :
    Agrees done objects states :=
  ⟨fun env s member => agrees.rbs env s (List.mem_cons_of_mem _ member),
    fun env s member => agrees.named env s (List.mem_cons_of_mem _ member)⟩

theorem Agrees.cons {done : List Trace} {objects : Objects} {collector : Collector} {s : SharedCollector}
    {states : List (Collector × SharedCollector)} (agrees : Agrees done objects states)
    (own : ∀ env, collector = .rbs env → collectAll env done = .ok (s.view objects))
    (named : ∀ env, collector = .rbs env → ∀ r ∈ s.refs, (objects r).named = true) :
    Agrees done objects ((collector, s) :: states) := by
  refine ⟨fun env t member => ?_, fun env t member => ?_⟩
  · rcases List.mem_cons.mp member with here | there
    · cases here
      exact own env rfl
    · exact agrees.rbs env t there
  · rcases List.mem_cons.mp member with here | there
    · cases here
      exact named env rfl
    · exact agrees.named env t there

/-- One trace, given to all collectors in turn. -/
theorem collectInTurn_spec (undisturbed : Undisturbed collectors traces) {done later : List Trace} {t : Trace}
    (split : traces = done ++ t :: later)
    {states : List (Collector × SharedCollector)} {objects : Objects} (members : ∀ state ∈ states, state.1 ∈ collectors)
    (returns : ∀ env s, (Collector.rbs env, s) ∈ states → ∃ a, collectAll env (done ++ [t]) = .ok a)
    (agrees : Agrees done objects states) (ready : Ready collectors done t objects) :
    ∃ objects' states', collectInTurn done.length t states objects = .ok (objects', states') ∧
      states'.map Prod.fst = states.map Prod.fst ∧ Agrees (done ++ [t]) objects' states' ∧
        Touches done.length objects objects' ∧
          (objects' = objects ∨ ∃ env s, (Collector.rbs env, s) ∈ states ∧
            SeenFrom env done.length objects' 0 (announced done) t.constantUpdates) := by
  induction states generalizing objects with
  | nil => exact ⟨objects, [], rfl, rfl, ⟨by simp, by simp⟩, .refl _ objects, .inl rfl⟩
  | cons state states ih =>
    obtain ⟨collector, s⟩ := state
    have own := members (collector, s) List.mem_cons_self
    have others := fun state member => members state (List.mem_cons_of_mem _ member)
    have return' := fun env s member => returns env s (List.mem_cons_of_mem _ member)
    cases collector with
    | other collect stop =>
      have leaves := (undisturbed.others collect stop own).1 done.length objects
      obtain ⟨objects', states', rest, same, after, touches, last⟩ := ih others return' agrees.tail ready
      refine ⟨objects', (.other collect stop, s) :: states', ?_, by rw [List.map_cons, List.map_cons, same],
        after.cons nofun nofun, touches,
        last.imp_right fun ⟨env, s, there, seen⟩ => ⟨env, s, List.mem_cons_of_mem _ there, seen⟩⟩
      exact bind_eq_ok.mpr ⟨(objects, s), bind_eq_ok.mpr ⟨objects, leaves, rfl⟩, bind_eq_ok.mpr ⟨_, rest, rfl⟩⟩
    | rbs env =>
      have collected := collectAll_collected (agrees.rbs env s List.mem_cons_self)
      obtain ⟨a, next⟩ := returns env s List.mem_cons_self
      have run := next
      rw [collectAll_snoc (agrees.rbs env s List.mem_cons_self)] at run
      obtain ⟨objects₁, s₁, collects, view, seen, named, first⟩ := collect_spec collected
        (undisturbed.ready split ready own) (agrees.named env s List.mem_cons_self) run
      obtain ⟨objects', states', rest, same, after, touches, last⟩ :=
        ih others return' (agrees.tail.kept first.kept) (.inr ⟨env, own, seen⟩)
      have still : ∀ r ∈ s₁.refs, objects' r = objects₁ r := fun r ref => touches.kept r (named r ref)
      have viewAfter : s₁.view objects' = a := by rw [SharedCollector.view_congr still, view]
      refine ⟨objects', (.rbs env, s₁) :: states', bind_eq_ok.mpr ⟨_, collects, bind_eq_ok.mpr ⟨_, rest, rfl⟩⟩,
        by rw [List.map_cons, List.map_cons, same], after.cons (fun env' here => ?_) (fun _ _ r ref => ?_),
        first.trans touches, .inr ?_⟩
      · cases here
        rw [viewAfter, next]
      · rw [still r ref]
        exact named r ref
      · rcases last with rfl | ⟨env', s', there, seen'⟩
        · exact ⟨env, s, List.mem_cons_self, seen⟩
        · exact ⟨env', s', List.mem_cons_of_mem _ there, seen'⟩

/-- Where each would raise on its own, the first of them does. -/
theorem collectInTurn_raises (undisturbed : Undisturbed collectors traces) {done later : List Trace} {t : Trace}
    (split : traces = done ++ t :: later)
    (raises : ∀ env, .rbs env ∈ collectors → ∃ e, collectAll env (done ++ [t]) = .error e)
    {states : List (Collector × SharedCollector)} {objects : Objects} (members : ∀ state ∈ states, state.1 ∈ collectors)
    (some : ∃ env s, (Collector.rbs env, s) ∈ states) (agrees : Agrees done objects states)
    (ready : Ready collectors done t objects) : ∃ e, collectInTurn done.length t states objects = .error e := by
  induction states with
  | nil =>
    obtain ⟨env, s, member⟩ := some
    cases member
  | cons state states ih =>
    obtain ⟨collector, s⟩ := state
    have own := members (collector, s) List.mem_cons_self
    cases collector with
    | other collect stop =>
      have leaves := (undisturbed.others collect stop own).1 done.length objects
      obtain ⟨env, s', there⟩ := some
      have later : ∃ env s, (Collector.rbs env, s) ∈ states := ⟨env, s', by simpa using there⟩
      obtain ⟨e, raised⟩ := ih (fun state member => members state (List.mem_cons_of_mem _ member)) later
        agrees.tail
      refine ⟨e, ?_⟩
      simp only [collectInTurn, Collector.collect, leaves]
      show (collectInTurn done.length t states objects >>= _) = _
      rw [raised]
      rfl
    | rbs env =>
      have run := agrees.rbs env s List.mem_cons_self
      obtain ⟨e, next⟩ := raises env own
      rw [collectAll_snoc run] at next
      have raised := collect_raises (collectAll_collected run) (undisturbed.ready split ready own)
        (agrees.named env s List.mem_cons_self) next
      refine ⟨e, ?_⟩
      rw [collectInTurn, raised]
      rfl

theorem received_fresh {done later : List Trace} {t : Trace} (split : traces = done ++ t :: later) (i : Nat)
    (c : Constant) (there : t.constantUpdates[i]? = some c) : received traces (done.length, i) = { constant := c } := by
  simp [received, split, there]

/-- A run of traces, given to all collectors. -/
theorem collectTraces_spec (undisturbed : Undisturbed collectors traces) {env : Environment}
    (member : .rbs env ∈ collectors) {now later done : List Trace} (split : traces = done ++ (now ++ later))
    {states : List (Collector × SharedCollector)} {objects : Objects} (same : states.map Prod.fst = collectors)
    (agrees : Agrees done objects states) (fresh : ∀ r : Ref, done.length ≤ r.1 → objects r = received traces r) :
    (∃ objects' states', collectTraces done.length now (objects, states) = .ok (objects', states') ∧
      states'.map Prod.fst = collectors ∧ Agrees (done ++ now) objects' states' ∧
        ∀ r : Ref, (done ++ now).length ≤ r.1 → objects' r = received traces r) ∨
    ((∃ e, collectTraces done.length now (objects, states) = .error e) ∧
      ∀ env, .rbs env ∈ collectors → ∃ e, collectAll env (done ++ now) = .error e) := by
  induction now generalizing done objects states with
  | nil =>
    rw [List.append_nil]
    exact .inl ⟨objects, states, rfl, same, agrees, fresh⟩
  | cons t now ih =>
    have members : ∀ state ∈ states, state.1 ∈ collectors := fun state there => same ▸ List.mem_map_of_mem there
    have ready : Ready collectors done t objects :=
      .inl fun i c there => (fresh _ le_rfl).trans (received_fresh split i c there)
    have agree {env' : Environment} (member' : .rbs env' ∈ collectors) := undisturbed.upcase env env' member member'
    have appended : done ++ t :: now = done ++ [t] ++ now := by simp
    cases next : collectAll env (done ++ [t]) with
    | ok a =>
      have returns : ∀ env' s, (Collector.rbs env', s) ∈ states → ∃ a, collectAll env' (done ++ [t]) = .ok a :=
        fun env' s there => collectAll_returns_upcase (agree (members _ there)) next
      obtain ⟨objects', states', turn, same', after, touches, _⟩ :=
        collectInTurn_spec undisturbed split members returns agrees ready
      have rest := ih (by rw [split]; simp) (same'.trans same) after fun r later => by
        rw [List.length_append, List.length_singleton] at later
        rw [touches.frame r (by omega), fresh r (by omega)]
      have unfolded : collectTraces done.length (t :: now) (objects, states) =
          collectTraces (done ++ [t]).length now (objects', states') := by
        rw [collectTraces, turn, List.length_append]
        rfl
      rw [unfolded, appended]
      exact rest
    | error e =>
      have raises := collectAll_raises_all undisturbed member next
      have some : ∃ env s, (Collector.rbs env, s) ∈ states := by
        obtain ⟨⟨collector, s⟩, there, rfl⟩ := List.mem_map.mp (same ▸ member)
        exact ⟨env, s, there⟩
      obtain ⟨e', raised⟩ := collectInTurn_raises undisturbed split raises members some agrees ready
      refine .inr ⟨⟨e', ?_⟩, fun env' member' => ?_⟩
      · rw [collectTraces]
        show (collectInTurn done.length t states objects >>= _) = _
        rw [raised]
        rfl
      · obtain ⟨e'', run⟩ := raises env' member'
        refine ⟨e'', ?_⟩
        rw [appended, collectAll, List.foldlM_append, ← collectAll, run]
        rfl

theorem start_agrees {objects : Objects} : Agrees [] objects (collectors.map fun collector => (collector, {})) := by
  have empty {env : Environment} {s : SharedCollector}
      (member : (Collector.rbs env, s) ∈ collectors.map fun collector => (collector, ({} : SharedCollector))) :
      s = {} := by
    obtain ⟨collector, _, same⟩ := List.mem_map.mp member
    exact (Prod.ext_iff.mp same).2.symm
  refine ⟨fun env s member => ?_, fun env s member r ref => ?_⟩
  · rw [empty member]
    rfl
  · rw [empty member] at ref
    cases ref

theorem start_same :
    (collectors.map fun collector => (collector, ({} : SharedCollector))).map Prod.fst = collectors := by
  rw [List.map_map]
  exact List.map_id _

theorem collectTraces_whole (undisturbed : Undisturbed collectors traces) {env : Environment}
    (member : .rbs env ∈ collectors) :
    (∃ objects states, collectTraces 0 traces (received traces, collectors.map fun collector => (collector, {})) =
      .ok (objects, states) ∧ states.map Prod.fst = collectors ∧ Agrees traces objects states) ∨
    ((∃ e, collectTraces 0 traces (received traces, collectors.map fun collector => (collector, {})) = .error e) ∧
      ∀ env, .rbs env ∈ collectors → ∃ e, collectAll env traces = .error e) := by
  have whole : traces = [] ++ (traces ++ []) := by simp
  rcases collectTraces_spec undisturbed member whole start_same start_agrees fun _ _ => rfl with
    ⟨objects, states, returned, same, agrees, _⟩ | raises
  · exact .inl ⟨objects, states, returned, same, agrees⟩
  · exact .inr raises

/-- What `stop` leaves of the collectors behind it, when there is nothing to rename. -/
theorem Undisturbed.renamed (undisturbed : Undisturbed collectors traces) {env : Environment}
    (followed : Followed collectors env) {rest rest' : List (Collector × RBSCollector)}
    (renamed : List.Forall₂ (fun a b => b.1 = a.1 ∧ RenamedCollector env a.2 b.2) rest rest')
    (run : ∀ env s, (Collector.rbs env, s) ∈ rest → collectAll env traces = .ok s) :
    rest'.map Prod.fst = rest.map Prod.fst ∧
      ∀ env s, (Collector.rbs env, s) ∈ rest' → collectAll env traces = .ok s := by
  induction renamed with
  | nil => exact ⟨rfl, by simp⟩
  | @cons state state' rest rest' first _ ih =>
    obtain ⟨collector, s⟩ := state
    obtain ⟨collector', s'⟩ := state'
    obtain ⟨rfl, first⟩ := first
    obtain ⟨same, run'⟩ := ih fun env s member => run env s (List.mem_cons_of_mem _ member)
    refine ⟨by rw [List.map_cons, List.map_cons, same], fun env' t member => ?_⟩
    rcases List.mem_cons.mp member with here | there
    · cases here
      have own := run env' s List.mem_cons_self
      have unchanged : s' = s := first.eq fun owner member kind entry inside t there c type =>
        undisturbed.types env followed t (stored_of_collectAll own member inside there) c type
      rw [unchanged]
      exact own
    · exact run' env' t there

/-- No `stop` disturbs what the collectors behind it build. -/
theorem Stops.builds (undisturbed : Undisturbed collectors traces) {states : List (Collector × RBSCollector)}
    {builds : List (Option Build)} (stops : Stops states builds) {before : List Collector}
    (split : collectors = before ++ states.map Prod.fst)
    (run : ∀ env s, (Collector.rbs env, s) ∈ states → collectAll env traces = .ok s) :
    builds = (states.map Prod.fst).map (Collector.build traces) := by
  induction stops generalizing before with
  | done => rfl
  | @rbs env s rest rest' builds quiet renamed _ ih =>
    have own := run env s List.mem_cons_self
    have others := fun env s member => run env s (List.mem_cons_of_mem _ member)
    have build : Collector.build traces (.rbs env) = some (s.stop env) := by rw [Collector.build, own]
    cases rest with
    | nil =>
      cases renamed
      rw [ih (by simpa using split) (by simp), List.map_cons, List.map_cons, build]
    | cons next rest =>
      have followed : Followed collectors env := ⟨before, (next :: rest).map Prod.fst, split, by simp⟩
      obtain ⟨same, run'⟩ := undisturbed.renamed followed renamed others
      have appended : collectors = before ++ [.rbs env] ++ rest'.map Prod.fst := by
        rw [same]
        simpa using split
      rw [ih appended run', same, ← build]
      rfl
  | @rbsRaises env s rest raised raises =>
    have own := run env s List.mem_cons_self
    have last : rest = [] := by
      by_contra more
      have quiet := undisturbed.stops env ⟨before, rest.map Prod.fst, split, by simpa using more⟩ s own
      rw [raises] at quiet
      cases quiet
    rw [last, List.map_cons, List.map_cons, Collector.build, own]
    rfl
  | @other collect s rest builds _ ih =>
    have appended : collectors = before ++ [.other collect (.ok ())] ++ rest.map Prod.fst := by simpa using split
    rw [ih appended fun env s member => run env s (List.mem_cons_of_mem _ member)]
    rfl
  | @otherRaises collect raised s rest =>
    obtain ⟨_, quiet⟩ := undisturbed.others collect (.error raised) (by rw [split]; simp)
    cases quiet

/-- Undisturbed collectors build what each would build on its own. -/
theorem AgentRun.builds (undisturbed : Undisturbed collectors traces) {env : Environment}
    (member : .rbs env ∈ collectors) {builds : List (Option Build)} (run : AgentRun collectors traces builds) :
    builds = collectors.map (Collector.build traces) := by
  unfold AgentRun at run
  rcases collectTraces_whole undisturbed member with ⟨objects, states, returned, same, agrees⟩ | ⟨⟨e, raised⟩, raises⟩
  · rw [returned] at run
    have sameStates : (states.map fun state => (state.1, state.2.view objects)).map Prod.fst = collectors := by
      rw [List.map_map, ← same]
      rfl
    have whole : collectors = [] ++ (states.map fun state => (state.1, state.2.view objects)).map Prod.fst :=
      sameStates.symm
    rw [Stops.builds undisturbed run whole fun env s there => ?_, sameStates]
    obtain ⟨⟨collector, s'⟩, inside, viewed⟩ := List.mem_map.mp there
    cases viewed
    exact agrees.rbs env s' inside
  · rw [raised] at run
    rw [run]
    refine List.map_congr_left fun collector inside => ?_
    cases collector with
    | other collect stop => rfl
    | rbs env =>
      obtain ⟨e', raised⟩ := raises env inside
      rw [Collector.build, raised]

/-- A single collector has no other to disturb. -/
theorem Undisturbed.single (undisturbed : Undisturbed collectors traces) {env : Environment}
    (member : .rbs env ∈ collectors) : Undisturbed [.rbs env] traces := by
  have last {env' : Environment} : ¬ Followed [.rbs env] env' := by
    rintro ⟨before, after, split, more⟩
    rcases List.cons_eq_append_iff.mp split with ⟨rfl, single⟩ | ⟨rest, rfl, nothing⟩
    · exact more (List.cons.inj single).2
    · cases List.nil_eq_append_iff.mp nothing |>.2
  refine ⟨by simp, ?_, ?_, ?_, fun env' followed => absurd followed last, fun env' followed => absurd followed last⟩
  · rintro env₁ env₂ first second
    cases List.mem_singleton.mp first
    cases List.mem_singleton.mp second
    rfl
  · rintro env' here
    cases List.mem_singleton.mp here
    exact undisturbed.names env member
  · rintro env₁ env₂ first second n c _
    cases List.mem_singleton.mp first
    cases List.mem_singleton.mp second
    rfl

/-- A collector with these signatures does not change the mixin lists of what is announced. -/
def LeavesMixins (env : Environment) (traces : List Trace) : Prop :=
  (∀ c ∈ announced traces, ∀ name ∈ (mixinLists c).flatten, validName env name = .ok name) ∧
    ∀ n c, announcement env (announced traces) n = some c → mixinLists (recorded env c) = mixinLists c

theorem ensureValidNames_mixins {env : Environment} {c valid : Constant} (ensured : ensureValidNames env c = .ok valid)
    (fixed : ∀ name ∈ (mixinLists c).flatten, validName env name = .ok name) : mixinLists valid = mixinLists c := by
  have kept {names valid : List String} (run : names.mapM (validName env) = .ok valid)
      (inside : ∀ n ∈ names, n ∈ (mixinLists c).flatten) : valid = names := by
    rw [mapM_fixed names fun n member => fixed n (inside n member)] at run
    exact (Except.ok.inj run).symm
  obtain ⟨name, _, ensured⟩ := bind_eq_ok.mp ensured
  obtain ⟨superclass, _, ensured⟩ := bind_eq_ok.mp ensured
  obtain ⟨included, includes, ensured⟩ := bind_eq_ok.mp ensured
  obtain ⟨prepended, prepends, ensured⟩ := bind_eq_ok.mp ensured
  obtain ⟨extended, extends', ensured⟩ := bind_eq_ok.mp ensured
  cases ensured
  rw [kept includes fun n member => by simp [mixinLists, member],
    kept prepends fun n member => by simp [mixinLists, member],
    kept extends' fun n member => by simp [mixinLists, member]]
  rfl

theorem SeenFrom.mixins_eq {env : Environment} {objects : Objects} (leaves : LeavesMixins env traces)
    {before cs later : List Constant} {n p : Nat} (all : announced traces = before ++ cs ++ later)
    (seen : SeenFrom env n objects p before cs) {i : Nat} {c : Constant} (there : cs[i]? = some c) :
    mixinLists (objects (n, p + i)).constant = mixinLists c := by
  induction cs generalizing p before i with
  | nil => cases there
  | cons d cs ih =>
    obtain ⟨⟨valid, ensured, atRef⟩, rest⟩ := seen
    cases i with
    | zero =>
      have same : d = c := Option.some.inj there
      have split : announced traces = before ++ d :: (cs ++ later) := by simpa using all
      have fixed := ensureValidNames_mixins ensured (leaves.1 d (by rw [split]; simp))
      rw [Nat.add_zero, atRef, ← same, ← fixed]
      unfold settled
      split
      next => rfl
      next absent =>
        have first : announcement env before valid.name = none := by simpa using absent
        refine leaves.2 valid.name valid ?_
        rw [split]
        exact announcement_first ensured first
    | succ i =>
      rw [← Nat.succ_add_eq_add_succ]
      exact ih (by simpa using all) rest (by simpa using there)

theorem split_at {n : Nat} {t : Trace} (atN : traces[n]? = some t) :
    ∃ done later, traces = done ++ t :: later ∧ done.length = n := by
  obtain ⟨bound, same⟩ := List.getElem?_eq_some_iff.mp atN
  refine ⟨traces.take n, traces.drop (n + 1), ?_, by simp [bound.le]⟩
  rw [← same, List.getElem_cons_drop, List.take_append_drop]

theorem Agrees.take {done : List Trace} {objects : Objects} {states : List (Collector × SharedCollector)}
    (agrees : Agrees done objects states) (i : Nat) : Agrees done objects (states.take i) :=
  ⟨fun env s member => agrees.rbs env s (List.mem_of_mem_take member),
    fun env s member => agrees.named env s (List.mem_of_mem_take member)⟩

/-- The mixin lists come unchanged through collectors that leave them. -/
theorem Undisturbed.given_mixins (undisturbed : Undisturbed collectors traces) {i : Nat} {env : Environment}
    (member : .rbs env ∈ collectors) (leave : ∀ env', .rbs env' ∈ collectors.take i → LeavesMixins env' traces)
    {n : Nat} {t : Trace} {objects : Objects} (atN : traces[n]? = some t)
    (returned : given collectors traces n i = .ok objects) {p : Nat} {c : Constant}
    (there : t.constantUpdates[p]? = some c) :
    mixinLists (objects (n, p)).constant = mixinLists c := by
  obtain ⟨done, later, split, rfl⟩ := split_at atN
  have whole : traces = [] ++ (done ++ t :: later) := by simpa using split
  have before : traces.take done.length = done := by rw [split, List.take_left]
  unfold given at returned
  rw [before, atN] at returned
  obtain ⟨⟨start, states⟩, ran, returned⟩ := bind_eq_ok.mp returned
  obtain ⟨⟨objects', states'⟩, turn, rfl⟩ := map_eq_ok.mp returned
  have spec := collectTraces_spec undisturbed member whole start_same start_agrees fun _ _ => rfl
  rw [show collectTraces ([] : List Trace).length done _ = _ from ran] at spec
  rcases spec with ⟨start', states₀, same, sameStates, agrees, fresh⟩ | ⟨⟨e, raised⟩, _⟩
  · cases same
    have members : ∀ state ∈ states.take i, state.1 ∈ collectors :=
      fun state inside => sameStates ▸ List.mem_map_of_mem (List.mem_of_mem_take inside)
    have unseen : ∀ j c, t.constantUpdates[j]? = some c → start (done.length, j) = { constant := c } :=
      fun j c inside => (fresh _ le_rfl).trans (received_fresh split j c inside)
    have returns : ∀ env' s, (Collector.rbs env', s) ∈ states.take i → ∃ a, collectAll env' (done ++ [t]) = .ok a := by
      intro env' s inside
      cases next : collectAll env' (done ++ [t]) with
      | ok a => exact ⟨a, rfl⟩
      | error e =>
        have raises := collectAll_raises_all undisturbed (members _ inside) next
        obtain ⟨e', raised⟩ := collectInTurn_raises undisturbed split raises members ⟨env', s, inside⟩ (agrees.take i)
          (.inl unseen)
        rw [show collectInTurn done.length t (states.take i) start = _ from turn] at raised
        cases raised
    obtain ⟨objects'', states'', turn', _, _, _, last⟩ :=
      collectInTurn_spec undisturbed split members returns (agrees.take i) (.inl unseen)
    rw [show collectInTurn done.length t (states.take i) start = _ from turn] at turn'
    cases turn'
    rcases last with rfl | ⟨env', s, inside, seen⟩
    · exact congrArg mixinLists (congrArg ConstantObject.constant (unseen p c there))
    · have all : announced traces = announced done ++ t.constantUpdates ++ announced later := by
        rw [split]
        simp [announced]
      have before : .rbs env' ∈ collectors.take i := by
        rw [← sameStates, ← List.map_take]
        exact List.mem_map_of_mem inside
      have same := seen.mixins_eq (leave env' before) all there
      rwa [Nat.zero_add] at same
  · cases raised

/-- Undisturbed collectors build what each would build as the only one. If those before
it also leave the mixin lists, each is given the lists that were announced. -/
theorem collectors_independent (undisturbed : Undisturbed collectors traces) {i : Nat} {env : Environment}
    (here : collectors[i]? = some (.rbs env)) :
    (∀ builds alone, AgentRun collectors traces builds → AgentRun [.rbs env] traces alone →
      ∃ build, builds[i]? = some build ∧ alone = [build]) ∧
    ((∀ env', .rbs env' ∈ collectors.take i → LeavesMixins env' traces) → ∀ n t objects, traces[n]? = some t →
      given collectors traces n i = .ok objects →
        ∀ p c, t.constantUpdates[p]? = some c → mixinLists (objects (n, p)).constant = mixinLists c) := by
  have member : .rbs env ∈ collectors := List.mem_of_getElem? here
  refine ⟨fun builds alone run runAlone => ?_, fun leave n t objects atN returned p c there => ?_⟩
  · have all := run.builds undisturbed member
    have single := runAlone.builds (undisturbed.single member) List.mem_cons_self
    refine ⟨Collector.build traces (.rbs env), ?_, single⟩
    rw [all, List.getElem?_map, here, Option.map_some]
  · exact undisturbed.given_mixins member leave atN returned there

end

theorem stops_stopAll (states : List (Collector × RBSCollector)) : Stops states (stopAll states) := by
  induction states with
  | nil => exact .done
  | cons state rest ih =>
    obtain ⟨collector, s⟩ := state
    cases collector with
    | rbs env =>
      cases raised : (s.stop env).2 with
      | none =>
        rw [stopAll, raised]
        exact .rbs raised (List.forall₂_same.mpr fun state _ => ⟨rfl, .refl _⟩) ih
      | some e =>
        rw [stopAll, raised]
        exact .rbsRaises raised
    | other collect stop =>
      cases stop with
      | ok => exact .other ih
      | error e => exact .otherRaises

/-- The worker thread always ends. -/
theorem agentRun_run (collectors : List Collector) (traces : List Trace) :
    AgentRun collectors traces (agentRun collectors traces) := by
  unfold AgentRun agentRun
  cases collectTraces 0 traces (received traces, collectors.map fun collector => (collector, {})) with
  | error e => rfl
  | ok state => exact stops_stopAll _

/-- `comparableSignatures` with a library that declares `StringIO`. -/
def withReader : Environment :=
  .ofDecls fun name =>
    if name = toTypeName "StringIO" then some { includes := [toTypeName "Enumerable"] }
    else comparableSignatures.classDecls name

def reader : Constant where
  name := "StringIO"
  type := .CLASS
  superclass := some "Object"
  includedModules := ["Enumerable"]

def readers : List Constant :=
  wallet ++ [reader, { name := "Enumerable" }]

/-- Signatures that declare nothing. -/
def noSignatures : Environment :=
  .ofDecls fun _ => none

theorem recorded_plain {env : Environment} (plain : ∀ n classDecl, env.classDecls n = some classDecl →
    classDecl.includes = [] ∧ classDecl.prepends = [] ∧ classDecl.extensions = []) (c : Constant) :
    recorded env c = c := by
  unfold recorded
  split
  next classDecl decl =>
    obtain ⟨includes, prepends, extensions⟩ := plain _ classDecl decl
    simp [rejectExisting, includes, prepends, extensions]
  next => rfl

theorem recorded_comparable (c : Constant) : recorded comparableSignatures c = c := by
  refine recorded_plain (fun n classDecl decl => ?_) c
  simp only [comparableSignatures, Environment.ofDecls] at decl
  split at decl
  · cases decl
    exact ⟨rfl, rfl, rfl⟩
  · split at decl
    · cases decl
      exact ⟨rfl, rfl, rfl⟩
    · cases decl

theorem recorded_noSignatures (c : Constant) : recorded noSignatures c = c :=
  recorded_plain (fun _ _ decl => by cases decl) c

theorem readers_valid : ∀ c ∈ announced [callOfOpen readers], ∀ name ∈ c.mentions,
    validName noSignatures name = .ok name := by
  decide +kernel

theorem readers_undisturbed :
    Undisturbed [.rbs comparableSignatures, .rbs noSignatures] [callOfOpen readers] := by
  have either {env : Environment} (member : Collector.rbs env ∈ [.rbs comparableSignatures, .rbs noSignatures]) :
      env = comparableSignatures ∨ env = noSignatures := by
    simpa using member
  have upcase {env : Environment} (member : Collector.rbs env ∈ [.rbs comparableSignatures, .rbs noSignatures]) :
      validName env = validName noSignatures := by
    rcases either member with rfl | rfl <;> rfl
  have followed {env : Environment} (behind : Followed [.rbs comparableSignatures, .rbs noSignatures] env) :
      Collector.rbs env ∈ [.rbs comparableSignatures, .rbs noSignatures] := by
    obtain ⟨before, after, split, _⟩ := behind
    rw [split]
    simp
  have stops : ∀ env ∈ [comparableSignatures, noSignatures],
      (collectAll env [callOfOpen readers]).toOption.all (fun s => (s.stop env).2.isNone) = true := by
    decide +kernel
  refine ⟨by simp, fun env env' member member' => ?_, fun env member c inside name mentions valid validated => ?_,
    fun env env' member member' n c _ => ?_, fun env behind t inside c type name mentions => ?_,
    fun env behind s run => ?_⟩
  · rcases either member with rfl | rfl <;> rcases either member' with rfl | rfl <;> rfl
  · rw [upcase member, readers_valid c inside name mentions] at validated
    rw [upcase member, ← Except.ok.inj validated]
    exact readers_valid c inside name mentions
  · rcases either member with rfl | rfl <;> rcases either member' with rfl | rfl <;>
      simp only [recorded_comparable, recorded_noSignatures]
  · rw [upcase (followed behind)]
    rw [List.mem_singleton.mp inside] at type
    have same : c = { name := "Wallet", singleton := true } := by simpa [types, callOfOpen] using type
    subst same
    cases mentions with
    | self => decide +kernel
    | nested generic _ _ => cases generic
  · have quiet := stops env (by simpa using either (followed behind))
    rw [run] at quiet
    exact Option.isNone_iff_eq_none.mp quiet

theorem comparable_leavesMixins : LeavesMixins comparableSignatures [callOfOpen readers] := by
  refine ⟨fun c inside name mentions => readers_valid c inside name ?_, fun n c _ => by rw [recorded_comparable]⟩
  have listed : name ∈ c.includedModules ∨ name ∈ c.prependedModules ∨ name ∈ c.extendedModules := by
    simpa [mixinLists] using mentions
  simp only [Constant.mentions, List.mem_append, or_assoc]
  exact .inr listed

theorem collectors_independent_without_library :
    (∃ builds alone, AgentRun [.rbs comparableSignatures, .rbs noSignatures] [callOfOpen readers] builds ∧
      AgentRun [.rbs noSignatures] [callOfOpen readers] alone ∧ ∃ build, builds[1]? = some build ∧ alone = [build]) ∧
    ∃ objects, given [.rbs comparableSignatures, .rbs noSignatures] [callOfOpen readers] 0 1 = .ok objects ∧
      mixinLists (objects (0, 5)).constant = mixinLists reader := by
  have independent := collectors_independent readers_undisturbed
    (show [Collector.rbs comparableSignatures, .rbs noSignatures][1]? = some (.rbs noSignatures) from rfl)
  refine ⟨⟨_, _, agentRun_run _ _, agentRun_run _ _, independent.1 _ _ (agentRun_run _ _) (agentRun_run _ _)⟩, ?_⟩
  have checked : (given [.rbs comparableSignatures, .rbs noSignatures] [callOfOpen readers] 0 1).toOption.any
      (fun _ => true) = true := by
    decide +kernel
  obtain ⟨objects, returned, _⟩ := exists_of_any checked
  refine ⟨objects, returned, independent.2 (fun env before => ?_) 0 _ objects rfl returned 5 reader rfl⟩
  have same : env = comparableSignatures := by simpa using before
  rw [same]
  exact comparable_leavesMixins

/-- The members which the class has in a build. -/
def membersIn (name : String) (build : Option Build) : Option Nat := do
  let files ← build
  let file ← files.1.find? fun file => file.2.name = toTypeName name
  pure file.2.members.length

/-- A collector with the library takes the `include` of `StringIO` from one without it,
which is given the constant with no mixins. -/
theorem declared_mixin_lost :
    (∃ builds alone, AgentRun [.rbs withReader, .rbs comparableSignatures] [callOfOpen readers] builds ∧
      AgentRun [.rbs comparableSignatures] [callOfOpen readers] alone ∧
        ¬ ∃ build, builds[1]? = some build ∧ alone = [build]) ∧
    (given [.rbs withReader, .rbs comparableSignatures] [callOfOpen readers] 0 1).toOption.any fun objects =>
      (objects (0, 5)).constant.name = "StringIO" ∧ mixinLists (objects (0, 5)).constant = [[], [], []] := by
  refine ⟨⟨_, _, agentRun_run _ _, agentRun_run _ _, ?_⟩, by decide +kernel⟩
  have first : ((agentRun [.rbs withReader, .rbs comparableSignatures] [callOfOpen readers])[1]?.bind
      (membersIn "StringIO")) = some 0 := by
    decide +kernel
  have second : ((agentRun [.rbs comparableSignatures] [callOfOpen readers])[0]?.bind (membersIn "StringIO")) =
      some 1 := by
    decide +kernel
  rintro ⟨build, here, single⟩
  rw [here] at first
  rw [single, List.getElem?_cons_zero, first] at second
  cases second

end Racer.Sharing
