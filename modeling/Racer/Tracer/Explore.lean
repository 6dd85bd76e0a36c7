import Mathlib.Logic.Function.Basic
import Racer.Tracer.Ruby

namespace Racer

/-- `constant_map` and `constant_updates`. -/
structure Constants (κ : Type) where
  constantMap : κ → Option Constant := fun _ => none
  constantUpdates : List κ := []

/-- The two sets and the maps a loop of `explore_constant` writes to. -/
structure Walk (κ : Type) where
  constants : Constants κ
  innerConstants : List κ
  visitedConstants : List κ

/-- `explore_constant` with the constants it puts into `visited_constants`, none
while it has not returned. -/
abbrev Exploration (κ : Type) := κ → Constants κ → Option (Constants κ × List κ)

section
variable {κ : Type} [DecidableEq κ] (h : Hierarchy κ)

/-- `constant->name` of a constant in the map. -/
def Constants.nameOf (s : Constants κ) (k : κ) : String :=
  match s.constantMap k with
  | some c => c.name
  | none => ""

def Constants.enter (s : Constants κ) (k : κ) (c : Constant) : Constants κ :=
  { s with constantMap := Function.update s.constantMap k (some c) }

def Constants.modify (s : Constants κ) (k : κ) (f : Constant → Constant) : Constants κ :=
  { s with constantMap := Function.update s.constantMap k ((s.constantMap k).map f) }

def Constants.pushUpdate (s : Constants κ) (k : κ) : Constants κ :=
  { s with constantUpdates := s.constantUpdates ++ [k] }

def classTypeByConstant (k : κ) : ClassType :=
  match h.type k with
  | .T_CLASS => .CLASS
  | .T_MODULE => .MODULE

/-- What stands in front of each "::" of a name. -/
def namespacePath (current : List Char) : List Char → List String
  | ':' :: ':' :: rest => String.ofList current.reverse :: namespacePath [] rest
  | c :: rest => namespacePath (c :: current) rest
  | [] => []

/-- The name an anonymous class or module is given. -/
def anonymousName (k : κ) : String :=
  match h.type k with
  | .T_CLASS => ((h.superclasses k).findSome? h.classPathCached).getD "" ++ toString (h.address k)
  | .T_MODULE => "Module" ++ toString (h.address k)

/-- The name given when the namespace of `k` cannot be resolved. -/
def unresolvedName (k : κ) : String :=
  match h.type k with
  | .T_CLASS => "Class" ++ toString (h.address k)
  | .T_MODULE => "Module" ++ toString (h.address k)

/-- The record `explore_constant` puts into the map before it explores further. -/
def initialConstant (k : κ) : Constant :=
  match h.modName k with
  | some name => { name, anonymous := false, type := classTypeByConstant h k }
  | none => { name := anonymousName h k, anonymous := true, type := classTypeByConstant h k }

/-- The loop of `explore_constant_namespace`; false when it raises a NameError. -/
def exploreConstantNamespace (explore : Exploration κ) :
    κ → List String → Constants κ → Option (Constants κ × Bool)
  | _, [], s => some (s, true)
  | currentSpace, name :: path, s =>
    match h.constGetAt currentSpace name with
    | none => some (s, false)
    | some space =>
      match explore space s with
      | none => none
      | some (s, _) => exploreConstantNamespace explore space path s

/-- Explore the namespace of `k` unless `k` is anonymous, under `rb_rescue2`. -/
def exploreNamespaceOf (explore : Exploration κ) (k : κ) (s : Constants κ) : Option (Constants κ) :=
  match h.modName k with
  | none => some s
  | some name =>
    match exploreConstantNamespace h explore h.cObject (namespacePath [] name.toList) s with
    | none => none
    | some (s, true) => some s
    | some (s, false) =>
      some (s.modify k fun c => { c with anonymous := true, name := unresolvedName h k })

def stopObject (k : κ) : κ :=
  if h.cObject = k then h.mKernel else h.cObject

/-- The loop over `rb_mod_ancestors(ruby_constant)`. -/
def exploreAncestors (explore : Exploration κ) (k : κ) :
    List κ → Bool → Walk κ → Option (Walk κ)
  | [], _, w => some w
  | ancestor :: ancestors, prepended, w =>
    if ancestor = k then
      -- barrier from prepended to included/superclass
      exploreAncestors explore k ancestors false w
    else if ancestor = stopObject h k then some w
    else if h.type k = .T_CLASS ∧ h.type ancestor = .T_CLASS then
      if prepended then exploreAncestors explore k ancestors prepended w
      else
        match explore ancestor w.constants with
        | none => none
        | some (s, _) =>
          some { w with constants := s.modify k fun c => { c with superclass := some (s.nameOf ancestor) } }
    else if ancestor ∈ w.innerConstants then exploreAncestors explore k ancestors prepended w
    else
      match explore ancestor w.constants with
      | none => none
      | some (s, met) =>
        exploreAncestors explore k ancestors prepended
          { constants := s.modify k fun c =>
              if prepended then { c with prependedModules := c.prependedModules ++ [s.nameOf ancestor] }
              else { c with includedModules := c.includedModules ++ [s.nameOf ancestor] }
            innerConstants := w.innerConstants ++ met
            visitedConstants := w.visitedConstants ++ [ancestor] }

/-- The loop over the ancestors of the singleton class. -/
def exploreSingletonAncestors (explore : Exploration κ) (k : κ) : List κ → Walk κ → Option (Walk κ)
  | [], w => some w
  | ancestor :: ancestors, w =>
    if ancestor = h.singletonClass k then exploreSingletonAncestors explore k ancestors w
    else if ancestor = h.singletonClass h.cObject ∨ ancestor = h.cModule then some w
    else if h.type ancestor = .T_MODULE ∧ ancestor ∉ w.innerConstants then
      match explore ancestor w.constants with
      | none => none
      | some (s, met) =>
        exploreSingletonAncestors explore k ancestors
          { constants := s.modify k fun c =>
              { c with extendedModules := c.extendedModules ++ [s.nameOf ancestor] }
            innerConstants := w.innerConstants ++ met
            visitedConstants := w.visitedConstants ++ [ancestor] }
    else exploreSingletonAncestors explore k ancestors w

/-- `explore_constant`. Its recursion is bounded by the constants that are not in
the map yet; `fuel` counts how deep it may go. -/
def exploreConstant : Nat → Exploration κ
  | 0, _, _ => none
  | fuel + 1, k, s =>
    if (s.constantMap k).isSome then some (s, [])
    else
      match exploreNamespaceOf h (exploreConstant fuel) k (s.enter k (initialConstant h k)) with
      | none => none
      | some s =>
        match exploreAncestors h (exploreConstant fuel) k (h.modAncestors k) true ⟨s, [], []⟩ with
        | none => none
        | some w =>
          match exploreSingletonAncestors h (exploreConstant fuel) k
              (h.modAncestors (h.singletonClass k)) w with
          | none => none
          | some w => some (w.constants.pushUpdate k, w.visitedConstants ++ w.innerConstants)

/-- The namespace of a name resolves, fragment by fragment. -/
def namespaceResolves : κ → List String → Bool
  | _, [] => true
  | currentSpace, name :: path =>
    match h.constGetAt currentSpace name with
    | none => false
    | some space => namespaceResolves space path

/-- The constants of a namespace as far as it resolves. -/
def resolvedNamespace : κ → List String → List κ
  | _, [] => []
  | currentSpace, name :: path =>
    match h.constGetAt currentSpace name with
    | none => []
    | some space => space :: resolvedNamespace space path

def namespaceOf (k : κ) : List String :=
  match h.modName k with
  | some name => namespacePath [] name.toList
  | none => []

/-- The name of `k` once it has been explored. -/
def finalName (k : κ) : String :=
  match h.modName k with
  | none => anonymousName h k
  | some name => if namespaceResolves h h.cObject (namespaceOf h k) then name else unresolvedName h k

/-- The constants that the first loop explores, whatever was visited before. -/
def directAncestors (k : κ) : List κ → Bool → List κ
  | [], _ => []
  | ancestor :: ancestors, prepended =>
    if ancestor = k then directAncestors k ancestors false
    else if ancestor = stopObject h k then []
    else if h.type k = .T_CLASS ∧ h.type ancestor = .T_CLASS then
      if prepended then directAncestors k ancestors prepended else [ancestor]
    else ancestor :: directAncestors k ancestors prepended

def directSingletonAncestors (k : κ) : List κ → List κ
  | [] => []
  | ancestor :: ancestors =>
    if ancestor = h.singletonClass k then directSingletonAncestors k ancestors
    else if ancestor = h.singletonClass h.cObject ∨ ancestor = h.cModule then []
    else if h.type ancestor = .T_MODULE then ancestor :: directSingletonAncestors k ancestors
    else directSingletonAncestors k ancestors

/-- The constants whose names may be written into the record of `k`. -/
def mixins (k : κ) : List κ :=
  directAncestors h k (h.modAncestors k) true ++
    directSingletonAncestors h k (h.modAncestors (h.singletonClass k))

end

end Racer
