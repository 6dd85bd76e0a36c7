import Racer.Library.SkippingWalk
import Racer.Tracer.Explore

namespace Racer
open SkippingWalk

/-! The two loops of `explore_constant` as one walk over what a constant is made of. -/

/-- Where a record mentions another constant. -/
inductive Role
  | superclass | prepended | included | extended
  deriving DecidableEq, Repr

/-- A constant that is explored for the record of another one. -/
structure Source (κ : Type) where
  role : Role
  constant : κ
  deriving DecidableEq

def Constant.write (c : Constant) (role : Role) (name : String) : Constant :=
  match role with
  | .superclass => { c with superclass := some name }
  | .prepended => { c with prependedModules := c.prependedModules ++ [name] }
  | .included => { c with includedModules := c.includedModules ++ [name] }
  | .extended => { c with extendedModules := c.extendedModules ++ [name] }

/-- The names that a record mentions in a role. -/
def Constant.named (c : Constant) : Role → List String
  | .superclass => c.superclass.toList
  | .prepended => c.prependedModules
  | .included => c.includedModules
  | .extended => c.extendedModules

section
variable {κ : Type}

/-- A module is skipped when it is in `inner_constants`, the superclass never. -/
def Source.key (x : Source κ) : Option κ :=
  match x.role with
  | .superclass => none
  | .prepended | .included | .extended => some x.constant

/-- Only modules are explored with `inner_constants`. -/
def Source.brought (x : Source κ) (met : List κ) : List κ :=
  match x.role with
  | .superclass => []
  | .prepended | .included | .extended => met

theorem Source.key_eq_some {x : Source κ} {a : κ} : x.key = some a ↔ x.role ≠ .superclass ∧ x.constant = a := by
  obtain ⟨role, b⟩ := x
  cases role <;> simp [Source.key]

theorem Source.mem_brought {x : Source κ} {met : List κ} {b : κ} :
    b ∈ x.brought met ↔ x.role ≠ .superclass ∧ b ∈ met := by
  obtain ⟨role, a⟩ := x
  cases role <;> simp [Source.brought]

variable [DecidableEq κ] (h : Hierarchy κ)

/-- What the first loop explores, with the role in which it is written down. -/
def ancestorSources (k : κ) : List κ → Bool → List (Source κ)
  | [], _ => []
  | ancestor :: ancestors, prepended =>
    if ancestor = k then ancestorSources k ancestors false
    else if ancestor = stopObject h k then []
    else if h.type k = .T_CLASS ∧ h.type ancestor = .T_CLASS then
      if prepended then ancestorSources k ancestors prepended else [⟨.superclass, ancestor⟩]
    else ⟨if prepended then .prepended else .included, ancestor⟩ :: ancestorSources k ancestors prepended

def sources (k : κ) : List (Source κ) :=
  ancestorSources h k (h.modAncestors k) true ++
    (directSingletonAncestors h k (h.modAncestors (h.singletonClass k))).map (⟨.extended, ·⟩)

/-- The loops explore the sources one after the other, skip the modules that they
have met, and write each name into the record of `k`. -/
inductive Walks (explore : Exploration κ) (k : κ) :
    List κ → List (Source κ) → Constants κ → List (Taken (Source κ) κ) → Constants κ → Prop
  | nil {inner s} : Walks explore k inner [] s [] s
  | skip {inner x a xs s taken t} : x.key = some a → a ∈ inner → Walks explore k inner xs s taken t →
      Walks explore k inner (x :: xs) s taken t
  | take {inner x xs s u met taken t} : (∀ a ∈ x.key, a ∉ inner) → explore x.constant s = some (u, met) →
      Walks explore k (inner ++ x.brought met) xs (u.modify k (·.write x.role (u.nameOf x.constant))) taken t →
      Walks explore k inner (x :: xs) s (⟨x, x.brought met⟩ :: taken) t

/-- The constants that were brought along or are explored as a module. -/
def visited (taken : List (Taken (Source κ) κ)) : List κ :=
  taken.filterMap (·.item.key)

def inner (taken : List (Taken (Source κ) κ)) : List κ :=
  taken.flatMap (·.brought)

/-- A change to a record that keeps its name and mentions at most `name` in addition. -/
structure Mentions (name : String) (f : Constant → Constant) : Prop where
  kept : ∀ c, (f c).name = c.name
  mentions : ∀ c, ∀ n ∈ (f c).mentions, n ∈ c.mentions ∨ n = name

variable {h} {explore : Exploration κ} {k : κ}

/-- What both loops over ancestors do to the two globals: explore one of the
constants `from` and write its name into the record of `k`, any number of times. -/
inductive Captures (explore : Exploration κ) (k : κ) (sources : List κ) : Constants κ → Constants κ → Prop
  | done {s} : Captures explore k sources s s
  | visit {s t u met a f} : a ∈ sources → explore a s = some (t, met) → Mentions (t.nameOf a) f →
      Captures explore k sources (t.modify k f) u → Captures explore k sources s u

theorem Captures.mono {explore : Exploration κ} {k : κ} {sources more : List κ} {s t : Constants κ}
    (captures : Captures explore k sources s t) (subset : ∀ a ∈ sources, a ∈ more) :
    Captures explore k more s t := by
  induction captures with
  | done => exact .done
  | visit member explored mentions _ ih => exact .visit (subset _ member) explored mentions ih

theorem exploreAncestors_walks {ancestors : List κ} {prepended : Bool} {w w' : Walk κ}
    (walk : exploreAncestors h explore k ancestors prepended w = some w') :
    ∃ taken, Walks explore k w.innerConstants (ancestorSources h k ancestors prepended) w.constants taken w'.constants ∧
      w'.innerConstants = w.innerConstants ++ inner taken ∧
        w'.visitedConstants = w.visitedConstants ++ visited taken := by
  induction ancestors generalizing prepended w with
  | nil =>
    cases walk
    exact ⟨[], .nil, by simp [inner], by simp [visited]⟩
  | cons a ancestors ih =>
    unfold exploreAncestors at walk
    unfold ancestorSources
    split at walk
    next self => rw [if_pos self]; exact ih walk
    next self =>
    rw [if_neg self]
    split at walk
    next stop => cases walk; rw [if_pos stop]; exact ⟨[], .nil, by simp [inner], by simp [visited]⟩
    next stop =>
    rw [if_neg stop]
    split at walk
    next classes =>
      rw [if_pos classes]
      split at walk
      next early => rw [if_pos early]; exact ih walk
      next late =>
      rw [if_neg late]
      split at walk
      next => cases walk
      next s met explored =>
        cases walk
        exact ⟨_, .take (x := ⟨.superclass, a⟩) (by simp [Source.key]) explored .nil, by simp [inner, Source.brought],
          by simp [visited, Source.key]⟩
    next classes =>
    rw [if_neg classes]
    split at walk
    next known =>
      obtain ⟨taken, walks, rest⟩ := ih walk
      refine ⟨taken, .skip ?_ known walks, rest⟩
      cases prepended <;> rfl
    next fresh =>
    split at walk
    next => cases walk
    next s met explored =>
      obtain ⟨taken, walks, innerConstants, visitedConstants⟩ := ih walk
      cases prepended with
      | true =>
        refine ⟨_, .take (x := ⟨.prepended, a⟩) (by simpa [Source.key] using fresh) explored walks, ?_, ?_⟩
        · simpa [inner, Source.brought] using innerConstants
        · simpa [visited, Source.key] using visitedConstants
      | false =>
        refine ⟨_, .take (x := ⟨.included, a⟩) (by simpa [Source.key] using fresh) explored walks, ?_, ?_⟩
        · simpa [inner, Source.brought] using innerConstants
        · simpa [visited, Source.key] using visitedConstants

theorem exploreSingletonAncestors_walks {ancestors : List κ} {w w' : Walk κ}
    (walk : exploreSingletonAncestors h explore k ancestors w = some w') :
    ∃ taken, Walks explore k w.innerConstants ((directSingletonAncestors h k ancestors).map (⟨.extended, ·⟩))
        w.constants taken w'.constants ∧
      w'.innerConstants = w.innerConstants ++ inner taken ∧
        w'.visitedConstants = w.visitedConstants ++ visited taken := by
  induction ancestors generalizing w with
  | nil =>
    cases walk
    exact ⟨[], .nil, by simp [inner], by simp [visited]⟩
  | cons a ancestors ih =>
    unfold exploreSingletonAncestors at walk
    unfold directSingletonAncestors
    split at walk
    next self => rw [if_pos self]; exact ih walk
    next self =>
    rw [if_neg self]
    split at walk
    next stop => cases walk; rw [if_pos stop]; exact ⟨[], .nil, by simp [inner], by simp [visited]⟩
    next stop =>
    rw [if_neg stop]
    split at walk
    next fresh =>
      rw [if_pos fresh.1]
      split at walk
      next => cases walk
      next s met explored =>
        obtain ⟨taken, walks, innerConstants, visitedConstants⟩ := ih walk
        refine ⟨_, .take (x := ⟨.extended, a⟩) (by simpa [Source.key] using fresh.2) explored walks, ?_, ?_⟩
        · simpa [inner, Source.brought] using innerConstants
        · simpa [visited, Source.key] using visitedConstants
    next skipped =>
      obtain ⟨taken, walks, rest⟩ := ih walk
      split
      next module_ =>
        have known : a ∈ w.innerConstants := by
          by_contra fresh
          exact skipped ⟨module_, fresh⟩
        exact ⟨taken, .skip rfl known walks, rest⟩
      next => exact ⟨taken, walks, rest⟩

theorem ancestorSources_constants (ancestors : List κ) (prepended : Bool) :
    (ancestorSources h k ancestors prepended).map Source.constant = directAncestors h k ancestors prepended := by
  induction ancestors generalizing prepended with
  | nil => rfl
  | cons a ancestors ih =>
    unfold ancestorSources directAncestors
    split_ifs <;> simp [ih]

theorem Constant.write_name (c : Constant) (role : Role) (name : String) : (c.write role name).name = c.name := by
  cases role <;> rfl

theorem Constant.write_mentions (role : Role) (name : String) : Mentions name (Constant.write · role name) := by
  refine ⟨fun c => c.write_name role name, fun c n member => ?_⟩
  cases role <;> simp only [Constant.write, Constant.mentions, List.mem_append, Option.toList_some, List.mem_singleton]
    at member ⊢ <;> tauto

theorem Walks.captures {met : List κ} {xs : List (Source κ)} {s t : Constants κ} {taken : List (Taken (Source κ) κ)}
    (walks : Walks explore k met xs s taken t) : Captures explore k (xs.map Source.constant) s t := by
  induction walks with
  | nil => exact .done
  | skip _ _ _ ih => exact ih.mono fun b member => List.mem_cons_of_mem _ member
  | @take met x xs s u _ taken t _ explored _ ih =>
    exact .visit List.mem_cons_self explored (Constant.write_mentions x.role (u.nameOf x.constant))
      (ih.mono fun b member => List.mem_cons_of_mem _ member)

theorem exploreAncestors_captures {ancestors : List κ} {prepended : Bool} {w w' : Walk κ}
    (walk : exploreAncestors h explore k ancestors prepended w = some w') :
    Captures explore k (directAncestors h k ancestors prepended) w.constants w'.constants := by
  obtain ⟨taken, walks, _⟩ := exploreAncestors_walks walk
  rw [← ancestorSources_constants]
  exact walks.captures

theorem exploreSingletonAncestors_captures {ancestors : List κ} {w w' : Walk κ}
    (walk : exploreSingletonAncestors h explore k ancestors w = some w') :
    Captures explore k (directSingletonAncestors h k ancestors) w.constants w'.constants := by
  obtain ⟨taken, walks, _⟩ := exploreSingletonAncestors_walks walk
  simpa [Function.comp_def] using walks.captures

end

end Racer
