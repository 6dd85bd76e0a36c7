import Mathlib.Data.List.Induction
import Racer.Library.Memo

namespace Racer

/-! The path filter of `should_process_event` and its cache. -/

/-- The regexes of the VM. `pathHash` is `ST2FIX(rb_str_hash(path))`. -/
structure Regexes (ρ : Type) where
  equal : ρ → ρ → Bool
  isMatch : ρ → String → Bool
  pathHash : String → Nat
  isMatch_of_equal : ∀ r r', equal r r' = true → ∀ path, isMatch r path = isMatch r' path

/-- The path of an event or frame as the VM reports it. -/
inductive PathValue
  | nil
  | string (path : String)
  | other
  deriving DecidableEq

/-- The globals `pathMatcher` and `matched_paths`. -/
structure PathCache (ρ : Type) where
  pathMatcher : Option ρ := none
  matchedPaths : Nat → Option Bool := fun _ => none

namespace Regexes
variable {ρ : Type} (v : Regexes ρ)

def rbEqual : Option ρ → Option ρ → Bool
  | none, none => true
  | some r, some r' => v.equal r r'
  | _, _ => false

/-- What `start` does to the filter. The check of the depth comes after it. -/
def start (argPathMatcher : Option ρ) (s : PathCache ρ) : PathCache ρ :=
  { pathMatcher := argPathMatcher
    matchedPaths := if v.rbEqual s.pathMatcher argPathMatcher = false then fun _ => none else s.matchedPaths }

/-- `process_event_check_path`, which is only called when `pathMatcher` is a regex. -/
def processEventCheckPath (regex : ρ) (path : PathValue) (s : PathCache ρ) : Bool × PathCache ρ :=
  match path with
  | .string path =>
    match s.matchedPaths (v.pathHash path) with
    | some matched => (matched, s)
    | none =>
      (v.isMatch regex path,
        { s with matchedPaths := Function.update s.matchedPaths (v.pathHash path) (some (v.isMatch regex path)) })
  | _ => (true, s)

def shouldProcessEvent (path callerPath : PathValue) (s : PathCache ρ) : Bool × PathCache ρ :=
  match s.pathMatcher with
  | none => (true, s)
  | some regex =>
    let checked := v.processEventCheckPath regex path s
    if checked.1 = true ∨ callerPath = .nil then checked
    else v.processEventCheckPath regex callerPath checked.2

/-- Where the cache is kept, the old regex matches what the new one does. -/
theorem rbEqual_kept {v : Regexes ρ} {old new : Option ρ} (kept : v.rbEqual old new ≠ false) :
    (new = none → old = none) ∧ ∀ r' ∈ new, ∃ r ∈ old, ∀ path, v.isMatch r path = v.isMatch r' path := by
  rcases old with _ | r <;> rcases new with _ | r'
  · exact ⟨fun _ => rfl, by simp⟩
  · exact absurd rfl kept
  · exact absurd rfl kept
  · refine ⟨by simp, fun r'' same => ⟨r, rfl, ?_⟩⟩
    cases Option.mem_def.mp same
    exact v.isMatch_of_equal r r' (by simpa [rbEqual] using kept)

/-- The check asks a memo table. -/
theorem processEventCheckPath_string (regex : ρ) (path : String) (s : PathCache ρ) :
    v.processEventCheckPath regex (.string path) s =
      ((Memo.ask v.pathHash (v.isMatch regex) s.matchedPaths path).1,
        { s with matchedPaths := (Memo.ask v.pathHash (v.isMatch regex) s.matchedPaths path).2 }) := by
  unfold processEventCheckPath Memo.ask
  dsimp only
  cases s.matchedPaths (v.pathHash path) <;> rfl

end Regexes

/-- A start of the tracer, or the check of a path. -/
inductive PathEvent (ρ : Type)
  | start (pathRegex : Option ρ)
  | check (path : PathValue)

namespace PathCache
variable {ρ : Type} (v : Regexes ρ)

/-- Without a regex no path is checked. -/
def step (s : PathCache ρ) : PathEvent ρ → PathCache ρ
  | .start pathRegex => v.start pathRegex s
  | .check path =>
    match s.pathMatcher with
    | none => s
    | some regex => (v.processEventCheckPath regex path s).2

def after (history : List (PathEvent ρ)) : PathCache ρ :=
  history.foldl (step v) {}

/-- The regex of the latest start, and the strings checked since the regex
changed last. -/
structure Period (ρ : Type) where
  regex : Option ρ := none
  paths : List String := []

def Period.step (p : Period ρ) : PathEvent ρ → Period ρ
  | .start pathRegex => { regex := pathRegex, paths := if v.rbEqual p.regex pathRegex = false then [] else p.paths }
  | .check (.string path) => { p with paths := if p.regex.isSome then p.paths ++ [path] else p.paths }
  | .check _ => p

def period (history : List (PathEvent ρ)) : Period ρ :=
  history.foldl (Period.step v) {}

/-- No two strings of the period have one hash where only one of them matches. -/
def Period.Separated (p : Period ρ) : Prop :=
  ∀ regex ∈ p.regex, Memo.Separates v.pathHash (v.isMatch regex) p.paths

/-- No two paths of a period have one hash where only one of them matches. -/
def Separated (history : List (PathEvent ρ)) : Prop :=
  ∀ before, before <+: history → (period v before).Separated v

def latest (regex : Option ρ) : PathEvent ρ → Option ρ
  | .start pathRegex => pathRegex
  | .check _ => regex

/-- The regex of the latest start. -/
def latestRegex (history : List (PathEvent ρ)) : Option ρ :=
  history.foldl latest none

/-- Every check of a string answers as a fresh match of the latest regex. -/
def Faithful (history : List (PathEvent ρ)) : Prop :=
  ∀ before path, before ++ [.check (.string path)] <+: history → ∀ regex ∈ latestRegex before,
    (v.processEventCheckPath regex (.string path) (after v before)).1 = v.isMatch regex path

/-- The cache holds the answers of its period. -/
structure Caches (p : Period ρ) (s : PathCache ρ) : Prop where
  regex : s.pathMatcher = p.regex
  holds : ∀ regex ∈ p.regex, Memo.Holds v.pathHash (v.isMatch regex) p.paths s.matchedPaths
  empty : p.regex = none → p.paths = [] ∧ s.matchedPaths = fun _ => none

variable {v}

theorem Caches.step {p : Period ρ} {s : PathCache ρ} (caches : Caches v p s) (event : PathEvent ρ) :
    Caches v (p.step v event) (PathCache.step v s event) := by
  cases event with
  | start pathRegex =>
    simp only [PathCache.step, Period.step, Regexes.start, caches.regex]
    by_cases cleared : v.rbEqual p.regex pathRegex = false
    · rw [if_pos cleared, if_pos cleared]
      exact ⟨rfl, fun _ _ => Memo.holds_nil, fun _ => ⟨rfl, rfl⟩⟩
    · obtain ⟨ended, matched⟩ := Regexes.rbEqual_kept cleared
      rw [if_neg cleared, if_neg cleared]
      refine ⟨rfl, fun regex now => ?_, fun stopped => caches.empty (ended stopped)⟩
      obtain ⟨old, was, same⟩ := matched regex now
      exact (caches.holds old was).congr same
  | check path =>
    simp only [PathCache.step, caches.regex]
    cases now : p.regex with
    | none =>
      have same : p.step v (.check path) = p := by
        obtain ⟨regex, paths⟩ := p
        cases now
        cases path <;> rfl
      rw [same]
      exact caches
    | some regex =>
      cases path with
      | string path =>
        simp only [v.processEventCheckPath_string, Period.step, now, Option.isSome_some, if_true]
        refine ⟨caches.regex.trans now, fun regex' same => ?_, fun ended => ?_⟩
        · cases Option.mem_def.mp same
          exact (caches.holds regex now).ask path
        · cases ended
      | nil => exact caches
      | other => exact caches

theorem caches_after (history : List (PathEvent ρ)) : Caches v (period v history) (after v history) := by
  induction history using List.reverseRecOn with
  | nil => exact ⟨rfl, fun _ _ => Memo.holds_nil, fun _ => ⟨rfl, rfl⟩⟩
  | append_singleton history event ih =>
    simp only [period, after, List.foldl_append]
    exact ih.step event

theorem latestRegex_eq (history : List (PathEvent ρ)) : latestRegex history = (period v history).regex := by
  induction history using List.reverseRecOn with
  | nil => rfl
  | append_singleton history event ih =>
    simp only [period, latestRegex, List.foldl_append] at ih ⊢
    rcases event with pathRegex | path
    · rfl
    · cases path <;> exact ih

/-- A check of a string in a separated period answers right, and keeps the
period separated when it does. -/
theorem separated_check_iff {history : List (PathEvent ρ)} {path : String}
    (separated : (period v history).Separated v) :
    (period v (history ++ [.check (.string path)])).Separated v ↔
      ∀ regex ∈ latestRegex history,
        (v.processEventCheckPath regex (.string path) (after v history)).1 = v.isMatch regex path := by
  have caches : Caches v (period v history) (after v history) := caches_after history
  have next : period v (history ++ [.check (.string path)]) =
      (period v history).step v (.check (.string path)) := by
    simp [period]
  rw [next, latestRegex_eq (v := v)]
  constructor
  · intro separated regex now
    rw [v.processEventCheckPath_string]
    refine (caches.holds regex now).answer ?_
    simpa [Period.step, Option.mem_def.mp now] using separated regex now
  · intro right regex now
    have was : regex ∈ (period v history).regex := now
    have answer := right regex was
    rw [v.processEventCheckPath_string] at answer
    simpa [Period.step, Option.mem_def.mp was] using (caches.holds regex was).separates (separated regex was) answer

/-- Every other event keeps a period separated. -/
theorem Period.Separated.step {p : Period ρ} (separated : p.Separated v) (event : PathEvent ρ)
    (other : ∀ path, event ≠ .check (.string path)) : (p.step v event).Separated v := by
  rcases event with pathRegex | path
  · intro regex now
    cases Option.mem_def.mp now
    by_cases cleared : v.rbEqual p.regex (some regex) = false
    · simp [Period.step, cleared, Memo.Separates]
    · obtain ⟨old, was, same⟩ := (Regexes.rbEqual_kept cleared).2 regex rfl
      simp only [Period.step, if_neg cleared]
      exact funext same ▸ separated old was
  · cases path with
    | string path => exact absurd rfl (other path)
    | nil => exact separated
    | other => exact separated

/-- The cache answers every check as the latest regex would if and only if no two
strings of a period have one hash where only one of them matches. -/
theorem faithful_iff_separated (v : Regexes ρ) (history : List (PathEvent ρ)) :
    Faithful v history ↔ Separated v history := by
  constructor
  · intro faithful before part
    induction before using List.reverseRecOn with
    | nil =>
      intro regex now
      cases now
    | append_singleton before event ih =>
      have separated := ih ((List.prefix_append before [event]).trans part)
      by_cases string : ∃ path, event = .check (.string path)
      · obtain ⟨path, rfl⟩ := string
        exact (separated_check_iff separated).mpr (faithful before path part)
      · have stepped := separated.step event fun path same => string ⟨path, same⟩
        simpa [period] using stepped
  · intro separated before path part regex now
    have sooner := separated before ((List.prefix_append before _).trans part)
    exact (separated_check_iff sooner).mp (separated _ part) regex now

/-- Regexes that are the strings they match, under a hash that counts characters. -/
def byLength : Regexes String where
  equal := fun r r' => r == r'
  isMatch := fun r path => r == path
  pathHash := String.length
  isMatch_of_equal := by
    intro r r' same path
    rw [beq_iff_eq.mp same]

/-- A path that does not match is answered by the match of another path with the same hash. -/
theorem colliding_paths : ¬ Faithful byLength
    [.start (some "a.rb"), .check (.string "a.rb"), .check (.string "b.rb")] := by
  intro faithful
  have answer := faithful [.start (some "a.rb"), .check (.string "a.rb")] "b.rb" (List.prefix_refl _) "a.rb" rfl
  exact absurd answer (by decide)

end PathCache

end Racer
