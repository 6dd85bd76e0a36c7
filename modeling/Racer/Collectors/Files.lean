import Racer.Collectors.Declarations
import Racer.Collectors.Names
import Racer.Collectors.SelfTypes

namespace Racer
open Outcome

/-! The files that `stop` writes, and which of them replace one another. -/

/-- A name that Ruby takes for a constant. Characters that are not ASCII may stand everywhere. -/
def isConstantName (fragment : String) : Bool :=
  (fragment.toList.head?.any fun c => c.isUpper || 128 ≤ c.toNat) &&
    fragment.toList.tail.all fun c => isWord c || 128 ≤ c.toNat

def IsConstantPath (name : String) : Prop :=
  ∃ fragments : List String, fragments ≠ [] ∧ (∀ f ∈ fragments, isConstantName f) ∧ name = "::".intercalate fragments

/-- What is used of Ruby's `downcase`: underscores and slashes stay, and are made of nothing else. -/
structure Environment.Downcases (env : Environment) : Prop where
  underscore : (env.downcase '_').toList = ['_']
  noUnderscore : ∀ c, c ≠ '_' → '_' ∉ (env.downcase c).toList
  noSlash : ∀ c, c ≠ '/' → '/' ∉ (env.downcase c).toList

/-- A capital starts a word behind a small letter or a digit, and behind a capital if a
small letter follows. -/
def startsWord (previous : Option Char) (c : Char) (next : Option Char) : Bool :=
  c.isUpper && previous.any fun p => p.isLower || p.isDigit || (p.isUpper && next.any Char.isLower)

section
variable (env : Environment)

/-- The words behind a character, the first of which may continue its word. -/
def wordsFrom (previous : Option Char) : List Char → List (List Char)
  | [] => [[]]
  | c :: rest =>
    if c = '_' then [] :: wordsFrom (some c) rest
    else
      let words := (wordsFrom (some c) rest).modifyHead ((env.downcase c).toList ++ ·)
      if startsWord previous c rest.head? then [] :: words else words

/-- The words that a fragment spells. Without a capital only underscores separate them. -/
def fragmentWords (fragment : String) : List (List Char) :=
  if fragment.toList.any Char.isUpper then wordsFrom env none fragment.toList else fragment.toList.splitOn '_'

/-- The names have the same words in each fragment. -/
def SameWords (name name' : String) : Prop :=
  (nameFragments name).map (fragmentWords env) = (nameFragments name').map (fragmentWords env)

end

section
variable {env : Environment}

theorem not_isUpper_underscore : Char.isUpper '_' = false := by
  decide

theorem isConstantName_cons {f : String} (constant : isConstantName f) : ∃ c rest, f.toList = c :: rest ∧
    (c.isUpper = true ∨ 128 ≤ c.toNat) ∧ ∀ d ∈ rest, isWord d = true ∨ 128 ≤ d.toNat := by
  unfold isConstantName at constant
  cases chars : f.toList with
  | nil => simp [chars] at constant
  | cons c rest => exact ⟨c, rest, rfl, by simpa [chars] using constant⟩

theorem not_mem_of_isConstantName {f : String} (constant : isConstantName f) {c : Char} (symbol : c.toNat < 128)
    (notUpper : c.isUpper = false) (notWord : isWord c = false) : c ∉ f.toList := by
  obtain ⟨first, rest, chars, starts, others⟩ := isConstantName_cons constant
  rw [chars, List.mem_cons, not_or]
  constructor
  · rintro rfl
    rcases starts with upper | wide
    · rw [notUpper] at upper
      cases upper
    · omega
  · intro member
    rcases others c member with word | wide
    · rw [notWord] at word
      cases word
    · omega

theorem isFragment_of_isConstantName {f : String} (constant : isConstantName f) : IsFragment f := by
  refine ⟨fun empty => ?_, not_mem_of_isConstantName constant (by decide) (by decide) (by decide)⟩
  obtain ⟨c, rest, chars, _⟩ := isConstantName_cons constant
  rw [empty, String.toList_empty] at chars
  cases chars

theorem wordsFrom_ne_nil (env : Environment) (previous : Option Char) (chars : List Char) :
    wordsFrom env previous chars ≠ [] := by
  induction chars generalizing previous with
  | nil => simp [wordsFrom]
  | cons c rest ih =>
    obtain ⟨word, words, later⟩ := List.exists_cons_of_ne_nil (ih (some c))
    rw [wordsFrom, later]
    split
    · simp
    · split <;> simp

/-- A word has no underscore in it. -/
theorem wordsFrom_clean (downcases : env.Downcases) (previous : Option Char) (chars : List Char) :
    ∀ word ∈ wordsFrom env previous chars, '_' ∉ word := by
  induction chars generalizing previous with
  | nil => simp [wordsFrom]
  | cons c rest ih =>
    have later := ih (some c)
    obtain ⟨word, words, shape⟩ := List.exists_cons_of_ne_nil (wordsFrom_ne_nil env (some c) rest)
    rw [shape, List.forall_mem_cons] at later
    rw [wordsFrom, shape]
    split
    · simpa using later
    next other =>
      have own := downcases.noUnderscore c other
      have longer : '_' ∉ (env.downcase c).toList ++ word := by simp [own, later.1]
      split <;> simpa using ⟨by simpa using longer, later.2⟩

/-- `underscore` puts an underscore between the words. -/
theorem underscoreWords_eq (downcases : env.Downcases) (previous : Option Char) {chars : List Char}
    (noDash : '-' ∉ chars) :
    (underscoreWords env previous chars).toList = ['_'].intercalate (wordsFrom env previous chars) := by
  induction chars generalizing previous with
  | nil => simp [underscoreWords, wordsFrom]
  | cons c rest ih =>
    rw [List.mem_cons, not_or] at noDash
    have later := ih (some c) noDash.2
    obtain ⟨word, words, shape⟩ := List.exists_cons_of_ne_nil (wordsFrom_ne_nil env (some c) rest)
    rw [shape] at later
    have starts : ((previous.any Char.isUpper && c.isUpper && rest.head?.any Char.isLower) ||
        (previous.any (fun p => p.isLower || p.isDigit) && c.isUpper)) = startsWord previous c rest.head? := by
      unfold startsWord
      cases previous with
      | none => simp
      | some p =>
        simp only [Option.any_some]
        cases c.isUpper <;> cases p.isUpper <;> simp [Bool.or_comm]
    have unfolded : (underscoreWords env previous (c :: rest)).toList =
        (if startsWord previous c rest.head? then "_" else "").toList ++
          ((env.downcase c).toList ++ ['_'].intercalate (word :: words)) := by
      rw [underscoreWords]
      simp only [starts, Ne.symm noDash.1, if_false, String.toList_append, later, List.append_assoc]
    rw [unfolded, wordsFrom, shape]
    by_cases underscore : c = '_'
    · subst underscore
      have plain : startsWord previous '_' rest.head? = false := by simp [startsWord, not_isUpper_underscore]
      simp [plain, downcases.underscore, List.intercalate_cons_cons]
    · have longer : ['_'].intercalate (((env.downcase c).toList ++ word) :: words) =
          (env.downcase c).toList ++ ['_'].intercalate (word :: words) := by
        cases words <;> simp [List.intercalate_cons_cons]
      rw [if_neg underscore]
      cases startsWord previous c rest.head? <;> simp [List.intercalate_cons_cons, longer]

theorem underscore_eq (downcases : env.Downcases) {f : String} (constant : isConstantName f) :
    (underscore env f).toList = ['_'].intercalate (fragmentWords env f) := by
  have noDash : '-' ∉ f.toList := not_mem_of_isConstantName constant (by decide) (by decide) (by decide)
  have capitals : (f.toList.any fun c => c.isUpper || c = '-') = f.toList.any Char.isUpper := by
    rw [Bool.eq_iff_iff, List.any_eq_true, List.any_eq_true]
    refine exists_congr fun c => and_congr_right fun member => ?_
    have other : c ≠ '-' := fun same => noDash (same ▸ member)
    simp [other]
  unfold underscore fragmentWords
  rw [capitals]
  split
  · exact underscoreWords_eq downcases none noDash
  · rw [List.intercalate_splitOn]

/-- The words can be read off the result. -/
theorem splitOn_underscore (downcases : env.Downcases) {f : String} (constant : isConstantName f) :
    (underscore env f).toList.splitOn '_' = fragmentWords env f := by
  rw [underscore_eq downcases constant]
  by_cases capitals : f.toList.any Char.isUpper = true
  · rw [fragmentWords, if_pos capitals]
    exact List.splitOn_intercalate '_' (wordsFrom_clean downcases none f.toList) (wordsFrom_ne_nil env none f.toList)
  · rw [fragmentWords, if_neg capitals, List.intercalate_splitOn]

theorem slash_not_mem_underscoreWords (downcases : env.Downcases) (previous : Option Char) {chars : List Char}
    (noSlash : '/' ∉ chars) : '/' ∉ (underscoreWords env previous chars).toList := by
  induction chars generalizing previous with
  | nil => simp [underscoreWords]
  | cons c rest ih =>
    rw [List.mem_cons, not_or] at noSlash
    have own := downcases.noSlash c (Ne.symm noSlash.1)
    rw [underscoreWords, String.toList_append, String.toList_append, List.mem_append, List.mem_append, not_or, not_or]
    refine ⟨⟨?_, ?_⟩, ih (some c) noSlash.2⟩
    · split <;> simp
    · split
      · simp
      · exact own

theorem slash_not_mem_underscore (downcases : env.Downcases) {f : String} (constant : isConstantName f) :
    '/' ∉ (underscore env f).toList := by
  have noSlash : '/' ∉ f.toList := not_mem_of_isConstantName constant (by decide) (by decide) (by decide)
  unfold underscore
  split
  · exact slash_not_mem_underscoreWords downcases none noSlash
  · exact noSlash

theorem IsConstantPath.fragments {name : String} (path : IsConstantPath name) :
    nameFragments name ≠ [] ∧ (∀ f ∈ nameFragments name, isConstantName f) ∧
      name = "::".intercalate (nameFragments name) := by
  obtain ⟨fragments, nonempty, constants, rfl⟩ := path
  have read := nameFragments_intercalate nonempty fun f member => isFragment_of_isConstantName (constants f member)
  rw [read]
  exact ⟨nonempty, constants, rfl⟩

/-- Two owners have one file exactly if their names have the same words. -/
theorem fileName_eq_iff (downcases : env.Downcases) {name name' : String} (path : IsConstantPath name)
    (path' : IsConstantPath name') : fileName env name = fileName env name' ↔ SameWords env name name' := by
  -- the fragments can be read off the path, and their words off the fragments
  have parts {n : String} (path : IsConstantPath n) :
      ("/".intercalate ((nameFragments n).map (underscore env))).toList.splitOn '/' =
        (nameFragments n).map fun f => (underscore env f).toList := by
    rw [String.toList_intercalate, List.map_map]
    refine List.splitOn_intercalate '/' ?_ (by simpa using path.fragments.1)
    refine List.forall_mem_map.mpr fun f member => ?_
    exact slash_not_mem_underscore downcases (path.fragments.2.1 f member)
  have words {n : String} (path : IsConstantPath n) : (nameFragments n).map (fragmentWords env) =
      ((nameFragments n).map fun f => (underscore env f).toList).map (List.splitOn '_') := by
    rw [List.map_map]
    exact List.map_congr_left fun f member => (splitOn_underscore downcases (path.fragments.2.1 f member)).symm
  have joined {n : String} (path : IsConstantPath n) : (nameFragments n).map (underscore env) =
      ((nameFragments n).map (fragmentWords env)).map fun words => String.ofList (['_'].intercalate words) := by
    rw [List.map_map]
    refine List.map_congr_left fun f member => ?_
    rw [Function.comp_apply, ← underscore_eq downcases (path.fragments.2.1 f member), String.ofList_toList]
  constructor
  · intro same
    have joins : "/".intercalate ((nameFragments name).map (underscore env)) =
        "/".intercalate ((nameFragments name').map (underscore env)) := by
      have chars := congrArg String.toList same
      rw [fileName, fileName, String.toList_append, String.toList_append] at chars
      exact String.toList_inj.mp (List.append_cancel_right chars)
    rw [SameWords, words path, words path', ← parts path, ← parts path', joins]
  · intro same
    rw [fileName, fileName, joined path, joined path', same]

/-- Different paths have different type names. -/
theorem IsConstantPath.eq_of_toTypeName {name name' : String} (path : IsConstantPath name)
    (path' : IsConstantPath name') (same : toTypeName name = toTypeName name') : name = name' := by
  obtain ⟨nonempty, _, joined⟩ := path.fragments
  obtain ⟨nonempty', _, joined'⟩ := path'.fragments
  obtain ⟨front, last, split⟩ := List.eq_nil_or_concat (nameFragments name) |>.resolve_left nonempty
  obtain ⟨front', last', split'⟩ := List.eq_nil_or_concat (nameFragments name') |>.resolve_left nonempty'
  have parts : front = front' ∧ last = last' := by simpa [toTypeName, split, split'] using same
  rw [joined, joined', split, split', parts.1, parts.2]

end

/-- No file is needed for an existing type without new members. -/
def RBSCollector.skips (s : RBSCollector) (name : String) (d : Declaration) : Bool :=
  d.members.isEmpty && (s.existingTypes.get? name).isSome

section
variable (env : Environment) (s : RBSCollector)

/-- The declaration of an owner that is not skipped. -/
def RBSCollector.Declares (name : String) (d : Declaration) : Prop :=
  ∃ owner, s.results.get? name = some owner ∧ toDeclaration env s owner = .ok d ∧ s.skips name d = false

/-- `stop` returns and has written a file with each of these declarations. -/
structure KeepsDeclarations : Prop where
  returns : (s.stop env).2 = none
  kept : ∀ name d, s.Declares env name d → ∃ path, (contents (s.stop env).1).get? path = some d

end

section
variable {env : Environment}

/-- `stop` loses no declaration exactly if none raises and no two owners spell the same words. -/
theorem stop_keeps_declarations_iff (downcases : env.Downcases) {traces : List Trace} {s : RBSCollector}
    (run : collectAll env traces = .ok s)
    (paths : ∀ name owner, s.results.get? name = some owner → IsConstantPath name) :
    KeepsDeclarations env s ↔
      (∀ name owner, s.results.get? name = some owner → ∃ d, toDeclaration env s owner = .ok d) ∧
        ∀ name d name' d', s.Declares env name d → s.Declares env name' d' → SameWords env name name' →
          name = name' := by
  have collected := collectAll_collected run
  have files (each : ∀ entry ∈ s.results.entries, ∃ d, toDeclaration env s entry.2 = .ok d) (path : String)
      (d : Declaration) : (path, d) ∈ (s.stop env).1 ↔ ∃ name, fileName env name = path ∧ s.Declares env name d := by
    rw [RBSCollector.stop, (writeOwners_ok each).2]
    constructor
    · rintro ⟨⟨name, owner⟩, member, here, made, needed⟩
      exact ⟨name, here, owner, OrderedHash.mem_entries.mp member, made, needed⟩
    · rintro ⟨name, here, owner, found, made, needed⟩
      exact ⟨(name, owner), OrderedHash.mem_entries.mpr found, here, made, needed⟩
  have named {name : String} {d : Declaration} (declares : s.Declares env name d) : d.name = toTypeName name := by
    obtain ⟨owner, found, made, _⟩ := declares
    rw [(toDeclaration_members made).2.1, collected.name_eq found]
  have path {name : String} {d : Declaration} (declares : s.Declares env name d) : IsConstantPath name := by
    obtain ⟨owner, found, _⟩ := declares
    exact paths name owner found
  constructor
  · rintro ⟨returns, kept⟩
    have each := writeOwners_each returns
    refine ⟨fun name owner found => each (name, owner) (OrderedHash.mem_entries.mpr found), ?_⟩
    intro name d name' d' declares declares' same
    -- a declaration can only be in the file of its owner
    have own {n : String} {e : Declaration} (declares : s.Declares env n e) :
        (contents (s.stop env).1).get? (fileName env n) = some e := by
      obtain ⟨p, there⟩ := kept n e declares
      obtain ⟨m, here, declares'⟩ := (files each p e).mp (mem_of_get?_contents there)
      have both : toTypeName m = toTypeName n := (named declares').symm.trans (named declares)
      rw [(path declares').eq_of_toTypeName (path declares) both] at here
      rw [here]
      exact there
    have file : fileName env name = fileName env name' :=
      (fileName_eq_iff downcases (path declares) (path declares')).mpr same
    have both : some d = some d' := by rw [← own declares, ← own declares', file]
    cases both
    exact (path declares).eq_of_toTypeName (path declares') ((named declares).symm.trans (named declares'))
  · rintro ⟨built, distinct⟩
    have each : ∀ entry ∈ s.results.entries, ∃ d, toDeclaration env s entry.2 = .ok d := fun entry member =>
      built entry.1 entry.2 (OrderedHash.mem_entries.mp member)
    refine ⟨(writeOwners_ok each).1, fun name d declares => ⟨fileName env name, ?_⟩⟩
    refine (get?_contents fun p e e' member member' => ?_).mpr ((files each _ d).mpr ⟨name, rfl, declares⟩)
    obtain ⟨n, here, declares⟩ := (files each p e).mp member
    obtain ⟨n', here', declares'⟩ := (files each p e').mp member'
    have words := (fileName_eq_iff downcases (path declares) (path declares')).mp (here.trans here'.symm)
    cases distinct n e n' e' declares declares' words
    obtain ⟨owner, found, made, _⟩ := declares
    obtain ⟨owner', found', made', _⟩ := declares'
    cases found.symm.trans found'
    cases made.symm.trans made'
    rfl

end

instance (env : Environment) (name name' : String) : Decidable (SameWords env name name') :=
  inferInstanceAs (Decidable (_ = _))

/-- An upper case letter becomes a lower case letter, and all else stays. -/
theorem toLower_cases (c : Char) : (97 ≤ c.toLower.toNat ∧ c.toLower.toNat ≤ 122) ∨ c.toLower = c := by
  by_cases upper : 'A'.val ≤ c.val ∧ c.val ≤ 'Z'.val
  · have val : c.toLower.toNat = (c.val + ('a'.val - 'A'.val)).toNat := by
      have lower : c.toLower = ⟨c.val + ('a'.val - 'A'.val), _⟩ := dif_pos upper
      rw [lower]
      rfl
    have bounds : 65 ≤ c.val.toNat ∧ c.val.toNat ≤ 90 := upper
    rw [UInt32.toNat_add] at val
    have offset : ('a'.val - 'A'.val).toNat = 32 := by decide
    left
    omega
  · exact .inr (dif_neg upper)

theorem ofDecls_downcases (classDecls : TypeName → Option ClassDecl) : (Environment.ofDecls classDecls).Downcases := by
  have chars (c : Char) : ((Environment.ofDecls classDecls).downcase c).toList = [c.toLower] := by
    simp [Environment.ofDecls, Char.toString]
  have kept {c symbol : Char} (other : c ≠ symbol) (noLetter : symbol.toNat < 97) : symbol ≠ c.toLower := by
    rintro rfl
    rcases toLower_cases c with ⟨low, _⟩ | same
    · omega
    · exact other same.symm
  refine ⟨chars '_', fun c other => ?_, fun c other => ?_⟩
  · rw [chars, List.mem_singleton]
    exact kept other (by decide)
  · rw [chars, List.mem_singleton]
    exact kept other (by decide)

/-- `Wallet`, `HTTPServer`, `Net::HTTP2` and `Foo_bar` -/
def servers : List Constant :=
  [{ name := "Wallet" }, { name := "HTTPServer" }, { name := "Net", type := .CLASS }, { name := "Net::HTTP2" },
    { name := "Foo_bar" }, { name := "Kernel" }]

/-- The names in the collector, which are all valid paths. -/
def hasNames (names : List (List String)) (s : RBSCollector) : Bool :=
  names.all (fun fragments => !fragments.isEmpty && fragments.all isConstantName) &&
    s.results.entries.all fun entry => entry.1 ∈ names.map ("::".intercalate ·)

theorem hasNames_mem {names : List (List String)} {s : RBSCollector} (valid : hasNames names s = true) {name : String}
    {owner : Owner} (found : s.results.get? name = some owner) :
    name ∈ names.map ("::".intercalate ·) ∧ IsConstantPath name := by
  rw [hasNames, Bool.and_eq_true, List.all_eq_true, List.all_eq_true] at valid
  have member := valid.2 (name, owner) (OrderedHash.mem_entries.mpr found)
  rw [decide_eq_true_eq] at member
  obtain ⟨fragments, inside, joined⟩ := List.mem_map.mp member
  have constants := valid.1 fragments inside
  simp only [Bool.and_eq_true, Bool.not_eq_true', List.isEmpty_eq_false_iff, List.all_eq_true] at constants
  exact ⟨member, fragments, constants.1, constants.2, joined.symm⟩

/-- What `Object`, `BasicObject` and the servers are called. -/
def serverNames : List (List String) :=
  [["BasicObject"], ["Object"], ["Wallet"], ["HTTPServer"], ["Net"], ["Net", "HTTP2"], ["Foo_bar"], ["Kernel"]]

theorem servers_kept : ∃ s, collectAll comparableSignatures [callOfOpen servers] = .ok s ∧
    KeepsDeclarations comparableSignatures s := by
  have checked : (collectAll comparableSignatures [callOfOpen servers]).toOption.any (fun s =>
      hasNames serverNames s &&
        s.results.entries.all fun entry => (toDeclaration comparableSignatures s entry.2).toOption.isSome) = true := by
    decide +kernel
  have distinct : ∀ name ∈ serverNames.map ("::".intercalate ·), ∀ name' ∈ serverNames.map ("::".intercalate ·),
      SameWords comparableSignatures name name' → name = name' := by decide +kernel
  obtain ⟨s, run, checked⟩ := exists_of_any checked
  rw [Bool.and_eq_true] at checked
  obtain ⟨names, built⟩ := checked
  refine ⟨s, run, (stop_keeps_declarations_iff (ofDecls_downcases _) run fun name owner found =>
    (hasNames_mem names found).2).mpr ⟨fun name owner found => ?_, ?_⟩⟩
  · exact exists_of_isSome (List.all_eq_true.mp built _ (OrderedHash.mem_entries.mpr found))
  · rintro name d name' d' ⟨owner, found, _⟩ ⟨owner', found', _⟩ same
    exact distinct name (hasNames_mem names found).1 name' (hasNames_mem names found').1 same

/-- `FooBar` is written to `foo_bar.rbs`, which is then replaced by that of `Foo_bar`. -/
theorem fooBar_lost : ∃ s d, collectAll comparableSignatures [callOfOpen ({ name := "FooBar" } :: servers)] = .ok s ∧
    (∀ name owner, s.results.get? name = some owner → IsConstantPath name) ∧
      s.Declares comparableSignatures "FooBar" d ∧
        ∀ path, (contents (s.stop comparableSignatures).1).get? path ≠ some d := by
  have checked : (collectAll comparableSignatures [callOfOpen ({ name := "FooBar" } :: servers)]).toOption.any (fun s =>
      hasNames (["FooBar"] :: serverNames) s &&
        (contents (s.stop comparableSignatures).1).entries.all (·.2.name ≠ toTypeName "FooBar") &&
          (s.results.get? "FooBar").any fun owner => (toDeclaration comparableSignatures s owner).toOption.any fun d =>
            d.name = toTypeName "FooBar" && !s.skips "FooBar" d) = true := by
    decide +kernel
  obtain ⟨s, run, checked⟩ := exists_of_any checked
  simp only [Bool.and_eq_true] at checked
  obtain ⟨⟨names, others⟩, declared⟩ := checked
  obtain ⟨owner, found, declared⟩ := (Option.any_eq_true _ _).mp declared
  obtain ⟨d, made, declared⟩ := exists_of_any declared
  simp only [Bool.and_eq_true, decide_eq_true_eq, Bool.not_eq_true'] at declared
  refine ⟨s, d, run, fun name owner found => (hasNames_mem names found).2, ⟨owner, found, made, declared.2⟩, ?_⟩
  intro path there
  have other := List.all_eq_true.mp others _ (OrderedHash.mem_entries.mpr there)
  simp only [decide_eq_true_eq] at other
  exact other declared.1

end Racer
