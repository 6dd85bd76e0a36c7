import Racer.Collectors.RBSCollector
import Racer.Library.Outcome

namespace Racer
open Outcome

/-! Names of constants, as lists of fragments. -/

def IsFragment (fragment : String) : Prop :=
  fragment ≠ "" ∧ ':' ∉ fragment.toList

instance : DecidablePred IsFragment :=
  fun fragment => inferInstanceAs (Decidable (fragment ≠ "" ∧ ':' ∉ fragment.toList))

/-- A name that consists of fragments, with `::` between them. -/
def IsPath (name : String) : Prop :=
  ∃ fragments : List String, fragments ≠ [] ∧ (∀ f ∈ fragments, IsFragment f) ∧ name = "::".intercalate fragments

/-- What is used of Ruby's `upcase`: it returns a character or more, and again the same
for the first of these. -/
def Environment.Upcases (env : Environment) : Prop :=
  ∀ c, c ≠ ':' → ∃ d rest, (env.upcase c).toList = d :: rest ∧ ':' ∉ d :: rest ∧ (env.upcase d).toList = [d]

/-- A fragment as `valid_name` changes it. -/
def capitalised (env : Environment) (fragment : String) : String :=
  match fragment.toList with
  | [] => ""
  | c :: rest => env.upcase c ++ String.ofList rest

theorem splitFragments_cons {c : Char} (other : c ≠ ':') (current rest : List Char) :
    splitFragments current (c :: rest) = splitFragments (c :: current) rest := by
  rw [splitFragments]
  exact fun _ colon _ => other colon

theorem splitFragments_append {front : List Char} (clean : ':' ∉ front) (current rest : List Char) :
    splitFragments current (front ++ rest) = splitFragments (front.reverse ++ current) rest := by
  induction front generalizing current with
  | nil => rfl
  | cons c front ih =>
    rw [List.mem_cons, not_or] at clean
    rw [List.cons_append, splitFragments_cons (Ne.symm clean.1), ih clean.2, List.reverse_cons, List.append_assoc]
    rfl

theorem splitFragments_intercalate {fragments : List (List Char)} (nonempty : fragments ≠ [])
    (clean : ∀ f ∈ fragments, ':' ∉ f) : splitFragments [] ([':', ':'].intercalate fragments) = fragments := by
  induction fragments with
  | nil => exact absurd rfl nonempty
  | cons first rest ih =>
    have own := clean first List.mem_cons_self
    rcases rest with _ | ⟨second, rest⟩
    · have split := splitFragments_append own [] []
      simpa [splitFragments] using split
    · have later := ih (List.cons_ne_nil second rest) fun f member => clean f (List.mem_cons_of_mem first member)
      have split := splitFragments_append own [] (':' :: ':' :: [':', ':'].intercalate (second :: rest))
      rw [splitFragments, later] at split
      simpa using split

/-- The fragments of a path can be read back. -/
theorem nameFragments_intercalate {fragments : List String} (nonempty : fragments ≠ [])
    (valid : ∀ f ∈ fragments, IsFragment f) : nameFragments ("::".intercalate fragments) = fragments := by
  have clean : ∀ f ∈ fragments.map String.toList, ':' ∉ f :=
    List.forall_mem_map.mpr fun f member => (valid f member).2
  have full : ∀ f ∈ fragments.map String.toList, ¬ f = [] := by
    refine List.forall_mem_map.mpr fun f member empty => (valid f member).1 ?_
    exact String.toList_inj.mp (empty.trans String.toList_empty.symm)
  have split : splitFragments [] ("::".intercalate fragments).toList = fragments.map String.toList := by
    rw [String.toList_intercalate]
    exact splitFragments_intercalate (by simpa using nonempty) clean
  have kept : (fragments.map String.toList).rdropWhile (fun f => decide (f = [])) = fragments.map String.toList := by
    rw [List.rdropWhile_eq_self_iff]
    exact fun some => by simpa using full _ (List.getLast_mem some)
  rw [nameFragments, split, kept, List.map_map]
  simp [Function.comp_def]

theorem validName_intercalate (env : Environment) {fragments : List String} (nonempty : fragments ≠ [])
    (valid : ∀ f ∈ fragments, IsFragment f) :
    validName env ("::".intercalate fragments) = .ok ("::".intercalate (fragments.map (capitalised env))) := by
  unfold validName
  rw [nameFragments_intercalate nonempty valid]
  refine bind_eq_ok.mpr ⟨fragments.map (capitalised env), mapM_eq_ok.mpr ?_, rfl⟩
  rw [List.forall₂_map_right_iff, List.forall₂_same]
  intro f member
  unfold capitalised
  cases chars : f.toList with
  | nil => exact absurd (String.toList_inj.mp (chars.trans String.toList_empty.symm)) (valid f member).1
  | cons c rest => rfl

variable {env : Environment}

theorem capitalised_eq {f : String} (upcases : env.Upcases) (valid : IsFragment f) :
    IsFragment (capitalised env f) ∧ capitalised env (capitalised env f) = capitalised env f := by
  obtain ⟨nonempty, clean⟩ := valid
  cases chars : f.toList with
  | nil => exact absurd (String.toList_inj.mp (chars.trans String.toList_empty.symm)) nonempty
  | cons c rest =>
    rw [chars, List.mem_cons, not_or] at clean
    obtain ⟨d, more, upper, noColon, again⟩ := upcases c (Ne.symm clean.1)
    have first : capitalised env f = env.upcase c ++ String.ofList rest := by rw [capitalised, chars]
    have all : (capitalised env f).toList = d :: (more ++ rest) := by
      rw [first, String.toList_append, upper, String.toList_ofList, List.cons_append]
    refine ⟨⟨fun empty => ?_, ?_⟩, ?_⟩
    · rw [empty, String.toList_empty] at all
      cases all
    · rw [all]
      simp only [List.mem_cons, List.mem_append, not_or] at noColon ⊢
      exact ⟨noColon.1, noColon.2, clean.2⟩
    · refine String.toList_inj.mp ?_
      have twice : capitalised env (capitalised env f) = env.upcase d ++ String.ofList (more ++ rest) := by
        rw [capitalised, all]
      rw [twice, all, String.toList_append, again, String.toList_ofList]
      rfl

theorem IsPath.validName_total {name : String} (path : IsPath name) : ∃ n, validName env name = .ok n := by
  obtain ⟨fragments, nonempty, valid, rfl⟩ := path
  exact ⟨_, validName_intercalate env nonempty valid⟩

/-- A valid name is its own valid name. -/
theorem IsPath.validName_valid {name n : String} (upcases : env.Upcases) (path : IsPath name)
    (validated : validName env name = .ok n) : validName env n = .ok n := by
  obtain ⟨fragments, nonempty, valid, rfl⟩ := path
  rw [validName_intercalate env nonempty valid] at validated
  cases validated
  have valid' : ∀ f ∈ fragments.map (capitalised env), IsFragment f :=
    List.forall_mem_map.mpr fun f member => (capitalised_eq upcases (valid f member)).1
  rw [validName_intercalate env (by simpa using nonempty) valid', List.map_map]
  have same : fragments.map (capitalised env ∘ capitalised env) = fragments.map (capitalised env) :=
    List.map_congr_left fun f member => (capitalised_eq upcases (valid f member)).2
  rw [same]

/-- Ruby's `upcase` keeps capital letters. -/
def Environment.KeepsCapitals (env : Environment) : Prop :=
  ∀ c : Char, c.isUpper → (env.upcase c).toList = [c]

theorem validName_capital (capitals : env.KeepsCapitals) {f : String} (fragment : IsFragment f)
    (capital : ∀ c ∈ f.toList.head?, c.isUpper) : validName env f = .ok f := by
  have valid : validName env ("::".intercalate [f]) = .ok ("::".intercalate [capitalised env f]) :=
    validName_intercalate env (List.cons_ne_nil f []) (by simpa using fragment)
  have same : capitalised env f = f := by
    unfold capitalised
    cases chars : f.toList with
    | nil => exact absurd (String.toList_inj.mp (chars.trans String.toList_empty.symm)) fragment.1
    | cons c rest =>
      have upper := capitals c (capital c (by rw [chars]; rfl))
      exact String.toList_inj.mp (by rw [String.toList_append, upper, String.toList_ofList, chars]; rfl)
  rwa [String.intercalate_singleton, String.intercalate_singleton, same] at valid

/-- A lower case letter becomes an upper case letter, and all else stays. -/
theorem toUpper_cases (c : Char) :
    (65 ≤ c.toUpper.toNat ∧ c.toUpper.toNat ≤ 90) ∨ (¬ (97 ≤ c.toNat ∧ c.toNat ≤ 122) ∧ c.toUpper = c) := by
  by_cases lower : 'a'.val ≤ c.val ∧ c.val ≤ 'z'.val
  · have val : c.toUpper.toNat = (c.val + ('A'.val - 'a'.val)).toNat := by
      have upper : c.toUpper = ⟨c.val + ('A'.val - 'a'.val), _⟩ := dif_pos lower
      rw [upper]
      rfl
    have bounds : 97 ≤ c.val.toNat ∧ c.val.toNat ≤ 122 := lower
    rw [UInt32.toNat_add] at val
    have offset : ('A'.val - 'a'.val).toNat = 4294967264 := by decide
    left
    omega
  · exact .inr ⟨lower, dif_neg lower⟩

theorem toUpper_toUpper (c : Char) : c.toUpper.toUpper = c.toUpper := by
  rcases toUpper_cases c.toUpper with upper | ⟨_, same⟩
  · rcases toUpper_cases c with once | ⟨_, same⟩
    · exact dif_neg fun lower => by
        have bound : 97 ≤ c.toUpper.toNat := lower.1
        omega
    · rw [same, same]
  · exact same

theorem ofDecls_upcases (classDecls : TypeName → Option ClassDecl) : (Environment.ofDecls classDecls).Upcases := by
  intro c other
  have noColon : ':' ≠ c.toUpper := by
    intro colon
    rcases toUpper_cases c with upper | ⟨_, same⟩
    · rw [← colon] at upper
      revert upper
      decide
    · exact other (same.symm.trans colon.symm)
  have chars (d : Char) : ((Environment.ofDecls classDecls).upcase d).toList = [d.toUpper] := by
    simp [Environment.ofDecls, Char.toString]
  exact ⟨c.toUpper, [], chars c, by simpa using noColon, by rw [chars, toUpper_toUpper]⟩
end Racer
