import Mathlib.Data.List.Basic
import Mathlib.Data.List.Nodup
import Mathlib.Data.List.Pairwise

/-! Messages that are offered to a stream one after the other, which may accept a part only. -/

namespace Offers

variable {ι α : Type*}

/-- A message, the name its items carry on the stream, and how many of them are accepted. -/
structure Offer (ι α : Type*) where
  name : ι
  message : List α
  accepted : Nat

/-- A part of the message is accepted. -/
def Offer.Short (o : Offer ι α) : Prop :=
  0 < o.accepted ∧ o.accepted < o.message.length

/-- The whole message as it would be on the stream. -/
def Offer.items (o : Offer ι α) : List (ι × α) :=
  o.message.map (o.name, ·)

/-- What a list of offers puts on the stream. -/
def stream (offers : List (Offer ι α)) : List (ι × α) :=
  offers.flatMap fun o => o.items.take o.accepted

/-- The stream has complete messages, and then possibly the beginning of one. -/
def Whole (offers : List (Offer ι α)) : Prop :=
  ∃ (complete : List (Offer ι α)) (rest : List (ι × α)), complete ⊆ offers ∧
    stream offers = complete.flatMap Offer.items ++ rest ∧
      (rest = [] ∨ ∃ o ∈ offers, rest <+: o.items ∧ rest ≠ o.items)

theorem stream_cons (o : Offer ι α) (offers : List (Offer ι α)) :
    stream (o :: offers) = o.items.take o.accepted ++ stream offers :=
  List.flatMap_cons

theorem stream_append (offers later : List (Offer ι α)) : stream (offers ++ later) = stream offers ++ stream later :=
  List.flatMap_append

theorem Offer.name_of_mem {o : Offer ι α} {x : ι × α} (member : x ∈ o.items) : x.1 = o.name := by
  obtain ⟨a, _, rfl⟩ := List.mem_map.mp member
  rfl

theorem exists_of_mem_stream {offers : List (Offer ι α)} {x : ι × α} (member : x ∈ stream offers) :
    ∃ o ∈ offers, x.1 = o.name := by
  obtain ⟨o, offered, taken⟩ := List.mem_flatMap.mp member
  exact ⟨o, offered, Offer.name_of_mem (List.mem_of_mem_take taken)⟩

theorem exists_item {o : Offer ι α} (accepts : 0 < o.accepted) (nonempty : o.message ≠ []) :
    ∃ x ∈ o.items.take o.accepted, x.1 = o.name := by
  obtain ⟨a, message, whole⟩ := List.exists_cons_of_ne_nil nonempty
  obtain ⟨n, more⟩ := Nat.exists_eq_add_of_le' accepts
  exact ⟨(o.name, a), by simp [Offer.items, whole, more], rfl⟩

theorem stream_eq_nil {offers : List (Offer ι α)} (refused : ∀ o ∈ offers, o.accepted = 0) : stream offers = [] := by
  refine List.flatMap_eq_nil_iff.mpr fun o offered => ?_
  rw [refused o offered, List.take_zero]

/-- If nothing is accepted behind a part of a message, the messages are whole. -/
theorem Whole.of_pairwise {offers : List (Offer ι α)}
    (last : offers.Pairwise fun o later => o.Short → later.accepted = 0) : Whole offers := by
  induction offers with
  | nil => exact ⟨[], [], by simp, rfl, .inl rfl⟩
  | cons o offers ih =>
    obtain ⟨refused, later⟩ := List.pairwise_cons.mp last
    by_cases short : o.Short
    · have alone : stream (o :: offers) = o.items.take o.accepted := by
        rw [stream_cons, stream_eq_nil fun other offered => refused other offered short, List.append_nil]
      refine ⟨[], _, by simp, alone, .inr ⟨o, List.mem_cons_self, List.take_prefix _ _, fun same => ?_⟩⟩
      have lengths := congrArg List.length same
      rw [List.length_take, Offer.items, List.length_map] at lengths
      have part := short.2
      omega
    · obtain ⟨complete, rest, subset, same, ending⟩ := ih later
      have ending' : rest = [] ∨ ∃ other ∈ o :: offers, rest <+: other.items ∧ rest ≠ other.items :=
        ending.imp_right fun ⟨other, offered, beginning⟩ => ⟨other, List.mem_cons_of_mem _ offered, beginning⟩
      by_cases nothing : o.accepted = 0
      · refine ⟨complete, rest, List.subset_cons_of_subset o subset, ?_, ending'⟩
        rw [stream_cons, nothing, List.take_zero, List.nil_append, same]
      · have all : o.items.take o.accepted = o.items := by
          refine List.take_of_length_le ?_
          rw [Offer.items, List.length_map]
          exact Nat.le_of_not_lt fun part => short ⟨Nat.pos_of_ne_zero nothing, part⟩
        refine ⟨o :: complete, rest, List.cons_subset_cons o subset, ?_, ending'⟩
        rw [stream_cons, all, same, List.flatMap_cons, List.append_assoc]

section
variable {before after : List (Offer ι α)} {o : Offer ι α}

theorem not_named_before (distinct : ((before ++ o :: after).map Offer.name).Nodup) {x : ι × α}
    (member : x ∈ stream before ++ stream after) : x.1 ≠ o.name := by
  rw [List.map_append, List.map_cons, List.nodup_middle, List.nodup_cons, ← List.map_append] at distinct
  rw [← stream_append] at member
  obtain ⟨other, offered, named⟩ := exists_of_mem_stream member
  rw [named]
  exact fun same => distinct.1 (same ▸ List.mem_map_of_mem offered)

/-- What the stream has of one message. -/
theorem countP_stream [DecidableEq ι] (distinct : ((before ++ o :: after).map Offer.name).Nodup) :
    (stream (before ++ o :: after)).countP (·.1 = o.name) = (o.items.take o.accepted).length := by
  have others {part : List (ι × α)} (inside : part ⊆ stream before ++ stream after) :
      part.countP (·.1 = o.name) = 0 := by
    refine List.countP_eq_zero.mpr fun x member => ?_
    simpa using not_named_before distinct (inside member)
  have own : (o.items.take o.accepted).countP (·.1 = o.name) = (o.items.take o.accepted).length := by
    refine List.countP_eq_length.mpr fun x member => ?_
    simpa using Offer.name_of_mem (List.mem_of_mem_take member)
  rw [stream_append, stream_cons, List.countP_append, List.countP_append, others (List.subset_append_left _ _),
    others (List.subset_append_right _ _), own]
  omega

end

section
variable {offers : List (Offer ι α)}

theorem eq_of_name (distinct : (offers.map Offer.name).Nodup) {o o' : Offer ι α} (offered : o ∈ offers)
    (offered' : o' ∈ offers) (same : o.name = o'.name) : o = o' :=
  List.inj_on_of_nodup_map distinct offered offered' same

/-- A message of which only a part is accepted is not complete on the stream. -/
theorem Offer.Short.not_complete (distinct : (offers.map Offer.name).Nodup) {complete : List (Offer ι α)}
    {rest : List (ι × α)} (subset : complete ⊆ offers)
    (same : stream offers = complete.flatMap Offer.items ++ rest) {o : Offer ι α} (offered : o ∈ offers)
    (short : o.Short) : ∀ x ∈ complete.flatMap Offer.items, x.1 ≠ o.name := by
  classical
  intro x member named
  obtain ⟨c, inside, item⟩ := List.mem_flatMap.mp member
  have self : c = o := eq_of_name distinct (subset inside) offered ((Offer.name_of_mem item).symm.trans named)
  subst self
  obtain ⟨before, after, rfl⟩ := List.append_of_mem offered
  have counted := countP_stream distinct
  have whole : c.items.countP (·.1 = c.name) = c.items.length :=
    List.countP_eq_length.mpr fun y item => by simpa using Offer.name_of_mem item
  have below : c.items.Sublist (complete.flatMap Offer.items ++ rest) :=
    (List.sublist_flatten_of_mem (List.mem_map_of_mem inside)).trans (List.sublist_append_left _ _)
  have most := below.countP_le (p := fun y => decide (y.1 = c.name))
  rw [← same, counted, whole, List.length_take, Offer.items, List.length_map] at most
  have part := short.2
  omega

theorem Whole.pairwise (distinct : (offers.map Offer.name).Nodup) (nonempty : ∀ o ∈ offers, o.message ≠ [])
    (whole : Whole offers) : offers.Pairwise fun o later => o.Short → later.accepted = 0 := by
  refine List.pairwise_iff_forall_sublist.mpr fun {o later} order short => ?_
  by_contra accepts
  obtain ⟨first, second, rfl, early, late⟩ := List.cons_sublist_iff.mp order
  rw [List.singleton_sublist] at late
  have offered : o ∈ first ++ second := List.mem_append_left _ early
  obtain ⟨complete, rest, subset, same, ending⟩ := whole
  have incomplete := short.not_complete distinct subset same offered
  obtain ⟨x, taken, named⟩ := exists_item short.1 (nonempty o offered)
  have inFirst : x ∈ stream first := List.mem_flatMap.mpr ⟨o, early, taken⟩
  obtain ⟨y, taken', named'⟩ := exists_item (Nat.pos_of_ne_zero accepts) (nonempty later (List.mem_append_right _ late))
  have inSecond : y ∈ stream second := List.mem_flatMap.mpr ⟨later, late, taken'⟩
  -- what follows the complete messages is all of the message that was cut off
  have inRest : x ∈ rest := by
    have there : x ∈ complete.flatMap Offer.items ++ rest := by
      rw [← same, stream_append]
      exact List.mem_append_left _ inFirst
    exact (List.mem_append.mp there).resolve_left fun inside => incomplete x inside named
  have own : ∀ z ∈ rest, z.1 = o.name := by
    rcases ending with rfl | ⟨other, _, beginning, _⟩
    · cases inRest
    · intro z member
      rw [← named, Offer.name_of_mem (beginning.subset inRest), Offer.name_of_mem (beginning.subset member)]
  rw [stream_append] at same
  rcases List.append_eq_append_iff.mp same with ⟨middle, more, _⟩ | ⟨middle, _, more⟩
  · exact incomplete x (more ▸ List.mem_append_left _ inFirst) named
  · have mixed : later.name = o.name := by
      rw [← named']
      exact own y (more ▸ List.mem_append_right _ inSecond)
    rw [List.map_append] at distinct
    exact List.disjoint_of_nodup_append distinct (List.mem_map_of_mem early) (mixed ▸ List.mem_map_of_mem late)

end

end Offers
