import Racer.Tracer.Events

namespace Racer

theorem mem_tracesNodes {n : ReturnTrace} {traces : List ReturnTrace} :
    n ∈ tracesNodes traces ↔ ∃ t ∈ traces, n ∈ t.nodes := by
  induction traces with
  | nil => simp [tracesNodes]
  | cons t traces ih => simp [tracesNodes, ih]

theorem mem_callsNodes {n : ReturnTrace} {calls : List (Option ReturnTrace)} :
    n ∈ callsNodes calls ↔ ∃ t, some t ∈ calls ∧ n ∈ t.nodes := by
  induction calls with
  | nil => simp [callsNodes]
  | cons call calls ih =>
    cases call with
    | none => simp [callsNodes, ih]
    | some t => simp [callsNodes, ih, or_and_right, exists_or]

theorem mem_blockNodes {n : ReturnTrace} {block : Option (BlockParameter ReturnTrace)} :
    n ∈ blockNodes block ↔ ∃ b ∈ block, (∃ t ∈ b.blockTraces, n ∈ t.nodes) ∨
      ∃ t, some t ∈ b.currentBlockCallStack ∧ n ∈ t.nodes := by
  cases block with
  | none => simp [blockNodes]
  | some b => simp [blockNodes, mem_tracesNodes, mem_callsNodes]

theorem ReturnTrace.nodes_eq (t : ReturnTrace) : t.nodes = t :: blockNodes t.blockParam := by
  cases t
  rfl

theorem ReturnTrace.mem_nodes {n t : ReturnTrace} : n ∈ t.nodes ↔ n = t ∨ n ∈ blockNodes t.blockParam := by
  rw [t.nodes_eq, List.mem_cons]

theorem ReturnTrace.nodes_trans {t n m : ReturnTrace} (outer : n ∈ t.nodes) (inner : m ∈ n.nodes) : m ∈ t.nodes := by
  induction t using ReturnTrace.block_induction with
  | step t ih =>
    rw [ReturnTrace.mem_nodes] at outer
    rcases outer with rfl | outer
    · exact inner
    · rw [ReturnTrace.mem_nodes, mem_blockNodes]
      obtain ⟨b, atBlock, ⟨r, member, below⟩ | ⟨c, member, below⟩⟩ := mem_blockNodes.mp outer
      · exact .inr ⟨b, atBlock, .inl ⟨r, member, (ih b atBlock).1 r member below⟩⟩
      · exact .inr ⟨b, atBlock, .inr ⟨c, member, (ih b atBlock).2 c member below⟩⟩

theorem setBlockInTraces_eq (addr : Nat) (block : BlockParameter ReturnTrace) (traces : List ReturnTrace) :
    setBlockInTraces addr block traces = traces.map (·.setBlock addr block) := by
  induction traces with
  | nil => rfl
  | cons t traces ih => rw [setBlockInTraces, ih, List.map_cons]

theorem setBlockInCalls_eq (addr : Nat) (block : BlockParameter ReturnTrace) (calls : List (Option ReturnTrace)) :
    setBlockInCalls addr block calls = calls.map (Option.map (·.setBlock addr block)) := by
  induction calls with
  | nil => rfl
  | cons call calls ih => cases call <;> rw [setBlockInCalls, ih] <;> rfl

theorem ReturnTrace.setBlock_eq (addr : Nat) (block : BlockParameter ReturnTrace) (t : ReturnTrace) :
    t.setBlock addr block =
      { t with
        blockParam := if t.addr = addr then some block
          else t.blockParam.map fun b =>
            { b with
              blockTraces := b.blockTraces.map (·.setBlock addr block)
              currentBlockCallStack := b.currentBlockCallStack.map (Option.map (·.setBlock addr block)) } } := by
  obtain ⟨_, _, _, _, _, _, _, _, _, _, blockParam, _⟩ := t
  cases blockParam with
  | none => simp only [ReturnTrace.setBlock, setBlockIn, Option.map_none]
  | some b => simp only [ReturnTrace.setBlock, setBlockIn, setBlockInTraces_eq, setBlockInCalls_eq, Option.map_some]

/-- Writing the block of an absent trace changes nothing. -/
theorem ReturnTrace.setBlock_absent {addr : Nat} (block : BlockParameter ReturnTrace) {t : ReturnTrace}
    (absent : ∀ n ∈ t.nodes, n.addr ≠ addr) : t.setBlock addr block = t := by
  induction t using ReturnTrace.block_induction with
  | step t ih =>
    have other := absent t (ReturnTrace.mem_nodes.mpr (.inl rfl))
    have below : ∀ n ∈ blockNodes t.blockParam, n.addr ≠ addr :=
      fun n member => absent n (ReturnTrace.mem_nodes.mpr (.inr member))
    have kept : (t.blockParam.map fun b =>
        { b with
          blockTraces := b.blockTraces.map (·.setBlock addr block)
          currentBlockCallStack := b.currentBlockCallStack.map (Option.map (·.setBlock addr block)) }) =
        t.blockParam := by
      refine Option.map_congr (g := id) (fun b atBlock => ?_) |>.trans Option.map_id'
      have traces : b.blockTraces.map (·.setBlock addr block) = b.blockTraces := by
        refine (List.map_congr_left fun r member => ?_).trans (List.map_id _)
        exact (ih b atBlock).1 r member fun n inside =>
          below n (mem_blockNodes.mpr ⟨b, atBlock, .inl ⟨r, member, inside⟩⟩)
      have calls : b.currentBlockCallStack.map (Option.map (·.setBlock addr block)) = b.currentBlockCallStack := by
        refine (List.map_congr_left fun c member => ?_).trans (List.map_id _)
        cases c with
        | none => rfl
        | some c => exact congrArg some ((ih b atBlock).2 c member fun n inside =>
            below n (mem_blockNodes.mpr ⟨b, atBlock, .inr ⟨c, member, inside⟩⟩))
      rw [traces, calls]
      rfl
    rw [ReturnTrace.setBlock_eq, if_neg other, kept]
    cases t
    rfl

/-- The traces below a trace after the block at an address has been written: those of the new
block, where that address is there, and those that were below, with the block written there. -/
theorem ReturnTrace.mem_below_setBlock {addr : Nat} {block : BlockParameter ReturnTrace} {t n : ReturnTrace}
    (member : n ∈ blockNodes (t.setBlock addr block).blockParam) :
    (n ∈ blockNodes (some block) ∧ ∃ m ∈ t.nodes, m.addr = addr) ∨
      ∃ m ∈ blockNodes t.blockParam, n = m.setBlock addr block := by
  induction t using ReturnTrace.block_induction with
  | step t ih =>
    rw [ReturnTrace.setBlock_eq] at member
    simp only at member
    split at member
    next here => exact .inl ⟨member, t, ReturnTrace.mem_nodes.mpr (.inl rfl), here⟩
    next other =>
      obtain ⟨b', written, inside⟩ := mem_blockNodes.mp member
      obtain ⟨b, atBlock, rfl⟩ := Option.mem_map.mp written
      have lift {r : ReturnTrace} (below : ∀ m ∈ r.nodes, m ∈ blockNodes t.blockParam)
          (ih : n ∈ blockNodes (r.setBlock addr block).blockParam →
            (n ∈ blockNodes (some block) ∧ ∃ m ∈ r.nodes, m.addr = addr) ∨
              ∃ m ∈ blockNodes r.blockParam, n = m.setBlock addr block)
          (inside : n ∈ (r.setBlock addr block).nodes) :
          (n ∈ blockNodes (some block) ∧ ∃ m ∈ t.nodes, m.addr = addr) ∨
            ∃ m ∈ blockNodes t.blockParam, n = m.setBlock addr block := by
        rcases ReturnTrace.mem_nodes.mp inside with rfl | deeper
        · exact .inr ⟨r, below r (ReturnTrace.mem_nodes.mpr (.inl rfl)), rfl⟩
        · refine (ih deeper).imp (fun ⟨new, m, there, here⟩ => ⟨new, m, ?_, here⟩) fun ⟨m, there, same⟩ => ⟨m, ?_, same⟩
          · exact ReturnTrace.mem_nodes.mpr (.inr (below m there))
          · exact below m (ReturnTrace.mem_nodes.mpr (.inr there))
      simp only [List.mem_map, exists_exists_and_eq_and] at inside
      rcases inside with ⟨r, recorded, inside⟩ | ⟨c', ⟨call, pending, same⟩, inside⟩
      · exact lift (fun m there => mem_blockNodes.mpr ⟨b, atBlock, .inl ⟨r, recorded, there⟩⟩)
          ((ih b atBlock).1 r recorded) inside
      · obtain ⟨c, rfl, rfl⟩ := Option.map_eq_some_iff.mp same
        exact lift (fun m there => mem_blockNodes.mpr ⟨b, atBlock, .inr ⟨c, pending, there⟩⟩)
          ((ih b atBlock).2 c pending) inside

/-- The same for the trace and what is below it. -/
theorem ReturnTrace.mem_nodes_setBlock {addr : Nat} {block : BlockParameter ReturnTrace} {t n : ReturnTrace}
    (member : n ∈ (t.setBlock addr block).nodes) :
    n ∈ blockNodes (some block) ∨ ∃ m ∈ t.nodes, n = m.setBlock addr block := by
  rcases ReturnTrace.mem_nodes.mp member with rfl | below
  · exact .inr ⟨t, ReturnTrace.mem_nodes.mpr (.inl rfl), rfl⟩
  · refine (ReturnTrace.mem_below_setBlock below).imp And.left fun ⟨m, there, same⟩ => ⟨m, ?_, same⟩
    exact ReturnTrace.mem_nodes.mpr (.inr there)

end Racer
