import Catseq.Incremental

/-!
The time additions of the two compilers. Times are `u64` in the crate and added
unchecked: `start_time + lhs_duration` when the loop of `compile` pops a serial
node, `event.time + lhs_duration` when `compile_node` shifts the right child's
events. Every stack the loop holds keeps each entry inside the root's window, its
start plus its node's duration at most the root's duration (`loopReaches_inWindow`),
and every event `compile_node` shifts ends inside the serial node
(`shift_le_of_compileNode`). So on an arena whose stored durations fit in 64 bits
neither compiler's additions overflow (`compile_no_overflow`).
-/

namespace Catseq.Overflow
open Catseq.Arena Catseq.Algebra Catseq.Unfolding Catseq.Compiler Catseq.Incremental

/-- Every entry of the stack, run from its start time, ends by `D`. -/
def InWindow (a : ArenaContext) (D : Nat) (stack : List (Nat × Nat)) : Prop :=
  ∀ entry ∈ stack, ∃ node, a.get entry.1 = some node ∧ entry.2 + node.duration ≤ D

/-- One pop keeps the stack inside the window: the children of a popped node end
    when it ends or before. -/
theorem InWindow.step {a : ArenaContext} (valid : Valid a) {D : Nat} {entry : Nat × Nat}
    {stack pushed : List (Nat × Nat)} {out : List FlatEvent} (window : InWindow a D (entry :: stack))
    (stepped : loopStep a entry = some (pushed,out)) : InWindow a D (pushed ++ stack) := by
  obtain ⟨n,start⟩ := entry
  obtain ⟨node,at_n,ends⟩ := window _ (List.mem_cons_self _ _)
  have law := valid.durationLaw at_n
  simp only [loopStep,at_n] at stepped
  intro e mem
  rcases List.mem_append.mp mem with pushedMem | stackMem
  · cases node with
    | atomic => cases stepped; simp at pushedMem
    | sequential lhs rhs d channels =>
      obtain ⟨l,r,at_l,at_r,sum⟩ := law
      simp only [at_l,Option.map_some',Option.some.injEq,Prod.mk.injEq] at stepped
      obtain ⟨rfl,-⟩ := stepped
      simp only [MorphismData.duration_sequential] at ends
      rcases List.mem_pair.mp pushedMem with rfl | rfl
      · exact ⟨l,at_l,by dsimp only; omega⟩
      · exact ⟨r,at_r,by dsimp only; omega⟩
    | parallel lhs rhs d channels =>
      obtain ⟨l,r,at_l,at_r,most⟩ := law
      simp only [Option.some.injEq,Prod.mk.injEq] at stepped
      obtain ⟨rfl,-⟩ := stepped
      simp only [MorphismData.duration_parallel] at ends
      rcases List.mem_pair.mp pushedMem with rfl | rfl
      · exact ⟨l,at_l,by dsimp only; omega⟩
      · exact ⟨r,at_r,by dsimp only; omega⟩
  · exact window e (List.mem_cons_of_mem _ stackMem)

/-- Every stack the loop of `compile` holds from a root of a valid arena keeps every
    entry inside the root's window. -/
theorem loopReaches_inWindow {a : ArenaContext} (valid : Valid a) {root : Nat} {rootNode : MorphismData}
    (at_root : a.get root = some rootNode) {stack : List (Nat × Nat)} (reaches : LoopReaches a root stack) :
    InWindow a rootNode.duration stack := by
  induction reaches with
  | start =>
    intro e mem
    obtain rfl := List.mem_singleton.mp mem
    exact ⟨rootNode,at_root,Nat.zero_add _ ▸ le_rfl⟩
  | step _ stepped ih => exact ih.step valid stepped

/-- The events `compile_node` returns, from a right cache, for the right child of a
    serial node end inside that node once shifted by the left child's duration. -/
theorem shift_le_of_compileNode {a : ArenaContext} (valid : Valid a) {n lhs rhs d : Nat} {channels : List Nat}
    {lhsNode : MorphismData} (at_n : a.get n = some (.sequential lhs rhs d channels)) (at_lhs : a.get lhs = some lhsNode)
    {self self' : IncrementalCompiler} {fuel : Nat} {events : List FlatEvent} (ok : CacheOk a self)
    (done : self.compileNode a fuel rhs = some (events,self')) : ∀ e ∈ events, e.time + lhsNode.duration ≤ d := by
  obtain ⟨r,ur,rfl,-⟩ := compileNode_sound valid ok done
  obtain ⟨l,rhsNode,at_l,at_r,sum⟩ := valid.durationLaw at_n
  rw [at_lhs,Option.some.injEq] at at_l
  subst at_l
  have same := (valid.summarizes at_r ur).duration_eq
  intro e mem
  have := time_le_of_mem_localEvents mem
  omega

/-- On a reachable arena whose stored durations fit in 64 bits, every entry `(n, s)`
    of every stack the loop of `compile` holds has `s + duration(n)` at most the
    root's duration, so the loop's addition `start_time + lhs_duration` never
    overflows; nor does `compile_node`'s `event.time + lhs_duration`, on whatever it
    returns for the right child of a serial node from a right cache. -/
theorem compile_no_overflow {a : ArenaContext} (reach : Reachable a)
    (fits : ∀ n node, a.get n = some node → node.duration < 2 ^ 64) {root : Nat} {rootNode : MorphismData}
    (at_root : a.get root = some rootNode) :
    (∀ stack, LoopReaches a root stack →
      ∀ entry ∈ stack, ∃ node, a.get entry.1 = some node ∧ entry.2 + node.duration ≤ rootNode.duration) ∧
    (∀ n start stack lhs rhs d channels lhsNode, LoopReaches a root ((n,start) :: stack) →
      a.get n = some (.sequential lhs rhs d channels) → a.get lhs = some lhsNode → start + lhsNode.duration < 2 ^ 64) ∧
    ∀ n lhs rhs d channels lhsNode self fuel events self', a.get n = some (.sequential lhs rhs d channels) →
      a.get lhs = some lhsNode → CacheOk a self → self.compileNode a fuel rhs = some (events,self') →
      ∀ e ∈ events, e.time + lhsNode.duration < 2 ^ 64 := by
  have valid := reachable_valid reach
  have bound := fits root rootNode at_root
  refine ⟨fun stack reaches => loopReaches_inWindow valid at_root reaches,
    fun n start stack lhs rhs d channels lhsNode reaches at_n at_lhs => ?_,
    fun n lhs rhs d channels lhsNode self fuel events self' at_n at_lhs ok done e mem => ?_⟩
  · obtain ⟨node,at_n',ends⟩ := loopReaches_inWindow valid at_root reaches _ (List.mem_cons_self _ _)
    rw [at_n,Option.some.injEq] at at_n'
    subst at_n'
    obtain ⟨l,r,at_l,-,sum⟩ := valid.durationLaw at_n
    rw [at_lhs,Option.some.injEq] at at_l
    subst at_l
    simp only [MorphismData.duration_sequential] at ends
    omega
  · have shifted := shift_le_of_compileNode valid at_n at_lhs ok done e mem
    have fit := fits n _ at_n
    simp only [MorphismData.duration_sequential] at fit
    omega

theorem compile_no_overflow_sequential :
    Reachable serialPair ∧
    (∀ n node, ArenaContext.get serialPair n = some node →
      node.duration < 2 ^ 64) ∧
    ArenaContext.get serialPair 2 = some (.sequential 0 1 15 [0,1]) ∧
    (∀ stack, LoopReaches serialPair 2 stack →
      ∀ entry ∈ stack, ∃ node, ArenaContext.get serialPair entry.1 =
        some node ∧ entry.2 + node.duration ≤ MorphismData.duration (.sequential 0 1 15 [0,1])) ∧
    (∀ n start stack lhs rhs d channels lhsNode,
      LoopReaches serialPair 2 ((n,start) :: stack) →
      ArenaContext.get serialPair n =
        some (.sequential lhs rhs d channels) →
      ArenaContext.get serialPair lhs = some lhsNode →
      start + lhsNode.duration < 2 ^ 64) ∧
    ∀ n lhs rhs d channels lhsNode self fuel events self',
      ArenaContext.get serialPair n =
        some (.sequential lhs rhs d channels) →
      ArenaContext.get serialPair lhs = some lhsNode →
      CacheOk serialPair self →
      self.compileNode serialPair fuel rhs = some (events,self') →
      ∀ e ∈ events, e.time + lhsNode.duration < 2 ^ 64 := by
  have fits : ∀ n node, ArenaContext.get serialPair n = some node →
      node.duration < 2 ^ 64 := fun n node at_n => by
    unfold serialPair at at_n
    have stored := List.getElem?_mem at_n
    simp only [List.mem_cons,List.mem_singleton,List.not_mem_nil,or_false] at stored
    rcases stored with rfl | rfl | rfl <;> decide
  exact ⟨serialPair_reachable,fits,rfl,compile_no_overflow serialPair_reachable fits rfl⟩

end Catseq.Overflow
