import Mathlib.Logic.Hydra
import Catseq.Incremental

/-!
The traversals of `arena.rs`, `leaf_count` and `max_depth`, and the termination of
every walk of the DAG below a root. The two traversals and the flat compiler pop a
handle from an explicit work stack and push the handles of its node's children;
`compile_node` recurses on them. On a reachable arena every child handle is below
its parent's (`Valid.child_lt`), so a pop is one step of the multiset order on the
stacked handles, `Relation.CutExpand`, which is well founded: no run of pops goes on
forever (`no_infinite_pops`). Within the fuel the loops are given each returns the
measure of the root's tree: `leaf_count` its number of leaf occurrences, which is
also the number of events both compilers emit, and `max_depth` its depth, at most
the handle plus one (`maxDepth_bounds`). A run of calls without `clear` only
appends nodes, so every handle keeps what is computed from it
(`run_keeps_handles`); and where no two events tie, the incremental compiler
returns the flat compiler's very list (`compile_eq_flat`).
-/

namespace Catseq.Traversal
open Catseq.Arena Catseq.Algebra Catseq.Unfolding Catseq.StableSort Catseq.Compiler Catseq.Incremental Relation

/-! ### Pops -/

/-- One pop of a work stack of handles: the top handle is replaced by its node's
    children, the left child on top. -/
inductive Pop (a : ArenaContext) : List Nat → List Nat → Prop
  | mk {n : Nat} {node : MorphismData} {stack : List Nat} : a.get n = some node → Pop a (n :: stack) (node.children ++ stack)

/-- On a valid arena a pop takes one handle off the multiset of stacked handles and
    puts back smaller ones. -/
theorem Pop.cutExpand {a : ArenaContext} (valid : Valid a) {s s' : List Nat} (pop : Pop a s s') :
    CutExpand (· < ·) (s' : Multiset Nat) s := by
  obtain ⟨at_n⟩ := pop
  rw [← Multiset.coe_add,← Multiset.cons_coe,← Multiset.singleton_add]
  exact (cutExpand_add_right _).mpr (cutExpand_singleton fun _ child => valid.child_lt at_n child)

theorem no_infinite_pops {a : ArenaContext} (valid : Valid a) (run : Nat → List Nat) :
    ¬ ∀ k, Pop a (run k) (run (k + 1)) := fun pops =>
  let ⟨_,⟨k,same⟩,least⟩ := (WellFounded.cutExpand wellFounded_lt).has_min
    (Set.range fun k => (run k : Multiset Nat)) ⟨_,0,rfl⟩
  least _ ⟨k + 1,rfl⟩ (same ▸ (pops k).cutExpand valid)

theorem pop_of_loopStep {a : ArenaContext} {entry : Nat × Nat} {pushed : List (Nat × Nat)} {out : List FlatEvent}
    (stepped : loopStep a entry = some (pushed,out)) (stack : List (Nat × Nat)) :
    Pop a ((entry :: stack).map Prod.fst) ((pushed ++ stack).map Prod.fst) := by
  obtain ⟨n,start⟩ := entry
  cases at_n : a.get n with
  | none => simp [loopStep,at_n] at stepped
  | some node =>
    have children : pushed.map Prod.fst = node.children := by
      cases node <;> simp only [loopStep,at_n,Option.some.injEq,Option.map_eq_some',Prod.mk.injEq] at stepped
      · rw [← stepped.1]; rfl
      · obtain ⟨_,-,rfl,-⟩ := stepped; rfl
      · rw [← stepped.1]; rfl
    rw [List.map_append,children]
    exact .mk at_n

/-- A pop of the loop of `leaf_count`: a node without children is a leaf and counts. -/
theorem leafCountLoop_succ {a : ArenaContext} {n : Nat} {node : MorphismData} (at_n : a.get n = some node)
    (fuel : Nat) (stack : List Nat) (count : Nat) :
    a.leafCountLoop (fuel + 1) (n :: stack) count =
      a.leafCountLoop fuel (node.children ++ stack) (if node.children = [] then count + 1 else count) := by
  cases node <;> simp [ArenaContext.leafCountLoop,at_n]

/-- A pop of the loop of `max_depth`: the children one level deeper. -/
theorem maxDepthLoop_succ {a : ArenaContext} {n : Nat} {node : MorphismData} (at_n : a.get n = some node)
    (fuel depth : Nat) (stack : List (Nat × Nat)) (deepest : Nat) :
    a.maxDepthLoop (fuel + 1) ((n,depth) :: stack) deepest =
      a.maxDepthLoop fuel (node.children.map (fun c => (c,depth + 1)) ++ stack) (max deepest depth) := by
  cases node <;> simp [ArenaContext.maxDepthLoop,at_n]

/-! ### The loops within their fuel -/

/-- The loop invariant of `leaf_count`: from a stack whose handles unfold to the
    trees `ts`, with fuel for all their nodes, the loop adds their leaf occurrences
    to the count. -/
theorem leafCountLoop_eq {a : ArenaContext} :
    ∀ (fuel : Nat) (stack : List Nat) (ts : List Morphism) (count : Nat),
      List.Forall₂ (fun n t => tree a n = some t) stack ts → (ts.map Morphism.size).sum ≤ fuel →
      a.leafCountLoop fuel stack count = some (count + (ts.map Morphism.leafCount).sum)
  | fuel, [], _, count, trees, _ => by
    cases List.forall₂_nil_left_iff.mp trees
    cases fuel <;> rfl
  | fuel, n :: stack, _, count, trees, bound => by
    obtain ⟨t,ts,unfolded,rest,rfl⟩ := List.forall₂_cons_left_iff.mp trees
    obtain ⟨node,at_n,unfolds⟩ := tree_eq_some.mp unfolded
    simp only [List.map_cons,List.sum_cons] at bound ⊢
    match fuel with
    | 0 => have := t.size_pos; omega
    | fuel + 1 =>
      rw [leafCountLoop_succ at_n]
      cases node with
      | atomic =>
        cases unfolds
        simp only [MorphismData.children_atomic,List.nil_append,↓reduceIte]
        rw [leafCountLoop_eq fuel stack ts _ rest (by simp only [Morphism.size] at bound; omega)]
        simp only [Morphism.leafCount,Option.some.injEq]
        omega
      | sequential lhs rhs | parallel lhs rhs =>
        obtain ⟨-,-,l,r,ul,ur,rfl⟩ := unfolds
        simp only [Morphism.size] at bound
        simp only [MorphismData.children_sequential,MorphismData.children_parallel,List.cons_append,List.nil_append,
          reduceCtorEq,↓reduceIte]
        rw [leafCountLoop_eq fuel _ (l :: r :: ts) count (.cons ul (.cons ur rest))
          (by simp only [List.map_cons,List.sum_cons]; omega)]
        simp only [Morphism.leafCount,List.map_cons,List.sum_cons,Option.some.injEq]
        omega

/-- The loop invariant of `max_depth`: from a stack whose handles unfold to the
    trees `ts`, with fuel for all their nodes, the loop raises the deepest level seen
    to the deepest leaf below the stacked entries, an entry at level `d` reaching
    `d + depth - 1`. -/
theorem maxDepthLoop_eq {a : ArenaContext} :
    ∀ (fuel : Nat) (stack : List (Nat × Nat)) (ts : List Morphism) (deepest : Nat),
      List.Forall₂ (fun e t => tree a e.1 = some t) stack ts → (ts.map Morphism.size).sum ≤ fuel →
      a.maxDepthLoop fuel stack deepest =
        some (max deepest ((List.zipWith (fun e t => e.2 + t.depth - 1) stack ts).foldr max 0))
  | fuel, [], _, deepest, trees, _ => by
    cases List.forall₂_nil_left_iff.mp trees
    cases fuel <;> simp [ArenaContext.maxDepthLoop]
  | fuel, (n,depth) :: stack, _, deepest, trees, bound => by
    obtain ⟨t,ts,unfolded,rest,rfl⟩ := List.forall₂_cons_left_iff.mp trees
    obtain ⟨node,at_n,unfolds⟩ := tree_eq_some.mp unfolded
    simp only [List.map_cons,List.sum_cons,List.zipWith_cons_cons,List.foldr_cons] at bound ⊢
    match fuel with
    | 0 => have := t.size_pos; omega
    | fuel + 1 =>
      rw [maxDepthLoop_succ at_n]
      cases node with
      | atomic =>
        cases unfolds
        simp only [MorphismData.children_atomic,List.map_nil,List.nil_append]
        rw [maxDepthLoop_eq fuel stack ts _ rest (by simp only [Morphism.size] at bound; omega)]
        simp only [Morphism.depth,Nat.add_sub_cancel,max_assoc]
      | sequential lhs rhs | parallel lhs rhs =>
        obtain ⟨-,-,l,r,ul,ur,rfl⟩ := unfolds
        simp only [Morphism.size] at bound
        simp only [MorphismData.children_sequential,MorphismData.children_parallel,List.map_cons,List.map_nil,
          List.cons_append,List.nil_append]
        rw [maxDepthLoop_eq fuel _ (l :: r :: ts) _ (.cons ul (.cons ur rest))
          (by simp only [List.map_cons,List.sum_cons]; omega)]
        simp only [List.zipWith_cons_cons,List.foldr_cons,Morphism.depth,Option.some.injEq,← Nat.add_assoc,
          Nat.add_sub_cancel,Nat.add_right_comm depth 1,← Nat.add_max_add_left,max_assoc]
        exact congrArg (max deepest) (max_eq_right (le_max_of_le_left (Nat.le_add_right depth l.depth)))

theorem leafCount_of_tree {a : ArenaContext} {root : Nat} {t : Morphism} (unfolded : tree a root = some t) :
    a.leafCount root = some t.leafCount := by
  rw [ArenaContext.leafCount,leafCountLoop_eq _ _ [t] 0 (.cons unfolded .nil) (by simpa using size_le_fuel unfolded)]
  simp

theorem maxDepth_of_tree {a : ArenaContext} {root : Nat} {t : Morphism} (unfolded : tree a root = some t) :
    a.maxDepth root = some t.depth := by
  rw [ArenaContext.maxDepth,maxDepthLoop_eq _ _ [t] 0 (.cons unfolded .nil) (by simpa using size_le_fuel unfolded)]
  have := t.depth_pos
  simp only [List.zipWith_cons_cons,List.zipWith_nil_left,List.foldr_cons,List.foldr_nil,Option.some.injEq]
  omega

/-! ### Handles out of range -/

section OutOfRange
variable {a : ArenaContext} {n : Nat}

theorem get_of_le (le : a.len ≤ n) : a.get n = none := List.getElem?_eq_none le

theorem fuel_eq_succ (a : ArenaContext) : ∃ k, a.fuel = k + 1 :=
  ⟨_,(Nat.succ_pred_eq_of_pos (Nat.two_pow_pos _)).symm⟩

theorem leafCount_of_le (le : a.len ≤ n) : a.leafCount n = none := by
  obtain ⟨k,fuel⟩ := fuel_eq_succ a
  simp [ArenaContext.leafCount,fuel,ArenaContext.leafCountLoop,get_of_le le]

theorem compile_of_le (le : a.len ≤ n) : compile a n = none := by
  obtain ⟨k,fuel⟩ := fuel_eq_succ a
  simp [compile,fuel,compileLoop_succ,loopStep,get_of_le le]

/-- From a right cache `compile_node` fails on a handle out of range: no such handle
    is cached. -/
theorem compileNode_of_le {self : IncrementalCompiler} (ok : CacheOk a self) (le : a.len ≤ n) (fuel : Nat) :
    self.compileNode a fuel n = none := by
  have miss : self.cache.lookup n = none := Option.eq_none_iff_forall_not_mem.mpr fun events cached =>
    let ⟨_,unfolded,_⟩ := ok n events cached
    absurd (lt_of_tree unfolded) (Nat.not_lt.mpr le)
  cases fuel with
  | zero => exact IncrementalCompiler.compileNode.eq_2 _ _ _ miss
  | succ fuel =>
    refine Option.eq_none_iff_forall_not_mem.mpr fun _ done => ?_
    obtain ⟨_,at_n⟩ := get_of_compileNode miss done
    simp [get_of_le le] at at_n

end OutOfRange

/-- `compile_node` returns on every handle of a valid arena given fuel above it,
    whatever the cache holds: a hit returns at once, and a miss recurses only on the
    node's children, which are smaller handles. -/
theorem compileNode_returns (valid : Valid a) (lt : n < a.len) {fuel : Nat} (enough : n < fuel)
    (self : IncrementalCompiler) : ∃ result, self.compileNode a fuel n = some result := by
  induction fuel generalizing n self with
  | zero => omega
  | succ fuel ih =>
    cases hit : self.cache.lookup n with
    | some cached => exact ⟨_,compileNode_hit hit⟩
    | none =>
      obtain ⟨node,at_n⟩ := a.get_isSome lt
      have below : ∀ c ∈ node.children, c < a.len ∧ c < fuel := fun c child =>
        have := valid.child_lt at_n child
        ⟨by omega,by omega⟩
      cases node with
      | atomic => exact ⟨_,compileNode_atomic hit at_n⟩
      | sequential lhs rhs | parallel lhs rhs =>
        obtain ⟨hl,fl⟩ := below lhs (List.mem_cons_self _ _)
        obtain ⟨hr,fr⟩ := below rhs (List.mem_pair.mpr (.inr rfl))
        obtain ⟨⟨e1,s1⟩,c1⟩ := ih hl fl { self with cacheMisses := self.cacheMisses + 1 }
        obtain ⟨⟨e2,s2⟩,c2⟩ := ih hr fr s1
        obtain ⟨lhsNode,at_l⟩ := a.get_isSome hl
        first
          | exact ⟨_,(compileNode_sequential hit at_n).mpr ⟨e1,s1,c1,e2,s2,c2,lhsNode,at_l,rfl,rfl⟩⟩
          | exact ⟨_,(compileNode_parallel hit at_n).mpr ⟨e1,s1,c1,e2,s2,c2,rfl,rfl⟩⟩

/-! ### Counting and termination -/

/-- `leaf_count` is the number of events each compiler emits, from any right cache:
    on a valid root the number of leaf occurrences of its tree, and on a handle out
    of range all three fail. -/
theorem leafCount_eq_length {a : ArenaContext} (reach : Reachable a) (root : Nat) :
    (compile a root).map List.length = a.leafCount root ∧
    (∀ self, CacheOk a self → (self.compile a root).map (fun r => r.1.length) = a.leafCount root) ∧
    (root < a.len → ∃ t, tree a root = some t ∧ a.leafCount root = some t.leafCount) := by
  have valid := reachable_valid reach
  by_cases valid_root : root < a.len
  · obtain ⟨t,unfolded⟩ := tree_of_lt valid valid_root
    have count : (events t 0).length = t.leafCount := by rw [events_eq_map,List.length_map,Morphism.length_slots]
    refine ⟨?_,fun self ok => ?_,fun _ => ⟨t,unfolded,leafCount_of_tree unfolded⟩⟩
    · rw [compile_of_tree reach unfolded,leafCount_of_tree unfolded,Option.map_some',(sortByKey_perm _ _).length_eq,count]
    · obtain ⟨t',unfolded',self',done,-⟩ := compile_localEvents valid valid_root ok
      cases unfolded.symm.trans unfolded'
      rw [done,leafCount_of_tree unfolded,Option.map_some',(localEvents_perm t).length_eq,count]
  · have le := Nat.not_lt.mp valid_root
    refine ⟨by rw [compile_of_le le,leafCount_of_le le]; rfl,fun self ok => ?_,fun lt => absurd lt valid_root⟩
    rw [IncrementalCompiler.compile,compileNode_of_le ok le,leafCount_of_le le]
    rfl

/-- An operation composed in series with itself: both edges of the root meet at one node. -/
def selfSerial : ArenaContext := ⟨[.atomic 0 10 ⟨1,[]⟩,.sequential 0 0 20 [0]]⟩

theorem selfSerial_reachable : Reachable selfSerial := ⟨[.atomic 0 10 1 [],.sequential 0 0],by decide⟩

theorem leafCount_eq_length_shared :
    Reachable selfSerial ∧
    (compile selfSerial 1).map List.length = ArenaContext.leafCount selfSerial 1 ∧
    (∀ self, CacheOk selfSerial self →
      (self.compile selfSerial 1).map (fun r => r.1.length) = ArenaContext.leafCount selfSerial 1) ∧
    (1 < ArenaContext.len selfSerial → ∃ t, tree selfSerial 1 = some t ∧ ArenaContext.leafCount selfSerial 1 = some t.leafCount) :=
  ⟨selfSerial_reachable,leafCount_eq_length selfSerial_reachable 1⟩

example : ArenaContext.leafCount selfSerial 1 = some 2 := by decide

/-- The walks of the DAG below a root terminate. A pop of the loop of `compile`,
    `leaf_count` or `max_depth` replaces the popped handle by its node's children,
    which on a reachable arena are smaller handles: one step down the well-founded
    multiset order on the stacked handles, so no run of pops goes on forever. Within
    the fuel they are given the three loops return on every valid root, and so does
    `compile_node`, whose recursion descends to the same children, from any cache. -/
theorem pops_terminate {a : ArenaContext} (reach : Reachable a) :
    (∀ s s', Pop a s s' → CutExpand (· < ·) (s' : Multiset Nat) s) ∧
    (∀ run : Nat → List Nat, ¬ ∀ k, Pop a (run k) (run (k + 1))) ∧
    (∀ entry stack pushed out, loopStep a entry = some (pushed,out) →
      Pop a ((entry :: stack).map Prod.fst) ((pushed ++ stack).map Prod.fst)) ∧
    (∀ n node fuel stack count, a.get n = some node →
      ∃ count', a.leafCountLoop (fuel + 1) (n :: stack) count = a.leafCountLoop fuel (node.children ++ stack) count') ∧
    (∀ n node fuel depth stack deepest, a.get n = some node →
      ∃ deepest', a.maxDepthLoop (fuel + 1) ((n,depth) :: stack) deepest =
        a.maxDepthLoop fuel (node.children.map (fun c => (c,depth + 1)) ++ stack) deepest') ∧
    ∀ root < a.len, (∃ count, a.leafCount root = some count) ∧ (∃ depth, a.maxDepth root = some depth) ∧
      (∃ out, compile a root = some out) ∧ ∀ self : IncrementalCompiler, ∃ out self', self.compile a root = some (out,self') := by
  have valid := reachable_valid reach
  refine ⟨fun _ _ pop => pop.cutExpand valid,no_infinite_pops valid,fun _ stack _ _ stepped => pop_of_loopStep stepped stack,
    fun n node fuel stack count at_n => ⟨_,leafCountLoop_succ at_n fuel stack count⟩,
    fun n node fuel depth stack deepest at_n => ⟨_,maxDepthLoop_succ at_n fuel depth stack deepest⟩,
    fun root valid_root => ?_⟩
  obtain ⟨t,unfolded⟩ := tree_of_lt valid valid_root
  refine ⟨⟨_,leafCount_of_tree unfolded⟩,⟨_,maxDepth_of_tree unfolded⟩,⟨_,compile_of_tree reach unfolded⟩,
    fun self => ?_⟩
  obtain ⟨⟨out,self'⟩,done⟩ := compileNode_returns valid valid_root valid_root self
  exact ⟨out,self',done⟩

theorem pops_terminate_shared :
    Reachable selfSerial ∧
    (∀ s s', Pop selfSerial s s' → CutExpand (· < ·) (s' : Multiset Nat) s) ∧
    (∀ run : Nat → List Nat, ¬ ∀ k, Pop selfSerial (run k) (run (k + 1))) ∧
    (∀ entry stack pushed out, loopStep selfSerial entry = some (pushed,out) →
      Pop selfSerial ((entry :: stack).map Prod.fst) ((pushed ++ stack).map Prod.fst)) ∧
    (∀ n node fuel stack count, ArenaContext.get selfSerial n = some node →
      ∃ count', ArenaContext.leafCountLoop selfSerial (fuel + 1) (n :: stack) count =
        ArenaContext.leafCountLoop selfSerial fuel (node.children ++ stack) count') ∧
    (∀ n node fuel depth stack deepest, ArenaContext.get selfSerial n = some node →
      ∃ deepest', ArenaContext.maxDepthLoop selfSerial (fuel + 1) ((n,depth) :: stack) deepest =
        ArenaContext.maxDepthLoop selfSerial fuel (node.children.map (fun c => (c,depth + 1)) ++ stack) deepest') ∧
    ∀ root < ArenaContext.len selfSerial, (∃ count, ArenaContext.leafCount selfSerial root = some count) ∧
      (∃ depth, ArenaContext.maxDepth selfSerial root = some depth) ∧ (∃ out, compile selfSerial root = some out) ∧
      ∀ self : IncrementalCompiler, ∃ out self', self.compile selfSerial root = some (out,self') :=
  ⟨selfSerial_reachable,pops_terminate selfSerial_reachable⟩

/-! ### Growing the arena -/

/-- A run of calls without `clear` from a reachable arena reaches an arena that only
    has more nodes. -/
theorem run_append {a b : ArenaContext} (reach : Reachable a) {ops : List ArenaOp} (noClear : ArenaOp.clear ∉ ops)
    (ran : a.run ops = some b) : Reachable b ∧ ∃ extra, b.nodes = a.nodes ++ extra := by
  induction ops generalizing a with
  | nil => cases ran; exact ⟨reach,[],(List.append_nil _).symm⟩
  | cons op ops ih =>
    obtain ⟨next,applied,ran⟩ := Option.bind_eq_some.mp ran
    obtain ⟨reached,extra,grown⟩ := ih (reach.apply applied) (fun mem => noClear (List.mem_cons_of_mem op mem)) ran
    refine ⟨reached,?_⟩
    rcases ArenaContext.apply_grows (fun same => noClear (same ▸ List.mem_cons_self op ops)) applied with rfl | ⟨node,rfl⟩
    exacts [⟨extra,grown⟩,⟨node :: extra,by simp [grown,ArenaContext.push]⟩]

/-- Appending nodes changes the tree of no node already there. -/
theorem tree_append (a : ArenaContext) (extra : List MorphismData) {n : Nat} (lt : n < a.len) :
    tree ⟨a.nodes ++ extra⟩ n = tree a n := by
  induction extra generalizing a with
  | nil => rw [List.append_nil]
  | cons node extra ih =>
    have pushed : (⟨a.nodes ++ node :: extra⟩ : ArenaContext) = ⟨(a.push node).nodes ++ extra⟩ := by
      simp [ArenaContext.push]
    rw [pushed,ih (a.push node) (by simp only [ArenaContext.len_push]; omega),tree_push a node lt]

/-- Handles keep their meaning: along any run of calls without `clear` from a reachable
    arena, every node already there is kept, and so is what the accessors, the
    traversals and both compilers compute from it. -/
theorem run_keeps_handles {a b : ArenaContext} (reach : Reachable a) {ops : List ArenaOp} (noClear : ArenaOp.clear ∉ ops)
    (ran : a.run ops = some b) {r : Nat} (old : r < a.len) :
    b.get r = a.get r ∧ compile b r = compile a r ∧ b.leafCount r = a.leafCount r ∧ b.maxDepth r = a.maxDepth r ∧
      (IncrementalCompiler.new.compile b r).map Prod.fst = (IncrementalCompiler.new.compile a r).map Prod.fst := by
  obtain ⟨reached,extra,grown⟩ := run_append reach noClear ran
  obtain ⟨t,unfolded⟩ := tree_of_lt (reachable_valid reach) old
  have kept : tree b r = some t := by
    rw [show b = ⟨a.nodes ++ extra⟩ from congrArg ArenaContext.mk grown,tree_append a extra old,unfolded]
  obtain ⟨_,u,_,fresh,-⟩ := compile_localEvents (reachable_valid reach) old (cacheOk_new a)
  obtain ⟨_,u',_,fresh',-⟩ := compile_localEvents (reachable_valid reached) (lt_of_tree kept) (cacheOk_new b)
  cases unfolded.symm.trans u
  cases kept.symm.trans u'
  refine ⟨?_,by rw [compile_of_tree reached kept,compile_of_tree reach unfolded],
    by rw [leafCount_of_tree kept,leafCount_of_tree unfolded],by rw [maxDepth_of_tree kept,maxDepth_of_tree unfolded],?_⟩
  · rw [ArenaContext.get,ArenaContext.get,grown]
    exact List.getElem?_append_left old
  · rw [fresh,fresh']
    rfl

/-- `serialPair` after `atomic(2, 7)` and `sequential(2, 3)`. -/
def serialPairGrown : ArenaContext := ⟨[.atomic 0 10 ⟨1,[]⟩,.atomic 1 5 ⟨2,[]⟩,.sequential 0 1 15 [0,1],.atomic 2 7 ⟨3,[]⟩,.sequential 2 3 22 [0,1,2]]⟩

theorem run_keeps_handles_grown :
    Reachable serialPair ∧ ArenaOp.clear ∉ [.atomic 2 7 3 [],.sequential 2 3] ∧
    ArenaContext.run serialPair [.atomic 2 7 3 [],.sequential 2 3] = some serialPairGrown ∧ 2 < ArenaContext.len serialPair ∧
    ArenaContext.get serialPairGrown 2 = ArenaContext.get serialPair 2 ∧ compile serialPairGrown 2 = compile serialPair 2 ∧
    ArenaContext.leafCount serialPairGrown 2 = ArenaContext.leafCount serialPair 2 ∧
    ArenaContext.maxDepth serialPairGrown 2 = ArenaContext.maxDepth serialPair 2 ∧
    (IncrementalCompiler.new.compile serialPairGrown 2).map Prod.fst = (IncrementalCompiler.new.compile serialPair 2).map Prod.fst := by
  have noClear : ArenaOp.clear ∉ [.atomic 2 7 3 [],.sequential 2 3] := by simp
  exact ⟨serialPair_reachable,noClear,rfl,by decide,run_keeps_handles serialPair_reachable noClear rfl (by decide)⟩

/-! ### The two compilers without ties -/

/-- Where no two events of a root fall at one time, the incremental compiler, from
    any right cache, returns exactly the flat compiler's list. -/
theorem compile_eq_flat {a : ArenaContext} (reach : Reachable a) {root : Nat} {self : IncrementalCompiler}
    (ok : CacheOk a self) {flat : List FlatEvent} (compiled : compile a root = some flat)
    (distinct : (flat.map FlatEvent.time).Nodup) : ∃ self', self.compile a root = some (flat,self') ∧ CacheOk a self' := by
  have valid_root : root < a.len := Nat.lt_of_not_le fun le => by simp [compile_of_le le] at compiled
  obtain ⟨flat',events,self',compiled',done,perm,sortedFlat,sorted,ok'⟩ := compile_perm reach valid_root ok
  cases compiled.symm.trans compiled'
  haveI : IsAntisymm FlatEvent fun x y => x.time < y.time := ⟨fun _ _ lt lt' => absurd (lt.trans lt') (lt_irrefl _)⟩
  have strict : ∀ l : List FlatEvent, l.Perm flat → SortedBy FlatEvent.time l → l.Sorted fun x y => x.time < y.time :=
    fun l perm sorted => List.pairwise_map.mp (List.Sorted.lt_of_le (List.pairwise_map.mpr sorted) ((perm.map _).nodup_iff.mpr distinct))
  rw [List.eq_of_perm_of_sorted perm (strict _ perm sorted) (strict _ (.refl _) sortedFlat)] at done
  exact ⟨self',done,ok'⟩

theorem compile_eq_flat_sequential :
    Reachable serialPair ∧ CacheOk serialPair IncrementalCompiler.new ∧
      compile serialPair 2 = some [⟨0,0,1,[]⟩,⟨10,1,2,[]⟩] ∧ ([⟨0,0,1,[]⟩,⟨10,1,2,[]⟩].map FlatEvent.time).Nodup ∧
      ∃ self', IncrementalCompiler.new.compile serialPair 2 = some ([⟨0,0,1,[]⟩,⟨10,1,2,[]⟩],self') ∧ CacheOk serialPair self' :=
  ⟨serialPair_reachable,cacheOk_new _,by decide,by decide,compile_eq_flat serialPair_reachable (cacheOk_new _) (by decide) (by decide)⟩

/-! ### Shape bounds -/

/-- A node's tree is no deeper than its handle plus one, its children coming first. -/
theorem depth_le {a : ArenaContext} {n : Nat} {t : Morphism} (unfolded : tree a n = some t) : t.depth ≤ n + 1 := by
  induction n using Nat.strong_induction_on generalizing t with
  | _ n ih =>
    obtain ⟨node,-,unfolds⟩ := tree_eq_some.mp unfolded
    cases node with
    | atomic => cases unfolds; simp [Morphism.depth]
    | sequential lhs rhs | parallel lhs rhs =>
      obtain ⟨hl,hr,l,r,ul,ur,rfl⟩ := unfolds
      have dl := ih lhs hl ul
      have dr := ih rhs hr ur
      simp only [Morphism.depth]
      omega

/-- On a reachable arena `leaf_count` and `max_depth` answer on every handle, the
    depth is at least 1 and at most the handle plus one, and a node of depth `d`
    has at most `2 ^ (d - 1)` leaf occurrences. -/
theorem maxDepth_bounds {a : ArenaContext} (reach : Reachable a) {root : Nat} (valid_root : root < a.len) :
    ∃ leaves depth, a.leafCount root = some leaves ∧ a.maxDepth root = some depth ∧
      1 ≤ depth ∧ depth ≤ root + 1 ∧ leaves ≤ 2 ^ (depth - 1) := by
  obtain ⟨t,unfolded⟩ := tree_of_lt (reachable_valid reach) valid_root
  exact ⟨_,_,leafCount_of_tree unfolded,maxDepth_of_tree unfolded,t.depth_pos,depth_le unfolded,t.leafCount_le_two_pow⟩

theorem maxDepth_bounds_sequential :
    Reachable serialPair ∧
      2 < ArenaContext.len serialPair ∧
      ∃ leaves depth, ArenaContext.leafCount serialPair 2 = some leaves ∧
        ArenaContext.maxDepth serialPair 2 = some depth ∧
        1 ≤ depth ∧ depth ≤ 2 + 1 ∧ leaves ≤ 2 ^ (depth - 1) :=
  ⟨serialPair_reachable,by decide,maxDepth_bounds serialPair_reachable (by decide)⟩

end Catseq.Traversal
