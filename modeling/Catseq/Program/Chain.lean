import Mathlib.Data.Nat.Log
import Catseq.Program.Arena

/-!
`chain_sequence` of `program/arena.rs` builds a balanced tree of `Chain` nodes over a
list of handles by rounds of pairwise halving. The tree a call builds is read back
by `chainTree`, which unfolds only the chain nodes from a base index on: those the
call appends. A round on the arena is one round `pairUp` on the trees
(`chainRound_trees`); a round keeps the leaves in order and, while two trees or more
are left, raises the height of the first tree by one, no other tree growing past it
(`Level.pairUp`). So the loop leaves one tree over the handles in their order, of
height `⌈log₂ N⌉`, having appended `N - 1` chain nodes (`chainSequence_balanced`).
Every call but `clear` only appends nodes and values, so along a run every handle
keeps its data and every query's answer about it (`run_keeps_program_handles`).
-/

namespace Catseq.Program
open ProgramArena

/-- A binary tree of `Chain` nodes over handles. -/
inductive ChainTree where
  | leaf (handle : Nat)
  | chain (left right : ChainTree)
deriving DecidableEq, Repr

namespace ChainTree

def leaves : ChainTree → List Nat
  | leaf handle => [handle]
  | chain left right => left.leaves ++ right.leaves

def height : ChainTree → Nat
  | leaf _ => 0
  | chain left right => max left.height right.height + 1

/-- One round of the halving on trees: adjacent trees joined pairwise, left to
    right, a last odd one carried over. -/
def pairUp : List ChainTree → List ChainTree
  | left :: right :: rest => chain left right :: pairUp rest
  | trees => trees

theorem leaves_map_leaf (handles : List Nat) : (handles.map leaf).flatMap leaves = handles := by
  induction handles with
  | nil => rfl
  | cons h handles ih => simp [leaves,ih]

theorem leaves_pairUp : ∀ trees : List ChainTree, (pairUp trees).flatMap leaves = trees.flatMap leaves
  | _ :: _ :: rest => by simp only [pairUp,List.flatMap_cons,leaves,leaves_pairUp rest,List.append_assoc]
  | [] | [_] => rfl

theorem length_pairUp : ∀ trees : List ChainTree, (pairUp trees).length = (trees.length + 1) / 2
  | _ :: _ :: rest => by
    simp only [pairUp,List.length_cons,length_pairUp rest]
    omega
  | [] | [_] => by simp [pairUp]

theorem height_le_of_mem_pairUp {k : Nat} :
    ∀ {trees : List ChainTree}, (∀ t ∈ trees, t.height ≤ k) → ∀ t ∈ pairUp trees, t.height ≤ k + 1
  | left :: right :: rest, low, t, mem => by
    rcases List.mem_cons.mp mem with rfl | mem
    · have := low left (List.mem_cons_self _ _)
      have := low right (List.mem_cons_of_mem _ (List.mem_cons_self _ _))
      simp only [height]
      omega
    · exact height_le_of_mem_pairUp (fun t m => low t (List.mem_cons_of_mem _ (List.mem_cons_of_mem _ m))) t mem
  | [], _, _, mem => nomatch mem
  | [_], low, t, mem => (low t mem).trans (Nat.le_succ k)

/-- The first tree has height `k` and no tree is higher. -/
def Level (k : Nat) (trees : List ChainTree) : Prop :=
  (∀ t ∈ trees, t.height ≤ k) ∧ ∀ t ∈ trees.head?, t.height = k

/-- A round on two trees or more raises the level by one. -/
theorem Level.pairUp {k : Nat} {trees : List ChainTree} (level : Level k trees) (two : 2 ≤ trees.length) :
    Level (k + 1) (ChainTree.pairUp trees) := by
  match trees, two with
  | left :: right :: rest, _ =>
    refine ⟨height_le_of_mem_pairUp level.1,fun t first => ?_⟩
    obtain rfl := Option.some.inj first.symm
    have := level.2 left rfl
    have := level.1 right (List.mem_cons_of_mem _ (List.mem_cons_self _ _))
    simp only [height]
    omega

end ChainTree

open ChainTree

/-- The tree a handle stands for when only the `Chain` nodes from `base` on are
    unfolded; a chain node whose children do not come before it stays a leaf. -/
def chainTree (p : ProgramArena) (base n : Nat) : ChainTree :=
  if base ≤ n then
    match p.nodes[n]? with
    | some (.chain left right) =>
      if _ : left < n ∧ right < n then .chain (chainTree p base left) (chainTree p base right) else .leaf n
    | _ => .leaf n
  else .leaf n
termination_by n
decreasing_by all_goals simp_wf; omega

theorem chainTree_of_lt {p : ProgramArena} {base n : Nat} (below : n < base) : chainTree p base n = .leaf n := by
  rw [chainTree,if_neg (by omega)]

/-- Appending a node changes no earlier handle's tree. -/
theorem chainTree_pushNode (p : ProgramArena) (node : NodeData) (base : Nat) {n : Nat} (lt : n < p.nodeCount) :
    chainTree (p.pushNode node).2 base n = chainTree p base n := by
  induction n using Nat.strong_induction_on with
  | _ n ih =>
    have same : (p.pushNode node).2.nodes[n]? = p.nodes[n]? := List.getElem?_append_left lt
    rw [chainTree,chainTree,same]
    split_ifs with le
    · split
      · split_ifs with below
        · rw [ih _ below.1 (by omega),ih _ below.2 (by omega)]
        · rfl
      · rfl
    · rfl

/-- A chain node appended above the base unfolds to the chain of its children's trees. -/
theorem chainTree_chain (p : ProgramArena) {base left right : Nat} (le : base ≤ p.nodeCount)
    (hl : left < p.nodeCount) (hr : right < p.nodeCount) :
    chainTree (p.chain left right).2 base p.nodeCount = .chain (chainTree p base left) (chainTree p base right) := by
  have stored : (p.chain left right).2.nodes[p.nodeCount]? = some (.chain left right) := List.getElem?_concat_length ..
  rw [chainTree,if_pos le,stored]
  dsimp only
  rw [dif_pos ⟨hl,hr⟩,ProgramArena.chain,chainTree_pushNode _ _ _ hl,chainTree_pushNode _ _ _ hr]

/-! ### One round -/

theorem chain_fst (p : ProgramArena) (left right : Nat) : (p.chain left right).1 = p.nodeCount := rfl

theorem nodeCount_chain (p : ProgramArena) (left right : Nat) : (p.chain left right).2.nodeCount = p.nodeCount + 1 := by
  simp [ProgramArena.chain,pushNode,nodeCount]

/-- A round appends one chain node per pair of handles. -/
theorem chainRound_nodes : ∀ (q : ProgramArena) (current : List Nat),
    ∃ added, (q.chainRound current).2.nodes = q.nodes ++ added ∧
      (∀ node ∈ added, ∃ left right, node = .chain left right) ∧ added.length = current.length / 2
  | q, left :: right :: rest => by
    obtain ⟨added,nodes,chains,count⟩ := chainRound_nodes (q.chain left right).2 rest
    refine ⟨.chain left right :: added,?_,?_,?_⟩
    · rw [chainRound,nodes]
      simp [ProgramArena.chain,pushNode]
    · rintro node (_ | ⟨_,mem⟩)
      exacts [⟨left,right,rfl⟩,chains node mem]
    · simp only [List.length_cons,count]
      omega
  | q, [] | q, [_] => ⟨[],by simp [chainRound],by simp,by simp⟩

theorem le_nodeCount_chainRound (q : ProgramArena) (current : List Nat) :
    q.nodeCount ≤ (q.chainRound current).2.nodeCount := by
  obtain ⟨added,nodes,-⟩ := chainRound_nodes q current
  simp [nodeCount,nodes]

/-- A round changes no earlier handle's tree. -/
theorem chainRound_stable (base : Nat) : ∀ (q : ProgramArena) (current : List Nat) {n : Nat}, n < q.nodeCount →
    chainTree (q.chainRound current).2 base n = chainTree q base n
  | q, left :: right :: rest, n, lt => by
    rw [chainRound]
    rw [chainRound_stable base _ rest (by rw [nodeCount_chain]; omega),ProgramArena.chain,chainTree_pushNode _ _ _ lt]
  | q, [], _, _ | q, [_], _, _ => by simp [chainRound]

/-- The handles a round returns all lie in the arena it leaves. -/
theorem chainRound_below : ∀ (q : ProgramArena) (current : List Nat), (∀ h ∈ current, h < q.nodeCount) →
    ∀ h ∈ (q.chainRound current).1, h < (q.chainRound current).2.nodeCount
  | q, left :: right :: rest, _, h, mem => by
    rw [chainRound] at mem ⊢
    have grows := le_nodeCount_chainRound (q.chain left right).2 rest
    rw [nodeCount_chain] at grows
    rcases List.mem_cons.mp mem with rfl | mem
    · exact Nat.lt_of_lt_of_le (Nat.lt_succ_self _) grows
    · exact chainRound_below _ rest (fun h inRest => by
        have := ‹∀ h ∈ left :: right :: rest, h < q.nodeCount› h (List.mem_cons_of_mem _ (List.mem_cons_of_mem _ inRest))
        rw [nodeCount_chain]
        omega) h mem
  | q, [], below, h, mem | q, [_], below, h, mem => by
    simp only [chainRound] at mem ⊢
    exact below h mem

/-- One round on the arena is one round on the trees of its handles. -/
theorem chainRound_trees (base : Nat) : ∀ (q : ProgramArena) (current : List Nat), base ≤ q.nodeCount →
    (∀ h ∈ current, h < q.nodeCount) →
    (q.chainRound current).1.map (chainTree (q.chainRound current).2 base) = pairUp (current.map (chainTree q base))
  | q, left :: right :: rest, le, below => by
    have hl := below left (List.mem_cons_self _ _)
    have hr := below right (List.mem_cons_of_mem _ (List.mem_cons_self _ _))
    have restBelow : ∀ h ∈ rest, h < q.nodeCount := fun h mem =>
      below h (List.mem_cons_of_mem _ (List.mem_cons_of_mem _ mem))
    have restTrees := chainRound_trees base (q.chain left right).2 rest (by rw [nodeCount_chain]; omega)
      (fun h mem => by rw [nodeCount_chain]; have := restBelow h mem; omega)
    rw [chainRound]
    simp only [List.map_cons,pairUp]
    rw [chain_fst,chainRound_stable base _ rest (show q.nodeCount < (q.chain left right).2.nodeCount by rw [nodeCount_chain]; omega),
      chainTree_chain q le hl hr,restTrees]
    congr 2
    exact List.map_congr_left fun h mem => by rw [ProgramArena.chain,chainTree_pushNode _ _ _ (restBelow h mem)]
  | q, [], _, _ | q, [_], _, _ => by simp [chainRound,pairUp]

/-! ### The loop -/

/-- The loop on a nonempty list of handles whose trees are at level `k` appends one
    chain node fewer than there are handles and leaves one handle, whose tree has
    the handles' leaves in order and height `k + ⌈log₂ N⌉`. -/
theorem chainLoop_spec (base : Nat) (q : ProgramArena) (current : List Nat) (k : Nat) (le : base ≤ q.nodeCount)
    (below : ∀ h ∈ current, h < q.nodeCount) (nonempty : current ≠ [])
    (level : Level k (current.map (chainTree q base))) :
    ∃ root added, (q.chainLoop current).1 = [root] ∧ (q.chainLoop current).2.nodes = q.nodes ++ added ∧
      (∀ node ∈ added, ∃ left right, node = .chain left right) ∧ added.length + 1 = current.length ∧
      (chainTree (q.chainLoop current).2 base root).leaves = (current.map (chainTree q base)).flatMap leaves ∧
      (chainTree (q.chainLoop current).2 base root).height = k + Nat.clog 2 current.length := by
  induction q,current using chainLoop.induct generalizing k with
  | case1 q current two ih =>
    rw [chainLoop,dif_pos two]
    have trees := chainRound_trees base q current le below
    obtain ⟨added,nodes,chains,count⟩ := chainRound_nodes q current
    have length := chainRound_length q current
    obtain ⟨root,added',result,nodes',chains',count',leaves',height'⟩ :=
      ih (k + 1) ((le_nodeCount_chainRound q current).trans' le) (chainRound_below q current below)
        (List.ne_nil_of_length_pos (by omega)) (trees ▸ level.pairUp (by simpa using two))
    refine ⟨root,added ++ added',result,by rw [nodes',nodes,List.append_assoc],?_,?_,?_,?_⟩
    · intro node mem
      rcases List.mem_append.mp mem with mem | mem
      exacts [chains node mem,chains' node mem]
    · simp only [List.length_append]
      omega
    · rw [leaves',trees,leaves_pairUp]
    · have halving : Nat.clog 2 current.length = Nat.clog 2 ((current.length + 1) / 2) + 1 := by
        rw [Nat.clog_of_two_le Nat.one_lt_two two]
        rfl
      rw [height',length,halving]
      omega
  | case2 q current short =>
    rw [chainLoop,dif_neg short]
    match current, nonempty with
    | [x], _ => exact ⟨x,[],rfl,by simp,by simp,rfl,by simp,by simp [level.2 _ rfl]⟩
    | _ :: _ :: _, _ => exact absurd (by simp only [List.length_cons]; omega) short

/-- `chain_sequence` on handles of the arena: for no handle it returns `None` and
    changes nothing, for one it returns that handle and changes nothing; for `N`
    handles it appends exactly `N - 1` chain nodes, leaves the values and the table
    alone, and returns a root whose tree over the appended chain nodes has the
    handles as its leaves in their order and height `⌈log₂ N⌉`. -/
theorem chainSequence_balanced (p : ProgramArena) (nodes : List Nat) (valid : ∀ h ∈ nodes, h < p.nodeCount) :
    (nodes = [] → p.chainSequence nodes = (none,p)) ∧
    (∀ x, nodes = [x] → p.chainSequence nodes = (some x,p)) ∧
    (nodes ≠ [] → ∃ root added, (p.chainSequence nodes).1 = some root ∧
      (p.chainSequence nodes).2.nodes = p.nodes ++ added ∧ added.length = nodes.length - 1 ∧
      (∀ node ∈ added, ∃ left right, node = .chain left right) ∧ SameValues p (p.chainSequence nodes).2 ∧
      (chainTree (p.chainSequence nodes).2 p.nodeCount root).leaves = nodes ∧
      (chainTree (p.chainSequence nodes).2 p.nodeCount root).height = Nat.clog 2 nodes.length) := by
  refine ⟨by rintro rfl; rfl,by rintro x rfl; rfl,fun nonempty => ?_⟩
  have same := sameValues_chainSequence p nodes
  have leafTrees : nodes.map (chainTree p p.nodeCount) = nodes.map .leaf :=
    List.map_congr_left fun h mem => chainTree_of_lt (valid h mem)
  match nodes, nonempty, valid with
  | [x], _, valid =>
    exact ⟨x,[],rfl,by simp [chainSequence],rfl,by simp,same,by simp [chainSequence,chainTree_of_lt (valid x (List.mem_singleton_self x)),leaves],
      by simp [chainSequence,chainTree_of_lt (valid x (List.mem_singleton_self x)),height]⟩
  | x :: y :: rest, _, valid =>
    have unfold : p.chainSequence (x :: y :: rest) =
        ((p.chainLoop (x :: y :: rest)).1.head?,(p.chainLoop (x :: y :: rest)).2) := rfl
    rw [unfold] at same ⊢
    have level : Level 0 ((x :: y :: rest).map (chainTree p p.nodeCount)) := by
      rw [leafTrees]
      exact ⟨fun t mem => by obtain ⟨_,-,rfl⟩ := List.mem_map.mp mem; rfl,fun t first => by cases first; rfl⟩
    obtain ⟨root,added,result,nodes',chains,count,leaves',height'⟩ :=
      chainLoop_spec p.nodeCount p (x :: y :: rest) 0 le_rfl valid (List.cons_ne_nil _ _) level
    refine ⟨root,added,by rw [result]; rfl,nodes',by omega,chains,same,?_,by rw [height',Nat.zero_add]⟩
    rw [leaves',leafTrees,leaves_map_leaf]

/-- Three identity nodes. -/
def threeIdentities : ProgramArena := new.run [.identity,.identity,.identity]

theorem chainSequence_balanced_three :
    (∀ h ∈ [0,1,2], h < threeIdentities.nodeCount) ∧
    ([0,1,2] = [] → threeIdentities.chainSequence [0,1,2] = (none,threeIdentities)) ∧
    (∀ x, [0,1,2] = [x] → threeIdentities.chainSequence [0,1,2] = (some x,threeIdentities)) ∧
    ([0,1,2] ≠ [] → ∃ root added, (threeIdentities.chainSequence [0,1,2]).1 = some root ∧
      (threeIdentities.chainSequence [0,1,2]).2.nodes = threeIdentities.nodes ++ added ∧
      added.length = [0,1,2].length - 1 ∧
      (∀ node ∈ added, ∃ left right, node = .chain left right) ∧
      SameValues threeIdentities (threeIdentities.chainSequence [0,1,2]).2 ∧
      (chainTree (threeIdentities.chainSequence [0,1,2]).2 threeIdentities.nodeCount root).leaves = [0,1,2] ∧
      (chainTree (threeIdentities.chainSequence [0,1,2]).2 threeIdentities.nodeCount root).height = Nat.clog 2 [0,1,2].length) :=
  ⟨by decide,chainSequence_balanced _ _ (by decide)⟩

/-! ### Handles keep their data -/

theorem chainLoop_nodes (q : ProgramArena) (current : List Nat) : ∃ added, (q.chainLoop current).2.nodes = q.nodes ++ added := by
  induction q,current using chainLoop.induct with
  | case1 q current two ih =>
    obtain ⟨added,nodes,-⟩ := chainRound_nodes q current
    obtain ⟨added',nodes'⟩ := ih
    exact ⟨added ++ added',by rw [chainLoop,dif_pos two,nodes',nodes,List.append_assoc]⟩
  | case2 q current one => exact ⟨[],by rw [chainLoop,dif_neg one,List.append_nil]⟩

theorem chainSequence_nodes (q : ProgramArena) (nodes : List Nat) :
    ∃ added, (q.chainSequence nodes).2.nodes = q.nodes ++ added := by
  unfold chainSequence
  split
  · exact ⟨[],(List.append_nil _).symm⟩
  · exact ⟨[],(List.append_nil _).symm⟩
  · exact chainLoop_nodes q _

/-- Every call but `clear` only appends nodes and values. -/
theorem exec_appends (p : ProgramArena) {op : ProgramOp} (notClear : op ≠ .clear) :
    (∃ added, (p.exec op).nodes = p.nodes ++ added) ∧ ∃ added, (p.exec op).values = p.values ++ added := by
  cases op with
  | «variable» name typeHint =>
    refine ⟨⟨[],?_⟩,?_⟩ <;> simp only [exec,ProgramArena.variable] <;> cases p.varNames.lookup name
    all_goals first | exact ⟨_,rfl⟩ | simp
  | literal | literalFloat | binaryExpr | unaryExpr | condition | logicalExpr => exact ⟨⟨[],(List.append_nil _).symm⟩,_,rfl⟩
  | lift | delay | setVar | chain | loopNode | matchNode | apply | funcDef | measure | identity =>
    exact ⟨⟨_,rfl⟩,[],(List.append_nil _).symm⟩
  | chainSequence nodes =>
    exact ⟨chainSequence_nodes p nodes,[],(sameValues_chainSequence p nodes).1.trans (List.append_nil _).symm⟩
  | clear => exact absurd rfl notClear

theorem run_appends (p : ProgramArena) {ops : List ProgramOp} (noClear : ProgramOp.clear ∉ ops) :
    (∃ added, (p.run ops).nodes = p.nodes ++ added) ∧ ∃ added, (p.run ops).values = p.values ++ added := by
  induction ops generalizing p with
  | nil => exact ⟨⟨[],(List.append_nil _).symm⟩,[],(List.append_nil _).symm⟩
  | cons op ops ih =>
    obtain ⟨⟨n1,nodes1⟩,v1,values1⟩ := exec_appends p fun same => noClear (same ▸ List.mem_cons_self op ops)
    obtain ⟨⟨n2,nodes2⟩,v2,values2⟩ := ih (p.exec op) fun mem => noClear (List.mem_cons_of_mem op mem)
    exact ⟨⟨n1 ++ n2,by rw [run,nodes2,nodes1,List.append_assoc]⟩,v1 ++ v2,by rw [run,values2,values1,List.append_assoc]⟩

/-- Handles keep their data: along any run of calls without `clear` the nodes and
    values only grow at the end, so every node and value already created, and what
    every query answers about it, stays as it was. -/
theorem run_keeps_program_handles {p : ProgramArena} {ops : List ProgramOp} (noClear : ProgramOp.clear ∉ ops) :
    p.nodes.IsPrefix (p.run ops).nodes ∧ p.values.IsPrefix (p.run ops).values ∧
      (∀ id < p.nodeCount, (p.run ops).getNode id = p.getNode id) ∧
      ∀ id < p.valueCount, (p.run ops).getValue id = p.getValue id ∧
        (p.run ops).isLiteral id = p.isLiteral id ∧ (p.run ops).isVariable id = p.isVariable id ∧
        (p.run ops).getLiteralInt id = p.getLiteralInt id ∧ (p.run ops).getLiteralFloat id = p.getLiteralFloat id ∧
        (p.run ops).getVariableName id = p.getVariableName id := by
  obtain ⟨⟨nodes,grownNodes⟩,values,grownValues⟩ := run_appends p noClear
  have kept : ∀ id < p.valueCount, (p.run ops).values[id]? = p.values[id]? := fun id lt => by
    rw [grownValues]
    exact List.getElem?_append_left lt
  refine ⟨⟨_,grownNodes.symm⟩,⟨_,grownValues.symm⟩,fun id lt => ?_,fun id lt => ?_⟩
  · rw [getNode,getNode,grownNodes]
    exact List.getElem?_append_left lt
  · simp only [getValue,isLiteral,isVariable,getLiteralInt,getLiteralFloat,getVariableName,kept id lt,and_self]

/-- A literal and the variable `x`. -/
def literalAndX : ProgramArena := new.run [.literal 3,.variable "x" "int32"]

theorem run_keeps_program_handles_literal :
    ProgramOp.clear ∉ [.identity,.literal 4] ∧
    literalAndX.nodes.IsPrefix (literalAndX.run [.identity,.literal 4]).nodes ∧ literalAndX.values.IsPrefix (literalAndX.run [.identity,.literal 4]).values ∧
      (∀ id < literalAndX.nodeCount, (literalAndX.run [.identity,.literal 4]).getNode id = literalAndX.getNode id) ∧
      ∀ id < literalAndX.valueCount, (literalAndX.run [.identity,.literal 4]).getValue id = literalAndX.getValue id ∧
        (literalAndX.run [.identity,.literal 4]).isLiteral id = literalAndX.isLiteral id ∧ (literalAndX.run [.identity,.literal 4]).isVariable id = literalAndX.isVariable id ∧
        (literalAndX.run [.identity,.literal 4]).getLiteralInt id = literalAndX.getLiteralInt id ∧ (literalAndX.run [.identity,.literal 4]).getLiteralFloat id = literalAndX.getLiteralFloat id ∧
        (literalAndX.run [.identity,.literal 4]).getVariableName id = literalAndX.getVariableName id := by
  have noClear : ProgramOp.clear ∉ [.identity,.literal 4] := by simp
  exact ⟨noClear,run_keeps_program_handles noClear⟩

end Catseq.Program
