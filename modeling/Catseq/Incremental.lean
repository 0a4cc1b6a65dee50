import Catseq.Compiler

/-!
The incremental compiler of `incremental.rs`. `compile_node` compiles a node to
its events in the node's own time, from 0, and caches them under the node's
handle: a parent in series appends its right child's events shifted by the left
child's duration, a parent in parallel merges its children's events with
`merge_sorted_events`. Its meaning is `localEvents` (`compileNode_localEvents`):
from a cache that holds only such results, every call returns the local events
of the node's tree and leaves such a cache. The local events are sorted by time,
are the flat compiler's events in another order (`localEvents_perm`), and on each
channel are the root's operations in the order of its schedule
(`filter_localEvents`). Between channels the two orders differ: on a tie the
second block copy of `merge_sorted_events` puts the right child's events before
the left child's, where the flat compiler's stable sort keeps the left ones first;
outside that tie every path returns what the loop returns
(`mergeSortedEvents_eq_mergeLoop`), and on every path the merge keeps each input
in order (`mergeSortedEvents_interleaves`). Both compilers' output starts at time 0 and
ends with an operation that ends at the root's duration (`compile_span`).
-/

namespace Catseq.Incremental
open Catseq.Arena Catseq.Algebra Catseq.Unfolding Catseq.StableSort Catseq.Compiler

/-! ### `merge_sorted_events` -/

/-- The two-pointer loop of `merge_sorted_events`: take the left list's head while
    its time is at most the right list's head's, then append what remains. -/
def mergeLoop (a b : List FlatEvent) : List FlatEvent := a.merge b fun x y => x.time ≤ y.time

/-- `merge_sorted_events`: the empty inputs, the block copy of `a` before `b`, the
    block copy of `b` before `a`, and otherwise the loop. -/
def mergeSortedEvents : List FlatEvent → List FlatEvent → List FlatEvent
  | [], b => b
  | a, [] => a
  | aFirst :: aRest, bFirst :: bRest =>
    if ((aFirst :: aRest).getLast (List.cons_ne_nil _ _)).time ≤ bFirst.time then
      (aFirst :: aRest) ++ (bFirst :: bRest)
    else if ((bFirst :: bRest).getLast (List.cons_ne_nil _ _)).time ≤ aFirst.time then
      (bFirst :: bRest) ++ (aFirst :: aRest)
    else mergeLoop (aFirst :: aRest) (bFirst :: bRest)

@[simp] theorem mergeSortedEvents_nil_left (b : List FlatEvent) : mergeSortedEvents [] b = b := by
  cases b <;> rfl

@[simp] theorem mergeSortedEvents_nil_right (a : List FlatEvent) : mergeSortedEvents a [] = a := by
  cases a <;> rfl

/-- Each path of `merge_sorted_events` returns one of three interleavings. -/
theorem mergeSortedEvents_cases (a b : List FlatEvent) :
    mergeSortedEvents a b = a ++ b ∨ mergeSortedEvents a b = b ++ a ∨ mergeSortedEvents a b = mergeLoop a b := by
  match a, b with
  | [], b => simp
  | a, [] => simp
  | _ :: _, _ :: _ =>
    simp only [mergeSortedEvents]
    split
    · exact .inl rfl
    · split
      · exact .inr (.inl rfl)
      · exact .inr (.inr rfl)

theorem mergeSortedEvents_perm (a b : List FlatEvent) : (mergeSortedEvents a b).Perm (a ++ b) := by
  rcases mergeSortedEvents_cases a b with h | h | h <;> rw [h]
  · exact List.perm_append_comm
  · exact List.merge_perm_append _

theorem filter_mergeLoop_of_right {p : FlatEvent → Bool} {b : List FlatEvent} (none : b.filter p = []) (a : List FlatEvent) :
    (mergeLoop a b).filter p = a.filter p := by
  induction a generalizing b with
  | nil => simp [mergeLoop,none]
  | cons x a ih =>
    induction b with
    | nil => simp [mergeLoop]
    | cons y b ihb =>
      have py : p y = false := by simpa using List.filter_eq_nil_iff.mp none y (List.mem_cons_self y b)
      rw [List.filter_cons_of_neg (by simp [py])] at none
      unfold mergeLoop at ih ihb ⊢
      rw [List.cons_merge_cons]
      split
      · rw [List.filter_cons,ih (by rw [List.filter_cons_of_neg (by simp [py]),none]),← List.filter_cons]
      · rw [List.filter_cons_of_neg (by simp [py]),ihb none]

theorem filter_mergeLoop_of_left {p : FlatEvent → Bool} {a : List FlatEvent} (none : a.filter p = []) (b : List FlatEvent) :
    (mergeLoop a b).filter p = b.filter p := by
  induction b generalizing a with
  | nil => simp [mergeLoop,none]
  | cons y b ih =>
    induction a with
    | nil => simp [mergeLoop]
    | cons x a iha =>
      have px : p x = false := by simpa using List.filter_eq_nil_iff.mp none x (List.mem_cons_self x a)
      rw [List.filter_cons_of_neg (by simp [px])] at none
      unfold mergeLoop at ih iha ⊢
      rw [List.cons_merge_cons]
      split
      · rw [List.filter_cons_of_neg (by simp [px]),iha none]
      · rw [List.filter_cons,ih (by rw [List.filter_cons_of_neg (by simp [px]),none]),← List.filter_cons]

/-- When `b` has no event that `p` selects, merging keeps `a`'s selected events in order. -/
theorem filter_mergeSortedEvents_of_right {p : FlatEvent → Bool} {b : List FlatEvent} (none : b.filter p = [])
    (a : List FlatEvent) : (mergeSortedEvents a b).filter p = a.filter p := by
  rcases mergeSortedEvents_cases a b with h | h | h <;> rw [h]
  · simp [none]
  · simp [none]
  · exact filter_mergeLoop_of_right none a

theorem filter_mergeSortedEvents_of_left {p : FlatEvent → Bool} {a : List FlatEvent} (none : a.filter p = [])
    (b : List FlatEvent) : (mergeSortedEvents a b).filter p = b.filter p := by
  rcases mergeSortedEvents_cases a b with h | h | h <;> rw [h]
  · simp [none]
  · simp [none]
  · exact filter_mergeLoop_of_left none b

theorem mergeLoop_sorted {a b : List FlatEvent} (sa : SortedBy FlatEvent.time a) (sb : SortedBy FlatEvent.time b) :
    SortedBy FlatEvent.time (mergeLoop a b) :=
  (List.sorted_merge (fun _ _ _ h h' => by simp only [decide_eq_true_eq] at *; omega)
    (fun _ _ => by simp only [Bool.or_eq_true,decide_eq_true_eq]; omega) a b
    (sa.imp fun h => decide_eq_true h) (sb.imp fun h => decide_eq_true h)).imp fun h => of_decide_eq_true h

/-- The output of `merge_sorted_events` on sorted inputs is sorted, whichever path it takes. -/
theorem mergeSortedEvents_sorted {a b : List FlatEvent} (sa : SortedBy FlatEvent.time a) (sb : SortedBy FlatEvent.time b) :
    SortedBy FlatEvent.time (mergeSortedEvents a b) := by
  match a, b with
  | [], b => simpa using sb
  | a, [] => simpa using sa
  | x :: a, y :: b =>
    simp only [mergeSortedEvents]
    split
    · exact List.pairwise_append.mpr ⟨sa,sb,fun u hu v hv => ((sa.le_getLast _ _ hu).trans ‹_›).trans (sb.head_le _ hv)⟩
    · split
      · exact List.pairwise_append.mpr ⟨sb,sa,fun u hu v hv => ((sb.le_getLast _ _ hu).trans ‹_›).trans (sa.head_le _ hv)⟩
      · exact mergeLoop_sorted sa sb

theorem sublist_mergeLoop (a b : List FlatEvent) : a.Sublist (mergeLoop a b) ∧ b.Sublist (mergeLoop a b) := by
  induction a generalizing b with
  | nil => simp [mergeLoop]
  | cons x a ih =>
    induction b with
    | nil => simp [mergeLoop]
    | cons y b ihb =>
      unfold mergeLoop at ih ihb ⊢
      rw [List.cons_merge_cons]
      split
      · exact ⟨(ih (y :: b)).1.cons₂ x,(ih (y :: b)).2.cons x⟩
      · exact ⟨ihb.1.cons y,ihb.2.cons₂ y⟩

/-- `merge_sorted_events` is a merge on every path it takes: on sorted inputs its
    output is sorted, holds the events of both inputs, and keeps each input's
    events in their order. -/
theorem mergeSortedEvents_interleaves {a b : List FlatEvent} (sa : SortedBy FlatEvent.time a)
    (sb : SortedBy FlatEvent.time b) :
    SortedBy FlatEvent.time (mergeSortedEvents a b) ∧ (mergeSortedEvents a b).Perm (a ++ b) ∧
      a.Sublist (mergeSortedEvents a b) ∧ b.Sublist (mergeSortedEvents a b) := by
  refine ⟨mergeSortedEvents_sorted sa sb,mergeSortedEvents_perm a b,?_⟩
  rcases mergeSortedEvents_cases a b with h | h | h <;> rw [h]
  · exact ⟨List.sublist_append_left a b,List.sublist_append_right a b⟩
  · exact ⟨List.sublist_append_right b a,List.sublist_append_left b a⟩
  · exact sublist_mergeLoop a b

theorem mergeSortedEvents_interleaves_tie :
    SortedBy FlatEvent.time [⟨0,0,1,[]⟩,⟨10,0,1,[]⟩] ∧ SortedBy FlatEvent.time [⟨0,1,1,[]⟩] ∧
      SortedBy FlatEvent.time (mergeSortedEvents [⟨0,0,1,[]⟩,⟨10,0,1,[]⟩] [⟨0,1,1,[]⟩]) ∧
      (mergeSortedEvents [⟨0,0,1,[]⟩,⟨10,0,1,[]⟩] [⟨0,1,1,[]⟩]).Perm ([⟨0,0,1,[]⟩,⟨10,0,1,[]⟩] ++ [⟨0,1,1,[]⟩]) ∧
      List.Sublist [⟨0,0,1,[]⟩,⟨10,0,1,[]⟩] (mergeSortedEvents [⟨0,0,1,[]⟩,⟨10,0,1,[]⟩] [⟨0,1,1,[]⟩]) ∧
      List.Sublist [⟨0,1,1,[]⟩] (mergeSortedEvents [⟨0,0,1,[]⟩,⟨10,0,1,[]⟩] [⟨0,1,1,[]⟩]) := by
  have sa : SortedBy FlatEvent.time [⟨0,0,1,[]⟩,⟨10,0,1,[]⟩] := by simp [SortedBy]
  have sb : SortedBy FlatEvent.time [⟨0,1,1,[]⟩] := by simp [SortedBy]
  exact ⟨sa,sb,mergeSortedEvents_interleaves sa sb⟩

/-- The loop on a right list that lies strictly before the left one copies it first. -/
theorem mergeLoop_of_lt {a b : List FlatEvent} (before : ∀ x ∈ a, ∀ y ∈ b, y.time < x.time) : mergeLoop a b = b ++ a := by
  induction b with
  | nil => simp [mergeLoop]
  | cons y b ih =>
    match a with
    | [] => simp [mergeLoop]
    | x :: a =>
      have lt := before x (List.mem_cons_self x a) y (List.mem_cons_self y b)
      rw [mergeLoop,List.cons_merge_cons,if_neg (by simpa using lt),← mergeLoop,
        ih fun x' hx y' hy => before x' hx y' (List.mem_cons_of_mem y hy),List.cons_append]

/-- Every path of `merge_sorted_events` returns what the loop returns, unless the
    last event of `b` ties with the first event of `a`. -/
theorem mergeSortedEvents_eq_mergeLoop {a b : List FlatEvent} (sa : SortedBy FlatEvent.time a)
    (sb : SortedBy FlatEvent.time b) (noTie : ∀ x ∈ a.head?, ∀ y ∈ b.getLast?, y.time ≠ x.time) :
    mergeSortedEvents a b = mergeLoop a b := by
  match a, b with
  | [], b => simp [mergeLoop]
  | a, [] => simp [mergeLoop]
  | x :: a, y :: b =>
    simp only [mergeSortedEvents]
    split
    · exact (List.merge_of_le fun u v hu hv => decide_eq_true
        (((sa.le_getLast _ _ hu).trans ‹_›).trans (sb.head_le _ hv))).symm
    · split
      · have lt : ((y :: b).getLast (List.cons_ne_nil _ _)).time < x.time :=
          lt_of_le_of_ne ‹_› (noTie x rfl _ (List.getLast?_eq_getLast _ _))
        exact (mergeLoop_of_lt fun u hu v hv => ((sb.le_getLast _ _ hv).trans_lt lt).trans_le (sa.head_le _ hu)).symm
      · rfl

theorem mergeSortedEvents_eq_mergeLoop_before :
    SortedBy FlatEvent.time [⟨10,0,1,[]⟩] ∧ SortedBy FlatEvent.time [⟨0,1,1,[]⟩,⟨5,1,1,[]⟩] ∧
      (∀ x ∈ ([⟨10,0,1,[]⟩] : List FlatEvent).head?, ∀ y ∈ ([⟨0,1,1,[]⟩,⟨5,1,1,[]⟩] : List FlatEvent).getLast?,
        y.time ≠ x.time) ∧
      mergeSortedEvents [⟨10,0,1,[]⟩] [⟨0,1,1,[]⟩,⟨5,1,1,[]⟩] = mergeLoop [⟨10,0,1,[]⟩] [⟨0,1,1,[]⟩,⟨5,1,1,[]⟩] := by
  have sa : SortedBy FlatEvent.time [⟨10,0,1,[]⟩] := by simp [SortedBy]
  have sb : SortedBy FlatEvent.time [⟨0,1,1,[]⟩,⟨5,1,1,[]⟩] := by simp [SortedBy]
  have noTie : ∀ x ∈ ([⟨10,0,1,[]⟩] : List FlatEvent).head?,
      ∀ y ∈ ([⟨0,1,1,[]⟩,⟨5,1,1,[]⟩] : List FlatEvent).getLast?, y.time ≠ x.time := by simp
  exact ⟨sa,sb,noTie,mergeSortedEvents_eq_mergeLoop sa sb noTie⟩

/-- The second block copy breaks the tie the other way from the loop. -/
theorem mergeSortedEvents_tie :
    SortedBy FlatEvent.time [⟨0,0,1,[]⟩,⟨10,0,1,[]⟩] ∧ SortedBy FlatEvent.time [⟨0,1,1,[]⟩] ∧
      mergeSortedEvents [⟨0,0,1,[]⟩,⟨10,0,1,[]⟩] [⟨0,1,1,[]⟩] = [⟨0,1,1,[]⟩,⟨0,0,1,[]⟩,⟨10,0,1,[]⟩] ∧
      mergeLoop [⟨0,0,1,[]⟩,⟨10,0,1,[]⟩] [⟨0,1,1,[]⟩] = [⟨0,0,1,[]⟩,⟨0,1,1,[]⟩,⟨10,0,1,[]⟩] := by
  refine ⟨by simp [SortedBy],by simp [SortedBy],by decide,?_⟩
  simp [mergeLoop,List.cons_merge_cons]

/-! ### Local events -/

/-- What `compile_node` computes for a tree: its events in its own time. -/
def localEvents : Morphism → List FlatEvent
  | .atomic channelId _ payload => [⟨0,channelId,payload.opcode,payload.data⟩]
  | .sequential lhs rhs =>
    localEvents lhs ++ (localEvents rhs).map fun event => { event with time := event.time + lhs.duration }
  | .parallel lhs rhs => mergeSortedEvents (localEvents lhs) (localEvents rhs)

theorem localEvents_perm (t : Morphism) : (localEvents t).Perm (events t 0) := by
  induction t with
  | atomic => rfl
  | sequential lhs rhs ihl ihr =>
    rw [localEvents,events,← Nat.zero_add lhs.duration,events_shift]
    exact ihl.append (ihr.map _)
  | parallel lhs rhs ihl ihr => exact (mergeSortedEvents_perm _ _).trans (ihl.append ihr)

theorem time_le_of_mem_localEvents {t : Morphism} {e : FlatEvent} (mem : e ∈ localEvents t) : e.time ≤ t.duration := by
  simpa using (time_le_of_mem_events ((localEvents_perm t).subset mem)).2

theorem localEvents_sorted (t : Morphism) : SortedBy FlatEvent.time (localEvents t) := by
  induction t with
  | atomic => simp [localEvents,SortedBy]
  | sequential lhs rhs ihl ihr =>
    refine List.pairwise_append.mpr ⟨ihl,List.pairwise_map.mpr (ihr.imp fun h => Nat.add_le_add_right h _),fun u hu v hv => ?_⟩
    obtain ⟨w,-,rfl⟩ := List.mem_map.mp hv
    exact (time_le_of_mem_localEvents hu).trans (Nat.le_add_left _ _)
  | parallel lhs rhs ihl ihr => exact mergeSortedEvents_sorted ihl ihr

/-- On one channel of a well-formed tree, the local events are the tree's
    operations on that channel in the order of its schedule. -/
theorem filter_localEvents {t : Morphism} (wf : t.WellFormed) (c : Nat) :
    (localEvents t).filter (fun e => e.channelId = c) = ((t.slots 0).filter fun x => x.channelId = c).map event := by
  rw [← filter_events]
  induction t with
  | atomic => rfl
  | sequential lhs rhs ihl ihr =>
    rw [localEvents,events,← Nat.zero_add lhs.duration,events_shift,List.filter_append,List.filter_append,
      List.filter_map,List.filter_map,ihl wf.1]
    exact congrArg _ (congrArg _ (ihr wf.2))
  | parallel lhs rhs ihl ihr =>
    obtain ⟨wl,wr,apart⟩ := wf
    rw [localEvents,events,List.filter_append]
    by_cases inLeft : c ∈ lhs.leafChannels
    · have none := filter_events_of_not_mem (apart c inLeft) 0
      rw [filter_mergeSortedEvents_of_right (by rw [ihr wr,none]),ihl wl,none,List.append_nil]
    · have none := filter_events_of_not_mem inLeft 0
      rw [filter_mergeSortedEvents_of_left (by rw [ihl wl,none]),ihr wr,none,List.nil_append]

/-! ### The flat compiler in local time -/

/-- The sorted events of a parallel tree: the two-pointer merge of its children's,
    the left child's first on ties. -/
theorem sortByKey_events_parallel (t u : Morphism) :
    sortByKey FlatEvent.time (events (.parallel t u) 0) =
      mergeLoop (sortByKey FlatEvent.time (events t 0)) (sortByKey FlatEvent.time (events u 0)) :=
  sortByKey_append _ _ _

/-- The flat compiler is a homomorphism from the composition calls to event lists:
    a serial root compiles to its left child's events followed by its right child's
    shifted by the left child's stored duration, a parallel root to the stable
    two-pointer merge of its children's events, the left child's first on ties. -/
theorem compile_homomorphism {a : ArenaContext} (reach : Reachable a) {x y : Nat} (hx : x < a.len) (hy : y < a.len) :
    ∃ lhs rhs lhsNode, Compiler.compile a x = some lhs ∧ Compiler.compile a y = some rhs ∧ a.get x = some lhsNode ∧
      (∃ b, a.sequential x y = some (a.len,b) ∧
        Compiler.compile b a.len = some (lhs ++ rhs.map fun e => { e with time := e.time + lhsNode.duration })) ∧
      ∀ r b, a.parallel x y = some (.ok r,b) → Compiler.compile b r = some (mergeLoop lhs rhs) := by
  have valid := reachable_valid reach
  obtain ⟨t,tx⟩ := tree_of_lt valid hx
  obtain ⟨u,ty⟩ := tree_of_lt valid hy
  obtain ⟨lhsNode,at_x⟩ := get_of_tree tx
  obtain ⟨b,done,tb,-⟩ := sequential_tree tx ty
  refine ⟨_,_,lhsNode,compile_of_tree reach tx,compile_of_tree reach ty,at_x,⟨b,done,?_⟩,fun r c done' => ?_⟩
  · rw [compile_of_tree (reach.sequential done) tb,sortByKey_events_sequential,(valid.summarizes at_x tx).duration_eq]
  · obtain ⟨rfl,tc,-⟩ := parallel_tree tx ty done'
    rw [compile_of_tree (reach.parallel done') tc,sortByKey_events_parallel]

/-- An operation of duration 0 on channel 0 and one of duration 5 on channel 1. -/
def instantAndWait : ArenaContext := ⟨[.atomic 0 0 ⟨1,[]⟩,.atomic 1 5 ⟨2,[]⟩]⟩

theorem instantAndWait_reachable : Reachable instantAndWait := ⟨[.atomic 0 0 1 [],.atomic 1 5 2 []],by decide⟩

theorem compile_homomorphism_atomics :
    Reachable instantAndWait ∧ 0 < ArenaContext.len instantAndWait ∧
      1 < ArenaContext.len instantAndWait ∧
    ∃ lhs rhs lhsNode, Compiler.compile instantAndWait 0 = some lhs ∧
      Compiler.compile instantAndWait 1 = some rhs ∧
      ArenaContext.get instantAndWait 0 = some lhsNode ∧
      (∃ b, ArenaContext.sequential instantAndWait 0 1 =
          some (ArenaContext.len instantAndWait,b) ∧
        Compiler.compile b (ArenaContext.len instantAndWait) =
          some (lhs ++ rhs.map fun e => { e with time := e.time + lhsNode.duration })) ∧
      ∀ r b, ArenaContext.parallel instantAndWait 0 1 = some (.ok r,b) →
        Compiler.compile b r = some (mergeLoop lhs rhs) :=
  ⟨instantAndWait_reachable,by decide,by decide,compile_homomorphism instantAndWait_reachable (by decide) (by decide)⟩

/-! ### `IncrementalCompiler` -/

/-- `IncrementalCompiler`: the events of compiled nodes in their own time, by
    handle, and the counts of cache hits and misses. -/
structure IncrementalCompiler where
  cache : AList fun _ : Nat => List FlatEvent
  cacheHits : Nat
  cacheMisses : Nat

namespace IncrementalCompiler

def new : IncrementalCompiler := ⟨∅,0,0⟩

/-- `compile_node`, its recursion bounded by `fuel`: a cached node is a hit;
    otherwise a miss, the node's events from its children's, and an insertion
    into the cache. -/
def compileNode (arena : ArenaContext) : Nat → IncrementalCompiler → Nat → Option (List FlatEvent × IncrementalCompiler)
  | fuel, self, nodeId =>
    match self.cache.lookup nodeId, fuel with
    | some cached, _ => some (cached,{ self with cacheHits := self.cacheHits + 1 })
    | none, 0 => none
    | none, fuel + 1 => do
      let self := { self with cacheMisses := self.cacheMisses + 1 }
      let (events,self) ← match ← arena.get nodeId with
        | .atomic channelId _ payload => pure ([⟨0,channelId,payload.opcode,payload.data⟩],self)
        | .sequential lhs rhs _ _ => do
          let (lhsEvents,self) ← compileNode arena fuel self lhs
          let (rhsEvents,self) ← compileNode arena fuel self rhs
          let lhsDuration := (← arena.get lhs).duration
          pure (lhsEvents ++ rhsEvents.map fun event => { event with time := event.time + lhsDuration },self)
        | .parallel lhs rhs _ _ => do
          let (lhsEvents,self) ← compileNode arena fuel self lhs
          let (rhsEvents,self) ← compileNode arena fuel self rhs
          pure (mergeSortedEvents lhsEvents rhsEvents,self)
      pure (events,{ self with cache := self.cache.insert nodeId events })

/-- `compile`: `compile_node` on the root, with fuel for a chain of handles below it. -/
def compile (self : IncrementalCompiler) (arena : ArenaContext) (root : Nat) :
    Option (List FlatEvent × IncrementalCompiler) :=
  compileNode arena arena.len self root

/-- `CacheStats`, without the hit rate: a float, the hits over all lookups. -/
structure CacheStats where
  cachedNodes : Nat
  cacheHits : Nat
  cacheMisses : Nat
deriving DecidableEq, Repr

def stats (self : IncrementalCompiler) : CacheStats := ⟨self.cache.keys.length,self.cacheHits,self.cacheMisses⟩

def clear (_self : IncrementalCompiler) : IncrementalCompiler := new

end IncrementalCompiler

/-! ### The cache invariant -/

open IncrementalCompiler

/-- Every entry of the cache holds the local events of its node's tree in the arena:
    what `compile_node` caches when it compiles that arena. -/
def CacheOk (a : ArenaContext) (self : IncrementalCompiler) : Prop :=
  ∀ n events, self.cache.lookup n = some events → ∃ t, tree a n = some t ∧ events = localEvents t

theorem cacheOk_new (a : ArenaContext) : CacheOk a .new := fun n events cached => by
  simp [IncrementalCompiler.new,AList.lookup_empty] at cached

theorem CacheOk.insert {a : ArenaContext} {self : IncrementalCompiler} (ok : CacheOk a self) {n : Nat} {t : Morphism}
    (unfolded : tree a n = some t) : CacheOk a { self with cache := self.cache.insert n (localEvents t) } := by
  intro m events cached
  by_cases same : m = n
  · subst same
    rw [AList.lookup_insert,Option.some.injEq] at cached
    exact ⟨t,unfolded,cached.symm⟩
  · rw [AList.lookup_insert_ne same] at cached
    exact ok m events cached

theorem CacheOk.push {a : ArenaContext} {self : IncrementalCompiler} (ok : CacheOk a self) (node : MorphismData) :
    CacheOk (a.push node) self := fun n events cached => by
  obtain ⟨t,unfolded,rfl⟩ := ok n events cached
  exact ⟨t,by rw [tree_push a node (lt_of_tree unfolded),unfolded],rfl⟩

/-! ### One call of `compile_node` -/

section Step

variable {a : ArenaContext} {fuel n : Nat} {self self' : IncrementalCompiler} {events : List FlatEvent}

theorem compileNode_hit {cached : List FlatEvent} (hit : self.cache.lookup n = some cached) :
    self.compileNode a fuel n = some (cached,{ self with cacheHits := self.cacheHits + 1 }) :=
  compileNode.eq_1 _ _ _ _ _ hit

theorem compileNode_atomic {channelId duration : Nat} {payload : AtomicPayload} (miss : self.cache.lookup n = none)
    (at_n : a.get n = some (.atomic channelId duration payload)) :
    self.compileNode a (fuel + 1) n =
      some ([⟨0,channelId,payload.opcode,payload.data⟩],
        { self with cacheMisses := self.cacheMisses + 1,
                    cache := self.cache.insert n [⟨0,channelId,payload.opcode,payload.data⟩] }) := by
  simp only [compileNode,miss,at_n,Option.bind_eq_bind,Option.some_bind]
  rfl

/-- A miss on a serial node: both children compiled, the right one's events shifted
    by the left child's stored duration, the result cached. -/
theorem compileNode_sequential {lhs rhs duration : Nat} {channels : List Nat} (miss : self.cache.lookup n = none)
    (at_n : a.get n = some (.sequential lhs rhs duration channels)) :
    self.compileNode a (fuel + 1) n = some (events,self') ↔
      ∃ lhsEvents s1, { self with cacheMisses := self.cacheMisses + 1 }.compileNode a fuel lhs = some (lhsEvents,s1) ∧
        ∃ rhsEvents s2, s1.compileNode a fuel rhs = some (rhsEvents,s2) ∧ ∃ lhsNode, a.get lhs = some lhsNode ∧
          lhsEvents ++ rhsEvents.map (fun event => { event with time := event.time + lhsNode.duration }) = events ∧
          { s2 with cache := s2.cache.insert n (lhsEvents ++
              rhsEvents.map fun event => { event with time := event.time + lhsNode.duration }) } = self' := by
  simp only [compileNode,miss,at_n,Option.bind_eq_bind,Option.some_bind,Option.bind_eq_some,Prod.exists,
    Option.some.injEq,Prod.mk.injEq,Option.pure_def,exists_eq_right_right',exists_and_left,exists_eq_left']

/-- A miss on a parallel node: both children compiled and merged, the result cached. -/
theorem compileNode_parallel {lhs rhs duration : Nat} {channels : List Nat} (miss : self.cache.lookup n = none)
    (at_n : a.get n = some (.parallel lhs rhs duration channels)) :
    self.compileNode a (fuel + 1) n = some (events,self') ↔
      ∃ lhsEvents s1, { self with cacheMisses := self.cacheMisses + 1 }.compileNode a fuel lhs = some (lhsEvents,s1) ∧
        ∃ rhsEvents s2, s1.compileNode a fuel rhs = some (rhsEvents,s2) ∧
          mergeSortedEvents lhsEvents rhsEvents = events ∧
          { s2 with cache := s2.cache.insert n (mergeSortedEvents lhsEvents rhsEvents) } = self' := by
  simp only [compileNode,miss,at_n,Option.bind_eq_bind,Option.some_bind,Option.bind_eq_some,Prod.exists,
    Option.some.injEq,Prod.mk.injEq,Option.pure_def,exists_eq_right_right',exists_and_left,exists_eq_left']

theorem get_of_compileNode (miss : self.cache.lookup n = none) (done : self.compileNode a (fuel + 1) n = some (events,self')) :
    ∃ node, a.get n = some node := by
  cases at_n : a.get n with
  | none => simp only [compileNode,miss,at_n,Option.bind_eq_bind,Option.none_bind,reduceCtorEq] at done
  | some node => exact ⟨node,rfl⟩

theorem CacheOk.hit (ok : CacheOk a self) {cached : List FlatEvent} (hit : self.cache.lookup n = some cached)
    (done : self.compileNode a fuel n = some (events,self')) :
    ∃ t, tree a n = some t ∧ events = localEvents t ∧ CacheOk a self' := by
  rw [compileNode_hit hit,Option.some.injEq,Prod.mk.injEq] at done
  obtain ⟨rfl,rfl⟩ := done
  obtain ⟨t,unfolded,rfl⟩ := ok n cached hit
  exact ⟨t,unfolded,rfl,ok⟩

/-- The contract of `compile_node`: from a right cache, with fuel above the handle,
    it returns the local events of the node's tree and leaves a right cache. -/
theorem compileNode_localEvents (valid : Valid a) {t : Morphism} (unfolded : tree a n = some t) (enough : n < fuel)
    (ok : CacheOk a self) : ∃ self', self.compileNode a fuel n = some (localEvents t,self') ∧ CacheOk a self' := by
  induction fuel generalizing n t self with
  | zero => omega
  | succ fuel ih =>
    cases hit : self.cache.lookup n with
    | some cached =>
      obtain ⟨t',unfolded',rfl⟩ := ok n cached hit
      rw [unfolded] at unfolded'
      cases unfolded'
      exact ⟨{ self with cacheHits := self.cacheHits + 1 },compileNode_hit hit,ok⟩
    | none =>
      have missed : CacheOk a { self with cacheMisses := self.cacheMisses + 1 } := ok
      obtain ⟨node,at_n⟩ := get_of_tree unfolded
      have unfolds := unfolds_of_tree at_n unfolded
      cases node with
      | atomic channelId duration payload =>
        cases unfolds
        exact ⟨_,compileNode_atomic hit at_n,missed.insert unfolded⟩
      | sequential lhs rhs duration channels =>
        obtain ⟨hl,hr,l,r,tl,tr,rfl⟩ := unfolds
        obtain ⟨s1,c1,ok1⟩ := ih tl (by omega) missed
        obtain ⟨s2,c2,ok2⟩ := ih tr (by omega) ok1
        obtain ⟨lnode,at_l⟩ := get_of_tree tl
        have shifted : localEvents (.sequential l r) =
            localEvents l ++ (localEvents r).map fun event => { event with time := event.time + lnode.duration } := by
          rw [(valid.summarizes at_l tl).duration_eq]
          rfl
        refine ⟨_,shifted ▸ (compileNode_sequential hit at_n).mpr ⟨_,_,c1,_,_,c2,_,at_l,rfl,rfl⟩,?_⟩
        exact shifted ▸ ok2.insert unfolded
      | parallel lhs rhs duration channels =>
        obtain ⟨hl,hr,l,r,tl,tr,rfl⟩ := unfolds
        obtain ⟨s1,c1,ok1⟩ := ih tl (by omega) missed
        obtain ⟨s2,c2,ok2⟩ := ih tr (by omega) ok1
        exact ⟨_,(compileNode_parallel hit at_n).mpr ⟨_,_,c1,_,_,c2,rfl,rfl⟩,ok2.insert unfolded⟩

/-- Whatever `compile_node` returns from a right cache on a valid arena, even short
    of fuel, is the local events of the node's tree, and the cache it leaves is right. -/
theorem compileNode_sound (valid : Valid a) (ok : CacheOk a self) (done : self.compileNode a fuel n = some (events,self')) :
    ∃ t, tree a n = some t ∧ events = localEvents t ∧ CacheOk a self' := by
  induction fuel generalizing n self self' events with
  | zero =>
    cases hit : self.cache.lookup n with
    | none => cases (compileNode.eq_2 _ _ _ hit).symm.trans done
    | some cached => exact ok.hit hit done
  | succ fuel ih =>
    cases hit : self.cache.lookup n with
    | some cached => exact ok.hit hit done
    | none =>
      have missed : CacheOk a { self with cacheMisses := self.cacheMisses + 1 } := ok
      obtain ⟨node,at_n⟩ := get_of_compileNode hit done
      obtain ⟨t,unfolded,-⟩ := valid n node at_n
      have unfolds := unfolds_of_tree at_n unfolded
      cases node with
      | atomic channelId duration payload =>
        cases unfolds
        rw [compileNode_atomic hit at_n,Option.some.injEq,Prod.mk.injEq] at done
        obtain ⟨rfl,rfl⟩ := done
        exact ⟨_,unfolded,rfl,missed.insert unfolded⟩
      | sequential lhs rhs duration channels =>
        obtain ⟨-,-,l,r,tl,tr,rfl⟩ := unfolds
        obtain ⟨_,s1,c1,_,s2,c2,lnode,at_l,rfl,rfl⟩ := (compileNode_sequential hit at_n).mp done
        obtain ⟨l',tl',rfl,ok1⟩ := ih missed c1
        obtain ⟨r',tr',rfl,ok2⟩ := ih ok1 c2
        cases tl.symm.trans tl'
        cases tr.symm.trans tr'
        rw [(valid.summarizes at_l tl).duration_eq]
        exact ⟨_,unfolded,rfl,ok2.insert unfolded⟩
      | parallel lhs rhs duration channels =>
        obtain ⟨-,-,l,r,tl,tr,rfl⟩ := unfolds
        obtain ⟨_,s1,c1,_,s2,c2,rfl,rfl⟩ := (compileNode_parallel hit at_n).mp done
        obtain ⟨l',tl',rfl,ok1⟩ := ih missed c1
        obtain ⟨r',tr',rfl,ok2⟩ := ih ok1 c2
        cases tl.symm.trans tl'
        cases tr.symm.trans tr'
        exact ⟨_,unfolded,rfl,ok2.insert unfolded⟩

end Step

/-- `compile` on a valid root of a valid arena, from a right cache, returns the
    root's local events and leaves a right cache. -/
theorem compile_localEvents {a : ArenaContext} (valid : Valid a) {root : Nat} (valid_root : root < a.len)
    {self : IncrementalCompiler} (ok : CacheOk a self) :
    ∃ t, tree a root = some t ∧ ∃ self', self.compile a root = some (localEvents t,self') ∧ CacheOk a self' := by
  obtain ⟨t,unfolded⟩ := tree_of_lt valid valid_root
  exact ⟨t,unfolded,compileNode_localEvents valid unfolded valid_root ok⟩

/-! ### The two compilers -/

/-- From a right cache, the incremental compiler emits the flat compiler's events,
    sorted by time as well, in an order that can differ only among events at the
    same time. -/
theorem compile_perm {a : ArenaContext} (reach : Reachable a) {root : Nat} (valid_root : root < a.len)
    {self : IncrementalCompiler} (ok : CacheOk a self) :
    ∃ flat events self', Compiler.compile a root = some flat ∧ self.compile a root = some (events,self') ∧
      events.Perm flat ∧ SortedBy FlatEvent.time flat ∧ SortedBy FlatEvent.time events ∧ CacheOk a self' := by
  obtain ⟨t,unfolded,self',done,ok'⟩ := compile_localEvents (reachable_valid reach) valid_root ok
  refine ⟨_,_,self',compile_of_tree reach unfolded,done,?_,sortByKey_sorted _ _,localEvents_sorted t,ok'⟩
  exact (localEvents_perm t).trans (sortByKey_perm _ _).symm

/-- `Parallel(Sequential(atomic(0, 10), atomic(0, 5)), atomic(1, 3))`: the right
    child's only event ties with the left child's first. -/
def tieArena : ArenaContext := ⟨[.atomic 0 10 ⟨1,[]⟩,.atomic 0 5 ⟨2,[]⟩,.sequential 0 1 15 [0],.atomic 1 3 ⟨3,[]⟩,.parallel 2 3 15 [0,1]]⟩

theorem tieArena_reachable : Reachable tieArena := by
  have reach : Reachable ⟨[.atomic 0 10 ⟨1,[]⟩,.atomic 0 5 ⟨2,[]⟩,.sequential 0 1 15 [0],.atomic 1 3 ⟨3,[]⟩]⟩ :=
    ⟨[.atomic 0 10 1 [],.atomic 0 5 2 [],.sequential 0 1,.atomic 1 3 3 []],by decide⟩
  have apart : hasIntersection [0] [1] = false := by
    rw [hasIntersection_cons_cons,if_neg (by decide),if_pos (by decide),hasIntersection_nil_left]
  exact reach.parallel (show ArenaContext.parallel _ 2 3 = some (.ok 4,_) from
    @ArenaContext.parallel_eq_ok _ 2 3 (.sequential 0 1 15 [0]) (.atomic 1 3 ⟨3,[]⟩) rfl rfl apart)

/-- A left child whose first event ties with the right child's last one: the
    incremental compiler puts the right child's event first, the flat compiler the
    left child's. -/
theorem compile_tie :
    Reachable tieArena ∧ 4 < ArenaContext.len tieArena ∧
      (IncrementalCompiler.new.compile tieArena 4).map Prod.fst = some [⟨0,1,3,[]⟩,⟨0,0,1,[]⟩,⟨10,0,2,[]⟩] ∧
      Compiler.compile tieArena 4 = some [⟨0,0,1,[]⟩,⟨0,1,3,[]⟩,⟨10,0,2,[]⟩] :=
  ⟨tieArena_reachable,by decide,by decide,by decide⟩

/-- Every event either compiler emits is the event of a leaf occurrence of the
    root's tree, and every leaf occurrence whose event it is ends, its time plus the
    leaf's duration, no later than the root's stored duration; a leaf that takes time
    therefore starts before the root ends, and a zero-duration leaf may sit at the
    root's end. -/
theorem compile_window {a : ArenaContext} (reach : Reachable a) {root : Nat} (valid_root : root < a.len) :
    ∃ node t, a.get root = some node ∧ tree a root = some t ∧
      (∃ out, Compiler.compile a root = some out ∧ ∀ e ∈ out, (∃ x ∈ t.slots 0, event x = e) ∧
        ∀ x ∈ t.slots 0, event x = e → e.time + x.duration ≤ node.duration ∧ (0 < x.duration → e.time < node.duration)) ∧
      ∀ self, CacheOk a self → ∃ out self', self.compile a root = some (out,self') ∧
        ∀ e ∈ out, (∃ x ∈ t.slots 0, event x = e) ∧
          ∀ x ∈ t.slots 0, event x = e → e.time + x.duration ≤ node.duration ∧ (0 < x.duration → e.time < node.duration) := by
  have valid := reachable_valid reach
  obtain ⟨t,unfolded⟩ := tree_of_lt valid valid_root
  obtain ⟨node,at_root⟩ := get_of_tree unfolded
  have same := (valid.summarizes at_root unfolded).duration_eq
  have window : ∀ e ∈ events t 0, (∃ x ∈ t.slots 0, event x = e) ∧
      ∀ x ∈ t.slots 0, event x = e → e.time + x.duration ≤ node.duration ∧ (0 < x.duration → e.time < node.duration) := by
    intro e mem
    rw [events_eq_map] at mem
    obtain ⟨x,occ,rfl⟩ := List.mem_map.mp mem
    refine ⟨⟨x,occ,rfl⟩,fun y occ' sameEvent => ?_⟩
    have ends := Morphism.end_le_of_mem_slots occ'
    rw [← sameEvent]
    exact ⟨by simp only [event]; omega,fun _ => by simp only [event]; omega⟩
  refine ⟨node,t,at_root,unfolded,⟨_,compile_of_tree reach unfolded,fun e mem => window e ((sortByKey_perm _ _).subset mem)⟩,
    fun self ok => ?_⟩
  obtain ⟨self',done,-⟩ := compileNode_localEvents valid unfolded valid_root ok
  exact ⟨_,self',done,fun e mem => window e ((localEvents_perm t).subset mem)⟩

/-- `atomic(0, 10)` followed in series by the zero-duration `atomic(1, 0)`. -/
def serialInstant : ArenaContext := ⟨[.atomic 0 10 ⟨1,[]⟩,.atomic 1 0 ⟨2,[]⟩,.sequential 0 1 10 [0,1]]⟩

theorem serialInstant_reachable : Reachable serialInstant := ⟨[.atomic 0 10 1 [],.atomic 1 0 2 [],.sequential 0 1],by decide⟩

theorem compile_window_zero_duration :
    Reachable serialInstant ∧ 2 < serialInstant.len ∧
    ∃ node t, serialInstant.get 2 = some node ∧ tree serialInstant 2 = some t ∧
      (∃ out, Compiler.compile serialInstant 2 = some out ∧ ∀ e ∈ out, (∃ x ∈ t.slots 0, event x = e) ∧
        ∀ x ∈ t.slots 0, event x = e → e.time + x.duration ≤ node.duration ∧ (0 < x.duration → e.time < node.duration)) ∧
      ∀ self, CacheOk serialInstant self → ∃ out self', self.compile serialInstant 2 = some (out,self') ∧
        ∀ e ∈ out, (∃ x ∈ t.slots 0, event x = e) ∧
          ∀ x ∈ t.slots 0, event x = e → e.time + x.duration ≤ node.duration ∧ (0 < x.duration → e.time < node.duration) :=
  ⟨serialInstant_reachable,by decide,compile_window serialInstant_reachable (by decide)⟩


/-- The events of a schedule span a window `[0, D]` exactly: the first starts at 0 and
    some leaf occurrence ends at `D`. -/
def Spans (t : Morphism) (D : Nat) (out : List FlatEvent) : Prop :=
  out.head?.map FlatEvent.time = some 0 ∧ ∃ x ∈ t.slots 0, event x ∈ out ∧ x.start + x.duration = D

/-- A time-sorted arrangement of the events of a tree spans the tree's duration. -/
theorem spans_of_perm {t : Morphism} {out : List FlatEvent} (sorted : SortedBy FlatEvent.time out)
    (perm : out.Perm (events t 0)) : Spans t t.duration out := by
  have mem : ∀ {x}, x ∈ t.slots 0 → event x ∈ out := fun occ =>
    perm.symm.subset (by rw [events_eq_map]; exact List.mem_map_of_mem _ occ)
  obtain ⟨first,occ,zero⟩ := t.exists_slot_start 0
  obtain ⟨last,occ',ends⟩ := t.exists_slot_end 0
  refine ⟨?_,last,occ',mem occ',by rw [ends,Nat.zero_add]⟩
  match out, mem occ with
  | e :: _, found => exact congrArg some (Nat.le_zero.mp (zero ▸ sorted.head_le _ found))

/-- Both compilers' output spans the root's stored duration exactly: the first event
    is at time 0, and some atomic operation ends at `duration(root)`. With every
    operation inside `[0, duration(root)]` the root's duration is the end of its last
    operation, never more. -/
theorem compile_span {a : ArenaContext} (reach : Reachable a) {root : Nat} (valid_root : root < a.len) :
    ∃ node t, a.get root = some node ∧ tree a root = some t ∧
      (∃ out, Compiler.compile a root = some out ∧ Spans t node.duration out) ∧
      ∀ self, CacheOk a self → ∃ out self', self.compile a root = some (out,self') ∧ Spans t node.duration out := by
  have valid := reachable_valid reach
  obtain ⟨t,unfolded⟩ := tree_of_lt valid valid_root
  obtain ⟨node,at_root⟩ := get_of_tree unfolded
  have same := (valid.summarizes at_root unfolded).duration_eq
  refine ⟨node,t,at_root,unfolded,⟨_,compile_of_tree reach unfolded,
    same ▸ spans_of_perm (sortByKey_sorted _ _) (sortByKey_perm _ _)⟩,fun self ok => ?_⟩
  obtain ⟨self',done,-⟩ := compileNode_localEvents valid unfolded valid_root ok
  exact ⟨_,self',done,same ▸ spans_of_perm (localEvents_sorted t) (localEvents_perm t)⟩

theorem compile_span_sequential :
    Reachable serialPair ∧ 2 < ArenaContext.len serialPair ∧
    ∃ node t, ArenaContext.get serialPair 2 = some node ∧ tree serialPair 2 = some t ∧
      (∃ out, Compiler.compile serialPair 2 = some out ∧ Spans t node.duration out) ∧
      ∀ self, CacheOk serialPair self → ∃ out self', self.compile serialPair 2 = some (out,self') ∧
        Spans t node.duration out :=
  ⟨serialPair_reachable,by decide,compile_span serialPair_reachable (by decide)⟩

/-- Neither compiler ever asks a channel to run two operations at once: on a
    reachable arena the events either one puts on a channel are the root's
    operations on that channel in the order of the schedule, each over before the
    next one starts. -/
theorem compile_channel_schedule {a : ArenaContext} (reach : Reachable a) {root : Nat} (valid_root : root < a.len)
    (c : Nat) :
    ∃ t, tree a root = some t ∧
      ((t.slots 0).filter fun x => x.channelId = c).Chain' Slot.Before ∧
      (Compiler.compile a root).map (List.filter fun e => e.channelId = c) =
        some (((t.slots 0).filter fun x => x.channelId = c).map event) ∧
      ∀ self, CacheOk a self → ∃ events self', self.compile a root = some (events,self') ∧
        events.filter (fun e => e.channelId = c) = ((t.slots 0).filter fun x => x.channelId = c).map event := by
  have valid := reachable_valid reach
  obtain ⟨t,unfolded⟩ := tree_of_lt valid valid_root
  obtain ⟨node,at_root⟩ := get_of_tree unfolded
  have wf := (valid.summarizes at_root unfolded).wellFormed
  refine ⟨t,unfolded,t.slots_channel_chain wf c 0,compile_channel reach unfolded c,fun self ok => ?_⟩
  obtain ⟨self',done,-⟩ := compileNode_localEvents valid unfolded valid_root ok
  exact ⟨_,self',done,filter_localEvents wf c⟩

/-- Two operations on channel 0, composed in series. -/
def serialOneChannel : ArenaContext := ⟨[.atomic 0 10 ⟨1,[]⟩,.atomic 0 5 ⟨2,[]⟩,.sequential 0 1 15 [0]]⟩

theorem serialOneChannel_reachable : Reachable serialOneChannel := ⟨[.atomic 0 10 1 [],.atomic 0 5 2 [],.sequential 0 1],by decide⟩

theorem compile_channel_schedule_sequential :
    Reachable serialOneChannel ∧ 2 < ArenaContext.len serialOneChannel ∧
    ∃ t, tree serialOneChannel 2 = some t ∧
      ((t.slots 0).filter fun x => x.channelId = 0).Chain' Slot.Before ∧
      (Compiler.compile serialOneChannel 2).map (List.filter fun e => e.channelId = 0) =
        some (((t.slots 0).filter fun x => x.channelId = 0).map event) ∧
      ∀ self, CacheOk serialOneChannel self → ∃ events self', self.compile serialOneChannel 2 = some (events,self') ∧
        events.filter (fun e => e.channelId = 0) = ((t.slots 0).filter fun x => x.channelId = 0).map event :=
  ⟨serialOneChannel_reachable,by decide,compile_channel_schedule serialOneChannel_reachable (by decide) 0⟩

end Catseq.Incremental
