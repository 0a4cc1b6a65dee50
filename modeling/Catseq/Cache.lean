import Catseq.Traversal

/-!
The key set of the incremental compiler's cache. `compile_node` inserts a node only
on a miss, after compiling its children, and on a reachable arena a node never lies
below its own children; so the node is still missing when it is inserted, every
miss adds one key, and the keys stay closed under children (`compileNode_keys`). One
compiler used on one arena that grows between its calls (`Use`) therefore caches
exactly the nodes reachable from the roots compiled since it was last cleared, and
has missed once per cached node (`use_cacheKeys`). As a memo table the cache is
invisible (`compile_eq_fresh`), and a call misses once per node it adds and costs
at most three lookups per node it adds, plus one (`compile_lookups`).
-/

namespace Catseq.Cache
open Catseq.Arena Catseq.Algebra Catseq.Unfolding Catseq.Compiler Catseq.Incremental Catseq.Traversal IncrementalCompiler

/-! ### The keys one call adds -/

/-- Every node a key reaches is a key. -/
def KeysClosed (a : ArenaContext) (self : IncrementalCompiler) : Prop :=
  ∀ n ∈ self.cache.keys, ∀ m, Reaches a n m → m ∈ self.cache.keys

section Step

variable {a : ArenaContext} {fuel n : Nat} {self self' : IncrementalCompiler} {events : List FlatEvent}

/-- A miss on a composite node compiles its two children in turn and caches the result. -/
theorem compileNode_composite (miss : self.cache.lookup n = none) {node : MorphismData} {lhs rhs : Nat}
    (at_n : a.get n = some node) (children : node.children = [lhs,rhs])
    (done : self.compileNode a (fuel + 1) n = some (events,self')) :
    ∃ e1 s1 e2 s2, { self with cacheMisses := self.cacheMisses + 1 }.compileNode a fuel lhs = some (e1,s1) ∧
      s1.compileNode a fuel rhs = some (e2,s2) ∧ self' = { s2 with cache := s2.cache.insert n events } := by
  cases node with
  | atomic => cases children
  | sequential =>
    obtain ⟨rfl,rfl⟩ := List.cons.inj children |>.imp_right (List.cons.inj · |>.1)
    obtain ⟨_,s1,c1,_,s2,c2,_,_,rfl,rfl⟩ := (compileNode_sequential miss at_n).mp done
    exact ⟨_,s1,_,s2,c1,c2,rfl⟩
  | parallel =>
    obtain ⟨rfl,rfl⟩ := List.cons.inj children |>.imp_right (List.cons.inj · |>.1)
    obtain ⟨_,s1,c1,_,s2,c2,rfl,rfl⟩ := (compileNode_parallel miss at_n).mp done
    exact ⟨_,s1,_,s2,c1,c2,rfl⟩

/-- A hit adds no key and no miss. -/
theorem compileNode_keys_hit (closed : KeysClosed a self) {cached : List FlatEvent}
    (hit : self.cache.lookup n = some cached) (done : self.compileNode a fuel n = some (events,self')) :
    (∀ m, m ∈ self'.cache.keys ↔ m ∈ self.cache.keys ∨ Reaches a n m) ∧
      self'.cacheMisses + self.cache.keys.length = self.cacheMisses + self'.cache.keys.length ∧ KeysClosed a self' := by
  rw [compileNode_hit hit,Option.some.injEq,Prod.mk.injEq] at done
  obtain ⟨-,rfl⟩ := done
  have key : n ∈ self.cache.keys := AList.mem_keys.mp (AList.lookup_isSome.mp (by rw [hit]; rfl))
  exact ⟨fun m => ⟨.inl,fun | .inl k => k | .inr path => closed n key m path⟩,rfl,closed⟩

/-- A miss inserts the node after its children's calls have added what they reach:
    the node is still missing then, so it adds one key, for the one miss. -/
theorem keys_insert_of_miss (valid : Valid a) {node : MorphismData} (at_n : a.get n = some node)
    (fresh : n ∉ self.cache.keys) (s : IncrementalCompiler)
    (keys : ∀ m, m ∈ s.cache.keys ↔ m ∈ self.cache.keys ∨ ∃ c ∈ node.children, Reaches a c m)
    (misses : s.cacheMisses + self.cache.keys.length = self.cacheMisses + 1 + s.cache.keys.length)
    (closed : KeysClosed a s) :
    (∀ m, m ∈ (s.cache.insert n events).keys ↔ m ∈ self.cache.keys ∨ Reaches a n m) ∧
      s.cacheMisses + self.cache.keys.length = self.cacheMisses + (s.cache.insert n events).keys.length ∧
      KeysClosed a { s with cache := s.cache.insert n events } := by
  have stillFresh : n ∉ s.cache.keys := fun key => by
    rcases (keys n).mp key with old | ⟨c,child,path⟩
    · exact fresh old
    · exact absurd ((valid.le_of_reaches path).trans_lt (valid.child_lt at_n child)) (lt_irrefl n)
  have inserted : (s.cache.insert n events).keys = n :: s.cache.keys := by
    rw [AList.keys_insert,List.erase_of_not_mem stillFresh]
  refine ⟨fun m => ?_,by rw [inserted,List.length_cons]; omega,fun k key m path => ?_⟩
  · rw [inserted,List.mem_cons,keys m,reaches_iff at_n]
    exact or_left_comm
  · show m ∈ (s.cache.insert n events).keys
    rw [inserted] at key ⊢
    rcases List.mem_cons.mp key with rfl | key
    · rcases (reaches_iff at_n).mp path with rfl | ⟨c,child,path⟩
      · exact List.mem_cons_self _ _
      · exact List.mem_cons_of_mem _ (closed c ((keys c).mpr (.inr ⟨c,child,.refl⟩)) m path)
    · exact List.mem_cons_of_mem _ (closed k key m path)

/-- What one call of `compile_node` does to the keys: it adds exactly the nodes the
    handle reaches, one miss for each new key, and keeps the keys closed. -/
theorem compileNode_keys (valid : Valid a) (closed : KeysClosed a self)
    (done : self.compileNode a fuel n = some (events,self')) :
    (∀ m, m ∈ self'.cache.keys ↔ m ∈ self.cache.keys ∨ Reaches a n m) ∧
      self'.cacheMisses + self.cache.keys.length = self.cacheMisses + self'.cache.keys.length ∧ KeysClosed a self' := by
  induction fuel generalizing n self self' events with
  | zero =>
    cases hit : self.cache.lookup n with
    | none => cases (compileNode.eq_2 _ _ _ hit).symm.trans done
    | some cached => exact compileNode_keys_hit closed hit done
  | succ fuel ih =>
    cases hit : self.cache.lookup n with
    | some cached => exact compileNode_keys_hit closed hit done
    | none =>
      have fresh : n ∉ self.cache.keys := fun key => AList.lookup_eq_none.mp hit (AList.mem_keys.mpr key)
      obtain ⟨node,at_n⟩ := get_of_compileNode hit done
      cases node with
      | atomic channelId duration payload =>
        rw [compileNode_atomic hit at_n,Option.some.injEq,Prod.mk.injEq] at done
        obtain ⟨rfl,rfl⟩ := done
        exact keys_insert_of_miss valid at_n fresh { self with cacheMisses := self.cacheMisses + 1 }
          (fun m => by simp) rfl closed
      | sequential lhs rhs | parallel lhs rhs =>
        obtain ⟨e1,s1,e2,s2,c1,c2,rfl⟩ := compileNode_composite hit at_n rfl done
        obtain ⟨keys1,misses1,closed1⟩ := ih (show KeysClosed a { self with cacheMisses := self.cacheMisses + 1 } from closed) c1
        obtain ⟨keys2,misses2,closed2⟩ := ih closed1 c2
        refine keys_insert_of_miss valid at_n fresh s2 (fun m => ?_) (by dsimp only at misses1; omega) closed2
        rw [keys2,keys1]
        simp only [MorphismData.children_sequential,MorphismData.children_parallel,List.mem_cons,List.mem_singleton,
          List.not_mem_nil,or_false,exists_eq_or_imp,exists_eq_left]
        exact or_assoc

/-- The lookups of one call of `compile_node`: each miss on a composite node makes
    two further calls, so the hits it causes are at most twice its misses plus one. -/
theorem compileNode_hits_le (done : self.compileNode a fuel n = some (events,self')) :
    self.cacheMisses ≤ self'.cacheMisses ∧
      self'.cacheHits + 2 * self.cacheMisses ≤ self.cacheHits + 2 * self'.cacheMisses + 1 := by
  induction fuel generalizing n self self' events with
  | zero =>
    cases hit : self.cache.lookup n with
    | none => cases (compileNode.eq_2 _ _ _ hit).symm.trans done
    | some cached =>
      obtain ⟨-,rfl⟩ := Prod.mk.inj (Option.some.inj ((compileNode_hit hit).symm.trans done))
      dsimp only
      omega
  | succ fuel ih =>
    cases hit : self.cache.lookup n with
    | some cached =>
      obtain ⟨-,rfl⟩ := Prod.mk.inj (Option.some.inj ((compileNode_hit hit).symm.trans done))
      dsimp only
      omega
    | none =>
      obtain ⟨node,at_n⟩ := get_of_compileNode hit done
      cases node with
      | atomic channelId duration payload =>
        obtain ⟨-,rfl⟩ := Prod.mk.inj (Option.some.inj ((compileNode_atomic hit at_n).symm.trans done))
        dsimp only
        omega
      | sequential lhs rhs | parallel lhs rhs =>
        obtain ⟨e1,s1,e2,s2,c1,c2,rfl⟩ := compileNode_composite hit at_n rfl done
        have first := ih c1
        have second := ih c2
        dsimp only at first ⊢
        omega

end Step

/-! ### One compiler on a growing arena -/

/-- One incremental compiler used on one arena that grows between its calls, with
    the roots compiled since the compiler was last cleared. -/
inductive Use : ArenaContext → IncrementalCompiler → List Nat → Prop
  | start {a : ArenaContext} : Reachable a → Use a .new []
  | grow {a b : ArenaContext} {inc : IncrementalCompiler} {roots : List Nat} {op : ArenaOp} :
      Use a inc roots → op ≠ .clear → a.apply op = some b → Use b inc roots
  | compile {a : ArenaContext} {inc inc' : IncrementalCompiler} {roots : List Nat} {root : Nat}
      {events : List FlatEvent} : Use a inc roots → inc.compile a root = some (events,inc') → Use a inc' (root :: roots)
  | clear {a : ArenaContext} {inc : IncrementalCompiler} {roots : List Nat} : Use a inc roots → Use a inc.clear []

/-- The invariant of a use: the arena is reachable, the compiled roots lie in it, the
    keys are what they reach, and each key cost one miss. -/
structure UseOk (a : ArenaContext) (inc : IncrementalCompiler) (roots : List Nat) : Prop where
  reach : Reachable a
  roots_lt : ∀ r ∈ roots, r < a.len
  keys : ∀ m, m ∈ inc.cache.keys ↔ ∃ r ∈ roots, Reaches a r m
  misses : inc.cacheMisses = inc.cache.keys.length

theorem UseOk.closed {a : ArenaContext} {inc : IncrementalCompiler} {roots : List Nat} (ok : UseOk a inc roots) :
    KeysClosed a inc := fun n key m path =>
  let ⟨r,root,reaches⟩ := (ok.keys n).mp key
  (ok.keys m).mpr ⟨r,root,reaches.trans path⟩

theorem useOk_new {a : ArenaContext} (reach : Reachable a) : UseOk a .new [] :=
  ⟨reach,(fun _ none => nomatch none),fun m => by simp [IncrementalCompiler.new,AList.keys_empty],rfl⟩

/-- Growing the arena keeps the invariant: the old roots reach what they reached. -/
theorem UseOk.grow {a b : ArenaContext} {inc : IncrementalCompiler} {roots : List Nat} {op : ArenaOp}
    (ok : UseOk a inc roots) (notClear : op ≠ .clear) (applied : a.apply op = some b) : UseOk b inc roots := by
  rcases ArenaContext.apply_grows notClear applied with rfl | ⟨node,rfl⟩
  · exact ok
  · have valid := reachable_valid ok.reach
    refine ⟨ok.reach.apply applied,fun r root => (ok.roots_lt r root).trans (by simp),fun m => ?_,ok.misses⟩
    rw [ok.keys m]
    exact exists_congr fun r => and_congr_right fun root => (reaches_push valid node (ok.roots_lt r root)).symm

/-- A compiled root lies in the arena: a hit is a key, which a root reaches, and a
    miss reads the node. -/
theorem UseOk.root_lt {a : ArenaContext} {inc inc' : IncrementalCompiler} {roots : List Nat} {root : Nat}
    {events : List FlatEvent} (ok : UseOk a inc roots) (done : inc.compile a root = some (events,inc')) : root < a.len := by
  cases hit : inc.cache.lookup root with
  | some cached =>
    obtain ⟨r,inRoots,path⟩ := (ok.keys root).mp (AList.mem_keys.mp (AList.lookup_isSome.mp (by rw [hit]; rfl)))
    exact ((reachable_valid ok.reach).le_of_reaches path).trans_lt (ok.roots_lt r inRoots)
  | none =>
    unfold IncrementalCompiler.compile at done
    cases fuel : a.len with
    | zero => rw [fuel] at done; cases (compileNode.eq_2 _ _ _ hit).symm.trans done
    | succ len =>
      rw [fuel] at done
      obtain ⟨node,at_root⟩ := get_of_compileNode hit done
      exact fuel ▸ a.get_lt at_root

theorem UseOk.compile {a : ArenaContext} {inc inc' : IncrementalCompiler} {roots : List Nat} {root : Nat}
    {events : List FlatEvent} (ok : UseOk a inc roots) (done : inc.compile a root = some (events,inc')) :
    UseOk a inc' (root :: roots) := by
  obtain ⟨keys,misses,-⟩ := compileNode_keys (reachable_valid ok.reach) ok.closed done
  refine ⟨ok.reach,fun r inRoots => ?_,fun m => ?_,by have := ok.misses; omega⟩
  · rcases List.mem_cons.mp inRoots with rfl | inRoots
    exacts [ok.root_lt done,ok.roots_lt r inRoots]
  · rw [keys m,ok.keys m,List.exists_mem_cons_iff]
    exact or_comm

theorem use_ok {a : ArenaContext} {inc : IncrementalCompiler} {roots : List Nat} (use : Use a inc roots) :
    UseOk a inc roots := by
  induction use with
  | start reach => exact useOk_new reach
  | grow _ notClear applied ih => exact ih.grow notClear applied
  | compile _ done ih => exact ih.compile done
  | clear _ ih => exact useOk_new ih.reach

/-- One incremental compiler used on one reachable arena that grows between its
    calls caches, after any sequence of `compile` and `clear` calls, exactly the
    nodes reachable from the roots compiled since the last `clear`, and its miss
    count is the number of cached nodes: no node is compiled twice in one cache
    lifetime, however many roots share it. -/
theorem use_cacheKeys {a : ArenaContext} {inc : IncrementalCompiler} {roots : List Nat} (use : Use a inc roots) :
    (∀ m, m ∈ inc.cache.keys ↔ ∃ r ∈ roots, Reaches a r m) ∧ inc.stats.cacheMisses = inc.stats.cachedNodes :=
  ⟨(use_ok use).keys,(use_ok use).misses⟩

theorem use_cacheKeys_shared :
    ∃ inc, Use serialPair inc [0,2] ∧
      (∀ m, m ∈ inc.cache.keys ↔ ∃ r ∈ [0,2], Reaches serialPair r m) ∧
      inc.stats.cacheMisses = inc.stats.cachedNodes :=
  have use : Use serialPair _ [0,2] :=
    .compile (.compile (.start serialPair_reachable) rfl) rfl
  ⟨_,use,use_cacheKeys use⟩

/-! ### The cache as a memo table -/

theorem use_cacheOk {a : ArenaContext} {inc : IncrementalCompiler} {roots : List Nat} (use : Use a inc roots) :
    CacheOk a inc := by
  induction use with
  | start => exact cacheOk_new _
  | grow _ notClear applied ih =>
    rcases ArenaContext.apply_grows notClear applied with rfl | ⟨node,rfl⟩
    exacts [ih,ih.push node]
  | compile use done ih =>
    obtain ⟨-,-,-,ok⟩ := compileNode_sound (reachable_valid (use_ok use).reach) ih done
    exact ok
  | clear => exact cacheOk_new _

theorem UseOk.keys_length_le {a : ArenaContext} {inc : IncrementalCompiler} {roots : List Nat}
    (ok : UseOk a inc roots) : inc.cache.keys.length ≤ a.len := by
  have inside : inc.cache.keys ⊆ List.range a.len := fun m key => by
    obtain ⟨r,root,path⟩ := (ok.keys m).mp key
    exact List.mem_range.mpr (((reachable_valid ok.reach).le_of_reaches path).trans_lt (ok.roots_lt r root))
  simpa using (inc.cache.keys_nodup.subperm inside).length_le

/-- The cache is invisible: whatever a compiler has compiled before, on the arena as it
    grew, `compile` returns on every handle what a fresh compiler returns. -/
theorem compile_eq_fresh {a : ArenaContext} {inc : IncrementalCompiler} {roots : List Nat} (use : Use a inc roots)
    (root : Nat) : (inc.compile a root).map Prod.fst = (IncrementalCompiler.new.compile a root).map Prod.fst := by
  have valid := reachable_valid (use_ok use).reach
  by_cases valid_root : root < a.len
  · obtain ⟨t,unfolded,_,done,-⟩ := compile_localEvents valid valid_root (use_cacheOk use)
    obtain ⟨t',unfolded',_,fresh,-⟩ := compile_localEvents valid valid_root (cacheOk_new a)
    cases unfolded.symm.trans unfolded'
    rw [done,fresh]
    rfl
  · have le := Nat.not_lt.mp valid_root
    rw [IncrementalCompiler.compile,IncrementalCompiler.compile,compileNode_of_le (use_cacheOk use) le,
      compileNode_of_le (cacheOk_new a) le]

theorem compile_eq_fresh_shared :
    ∃ inc, Use serialPair inc [0] ∧
      (inc.compile serialPair 2).map Prod.fst = (IncrementalCompiler.new.compile serialPair 2).map Prod.fst :=
  have use : Use serialPair _ [0] := .compile (.start serialPair_reachable) rfl
  ⟨_,use,compile_eq_fresh use 2⟩

/-- The lookups of one `compile` call: it keeps every cached node, misses exactly
    once per node it adds to the cache, and does at most three lookups per node it
    adds, plus one. With at most `len` nodes cached, however large the root's tree
    unfolding, a call costs at most `3 * (len - cached) + 1` lookups, counted by
    the compiler's own hit and miss counters. -/
theorem compile_lookups {a : ArenaContext} {inc inc' : IncrementalCompiler} {roots : List Nat} {root : Nat}
    {events : List FlatEvent} (use : Use a inc roots) (done : inc.compile a root = some (events,inc')) :
    (∀ m ∈ inc.cache.keys, m ∈ inc'.cache.keys) ∧
      inc'.cacheMisses + inc.cache.keys.length = inc.cacheMisses + inc'.cache.keys.length ∧
      inc'.cacheHits + inc'.cacheMisses + 3 * inc.cache.keys.length ≤
        inc.cacheHits + inc.cacheMisses + 3 * inc'.cache.keys.length + 1 ∧
      inc'.cache.keys.length ≤ a.len := by
  have ok := use_ok use
  obtain ⟨keys,misses,-⟩ := compileNode_keys (reachable_valid ok.reach) ok.closed done
  have hits := (compileNode_hits_le done).2
  exact ⟨fun m key => (keys m).mpr (.inl key),misses,by omega,(use_ok (use.compile done)).keys_length_le⟩

theorem compile_lookups_shared :
    ∃ inc events inc', Use serialPair inc [0] ∧ inc.compile serialPair 2 = some (events,inc') ∧
      (∀ m ∈ inc.cache.keys, m ∈ inc'.cache.keys) ∧
      inc'.cacheMisses + inc.cache.keys.length = inc.cacheMisses + inc'.cache.keys.length ∧
      inc'.cacheHits + inc'.cacheMisses + 3 * inc.cache.keys.length ≤
        inc.cacheHits + inc.cacheMisses + 3 * inc'.cache.keys.length + 1 ∧
      inc'.cache.keys.length ≤ serialPair.len :=
  have use : Use serialPair _ [0] := .compile (.start serialPair_reachable) rfl
  ⟨_,_,_,use,rfl,@compile_lookups _ _ _ _ 2 _ use rfl⟩

end Catseq.Cache
