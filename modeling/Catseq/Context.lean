import Catseq.Traversal

/-!
The compiler context of `lib.rs`: the arena, and an incremental compiler while
incremental compilation is enabled. Each call from Python, on the context or on
a `Node` handle, is one operation on the context. `compile_graph` answers from
the incremental compiler when there is one, from the flat compiler otherwise.
Every operation but `clear` keeps the arena reachable and the cache right for it
(`ContextOk.apply`), so along a run without `clear` the incremental answers are
the ones of `Catseq.Incremental` (`run_contextOk`): the same events as with
incremental compilation disabled, sorted by time and the same on every channel
(`compileGraph_agrees`). `clear` empties the arena and leaves the cache: a handle
the arena hands out again then finds the cached events of the node it named
before (`clear_keeps_cache`).
-/

namespace Catseq.Context
open Catseq.Arena Catseq.Algebra Catseq.Unfolding Catseq.StableSort Catseq.Compiler Catseq.Incremental Catseq.Traversal

structure CompilerContext where
  arena : ArenaContext
  incremental : Option IncrementalCompiler

namespace CompilerContext

def new : CompilerContext := ⟨.new,none⟩

/-- `enable_incremental`: a fresh incremental compiler, replacing any earlier one. -/
def enableIncremental (self : CompilerContext) : CompilerContext := { self with incremental := some .new }

def disableIncremental (self : CompilerContext) : CompilerContext := { self with incremental := none }

def isIncrementalEnabled (self : CompilerContext) : Bool := self.incremental.isSome

/-- `get_incremental_stats`, without the hit rate. -/
def getIncrementalStats (self : CompilerContext) : Option (Nat × Nat × Nat) :=
  self.incremental.map fun inc => (inc.stats.cachedNodes,inc.stats.cacheHits,inc.stats.cacheMisses)

/-- `clear_incremental_cache`: the cache is emptied, incremental compilation stays enabled. -/
def clearIncrementalCache (self : CompilerContext) : CompilerContext :=
  { self with incremental := self.incremental.map IncrementalCompiler.clear }

def atomic (self : CompilerContext) (channelId duration : Nat) (opcode : UInt16) (data : List UInt8) :
    Nat × CompilerContext :=
  let (id,arena) := self.arena.atomic channelId duration opcode data
  (id,{ self with arena })

def nodeCount (self : CompilerContext) : Nat := self.arena.len

/-- `clear`: the arena's nodes are cleared; the incremental compiler is left as it is. -/
def clear (self : CompilerContext) : CompilerContext := { self with arena := ⟨[]⟩ }

def compose (self : CompilerContext) (a b : Nat) : Option (Nat × CompilerContext) := do
  let (id,arena) ← self.arena.sequential a b
  pure (id,{ self with arena })

/-- `parallel_compose` and `Node |`: an error leaves the arena as it was. -/
def parallelCompose (self : CompilerContext) (a b : Nat) : Option (Except String Nat × CompilerContext) := do
  let (result,arena) ← self.arena.parallel a b
  pure (result,{ self with arena })

/-- `compile_graph` and `Node.compile`: the incremental compiler if enabled, else
    the flat one, each event as a tuple `(time, channel_id, opcode, data)`. -/
def compileGraph (self : CompilerContext) (nodeId : Nat) :
    Option (List (Nat × Nat × UInt16 × List UInt8) × CompilerContext) := do
  let (events,self) ← match self.incremental with
    | some inc => do
      let (events,inc) ← inc.compile self.arena nodeId
      pure (events,{ self with incremental := some inc })
    | none => do
      let events ← Compiler.compile self.arena nodeId
      pure (events,self)
  pure (events.map fun e => (e.time,e.channelId,e.opcode,e.data),self)

def getDuration (self : CompilerContext) (nodeId : Nat) : Option Nat := (self.arena.get nodeId).map MorphismData.duration

def getChannels (self : CompilerContext) (nodeId : Nat) : Option (List Nat) :=
  (self.arena.get nodeId).map MorphismData.channels

end CompilerContext

/-- The calls that change a context. -/
inductive ContextOp where
  /-- `atomic`, `atomic_id` -/
  | atomic (channelId duration : Nat) (opcode : UInt16) (data : List UInt8)
  /-- `compose`, `Node @` -/
  | compose (a b : Nat)
  /-- `parallel_compose`, `Node |` -/
  | parallelCompose (a b : Nat)
  | clear
  | enableIncremental
  | disableIncremental
  | clearIncrementalCache
  /-- `compile_graph`, `Node.compile` -/
  | compileGraph (nodeId : Nat)
deriving DecidableEq, Repr

namespace CompilerContext

/-- One call; `none` where the call panics on a handle outside the arena. -/
def apply (self : CompilerContext) : ContextOp → Option CompilerContext
  | .atomic channelId duration opcode data => some (self.atomic channelId duration opcode data).2
  | .compose a b => (self.compose a b).map Prod.snd
  | .parallelCompose a b => (self.parallelCompose a b).map Prod.snd
  | .clear => some self.clear
  | .enableIncremental => some self.enableIncremental
  | .disableIncremental => some self.disableIncremental
  | .clearIncrementalCache => some self.clearIncrementalCache
  | .compileGraph nodeId => (self.compileGraph nodeId).map Prod.snd

def run (self : CompilerContext) : List ContextOp → Option CompilerContext
  | [] => some self
  | op :: ops => (self.apply op).bind fun next => next.run ops

end CompilerContext

open CompilerContext

/-! ### The context invariant -/

/-- The arena is reachable and the cache, if any, is right for it. -/
structure ContextOk (context : CompilerContext) : Prop where
  reachable : Reachable context.arena
  cacheOk : ∀ inc, context.incremental = some inc → CacheOk context.arena inc

theorem contextOk_new : ContextOk .new :=
  ⟨⟨[],rfl⟩,fun _ none => nomatch none⟩

theorem ContextOk.grow {self : CompilerContext} (ok : ContextOk self) {arena : ArenaContext}
    (reach : Reachable arena) (grown : arena = self.arena ∨ ∃ node, arena = self.arena.push node) :
    ContextOk { self with arena } := by
  refine ⟨reach,fun inc some_inc => ?_⟩
  rcases grown with rfl | ⟨node,rfl⟩
  · exact ok.cacheOk inc some_inc
  · exact (ok.cacheOk inc some_inc).push node

/-- Every call but `clear` keeps the context invariant. -/
theorem ContextOk.apply {self next : CompilerContext} (ok : ContextOk self) {op : ContextOp} (notClear : op ≠ .clear)
    (applied : self.apply op = some next) : ContextOk next := by
  cases op with
  | atomic channelId duration opcode data =>
    cases applied
    exact ok.grow (ok.reachable.apply (show self.arena.apply (.atomic channelId duration opcode data) = some _ from rfl))
      (.inr ⟨_,rfl⟩)
  | compose a b =>
    cases done : self.arena.sequential a b with
    | none => simp [CompilerContext.apply,compose,done] at applied
    | some result =>
      obtain ⟨l,r,-,-,rfl⟩ := ArenaContext.sequential_cases done
      simp only [CompilerContext.apply,compose,done,Option.map_some',Option.some_bind,Option.some.injEq] at applied
      cases applied
      exact ok.grow (ok.reachable.sequential done) (.inr ⟨_,rfl⟩)
  | parallelCompose a b =>
    cases done : self.arena.parallel a b with
    | none => simp [CompilerContext.apply,parallelCompose,done] at applied
    | some result =>
      simp only [CompilerContext.apply,parallelCompose,done,Option.map_some',Option.some_bind,Option.some.injEq] at applied
      cases applied
      obtain ⟨l,r,-,-,⟨-,rfl⟩ | ⟨-,rfl⟩⟩ := ArenaContext.parallel_cases done
      · exact ok.grow (ok.reachable.parallel done) (.inl rfl)
      · exact ok.grow (ok.reachable.parallel done) (.inr ⟨_,rfl⟩)
  | clear => exact absurd rfl notClear
  | enableIncremental =>
    cases applied
    exact ⟨ok.reachable,fun inc some_inc => by cases some_inc; exact cacheOk_new _⟩
  | disableIncremental =>
    cases applied
    exact ⟨ok.reachable,fun _ none => nomatch none⟩
  | clearIncrementalCache =>
    cases applied
    refine ⟨ok.reachable,fun inc some_inc => ?_⟩
    obtain ⟨old,-,rfl⟩ := Option.map_eq_some'.mp some_inc
    exact cacheOk_new _
  | compileGraph nodeId =>
    cases some_inc : self.incremental with
    | none =>
      cases compiled : Compiler.compile self.arena nodeId <;>
        simp [CompilerContext.apply,compileGraph,some_inc,compiled] at applied
      cases applied
      exact ok
    | some inc =>
      cases compiled : inc.compile self.arena nodeId with
      | none => simp [CompilerContext.apply,compileGraph,some_inc,compiled] at applied
      | some result =>
        simp [CompilerContext.apply,compileGraph,some_inc,compiled] at applied
        cases applied
        obtain ⟨-,-,-,ok'⟩ := compileNode_sound (reachable_valid ok.reachable) (ok.cacheOk inc some_inc) compiled
        exact ⟨ok.reachable,fun _ same => by cases same; exact ok'⟩

/-- Along any run of calls without `clear` the context keeps its invariant: the
    cache holds only the local events of the nodes of the current arena. -/
theorem run_contextOk {ops : List ContextOp} (noClear : .clear ∉ ops) {self : CompilerContext}
    (ran : CompilerContext.new.run ops = some self) : ContextOk self := by
  suffices ∀ ops (start : CompilerContext), .clear ∉ ops → ContextOk start → start.run ops = some self → ContextOk self from
    this ops _ noClear contextOk_new ran
  intro ops
  induction ops with
  | nil => intro start _ ok ran; cases ran; exact ok
  | cons op ops ih =>
    intro start noClear ok ran
    simp only [CompilerContext.run,Option.bind_eq_some] at ran
    obtain ⟨next,applied,ran⟩ := ran
    exact ih next (fun mem => noClear (List.mem_cons_of_mem op mem))
      (ok.apply (fun same => noClear (same ▸ List.mem_cons_self op ops)) applied) ran

/-- After `clear` the cache keeps the events of the old node 0, and `compile_graph`
    returns them for the new node 0, which a fresh incremental compiler compiles
    to its own event. -/
theorem clear_keeps_cache :
    ∃ self, CompilerContext.new.run
        [.enableIncremental,.atomic 0 10 1 [],.compileGraph 0,.clear,.atomic 5 20 2 []] = some self ∧
      self.nodeCount = 1 ∧
      self.incremental.bind (fun inc => inc.cache.lookup 0) = some [⟨0,0,1,[]⟩] ∧
      (IncrementalCompiler.new.compile self.arena 0).map Prod.fst = some [⟨0,5,2,[]⟩] ∧
      (self.compileGraph 0).map Prod.fst = some [(0,0,1,[])] :=
  ⟨_,rfl,by decide,by decide,by decide,by decide⟩

/-! ### What `compile_graph` answers -/

section CompileGraph
variable {self : CompilerContext} (nodeId : Nat)

theorem compileGraph_of_none (disabled : self.incremental = none) :
    self.compileGraph nodeId = (Compiler.compile self.arena nodeId).map fun events =>
      (events.map fun e => (e.time,e.channelId,e.opcode,e.data),self) := by
  cases compiled : Compiler.compile self.arena nodeId <;> simp [compileGraph,disabled,compiled]

theorem compileGraph_of_some {inc : IncrementalCompiler} (enabled : self.incremental = some inc) :
    self.compileGraph nodeId = (inc.compile self.arena nodeId).map fun r =>
      (r.1.map fun e => (e.time,e.channelId,e.opcode,e.data),{ self with incremental := some r.2 }) := by
  cases compiled : inc.compile self.arena nodeId <;> simp [compileGraph,enabled,compiled]

theorem filter_tuples (events : List FlatEvent) (c : Nat) :
    (events.map fun e => (e.time,e.channelId,e.opcode,e.data)).filter (fun e => e.2.1 = c) =
      (events.filter fun e => e.channelId = c).map fun e => (e.time,e.channelId,e.opcode,e.data) := by
  rw [List.filter_map]
  rfl

/-- What `compile_graph` returns on a handle of a right context, in either mode: the
    root's events as tuples, a permutation of its denotation sorted by time, with
    the root's operations on each channel in the order of its schedule. -/
theorem compileGraph_events (ok : ContextOk self) (valid_root : nodeId < self.nodeCount) :
    ∃ t, tree self.arena nodeId = some t ∧ ∃ events self', self.compileGraph nodeId =
      some (events.map fun e => (e.time,e.channelId,e.opcode,e.data),self') ∧
      events.Perm (Compiler.events t 0) ∧ SortedBy FlatEvent.time events ∧
      ∀ c, events.filter (fun e => e.channelId = c) = ((t.slots 0).filter fun x => x.channelId = c).map event := by
  obtain ⟨t,unfolded⟩ := tree_of_lt (reachable_valid ok.reachable) valid_root
  refine ⟨t,unfolded,?_⟩
  cases mode : self.incremental with
  | none =>
    have compiled := compile_of_tree ok.reachable unfolded
    refine ⟨_,self,by rw [compileGraph_of_none nodeId mode,compiled]; rfl,sortByKey_perm _ _,sortByKey_sorted _ _,
      fun c => Option.some.inj ?_⟩
    rw [← compile_channel ok.reachable unfolded c,compiled,Option.map_some']
  | some inc =>
    obtain ⟨node,at_root⟩ := get_of_tree unfolded
    have wf := ((reachable_valid ok.reachable).summarizes at_root unfolded).wellFormed
    obtain ⟨t',unfolded',inc',done,-⟩ := compile_localEvents (reachable_valid ok.reachable) valid_root (ok.cacheOk inc mode)
    cases unfolded.symm.trans unfolded'
    exact ⟨_,_,by rw [compileGraph_of_some nodeId mode,done]; rfl,localEvents_perm t,localEvents_sorted t,filter_localEvents wf⟩

theorem compileGraph_of_le (ok : ContextOk self) (le : self.nodeCount ≤ nodeId) : self.compileGraph nodeId = none := by
  cases mode : self.incremental with
  | none => rw [compileGraph_of_none nodeId mode,compile_of_le le,Option.map_none']
  | some inc =>
    rw [compileGraph_of_some nodeId mode,IncrementalCompiler.compile,compileNode_of_le (ok.cacheOk inc mode) le,
      Option.map_none']

/-- Under the context invariant `compile_graph` answers exactly on the handles of the
    arena, and with incremental compilation enabled it answers what the flat compiler
    answers up to the order of events at one time: the same events, sorted by time,
    and the same on every channel. -/
theorem compileGraph_agrees (ok : ContextOk self) :
    ((∃ out self', self.compileGraph nodeId = some (out,self')) ↔ nodeId < self.nodeCount) ∧
    ∀ out self' flat, self.compileGraph nodeId = some (out,self') →
      self.disableIncremental.compileGraph nodeId = some (flat,self.disableIncremental) →
      out.Perm flat ∧ (out.map Prod.fst).Sorted (· ≤ ·) ∧
        ∀ c, out.filter (fun e => e.2.1 = c) = flat.filter (fun e => e.2.1 = c) := by
  by_cases valid_root : nodeId < self.nodeCount
  · obtain ⟨t,unfolded,events,_,graph,perm,sorted,channel⟩ := compileGraph_events nodeId ok valid_root
    obtain ⟨t',unfolded',flat,_,flatGraph,flatPerm,-,flatChannel⟩ :=
      @compileGraph_events self.disableIncremental nodeId ⟨ok.reachable,fun _ none => nomatch none⟩ valid_root
    cases unfolded.symm.trans unfolded'
    refine ⟨iff_of_true ⟨_,_,graph⟩ valid_root,fun out _ flat' done same => ?_⟩
    obtain ⟨rfl,-⟩ := Prod.mk.inj (Option.some.inj (graph.symm.trans done))
    obtain ⟨rfl,-⟩ := Prod.mk.inj (Option.some.inj (flatGraph.symm.trans same))
    refine ⟨(perm.trans flatPerm.symm).map _,?_,fun c => by rw [filter_tuples,filter_tuples,channel,flatChannel]⟩
    rw [List.map_map]
    exact List.pairwise_map.mpr sorted
  · simp [compileGraph_of_le nodeId ok (Nat.le_of_not_lt valid_root),valid_root]

theorem compileGraph_agrees_sequential :
    ∃ self, CompilerContext.new.run [.enableIncremental,.atomic 0 10 1 [],.atomic 1 5 2 [],.compose 0 1] = some self ∧
      ContextOk self ∧ ((∃ out self', self.compileGraph 2 = some (out,self')) ↔ 2 < self.nodeCount) ∧
      ∀ out self' flat, self.compileGraph 2 = some (out,self') →
        self.disableIncremental.compileGraph 2 = some (flat,self.disableIncremental) →
        out.Perm flat ∧ (out.map Prod.fst).Sorted (· ≤ ·) ∧
          ∀ c, out.filter (fun e => e.2.1 = c) = flat.filter (fun e => e.2.1 = c) := by
  have ok := run_contextOk (by simp)
    (show CompilerContext.new.run [.enableIncremental,.atomic 0 10 1 [],.atomic 1 5 2 [],.compose 0 1] = some _ from rfl)
  exact ⟨_,rfl,ok,compileGraph_agrees 2 ok⟩

end CompileGraph

end Catseq.Context
