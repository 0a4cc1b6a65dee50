import Mathlib.Data.List.AList
import Catseq.Unfolding
import Catseq.StableSort

/-!
The flat compiler of `compiler.rs`. `compile` walks the DAG below a root with an
explicit stack of `(handle, start time)` pairs, emits one event per atomic leaf
occurrence, and sorts the events stably by time. Its loop keeps one invariant:
the events emitted so far followed by the events owed by the stacked entries are
the events of the root (`compileLoop_owed`); with the fuel bound on the number of
pops this gives the compiler's contract (`compile_eq_sortByKey_events`): the
output is the stable sort of the denotation `events` of the root's tree. The
algebraic laws of the compiler (reassociation, commutation per channel) and the
schedule of each channel follow from the laws of the trees.
-/

namespace Catseq.Compiler
open Catseq.Arena Catseq.Algebra Catseq.Unfolding Catseq.StableSort

structure FlatEvent where
  time : Nat
  channelId : Nat
  opcode : UInt16
  data : List UInt8
deriving DecidableEq, Repr

/-- The event of an occurrence of an atomic operation. -/
def event (x : Slot) : FlatEvent := ⟨x.start,x.channelId,x.payload.opcode,x.payload.data⟩

/-- The denotation `D(t, start)`: one event per leaf occurrence, left to right, at
    the sum of the durations of its left siblings under serial composition. -/
def events : Morphism → Nat → List FlatEvent
  | .atomic channelId _ payload, start => [⟨start,channelId,payload.opcode,payload.data⟩]
  | .sequential lhs rhs, start => events lhs start ++ events rhs (start + lhs.duration)
  | .parallel lhs rhs, start => events lhs start ++ events rhs start

/-- The loop of `compile`, for at most `fuel` pops: an atomic emits its event, a
    composite pushes its right child, then its left one, the right one shifted by
    the left one's stored duration when they are in series. -/
def compileLoop (arena : ArenaContext) : Nat → List (Nat × Nat) → List FlatEvent → Option (List FlatEvent)
  | _, [], emitted => some emitted
  | 0, _ :: _, _ => none
  | fuel + 1, (nodeId,startTime) :: stack, emitted =>
    match arena.get nodeId with
    | none => none
    | some (.atomic channelId _ payload) =>
      compileLoop arena fuel stack (emitted ++ [⟨startTime,channelId,payload.opcode,payload.data⟩])
    | some (.sequential lhs rhs _ _) =>
      match arena.get lhs with
      | none => none
      | some lhsData =>
        compileLoop arena fuel ((lhs,startTime) :: (rhs,startTime + lhsData.duration) :: stack) emitted
    | some (.parallel lhs rhs _ _) =>
      compileLoop arena fuel ((lhs,startTime) :: (rhs,startTime) :: stack) emitted

/-- `compile`: the loop from `(root, 0)`, then `sort_by_key` on the time. -/
def compile (arena : ArenaContext) (root : Nat) : Option (List FlatEvent) :=
  (compileLoop arena arena.fuel [(root,0)] []).map (sortByKey FlatEvent.time)

/-- One pop of the loop of `compile`: the entries it pushes, the new top first, and
    the events it emits; `none` where the loop panics. -/
def loopStep (arena : ArenaContext) : Nat × Nat → Option (List (Nat × Nat) × List FlatEvent)
  | (nodeId,startTime) =>
    match arena.get nodeId with
    | none => none
    | some (.atomic channelId _ payload) => some ([],[⟨startTime,channelId,payload.opcode,payload.data⟩])
    | some (.sequential lhs rhs _ _) =>
      (arena.get lhs).map fun lhsData => ([(lhs,startTime),(rhs,startTime + lhsData.duration)],[])
    | some (.parallel lhs rhs _ _) => some ([(lhs,startTime),(rhs,startTime)],[])

theorem compileLoop_succ (arena : ArenaContext) (fuel : Nat) (entry : Nat × Nat) (stack : List (Nat × Nat))
    (emitted : List FlatEvent) :
    compileLoop arena (fuel + 1) (entry :: stack) emitted =
      (loopStep arena entry).bind fun (pushed,out) => compileLoop arena fuel (pushed ++ stack) (emitted ++ out) := by
  obtain ⟨n,start⟩ := entry
  cases at_n : arena.get n with
  | none => simp [compileLoop,loopStep,at_n]
  | some node =>
    cases node with
    | atomic => simp [compileLoop,loopStep,at_n]
    | sequential lhs => cases at_lhs : arena.get lhs <;> simp [compileLoop,loopStep,at_n,at_lhs]
    | parallel => simp [compileLoop,loopStep,at_n]

/-- The stacks the loop of `compile` holds, from the root, one pop after another. -/
inductive LoopReaches (a : ArenaContext) (root : Nat) : List (Nat × Nat) → Prop
  | start : LoopReaches a root [(root,0)]
  | step {entry : Nat × Nat} {stack pushed : List (Nat × Nat)} {out : List FlatEvent} :
      LoopReaches a root (entry :: stack) → loopStep a entry = some (pushed,out) → LoopReaches a root (pushed ++ stack)

/-- `compile_by_board`: the compiled events grouped by board, the high 16 bits of
    the 32-bit channel, each group in output order. -/
def compileByBoard (arena : ArenaContext) (root : Nat) : Option (AList fun _ : Nat => List FlatEvent) :=
  (compile arena root).map fun events =>
    events.foldl (fun grouped event =>
      let boardId := (event.channelId >>> 16) % 2 ^ 16
      grouped.insert boardId ((grouped.lookup boardId).getD [] ++ [event])) ∅

/-- The board of an event, `(event.channel_id >> 16) as u16`. -/
def boardOf (event : FlatEvent) : Nat := (event.channelId >>> 16) % 2 ^ 16

/-- One pass of the loop of `compile_by_board`: the event pushed onto its board's list. -/
def groupEvent (grouped : AList fun _ : Nat => List FlatEvent) (event : FlatEvent) :
    AList fun _ : Nat => List FlatEvent :=
  grouped.insert (boardOf event) ((grouped.lookup (boardOf event)).getD [] ++ [event])

theorem compileByBoard_eq (arena : ArenaContext) (root : Nat) :
    compileByBoard arena root = (compile arena root).map fun events => events.foldl groupEvent ∅ := rfl

/-! ### The denotation -/

theorem events_eq_map (t : Morphism) (start : Nat) : events t start = (t.slots start).map event := by
  induction t generalizing start with
  | atomic => rfl
  | sequential lhs rhs ihl ihr | parallel lhs rhs ihl ihr => simp [events,Morphism.slots,ihl,ihr]

theorem events_shift (t : Morphism) (start d : Nat) :
    events t (start + d) = (events t start).map fun e => { e with time := e.time + d } := by
  rw [events_eq_map,events_eq_map,Morphism.slots_shift,List.map_map,List.map_map]
  rfl

theorem time_le_of_mem_events {t : Morphism} {start : Nat} {e : FlatEvent} (mem : e ∈ events t start) :
    start ≤ e.time ∧ e.time ≤ start + t.duration := by
  rw [events_eq_map] at mem
  obtain ⟨x,occ,rfl⟩ := List.mem_map.mp mem
  have := Morphism.end_le_of_mem_slots occ
  exact ⟨Morphism.start_le_of_mem_slots occ,by simp only [event]; omega⟩

theorem filter_events (t : Morphism) (start c : Nat) :
    (events t start).filter (fun e => e.channelId = c) =
      ((t.slots start).filter fun x => x.channelId = c).map event := by
  rw [events_eq_map,List.filter_map]
  rfl

theorem filter_events_of_not_mem {t : Morphism} {c : Nat} (outside : c ∉ t.leafChannels) (start : Nat) :
    (events t start).filter (fun e => e.channelId = c) = [] := by
  rw [filter_events,Morphism.filter_slots_of_not_mem outside,List.map_nil]

/-- Sorting events by time is sorting the occurrences by start. -/
theorem sortByKey_events (l : List Slot) :
    sortByKey FlatEvent.time (l.map event) = (sortByKey Slot.start l).map event :=
  sortByKey_map _ _ _ _ fun _ _ => Iff.rfl

/-- The sorted events of a serial tree: the left child's, then the right child's
    shifted by the left child's duration, every left event being over by then. -/
theorem sortByKey_events_sequential (t u : Morphism) :
    sortByKey FlatEvent.time (events (.sequential t u) 0) =
      sortByKey FlatEvent.time (events t 0) ++
        (sortByKey FlatEvent.time (events u 0)).map fun e => { e with time := e.time + t.duration } := by
  rw [events,sortByKey_append,List.merge_of_le]
  · rw [events_shift u 0 t.duration]
    exact congrArg _ (sortByKey_map _ _ _ _ fun _ _ => Nat.add_le_add_iff_right)
  · intro x y mx my
    have before := (time_le_of_mem_events ((sortByKey_perm _ _).subset mx)).2
    have after := (time_le_of_mem_events ((sortByKey_perm _ _).subset my)).1
    exact decide_eq_true (by omega)

/-! ### The loop -/

/-- The events owed by the entries of a work stack, and how many pops they take. -/
def owed (a : ArenaContext) : List (Nat × Nat) → Option (List FlatEvent × Nat)
  | [] => some ([],0)
  | (n,start) :: stack => do
    let t ← tree a n
    let (rest,pops) ← owed a stack
    pure (events t start ++ rest,t.size + pops)

theorem owed_cons {a : ArenaContext} {n start : Nat} {stack : List (Nat × Nat)} {t : Morphism}
    (unfolded : tree a n = some t) :
    owed a ((n,start) :: stack) = (owed a stack).map fun (rest,pops) => (events t start ++ rest,t.size + pops) := by
  simp only [owed,unfolded,Option.some_bind]
  cases owed a stack <;> rfl

/-- The loop invariant: from any stack whose entries unfold, with enough fuel, the
    loop appends exactly the events the entries owe. -/
theorem compileLoop_owed {a : ArenaContext} (valid : Valid a) :
    ∀ (fuel : Nat) (stack : List (Nat × Nat)) (emitted owes : List FlatEvent) (pops : Nat),
      owed a stack = some (owes,pops) → pops ≤ fuel → compileLoop a fuel stack emitted = some (emitted ++ owes)
  | fuel, [], emitted, _, _, owing, _ => by
    cases owing
    rw [List.append_nil]
    cases fuel <;> rfl
  | fuel, (n,start) :: stack, emitted, owes, pops, owing, bound => by
    obtain ⟨t,unfolded,-⟩ := Option.bind_eq_some.mp owing
    simp only [owed_cons unfolded,Option.map_eq_some',Prod.mk.injEq] at owing
    obtain ⟨⟨rest,restPops⟩,owingRest,rfl,rfl⟩ := owing
    obtain ⟨node,at_n,unfolds⟩ := tree_eq_some.mp unfolded
    match fuel with
    | 0 => have := t.size_pos; omega
    | fuel + 1 =>
      cases node with
      | atomic channelId duration payload =>
        cases unfolds
        simp only [compileLoop,at_n]
        rw [compileLoop_owed valid fuel stack _ rest restPops owingRest (by simp only [Morphism.size] at bound; omega)]
        simp only [events,List.append_assoc,List.singleton_append]
      | sequential lhs rhs =>
        obtain ⟨-,-,l,r,ul,ur,rfl⟩ := unfolds
        obtain ⟨lhsData,at_lhs,-⟩ := tree_eq_some.mp ul
        have same := (valid.summarizes at_lhs ul).duration_eq
        simp only [compileLoop,at_n,at_lhs]
        rw [compileLoop_owed valid fuel _ _ (events l start ++ events r (start + l.duration) ++ rest)
          (l.size + (r.size + restPops)) (by simp [owed_cons ul,owed_cons ur,owingRest,same])
          (by simp only [Morphism.size] at bound; omega)]
        simp only [events,List.append_assoc]
      | parallel lhs rhs =>
        obtain ⟨-,-,l,r,ul,ur,rfl⟩ := unfolds
        simp only [compileLoop,at_n]
        rw [compileLoop_owed valid fuel _ _ (events l start ++ events r start ++ rest) (l.size + (r.size + restPops))
          (by simp [owed_cons ul,owed_cons ur,owingRest]) (by simp only [Morphism.size] at bound; omega)]
        simp only [events,List.append_assoc]

theorem get_of_tree {a : ArenaContext} {n : Nat} {t : Morphism} (unfolded : tree a n = some t) :
    ∃ node, a.get n = some node :=
  let ⟨node,at_n,_⟩ := tree_eq_some.mp unfolded; ⟨node,at_n⟩

theorem lt_of_tree {a : ArenaContext} {n : Nat} {t : Morphism} (unfolded : tree a n = some t) : n < a.len :=
  let ⟨_,at_n⟩ := get_of_tree unfolded; a.get_lt at_n

/-- A node's tree has fewer than `2 ^ (n + 1)` nodes, its children coming first. -/
theorem size_lt {a : ArenaContext} {n : Nat} {t : Morphism} (unfolded : tree a n = some t) : t.size < 2 ^ (n + 1) := by
  induction n using Nat.strong_induction_on generalizing t with
  | _ n ih =>
    obtain ⟨node,-,unfolds⟩ := tree_eq_some.mp unfolded
    cases node with
    | atomic => cases unfolds; simp [Morphism.size]
    | sequential lhs rhs | parallel lhs rhs =>
      obtain ⟨hl,hr,l,r,ul,ur,rfl⟩ := unfolds
      have sl := (ih lhs hl ul).trans_le (Nat.pow_le_pow_right (by omega) hl)
      have sr := (ih rhs hr ur).trans_le (Nat.pow_le_pow_right (by omega) hr)
      simp only [Morphism.size,Nat.pow_succ]
      omega

/-- A node's tree has no more nodes than the loops have fuel. -/
theorem size_le_fuel {a : ArenaContext} {n : Nat} {t : Morphism} (unfolded : tree a n = some t) : t.size ≤ a.fuel :=
  ((size_lt unfolded).trans_le (Nat.pow_le_pow_right (by omega) (lt_of_tree unfolded))).le

/-- The compiler's contract: on a reachable arena, `compile` returns the stable
    sort by time of the denotation of the root's tree. -/
theorem compile_eq_sortByKey_events {a : ArenaContext} (reach : Reachable a) {root : Nat} (valid_root : root < a.len) :
    ∃ t, tree a root = some t ∧ compile a root = some (sortByKey FlatEvent.time (events t 0)) := by
  have valid := reachable_valid reach
  obtain ⟨node,at_root⟩ := a.get_isSome valid_root
  obtain ⟨t,unfolded,-⟩ := valid root node at_root
  refine ⟨t,unfolded,?_⟩
  rw [compile,compileLoop_owed valid _ _ [] (events t 0 ++ []) (t.size + 0) (by simp [owed,unfolded]) (size_le_fuel unfolded)]
  simp

/-- `atomic(0, 10)` and `atomic(1, 5)` on channels 0 and 1, composed in series. -/
def serialPair : ArenaContext := ⟨[.atomic 0 10 ⟨1,[]⟩,.atomic 1 5 ⟨2,[]⟩,.sequential 0 1 15 [0,1]]⟩

theorem serialPair_reachable : Reachable serialPair := ⟨[.atomic 0 10 1 [],.atomic 1 5 2 [],.sequential 0 1],by decide⟩

theorem compile_eq_sortByKey_events_sequential :
    Reachable serialPair ∧ 2 < ArenaContext.len serialPair ∧
      ∃ t, tree serialPair 2 = some t ∧
        compile serialPair 2 = some (sortByKey FlatEvent.time (events t 0)) :=
  ⟨serialPair_reachable,by decide,compile_eq_sortByKey_events serialPair_reachable (by decide)⟩

/-! ### The results of the composition calls -/

theorem eq_of_sorted_lt {xs ys : List Nat} (sx : xs.Sorted (· < ·)) (sy : ys.Sorted (· < ·))
    (same : ∀ c, c ∈ xs ↔ c ∈ ys) : xs = ys :=
  List.eq_of_perm_of_sorted ((List.perm_ext_iff_of_nodup sx.nodup sy.nodup).mpr same) sx sy

theorem sequential_tree {a : ArenaContext} {x y : Nat} {t u : Morphism}
    (tx : tree a x = some t) (ty : tree a y = some u) :
    ∃ b, a.sequential x y = some (a.len,b) ∧ tree b a.len = some (.sequential t u) ∧
      ∀ n < a.len, tree b n = tree a n := by
  obtain ⟨nx,at_x⟩ := get_of_tree tx
  obtain ⟨ny,at_y⟩ := get_of_tree ty
  refine ⟨_,ArenaContext.sequential_eq at_x at_y,tree_of_get (ArenaContext.get_push_len ..) ?_,
    fun n lt => tree_push _ _ lt⟩
  exact unfolds_push _ le_rfl ⟨lt_of_tree tx,lt_of_tree ty,t,u,tx,ty,rfl⟩

/-- `parallel` on valid handles is `Ok` exactly when the two trees use disjoint channels. -/
theorem parallel_ok_iff {a : ArenaContext} (valid : Valid a) {x y : Nat} {t u : Morphism}
    (tx : tree a x = some t) (ty : tree a y = some u) :
    (∃ r b, a.parallel x y = some (.ok r,b)) ↔ ∀ c ∈ t.leafChannels, c ∉ u.leafChannels := by
  obtain ⟨nx,at_x⟩ := get_of_tree tx
  obtain ⟨ny,at_y⟩ := get_of_tree ty
  have sx := valid.summarizes at_x tx
  have sy := valid.summarizes at_y ty
  have meet := hasIntersection_iff sx.channels_sorted sy.channels_sorted
  cases h : hasIntersection nx.channels ny.channels
  · simp only [ArenaContext.parallel_eq_ok at_x at_y h]
    refine iff_of_true ⟨_,_,rfl⟩ fun c cl cr => ?_
    rw [h] at meet
    exact Bool.false_ne_true (meet.mpr ⟨c,(sx.mem_channels c).mpr cl,(sy.mem_channels c).mpr cr⟩)
  · rw [ArenaContext.parallel_eq_error at_x at_y h]
    obtain ⟨c,cl,cr⟩ := meet.mp h
    exact iff_of_false (fun ⟨_,_,same⟩ => nomatch same) fun apart => apart c ((sx.mem_channels c).mp cl) ((sy.mem_channels c).mp cr)

theorem parallel_tree {a b : ArenaContext} {x y r : Nat} {t u : Morphism}
    (tx : tree a x = some t) (ty : tree a y = some u) (done : a.parallel x y = some (.ok r,b)) :
    r = a.len ∧ tree b a.len = some (.parallel t u) ∧ ∀ n < a.len, tree b n = tree a n := by
  obtain ⟨nx,ny,at_x,at_y,⟨-,h⟩ | ⟨-,h⟩⟩ := ArenaContext.parallel_cases done
  · cases h
  · simp only [Prod.mk.injEq,Except.ok.injEq] at h
    obtain ⟨rfl,rfl⟩ := h
    refine ⟨rfl,tree_of_get (ArenaContext.get_push_len ..) ?_,fun n lt => tree_push _ _ lt⟩
    exact unfolds_push _ le_rfl ⟨lt_of_tree tx,lt_of_tree ty,t,u,tx,ty,rfl⟩

/-- Two roots that the compiler and the metadata accessors cannot tell apart. -/
def SameRoot (a : ArenaContext) (r : Nat) (b : ArenaContext) (r' : Nat) : Prop :=
  (∃ out, compile a r = some out ∧ compile b r' = some out) ∧
    ∃ n n', a.get r = some n ∧ b.get r' = some n' ∧ n.duration = n'.duration ∧ n.channels = n'.channels

theorem compile_of_tree {a : ArenaContext} (reach : Reachable a) {r : Nat} {t : Morphism} (unfolded : tree a r = some t) :
    compile a r = some (sortByKey FlatEvent.time (events t 0)) := by
  obtain ⟨t',unfolded',done⟩ := compile_eq_sortByKey_events reach (lt_of_tree unfolded)
  rw [unfolded] at unfolded'
  cases unfolded'
  exact done

theorem metadata_eq_of_tree {a b : ArenaContext} (ra : Reachable a) (rb : Reachable b) {r r' : Nat} {t u : Morphism}
    (ta : tree a r = some t) (tb : tree b r' = some u) (sameDuration : t.duration = u.duration)
    (sameChannels : ∀ c, c ∈ t.leafChannels ↔ c ∈ u.leafChannels) :
    ∃ n n', a.get r = some n ∧ b.get r' = some n' ∧ n.duration = n'.duration ∧ n.channels = n'.channels := by
  obtain ⟨n,at_r⟩ := get_of_tree ta
  obtain ⟨n',at_r'⟩ := get_of_tree tb
  have sa := (reachable_valid ra).summarizes at_r ta
  have sb := (reachable_valid rb).summarizes at_r' tb
  refine ⟨n,n',at_r,at_r',by rw [sa.duration_eq,sb.duration_eq,sameDuration],?_⟩
  exact eq_of_sorted_lt sa.channels_sorted sb.channels_sorted fun c => by
    rw [sa.mem_channels,sb.mem_channels,sameChannels]

theorem sameRoot_of_tree {a b : ArenaContext} (ra : Reachable a) (rb : Reachable b) {r r' : Nat} {t u : Morphism}
    (ta : tree a r = some t) (tb : tree b r' = some u) (sameEvents : events t 0 = events u 0)
    (sameDuration : t.duration = u.duration) (sameChannels : ∀ c, c ∈ t.leafChannels ↔ c ∈ u.leafChannels) :
    SameRoot a r b r' :=
  ⟨⟨_,compile_of_tree ra ta,by rw [compile_of_tree rb tb,sameEvents]⟩,
    metadata_eq_of_tree ra rb ta tb sameDuration sameChannels⟩

theorem tree_of_lt {a : ArenaContext} (valid : Valid a) {n : Nat} (lt : n < a.len) : ∃ t, tree a n = some t :=
  let ⟨node,at_n⟩ := a.get_isSome lt
  let ⟨t,unfolded,_⟩ := valid n node at_n
  ⟨t,unfolded⟩

/-! ### Reassociation -/

theorem sequential_reassociate {a : ArenaContext} (reach : Reachable a) {x y z : Nat} {t u v : Morphism}
    (tx : tree a x = some t) (ty : tree a y = some u) (tz : tree a z = some v) :
    ∃ xy a1 r1 a2 yz b1 r2 b2,
      a.sequential x y = some (xy,a1) ∧ a1.sequential xy z = some (r1,a2) ∧
      a.sequential y z = some (yz,b1) ∧ b1.sequential x yz = some (r2,b2) ∧ SameRoot a2 r1 b2 r2 := by
  obtain ⟨a1,s1,t1,f1⟩ := sequential_tree tx ty
  obtain ⟨a2,s2,t2,-⟩ := sequential_tree t1 ((f1 z (lt_of_tree tz)).trans tz)
  obtain ⟨b1,s3,t3,f3⟩ := sequential_tree ty tz
  obtain ⟨b2,s4,t4,-⟩ := sequential_tree ((f3 x (lt_of_tree tx)).trans tx) t3
  refine ⟨_,_,_,_,_,_,_,_,s1,s2,s3,s4,sameRoot_of_tree ((reach.sequential s1).sequential s2)
    ((reach.sequential s3).sequential s4) t2 t4 ?_ ?_ ?_⟩
  · simp [events,Nat.add_assoc]
  · simp [Nat.add_assoc]
  · simp [or_assoc]

/-- The two bracketings of three parallel compositions succeed together. -/
theorem parallel_reassociate_ok {a : ArenaContext} (reach : Reachable a) {x y z : Nat} {t u v : Morphism}
    (tx : tree a x = some t) (ty : tree a y = some u) (tz : tree a z = some v) :
    (∃ xy a1 r1 a2, a.parallel x y = some (.ok xy,a1) ∧ a1.parallel xy z = some (.ok r1,a2)) ↔
      (∃ yz b1 r2 b2, a.parallel y z = some (.ok yz,b1) ∧ b1.parallel x yz = some (.ok r2,b2)) := by
  have valid := reachable_valid reach
  -- both sides say that the three trees use pairwise disjoint channels
  have left : (∃ xy a1 r1 a2, a.parallel x y = some (.ok xy,a1) ∧ a1.parallel xy z = some (.ok r1,a2)) ↔
      (∀ c ∈ t.leafChannels, c ∉ u.leafChannels) ∧ ∀ c ∈ t.leafChannels ++ u.leafChannels, c ∉ v.leafChannels := by
    constructor
    · rintro ⟨xy,a1,r1,a2,done1,done2⟩
      obtain ⟨rfl,t1,f1⟩ := parallel_tree tx ty done1
      exact ⟨(parallel_ok_iff valid tx ty).mp ⟨_,_,done1⟩,
        (parallel_ok_iff (reachable_valid (reach.parallel done1)) t1 ((f1 z (lt_of_tree tz)).trans tz)).mp ⟨_,_,done2⟩⟩
    · rintro ⟨apart1,apart2⟩
      obtain ⟨xy,a1,done1⟩ := (parallel_ok_iff valid tx ty).mpr apart1
      obtain ⟨rfl,t1,f1⟩ := parallel_tree tx ty done1
      obtain ⟨r1,a2,done2⟩ :=
        (parallel_ok_iff (reachable_valid (reach.parallel done1)) t1 ((f1 z (lt_of_tree tz)).trans tz)).mpr apart2
      exact ⟨_,_,_,_,done1,done2⟩
  have right : (∃ yz b1 r2 b2, a.parallel y z = some (.ok yz,b1) ∧ b1.parallel x yz = some (.ok r2,b2)) ↔
      (∀ c ∈ u.leafChannels, c ∉ v.leafChannels) ∧ ∀ c ∈ t.leafChannels, c ∉ u.leafChannels ++ v.leafChannels := by
    constructor
    · rintro ⟨yz,b1,r2,b2,done1,done2⟩
      obtain ⟨rfl,t1,f1⟩ := parallel_tree ty tz done1
      exact ⟨(parallel_ok_iff valid ty tz).mp ⟨_,_,done1⟩,
        (parallel_ok_iff (reachable_valid (reach.parallel done1)) ((f1 x (lt_of_tree tx)).trans tx) t1).mp ⟨_,_,done2⟩⟩
    · rintro ⟨apart1,apart2⟩
      obtain ⟨yz,b1,done1⟩ := (parallel_ok_iff valid ty tz).mpr apart1
      obtain ⟨rfl,t1,f1⟩ := parallel_tree ty tz done1
      obtain ⟨r2,b2,done2⟩ :=
        (parallel_ok_iff (reachable_valid (reach.parallel done1)) ((f1 x (lt_of_tree tx)).trans tx) t1).mpr apart2
      exact ⟨_,_,_,_,done1,done2⟩
  rw [left,right]
  simp only [List.mem_append]
  constructor
  · rintro ⟨txy,tuv⟩
    exact ⟨fun c cu cv => tuv c (.inr cu) cv,fun c ct => by rintro (cu | cv); exacts [txy c ct cu,tuv c (.inl ct) cv]⟩
  · rintro ⟨tuv,tuw⟩
    exact ⟨fun c ct cu => tuw c ct (.inl cu),fun c => by rintro (ct | cu) cv; exacts [tuw c ct (.inr cv),tuv c cu cv]⟩

/-- The two bracketings of three parallel compositions, when both succeed, look the same. -/
theorem parallel_reassociate_same {a : ArenaContext} (reach : Reachable a) {x y z : Nat} {t u v : Morphism}
    (tx : tree a x = some t) (ty : tree a y = some u) (tz : tree a z = some v)
    {xy r1 yz r2 : Nat} {a1 a2 b1 b2 : ArenaContext}
    (done1 : a.parallel x y = some (.ok xy,a1)) (done2 : a1.parallel xy z = some (.ok r1,a2))
    (done3 : a.parallel y z = some (.ok yz,b1)) (done4 : b1.parallel x yz = some (.ok r2,b2)) :
    SameRoot a2 r1 b2 r2 := by
  obtain ⟨rfl,t1,f1⟩ := parallel_tree tx ty done1
  obtain ⟨rfl,t2,-⟩ := parallel_tree t1 ((f1 z (lt_of_tree tz)).trans tz) done2
  obtain ⟨rfl,t3,f3⟩ := parallel_tree ty tz done3
  obtain ⟨rfl,t4,-⟩ := parallel_tree ((f3 x (lt_of_tree tx)).trans tx) t3 done4
  refine sameRoot_of_tree ((reach.parallel done1).parallel done2) ((reach.parallel done3).parallel done4) t2 t4 ?_ ?_ ?_
  · simp only [events,List.append_assoc]
  · exact max_assoc ..
  · simp only [Morphism.leafChannels,List.mem_append,or_assoc,implies_true]

/-- Reassociating either composition changes nothing that the compiler or the
    metadata accessors show, and parallel reassociation fails or succeeds alike. -/
theorem compile_reassociate {a : ArenaContext} (reach : Reachable a) {x y z : Nat}
    (hx : x < a.len) (hy : y < a.len) (hz : z < a.len) :
    (∃ xy a1 r1 a2 yz b1 r2 b2,
      a.sequential x y = some (xy,a1) ∧ a1.sequential xy z = some (r1,a2) ∧
      a.sequential y z = some (yz,b1) ∧ b1.sequential x yz = some (r2,b2) ∧ SameRoot a2 r1 b2 r2) ∧
    ((∃ xy a1 r1 a2, a.parallel x y = some (.ok xy,a1) ∧ a1.parallel xy z = some (.ok r1,a2)) ↔
      (∃ yz b1 r2 b2, a.parallel y z = some (.ok yz,b1) ∧ b1.parallel x yz = some (.ok r2,b2))) ∧
    ∀ xy a1 r1 a2 yz b1 r2 b2,
      a.parallel x y = some (.ok xy,a1) → a1.parallel xy z = some (.ok r1,a2) →
      a.parallel y z = some (.ok yz,b1) → b1.parallel x yz = some (.ok r2,b2) → SameRoot a2 r1 b2 r2 := by
  have valid := reachable_valid reach
  obtain ⟨t,tx⟩ := tree_of_lt valid hx
  obtain ⟨u,ty⟩ := tree_of_lt valid hy
  obtain ⟨v,tz⟩ := tree_of_lt valid hz
  exact ⟨sequential_reassociate reach tx ty tz,parallel_reassociate_ok reach tx ty tz,
    fun _ _ _ _ _ _ _ _ => parallel_reassociate_same reach tx ty tz⟩

/-- Three operations on channels 0, 1 and 2. -/
def threeAtomics : ArenaContext := ⟨[.atomic 0 10 ⟨1,[]⟩,.atomic 1 20 ⟨2,[]⟩,.atomic 2 30 ⟨3,[]⟩]⟩

theorem threeAtomics_reachable : Reachable threeAtomics := ⟨[.atomic 0 10 1 [],.atomic 1 20 2 [],.atomic 2 30 3 []],by decide⟩

theorem compile_reassociate_atomics :
    Reachable threeAtomics ∧ 0 < ArenaContext.len threeAtomics ∧ 1 < ArenaContext.len threeAtomics ∧ 2 < ArenaContext.len threeAtomics ∧
    (∃ xy a1 r1 a2 yz b1 r2 b2,
      ArenaContext.sequential threeAtomics 0 1 = some (xy,a1) ∧ a1.sequential xy 2 = some (r1,a2) ∧
      ArenaContext.sequential threeAtomics 1 2 = some (yz,b1) ∧ b1.sequential 0 yz = some (r2,b2) ∧ SameRoot a2 r1 b2 r2) ∧
    ((∃ xy a1 r1 a2, ArenaContext.parallel threeAtomics 0 1 = some (.ok xy,a1) ∧ a1.parallel xy 2 = some (.ok r1,a2)) ↔
      (∃ yz b1 r2 b2, ArenaContext.parallel threeAtomics 1 2 = some (.ok yz,b1) ∧ b1.parallel 0 yz = some (.ok r2,b2))) ∧
    ∀ xy a1 r1 a2 yz b1 r2 b2,
      ArenaContext.parallel threeAtomics 0 1 = some (.ok xy,a1) → a1.parallel xy 2 = some (.ok r1,a2) →
      ArenaContext.parallel threeAtomics 1 2 = some (.ok yz,b1) → b1.parallel 0 yz = some (.ok r2,b2) →
        SameRoot a2 r1 b2 r2 :=
  ⟨threeAtomics_reachable,by decide,by decide,by decide,compile_reassociate threeAtomics_reachable (by decide) (by decide) (by decide)⟩

/-! ### Channels -/

/-- The events `compile` puts on one channel are the root's occurrences on that
    channel, in the order of the schedule. -/
theorem compile_channel {a : ArenaContext} (reach : Reachable a) {root : Nat} {t : Morphism}
    (unfolded : tree a root = some t) (c : Nat) :
    (compile a root).map (List.filter fun e => e.channelId = c) =
      some (((t.slots 0).filter fun x => x.channelId = c).map event) := by
  obtain ⟨node,at_root⟩ := get_of_tree unfolded
  have wf := ((reachable_valid reach).summarizes at_root unfolded).wellFormed
  rw [compile_of_tree reach unfolded,Option.map_some',filter_sortByKey,filter_events,sortByKey_events,
    sortByKey_of_sorted _ (Slot.sorted_of_chain (t.slots_channel_chain wf c 0))]

/-- Commuting a parallel composition: it fails or succeeds alike, and the two roots
    have the same duration and channels and the same events on every channel. -/
theorem parallel_commute {a : ArenaContext} (reach : Reachable a) {x y : Nat} (hx : x < a.len) (hy : y < a.len) :
    ((∃ r b, a.parallel x y = some (.ok r,b)) ↔ ∃ r b, a.parallel y x = some (.ok r,b)) ∧
    ∀ r b r' b', a.parallel x y = some (.ok r,b) → a.parallel y x = some (.ok r',b') →
      (∃ n n', b.get r = some n ∧ b'.get r' = some n' ∧ n.duration = n'.duration ∧ n.channels = n'.channels) ∧
      ∀ c, (compile b r).map (List.filter fun e => e.channelId = c) =
        (compile b' r').map (List.filter fun e => e.channelId = c) := by
  have valid := reachable_valid reach
  obtain ⟨t,tx⟩ := tree_of_lt valid hx
  obtain ⟨u,ty⟩ := tree_of_lt valid hy
  refine ⟨?_,fun r b r' b' done1 done2 => ?_⟩
  · rw [parallel_ok_iff valid tx ty,parallel_ok_iff valid ty tx]
    exact ⟨fun apart c cu ct => apart c ct cu,fun apart c ct cu => apart c cu ct⟩
  obtain ⟨rfl,t1,-⟩ := parallel_tree tx ty done1
  obtain ⟨rfl,t2,-⟩ := parallel_tree ty tx done2
  have r1 := reach.parallel done1
  have r2 := reach.parallel done2
  refine ⟨metadata_eq_of_tree r1 r2 t1 t2 (max_comm _ _) fun c => by simp [or_comm],fun c => ?_⟩
  obtain ⟨node,at_r⟩ := get_of_tree t1
  obtain ⟨-,-,apart⟩ := ((reachable_valid r1).summarizes at_r t1).wellFormed
  rw [compile_channel r1 t1,compile_channel r2 t2]
  by_cases inLeft : c ∈ t.leafChannels
  · simp [Morphism.slots,Morphism.filter_slots_of_not_mem (apart c inLeft)]
  · simp [Morphism.slots,Morphism.filter_slots_of_not_mem inLeft]

/-- Two operations on channels 0 and 1. -/
def twoAtomics : ArenaContext := ⟨[.atomic 0 10 ⟨1,[]⟩,.atomic 1 20 ⟨2,[]⟩]⟩

theorem twoAtomics_reachable : Reachable twoAtomics := ⟨[.atomic 0 10 1 [],.atomic 1 20 2 []],by decide⟩

theorem parallel_commute_atomics :
    Reachable twoAtomics ∧ 0 < ArenaContext.len twoAtomics ∧ 1 < ArenaContext.len twoAtomics ∧
    ((∃ r b, ArenaContext.parallel twoAtomics 0 1 = some (.ok r,b)) ↔ ∃ r b, ArenaContext.parallel twoAtomics 1 0 = some (.ok r,b)) ∧
    ∀ r b r' b', ArenaContext.parallel twoAtomics 0 1 = some (.ok r,b) → ArenaContext.parallel twoAtomics 1 0 = some (.ok r',b') →
      (∃ n n', b.get r = some n ∧ b'.get r' = some n' ∧ n.duration = n'.duration ∧ n.channels = n'.channels) ∧
      ∀ c, (compile b r).map (List.filter fun e => e.channelId = c) =
        (compile b' r').map (List.filter fun e => e.channelId = c) :=
  ⟨twoAtomics_reachable,by decide,by decide,parallel_commute twoAtomics_reachable (by decide) (by decide)⟩

/-! ### Grouping by board -/

/-- After the loop of `compile_by_board` over some events each board holds what it
    held, followed by that board's events in order. -/
theorem lookup_foldl_groupEvent (k : Nat) :
    ∀ (events : List FlatEvent) (grouped : AList fun _ : Nat => List FlatEvent),
      (events.foldl groupEvent grouped).lookup k =
        if events.filter (fun e => boardOf e = k) = [] then grouped.lookup k
        else some ((grouped.lookup k).getD [] ++ events.filter fun e => boardOf e = k)
  | [], _ => rfl
  | e :: events, grouped => by
    rw [List.foldl_cons,lookup_foldl_groupEvent k events]
    by_cases same : boardOf e = k
    · subst same
      rw [List.filter_cons_of_pos (by simp),if_neg (List.cons_ne_nil _ _)]
      simp only [groupEvent,AList.lookup_insert,Option.getD_some,List.append_assoc,List.singleton_append]
      split_ifs with none
      · rw [none]
      · rfl
    · rw [List.filter_cons_of_neg (by simpa using same)]
      simp only [groupEvent,AList.lookup_insert_ne (Ne.symm same)]

/-- The events of the other boards stand around one board's list in the entries of a map. -/
theorem perm_flatMap_kerase (grouped : AList fun _ : Nat => List FlatEvent) (k : Nat) :
    (grouped.entries.flatMap Sigma.snd).Perm
      ((grouped.lookup k).getD [] ++ (grouped.entries.kerase k).flatMap Sigma.snd) := by
  by_cases key : k ∈ grouped.entries.keys
  · obtain ⟨b,l₁,l₂,outside,split,erased⟩ := List.exists_of_kerase key
    have found : grouped.lookup k = some b := by
      rw [AList.lookup,split,List.dlookup_append,List.dlookup_eq_none.mpr outside,Option.none_or,
        List.dlookup_cons_eq]
    rw [found,erased,split]
    simpa using List.perm_append_comm_assoc _ _ _
  · rw [List.kerase_of_not_mem_keys key,AList.lookup_eq_none.mpr key]
    simp

/-- The loop of `compile_by_board` loses and duplicates no event: the lists of the
    map, together, are the lists it started with followed by the events. -/
theorem perm_foldl_groupEvent :
    ∀ (events : List FlatEvent) (grouped : AList fun _ : Nat => List FlatEvent),
      ((events.foldl groupEvent grouped).entries.flatMap Sigma.snd).Perm
        (grouped.entries.flatMap Sigma.snd ++ events)
  | [], _ => by simp
  | e :: events, grouped => by
    have around := perm_flatMap_kerase grouped (boardOf e)
    refine (perm_foldl_groupEvent events _).trans (List.Perm.trans ?_ (around.symm.append_right (e :: events)))
    rw [groupEvent,AList.insert_entries,List.flatMap_cons]
    simpa only [List.append_assoc,List.singleton_append] using List.perm_middle.symm.append_left _

theorem channel_of_mem_compile {a : ArenaContext} {root : Nat} {t : Morphism}
    (unfolded : tree a root = some t) {e : FlatEvent} (mem : e ∈ sortByKey FlatEvent.time (events t 0)) :
    LeafChannel a root e.channelId := by
  rw [events_eq_map] at mem
  obtain ⟨x,occ,rfl⟩ := List.mem_map.mp ((sortByKey_perm _ _).subset mem)
  exact (mem_leafChannels_iff unfolded _).mp (Morphism.channel_mem_of_mem_slots occ)

/-- On a 32-bit channel the cast to `u16` loses nothing. -/
theorem boardOf_eq {e : FlatEvent} (small : e.channelId < 2 ^ 32) : boardOf e = e.channelId >>> 16 := by
  rw [boardOf,Nat.shiftRight_eq_div_pow]
  exact Nat.mod_eq_of_lt (Nat.div_lt_of_lt_mul small)

/-- `compile_by_board` partitions the output of `compile` by board. On an arena whose
    channels are 32-bit, as the crate's `u32` makes them, a board is a key exactly
    when some event is on it, its list is the subsequence of the output on that board
    (so sorted by time), and the lists together hold every event once. -/
theorem compileByBoard_partition {a : ArenaContext} (reach : Reachable a) {root : Nat} (valid_root : root < a.len)
    (u32 : ∀ n c d p, a.get n = some (.atomic c d p) → c < 2 ^ 32) :
    ∃ out grouped, compile a root = some out ∧ compileByBoard a root = some grouped ∧
      (∀ k, k ∈ grouped.keys ↔ ∃ e ∈ out, e.channelId >>> 16 = k) ∧
      (∀ k ∈ grouped.keys, grouped.lookup k = some (out.filter fun e => e.channelId >>> 16 = k) ∧
        SortedBy FlatEvent.time (out.filter fun e => e.channelId >>> 16 = k)) ∧
      (grouped.entries.flatMap Sigma.snd).Perm out := by
  obtain ⟨t,unfolded,done⟩ := compile_eq_sortByKey_events reach valid_root
  have board : ∀ e ∈ sortByKey FlatEvent.time (events t 0), boardOf e = e.channelId >>> 16 := fun e mem =>
    let ⟨_,_,_,_,at_m⟩ := channel_of_mem_compile unfolded mem
    boardOf_eq (u32 _ _ _ _ at_m)
  have sameFilter : ∀ k, ((sortByKey FlatEvent.time (events t 0)).filter fun e => boardOf e = k) =
      (sortByKey FlatEvent.time (events t 0)).filter fun e => e.channelId >>> 16 = k := fun k =>
    List.filter_congr fun e mem => by rw [board e mem]
  refine ⟨_,(sortByKey FlatEvent.time (events t 0)).foldl groupEvent ∅,done,by rw [compileByBoard_eq,done]; rfl,
    fun k => ?_,fun k key => ?_,by simpa using perm_foldl_groupEvent (sortByKey FlatEvent.time (events t 0)) ∅⟩
  · rw [← AList.mem_keys,← AList.lookup_isSome,lookup_foldl_groupEvent,sameFilter]
    split_ifs with empty <;> simpa using empty
  · rw [← AList.mem_keys,← AList.lookup_isSome,lookup_foldl_groupEvent,sameFilter] at key
    rw [lookup_foldl_groupEvent,sameFilter]
    split_ifs at key ⊢ with empty
    · simp at key
    · exact ⟨by simp,List.Pairwise.sublist (List.filter_sublist _) (sortByKey_sorted _ _)⟩

/-- Channels 0 and 1 of board 0 in parallel, then in parallel with channel 0 of
    board 1, the channel id 65536. -/
def twoBoards : ArenaContext := ⟨[.atomic 0 100 ⟨1,[1]⟩,.atomic 1 100 ⟨1,[2]⟩,.atomic 65536 100 ⟨1,[3]⟩,.parallel 0 1 100 [0,1],.parallel 3 2 100 [0,1,65536]]⟩

theorem twoBoards_reachable : Reachable twoBoards := by
  have leaves : Reachable ⟨[.atomic 0 100 ⟨1,[1]⟩,.atomic 1 100 ⟨1,[2]⟩,.atomic 65536 100 ⟨1,[3]⟩]⟩ :=
    ⟨[.atomic 0 100 1 [1],.atomic 1 100 1 [2],.atomic 65536 100 1 [3]],by decide⟩
  have board0 : Reachable ⟨[.atomic 0 100 ⟨1,[1]⟩,.atomic 1 100 ⟨1,[2]⟩,.atomic 65536 100 ⟨1,[3]⟩,.parallel 0 1 100 [0,1]]⟩ :=
    leaves.parallel (show ArenaContext.parallel _ 0 1 = some (.ok 3,_) from
      @ArenaContext.parallel_eq_ok _ 0 1 (.atomic 0 100 ⟨1,[1]⟩) (.atomic 1 100 ⟨1,[2]⟩) rfl rfl
        (by simp [hasIntersection_cons_cons]))
  exact board0.parallel (show ArenaContext.parallel _ 3 2 = some (.ok 4,_) from
    @ArenaContext.parallel_eq_ok _ 3 2 (.parallel 0 1 100 [0,1]) (.atomic 65536 100 ⟨1,[3]⟩) rfl rfl
      (by simp [hasIntersection_cons_cons]))

theorem compileByBoard_partition_two_boards :
    Reachable twoBoards ∧ 4 < ArenaContext.len twoBoards ∧
    (∀ n c d p, ArenaContext.get twoBoards n = some (.atomic c d p) → c < 2 ^ 32) ∧
    ∃ out grouped, compile twoBoards 4 = some out ∧ compileByBoard twoBoards 4 = some grouped ∧
      (∀ k, k ∈ grouped.keys ↔ ∃ e ∈ out, e.channelId >>> 16 = k) ∧
      (∀ k ∈ grouped.keys, grouped.lookup k = some (out.filter fun e => e.channelId >>> 16 = k) ∧
        SortedBy FlatEvent.time (out.filter fun e => e.channelId >>> 16 = k)) ∧
      (grouped.entries.flatMap Sigma.snd).Perm out := by
  have u32 : ∀ n c d p, ArenaContext.get twoBoards n = some (.atomic c d p) → c < 2 ^ 32 := fun n c d p at_n => by
    unfold twoBoards at at_n
    have stored := List.getElem?_mem at_n
    simp only [List.mem_cons,List.mem_singleton,List.not_mem_nil,or_false,MorphismData.atomic.injEq,reduceCtorEq] at stored
    rcases stored with ⟨rfl,-⟩ | ⟨rfl,-⟩ | ⟨rfl,-⟩ <;> decide
  exact ⟨twoBoards_reachable,by decide,u32,compileByBoard_partition twoBoards_reachable (by decide) u32⟩

end Catseq.Compiler
