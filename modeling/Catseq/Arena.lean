import Mathlib.Algebra.Order.Ring.Nat
import Mathlib.Data.List.Sort
import Mathlib.Data.List.Destutter

/-!
The morphism arena of `arena.rs`. Nodes live in one vector and are addressed by
their index (`NodeId`); a composite node stores the handles of its two children
together with its duration and channel list, computed once when it is built.
Indexing out of range panics in Rust; here the operations return `none` then.
Channel ids (`u32`) are only ordered and compared, and times (`u64`, clock
cycles) are added without a check, no addition wrapping by the crate's contract:
both are natural numbers here, and so are handles. The work-stack
loops `leaf_count` and `max_depth` run on fuel, `2 ^ len`, which bounds the
number of iterations on every arena whose children precede their parents
(`Catseq.Unfolding`).
-/

namespace Catseq.Arena

/-- `AtomicPayload`: an opcode and an opaque blob, never inspected. -/
structure AtomicPayload where
  opcode : UInt16
  data : List UInt8
deriving DecidableEq, Repr

inductive MorphismData where
  | atomic (channelId : Nat) (duration : Nat) (payload : AtomicPayload)
  | sequential (lhs rhs : Nat) (duration : Nat) (channels : List Nat)
  | parallel (lhs rhs : Nat) (duration : Nat) (channels : List Nat)
deriving DecidableEq, Repr

namespace MorphismData

def duration : MorphismData → Nat
  | atomic _ duration _ | sequential _ _ duration _ | parallel _ _ duration _ => duration

/-- `channels` and `channels_vec`: the stored channel list, `[channel_id]` for an atomic. -/
def channels : MorphismData → List Nat
  | atomic channelId _ _ => [channelId]
  | sequential _ _ _ channels | parallel _ _ _ channels => channels

def children : MorphismData → List Nat
  | atomic .. => []
  | sequential lhs rhs _ _ | parallel lhs rhs _ _ => [lhs,rhs]

variable {lhs rhs channelId duration : Nat} {channels : List Nat} {payload : AtomicPayload}

@[simp] theorem duration_atomic : (atomic channelId duration payload).duration = duration := rfl
@[simp] theorem duration_sequential : (sequential lhs rhs duration channels).duration = duration := rfl
@[simp] theorem duration_parallel : (parallel lhs rhs duration channels).duration = duration := rfl
@[simp] theorem channels_atomic : (atomic channelId duration payload).channels = [channelId] := rfl
@[simp] theorem channels_sequential : (sequential lhs rhs duration channels).channels = channels := rfl
@[simp] theorem channels_parallel : (parallel lhs rhs duration channels).channels = channels := rfl
@[simp] theorem children_atomic : (atomic channelId duration payload).children = [] := rfl
@[simp] theorem children_sequential : (sequential lhs rhs duration channels).children = [lhs,rhs] := rfl
@[simp] theorem children_parallel : (parallel lhs rhs duration channels).children = [lhs,rhs] := rfl

end MorphismData

/-- `sort_unstable` on channel ids: on a total order every sort gives this list. -/
def sortUnstable (channels : List Nat) : List Nat := channels.insertionSort (· ≤ ·)

/-- `Vec::dedup`: drops every element equal to the one before it. -/
def dedup (channels : List Nat) : List Nat := channels.destutter (· ≠ ·)

/-- `has_intersection`: the two-pointer scan, `a[i..]` and `b[j..]` being the lists. -/
def hasIntersection : List Nat → List Nat → Bool
  | x :: xs, y :: ys =>
    match compare x y with
    | .eq => true
    | .lt => hasIntersection xs (y :: ys)
    | .gt => hasIntersection (x :: xs) ys
  | _, _ => false
termination_by xs ys => xs.length + ys.length

structure ArenaContext where
  nodes : List MorphismData
deriving DecidableEq, Repr

namespace ArenaContext

def new : ArenaContext := ⟨[]⟩

/-- `get`, returning `none` where Rust panics. -/
def get (self : ArenaContext) (id : Nat) : Option MorphismData := self.nodes[id]?

def len (self : ArenaContext) : Nat := self.nodes.length

def push (self : ArenaContext) (node : MorphismData) : ArenaContext := ⟨self.nodes ++ [node]⟩

/-- `atomic`: appends a leaf and returns its handle. -/
def atomic (self : ArenaContext) (channelId : Nat) (duration : Nat) (opcode : UInt16)
    (data : List UInt8) : Nat × ArenaContext :=
  (self.len,self.push (.atomic channelId duration ⟨opcode,data⟩))

/-- `sequential` (`@`): durations add, channel lists are merged and deduplicated. -/
def sequential (self : ArenaContext) (lhs rhs : Nat) : Option (Nat × ArenaContext) := do
  let lhsData ← self.get lhs
  let rhsData ← self.get rhs
  let duration := lhsData.duration + rhsData.duration
  let channels := dedup (sortUnstable (lhsData.channels ++ rhsData.channels))
  pure (self.len,self.push (.sequential lhs rhs duration channels))

/-- `parallel` (`|`): refused when the channel lists meet; the duration is the
    longer one and the channel lists are merged without deduplication. -/
def parallel (self : ArenaContext) (lhs rhs : Nat) : Option (Except String Nat × ArenaContext) := do
  let lhsData ← self.get lhs
  let rhsData ← self.get rhs
  if hasIntersection lhsData.channels rhsData.channels then
    return (.error "Parallel composition requires disjoint channels",self)
  let duration := max lhsData.duration rhsData.duration
  let channels := sortUnstable (lhsData.channels ++ rhsData.channels)
  pure (.ok self.len,self.push (.parallel lhs rhs duration channels))

/-- The iteration bound of the work-stack loops. -/
def fuel (self : ArenaContext) : Nat := 2 ^ self.len

/-- The loop of `leaf_count`, for at most `fuel` iterations; the stack's top is its head. -/
def leafCountLoop (self : ArenaContext) : Nat → List Nat → Nat → Option Nat
  | _, [], count => some count
  | 0, _ :: _, _ => none
  | fuel + 1, nodeId :: stack, count =>
    match self.get nodeId with
    | none => none
    | some (.atomic ..) => leafCountLoop self fuel stack (count + 1)
    | some (.sequential lhs rhs ..) | some (.parallel lhs rhs ..) =>
      leafCountLoop self fuel (lhs :: rhs :: stack) count

/-- `leaf_count`: the atomic leaves of the tree unfolding, counted with an explicit stack. -/
def leafCount (self : ArenaContext) (root : Nat) : Option Nat :=
  self.leafCountLoop self.fuel [root] 0

/-- The loop of `max_depth`, for at most `fuel` iterations. -/
def maxDepthLoop (self : ArenaContext) : Nat → List (Nat × Nat) → Nat → Option Nat
  | _, [], maxDepth => some maxDepth
  | 0, _ :: _, _ => none
  | fuel + 1, (nodeId,depth) :: stack, maxDepth =>
    match self.get nodeId with
    | none => none
    | some (.atomic ..) => maxDepthLoop self fuel stack (max maxDepth depth)
    | some (.sequential lhs rhs ..) | some (.parallel lhs rhs ..) =>
      maxDepthLoop self fuel ((lhs,depth + 1) :: (rhs,depth + 1) :: stack) (max maxDepth depth)

/-- `max_depth`: the height of the tree unfolding, the root counting 1. -/
def maxDepth (self : ArenaContext) (root : Nat) : Option Nat :=
  self.maxDepthLoop self.fuel [(root,1)] 0

end ArenaContext

/-- The calls that build an arena: `atomic`, `sequential`, `parallel` (refused or
    not) and `CompilerContext::clear`, which empties the node vector. -/
inductive ArenaOp where
  | atomic (channelId : Nat) (duration : Nat) (opcode : UInt16) (data : List UInt8)
  | sequential (lhs rhs : Nat)
  | parallel (lhs rhs : Nat)
  | clear

namespace ArenaContext

/-- One call; `none` when it panics on a handle out of range. -/
def apply (self : ArenaContext) : ArenaOp → Option ArenaContext
  | .atomic channelId duration opcode data => some (self.atomic channelId duration opcode data).2
  | .sequential lhs rhs => (self.sequential lhs rhs).map Prod.snd
  | .parallel lhs rhs => (self.parallel lhs rhs).map Prod.snd
  | .clear => some new

/-- A sequence of calls, stopped by the first panic. -/
def run (self : ArenaContext) : List ArenaOp → Option ArenaContext
  | [] => some self
  | op :: ops => (self.apply op).bind fun next => next.run ops

end ArenaContext

/-- Reachable from the empty arena by calls on valid handles. -/
def Reachable (a : ArenaContext) : Prop := ∃ ops, ArenaContext.new.run ops = some a

/-! ### Channel lists -/

theorem mem_sortUnstable {c : Nat} {l : List Nat} : c ∈ sortUnstable l ↔ c ∈ l :=
  (List.perm_insertionSort _ l).mem_iff

theorem sortUnstable_sorted (l : List Nat) : (sortUnstable l).Sorted (· ≤ ·) :=
  List.sorted_insertionSort _ l

theorem mem_destutter' {c a : Nat} {l : List Nat} :
    c ∈ l.destutter' (· ≠ ·) a ↔ c = a ∨ c ∈ l := by
  induction l generalizing a with
  | nil => simp
  | cons b l ih =>
    by_cases same : a = b
    · subst same; simp [List.destutter'_cons,ih]
    · simp only [List.destutter'_cons,same,ne_eq,not_false_eq_true,if_true,List.mem_cons,ih]

theorem mem_dedup {c : Nat} {l : List Nat} : c ∈ dedup l ↔ c ∈ l := by
  cases l with
  | nil => simp [dedup]
  | cons a l => simp [dedup,List.destutter_cons',mem_destutter']

private theorem chain'_lt : ∀ {l : List Nat}, l.Chain' (· ≤ ·) → l.Chain' (· ≠ ·) → l.Chain' (· < ·)
  | [], _, _ => List.chain'_nil
  | [_], _, _ => List.chain'_singleton _
  | _ :: _ :: _, le, ne => by
    rw [List.chain'_cons] at le ne ⊢
    exact ⟨lt_of_le_of_ne le.1 ne.1,chain'_lt le.2 ne.2⟩

/-- Deduplicating a sorted list makes it strictly increasing. -/
theorem dedup_sorted {l : List Nat} (sorted : l.Sorted (· ≤ ·)) : (dedup l).Sorted (· < ·) :=
  List.chain'_iff_pairwise.mp <| chain'_lt
    (List.Pairwise.chain' (List.Pairwise.sublist (List.destutter_sublist _ l) sorted))
    (List.destutter_is_chain' _ l)

/-- Merging two strictly increasing lists with no common element keeps it strict. -/
theorem sortUnstable_sorted_lt {xs ys : List Nat} (sx : xs.Sorted (· < ·)) (sy : ys.Sorted (· < ·))
    (apart : ∀ c ∈ xs, c ∉ ys) : (sortUnstable (xs ++ ys)).Sorted (· < ·) := by
  have distinct : (xs ++ ys).Nodup := List.nodup_append.mpr ⟨sx.nodup,sy.nodup,fun c cx cy => apart c cx cy⟩
  exact (sortUnstable_sorted _).lt_of_le ((List.perm_insertionSort _ _).nodup_iff.mpr distinct)

private theorem common_cons_left {x : Nat} {xs ys : List Nat} (outside : x ∉ ys) :
    (∃ c ∈ x :: xs, c ∈ ys) ↔ ∃ c ∈ xs, c ∈ ys := by
  constructor
  · rintro ⟨c,cx,cy⟩
    rcases List.mem_cons.mp cx with rfl | cx
    · exact absurd cy outside
    · exact ⟨c,cx,cy⟩
  · rintro ⟨c,cx,cy⟩; exact ⟨c,List.mem_cons_of_mem _ cx,cy⟩

private theorem common_cons_right {y : Nat} {xs ys : List Nat} (outside : y ∉ xs) :
    (∃ c ∈ xs, c ∈ y :: ys) ↔ ∃ c ∈ xs, c ∈ ys := by
  simpa only [and_comm] using @common_cons_left y ys xs outside

/-- The head of a strictly increasing list lies below everything after it. -/
private theorem not_mem_of_lt {x y : Nat} {ys : List Nat} (sorted : (y :: ys).Sorted (· < ·)) (lt : x < y) :
    x ∉ y :: ys := fun m => by
  rcases List.mem_cons.mp m with rfl | m
  · exact lt_irrefl _ lt
  · exact lt_asymm lt (List.rel_of_pairwise_cons sorted m)

@[simp] theorem hasIntersection_nil_left (ys : List Nat) : hasIntersection [] ys = false := by
  rw [hasIntersection]; simp

@[simp] theorem hasIntersection_nil_right (xs : List Nat) : hasIntersection xs [] = false := by
  rw [hasIntersection]; simp

/-- One comparison of the scan. -/
theorem hasIntersection_cons_cons (x y : Nat) (xs ys : List Nat) :
    hasIntersection (x :: xs) (y :: ys) =
      if x = y then true else if x < y then hasIntersection xs (y :: ys) else hasIntersection (x :: xs) ys := by
  rw [hasIntersection]
  rcases Nat.lt_trichotomy x y with lt | rfl | gt
  · simp [Nat.compare_eq_lt.mpr lt,lt,Nat.ne_of_lt lt]
  · simp [Nat.compare_eq_eq.mpr rfl]
  · simp [Nat.compare_eq_gt.mpr gt,Nat.ne_of_gt gt,Nat.not_lt_of_gt gt]

/-- `has_intersection` finds a common element of two strictly increasing lists. -/
theorem hasIntersection_iff {xs ys : List Nat} (sx : xs.Sorted (· < ·)) (sy : ys.Sorted (· < ·)) :
    hasIntersection xs ys = true ↔ ∃ c ∈ xs, c ∈ ys := by
  induction xs, ys using hasIntersection.induct with
  | case1 x xs y ys same =>
    rw [hasIntersection,same]
    exact iff_of_true rfl ⟨x,List.mem_cons_self _ _,by simp [Nat.compare_eq_eq.mp same]⟩
  | case2 x xs y ys less ih =>
    rw [hasIntersection,less,ih sx.of_cons sy,common_cons_left (not_mem_of_lt sy (Nat.compare_eq_lt.mp less))]
  | case3 x xs y ys greater ih =>
    rw [hasIntersection,greater,ih sx sy.of_cons,common_cons_right (not_mem_of_lt sx (Nat.compare_eq_gt.mp greater))]
  | case4 xs ys notBoth =>
    rw [hasIntersection.eq_def]
    cases xs with
    | nil => simp
    | cons x xs =>
      cases ys with
      | nil => simp
      | cons y ys => exact absurd rfl (notBoth x xs y ys rfl)

/-! ### The operations -/

namespace ArenaContext

@[simp] theorem len_push (self : ArenaContext) (node : MorphismData) : (self.push node).len = self.len + 1 := by
  simp [push,len]

@[simp] theorem get_new (n : Nat) : new.get n = none := rfl

theorem get_push (self : ArenaContext) (node : MorphismData) (n : Nat) :
    (self.push node).get n = if n < self.len then self.get n else if n = self.len then some node else none := by
  simp only [push,get,len]
  split_ifs with lt same
  · exact List.getElem?_append_left lt
  · subst same; exact List.getElem?_concat_length ..
  · rw [List.getElem?_eq_none]
    simp only [List.length_append,List.length_singleton]
    omega

theorem get_push_lt (self : ArenaContext) (node : MorphismData) {n : Nat} (lt : n < self.len) :
    (self.push node).get n = self.get n := by
  simp [get_push,lt]

@[simp] theorem get_push_len (self : ArenaContext) (node : MorphismData) :
    (self.push node).get self.len = some node := by
  simp [get_push]

theorem get_lt {self : ArenaContext} {n : Nat} {node : MorphismData} (at_n : self.get n = some node) :
    n < self.len :=
  (List.getElem?_eq_some_iff.mp at_n).1

theorem get_isSome {self : ArenaContext} {n : Nat} (lt : n < self.len) : ∃ node, self.get n = some node :=
  ⟨_,List.getElem?_eq_getElem lt⟩

theorem sequential_eq {self : ArenaContext} {lhs rhs : Nat} {l r : MorphismData}
    (at_lhs : self.get lhs = some l) (at_rhs : self.get rhs = some r) :
    self.sequential lhs rhs = some (self.len,self.push (.sequential lhs rhs (l.duration + r.duration)
      (dedup (sortUnstable (l.channels ++ r.channels))))) := by
  simp [sequential,at_lhs,at_rhs]

/-- `parallel` refuses two nodes whose channel lists meet and leaves the arena alone. -/
theorem parallel_eq_error {self : ArenaContext} {lhs rhs : Nat} {l r : MorphismData}
    (at_lhs : self.get lhs = some l) (at_rhs : self.get rhs = some r)
    (meet : hasIntersection l.channels r.channels = true) :
    self.parallel lhs rhs = some (.error "Parallel composition requires disjoint channels",self) := by
  simp only [parallel,at_lhs,at_rhs,meet,Option.bind_eq_bind,Option.some_bind,if_true]
  rfl

theorem parallel_eq_ok {self : ArenaContext} {lhs rhs : Nat} {l r : MorphismData}
    (at_lhs : self.get lhs = some l) (at_rhs : self.get rhs = some r)
    (apart : hasIntersection l.channels r.channels = false) :
    self.parallel lhs rhs = some (.ok self.len,self.push (.parallel lhs rhs (max l.duration r.duration)
      (sortUnstable (l.channels ++ r.channels)))) := by
  simp only [parallel,at_lhs,at_rhs,apart,Option.bind_eq_bind,Option.some_bind,Bool.false_eq_true,if_false]
  rfl

/-- Everything `parallel` can do. -/
theorem parallel_cases {self : ArenaContext} {lhs rhs : Nat} {result : Except String Nat × ArenaContext}
    (done : self.parallel lhs rhs = some result) :
    ∃ l r, self.get lhs = some l ∧ self.get rhs = some r ∧
      (hasIntersection l.channels r.channels = true ∧
          result = (.error "Parallel composition requires disjoint channels",self) ∨
        hasIntersection l.channels r.channels = false ∧
          result = (.ok self.len,self.push (.parallel lhs rhs (max l.duration r.duration)
            (sortUnstable (l.channels ++ r.channels))))) := by
  cases at_lhs : self.get lhs with
  | none => simp only [parallel,at_lhs,Option.bind_eq_bind,Option.none_bind,reduceCtorEq] at done
  | some l =>
    cases at_rhs : self.get rhs with
    | none => simp only [parallel,at_lhs,at_rhs,Option.bind_eq_bind,Option.some_bind,Option.none_bind,reduceCtorEq] at done
    | some r =>
      refine ⟨l,r,rfl,rfl,?_⟩
      cases meet : hasIntersection l.channels r.channels
      · rw [parallel_eq_ok at_lhs at_rhs meet] at done; exact .inr ⟨rfl,(Option.some.inj done).symm⟩
      · rw [parallel_eq_error at_lhs at_rhs meet] at done; exact .inl ⟨rfl,(Option.some.inj done).symm⟩

/-- Everything `sequential` can do. -/
theorem sequential_cases {self : ArenaContext} {lhs rhs : Nat} {result : Nat × ArenaContext}
    (done : self.sequential lhs rhs = some result) :
    ∃ l r, self.get lhs = some l ∧ self.get rhs = some r ∧
      result = (self.len,self.push (.sequential lhs rhs (l.duration + r.duration)
        (dedup (sortUnstable (l.channels ++ r.channels))))) := by
  cases at_lhs : self.get lhs with
  | none => simp only [sequential,at_lhs,Option.bind_eq_bind,Option.none_bind,reduceCtorEq] at done
  | some l =>
    cases at_rhs : self.get rhs with
    | none => simp only [sequential,at_lhs,at_rhs,Option.bind_eq_bind,Option.some_bind,Option.none_bind,reduceCtorEq] at done
    | some r => exact ⟨l,r,rfl,rfl,(Option.some.inj ((sequential_eq at_lhs at_rhs).symm.trans done)).symm⟩

end ArenaContext

/-- An invariant that holds of the empty arena and survives every call holds of
    every reachable arena. -/
theorem Reachable.induction {P : ArenaContext → Prop} (empty : P .new)
    (step : ∀ a op b, P a → a.apply op = some b → P b) {a : ArenaContext} (reach : Reachable a) : P a := by
  obtain ⟨ops,ran⟩ := reach
  suffices ∀ ops (a b : ArenaContext), P a → a.run ops = some b → P b from this ops _ _ empty ran
  intro ops
  induction ops with
  | nil => intro a b pa ran; cases ran; exact pa
  | cons op ops ih =>
    intro a b pa ran
    simp only [ArenaContext.run,Option.bind_eq_some] at ran
    obtain ⟨next,applied,ran⟩ := ran
    exact ih next b (step a op next pa applied) ran

theorem Reachable.apply {a b : ArenaContext} {op : ArenaOp} (reach : Reachable a) (applied : a.apply op = some b) :
    Reachable b := by
  obtain ⟨ops,ran⟩ := reach
  refine ⟨ops ++ [op],?_⟩
  suffices ∀ ops (start : ArenaContext), start.run ops = some a → start.run (ops ++ [op]) = some b from
    this ops _ ran
  intro ops
  induction ops with
  | nil => intro start ran; cases ran; simp [ArenaContext.run,applied]
  | cons op' ops ih =>
    intro start ran
    simp only [ArenaContext.run,Option.bind_eq_some,List.cons_append] at ran ⊢
    obtain ⟨next,applied',ran⟩ := ran
    exact ⟨next,applied',ih next ran⟩

/-- Every call but `clear` leaves the arena as it was or appends one node. -/
theorem ArenaContext.apply_grows {a b : ArenaContext} {op : ArenaOp} (notClear : op ≠ .clear)
    (applied : a.apply op = some b) : b = a ∨ ∃ node, b = a.push node := by
  cases op with
  | atomic => cases applied; exact .inr ⟨_,rfl⟩
  | sequential x y =>
    obtain ⟨result,done,rfl⟩ := Option.map_eq_some'.mp applied
    obtain ⟨-,-,-,-,rfl⟩ := ArenaContext.sequential_cases done
    exact .inr ⟨_,rfl⟩
  | parallel x y =>
    obtain ⟨result,done,rfl⟩ := Option.map_eq_some'.mp applied
    obtain ⟨-,-,-,-,⟨-,rfl⟩ | ⟨-,rfl⟩⟩ := ArenaContext.parallel_cases done
    exacts [.inl rfl,.inr ⟨_,rfl⟩]
  | clear => exact absurd rfl notClear

theorem Reachable.sequential {a b : ArenaContext} {x y r : Nat} (reach : Reachable a)
    (done : a.sequential x y = some (r,b)) : Reachable b :=
  reach.apply (show a.apply (.sequential x y) = some b by simp [ArenaContext.apply,done])

theorem Reachable.parallel {a b : ArenaContext} {x y : Nat} {result : Except String Nat} (reach : Reachable a)
    (done : a.parallel x y = some (result,b)) : Reachable b :=
  reach.apply (show a.apply (.parallel x y) = some b by simp [ArenaContext.apply,done])

end Catseq.Arena
