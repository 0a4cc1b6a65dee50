import Catseq.Arena

/-!
The morphism algebra that an arena handle stands for: trees of atomic operations
under serial and parallel composition, with their duration, their channels and
their schedule. The schedule places every leaf occurrence at the sum of the
durations of its left siblings under serial composition, parallel composition
starting both sides together. A tree is well formed when every parallel
composition joins subtrees on disjoint channels; then the operations scheduled
on one channel never overlap in time (`slots_channel_chain`). These are the
meanings against which the arena (`Catseq.Unfolding`) and the two compilers are
proved.
-/

namespace Catseq.Algebra
open Catseq.Arena

/-- A composition tree: what a node of the arena unfolds to. -/
inductive Morphism where
  | atomic (channelId : Nat) (duration : Nat) (payload : AtomicPayload)
  | sequential (lhs rhs : Morphism)
  | parallel (lhs rhs : Morphism)
deriving DecidableEq, Repr

/-- One occurrence of an atomic operation in a schedule. -/
structure Slot where
  start : Nat
  channelId : Nat
  duration : Nat
  payload : AtomicPayload
deriving DecidableEq, Repr

/-- The operation `x` is over before `y` starts. -/
def Slot.Before (x y : Slot) : Prop := x.start + x.duration ≤ y.start

instance : IsTrans Slot Slot.Before := ⟨fun _ _ _ xy yz => by unfold Slot.Before at *; omega⟩

/-- Occurrences each over before the next one starts are sorted by start. -/
theorem Slot.sorted_of_chain {l : List Slot} (chain : l.Chain' Slot.Before) : l.Pairwise fun x y => x.start ≤ y.start :=
  (List.chain'_iff_pairwise.mp chain).imp fun {x _} before => (Nat.le_add_right x.start x.duration).trans before

/-- The same occurrence `d` cycles later. -/
def Slot.shift (d : Nat) (x : Slot) : Slot := { x with start := x.start + d }

namespace Morphism

/-- Serial composition adds durations, parallel composition takes the longer one. -/
def duration : Morphism → Nat
  | atomic _ duration _ => duration
  | sequential lhs rhs => lhs.duration + rhs.duration
  | parallel lhs rhs => max lhs.duration rhs.duration

variable {lhs rhs : Morphism} {channelId duration : Nat} {payload : AtomicPayload}

@[simp] theorem duration_atomic : (atomic channelId duration payload).duration = duration := rfl
@[simp] theorem duration_sequential : (sequential lhs rhs).duration = lhs.duration + rhs.duration := rfl
@[simp] theorem duration_parallel : (parallel lhs rhs).duration = max lhs.duration rhs.duration := rfl

/-- The channel of every leaf, left to right. -/
def leafChannels : Morphism → List Nat
  | atomic channelId _ _ => [channelId]
  | sequential lhs rhs | parallel lhs rhs => lhs.leafChannels ++ rhs.leafChannels

@[simp] theorem leafChannels_atomic : (atomic channelId duration payload).leafChannels = [channelId] := rfl
@[simp] theorem leafChannels_sequential :
    (sequential lhs rhs).leafChannels = lhs.leafChannels ++ rhs.leafChannels := rfl
@[simp] theorem leafChannels_parallel :
    (parallel lhs rhs).leafChannels = lhs.leafChannels ++ rhs.leafChannels := rfl

/-- Every parallel composition joins subtrees on disjoint channels. -/
def WellFormed : Morphism → Prop
  | atomic .. => True
  | sequential lhs rhs => lhs.WellFormed ∧ rhs.WellFormed
  | parallel lhs rhs => lhs.WellFormed ∧ rhs.WellFormed ∧ ∀ c ∈ lhs.leafChannels, c ∉ rhs.leafChannels

instance decidableWellFormed : (t : Morphism) → Decidable t.WellFormed
  | atomic .. => isTrue trivial
  | sequential lhs rhs =>
    haveI := decidableWellFormed lhs; haveI := decidableWellFormed rhs
    inferInstanceAs (Decidable (_ ∧ _))
  | parallel lhs rhs =>
    haveI := decidableWellFormed lhs; haveI := decidableWellFormed rhs
    inferInstanceAs (Decidable (_ ∧ _ ∧ _))

/-- The number of nodes of the tree: how often a work-stack loop pops. -/
def size : Morphism → Nat
  | atomic .. => 1
  | sequential lhs rhs | parallel lhs rhs => lhs.size + rhs.size + 1

theorem size_pos (t : Morphism) : 0 < t.size := by
  cases t <;> simp only [size] <;> omega

/-- The number of leaf occurrences: what `leaf_count` counts. -/
def leafCount : Morphism → Nat
  | atomic .. => 1
  | sequential lhs rhs | parallel lhs rhs => lhs.leafCount + rhs.leafCount

/-- The number of nodes on a longest path from the root to a leaf: what `max_depth` measures. -/
def depth : Morphism → Nat
  | atomic .. => 1
  | sequential lhs rhs | parallel lhs rhs => max lhs.depth rhs.depth + 1

theorem depth_pos (t : Morphism) : 0 < t.depth := by
  cases t <;> simp only [depth] <;> omega

/-- A tree of depth `d` has at most `2 ^ (d - 1)` leaf occurrences. -/
theorem leafCount_le_two_pow (t : Morphism) : t.leafCount ≤ 2 ^ (t.depth - 1) := by
  induction t with
  | atomic => simp [leafCount,depth]
  | sequential lhs rhs ihl ihr | parallel lhs rhs ihl ihr =>
    have hl := ihl.trans (Nat.pow_le_pow_right two_pos (Nat.sub_le_sub_right (le_max_left lhs.depth rhs.depth) 1))
    have hr := ihr.trans (Nat.pow_le_pow_right two_pos (Nat.sub_le_sub_right (le_max_right lhs.depth rhs.depth) 1))
    rw [leafCount,depth,Nat.add_sub_cancel,← Nat.two_pow_pred_add_two_pow_pred (lt_max_of_lt_left lhs.depth_pos)]
    exact Nat.add_le_add hl hr

/-- The schedule of the tree started at `start`, leaf occurrences left to right. -/
def slots : Morphism → Nat → List Slot
  | atomic channelId duration payload, start => [⟨start,channelId,duration,payload⟩]
  | sequential lhs rhs, start => lhs.slots start ++ rhs.slots (start + lhs.duration)
  | parallel lhs rhs, start => lhs.slots start ++ rhs.slots start

theorem leafChannels_ne_nil (t : Morphism) : t.leafChannels ≠ [] := by
  induction t with
  | atomic => simp [leafChannels]
  | sequential _ _ ih _ | parallel _ _ ih _ => simp [leafChannels,ih]

theorem length_slots (t : Morphism) (start : Nat) : (t.slots start).length = t.leafCount := by
  induction t generalizing start with
  | atomic => rfl
  | sequential _ _ ihl ihr | parallel _ _ ihl ihr => simp only [slots,leafCount,List.length_append,ihl,ihr]

theorem slots_shift (t : Morphism) (start d : Nat) :
    t.slots (start + d) = (t.slots start).map (Slot.shift d) := by
  induction t generalizing start with
  | atomic => rfl
  | sequential lhs rhs ihl ihr =>
    simp only [slots,List.map_append,← ihl,← ihr,Nat.add_right_comm]
  | parallel lhs rhs ihl ihr => simp only [slots,List.map_append,ihl,ihr]

/-- The leftmost leaf occurrence starts with the tree. -/
theorem exists_slot_start (t : Morphism) (start : Nat) : ∃ x ∈ t.slots start, x.start = start := by
  induction t generalizing start with
  | atomic => exact ⟨_,List.mem_singleton_self _,rfl⟩
  | sequential lhs _ ihl _ | parallel lhs _ ihl _ =>
    obtain ⟨x,occ,first⟩ := ihl start
    exact ⟨x,List.mem_append_left _ occ,first⟩

/-- Some leaf occurrence ends when the tree does: the schedule is tight. -/
theorem exists_slot_end (t : Morphism) (start : Nat) :
    ∃ x ∈ t.slots start, x.start + x.duration = start + t.duration := by
  induction t generalizing start with
  | atomic => exact ⟨_,List.mem_singleton_self _,rfl⟩
  | sequential lhs rhs _ ihr =>
    obtain ⟨x,occ,last⟩ := ihr (start + lhs.duration)
    exact ⟨x,List.mem_append_right _ occ,by rw [last,duration_sequential,Nat.add_assoc]⟩
  | parallel lhs rhs ihl ihr =>
    rcases le_total rhs.duration lhs.duration with longer | longer
    · obtain ⟨x,occ,last⟩ := ihl start
      exact ⟨x,List.mem_append_left _ occ,by rw [last,duration_parallel,max_eq_left longer]⟩
    · obtain ⟨x,occ,last⟩ := ihr start
      exact ⟨x,List.mem_append_right _ occ,by rw [last,duration_parallel,max_eq_right longer]⟩

/-- Every occurrence starts no earlier than the tree. -/
theorem start_le_of_mem_slots {t : Morphism} {start : Nat} {x : Slot} (mem : x ∈ t.slots start) :
    start ≤ x.start := by
  induction t generalizing start with
  | atomic => simp [slots] at mem; rw [mem]
  | sequential lhs rhs ihl ihr =>
    rcases List.mem_append.mp mem with m | m
    · exact ihl m
    · have := ihr m; omega
  | parallel lhs rhs ihl ihr => rcases List.mem_append.mp mem with m | m <;> [exact ihl m; exact ihr m]

/-- Every occurrence is over when the tree is. -/
theorem end_le_of_mem_slots {t : Morphism} {start : Nat} {x : Slot} (mem : x ∈ t.slots start) :
    x.start + x.duration ≤ start + t.duration := by
  induction t generalizing start with
  | atomic => simp [slots] at mem; simp [mem,duration]
  | sequential lhs rhs ihl ihr =>
    simp only [duration]
    rcases List.mem_append.mp mem with m | m
    · have := ihl m; omega
    · have := ihr m; omega
  | parallel lhs rhs ihl ihr =>
    simp only [duration]
    rcases List.mem_append.mp mem with m | m
    · have := ihl m; omega
    · have := ihr m; omega

theorem channel_mem_of_mem_slots {t : Morphism} {start : Nat} {x : Slot} (mem : x ∈ t.slots start) :
    x.channelId ∈ t.leafChannels := by
  induction t generalizing start with
  | atomic => simp [slots] at mem; simp [mem,leafChannels]
  | sequential lhs rhs ihl ihr | parallel lhs rhs ihl ihr =>
    rcases List.mem_append.mp mem with m | m
    · exact List.mem_append_left _ (ihl m)
    · exact List.mem_append_right _ (ihr m)

theorem filter_slots_of_not_mem {t : Morphism} {c : Nat} (outside : c ∉ t.leafChannels) (start : Nat) :
    (t.slots start).filter (fun x => x.channelId = c) = [] :=
  List.filter_eq_nil_iff.mpr fun x mem same => outside (by simpa using (of_decide_eq_true same) ▸ channel_mem_of_mem_slots mem)

/-- On one channel of a well-formed tree, each operation is over before the next one starts. -/
theorem slots_channel_chain {t : Morphism} (wf : t.WellFormed) (c start : Nat) :
    ((t.slots start).filter fun x => x.channelId = c).Chain' Slot.Before := by
  induction t generalizing start with
  | atomic => simp only [slots,List.filter_cons,List.filter_nil]; split <;> simp
  | sequential lhs rhs ihl ihr =>
    simp only [slots,List.filter_append]
    refine List.chain'_append.mpr ⟨ihl wf.1 start,ihr wf.2 _,fun x xl y yr => ?_⟩
    have xm := List.mem_of_mem_filter (List.mem_of_mem_getLast? xl)
    have ym := List.mem_of_mem_filter (List.mem_of_mem_head? yr)
    exact (end_le_of_mem_slots xm).trans (start_le_of_mem_slots ym)
  | parallel lhs rhs ihl ihr =>
    obtain ⟨wl,wr,apart⟩ := wf
    simp only [slots,List.filter_append]
    by_cases inLeft : c ∈ lhs.leafChannels
    · rw [filter_slots_of_not_mem (apart c inLeft),List.append_nil]; exact ihl wl start
    · rw [filter_slots_of_not_mem inLeft,List.nil_append]; exact ihr wr start

end Morphism

end Catseq.Algebra
