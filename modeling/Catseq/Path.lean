import Mathlib.Algebra.Order.Ring.Nat
import Mathlib.Algebra.BigOperators.Group.List

/-!
The single-channel instruction buffer of `path.rs`: a channel, a list of steps
`(duration, opcode, payload)` and a running total duration. A path is built from
`new`, `with_capacity` or `identity` by `append`, `extend`, `align` and `clone`
(`Built`). Every step of the builder keeps the running total equal to the sum of
the step durations and keeps the channel (`built_invariants`); `extend` fails
exactly on a channel mismatch and then changes nothing, and `align` only pads.
`align` is `extend` by an identity (`align_eq_extend_identity`), `extend` is
associative but for one mix of channels (`extend_assoc_iff`), and the Python
iterator yields the steps in order, each as `get_step` returns it (`iter_drain`).
-/

namespace Catseq.Path

/-- `Step`: one operation of the buffer. -/
structure Step where
  duration : Nat
  opcode : UInt16
  payload : List UInt8
deriving DecidableEq, Repr

/-- `MorphismPath`. -/
structure MorphismPath where
  channelId : Nat
  steps : List Step
  totalDuration : Nat
deriving DecidableEq, Repr

namespace MorphismPath

/-- `new`: no steps, duration 0. -/
def new (channelId : Nat) : MorphismPath := ⟨channelId,[],0⟩

/-- `with_capacity`: the capacity only reserves memory. -/
def withCapacity (channelId _capacity : Nat) : MorphismPath := new channelId

/-- `append`: one more step, its duration added to the total. -/
def append (self : MorphismPath) (duration : Nat) (opcode : UInt16) (payload : List UInt8) : MorphismPath :=
  { self with steps := self.steps ++ [⟨duration,opcode,payload⟩], totalDuration := self.totalDuration + duration }

/-- `extend`: the other path's steps after this one's, if both are on one channel. -/
def extend (self other : MorphismPath) : Except String Unit × MorphismPath :=
  if self.channelId ≠ other.channelId then
    (.error ("Channel mismatch: " ++ toString self.channelId ++ " vs " ++ toString other.channelId),self)
  else
    (.ok (),{ self with steps := self.steps ++ other.steps,
                        totalDuration := self.totalDuration + other.totalDuration })

def len (self : MorphismPath) : Nat := self.steps.length

def isEmpty (self : MorphismPath) : Bool := self.steps.isEmpty

/-- `clone`: the payloads are shared, so the copy is the same path. -/
def clone (self : MorphismPath) : MorphismPath := self

/-- `identity`: a single wait of the duration, or no step for duration 0. -/
def identity (channelId duration : Nat) (opcode : UInt16) : MorphismPath :=
  if duration > 0 then { new channelId with steps := [⟨duration,opcode,[]⟩], totalDuration := duration }
  else new channelId

/-- `align`: a wait up to the target duration, if the path is shorter. -/
def align (self : MorphismPath) (targetDuration : Nat) (opcode : UInt16) : MorphismPath :=
  if self.totalDuration < targetDuration then
    { self with steps := self.steps ++ [⟨targetDuration - self.totalDuration,opcode,[]⟩],
                totalDuration := targetDuration }
  else self

/-- `get_step`. -/
def getStep (self : MorphismPath) (index : Nat) : Except String (Nat × UInt16 × List UInt8) :=
  match self.steps[index]? with
  | none => .error "Index out of bounds"
  | some step => .ok (step.duration,step.opcode,step.payload)

/-- The total is the sum of the step durations. -/
def TotalOk (self : MorphismPath) : Prop := self.totalDuration = (self.steps.map Step.duration).sum

end MorphismPath

open MorphismPath

/-- The paths the builder calls can produce; `extend` takes another built path. -/
inductive Built : MorphismPath → Prop
  | new (channelId : Nat) : Built (new channelId)
  | withCapacity (channelId capacity : Nat) : Built (withCapacity channelId capacity)
  | identity (channelId duration : Nat) (opcode : UInt16) : Built (identity channelId duration opcode)
  | append {p : MorphismPath} (built : Built p) (duration : Nat) (opcode : UInt16) (payload : List UInt8) :
      Built (p.append duration opcode payload)
  | extend {p q : MorphismPath} (built : Built p) (other : Built q) : Built (p.extend q).2
  | align {p : MorphismPath} (built : Built p) (targetDuration : Nat) (opcode : UInt16) :
      Built (p.align targetDuration opcode)
  | clone {p : MorphismPath} (built : Built p) : Built p.clone

variable {p q : MorphismPath}

@[simp] theorem append_channelId (duration : Nat) (opcode : UInt16) (payload : List UInt8) :
    (p.append duration opcode payload).channelId = p.channelId := rfl

@[simp] theorem extend_channelId : (p.extend q).2.channelId = p.channelId := by
  unfold extend; split <;> rfl

@[simp] theorem align_channelId (targetDuration : Nat) (opcode : UInt16) :
    (p.align targetDuration opcode).channelId = p.channelId := by
  unfold align; split <;> rfl

/-- `extend` succeeds exactly when the channels agree, and on failure changes nothing. -/
theorem extend_fails_iff :
    ((∃ msg, (p.extend q).1 = .error msg) ↔ p.channelId ≠ q.channelId) ∧
      ∀ msg, (p.extend q).1 = .error msg → (p.extend q).2 = p := by
  unfold extend
  split <;> simp_all

/-- `align` pads the path: its steps stay a prefix and the total becomes the larger of the two. -/
theorem align_pads (targetDuration : Nat) (opcode : UInt16) :
    p.steps.IsPrefix (p.align targetDuration opcode).steps ∧
      (p.align targetDuration opcode).totalDuration = max p.totalDuration targetDuration := by
  unfold align
  split
  · exact ⟨List.prefix_append _ _,(max_eq_right (le_of_lt ‹_›)).symm⟩
  · exact ⟨List.prefix_refl _,(max_eq_left (not_lt.mp ‹_›)).symm⟩

theorem totalOk_append (ok : p.TotalOk) (duration : Nat) (opcode : UInt16) (payload : List UInt8) :
    (p.append duration opcode payload).TotalOk := by
  unfold TotalOk at *
  simp [append,ok]

theorem totalOk_extend (ok : p.TotalOk) (ok' : q.TotalOk) : (p.extend q).2.TotalOk := by
  unfold extend
  split
  · exact ok
  · simp only [TotalOk,List.map_append,List.sum_append] at *
    omega

theorem totalOk_align (ok : p.TotalOk) (targetDuration : Nat) (opcode : UInt16) :
    (p.align targetDuration opcode).TotalOk := by
  unfold align
  split
  · simp only [TotalOk,List.map_append,List.sum_append] at *
    simp [← ok]
    omega
  · exact ok

theorem totalOk_identity (channelId duration : Nat) (opcode : UInt16) : (identity channelId duration opcode).TotalOk := by
  unfold identity
  split <;> simp [TotalOk,new]

theorem Built.totalOk (built : Built p) : p.TotalOk := by
  induction built with
  | new | withCapacity => rfl
  | identity => exact totalOk_identity ..
  | append _ _ _ _ ih => exact totalOk_append ih ..
  | extend _ _ ih ih' => exact totalOk_extend ih ih'
  | align _ _ _ ih => exact totalOk_align ih ..
  | clone _ ih => exact ih

/-- On every path the builder produces, the total is the sum of the step
    durations; no builder call changes the channel; `extend` fails exactly on a
    channel mismatch and then leaves the path as it was; `align` keeps the steps
    as a prefix and makes the total the larger of the old total and the target. -/
theorem built_invariants (built : Built p) :
    p.TotalOk ∧
      (∀ duration opcode payload, (p.append duration opcode payload).channelId = p.channelId) ∧
      (∀ q, (p.extend q).2.channelId = p.channelId ∧
        ((∃ msg, (p.extend q).1 = .error msg) ↔ p.channelId ≠ q.channelId) ∧
        ∀ msg, (p.extend q).1 = .error msg → (p.extend q).2 = p) ∧
      (∀ targetDuration opcode, (p.align targetDuration opcode).channelId = p.channelId ∧
        p.steps.IsPrefix (p.align targetDuration opcode).steps ∧
        (p.align targetDuration opcode).totalDuration = max p.totalDuration targetDuration) ∧
      p.clone = p :=
  ⟨built.totalOk,fun _ _ _ => rfl,fun _ => ⟨extend_channelId,extend_fails_iff⟩,
    fun _ _ => ⟨align_channelId _ _,align_pads _ _⟩,rfl⟩

theorem built_invariants_aligned :
    Built (((new 0).append 5 1 [1]).align 8 0) ∧ (((new 0).append 5 1 [1]).align 8 0).TotalOk ∧
      (∀ duration opcode payload, ((((new 0).append 5 1 [1]).align 8 0).append duration opcode payload).channelId = (((new 0).append 5 1 [1]).align 8 0).channelId) ∧
      (∀ q, ((((new 0).append 5 1 [1]).align 8 0).extend q).2.channelId = (((new 0).append 5 1 [1]).align 8 0).channelId ∧
        ((∃ msg, ((((new 0).append 5 1 [1]).align 8 0).extend q).1 = .error msg) ↔ (((new 0).append 5 1 [1]).align 8 0).channelId ≠ q.channelId) ∧
        ∀ msg, ((((new 0).append 5 1 [1]).align 8 0).extend q).1 = .error msg → ((((new 0).append 5 1 [1]).align 8 0).extend q).2 = (((new 0).append 5 1 [1]).align 8 0)) ∧
      (∀ targetDuration opcode, ((((new 0).append 5 1 [1]).align 8 0).align targetDuration opcode).channelId = (((new 0).append 5 1 [1]).align 8 0).channelId ∧
        (((new 0).append 5 1 [1]).align 8 0).steps.IsPrefix ((((new 0).append 5 1 [1]).align 8 0).align targetDuration opcode).steps ∧
        ((((new 0).append 5 1 [1]).align 8 0).align targetDuration opcode).totalDuration = max (((new 0).append 5 1 [1]).align 8 0).totalDuration targetDuration) ∧
      (((new 0).append 5 1 [1]).align 8 0).clone = (((new 0).append 5 1 [1]).align 8 0) :=
  have built : Built (((new 0).append 5 1 [1]).align 8 0) := .align (.append (.new 0) 5 1 [1]) 8 0
  ⟨built,built_invariants built⟩

/-! ### Composition laws -/

/-- `align` is the composite its comment names, `Self >> Id_(target - current)`:
    the path extended by the identity of the missing time on its own channel. -/
theorem align_eq_extend_identity (targetDuration : Nat) (opcode : UInt16) :
    p.align targetDuration opcode = (p.extend (identity p.channelId (targetDuration - p.totalDuration) opcode)).2 := by
  unfold align extend identity
  by_cases short : p.totalDuration < targetDuration
  · simp [short,Nat.add_sub_cancel' short.le,new]
  · simp [short,Nat.sub_eq_zero_of_le (not_lt.mp short),new]

/-- Extending by a composite is extending by its parts, unless the left path shares
    its channel with the last part only: then the composite is the middle path
    alone, and the two groupings differ unless the last part is empty. -/
theorem extend_assoc_iff {r : MorphismPath} :
    (p.extend (q.extend r).2).2 = ((p.extend q).2.extend r).2 ↔
      (p.channelId = r.channelId → p.channelId = q.channelId) ∨ (r.steps = [] ∧ r.totalDuration = 0) := by
  obtain ⟨c,steps,total⟩ := p
  unfold extend
  by_cases pq : c = q.channelId <;> by_cases qr : q.channelId = r.channelId <;> by_cases pr : c = r.channelId <;>
    simp_all [Nat.add_assoc]

/-! ### Iteration -/

/-- `PathIterator`: a path and the index of the next step. -/
structure PathIterator where
  path : MorphismPath
  index : Nat

/-- `__iter__`: an iterator from the first step. -/
def MorphismPath.iter (self : MorphismPath) : PathIterator := ⟨self,0⟩

namespace PathIterator

/-- `__next__`: the step at the index, which then moves on; nothing past the last step. -/
def next (self : PathIterator) : Option (Nat × UInt16 × List UInt8) × PathIterator :=
  if h : self.index ≥ self.path.steps.length then (none,self)
  else
    let step := self.path.steps.get ⟨self.index,Nat.lt_of_not_le h⟩
    (some (step.duration,step.opcode,step.payload),{ self with index := self.index + 1 })

/-- Python's iteration protocol: `__next__` until it returns nothing, at most `fuel` calls. -/
def drain : Nat → PathIterator → List (Nat × UInt16 × List UInt8)
  | 0, _ => []
  | fuel + 1, self =>
    match self.next with
    | (none,_) => []
    | (some step,rest) => step :: drain fuel rest

end PathIterator

open PathIterator

theorem drain_from (p : MorphismPath) (index : Nat) {fuel : Nat} (enough : p.len ≤ index + fuel) :
    drain fuel ⟨p,index⟩ = (p.steps.drop index).map fun s => (s.duration,s.opcode,s.payload) := by
  unfold len at enough
  induction fuel generalizing index with
  | zero => simp [drain,List.drop_eq_nil_of_le (Nat.add_zero index ▸ enough)]
  | succ fuel ih =>
    by_cases past : index ≥ p.steps.length
    · simp [drain,next,past,List.drop_eq_nil_of_le past]
    · rw [drain,next,dif_neg past,List.drop_eq_getElem_cons (Nat.lt_of_not_le past),List.map_cons,
        ← ih (index + 1) (by omega)]
      rfl

/-- Iterating a path from Python yields its steps in order, each as {get_step}
    returns it, and stops after the last one. -/
theorem iter_drain (p : MorphismPath) {fuel : Nat} (enough : p.len ≤ fuel) :
    p.iter.drain fuel = p.steps.map (fun s => (s.duration,s.opcode,s.payload)) ∧
      (List.range p.len).map p.getStep = (p.iter.drain fuel).map .ok := by
  have drained : p.iter.drain fuel = p.steps.map (fun s => (s.duration,s.opcode,s.payload)) := by
    simpa using drain_from p 0 (by omega)
  refine ⟨drained,List.ext_getElem (by simp [drained,len]) fun i inRange _ => ?_⟩
  have lt : i < p.steps.length := by simpa [len] using inRange
  simp [drained,getStep,List.getElem?_eq_getElem lt]

theorem iter_drain_aligned :
    (((new 0).append 5 1 [1]).align 8 0).len ≤ 3 ∧
      (((new 0).append 5 1 [1]).align 8 0).iter.drain 3 =
        (((new 0).append 5 1 [1]).align 8 0).steps.map (fun s => (s.duration,s.opcode,s.payload)) ∧
      (List.range (((new 0).append 5 1 [1]).align 8 0).len).map (((new 0).append 5 1 [1]).align 8 0).getStep =
        ((((new 0).append 5 1 [1]).align 8 0).iter.drain 3).map .ok :=
  ⟨by decide,iter_drain _ (by decide)⟩

end Catseq.Path
