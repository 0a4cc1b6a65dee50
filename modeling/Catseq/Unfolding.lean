import Catseq.Algebra

/-!
The arena as a representation of the algebra. `tree` unfolds a node into the
composition tree it stands for, following child handles; a handle that does not
point to an earlier node unfolds to nothing. The arena invariant `Valid` says that
every node unfolds to a well-formed tree that its stored duration and channel
list summarize. It holds of the empty arena and every call keeps it
(`apply_valid`), so it holds of every reachable arena, and the laws the crate
maintains by construction follow (`reachable_nodeLaws`): children come first,
durations obey the algebra, channel lists are strictly increasing and list the
channels of the atomic nodes below, and parallel children use disjoint channels.
-/

namespace Catseq.Unfolding
open Catseq.Arena Catseq.Algebra

def tree (a : ArenaContext) (n : Nat) : Option Morphism :=
  match a.get n with
  | some (.atomic channelId duration payload) => some (.atomic channelId duration payload)
  | some (.sequential lhs rhs _ _) =>
    if _ : lhs < n ∧ rhs < n then
      (tree a lhs).bind fun l => (tree a rhs).map fun r => .sequential l r
    else none
  | some (.parallel lhs rhs _ _) =>
    if _ : lhs < n ∧ rhs < n then
      (tree a lhs).bind fun l => (tree a rhs).map fun r => .parallel l r
    else none
  | none => none
termination_by n
decreasing_by all_goals simp_wf; omega

/-- What a node unfolds to, given the trees of its children. -/
def Unfolds (a : ArenaContext) (n : Nat) : MorphismData → Morphism → Prop
  | .atomic channelId duration payload, t => t = .atomic channelId duration payload
  | .sequential lhs rhs _ _, t =>
    lhs < n ∧ rhs < n ∧ ∃ l r, tree a lhs = some l ∧ tree a rhs = some r ∧ t = .sequential l r
  | .parallel lhs rhs _ _, t =>
    lhs < n ∧ rhs < n ∧ ∃ l r, tree a lhs = some l ∧ tree a rhs = some r ∧ t = .parallel l r

/-- The unfolding equation, one case per kind of node. -/
theorem tree_eq_some {a : ArenaContext} {n : Nat} {t : Morphism} :
    tree a n = some t ↔ ∃ node, a.get n = some node ∧ Unfolds a n node t := by
  rw [tree]
  cases a.get n with
  | none => simp only [reduceCtorEq,false_and,exists_false]
  | some node =>
    cases node with
    | atomic =>
      simp only [Option.some.injEq,exists_eq_left',Unfolds]
      exact eq_comm
    | sequential lhs rhs | parallel lhs rhs =>
      simp only [Unfolds,Option.some.injEq,exists_eq_left']
      by_cases below : lhs < n ∧ rhs < n
      · rw [dif_pos below]
        simp only [below,true_and,Option.bind_eq_some,Option.map_eq_some']
        constructor
        · rintro ⟨l,hl,r,hr,rfl⟩
          exact ⟨l,r,hl,hr,rfl⟩
        · rintro ⟨l,r,hl,hr,rfl⟩
          exact ⟨l,hl,r,hr,rfl⟩
      · rw [dif_neg below]
        exact iff_of_false (by simp) fun ⟨hl,hr,_⟩ => below ⟨hl,hr⟩

theorem tree_of_get {a : ArenaContext} {n : Nat} {node : MorphismData} {t : Morphism}
    (at_n : a.get n = some node) (unfolds : Unfolds a n node t) : tree a n = some t :=
  tree_eq_some.mpr ⟨node,at_n,unfolds⟩

theorem unfolds_of_tree {a : ArenaContext} {n : Nat} {node : MorphismData} {t : Morphism}
    (at_n : a.get n = some node) (unfolded : tree a n = some t) : Unfolds a n node t := by
  obtain ⟨node',at_n',unfolds⟩ := tree_eq_some.mp unfolded
  rw [at_n] at at_n'
  cases at_n'
  exact unfolds

/-- What a node unfolds to depends only on the trees of the nodes below it. -/
theorem unfolds_congr {a b : ArenaContext} {n : Nat} (same : ∀ m < n, tree a m = tree b m) (node : MorphismData)
    (t : Morphism) : Unfolds a n node t ↔ Unfolds b n node t := by
  cases node with
  | atomic => exact Iff.rfl
  | sequential lhs rhs | parallel lhs rhs =>
    simp only [Unfolds]
    constructor <;> rintro ⟨hl,hr,rest⟩ <;> exact ⟨hl,hr,by simpa only [same lhs hl,same rhs hr] using rest⟩

/-- Appending a node leaves the unfolding of every earlier node alone. -/
theorem tree_push (a : ArenaContext) (node : MorphismData) {n : Nat} (lt : n < a.len) :
    tree (a.push node) n = tree a n := by
  induction n using Nat.strong_induction_on with
  | _ n ih =>
    apply Option.ext
    intro t
    simp only [Option.mem_def,tree_eq_some,a.get_push_lt node lt]
    exact exists_congr fun nd => and_congr_right fun _ =>
      unfolds_congr (fun m below => ih m below (by omega)) nd t

/-- The cached metadata of a node describe the tree it unfolds to. -/
structure Summarizes (node : MorphismData) (t : Morphism) : Prop where
  wellFormed : t.WellFormed
  duration_eq : node.duration = t.duration
  channels_sorted : node.channels.Sorted (· < ·)
  mem_channels : ∀ c, c ∈ node.channels ↔ c ∈ t.leafChannels

/-- The arena invariant: every node unfolds to a tree that its metadata summarize. -/
def Valid (a : ArenaContext) : Prop :=
  ∀ n node, a.get n = some node → ∃ t, tree a n = some t ∧ Summarizes node t

theorem unfolds_push {a : ArenaContext} (extra : MorphismData) {n : Nat} (le : n ≤ a.len)
    {node : MorphismData} {t : Morphism} (unfolds : Unfolds a n node t) : Unfolds (a.push extra) n node t := by
  cases node <;> simp only [Unfolds] at unfolds ⊢
  all_goals first
    | exact unfolds
    | obtain ⟨hl,hr,l,r,tl,tr,rfl⟩ := unfolds
      exact ⟨hl,hr,l,r,(tree_push a extra (by omega)).trans tl,(tree_push a extra (by omega)).trans tr,rfl⟩

theorem Valid.summarizes {a : ArenaContext} (valid : Valid a) {n : Nat} {node : MorphismData} {t : Morphism}
    (at_n : a.get n = some node) (unfolded : tree a n = some t) : Summarizes node t := by
  obtain ⟨t',unfolded',summary⟩ := valid n node at_n
  rw [unfolded] at unfolded'
  cases unfolded'
  exact summary

/-! ### Every call keeps the invariant -/

theorem valid_new : Valid .new := fun n node at_n => by simp at at_n

/-- Appending a node that unfolds to a tree it summarizes keeps the invariant. -/
theorem valid_push {a : ArenaContext} {node : MorphismData} {t : Morphism} (valid : Valid a)
    (unfolds : Unfolds a a.len node t) (summary : Summarizes node t) : Valid (a.push node) := by
  intro n node' at_n
  rw [a.get_push] at at_n
  split_ifs at at_n with lt same
  · obtain ⟨t',unfolded,summary'⟩ := valid n node' at_n
    exact ⟨t',(tree_push a node lt).trans unfolded,summary'⟩
  · subst same
    cases at_n
    exact ⟨t,tree_of_get (a.get_push_len _) (unfolds_push _ le_rfl unfolds),summary⟩

theorem summarizes_atomic (channelId duration : Nat) (payload : AtomicPayload) :
    Summarizes (.atomic channelId duration payload) (.atomic channelId duration payload) :=
  ⟨trivial,rfl,List.sorted_singleton _,fun _ => Iff.rfl⟩

theorem summarizes_sequential {l r : MorphismData} {tl tr : Morphism} (sl : Summarizes l tl) (sr : Summarizes r tr)
    (lhs rhs : Nat) :
    Summarizes (.sequential lhs rhs (l.duration + r.duration) (dedup (sortUnstable (l.channels ++ r.channels))))
      (.sequential tl tr) where
  wellFormed := ⟨sl.wellFormed,sr.wellFormed⟩
  duration_eq := by simp [sl.duration_eq,sr.duration_eq]
  channels_sorted := dedup_sorted (sortUnstable_sorted _)
  mem_channels c := by simp [mem_dedup,mem_sortUnstable,sl.mem_channels,sr.mem_channels]

theorem summarizes_parallel {l r : MorphismData} {tl tr : Morphism} (sl : Summarizes l tl) (sr : Summarizes r tr)
    (apart : hasIntersection l.channels r.channels = false) (lhs rhs : Nat) :
    Summarizes (.parallel lhs rhs (max l.duration r.duration) (sortUnstable (l.channels ++ r.channels)))
      (.parallel tl tr) := by
  have disjoint : ∀ c ∈ l.channels, c ∉ r.channels := by
    intro c cl cr
    have := (hasIntersection_iff sl.channels_sorted sr.channels_sorted).mpr ⟨c,cl,cr⟩
    rw [apart] at this
    exact Bool.false_ne_true this
  refine ⟨⟨sl.wellFormed,sr.wellFormed,fun c cl cr => ?_⟩,?_,?_,fun c => ?_⟩
  · exact disjoint c ((sl.mem_channels c).mpr cl) ((sr.mem_channels c).mpr cr)
  · simp [sl.duration_eq,sr.duration_eq]
  · exact sortUnstable_sorted_lt sl.channels_sorted sr.channels_sorted disjoint
  · simp [mem_sortUnstable,sl.mem_channels,sr.mem_channels]

/-- Every call keeps the invariant. -/
theorem apply_valid {a b : ArenaContext} {op : ArenaOp} (valid : Valid a) (applied : a.apply op = some b) :
    Valid b := by
  cases op with
  | atomic channelId duration opcode data =>
    cases applied
    exact valid_push valid rfl (summarizes_atomic ..)
  | sequential lhs rhs =>
    obtain ⟨result,done,rfl⟩ := Option.map_eq_some'.mp applied
    obtain ⟨l,r,at_l,at_r,rfl⟩ := ArenaContext.sequential_cases done
    obtain ⟨tl,ul,sl⟩ := valid lhs l at_l
    obtain ⟨tr,ur,sr⟩ := valid rhs r at_r
    exact valid_push valid ⟨a.get_lt at_l,a.get_lt at_r,tl,tr,ul,ur,rfl⟩ (summarizes_sequential sl sr lhs rhs)
  | parallel lhs rhs =>
    obtain ⟨result,done,rfl⟩ := Option.map_eq_some'.mp applied
    obtain ⟨l,r,at_l,at_r,⟨-,rfl⟩ | ⟨apart,rfl⟩⟩ := ArenaContext.parallel_cases done
    · exact valid
    · obtain ⟨tl,ul,sl⟩ := valid lhs l at_l
      obtain ⟨tr,ur,sr⟩ := valid rhs r at_r
      exact valid_push valid ⟨a.get_lt at_l,a.get_lt at_r,tl,tr,ul,ur,rfl⟩ (summarizes_parallel sl sr apart lhs rhs)
  | clear =>
    cases applied
    exact valid_new

theorem reachable_valid {a : ArenaContext} (reach : Reachable a) : Valid a :=
  reach.induction valid_new fun _ _ _ => apply_valid

/-! ### The node laws -/

/-- A path of child handles leads from `n` to `m`. -/
def Reaches (a : ArenaContext) : Nat → Nat → Prop :=
  Relation.ReflTransGen fun n m => ∃ node, a.get n = some node ∧ m ∈ node.children

/-- An atomic node on channel `c` is reachable from `n`. -/
def LeafChannel (a : ArenaContext) (n c : Nat) : Prop :=
  ∃ m, Reaches a n m ∧ ∃ duration payload, a.get m = some (.atomic c duration payload)

/-- The duration law of the algebra, on the stored durations. -/
def DurationLaw (a : ArenaContext) : MorphismData → Prop
  | .atomic .. => True
  | .sequential lhs rhs duration _ =>
    ∃ l r, a.get lhs = some l ∧ a.get rhs = some r ∧ duration = l.duration + r.duration
  | .parallel lhs rhs duration _ =>
    ∃ l r, a.get lhs = some l ∧ a.get rhs = some r ∧ duration = max l.duration r.duration

/-- The children of a parallel node reach atomic nodes on disjoint channels. -/
def ParallelDisjoint (a : ArenaContext) : MorphismData → Prop
  | .parallel lhs rhs _ _ => ∀ c, LeafChannel a lhs c → ¬ LeafChannel a rhs c
  | _ => True

/-- What the crate maintains by construction of the node `n` of an arena. -/
structure NodeLaws (a : ArenaContext) (n : Nat) (node : MorphismData) : Prop where
  children_lt : ∀ m ∈ node.children, m < n
  duration_law : DurationLaw a node
  channels_ne_nil : node.channels ≠ []
  channels_sorted : node.channels.Sorted (· < ·)
  mem_channels : ∀ c, c ∈ node.channels ↔ LeafChannel a n c
  parallel_disjoint : ParallelDisjoint a node

/-- On a valid arena the stored durations obey the algebra. -/
theorem Valid.durationLaw {a : ArenaContext} (valid : Valid a) {n : Nat} {node : MorphismData}
    (at_n : a.get n = some node) : DurationLaw a node := by
  obtain ⟨t,unfolded,summary⟩ := valid n node at_n
  have unfolds := unfolds_of_tree at_n unfolded
  cases node with
  | atomic => trivial
  | sequential | parallel =>
    obtain ⟨-,-,l,r,ul,ur,rfl⟩ := unfolds
    obtain ⟨nl,at_l,-⟩ := tree_eq_some.mp ul
    obtain ⟨nr,at_r,-⟩ := tree_eq_some.mp ur
    refine ⟨nl,nr,at_l,at_r,?_⟩
    have stored := summary.duration_eq
    rw [(valid.summarizes at_l ul).duration_eq,(valid.summarizes at_r ur).duration_eq]
    exact stored

theorem leafChannel_iff {a : ArenaContext} {n c : Nat} {node : MorphismData} (at_n : a.get n = some node) :
    LeafChannel a n c ↔ (∃ duration payload, node = .atomic c duration payload) ∨
      ∃ m ∈ node.children, LeafChannel a m c := by
  constructor
  · rintro ⟨m,path,duration,payload,at_m⟩
    rcases Relation.ReflTransGen.cases_head_iff.mp path with rfl | ⟨k,⟨node',at_n',child⟩,path⟩
    · rw [at_n] at at_m; cases at_m; exact .inl ⟨duration,payload,rfl⟩
    · rw [at_n] at at_n'; cases at_n'; exact .inr ⟨k,child,m,path,duration,payload,at_m⟩
  · rintro (⟨duration,payload,rfl⟩ | ⟨k,child,m,path,duration,payload,at_m⟩)
    · exact ⟨n,.refl,duration,payload,at_n⟩
    · exact ⟨m,.head ⟨node,at_n,child⟩ path,duration,payload,at_m⟩

/-- The channels of a node's tree are those of the atomic nodes reachable from it. -/
theorem mem_leafChannels_iff {a : ArenaContext} {n : Nat} {t : Morphism} (unfolded : tree a n = some t) (c : Nat) :
    c ∈ t.leafChannels ↔ LeafChannel a n c := by
  induction n using Nat.strong_induction_on generalizing t with
  | _ n ih =>
    obtain ⟨node,at_n,unfolds⟩ := tree_eq_some.mp unfolded
    rw [leafChannel_iff at_n]
    cases node with
    | atomic => cases unfolds; simp [eq_comm]
    | sequential lhs rhs | parallel lhs rhs =>
      obtain ⟨hl,hr,l,r,ul,ur,rfl⟩ := unfolds
      simp [ih lhs hl ul,ih rhs hr ur]

/-- Every node of a reachable arena obeys the laws the crate maintains by construction. -/
theorem reachable_nodeLaws {a : ArenaContext} (reach : Reachable a) {n : Nat} {node : MorphismData}
    (at_n : a.get n = some node) : NodeLaws a n node := by
  have valid := reachable_valid reach
  obtain ⟨t,unfolded,summary⟩ := valid n node at_n
  have unfolds := unfolds_of_tree at_n unfolded
  have mem (c : Nat) : c ∈ node.channels ↔ LeafChannel a n c :=
    (summary.mem_channels c).trans (mem_leafChannels_iff unfolded c)
  refine ⟨?_,valid.durationLaw at_n,?_,summary.channels_sorted,mem,?_⟩
  · cases node with
    | atomic => simp
    | sequential | parallel => obtain ⟨hl,hr,-⟩ := unfolds; simp [hl,hr]
  · obtain ⟨c,member⟩ := List.exists_mem_of_ne_nil _ t.leafChannels_ne_nil
    exact List.ne_nil_of_mem ((summary.mem_channels c).mpr member)
  · cases node with
    | parallel lhs rhs =>
      obtain ⟨-,-,l,r,ul,ur,rfl⟩ := unfolds
      intro c inLeft inRight
      exact summary.wellFormed.2.2 c ((mem_leafChannels_iff ul c).mpr inLeft) ((mem_leafChannels_iff ur c).mpr inRight)
    | _ => trivial

/-- `atomic(0, 100)` and `atomic(1, 50)` on channels 0 and 1, composed in series. -/
def serialLeaves : ArenaContext := ⟨[.atomic 0 100 ⟨1,[1]⟩,.atomic 1 50 ⟨2,[2]⟩,.sequential 0 1 150 [0,1]]⟩

theorem serialLeaves_reachable : Reachable serialLeaves := ⟨[.atomic 0 100 1 [1],.atomic 1 50 2 [2],.sequential 0 1],by decide⟩

theorem reachable_nodeLaws_sequential :
    Reachable serialLeaves ∧
      ArenaContext.get serialLeaves 2 =
        some (.sequential 0 1 150 [0,1]) ∧
      NodeLaws serialLeaves 2
        (.sequential 0 1 150 [0,1]) :=
  ⟨serialLeaves_reachable,rfl,reachable_nodeLaws serialLeaves_reachable rfl⟩

/-! ### Reachability in a valid arena -/

section Reaches

variable {a : ArenaContext} {n m : Nat}

/-- A node reaches itself and whatever its children reach. -/
theorem reaches_iff {node : MorphismData} (at_n : a.get n = some node) :
    Reaches a n m ↔ m = n ∨ ∃ c ∈ node.children, Reaches a c m := by
  constructor
  · intro path
    rcases Relation.ReflTransGen.cases_head_iff.mp path with rfl | ⟨c,⟨node',at_n',child⟩,rest⟩
    · exact .inl rfl
    · rw [at_n,Option.some.injEq] at at_n'
      subst at_n'
      exact .inr ⟨c,child,rest⟩
  · rintro (rfl | ⟨c,child,rest⟩)
    · exact .refl
    · exact .head ⟨node,at_n,child⟩ rest

theorem Valid.child_lt (valid : Valid a) {node : MorphismData} (at_n : a.get n = some node) {c : Nat}
    (child : c ∈ node.children) : c < n := by
  obtain ⟨t,unfolded,-⟩ := valid n node at_n
  have unfolds := unfolds_of_tree at_n unfolded
  cases node with
  | atomic => cases child
  | sequential | parallel =>
    obtain ⟨hl,hr,-⟩ := unfolds
    rcases List.mem_pair.mp child with rfl | rfl
    exacts [hl,hr]

/-- Whatever a node of a valid arena reaches lies at or below it. -/
theorem Valid.le_of_reaches (valid : Valid a) (path : Reaches a n m) : m ≤ n := by
  induction path using Relation.ReflTransGen.head_induction_on with
  | refl => exact le_rfl
  | head step _ ih =>
    obtain ⟨node,at_n,child⟩ := step
    exact ih.trans (valid.child_lt at_n child).le

/-- Appending a node changes nothing reachable from the old nodes. -/
theorem reaches_push (valid : Valid a) (node : MorphismData) (lt : n < a.len) :
    Reaches (a.push node) n m ↔ Reaches a n m := by
  constructor
  · intro path
    induction path using Relation.ReflTransGen.head_induction_on with
    | refl => exact .refl
    | head step _ ih =>
      obtain ⟨nd,at_n,child⟩ := step
      rw [a.get_push_lt node lt] at at_n
      exact .head ⟨nd,at_n,child⟩ (ih ((valid.child_lt at_n child).trans lt))
  · exact Relation.ReflTransGen.mono fun k c ⟨nd,at_k,child⟩ => ⟨nd,by rw [a.get_push_lt node (a.get_lt at_k),at_k],child⟩

end Reaches

/-- `parallel` on valid handles of a reachable arena returns an error exactly when
    an atomic node reachable from one handle and one reachable from the other share
    a channel, and then leaves the nodes as they were; otherwise it appends one
    parallel node of the two handles and returns its handle, the old node count. -/
theorem parallel_error_iff {a : ArenaContext} (reach : Reachable a) {x y : Nat} (hx : x < a.len) (hy : y < a.len) :
    ∃ result b, a.parallel x y = some (result,b) ∧
      ((∃ msg, result = .error msg) ↔ ∃ c, LeafChannel a x c ∧ LeafChannel a y c) ∧
      (∀ msg, result = .error msg → msg = "Parallel composition requires disjoint channels" ∧ b.nodes = a.nodes) ∧
      ∀ r, result = .ok r → r = a.len ∧ ∃ duration channels, b.nodes = a.nodes ++ [.parallel x y duration channels] := by
  have valid := reachable_valid reach
  obtain ⟨l,at_x⟩ := a.get_isSome hx
  obtain ⟨r,at_y⟩ := a.get_isSome hy
  obtain ⟨tl,ul,sl⟩ := valid x l at_x
  obtain ⟨tr,ur,sr⟩ := valid y r at_y
  have meet : hasIntersection l.channels r.channels = true ↔ ∃ c, LeafChannel a x c ∧ LeafChannel a y c := by
    rw [hasIntersection_iff sl.channels_sorted sr.channels_sorted]
    exact exists_congr fun c => and_congr ((sl.mem_channels c).trans (mem_leafChannels_iff ul c))
      ((sr.mem_channels c).trans (mem_leafChannels_iff ur c))
  cases h : hasIntersection l.channels r.channels
  · refine ⟨_,_,ArenaContext.parallel_eq_ok at_x at_y h,iff_of_false (fun ⟨_,err⟩ => nomatch err) ?_,
      (fun _ err => nomatch err),fun _ ok => ⟨(Except.ok.inj ok).symm,_,_,rfl⟩⟩
    rw [← meet,h]
    exact Bool.false_ne_true
  · refine ⟨_,_,ArenaContext.parallel_eq_error at_x at_y h,iff_of_true ⟨_,rfl⟩ (meet.mp h),fun msg err => ?_,
      fun _ ok => nomatch ok⟩
    cases err
    exact ⟨rfl,rfl⟩

/-- Two operations on channel 0. -/
def sameChannelPair : ArenaContext := ⟨[.atomic 0 100 ⟨1,[]⟩,.atomic 0 100 ⟨1,[]⟩]⟩

theorem sameChannelPair_reachable : Reachable sameChannelPair := ⟨[.atomic 0 100 1 [],.atomic 0 100 1 []],by decide⟩

theorem parallel_error_iff_same_channel :
    Reachable sameChannelPair ∧ 0 < ArenaContext.len sameChannelPair ∧
      1 < ArenaContext.len sameChannelPair ∧
    ∃ result b, ArenaContext.parallel sameChannelPair 0 1 = some (result,b) ∧
      ((∃ msg, result = .error msg) ↔
        ∃ c, LeafChannel sameChannelPair 0 c ∧ LeafChannel sameChannelPair 1 c) ∧
      (∀ msg, result = .error msg → msg = "Parallel composition requires disjoint channels" ∧
        b.nodes = ArenaContext.nodes sameChannelPair) ∧
      ∀ r, result = .ok r → r = ArenaContext.len sameChannelPair ∧
        ∃ duration channels, b.nodes = ArenaContext.nodes sameChannelPair ++ [.parallel 0 1 duration channels] :=
  ⟨sameChannelPair_reachable,by decide,by decide,parallel_error_iff sameChannelPair_reachable (by decide) (by decide)⟩

end Catseq.Unfolding
