import Mathlib.Data.List.Sort

/-!
Stable sorting by a key. The flat compiler ends with `sort_by_key`, a stable
sort: events with equal times keep the order in which the traversal emitted
them. It is modelled by insertion sort on the key. Everything the compilers need
is derived from one characterisation (`eq_sortByKey_iff`): the stable sort of a
list is the one list that is sorted by the key and keeps, for every key, the
elements with that key in their original order.
-/

namespace Catseq.StableSort

variable {α β : Type} (key : α → Nat)

/-- `sort_by_key`: a stable sort by a natural-number key. -/
def sortByKey (l : List α) : List α := l.insertionSort fun a b => key a ≤ key b

/-- The list is sorted by the key, not necessarily strictly. -/
def SortedBy (l : List α) : Prop := l.Pairwise fun a b => key a ≤ key b

/-- The elements of the list that have the key `k`, in order. -/
def keyClass (k : Nat) (l : List α) : List α := l.filter fun a => key a = k

theorem sortByKey_perm (l : List α) : (sortByKey key l).Perm l := List.perm_insertionSort _ _

theorem sortByKey_sorted (l : List α) : SortedBy key (sortByKey key l) := by
  haveI : IsTotal α fun a b => key a ≤ key b := ⟨fun a b => le_total (key a) (key b)⟩
  haveI : IsTrans α fun a b => key a ≤ key b := ⟨fun _ _ _ => le_trans⟩
  exact List.sorted_insertionSort _ l

theorem sortByKey_of_sorted {l : List α} (sorted : SortedBy key l) : sortByKey key l = l :=
  List.Sorted.insertionSort_eq sorted

theorem SortedBy.head_le {a x : α} {l : List α} (sorted : SortedBy key (a :: l)) (mem : x ∈ a :: l) :
    key a ≤ key x := by
  rcases List.mem_cons.mp mem with rfl | inTail
  · exact le_rfl
  · exact List.rel_of_pairwise_cons sorted inTail

theorem SortedBy.le_getLast {l : List α} (sorted : SortedBy key l) (ne : l ≠ []) {x : α} (mem : x ∈ l) :
    key x ≤ key (l.getLast ne) := by
  rw [← List.dropLast_append_getLast ne] at sorted mem
  rcases List.mem_append.mp mem with inInit | inLast
  · exact (List.pairwise_append.mp sorted).2.2 x inInit _ (List.mem_singleton_self _)
  · rw [List.mem_singleton.mp inLast]

theorem keyClass_filter (k : Nat) (p : α → Bool) (l : List α) :
    keyClass key k (l.filter p) = (keyClass key k l).filter p := by
  simp only [keyClass,List.filter_filter,Bool.and_comm]

/-- Stability: the stable sort keeps each key's elements in their order. -/
theorem keyClass_sortByKey (k : Nat) (l : List α) :
    keyClass key k (sortByKey key l) = keyClass key k l := by
  have sameKey : (keyClass key k l).Pairwise fun a b => key a ≤ key b :=
    List.pairwise_of_forall_mem_list fun a ha b hb => by
      simp only [keyClass,List.mem_filter,decide_eq_true_eq] at ha hb
      omega
  have sub : (keyClass key k l).Sublist (sortByKey key l) :=
    List.sublist_insertionSort sameKey (List.filter_sublist l)
  have sub' : (keyClass key k l).Sublist (keyClass key k (sortByKey key l)) := by
    simpa [keyClass,List.filter_filter] using sub.filter fun a => decide (key a = k)
  exact (sub'.eq_of_length ((sortByKey_perm key l).filter _).length_eq.symm).symm

/-- A list sorted by the key is determined by the order within each key class. -/
theorem eq_of_sorted_of_keyClass {l₁ l₂ : List α} (sorted₁ : SortedBy key l₁)
    (sorted₂ : SortedBy key l₂) (same : ∀ k, keyClass key k l₁ = keyClass key k l₂) : l₁ = l₂ := by
  induction l₁ generalizing l₂ with
  | nil =>
    cases l₂ with
    | nil => rfl
    | cons b t₂ => simpa [keyClass] using same (key b)
  | cons a t₁ ih =>
    cases l₂ with
    | nil => simpa [keyClass] using same (key a)
    | cons b t₂ =>
      have mem (x : α) (l m : List α) (h : keyClass key (key x) (x :: l) = keyClass key (key x) m) :
          x ∈ m := by
        have : x ∈ keyClass key (key x) (x :: l) := by simp [keyClass]
        rw [h] at this
        exact (List.mem_filter.mp this).1
      have aIn : a ∈ b :: t₂ := mem a t₁ _ (same (key a))
      have bIn : b ∈ a :: t₁ := mem b t₂ _ (same (key b)).symm
      have le₁ : key b ≤ key a := by
        rcases List.mem_cons.mp aIn with rfl | inTail
        · exact le_rfl
        · exact List.rel_of_pairwise_cons sorted₂ inTail
      have le₂ : key a ≤ key b := by
        rcases List.mem_cons.mp bIn with rfl | inTail
        · exact le_rfl
        · exact List.rel_of_pairwise_cons sorted₁ inTail
      have heads := same (key a)
      simp only [keyClass,List.filter_cons,decide_True,if_true,show key b = key a by omega] at heads
      obtain ⟨rfl,-⟩ := List.cons.inj heads
      congr 1
      refine ih sorted₁.of_cons sorted₂.of_cons fun k => ?_
      by_cases same_k : key a = k
      · subst same_k; simpa [keyClass] using heads
      · simpa [keyClass,same_k] using same k

/-- The stable sort is the one list sorted by the key that keeps every key class. -/
theorem eq_sortByKey_iff {l r : List α} :
    r = sortByKey key l ↔ SortedBy key r ∧ ∀ k, keyClass key k r = keyClass key k l := by
  constructor
  · rintro rfl
    exact ⟨sortByKey_sorted key l,fun k => keyClass_sortByKey key k l⟩
  · rintro ⟨sorted,classes⟩
    exact eq_of_sorted_of_keyClass key sorted (sortByKey_sorted key l) fun k => by
      rw [classes,keyClass_sortByKey]

/-- Filtering commutes with the stable sort. -/
theorem filter_sortByKey (p : α → Bool) (l : List α) :
    (sortByKey key l).filter p = sortByKey key (l.filter p) := by
  refine (eq_sortByKey_iff key).mpr ⟨List.Pairwise.sublist (List.filter_sublist _) (sortByKey_sorted key l),fun k => ?_⟩
  rw [keyClass_filter,keyClass_sortByKey,keyClass_filter]

/-- Merging two sorted lists keeps the result sorted. -/
theorem SortedBy.merge {l₁ l₂ : List α} (s₁ : SortedBy key l₁) (s₂ : SortedBy key l₂) :
    SortedBy key (l₁.merge l₂ fun a b => key a ≤ key b) :=
  (List.sorted_merge (fun _ _ _ h h' => by simp only [decide_eq_true_eq] at *; omega)
    (fun _ _ => by simp only [Bool.or_eq_true,decide_eq_true_eq]; omega) l₁ l₂
    (s₁.imp fun h => decide_eq_true h) (s₂.imp fun h => decide_eq_true h)).imp fun h => of_decide_eq_true h

theorem keyClass_cons (k : Nat) (a : α) (l : List α) :
    keyClass key k (a :: l) = if key a = k then a :: keyClass key k l else keyClass key k l := by
  simp only [keyClass,List.filter_cons,decide_eq_true_eq]

/-- Merging two sorted lists, the left one first on ties, puts each key's elements
    of the left list before those of the right one. -/
theorem keyClass_merge {l₁ l₂ : List α} (s₁ : SortedBy key l₁) (s₂ : SortedBy key l₂) (k : Nat) :
    keyClass key k (l₁.merge l₂ fun a b => key a ≤ key b) = keyClass key k l₁ ++ keyClass key k l₂ := by
  induction l₁ generalizing l₂ with
  | nil => simp [keyClass]
  | cons a t₁ ih =>
    induction l₂ with
    | nil => simp [keyClass]
    | cons b t₂ ihb =>
      rw [List.cons_merge_cons]
      split
      · rw [keyClass_cons key k a,keyClass_cons key k a t₁,ih s₁.of_cons s₂]
        split <;> rfl
      · rename_i notLe
        have below : key b < key a := by simpa using notLe
        rw [keyClass_cons key k b,ihb s₂.of_cons,keyClass_cons key k b t₂]
        by_cases same : key b = k
        · have none : keyClass key k (a :: t₁) = [] := List.filter_eq_nil_iff.mpr fun x mem => by
            have := s₁.head_le key mem
            simp only [decide_eq_true_eq]
            omega
          simp [same,none]
        · simp [same]

/-- The stable sort of a concatenation merges the stable sorts of its parts. -/
theorem sortByKey_append (l₁ l₂ : List α) :
    sortByKey key (l₁ ++ l₂) = (sortByKey key l₁).merge (sortByKey key l₂) fun a b => key a ≤ key b := by
  refine ((eq_sortByKey_iff key).mpr ⟨(sortByKey_sorted key l₁).merge key (sortByKey_sorted key l₂),fun k => ?_⟩).symm
  rw [keyClass_merge key (sortByKey_sorted key l₁) (sortByKey_sorted key l₂),keyClass_sortByKey,keyClass_sortByKey]
  exact (List.filter_append _ _).symm

/-- Mapping by a function that preserves the comparison of keys commutes with the sort. -/
theorem sortByKey_map (key' : β → Nat) (f : α → β) (l : List α)
    (mono : ∀ a b, key' (f a) ≤ key' (f b) ↔ key a ≤ key b) :
    sortByKey key' (l.map f) = (sortByKey key l).map f := by
  induction l with
  | nil => rfl
  | cons a t ih =>
    simp only [sortByKey,List.map_cons,List.insertionSort] at ih ⊢
    rw [ih,List.map_orderedInsert (fun a b => key a ≤ key b) (fun a b => key' a ≤ key' b) f _ a
      (fun b _ => (mono b a).symm) (fun b _ => (mono a b).symm)]

end Catseq.StableSort
