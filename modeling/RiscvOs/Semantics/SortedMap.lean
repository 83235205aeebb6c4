import Mathlib.Order.Lattice
import Mathlib.Tactic.NthRewrite
import Mathlib.Data.List.Basic

/-! Finite maps as lists of entries in ascending order of their keys. The
lemmas about a list split at an entry are those of a search tree, whose
entries are the left ones, the one at the node and the right ones. -/
namespace Semantics.SortedMap

variable {K V : Type*} [LinearOrder K]

def Ordered (l : List (K × V)) : Prop :=
  l.Pairwise fun a b => a.1 < b.1

def get (l : List (K × V)) (k : K) : Option V :=
  (l.find? fun e => e.1 = k).map Prod.snd

/-- Replaces the value of a key, or adds an entry at its place. -/
def put (k : K) (v : V) : List (K × V) → List (K × V)
  | [] => [(k, v)]
  | e :: l =>
      if k < e.1 then (k, v) :: e :: l
      else if k = e.1 then (k, v) :: l
      else e :: put k v l

def erase (k : K) (l : List (K × V)) : List (K × V) :=
  l.filter fun e => e.1 ≠ k

variable {k : K} {v : V} {e : K × V} {l r : List (K × V)}

@[simp] theorem get_nil (k : K) : get ([] : List (K × V)) k = none := rfl

theorem get_cons (e : K × V) (l : List (K × V)) (k : K) :
    get (e :: l) k = if e.1 = k then some e.2 else get l k := by
  unfold get
  rw [List.find?_cons]
  by_cases h : e.1 = k <;> simp [h]

theorem get_eq_none (h : ∀ e ∈ l, e.1 ≠ k) : get l k = none := by
  unfold get
  rw [List.find?_eq_none.mpr]
  · rfl
  · simpa using h

theorem get_put (k : K) (v : V) (l : List (K × V)) (x : K) :
    get (put k v l) x = if x = k then some v else get l x := by
  induction l with
  | nil =>
      rw [put, get_cons]
      by_cases h : x = k <;> simp [h, Ne.symm]
  | cons e l ih =>
      rw [put]
      split
      next hLt => rw [get_cons]; simp only [eq_comm]
      next hLt =>
        split
        next hEq =>
          rw [get_cons, get_cons]
          by_cases h : x = k
          · simp [h]
          · simp [Ne.symm h, h, ← hEq]
        next hNe =>
          rw [get_cons, ih, get_cons]
          by_cases h : x = k
          · simp [h, Ne.symm hNe]
          · simp [h]

theorem get_erase (k : K) (l : List (K × V)) (x : K) :
    get (erase k l) x = if x = k then none else get l x := by
  induction l with
  | nil => simp [erase]
  | cons e l ih =>
      by_cases he : e.1 = k
      · have hErase : erase k (e :: l) = erase k l := by simp [erase, he]
        rw [hErase, ih, get_cons]
        by_cases h : x = k
        · simp [h]
        · simp [h, he, Ne.symm h]
      · have hErase : erase k (e :: l) = e :: erase k l := by simp [erase, he]
        rw [hErase, get_cons, ih, get_cons]
        by_cases h : x = k
        · simp [h, he]
        · simp [h]

theorem mem_put {a : K × V} (h : a ∈ put k v l) : a = (k, v) ∨ a ∈ l := by
  induction l with
  | nil => simpa [put] using h
  | cons e l ih =>
      rw [put] at h
      split at h
      · simpa using h
      · split at h
        · rcases List.mem_cons.mp h with hHead | hTail
          · exact .inl hHead
          · exact .inr (List.mem_cons_of_mem _ hTail)
        · rcases List.mem_cons.mp h with hHead | hTail
          · exact .inr (hHead ▸ List.mem_cons_self ..)
          · exact (ih hTail).imp_right (List.mem_cons_of_mem _)

theorem Ordered.put (h : Ordered l) (k : K) (v : V) : Ordered (put k v l) := by
  induction l with
  | nil => exact List.pairwise_singleton _ _
  | cons e l ih =>
      obtain ⟨hHead, hTail⟩ := List.pairwise_cons.mp h
      rw [SortedMap.put]
      split
      next hLt =>
        refine List.pairwise_cons.mpr ⟨?_, h⟩
        rintro a ha
        rcases List.mem_cons.mp ha with rfl | ha
        · exact hLt
        · exact hLt.trans (hHead a ha)
      next hLt =>
        split
        next hEq =>
          refine List.pairwise_cons.mpr ⟨?_, hTail⟩
          rw [hEq]
          exact hHead
        next hNe =>
          refine List.pairwise_cons.mpr ⟨?_, ih hTail⟩
          intro a ha
          rcases mem_put ha with rfl | ha
          · exact lt_of_le_of_ne (not_lt.mp hLt) (Ne.symm hNe)
          · exact hHead a ha

theorem length_put_le (k : K) (v : V) (l : List (K × V)) :
    (put k v l).length ≤ l.length + 1 := by
  induction l with
  | nil => exact Nat.le_refl _
  | cons e l ih =>
      rw [put]
      split
      · exact Nat.le_refl _
      · split
        · exact Nat.le_succ _
        · exact Nat.succ_le_succ ih

theorem Ordered.erase (h : Ordered l) (k : K) : Ordered (erase k l) :=
  h.filter _

theorem erase_eq_self (h : ∀ e ∈ l, e.1 ≠ k) : erase k l = l := by
  unfold erase
  rw [List.filter_eq_self]
  simpa using h

/-- An entry at most goes with its key. -/
theorem Ordered.length_erase (h : Ordered l) (k : K) :
    (SortedMap.erase k l).length + (if get l k = none then 0 else 1) = l.length := by
  induction l with
  | nil => rfl
  | cons e l ih =>
      obtain ⟨hHead, hTail⟩ := List.pairwise_cons.mp h
      by_cases hk : e.1 = k
      · have hRest : SortedMap.erase k l = l :=
          erase_eq_self fun a ha => hk ▸ (hHead a ha).ne'
        have hErase : SortedMap.erase k (e :: l) = l := by
          rw [SortedMap.erase, List.filter_cons_of_neg (by simp [hk])]
          exact hRest
        rw [hErase, get_cons, if_pos hk, if_neg (by simp), List.length_cons]
      · have hErase : SortedMap.erase k (e :: l) = e :: SortedMap.erase k l := by
          simp [SortedMap.erase, hk]
        rw [hErase, get_cons, if_neg hk, List.length_cons, List.length_cons, ← ih hTail]
        omega

section Split

theorem Ordered.left (h : Ordered (l ++ e :: r)) : Ordered l :=
  (List.pairwise_append.mp h).1

theorem Ordered.right (h : Ordered (l ++ e :: r)) : Ordered r :=
  (List.pairwise_cons.mp (List.pairwise_append.mp h).2.1).2

theorem Ordered.lt_of_mem_left (h : Ordered (l ++ e :: r)) {a : K × V} (ha : a ∈ l) :
    a.1 < e.1 :=
  (List.pairwise_append.mp h).2.2 a ha e (List.mem_cons_self ..)

theorem Ordered.lt_of_mem_right (h : Ordered (l ++ e :: r)) {a : K × V} (ha : a ∈ r) :
    e.1 < a.1 :=
  (List.pairwise_cons.mp (List.pairwise_append.mp h).2.1).1 a ha

theorem get_append_cons (l : List (K × V)) (e : K × V) (r : List (K × V)) (k : K) :
    get (l ++ e :: r) k = (get l k).or (if e.1 = k then some e.2 else get r k) := by
  induction l with
  | nil => simp [get_cons]
  | cons a l ih =>
      rw [List.cons_append, get_cons, get_cons, ih]
      split <;> rfl

theorem Ordered.get_lt (h : Ordered (l ++ e :: r)) (hk : k < e.1) :
    get (l ++ e :: r) k = get l k := by
  have hRight : get r k = none :=
    get_eq_none fun a ha hEq => absurd ((h.lt_of_mem_right ha).trans_eq hEq) hk.not_gt
  rw [get_append_cons, if_neg hk.ne', hRight, Option.or_none]

theorem Ordered.get_gt (h : Ordered (l ++ e :: r)) (hk : e.1 < k) :
    get (l ++ e :: r) k = get r k := by
  have hLeft : get l k = none :=
    get_eq_none fun a ha hEq => absurd (hEq.symm.trans_lt (h.lt_of_mem_left ha)) hk.not_gt
  rw [get_append_cons, if_neg hk.ne, hLeft, Option.none_or]

theorem Ordered.get_eq (h : Ordered (l ++ e :: r)) : get (l ++ e :: r) e.1 = some e.2 := by
  have hLeft : get l e.1 = none := get_eq_none fun a ha => (h.lt_of_mem_left ha).ne
  rw [get_append_cons, hLeft, if_pos rfl, Option.none_or]

theorem put_lt (l r : List (K × V)) (v : V) (hk : k < e.1) :
    put k v (l ++ e :: r) = put k v l ++ e :: r := by
  induction l with
  | nil => simp [put, hk]
  | cons a l ih =>
      rw [List.cons_append, put, put, ih]
      split
      · rfl
      · split <;> rfl

theorem put_of_forall_lt (v : V) (hl : ∀ a ∈ l, a.1 < k) : put k v (l ++ r) = l ++ put k v r := by
  induction l with
  | nil => rfl
  | cons a l ih =>
      have ha := hl a (List.mem_cons_self ..)
      rw [List.cons_append, put, if_neg ha.not_gt, if_neg ha.ne',
        ih fun b hb => hl b (List.mem_cons_of_mem _ hb)]
      rfl

theorem Ordered.put_gt (h : Ordered (l ++ e :: r)) (v : V) (hk : e.1 < k) :
    SortedMap.put k v (l ++ e :: r) = l ++ e :: SortedMap.put k v r := by
  rw [put_of_forall_lt v fun a ha => (h.lt_of_mem_left ha).trans hk, SortedMap.put,
    if_neg hk.not_gt, if_neg hk.ne']

theorem Ordered.put_eq (h : Ordered (l ++ e :: r)) (v : V) :
    SortedMap.put e.1 v (l ++ e :: r) = l ++ (e.1, v) :: r := by
  rw [put_of_forall_lt v fun a ha => h.lt_of_mem_left ha, SortedMap.put, if_neg (lt_irrefl _),
    if_pos rfl]

theorem Ordered.erase_lt (h : Ordered (l ++ e :: r)) (hk : k < e.1) :
    SortedMap.erase k (l ++ e :: r) = SortedMap.erase k l ++ e :: r := by
  have hRight : ∀ a ∈ e :: r, a.1 ≠ k := by
    rintro a ha
    rcases List.mem_cons.mp ha with rfl | ha
    · exact hk.ne'
    · exact (hk.trans (h.lt_of_mem_right ha)).ne'
  rw [SortedMap.erase, List.filter_append]
  exact congrArg _ (erase_eq_self hRight)

theorem Ordered.erase_gt (h : Ordered (l ++ e :: r)) (hk : e.1 < k) :
    SortedMap.erase k (l ++ e :: r) = l ++ e :: SortedMap.erase k r := by
  have hLeft : SortedMap.erase k l = l :=
    erase_eq_self fun a ha => ((h.lt_of_mem_left ha).trans hk).ne
  have hNode : SortedMap.erase k (e :: r) = e :: SortedMap.erase k r := by
    simp [SortedMap.erase, hk.ne]
  rw [← hNode]
  nth_rewrite 2 [← hLeft]
  exact List.filter_append ..

theorem Ordered.erase_eq (h : Ordered (l ++ e :: r)) :
    SortedMap.erase e.1 (l ++ e :: r) = l ++ r := by
  have hLeft : SortedMap.erase e.1 l = l := erase_eq_self fun a ha => (h.lt_of_mem_left ha).ne
  have hRight : SortedMap.erase e.1 r = r := erase_eq_self fun a ha => (h.lt_of_mem_right ha).ne'
  have hNode : SortedMap.erase e.1 (e :: r) = r := by
    rw [SortedMap.erase, List.filter_cons_of_neg (by simp)]
    exact hRight
  calc SortedMap.erase e.1 (l ++ e :: r)
      = SortedMap.erase e.1 l ++ SortedMap.erase e.1 (e :: r) := List.filter_append ..
    _ = l ++ r := by rw [hLeft, hNode]

end Split

end Semantics.SortedMap
