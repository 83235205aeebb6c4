import Mathlib.Data.List.Chain
import Mathlib.Data.List.Perm.Basic
import RiscvOs.Semantics.Memory

/-! Extents of an address space: a first address and a size. An allocator
keeps a family of extents without a common byte inside two bounds; it cuts
them, merges neighbours and hands them from one owner to another. -/
namespace Semantics

abbrev Extent := Word × Word

namespace Extent

/-- The extent has at least `least` bytes and lies between the bounds. -/
structure Within (lo hi least : Nat) (e : Extent) : Prop where
  least_le : least ≤ e.2.toNat
  lo_le : lo ≤ e.1.toNat
  le_hi : e.1.toNat + e.2.toNat ≤ hi

/-- One of the extents ends before the other starts. -/
def Disjoint (a b : Extent) : Prop :=
  a.1.toNat + a.2.toNat ≤ b.1.toNat ∨ b.1.toNat + b.2.toNat ≤ a.1.toNat

theorem Disjoint.symm {a b : Extent} (h : Disjoint a b) : Disjoint b a :=
  Or.symm h

instance : Std.Symm Disjoint :=
  ⟨fun _ _ => Disjoint.symm⟩

/-- Parts of disjoint extents, as ranges of memory. -/
theorem Disjoint.apart {a b : Extent} {n k : Nat} (h : Disjoint a b) (hn : n ≤ a.2.toNat)
    (hk : k ≤ b.2.toNat) (hn' : 0 < n) (hk' : 0 < k) (ha : a.1.toNat + a.2.toNat ≤ 2 ^ 64)
    (hb : b.1.toNat + b.2.toNat ≤ 2 ^ 64) : Apart a.1 n b.1 k := by
  have hA : a.1 = 0 + BitVec.ofNat 64 a.1.toNat := by simp
  have hB : b.1 = 0 + BitVec.ofNat 64 b.1.toNat := by simp
  have hOrder : a.1.toNat + n ≤ b.1.toNat ∨ b.1.toNat + k ≤ a.1.toNat := by
    rcases h with h | h
    · exact .inl (by omega)
    · exact .inr (by omega)
  rw [hA, hB]
  exact apart_of_offsets hn' hk' hOrder (by omega) (by omega)

theorem inRange_iff {e : Extent} {x : Word} (h : e.1.toNat + e.2.toNat ≤ 2 ^ 64) :
    InRange e.1 e.2.toNat x ↔ e.1.toNat ≤ x.toNat ∧ x.toNat < e.1.toNat + e.2.toNat :=
  inRange_iff_toNat h

theorem Disjoint.not_inRange {a b : Extent} {x : Word} (h : Disjoint a b)
    (ha : a.1.toNat + a.2.toNat ≤ 2 ^ 64) (hb : b.1.toNat + b.2.toNat ≤ 2 ^ 64)
    (hx : InRange a.1 a.2.toNat x) : ¬ InRange b.1 b.2.toNat x := by
  rw [inRange_iff ha] at hx
  rw [inRange_iff hb]
  unfold Disjoint at h
  omega

/-- A family of extents without a common byte. -/
structure Separate (lo hi least : Nat) (es : List Extent) : Prop where
  within : ∀ e ∈ es, Within lo hi least e
  disjoint : es.Pairwise Disjoint

namespace Separate

variable {lo hi least : Nat} {es es' : List Extent} {a c : Extent}

theorem perm (h : Separate lo hi least es) (hPerm : es.Perm es') : Separate lo hi least es' :=
  ⟨fun e he => h.within e (hPerm.mem_iff.mpr he),
    (hPerm.pairwise_iff fun h => Disjoint.symm h).mp h.disjoint⟩

theorem tail (h : Separate lo hi least (a :: es)) : Separate lo hi least es :=
  ⟨fun e he => h.within e (List.mem_cons_of_mem _ he), (List.pairwise_cons.mp h.disjoint).2⟩

theorem disjoint_of_mem (h : Separate lo hi least (a :: es)) {e : Extent} (he : e ∈ es) :
    Disjoint a e :=
  (List.pairwise_cons.mp h.disjoint).1 e he

theorem cons (h : Separate lo hi least es) (ha : Within lo hi least a)
    (hDisjoint : ∀ e ∈ es, Disjoint a e) : Separate lo hi least (a :: es) := by
  refine ⟨?_, List.pairwise_cons.mpr ⟨hDisjoint, h.disjoint⟩⟩
  rintro e he
  rcases List.mem_cons.mp he with rfl | he
  · exact ha
  · exact h.within e he

theorem mono {lo' hi' : Nat} (h : Separate lo hi least es) (hLo : lo' ≤ lo) (hHi : hi ≤ hi') :
    Separate lo' hi' least es :=
  ⟨fun e he => ⟨(h.within e he).least_le, hLo.trans (h.within e he).lo_le,
    (h.within e he).le_hi.trans hHi⟩, h.disjoint⟩

/-- Two neighbours become one extent. -/
theorem merge (h : Separate lo hi least (a :: c :: es)) (hTouch : a.1 + a.2 = c.1)
    (hPos : 0 < least) (hLo : 0 < lo) (hHi : hi ≤ 2 ^ 64) :
    Separate lo hi least ((a.1, a.2 + c.2) :: es) := by
  obtain ⟨hALeast, hALo, hAHi⟩ := h.within a (by simp)
  obtain ⟨hCLeast, hCLo, hCHi⟩ := h.within c (by simp)
  have hStart : c.1.toNat = a.1.toNat + a.2.toNat := by
    rw [← hTouch, BitVec.toNat_add] at hCLo ⊢
    omega
  have hSum : (a.2 + c.2).toNat = a.2.toNat + c.2.toNat := by
    rw [BitVec.toNat_add]
    omega
  refine h.tail.tail.cons ⟨?_, hALo, ?_⟩ fun e he => ?_
  · simp only [hSum]
    omega
  · simp only [hSum]
    omega
  · have hAE := h.disjoint_of_mem (e := e) (by simp [he])
    have hCE := h.tail.disjoint_of_mem he
    have hE := (h.within e (by simp [he])).least_le
    unfold Disjoint at hAE hCE ⊢
    simp only [hSum]
    omega

/-- The numbers of a cut: what remains, and where the part behind it starts. -/
theorem toNat_cut {size : Word} (hSize : size ≤ a.2) (hPos : 0 < size.toNat)
    (hHi : a.1.toNat + a.2.toNat ≤ 2 ^ 64) :
    (a.2 - size).toNat = a.2.toNat - size.toNat ∧ size.toNat ≤ a.2.toNat ∧
      (a.1 + a.2 - size).toNat = a.1.toNat + a.2.toNat - size.toNat := by
  have hLe : size.toNat ≤ a.2.toNat := hSize
  refine ⟨BitVec.toNat_sub_of_le hSize, hLe, ?_⟩
  rw [BitVec.toNat_sub, BitVec.toNat_add]
  omega

/-- An extent is cut in two. -/
theorem cut (h : Separate lo hi least (a :: es)) {size : Word} (hSize : size ≤ a.2)
    (hPos : 0 < least) (hLeast : least ≤ size.toNat) (hRest : least ≤ (a.2 - size).toNat)
    (hHi : hi ≤ 2 ^ 64) :
    Separate lo hi least ((a.1, a.2 - size) :: (a.1 + a.2 - size, size) :: es) := by
  obtain ⟨hALeast, hALo, hAHi⟩ := h.within a (List.mem_cons_self ..)
  obtain ⟨hRestSize, hLe, hStart⟩ := toNat_cut hSize (by omega) (hAHi.trans hHi)
  have hPart : Separate lo hi least ((a.1 + a.2 - size, size) :: es) := by
    refine h.tail.cons ⟨hLeast, ?_, ?_⟩ fun e he => ?_
    · simp only [hStart]
      omega
    · simp only [hStart]
      omega
    · have hAE := h.disjoint_of_mem he
      unfold Disjoint at hAE ⊢
      simp only [hStart]
      omega
  refine hPart.cons ⟨hRest, hALo, ?_⟩ fun e he => ?_
  · simp only [hRestSize]
    omega
  · unfold Disjoint
    simp only [hRestSize]
    rcases List.mem_cons.mp he with rfl | he
    · simp only [hStart]
      omega
    · have hAE := h.disjoint_of_mem he
      unfold Disjoint at hAE
      omega

/-- A new extent above all others. -/
theorem above (h : Separate lo hi least es) {hi' : Nat} (hLo : lo ≤ a.1.toNat)
    (hHi : hi ≤ a.1.toNat) (hEnd : a.1.toNat + a.2.toNat = hi') (hLeast : least ≤ a.2.toNat) :
    Separate lo hi' least (a :: es) := by
  refine (h.mono (le_refl lo) (by omega)).cons ⟨hLeast, hLo, hEnd.le⟩ fun e he => ?_
  have hE := (h.within e he).le_hi
  exact .inr (by omega)

end Separate

/-- Walk along a list of extents and merge each one with the next as long as
it ends where the next one starts. -/
def mergeFrom (e : Extent) : List Extent → List Extent
  | [] => [e]
  | c :: rest =>
      if e.1 + e.2 = c.1 then mergeFrom (e.1, e.2 + c.2) rest
      else e :: mergeFrom c rest

def mergeAll : List Extent → List Extent
  | [] => []
  | e :: rest => mergeFrom e rest

namespace Separate

variable {lo hi least : Nat} {es : List Extent}

/-- Merging keeps a family separate, whatever else is in it. -/
theorem mergeFrom {e : Extent} {rest : List Extent}
    (h : Separate lo hi least (e :: rest ++ es)) (hPos : 0 < least) (hLo : 0 < lo)
    (hHi : hi ≤ 2 ^ 64) : Separate lo hi least (Extent.mergeFrom e rest ++ es) := by
  induction rest generalizing e es with
  | nil => exact h
  | cons c rest ih =>
      rw [Extent.mergeFrom]
      split
      next hTouch => exact ih (h.merge hTouch hPos hLo hHi)
      next hTouch =>
        have hMove : (e :: (c :: rest ++ es)).Perm (c :: rest ++ e :: es) :=
          List.perm_middle.symm
        exact (ih (h.perm hMove)).perm List.perm_middle

end Separate

/-- The place behind the last extent. -/
def endOf (e : Extent) : List Extent → Word
  | [] => e.1 + e.2
  | c :: rest => endOf c rest

theorem endOf_merge (e c : Extent) (rest : List Extent) (h : e.1 + e.2 = c.1) :
    endOf (e.1, e.2 + c.2) rest = endOf c rest := by
  cases rest with
  | nil =>
      simp only [endOf, ← h]
      exact (BitVec.add_assoc ..).symm
  | cons d rest => rfl

/-- Extents behind a gap are merged among themselves. -/
theorem mergeFrom_append (e : Extent) (xs : List Extent) (p : Extent) (ys : List Extent)
    (hGap : endOf e xs ≠ p.1) :
    mergeFrom e (xs ++ p :: ys) = mergeFrom e xs ++ mergeFrom p ys := by
  induction xs generalizing e with
  | nil =>
      have hApart : e.1 + e.2 ≠ p.1 := hGap
      simp only [List.nil_append, mergeFrom, if_neg hApart, List.singleton_append]
  | cons c rest ih =>
      rw [List.cons_append, mergeFrom, mergeFrom]
      split
      next hTouch => exact ih _ (by rwa [endOf_merge e c rest hTouch])
      next hTouch => rw [ih c hGap, List.cons_append]

section Sorted

variable {lo hi least : Nat} {e : Extent} {es rest : List Extent}

/-- In strictly ascending order of the addresses. -/
def Sorted (es : List Extent) : Prop :=
  es.Pairwise fun a b => a.1 < b.1

/-- No extent ends where its neighbour starts. -/
def Gaps (es : List Extent) : Prop :=
  es.IsChain fun a b => a.1 + a.2 ≠ b.1

def Covered (es : List Extent) (x : Word) : Prop :=
  ∃ e ∈ es, InRange e.1 e.2.toNat x

@[simp] theorem covered_cons (e : Extent) (es : List Extent) (x : Word) :
    Covered (e :: es) x ↔ InRange e.1 e.2.toNat x ∨ Covered es x := by
  simp [Covered]

theorem covered_perm {es' : List Extent} (hPerm : es.Perm es') (x : Word) :
    Covered es x ↔ Covered es' x := by
  simp only [Covered, hPerm.mem_iff]

/-- The place of a new address. -/
theorem Sorted.split (h : Sorted es) {a : Word} (hNew : ∀ f ∈ es, f.1 ≠ a) :
    ∃ xs ys, es = xs ++ ys ∧ (∀ f ∈ xs, f.1 < a) ∧ ∀ f ∈ ys, a < f.1 := by
  induction es with
  | nil => exact ⟨[], [], rfl, by simp, by simp⟩
  | cons e es ih =>
      obtain ⟨hFirst, hTail⟩ := List.pairwise_cons.mp h
      by_cases hBelow : e.1 < a
      · obtain ⟨xs, ys, rfl, hXs, hYs⟩ := ih hTail fun f hf => hNew f (List.mem_cons_of_mem _ hf)
        exact ⟨e :: xs, ys, rfl, List.forall_mem_cons.mpr ⟨hBelow, hXs⟩, hYs⟩
      · have hAbove : a.toNat < e.1.toNat := by
          have hNe : e.1.toNat ≠ a.toNat :=
            fun hEq => hNew e (List.mem_cons_self ..) (BitVec.eq_of_toNat_eq hEq)
          have hLe : a.toNat ≤ e.1.toNat := BitVec.not_lt.mp hBelow
          omega
        refine ⟨[], e :: es, rfl, by simp, List.forall_mem_cons.mpr ⟨hAbove, fun f hf => ?_⟩⟩
        exact Nat.lt_trans hAbove (hFirst f hf)

theorem Sorted.insert {xs ys : List Extent} (h : Sorted (xs ++ ys)) (hXs : ∀ f ∈ xs, f.1 < e.1)
    (hYs : ∀ f ∈ ys, e.1 < f.1) : Sorted (xs ++ e :: ys) := by
  obtain ⟨hLeft, hRight, hCross⟩ := List.pairwise_append.mp h
  refine List.pairwise_append.mpr ⟨hLeft, List.pairwise_cons.mpr ⟨hYs, hRight⟩, fun f hf g hg => ?_⟩
  rcases List.mem_cons.mp hg with rfl | hg
  · exact hXs f hf
  · exact hCross f hf g hg

/-- The first extent keeps its address. -/
theorem mergeFrom_eq_cons (e : Extent) (rest : List Extent) :
    ∃ e' tail, mergeFrom e rest = e' :: tail ∧ e'.1 = e.1 := by
  induction rest generalizing e with
  | nil => exact ⟨e, [], rfl, rfl⟩
  | cons c rest ih =>
      rw [mergeFrom]
      split
      · exact ih (e.1, e.2 + c.2)
      · exact ⟨e, _, rfl, rfl⟩

theorem sorted_mergeFrom (h : Sorted (e :: rest)) :
    Sorted (mergeFrom e rest) ∧ ∀ f ∈ mergeFrom e rest, e.1 ≤ f.1 := by
  induction rest generalizing e with
  | nil =>
      refine ⟨h, fun f hf => ?_⟩
      rw [List.mem_singleton.mp hf]
      exact BitVec.le_refl _
  | cons c rest ih =>
      obtain ⟨hFirst, hTail⟩ := List.pairwise_cons.mp h
      rw [mergeFrom]
      split
      · refine ih (List.pairwise_cons.mpr ⟨fun f hf => ?_, (List.pairwise_cons.mp hTail).2⟩)
        exact hFirst f (List.mem_cons_of_mem _ hf)
      · obtain ⟨hSorted, hLeast⟩ := ih hTail
        have hBelow : e.1.toNat < c.1.toNat := hFirst c (List.mem_cons_self ..)
        have hAll (f : Extent) (hf : f ∈ mergeFrom c rest) : e.1 < f.1 :=
          Nat.lt_of_lt_of_le hBelow (hLeast f hf)
        refine ⟨List.pairwise_cons.mpr ⟨hAll, hSorted⟩, fun f hf => ?_⟩
        rcases List.mem_cons.mp hf with rfl | hf
        · exact BitVec.le_refl _
        · exact BitVec.le_of_lt (hAll f hf)

theorem gaps_mergeFrom (e : Extent) (rest : List Extent) : Gaps (mergeFrom e rest) := by
  induction rest generalizing e with
  | nil => exact List.isChain_singleton e
  | cons c rest ih =>
      rw [mergeFrom]
      split
      next hTouch => exact ih (e.1, e.2 + c.2)
      next hTouch =>
        obtain ⟨c', tail, hMerged, hSame⟩ := mergeFrom_eq_cons c rest
        have hRest : Gaps (c' :: tail) := hMerged ▸ ih c
        rw [hMerged]
        exact List.isChain_cons_cons.mpr ⟨hSame ▸ hTouch, hRest⟩

/-- Two neighbours and the extent that they become have the same bytes. -/
theorem inRange_merge {a c : Extent} (h : Separate lo hi least (a :: c :: es))
    (hTouch : a.1 + a.2 = c.1) (hLo : 0 < lo) (hPos : 0 < least) (hHi : hi ≤ 2 ^ 64) (x : Word) :
    InRange a.1 (a.2 + c.2).toNat x ↔ InRange a.1 a.2.toNat x ∨ InRange c.1 c.2.toNat x := by
  obtain ⟨hALeast, hALo, hAHi⟩ := h.within a (by simp)
  obtain ⟨hCLeast, hCLo, hCHi⟩ := h.within c (by simp)
  have hStart : c.1.toNat = a.1.toNat + a.2.toNat := by
    rw [← hTouch, BitVec.toNat_add] at hCLo ⊢
    omega
  have hSum : (a.2 + c.2).toNat = a.2.toNat + c.2.toNat := by
    rw [BitVec.toNat_add]
    omega
  rw [hSum, inRange_iff_toNat (by omega), inRange_iff_toNat (by omega),
    inRange_iff_toNat (by omega)]
  omega

theorem covered_mergeFrom (h : Separate lo hi least (e :: rest)) (hLo : 0 < lo) (hPos : 0 < least)
    (hHi : hi ≤ 2 ^ 64) (x : Word) : Covered (mergeFrom e rest) x ↔ Covered (e :: rest) x := by
  induction rest generalizing e with
  | nil => rfl
  | cons c rest ih =>
      rw [mergeFrom]
      split
      next hTouch =>
        rw [ih (h.merge hTouch hPos hLo hHi), covered_cons, covered_cons, covered_cons,
          inRange_merge h hTouch hLo hPos hHi, or_assoc]
      next hTouch => rw [covered_cons, covered_cons, ih h.tail]

theorem sorted_mergeAll (h : Sorted es) : Sorted (mergeAll es) := by
  cases es with
  | nil => exact h
  | cons e rest => exact (sorted_mergeFrom h).1

theorem gaps_mergeAll (es : List Extent) : Gaps (mergeAll es) := by
  cases es with
  | nil => exact List.isChain_nil
  | cons e rest => exact gaps_mergeFrom e rest

theorem covered_mergeAll (h : Separate lo hi least es) (hLo : 0 < lo) (hPos : 0 < least)
    (hHi : hi ≤ 2 ^ 64) (x : Word) : Covered (mergeAll es) x ↔ Covered es x := by
  cases es with
  | nil => rfl
  | cons e rest => exact covered_mergeFrom h hLo hPos hHi x

end Sorted

end Extent

end Semantics
