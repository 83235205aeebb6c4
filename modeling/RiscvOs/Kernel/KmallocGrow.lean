import RiscvOs.Kernel.KmallocRuns
import RiscvOs.Kernel.Lock

/-! Requests of `kmalloc` up to the cut of the block: the node that the search
stops at, the pages that are mapped when it stops at the head, and what is left
when `cpage_znalloc` has no page. -/
namespace Kernel.Kmalloc

open Semantics Extent Lock

/-- `kmalloc` up to the cut, for the rounded request: the node `temp`, or none
behind the `return NULL`. -/
def kmallocNode (answer : Nat → Word) (fuel : Nat) (h : Heap) (bytes : Word) :
    Option (Option Word × Heap) := do
  let temp ← searchLoop h.mem h.head bytes (next h.mem h.head) fuel
  if temp = h.head then
    match extendLoop answer h (iterations bytes) with
    | (false, h') => some (none, h')
    | (true, h') => do
        let m ← coalesceFreeList fuel h'.head h'.mem
        some (some (h.heapVAddr + 4096), { h' with mem := m })
  else some (some temp, h)

def kmallocEnd (bytes : Word) : Option Word × Heap → Word × Heap
  | (none, h) => (0, h)
  | (some temp, h) =>
      let (ret, m) := carve h.mem temp bytes
      (ret, { h with mem := m })

theorem kmalloc_eq (answer : Nat → Word) (fuel : Nat) (h : Heap) (bytes : Word) :
    kmalloc answer fuel h bytes =
      (kmallocNode answer fuel h (blockSize bytes)).map (kmallocEnd (blockSize bytes)) := by
  simp only [kmalloc, kmallocNode, Option.bind_eq_bind]
  cases searchLoop h.mem h.head (blockSize bytes) (next h.mem h.head) fuel with
  | none => rfl
  | some temp =>
      simp only [Option.bind_some]
      by_cases hHead : temp = h.head
      · rw [if_pos hHead, if_pos hHead]
        obtain ⟨ok, h'⟩ := extendLoop answer h (iterations (blockSize bytes))
        cases ok with
        | false => rfl
        | true =>
            simp only
            cases coalesceFreeList fuel h'.head h'.mem with
            | none => rfl
            | some m => rfl
      · rw [if_neg hHead, if_neg hHead]
        rfl

theorem kmallocNode_none {answer : Nat → Word} {fuel : Nat} {h h₁ : Heap} {size : Word} :
    kmallocNode answer fuel h size = some (none, h₁) ↔
      searchLoop h.mem h.head size (next h.mem h.head) fuel = some h.head ∧
        extendLoop answer h (iterations size) = (false, h₁) := by
  simp only [kmallocNode, Option.bind_eq_bind, Option.bind_eq_some_iff]
  constructor
  · rintro ⟨temp, hSearch, hRest⟩
    split at hRest
    next hHead =>
      subst hHead
      refine ⟨hSearch, ?_⟩
      cases hLoop : extendLoop answer h (iterations size) with
      | mk ok h₂ =>
          rw [hLoop] at hRest
          cases ok with
          | false =>
              cases hRest
              rfl
          | true =>
              simp only [Option.bind_eq_some_iff] at hRest
              obtain ⟨m, -, hLast⟩ := hRest
              cases hLast
    · cases hRest
  · rintro ⟨hSearch, hLoop⟩
    refine ⟨h.head, hSearch, ?_⟩
    rw [if_pos rfl, hLoop]

theorem kmallocNode_some {answer : Nat → Word} {fuel : Nat} {h h₁ : Heap} {size a : Word} :
    kmallocNode answer fuel h size = some (some a, h₁) ↔
      ∃ temp, searchLoop h.mem h.head size (next h.mem h.head) fuel = some temp ∧
        (temp ≠ h.head ∧ a = temp ∧ h₁ = h ∨
          temp = h.head ∧ a = h.heapVAddr + 4096 ∧
            ∃ h₂ m, extendLoop answer h (iterations size) = (true, h₂) ∧
              coalesceFreeList fuel h₂.head h₂.mem = some m ∧ h₁ = { h₂ with mem := m }) := by
  simp only [kmallocNode, Option.bind_eq_bind, Option.bind_eq_some_iff]
  refine exists_congr fun temp => and_congr_right fun _ => ?_
  by_cases hHead : temp = h.head
  · simp only [hHead, ↓reduceIte, ne_eq, not_true_eq_false, false_and, true_and, false_or]
    cases hLoop : extendLoop answer h (iterations size) with
    | mk ok h₂ =>
        cases ok with
        | false => simp
        | true =>
            simp only [Option.bind_eq_some_iff, Option.some.injEq, Prod.mk.injEq, true_and]
            constructor
            · rintro ⟨m, hCoalesce, rfl, rfl⟩
              exact ⟨rfl, h₂, m, rfl, hCoalesce, rfl⟩
            · rintro ⟨rfl, _, m, rfl, hCoalesce, rfl⟩
              exact ⟨m, hCoalesce, rfl, rfl⟩
  · simp only [hHead, ↓reduceIte, Option.some.injEq, Prod.mk.injEq, ne_eq, not_false_eq_true,
      true_and, false_and, or_false]
    exact and_congr eq_comm eq_comm

theorem kmallocNode_mono {answer : Nat → Word} {h : Heap} {bytes : Word}
    {result : Option Word × Heap} {fuel fuel' : Nat} (hLe : fuel ≤ fuel')
    (hCall : kmallocNode answer fuel h bytes = some result) :
    kmallocNode answer fuel' h bytes = some result := by
  obtain ⟨temp, h₁⟩ := result
  cases temp with
  | none =>
      obtain ⟨hSearch, hLoop⟩ := kmallocNode_none.mp hCall
      exact kmallocNode_none.mpr ⟨searchLoop_mono hLe hSearch, hLoop⟩
  | some a =>
      obtain ⟨temp, hSearch, hRest⟩ := kmallocNode_some.mp hCall
      refine kmallocNode_some.mpr ⟨temp, searchLoop_mono hLe hSearch, ?_⟩
      rcases hRest with hNode | ⟨hHead, hAddr, h₂, m, hLoop, hCoalesce, hAfter⟩
      · exact .inl hNode
      · exact .inr ⟨hHead, hAddr, h₂, m, hLoop, coalesceLoop_mono hLe hCoalesce, hAfter⟩

theorem kmallocNode_unique {answer : Nat → Word} {h : Heap} {bytes : Word}
    {r r' : Option Word × Heap} {fuel fuel' : Nat}
    (hCall : kmallocNode answer fuel h bytes = some r)
    (hCall' : kmallocNode answer fuel' h bytes = some r') : r = r' := by
  have hMax := kmallocNode_mono (Nat.le_max_left fuel fuel') hCall
  rw [kmallocNode_mono (Nat.le_max_right fuel fuel') hCall'] at hMax
  exact (Option.some.inj hMax).symm

theorem head_kmallocNode {answer : Nat → Word} {h h' : Heap} {bytes : Word} {temp : Option Word}
    {fuel : Nat} (hCall : kmallocNode answer fuel h bytes = some (temp, h')) :
    h'.head = h.head := by
  obtain ⟨ok, h₁, -, hLoop, -, hHead, -⟩ := extendLoop_extended answer h (iterations bytes)
  cases temp with
  | none =>
      obtain ⟨-, hLoop'⟩ := kmallocNode_none.mp hCall
      rw [hLoop'] at hLoop
      cases hLoop
      exact hHead
  | some a =>
      obtain ⟨-, -, ⟨-, -, rfl⟩ | ⟨-, -, h₂, m, hLoop', -, rfl⟩⟩ := kmallocNode_some.mp hCall
      · rfl
      · rw [hLoop'] at hLoop
        cases hLoop
        exact hHead

section Node

variable {answer : Nat → Word} {h : Heap} {bytes : Word} {free held : List Extent}

/-- What `kmalloc` does before the cut, on a heap of free nodes and held
blocks. -/
inductive Found (answer : Nat → Word) (h : Heap) (bytes : Word) (free held : List Extent) :
    Option Word × Heap → Prop where
  | small {e : Extent} (he : e ∈ free) (hSmall : e.2 < bytes) :
      Found answer h bytes free held (some e.1, h)
  | denied {h' : Heap} {k : Nat} (hLarge : ∀ e ∈ free, bytes ≤ e.2)
      (hExtended : Extended answer h (iterations bytes) h' false k)
      (hCut : Cut h' (free ++ pages (h.heapVAddr + 4096) k) held) :
      Found answer h bytes free held (none, h')
  | grown {h₁ : Heap} {m : Memory} (hLarge : ∀ e ∈ free, bytes ≤ e.2)
      (hExtended : Extended answer h (iterations bytes) h₁ true (iterations bytes))
      (hCut : Cut { h₁ with mem := m }
        (mergeAll (free ++ pages (h.heapVAddr + 4096) (iterations bytes))) held) :
      Found answer h bytes free held (some (h.heapVAddr + 4096), { h₁ with mem := m })

theorem kmallocNode_spec (answer : Nat → Word) (hCut : Cut h free held)
    (hRoom : Room h (iterations bytes)) :
    ∃ fuel r, kmallocNode answer fuel h bytes = some r ∧ Found answer h bytes free held r := by
  have hSplit : Holds h.mem h.head (h.heapVAddr.toNat + 4096) ([] ++ free) held := hCut.holds
  have hFirst : next h.mem h.head = (free.map Prod.fst).headD h.head := hCut.holds.ring.first
  have hFuel : free.length < free.length + iterations bytes + 1 := by omega
  have hCases := searchLoop_cases hSplit bytes hFuel
  rw [← hFirst] at hCases
  rcases hCases with ⟨e, he, hSmall, hSearch⟩ | ⟨hLarge, hSearch⟩
  · have hHead : e.1 ≠ h.head := hCut.holds.ne_head (List.mem_append_left _ he)
    exact ⟨_, _, kmallocNode_some.mpr ⟨e.1, hSearch, .inl ⟨hHead, rfl, rfl⟩⟩, .small he hSmall⟩
  · obtain ⟨ok, h', k, hLoop, hExtended, hHead, hCut'⟩ :=
      extendLoop_extended answer h (iterations bytes)
    have hAfter := hCut' free held hCut hRoom
    cases hExtended with
    | denied hk hPages hNull hAddr hCalls =>
        exact ⟨_, _, kmallocNode_none.mpr ⟨hSearch, hLoop⟩,
          .denied hLarge (.denied hk hPages hNull hAddr hCalls) hAfter⟩
    | all hPages hAddr hCalls =>
        have hLength : (free ++ pages (h.heapVAddr + 4096) (iterations bytes)).length <
            free.length + iterations bytes + 1 := by
          rw [List.length_append, length_pages]
          exact Nat.lt_succ_self _
        obtain ⟨m, hCoalesce, hHolds⟩ := hAfter.holds.coalesce_spec hLength
        have hNode := kmallocNode_some.mpr
          ⟨h.head, hSearch, .inr ⟨rfl, rfl, h', m, hLoop, hCoalesce, rfl⟩⟩
        exact ⟨_, _, hNode, .grown hLarge (.all hPages hAddr hCalls) ⟨hHolds, hAfter.above⟩⟩

end Node

/-- New pages are taken only when no free node has the size, and the block is
cut from a free node that has it. -/
def Fitting (answer : Nat → Word) (h : Heap) (bytes : Word) : Prop :=
  ∃ fuel temp h', kmallocNode answer fuel h bytes = some (temp, h') ∧
    ((∃ k, h.calls + k < h'.calls ∧ answer (h.calls + k) ≠ 0) →
      ∀ a, FreeNode h.mem h.head a → size h.mem a < bytes) ∧
    ∀ a ∈ temp, FreeNode h'.mem h'.head a ∧ bytes ≤ size h'.mem a

/-- One of the pages that a request takes is not there. -/
def Denied (answer : Nat → Word) (h : Heap) (bytes : Word) : Prop :=
  ∃ k < iterations bytes, answer (h.calls + k) = 0

/-- `(bytes / PAGE_SIZE) + 1` fits an `int`. -/
def Counted (bytes : Word) : Prop :=
  bytes.toNat / 4096 + 1 < 2 ^ 31

/-- Either the list is empty, and the number of pages fits an `int` or one of
them is denied; or every free node has the size, and the first page is
denied. -/
def Suited (answer : Nat → Word) (h : Heap) (bytes : Word) : Prop :=
  next h.mem h.head = h.head ∧ (Counted bytes ∨ Denied answer h bytes) ∨
    (∀ a, FreeNode h.mem h.head a → bytes ≤ size h.mem a) ∧
      0 < iterations bytes ∧ answer h.calls = 0

section Fit

variable {answer : Nat → Word} {h : Heap} {bytes : Word} {free held : List Extent}

/-- A number that does not fit an `int` is cut off to one that is too small. -/
theorem pages_lt_of_not_counted (hCounted : ¬ Counted bytes) :
    4096 * iterations bytes < bytes.toNat := by
  unfold Counted at hCounted
  have hCount := toNat_count bytes
  have hLt := bytes.isLt
  rw [iterations, BitVec.toInt_eq_toNat_cond, BitVec.toNat_setWidth, hCount]
  split <;> omega

theorem mergeAll_pages (v : Word) {n : Nat} (hn : 0 < n) :
    mergeAll (pages v n) = [(v, BitVec.ofNat 64 (4096 * n))] := by
  obtain ⟨k, rfl⟩ : ∃ k, n = k + 1 := ⟨n - 1, by omega⟩
  rw [pages, mergeAll, mergeFrom_pages, Nat.mul_succ, Nat.add_comm, BitVec.ofNat_add]
  rfl

/-- The only node behind an extension of the empty list. -/
theorem Cut.grown {h₁ : Heap} {m : Memory} {n : Nat}
    (hCut : Cut { h₁ with mem := m } (mergeAll ([] ++ pages (h.heapVAddr + 4096) n)) held)
    (hn : 0 < n) (hRoom : Room h n) :
    FreeNode m h₁.head (h.heapVAddr + 4096) ∧
      (size m (h.heapVAddr + 4096)).toNat = 4096 * n := by
  rw [List.nil_append, mergeAll_pages _ hn] at hCut
  refine ⟨(freeNode_iff hCut.holds _).mpr ⟨_, List.mem_singleton_self _, rfl⟩, ?_⟩
  have hSize : size m (h.heapVAddr + 4096) = BitVec.ofNat 64 (4096 * n) :=
    hCut.holds.sizes (h.heapVAddr + 4096, BitVec.ofNat 64 (4096 * n)) (by simp)
  unfold Room at hRoom
  rw [hSize, BitVec.toNat_ofNat, Nat.mod_eq_of_lt (by omega)]

/-- Behind the last page there is no node. -/
theorem Cut.not_freeNode_next {h₁ : Heap} (hCut : Cut h₁ free held)
    (hAddr : h₁.heapVAddr = h.heapVAddr) : ¬ FreeNode h₁.mem h₁.head (h.heapVAddr + 4096) := by
  intro hNode
  obtain ⟨e, he, hEq⟩ := (freeNode_iff hCut.holds _).mp hNode
  obtain ⟨hLeast, hLo, hHi⟩ := hCut.holds.separate.within e (List.mem_append_left _ he)
  have hLimit := hCut.holds.limit
  rw [hEq, hAddr, BitVec.toNat_add] at hHi
  rw [hEq, BitVec.toNat_add] at hLo
  rw [hAddr] at hLimit
  have hPage : (4096 : Word).toNat = 4096 := rfl
  rw [hPage] at hHi hLo
  omega

theorem Cut.empty_iff (hCut : Cut h free held) : next h.mem h.head = h.head ↔ free = [] := by
  rw [hCut.holds.ring.first]
  cases free with
  | nil => simp
  | cons e rest =>
      have hHead : e.1 ≠ h.head := hCut.holds.ne_head (by simp)
      simpa using hHead

theorem Cut.large_iff (hCut : Cut h free held) :
    (∀ a, FreeNode h.mem h.head a → bytes ≤ size h.mem a) ↔ ∀ e ∈ free, bytes ≤ e.2 := by
  constructor
  · intro hLarge e he
    rw [← hCut.holds.sizes e (List.mem_append_left _ he)]
    exact hLarge e.1 ((freeNode_iff hCut.holds e.1).mpr ⟨e, he, rfl⟩)
  · intro hLarge a ha
    obtain ⟨e, he, rfl⟩ := (freeNode_iff hCut.holds a).mp ha
    rw [hCut.holds.sizes e (List.mem_append_left _ he)]
    exact hLarge e he

/-- A heap whose free nodes all have the size, and none of them does. -/
theorem Cut.empty_of_takes (hCut : Cut h free held) (hLarge : ∀ e ∈ free, bytes ≤ e.2)
    (hTakes : ∀ a, FreeNode h.mem h.head a → size h.mem a < bytes) :
    next h.mem h.head = h.head := by
  rw [hCut.empty_iff, List.eq_nil_iff_forall_not_mem]
  intro e he
  have hSmall := hTakes e.1 ((freeNode_iff hCut.holds e.1).mpr ⟨e, he, rfl⟩)
  rw [hCut.holds.sizes e (List.mem_append_left _ he)] at hSmall
  exact BitVec.not_lt.mpr (hLarge e he) hSmall

theorem suited_of_fitting (hCut : Cut h free held) (hRoom : Room h (iterations bytes)) :
    Fitting answer h bytes → Suited answer h bytes := by
  obtain ⟨fuel, r, hNode, hFound⟩ := kmallocNode_spec answer hCut hRoom
  rintro ⟨fuel', temp, h', hNode', hTakes, hFits⟩
  cases kmallocNode_unique hNode hNode'
  cases hFound with
  | @small e he hSmall =>
      obtain ⟨-, hLe⟩ := hFits e.1 rfl
      rw [hCut.holds.sizes e (List.mem_append_left _ he)] at hLe
      exact absurd hSmall (BitVec.not_lt.mpr hLe)
  | denied hLarge hExtended hCut' =>
      cases hExtended with
      | denied hk hPages hNull hAddr hCalls =>
          by_cases hFirst : answer h.calls = 0
          · exact .inr ⟨hCut.large_iff.mpr hLarge, Nat.zero_lt_of_lt hk, hFirst⟩
          · exact .inl ⟨hCut.empty_of_takes hLarge (hTakes ⟨0, by omega, hFirst⟩), .inr ⟨_, hk, hNull⟩⟩
  | @grown h₁ m hLarge hExtended hCut' =>
      cases hExtended with
      | all hPages hAddr hCalls =>
          obtain ⟨hNode', hLe⟩ := hFits _ rfl
          have hSome : 0 < iterations bytes := by
            by_contra hZero
            have hNoPages : iterations bytes = 0 := by omega
            rw [hNoPages] at hAddr
            exact hCut'.not_freeNode_next (by simpa using hAddr) hNode'
          have hTaken : h.calls + 0 < h₁.calls := by omega
          have hNext := hCut.empty_of_takes hLarge (hTakes ⟨0, hTaken, hPages 0 hSome⟩)
          obtain rfl := hCut.empty_iff.mp hNext
          obtain ⟨-, hSize⟩ := hCut'.grown hSome hRoom
          refine .inl ⟨hNext, .inl ?_⟩
          by_contra hCounted
          have hShort := pages_lt_of_not_counted hCounted
          have hLe' : bytes.toNat ≤ (size m (h.heapVAddr + 4096)).toNat := hLe
          omega

theorem fitting_of_suited (hCut : Cut h free held) (hRoom : Room h (iterations bytes)) :
    Suited answer h bytes → Fitting answer h bytes := by
  obtain ⟨fuel, r, hNode, hFound⟩ := kmallocNode_spec answer hCut hRoom
  intro hSuited
  cases hFound with
  | @small e he hSmall =>
      rcases hSuited with ⟨hNext, -⟩ | ⟨hLarge, -⟩
      · rw [hCut.empty_iff.mp hNext] at he
        cases he
      · exact absurd hSmall (BitVec.not_lt.mpr (hCut.large_iff.mp hLarge e he))
  | @denied h' k hLarge hExtended hCut' =>
      refine ⟨fuel, _, _, hNode, ?_, by simp⟩
      rintro ⟨i, hi, hPage⟩ a ha
      rcases hSuited with ⟨hNext, -⟩ | ⟨-, -, hFirst⟩
      · obtain ⟨e, he, -⟩ := (freeNode_iff hCut.holds a).mp ha
        rw [hCut.empty_iff.mp hNext] at he
        cases he
      · cases hExtended with
        | denied hk hPages hNull hAddr hCalls =>
            have hZero : k = 0 := by
              by_contra hPos
              exact hPages 0 (Nat.pos_of_ne_zero hPos) hFirst
            have hi' : i = 0 := by omega
            rw [hi'] at hPage
            exact absurd hFirst hPage
  | @grown h₁ m hLarge hExtended hCut' =>
      have hPages : ∀ i < iterations bytes, answer (h.calls + i) ≠ 0 := by
        cases hExtended with
        | all hPages => exact hPages
      obtain ⟨hNext, hServed⟩ : next h.mem h.head = h.head ∧
          (Counted bytes ∨ Denied answer h bytes) := by
        refine hSuited.resolve_right ?_
        rintro ⟨-, hSome, hFirst⟩
        exact hPages 0 hSome hFirst
      obtain rfl := hCut.empty_iff.mp hNext
      have hCounted : Counted bytes := by
        refine hServed.resolve_right ?_
        rintro ⟨k, hk, hNull⟩
        exact hPages k hk hNull
      have hCount := iterations_eq hCounted
      have hSome : 0 < iterations bytes := by rw [hCount]; exact Nat.succ_pos _
      have hEnough : bytes.toNat ≤ 4096 * iterations bytes := by
        rw [hCount]
        clear * -
        omega
      obtain ⟨hNode', hSize⟩ := hCut'.grown hSome hRoom
      refine ⟨fuel, _, _, hNode, fun _ a ha => ?_, fun a ha => ?_⟩
      · obtain ⟨e, he, -⟩ := (freeNode_iff hCut.holds a).mp ha
        cases he
      · obtain rfl := Option.mem_some_iff.mp ha
        refine ⟨hNode', BitVec.le_def.mpr ?_⟩
        rw [hSize]
        exact hEnough

/-- For a heap of free nodes and held blocks, the search and the extension do
what they are for exactly when the request is suited. -/
theorem fitting_iff (answer : Nat → Word) (hCut : Cut h free held)
    (hRoom : Room h (iterations bytes)) : Fitting answer h bytes ↔ Suited answer h bytes :=
  ⟨suited_of_fitting hCut hRoom, fitting_of_suited hCut hRoom⟩

/-- A request with a page that is not there ends with `NULL` when no free node
is too small for it. -/
theorem kmalloc_denied (hCut : Cut h free held) (hRoom : Room h (iterations (blockSize bytes)))
    (hDenied : Denied answer h (blockSize bytes))
    (hLarge : ∀ a, FreeNode h.mem h.head a → blockSize bytes ≤ size h.mem a) :
    ∃ fuel h' k, kmallocNode answer fuel h (blockSize bytes) = some (none, h') ∧
      Extended answer h (iterations (blockSize bytes)) h' false k ∧
      Cut h' (free ++ pages (h.heapVAddr + 4096) k) held := by
  obtain ⟨fuel, r, hNode, hFound⟩ := kmallocNode_spec answer hCut hRoom
  cases hFound with
  | @small e he hSmall =>
      exact absurd hSmall (BitVec.not_lt.mpr (hCut.large_iff.mp hLarge e he))
  | denied hLarge hExtended hCut' => exact ⟨fuel, _, _, hNode, hExtended, hCut'⟩
  | grown hLarge hExtended hCut' =>
      obtain ⟨k, hk, hNull⟩ := hDenied
      cases hExtended with
      | all hPages => exact absurd hNull (hPages k hk)

/-- Only the addresses from the head on matter. -/
theorem Cut.below (hCut : Cut h free held) {m : Memory}
    (hSame : ∀ x, h.head.toNat ≤ x.toNat → m x = h.mem x) : Cut { h with mem := m } free held := by
  have hLimit := hCut.holds.limit
  have hAbove := hCut.above
  have hAgree (x : Word) (n : Nat) (hn : n ≤ 24) (hLo : h.head.toNat ≤ x.toNat)
      (hHi : x.toNat + 24 ≤ 2 ^ 64) : Memory.AgreeOn h.mem m x n := by
    intro y hy
    obtain ⟨hFirst, -⟩ := (inRange_iff_toNat (by omega)).mp hy
    exact hSame y (by omega)
  have hUnit (e : Extent) (he : e ∈ free ++ held) :
      h.head.toNat ≤ e.1.toNat ∧ e.1.toNat + 24 ≤ 2 ^ 64 := by
    obtain ⟨hLeast, hLo, hHi⟩ := hCut.holds.separate.within e he
    omega
  refine ⟨hCut.holds.congr (fun x hx => ?_) fun e he => ?_, hCut.above⟩
  · rcases List.mem_cons.mp hx with rfl | hx
    · exact hAgree _ 24 (Nat.le_refl _) (Nat.le_refl _) (by omega)
    · obtain ⟨e, he, rfl⟩ := List.mem_map.mp hx
      obtain ⟨hLo, hHi⟩ := hUnit e (List.mem_append_left _ he)
      exact hAgree _ 24 (Nat.le_refl _) hLo hHi
  · obtain ⟨hLo, hHi⟩ := hUnit e (List.mem_append_right _ he)
    exact hAgree _ 8 (by decide) hLo hHi

end Fit

section Kept

variable {answer : Nat → Word} {s : Use} {free : List Extent}

/-- A request that leaves the heap cut into nodes and blocks: it is served from
new pages, or one of them is denied and no free node is too small for it. -/
def Regular (answer : Nat → Word) (h : Heap) (bytes : Word) : Prop :=
  Extendable h bytes ∧ ¬ Denied answer h (blockSize bytes) ∨
    Denied answer h (blockSize bytes) ∧ Room h (iterations (blockSize bytes)) ∧
      ∀ a, FreeNode h.mem h.head a → blockSize bytes ≤ size h.mem a

/-- The `memset` of a denied `kzalloc` stays below the heap. -/
def Kept (answer : Nat → Word) (s : Use) : Op → Prop
  | .malloc bytes => Regular answer s.heap bytes
  | .zalloc bytes => Regular answer s.heap bytes ∧
      (Denied answer s.heap (blockSize bytes) → bytes.toNat ≤ s.heap.head.toNat)
  | _ => True

theorem pages_of_not_denied {h : Heap} {bytes : Word} (hAll : ¬ Denied answer h bytes) :
    ∀ i < iterations bytes, answer (h.calls + i) ≠ 0 :=
  fun i hi hNull => hAll ⟨i, hi, hNull⟩

theorem Inv.denied (h : Inv s free) {bytes ptr : Word} {h' : Heap} {fuel : Nat}
    (hRoom : Room s.heap (iterations (blockSize bytes)))
    (hDenied : Denied answer s.heap (blockSize bytes))
    (hLarge : ∀ a, FreeNode s.heap.mem s.heap.head a → blockSize bytes ≤ size s.heap.mem a)
    (hCall : kmalloc answer fuel s.heap bytes = some (ptr, h')) :
    ptr = 0 ∧ h'.head = s.heap.head ∧ ∃ free', Inv ⟨h', s.live⟩ free' := by
  obtain ⟨fuel', h₁, k, hNode, hExtended, hCut⟩ := kmalloc_denied h.cut hRoom hDenied hLarge
  have hCall' : kmalloc answer fuel' s.heap bytes = some (0, h₁) := by
    rw [kmalloc_eq, hNode]
    rfl
  obtain ⟨rfl, rfl⟩ := Prod.mk.inj (kmalloc_unique hCall hCall')
  have hSame : s.live.map (extentOf h'.mem) = s.live.map (extentOf s.heap.mem) :=
    extents_eq hCut.holds fun b hb => List.mem_map_of_mem hb
  refine ⟨rfl, head_kmallocNode hNode, _, by rwa [← hSame] at hCut, fun b hb => ?_⟩
  rw [List.map_inj_left.mp hSame b hb]
  exact h.usable b hb

/-- The `memset` of a `NULL` leaves the heap alone. -/
theorem Inv.zeroNull (h : Inv s free) {bytes : Word} (hBelow : bytes.toNat ≤ s.heap.head.toNat) :
    Inv ⟨{ s.heap with mem := memset s.heap.mem 0 0 (bytes - 8) }, s.live⟩ free := by
  have hHead := s.heap.head.isLt
  have hSize := (toInt_sub_le bytes).trans hBelow
  have hCut := h.cut.below (m := memset s.heap.mem 0 0 (bytes - 8)) fun x hx => by
    rw [memset_eq_fill]
    refine Memory.fill_outside _ _ fun hIn => ?_
    have hNull : (0 : Word).toNat = 0 := rfl
    obtain ⟨-, hLast⟩ := (inRange_iff_toNat (by rw [hNull]; omega)).mp hIn
    rw [hNull] at hLast
    omega
  have hSame : s.live.map (extentOf (memset s.heap.mem 0 0 (bytes - 8))) =
      s.live.map (extentOf s.heap.mem) :=
    extents_eq hCut.holds fun b hb => List.mem_map_of_mem hb
  refine ⟨by rwa [← hSame] at hCut, fun b hb => ?_⟩
  rw [List.map_inj_left.mp hSame b hb]
  exact h.usable b hb

theorem Inv.keptStep (h : Inv s free) {op : Op} {t : Use} (hKept : Kept answer s op)
    (hStep : Step answer s op t) : ∃ free', Inv t free' := by
  cases hStep with
  | malloc hCall =>
      rcases hKept with ⟨hExtendable, hAll⟩ | ⟨hDenied, hRoom, hLarge⟩
      · obtain ⟨hPtr, hInv⟩ := h.malloc (pages_of_not_denied hAll) hExtendable hCall
        rwa [hand, if_neg hPtr]
      · obtain ⟨hPtr, -, hInv⟩ := h.denied hRoom hDenied hLarge hCall
        rwa [hand, if_pos hPtr]
  | zalloc hCall =>
      obtain ⟨hRegular, hBelow⟩ := hKept
      rcases hRegular with ⟨hExtendable, hAll⟩ | ⟨hDenied, hRoom, hLarge⟩
      · obtain ⟨hPtr, hInv⟩ := h.zalloc (pages_of_not_denied hAll) hExtendable hCall
        rwa [hand, if_neg hPtr]
      · simp only [kzalloc, Option.bind_eq_bind, Option.bind_eq_some_iff] at hCall
        obtain ⟨⟨ptr', h₁⟩, hCall, hLast⟩ := hCall
        cases hLast
        obtain ⟨rfl, hHead, free', hInv⟩ := h.denied hRoom hDenied hLarge hCall
        rw [hand, if_pos rfl]
        exact ⟨free', hInv.zeroNull (by rw [hHead]; exact hBelow hDenied)⟩
  | free hLive hCall => exact h.kfree hLive hCall
  | write hLive hIn => exact ⟨free, h.write _ hLive hIn⟩

theorem inv_of_kept_run (m : Memory) {ops : List Op}
    (run : Run (Guarded (Step answer) (Kept answer)) ⟨initKernelHeap m, []⟩ ops s) :
    ∃ free, Inv s free :=
  run.invariant (fun s => ∃ free, Inv s free) ⟨[], inv_init m⟩
    fun _ _ _ ⟨_, hInv⟩ ⟨hKept, hStep⟩ => hInv.keptStep hKept hStep

/-- In every state that regular requests lead to, a request is served as the
search and the extension mean it exactly when it is suited. -/
theorem fitting_iff_of_kept_run (answer : Nat → Word) (m : Memory) {ops : List Op} {s : Use}
    (run : Run (Guarded (Step answer) (Kept answer)) ⟨initKernelHeap m, []⟩ ops s) {bytes : Word}
    (hRoom : Room s.heap (iterations (blockSize bytes))) :
    Fitting answer s.heap (blockSize bytes) ↔ Suited answer s.heap (blockSize bytes) := by
  obtain ⟨free, hInv⟩ := inv_of_kept_run m run
  exact fitting_iff answer hInv.cut hRoom

/-- The first request of 100 bytes leaves a node of 8064 bytes behind the
head. -/
theorem malloc_init : ∃ ptr h, kmalloc (fun _ => 0x80300000) 10 (initKernelHeap fun _ => 0) 100 =
      some (ptr, h) ∧
    h.heapVAddr = 0x120002000 ∧ h.head = 0x120000000 ∧ next h.mem h.head = 0x120001000 := by
  have hValues : ((kmalloc (fun _ => 0x80300000) 10 (initKernelHeap fun _ => 0) 100).map fun r =>
      (r.2.heapVAddr, r.2.head, next r.2.mem r.2.head)) =
      some (0x120002000, 0x120000000, 0x120001000) := by
    decide +kernel
  simp only [Option.map_eq_some_iff, Prod.mk.injEq] at hValues
  obtain ⟨⟨ptr, h⟩, hCall, hFields⟩ := hValues
  exact ⟨ptr, h, hCall, hFields⟩

theorem page_ne_zero : (0x80300000 : Word) ≠ 0 := by decide

theorem not_denied_of_page (h : Heap) (bytes : Word) : ¬ Denied (fun _ => 0x80300000) h bytes := by
  rintro ⟨k, -, hNull⟩
  exact page_ne_zero hNull

theorem fitting_iff_of_kept_run_first :
    ∃ s, Run (Guarded (Step fun _ => 0x80300000) (Kept fun _ => 0x80300000))
        ⟨initKernelHeap fun _ => 0, []⟩ [.malloc 100] s ∧
      (Fitting (fun _ => 0x80300000) s.heap (blockSize 16) ↔
        Suited (fun _ => 0x80300000) s.heap (blockSize 16)) := by
  obtain ⟨ptr, h, hCall, hAddr, -⟩ := malloc_init
  have hKept : Kept (fun _ => 0x80300000) ⟨initKernelHeap fun _ => 0, []⟩ (.malloc 100) :=
    .inl ⟨extendable_init _, not_denied_of_page _ _⟩
  have hRun : Run (Guarded (Step fun _ => 0x80300000) (Kept fun _ => 0x80300000))
      ⟨initKernelHeap fun _ => 0, []⟩ [.malloc 100] ⟨h, hand ptr 100 []⟩ :=
    .snoc (.nil _) ⟨hKept, .malloc hCall⟩
  have hRoom : Room h (iterations (blockSize 16)) := by
    rw [Room, hAddr]
    decide
  exact ⟨_, hRun, fitting_iff_of_kept_run _ _ hRun hRoom⟩

/-- Behind one request, 8100 bytes are cut from a node of 8064 bytes, and for
16 bytes new pages are taken. -/
theorem unfitting_run :
    ∃ s, Run (Step fun _ => 0x80300000) ⟨initKernelHeap fun _ => 0, []⟩ [.malloc 100] s ∧
      ¬ Fitting (fun _ => 0x80300000) s.heap (blockSize 8100) ∧
      ¬ Fitting (fun _ => 0x80300000) s.heap (blockSize 16) := by
  obtain ⟨ptr, h, hCall, hAddr, hHead, hNext⟩ := malloc_init
  obtain ⟨-, free, hInv⟩ := (inv_init fun _ => 0).malloc
    (fun _ _ => page_ne_zero) (extendable_init _) hCall
  have hSuited (bytes : Word) : ¬ Suited (fun _ => 0x80300000) h bytes := by
    rintro (⟨hEmpty, -⟩ | ⟨-, -, hNull⟩)
    · rw [hNext, hHead] at hEmpty
      exact absurd hEmpty (by decide)
    · exact page_ne_zero hNull
  have hFitting (bytes : Word) (hRoom : Room h (iterations bytes)) :
      ¬ Fitting (fun _ => 0x80300000) h bytes :=
    fun hFits => hSuited bytes ((fitting_iff _ hInv.cut hRoom).mp hFits)
  refine ⟨_, .snoc (.nil _) (.malloc hCall), hFitting _ ?_, hFitting _ ?_⟩
  · rw [Room, hAddr]
    decide
  · rw [Room, hAddr]
    decide

end Kept

end Kernel.Kmalloc
