import RiscvOs.Kernel.CpageFacts
import RiscvOs.Semantics.Transition

/-! Runs of `cpage_znalloc` and `cpage_free` from the state `cpage_init`
leaves. The inner loop of `cpage_znalloc` increments `i` and not `j`, so a
request of `n` pages looks at two pages only and takes `n` pages that start
`n - 2` pages behind them. -/
namespace Kernel.Cpage

open Semantics

/-- A pointer that was returned and not yet freed, with the requested number
of pages. -/
abbrev Block := Word × Int

structure Use where
  mem : Memory
  live : List Block

inductive Op where
  | znalloc (numPages : Int)
  | free (block : Block)

/-- `cpage_free` is given live pointers only; a `NULL` is not a live pointer. -/
inductive Step (h : Heap) : Use → Op → Use → Prop where
  | null (s : Use) (n : Int) (hNull : (cpageZnalloc h s.mem n).1 = 0) :
      Step h s (.znalloc n) { s with mem := (cpageZnalloc h s.mem n).2 }
  | znalloc (s : Use) (n : Int) (hPtr : (cpageZnalloc h s.mem n).1 ≠ 0) :
      Step h s (.znalloc n)
        { mem := (cpageZnalloc h s.mem n).2, live := ((cpageZnalloc h s.mem n).1, n) :: s.live }
  | free (s : Use) (block : Block) (m' : Memory) (hLive : block ∈ s.live)
      (hFree : cpageFree h s.mem block.1 = some m') :
      Step h s (.free block) { mem := m', live := s.live.erase block }

/-- The page extent `[ret, ret + n*PAGE_SIZE)` of an allocation. -/
def InExtent (block : Block) (x : Word) : Prop :=
  InRange block.1 (block.2.toNat * 4096) x

instance (block : Block) (x : Word) : Decidable (InExtent block x) :=
  inferInstanceAs (Decidable (InRange _ _ _))

/-- The first byte of page `k` of an allocation. -/
def pageOf (block : Block) (k : Nat) : Word :=
  block.1 + BitVec.ofNat 64 (4096 * k)

/-- Live allocations share no page, and each of their pages has its taken bit
set in the bookkeeping bytes. -/
structure Sound (h : Heap) (s : Use) : Prop where
  disjoint : s.live.Pairwise fun a b => ∀ x, InExtent a x → ¬ InExtent b x
  marked : ∀ block ∈ s.live, ∀ k, k < block.2.toNat →
    ∃ i, i < h.pages ∧ pageOf block k = h.start + h.bkRounded + BitVec.ofNat 64 (4096 * i) ∧
      taken h s.mem i = true

/-- The pages that a request of `n` pages takes behind the first pair of free
pages are free pages of the heap, and the offset of the first of them fits an
`int`. -/
def Fits (h : Heap) (m : Memory) (n : Nat) : Prop :=
  ∀ first, FirstPair (taken h m) h.pages first →
    first + (n - 2) + n ≤ h.pages ∧ first + (n - 2) < 2 ^ 19 ∧
      ∀ k, k < n → taken h m (first + (n - 2) + k) = false

/-- Requests of one and of two pages take the same two pages. -/
def Allowed (h : Heap) (s : Use) : Op → Prop
  | .znalloc n => 0 < n → Fits h s.mem (max 2 n.toNat)
  | .free _ => True

/-- The number of pages that an allocation has marked. -/
def span (block : Block) : Nat :=
  max 2 block.2.toNat

/-- The bookkeeping bytes of a live allocation that starts at page `i`. -/
structure Held (h : Heap) (m : Memory) (block : Block) (i : Nat) : Prop where
  addr : block.1 = h.pageAddr i
  small : i < 2 ^ 19
  fits : i + span block ≤ h.pages
  taken : ∀ k, k < span block → taken h m (i + k) = true
  lastAt : last h m (i + (span block - 1)) = true
  lastBefore : ∀ k, k < span block - 1 → last h m (i + k) = false

def SpansApart (h : Heap) (a b : Block) : Prop :=
  pageIndex h a.1 + span a ≤ pageIndex h b.1 ∨ pageIndex h b.1 + span b ≤ pageIndex h a.1

structure Inv (h : Heap) (s : Use) : Prop where
  held : ∀ block ∈ s.live, Held h s.mem block (pageIndex h block.1)
  apart : s.live.Pairwise (SpansApart h)
  clear : ∀ k, k < h.pages → taken h s.mem k = false → last h s.mem k = false

variable {h : Heap}

theorem SpansApart.symm {a b : Block} (hApart : SpansApart h a b) : SpansApart h b a :=
  Or.symm hApart

theorem two_le_span (block : Block) : 2 ≤ span block := Nat.le_max_left _ _

theorem toNat_le_span (block : Block) : block.2.toNat ≤ span block := Nat.le_max_right _ _

/-- An allocation keeps its bits when another memory agrees on them. -/
theorem Held.of_bits {m m' : Memory} {block : Block} {i : Nat} (hHeld : Held h m block i)
    (hBits : ∀ k, k < span block → Cpage.taken h m' (i + k) = Cpage.taken h m (i + k) ∧
      Cpage.last h m' (i + k) = Cpage.last h m (i + k)) : Held h m' block i := by
  have hSpan := two_le_span block
  refine ⟨hHeld.addr, hHeld.small, hHeld.fits, fun k hk => ?_, ?_, fun k hk => ?_⟩
  · rw [(hBits k hk).1]
    exact hHeld.taken k hk
  · rw [(hBits _ (by omega)).2]
    exact hHeld.lastAt
  · rw [(hBits k (by omega)).2]
    exact hHeld.lastBefore k hk

theorem Inv.sound {s : Use} (inv : Inv h s) : Sound h s := by
  have hPages := pages_le h
  constructor
  · refine inv.apart.imp_of_mem fun {a b} ha hb hApart x hxa hxb => ?_
    have hA := inv.held a ha
    have hB := inv.held b hb
    have hFitA := hA.fits
    have hFitB := hB.fits
    have hSpanA := toNat_le_span a
    have hSpanB := toNat_le_span b
    rw [InExtent, hA.addr, pageAddr_of_lt h hA.small] at hxa
    rw [InExtent, hB.addr, pageAddr_of_lt h hB.small] at hxb
    have hDistA := hxa.distance (by omega)
    have hDistB := hxb.distance (by omega)
    unfold SpansApart at hApart
    omega
  · intro block hBlock k hk
    have hHeld := inv.held block hBlock
    have hFit := hHeld.fits
    have hSpan := toNat_le_span block
    refine ⟨pageIndex h block.1 + k, by omega, ?_, hHeld.taken k (by omega)⟩
    conv_lhs => rw [pageOf, hHeld.addr, pageAddr_of_lt h hHeld.small]
    rw [BitVec.add_assoc, ← BitVec.ofNat_add, Nat.mul_add]

theorem inv_init (h : Heap) (m : Memory) : Inv h { mem := cpageInit h m, live := [] } where
  held := by simp
  apart := List.Pairwise.nil
  clear := fun _ hk _ => last_cpageInit h m hk

/-- A live allocation has no page among pages that are free. -/
theorem Inv.apart_of_free {s : Use} (inv : Inv h s) {i count : Nat} (hCount : 2 ≤ count)
    (hFree : ∀ k, k < count → Cpage.taken h s.mem (i + k) = false) {block : Block}
    (hBlock : block ∈ s.live) :
    i + count ≤ pageIndex h block.1 ∨ pageIndex h block.1 + span block ≤ i := by
  have hHeld := inv.held block hBlock
  have hSpan := two_le_span block
  by_contra hNot
  have hCommon : ∃ k, k < count ∧ ∃ l, l < span block ∧ i + k = pageIndex h block.1 + l := by
    by_cases hLe : pageIndex h block.1 ≤ i
    · exact ⟨0, by omega, i - pageIndex h block.1, by omega, by omega⟩
    · exact ⟨pageIndex h block.1 - i, by omega, 0, by omega, by omega⟩
  obtain ⟨k, hk, l, hl, hEq⟩ := hCommon
  have hClear := hFree k hk
  rw [hEq, hHeld.taken l hl] at hClear
  cases hClear

/-- A request whose pages fit adds one allocation, apart from all others. -/
theorem Inv.znalloc {s : Use} (inv : Inv h s) {n : Int} (hn : 0 < n) {first : Nat}
    (hFirst : FirstPair (Cpage.taken h s.mem) h.pages first) (hFits : Fits h s.mem (max 2 n.toNat)) :
    Inv h { mem := (cpageZnalloc h s.mem n).2, live := ((cpageZnalloc h s.mem n).1, n) :: s.live } := by
  obtain ⟨hFit, hSmall, hFree⟩ := hFits first hFirst
  have hPages := pages_le h
  have hTwo : 2 ≤ max 2 n.toNat := Nat.le_max_left _ _
  rw [cpageZnalloc_of_firstPair h s.mem hn hFirst]
  rw [show first + max 2 n.toNat - 2 = first + (max 2 n.toNat - 2) by omega]
  have hSpan : span (h.pageAddr (first + (max 2 n.toNat - 2)), n) = max 2 n.toNat := rfl
  generalize first + (max 2 n.toNat - 2) = i at *
  generalize max 2 n.toNat = count at *
  have hIndex := pageIndex_pageAddr h hSmall
  have hOther : ∀ block ∈ s.live, i + count ≤ pageIndex h block.1 ∨
      pageIndex h block.1 + span block ≤ i :=
    fun block hBlock => inv.apart_of_free hTwo hFree hBlock
  refine ⟨fun block hBlock => ?_, ?_, fun k hk hClear => ?_⟩
  · rcases List.mem_cons.mp hBlock with rfl | hOld
    · rw [hIndex]
      refine ⟨rfl, hSmall, by rw [hSpan]; exact hFit, fun k hk => ?_, ?_, fun k hk => ?_⟩
      · rw [hSpan] at hk
        rw [taken_allocated h s.mem hSmall hFit (by omega)]
        simp [hk]
      · rw [hSpan, last_allocated h s.mem hSmall hFit (by omega)]
        have : (i + count - 1 == i + (count - 1)) = true := by simp; omega
        rw [this, Bool.or_true]
      · rw [hSpan] at hk
        rw [last_allocated h s.mem hSmall hFit (by omega),
          inv.clear _ (by omega) (hFree k (by omega))]
        have : (i + count - 1 == i + k) = false := by simp; omega
        rw [this, Bool.or_false]
    · have hHeld := inv.held block hOld
      have hFitOld := hHeld.fits
      have hApart := hOther block hOld
      refine hHeld.of_bits fun k hk => ⟨?_, ?_⟩
      · rw [taken_allocated h s.mem hSmall hFit (by omega), hHeld.taken k hk, Bool.true_or]
      · rw [last_allocated h s.mem hSmall hFit (by omega)]
        have : (i + count - 1 == pageIndex h block.1 + k) = false := by simp; omega
        rw [this, Bool.or_false]
  · refine List.pairwise_cons.mpr ⟨fun block hBlock => ?_, inv.apart⟩
    unfold SpansApart
    rw [hIndex, hSpan]
    exact hOther block hBlock
  · rw [taken_allocated h s.mem hSmall hFit hk] at hClear
    rw [last_allocated h s.mem hSmall hFit hk]
    simp only [Bool.or_eq_false_iff, Bool.and_eq_false_iff, decide_eq_false_iff_not] at hClear
    rw [inv.clear k hk hClear.1]
    have : (i + count - 1 == k) = false := by
      have := hClear.2
      simp
      omega
    rw [this, Bool.or_false]

/-- Freeing a live allocation clears its bits and no others. A pointer above
the end of the heap is ignored, and its pages stay marked. -/
theorem Inv.free {s : Use} (inv : Inv h s) {block : Block} {m' : Memory} (hLive : block ∈ s.live)
    (hFree : cpageFree h s.mem block.1 = some m') :
    Inv h { mem := m', live := s.live.erase block } := by
  have hPages := pages_le h
  have hHeld := inv.held block hLive
  have hFit := hHeld.fits
  have hSmall := hHeld.small
  have hTwo := two_le_span block
  have hRest : ∀ other ∈ s.live.erase block, SpansApart h block other := by
    have hAll := (List.perm_cons_erase hLive).pairwise inv.apart SpansApart.symm
    exact (List.pairwise_cons.mp hAll).1
  have hApart : (s.live.erase block).Pairwise (SpansApart h) :=
    inv.apart.sublist List.erase_sublist
  rw [cpageFree] at hFree
  split at hFree
  · cases hFree
    exact ⟨fun other hOther => inv.held other (List.mem_of_mem_erase hOther), hApart, inv.clear⟩
  · have hIndex : specByte h block.1 = (pageIndex h block.1 : Nat) := by
      conv_lhs => rw [hHeld.addr]
      exact specByte_pageAddr h hSmall
    rw [hIndex] at hFree
    have hFree' := freeLoop_add h s.mem (span block) hFree
    obtain ⟨m'', hWalk, hBits⟩ := freeLoop_spec h s.mem (pageIndex h block.1)
      (span block - 1) ((2 ^ 31 - (pageIndex h block.1 : Int)).toNat + span block)
      (by omega) (by omega) hHeld.lastAt hHeld.lastBefore
    rw [hWalk] at hFree'
    cases hFree'
    refine ⟨fun other hOther => ?_, hApart, fun k hk hClear => ?_⟩
    · have hHeld' := inv.held other (List.mem_of_mem_erase hOther)
      have hFit' := hHeld'.fits
      have hOut := hRest other hOther
      unfold SpansApart at hOut
      refine hHeld'.of_bits fun k hk => ?_
      obtain ⟨hTaken, hLast⟩ := hBits (pageIndex h other.1 + k) (by omega)
      have hOutside : (decide (pageIndex h block.1 ≤ pageIndex h other.1 + k) &&
          decide (pageIndex h other.1 + k ≤ pageIndex h block.1 + (span block - 1))) = false := by
        simp only [Bool.and_eq_false_iff, decide_eq_false_iff_not]
        omega
      rw [hTaken, hLast, hOutside]
      simp
    · obtain ⟨hTaken, hLast⟩ := hBits k (by omega)
      rw [hTaken] at hClear
      rw [hLast]
      cases hIn : (decide (pageIndex h block.1 ≤ k) &&
          decide (k ≤ pageIndex h block.1 + (span block - 1))) with
      | true => simp
      | false =>
          rw [hIn, Bool.not_false, Bool.and_true] at hClear
          rw [Bool.not_false, Bool.and_true]
          exact inv.clear k hk hClear

theorem inv_step {s t : Use} {op : Op} (inv : Inv h s) (step : Guarded (Step h) (Allowed h) s op t) :
    Inv h t := by
  obtain ⟨hAllowed, step⟩ := step
  cases step with
  | null n hNull =>
      rcases cpageZnalloc_cases h s.mem n with hSame | ⟨hn, first, hFirst⟩
      · rw [hSame]
        exact inv
      · have inv' := inv.znalloc hn hFirst (hAllowed hn)
        exact ⟨fun block hBlock => inv'.held block (List.mem_cons_of_mem _ hBlock),
          (List.pairwise_cons.mp inv'.apart).2, inv'.clear⟩
  | znalloc n hPtr =>
      rcases cpageZnalloc_cases h s.mem n with hSame | ⟨hn, first, hFirst⟩
      · rw [hSame] at hPtr
        exact absurd rfl hPtr
      · exact inv.znalloc hn hFirst (hAllowed hn)
  | free block m' hLive hFree => exact inv.free hLive hFree

/-- Live allocations stay disjoint and marked in every run whose requests
fit the free pages behind the pair that the search stops at. -/
theorem sound_of_fitting_run (h : Heap) (m : Memory) {ops : List Op} {s : Use}
    (run : Run (Guarded (Step h) (Allowed h)) { mem := cpageInit h m, live := [] } ops s) :
    Sound h s :=
  (run.invariant (Inv h) (inv_init h m) fun _ _ _ => inv_step).sound

/-- A heap inside the 220 MiB of RAM of the linker script. -/
def ramHeap : Heap where
  start := 0x80060000
  stop := 0x8DC50000
  start_aligned := by decide
  stop_aligned := by decide
  start_le_stop := by decide

theorem ramHeap_pages : ramHeap.pages = 56304 := by decide

def ramInit : Memory := cpageInit ramHeap fun _ => 0

theorem ramInit_firstPair : FirstPair (Cpage.taken ramHeap ramInit) ramHeap.pages 0 :=
  ⟨⟨by rw [ramHeap_pages]; omega, taken_cpageInit _ _ (by rw [ramHeap_pages]; omega),
    taken_cpageInit _ _ (by rw [ramHeap_pages]; omega)⟩, by simp⟩

theorem ramInit_allocated_taken {i count k : Nat} (hi : i < 2 ^ 19) (hFit : i + count ≤ 56304)
    (hk : k < 56304) : Cpage.taken ramHeap (allocated ramHeap ramInit i count) k =
      (decide (i ≤ k) && decide (k < i + count)) := by
  rw [← ramHeap_pages] at hFit hk
  rw [taken_allocated ramHeap ramInit hi hFit hk, ramInit, taken_cpageInit _ _ hk, Bool.false_or]

/-- One successful request, with its page index and page count spelled out. -/
theorem Step.of_firstPair (s : Use) (n : Int) {first : Nat} (i count : Nat) (hn : 0 < n)
    (hFirst : FirstPair (Cpage.taken h s.mem) h.pages first)
    (hi : i = first + max 2 n.toNat - 2) (hCount : count = max 2 n.toNat) (hPtr : h.pageAddr i ≠ 0) :
    Step h s (.znalloc n)
      { mem := allocated h s.mem i count, live := (h.pageAddr i, n) :: s.live } := by
  subst hi hCount
  have hAlloc := cpageZnalloc_of_firstPair h s.mem hn hFirst
  have hStep : Step h s _ _ := Step.znalloc s n (by rw [hAlloc]; exact hPtr)
  rwa [hAlloc] at hStep

theorem ramInit_fits_two : Fits ramHeap ramInit 2 := by
  intro first hFirst
  obtain rfl := hFirst.unique ramInit_firstPair
  rw [ramHeap_pages]
  exact ⟨by omega, by omega, fun k hk => taken_cpageInit _ _ (by rw [ramHeap_pages]; omega)⟩

/-- A first request of one page takes pages 0 and 1. -/
theorem ramInit_two_firstPair :
    FirstPair (Cpage.taken ramHeap (allocated ramHeap ramInit 0 2)) ramHeap.pages 2 := by
  refine ⟨⟨by rw [ramHeap_pages]; omega, ?_, ?_⟩, fun k hk hPair => ?_⟩
  · rw [ramInit_allocated_taken (by omega) (by omega) (by omega)]
    decide
  · rw [ramInit_allocated_taken (by omega) (by omega) (by omega)]
    decide
  · have hClear := hPair.2.1
    rw [ramInit_allocated_taken (by omega) (by omega) (by omega)] at hClear
    simp at hClear
    omega

theorem ramInit_one_step : Step ramHeap { mem := ramInit, live := [] } (.znalloc 1)
    { mem := allocated ramHeap ramInit 0 2, live := [(ramHeap.pageAddr 0, 1)] } :=
  Step.of_firstPair { mem := ramInit, live := [] } 1 0 2
    (by decide) ramInit_firstPair rfl rfl (by decide)

theorem sound_of_fitting_run_ramHeap : ∃ s,
    Run (Guarded (Step ramHeap) (Allowed ramHeap)) { mem := ramInit, live := [] }
      [.znalloc 1, .znalloc 5] s ∧ s.live.length = 2 ∧ Sound ramHeap s := by
  have hFirst := ramInit_two_firstPair
  have hFits' : Fits ramHeap (allocated ramHeap ramInit 0 2) 5 := by
    intro first hFirst'
    obtain rfl := hFirst'.unique hFirst
    rw [ramHeap_pages]
    refine ⟨by omega, by omega, fun k hk => ?_⟩
    rw [ramInit_allocated_taken (by omega) (by omega) (by omega)]
    simp
    omega
  have hStep' := Step.of_firstPair ⟨allocated ramHeap ramInit 0 2, [(ramHeap.pageAddr 0, 1)]⟩ 5 5 5
    (by decide) hFirst rfl rfl (by decide)
  have hRun : Run (Guarded (Step ramHeap) (Allowed ramHeap)) { mem := ramInit, live := [] }
      [.znalloc 1, .znalloc 5] _ :=
    .cons ⟨fun _ => ramInit_fits_two, ramInit_one_step⟩ (.cons ⟨fun _ => hFits', hStep'⟩ (.nil _))
  exact ⟨_, hRun, rfl, sound_of_fitting_run ramHeap (fun _ => 0) hRun⟩

/-- A first request of four pages takes pages 2 to 5. -/
theorem ramInit_four_firstPair :
    FirstPair (Cpage.taken ramHeap (allocated ramHeap ramInit 2 4)) ramHeap.pages 0 := by
  refine ⟨⟨by rw [ramHeap_pages]; omega, ?_, ?_⟩, by simp⟩
  · rw [ramInit_allocated_taken (by omega) (by omega) (by omega)]
    decide
  · rw [ramInit_allocated_taken (by omega) (by omega) (by omega)]
    decide

theorem ramInit_four_step : Step ramHeap { mem := ramInit, live := [] } (.znalloc 4)
    { mem := allocated ramHeap ramInit 2 4, live := [(ramHeap.pageAddr 2, 4)] } :=
  Step.of_firstPair { mem := ramInit, live := [] } 4 2 4
    (by decide) ramInit_firstPair rfl rfl (by decide)

/-- Four pages, then three: the second request is answered with pages 1 to 3,
although the first one holds pages 2 to 5. -/
theorem overlapping_run : ∃ s,
    Run (Step ramHeap) { mem := ramInit, live := [] } [.znalloc 4, .znalloc 3] s ∧
      ¬ Sound ramHeap s := by
  have hStep' := Step.of_firstPair ⟨allocated ramHeap ramInit 2 4, [(ramHeap.pageAddr 2, 4)]⟩ 3 1 3
    (by decide) ramInit_four_firstPair rfl rfl (by decide)
  refine ⟨_, .cons ramInit_four_step (.cons hStep' (.nil _)), fun hSound => ?_⟩
  have hPair := (List.pairwise_cons.mp hSound.disjoint).1 _ (List.mem_singleton_self _)
  exact hPair (ramHeap.pageAddr 2) (by decide) (by decide)

end Kernel.Cpage
