import RiscvOs.Kernel.Virtioblk
import RiscvOs.Semantics.Circular

/-! The descriptors of block requests. `at_idx` serves as the allocator of
descriptors and, in the interrupt handler, as the cursor on the completions;
the handler moves it back to the index of the device. -/
namespace Kernel.Virtioblk

open Semantics Function Virtio

variable {disk : Disk} {r : DiskRequest} {disks disks' : Disks} {name : DiskName}
  {event : DiskEvent} {events : List DiskEvent}

/-- The requests that may be on their way together. -/
def maxRequests (dev : VirtioConfigLoc) : Nat :=
  (dev.queueSize.toNat - 1) / 3

/-- The three descriptors are distinct and of the table, and no request on its
way has one of them. -/
def FreshDescs (disk : Disk) (r : DiskRequest) : Prop :=
  r.descs.Nodup ∧ (∀ d ∈ r.descs, d.toNat < disk.dev.queueSize.toNat) ∧
    ∀ r' ∈ disk.pending, ∀ d ∈ r.descs, d ∉ r'.descs

/-- No more requests than fit are on their way. -/
def FewRequests (disks : Disks) : DiskEvent → Prop
  | .rw name _ => (disks name).pending.length < maxRequests (disks name).dev
  | _ => True

instance (disks : Disks) (event : DiskEvent) : Decidable (FewRequests disks event) :=
  match event with
  | .rw _ _ => inferInstanceAs (Decidable (_ < _))
  | .complete _ _ _ => inferInstanceAs (Decidable True)
  | .isr _ => inferInstanceAs (Decidable True)

/-- No handler moves `at_idx` while a request is on its way, and a new request
finds those on their way among the last few, with `at_idx` not wrapped around
since they were made. -/
def InOrder (disks : Disks) : DiskEvent → Prop
  | .rw name _ => ∀ r ∈ (disks name).pending,
      (disks name).made < r.number + maxRequests (disks name).dev ∧
        r.cursor.toNat ≤ (disks name).dev.atIdx.toNat
  | .isr name => (disks name).pending = [] ∨
      (disks name).dev.atIdx = (disks name).dev.deviceIdx
  | _ => True

/-- The request that `diskRw` makes. -/
def newRequest (args : RwArgs) (disk : Disk) : DiskRequest :=
  ⟨disk.made, disk.dev.atIdx, descIndex disk.dev 0, descIndex disk.dev 1, descIndex disk.dev 2,
    blockRequest disk.blkSize (descIndex disk.dev 0) args⟩

theorem atIdx_self {dev : VirtioConfigLoc} {x : BitVec 16} (h : dev.atIdx = x) :
    dev = { dev with atIdx := x } := by
  subst h
  rfl

theorem isrLoop_eq (fuel : Nat) : ∀ dev : VirtioConfigLoc,
    (dev.deviceIdx - dev.atIdx).toNat ≤ fuel →
    isrLoop fuel dev = { dev with atIdx := dev.deviceIdx } := by
  induction fuel with
  | zero =>
      intro dev hFuel
      have hMeet : dev.atIdx = dev.deviceIdx := by bv_omega
      exact atIdx_self hMeet
  | succ fuel ih =>
      intro dev hFuel
      unfold isrLoop
      by_cases hMeet : dev.atIdx = dev.deviceIdx
      · rw [if_neg (not_not.mpr hMeet)]
        exact atIdx_self hMeet
      · rw [if_pos hMeet]
        exact ih _ (by change (dev.deviceIdx - (dev.atIdx + 1)).toNat ≤ fuel; bv_omega)

/-- The interrupt handler sets `at_idx` to the index of the device. -/
theorem diskIsr_eq (disk : Disk) :
    diskIsr disk = { disk with dev.atIdx := disk.dev.deviceIdx } := by
  unfold diskIsr
  rw [isrLoop_eq _ _ (disk.dev.deviceIdx - disk.dev.atIdx).isLt.le]

/-- The descriptors of a request, by the value of `at_idx`. -/
theorem toNat_ofNat_mod (cursor : BitVec 16) (size : BitVec 16) (i : Nat) (hSize : 4 ≤ size.toNat) :
    (BitVec.ofNat 16 ((cursor.toNat + i) % (size.toNat - 1))).toNat =
      (cursor.toNat + i) % (size.toNat - 1) := by
  rw [BitVec.toNat_ofNat]
  apply Nat.mod_eq_of_lt
  have hLt := Nat.mod_lt (cursor.toNat + i) (by omega : size.toNat - 1 > 0)
  have hWidth := size.isLt
  omega

/-- What is known of a request on its way: its descriptors come from the value
that `at_idx` had, and `at_idx` advances by 3 for each request since. -/
structure Tracked (disk : Disk) (r : DiskRequest) : Prop where
  older : r.number < disk.made
  descs : r.descs = [0, 1, 2].map fun i =>
    BitVec.ofNat 16 ((r.cursor.toNat + i) % (disk.dev.queueSize.toNat - 1))
  cursor : disk.dev.atIdx = r.cursor + BitVec.ofNat 16 (3 * (disk.made - r.number))

theorem mem_descs_iff {size cursor d : BitVec 16} (hSize : 4 ≤ size.toNat) :
    (d ∈ [0, 1, 2].map fun i => BitVec.ofNat 16 ((cursor.toNat + i) % (size.toNat - 1))) ↔
      ∃ i < 3, d.toNat = (cursor.toNat + i) % (size.toNat - 1) := by
  constructor
  · intro hMem
    obtain ⟨i, hi, rfl⟩ := List.mem_map.mp hMem
    have hLt : i < 3 := by
      simp only [List.mem_cons, List.not_mem_nil, or_false] at hi
      omega
    exact ⟨i, hLt, toNat_ofNat_mod cursor size i hSize⟩
  · rintro ⟨i, hi, hValue⟩
    refine List.mem_map.mpr ⟨i, ?_, ?_⟩
    · simp only [List.mem_cons, List.not_mem_nil, or_false]
      omega
    · apply BitVec.eq_of_toNat_eq
      rw [toNat_ofNat_mod cursor size i hSize, hValue]

/-- A new request is apart from the tracked ones, if few were made since. -/
theorem Tracked.disjoint (h : Tracked disk r) (hSize : 4 ≤ disk.dev.queueSize.toNat)
    (hFew : disk.made < r.number + maxRequests disk.dev)
    (hCursor : r.cursor.toNat ≤ disk.dev.atIdx.toNat) (args : RwArgs) :
    ∀ d ∈ (newRequest args disk).descs, d ∉ r.descs := by
  intro d hNew hOld
  have hPlace : ∃ i < 3, d.toNat =
      (disk.dev.atIdx.toNat + i) % (disk.dev.queueSize.toNat - 1) := (mem_descs_iff hSize).mp hNew
  obtain ⟨i, hi, hValue⟩ := hPlace
  rw [h.descs] at hOld
  obtain ⟨j, hj, hValue'⟩ := (mem_descs_iff hSize).mp hOld
  have hOlder := h.older
  have hAdvance := congrArg BitVec.toNat h.cursor
  have hWidth := disk.dev.queueSize.isLt
  unfold maxRequests at hFew
  rw [BitVec.toNat_add, BitVec.toNat_ofNat] at hAdvance
  have hExact : disk.dev.atIdx.toNat = r.cursor.toNat + 3 * (disk.made - r.number) := by
    have hOld := r.cursor.isLt
    omega
  have hOther : (r.cursor.toNat + j) % (disk.dev.queueSize.toNat - 1) ≠
      (disk.dev.atIdx.toNat + i) % (disk.dev.queueSize.toNat - 1) :=
    mod_ne_of_lt (by omega) (by omega)
  apply hOther
  rw [← hValue, ← hValue']

/-- The sizes stay, and all requests on their way are tracked. -/
structure Orderly (queueSize : DiskName → BitVec 16) (disks : Disks) (name : DiskName) : Prop where
  size : (disks name).dev.queueSize = queueSize name
  tracked : ∀ r ∈ (disks name).pending, Tracked (disks name) r

theorem descs_newRequest (args : RwArgs) (disk : Disk) :
    (newRequest args disk).descs = [0, 1, 2].map fun i =>
      BitVec.ofNat 16 ((disk.dev.atIdx.toNat + i) % (disk.dev.queueSize.toNat - 1)) :=
  rfl

theorem tracked_diskRw (h : ∀ r ∈ disk.pending, Tracked disk r) (args : RwArgs) :
    ∀ r ∈ (diskRw args disk).pending, Tracked (diskRw args disk) r := by
  intro r hMem
  rcases List.mem_append.mp hMem with hOld | hNew
  · have hTracked := h r hOld
    have hOlder := hTracked.older
    refine ⟨Nat.lt_succ_of_lt hOlder, hTracked.descs, ?_⟩
    have hCount : 3 * (disk.made + 1 - r.number) = 3 * (disk.made - r.number) + 3 := by omega
    change disk.dev.atIdx + 3 = r.cursor + BitVec.ofNat 16 (3 * (disk.made + 1 - r.number))
    rw [hTracked.cursor, hCount, BitVec.ofNat_add, BitVec.add_assoc]
    rfl
  · have hOwn : r = newRequest args disk := List.mem_singleton.mp hNew
    subst hOwn
    refine ⟨Nat.lt_succ_self _, descs_newRequest args disk, ?_⟩
    change disk.dev.atIdx + 3 = disk.dev.atIdx +
      BitVec.ofNat 16 (3 * (disk.made + 1 - disk.made))
    rw [Nat.add_sub_cancel_left]
    rfl

theorem Tracked.diskComplete (h : Tracked disk r) (r' : DiskRequest) (status : BitVec 8) :
    Tracked (diskComplete r' status disk) r :=
  ⟨h.older, h.descs, h.cursor⟩

theorem DiskStep.orderly {queueSize : DiskName → BitVec 16}
    (hStep : Guarded DiskStep InOrder disks event disks') (name : DiskName)
    (h : Orderly queueSize disks name) : Orderly queueSize disks' name := by
  obtain ⟨hOrder, hStep⟩ := hStep
  cases hStep with
  | rw name' args =>
      rw [rwOf_eq]
      by_cases hSame : name = name'
      · subst hSame
        refine ⟨?_, ?_⟩
        · simpa [diskRw, offer] using h.size
        · simpa using tracked_diskRw h.tracked args
      · exact ⟨by simpa [hSame] using h.size, by simpa [hSame] using h.tracked⟩
  | @complete name' r status hPending =>
      by_cases hSame : name = name'
      · subst hSame
        refine ⟨?_, fun r' hMem => ?_⟩
        · simpa [diskComplete, addUsed] using h.size
        · rw [update_self] at hMem ⊢
          exact (h.tracked r' (List.mem_of_mem_erase hMem)).diskComplete r status
      · exact ⟨by simpa [hSame] using h.size, by simpa [hSame] using h.tracked⟩
  | isr name' =>
      rw [isrOf_eq, diskIsr_eq]
      by_cases hSame : name = name'
      · subst hSame
        refine ⟨by simpa using h.size, fun r hMem => ?_⟩
        rw [update_self] at hMem ⊢
        rcases hOrder with hNone | hMeet
        · rw [hNone] at hMem
          cases hMem
        · rw [← atIdx_self hMeet]
          exact h.tracked r hMem
      · exact ⟨by simpa [hSame] using h.size, by simpa [hSame] using h.tracked⟩

theorem orderly_of_run {queueSize : DiskName → BitVec 16} {blkSize : DiskName → BitVec 32}
    (run : Run (Guarded DiskStep InOrder) (fun name => Disk.fresh (queueSize name) (blkSize name))
      events disks) (name : DiskName) : Orderly queueSize disks name :=
  run.invariant (fun disks => Orderly queueSize disks name)
    ⟨rfl, fun r hMem => by cases hMem⟩
    (fun _ _ _ h hStep => DiskStep.orderly hStep name h)

/-- The descriptors of one request are distinct and of the table. -/
theorem newRequest_descs (hSize : 4 ≤ disk.dev.queueSize.toNat) (args : RwArgs) :
    (newRequest args disk).descs.Nodup ∧
      ∀ d ∈ (newRequest args disk).descs, d.toNat < disk.dev.queueSize.toNat := by
  rw [descs_newRequest]
  constructor
  · apply List.Nodup.map_on _ (by decide)
    intro i hi j hj hSame
    have hValue := congrArg BitVec.toNat hSame
    simp only [toNat_ofNat_mod _ _ _ hSize] at hValue
    simp only [List.mem_cons, List.not_mem_nil, or_false] at hi hj
    by_contra hNe
    rcases Nat.lt_or_gt_of_ne hNe with hLt | hLt
    · exact mod_ne_of_lt (by omega) (by omega) hValue
    · exact mod_ne_of_lt (by omega) (by omega) hValue.symm
  · intro d hMem
    obtain ⟨i, _, hValue⟩ := (mem_descs_iff hSize).mp hMem
    rw [hValue]
    have hLt := Nat.mod_lt (disk.dev.atIdx.toNat + i) (by omega : disk.dev.queueSize.toNat - 1 > 0)
    omega

/-- While the handlers do not move `at_idx` under requests on their way, and
those are among the last few when a request is made, each new request has three
descriptors of its own. -/
theorem descs_disjoint {queueSize : DiskName → BitVec 16} {blkSize : DiskName → BitVec 32}
    (hSize : ∀ name, 4 ≤ (queueSize name).toNat)
    (run : Run (Guarded DiskStep InOrder) (fun name => Disk.fresh (queueSize name) (blkSize name))
      events disks) {name : DiskName} {args : RwArgs} (hOrder : InOrder disks (.rw name args)) :
    (rwOf name args disks name).pending = (disks name).pending ++ [newRequest args (disks name)] ∧
      FreshDescs (disks name) (newRequest args (disks name)) := by
  have h := orderly_of_run run name
  have hFour : 4 ≤ (disks name).dev.queueSize.toNat := by
    rw [h.size]
    exact hSize name
  obtain ⟨hNodup, hTable⟩ := newRequest_descs hFour args
  refine ⟨by rw [rwOf_eq, update_self]; rfl, hNodup, hTable, fun r hMem => ?_⟩
  exact (h.tracked r hMem).disjoint hFour (hOrder r hMem).1 (hOrder r hMem).2 args

/-- The first sector of the first device is read into a buffer. -/
def firstArgs : RwArgs where
  buff := 0x80100000
  byteStart := 0
  byteEnd := 512
  rw := 0
  rq := 0x80200000
  translate := id

/-- Queues of 8 descriptors, so that two requests may be on their way. -/
def firstDisks : Disks :=
  fun _ => Disk.fresh 8 512

theorem descs_disjoint_second :
    (rwOf .pciBlk firstArgs (rwOf .pciBlk firstArgs firstDisks) .pciBlk).pending =
        (rwOf .pciBlk firstArgs firstDisks .pciBlk).pending ++
          [newRequest firstArgs (rwOf .pciBlk firstArgs firstDisks .pciBlk)] ∧
      FreshDescs (rwOf .pciBlk firstArgs firstDisks .pciBlk)
        (newRequest firstArgs (rwOf .pciBlk firstArgs firstDisks .pciBlk)) := by
  have hNone : InOrder firstDisks (.rw .pciBlk firstArgs) := fun r hMem => by cases hMem
  refine descs_disjoint (fun _ => by decide) (Run.snoc (Run.nil _) ⟨hNone, .rw _ _ _⟩) ?_
  intro r hMem
  have hOwn : r = newRequest firstArgs (Disk.fresh 8 512) := List.mem_singleton.mp hMem
  subst hOwn
  decide

/-- Two requests are made and the first one is completed; then the handler has
moved `at_idx` back to 1. -/
def twoDisks : Disks :=
  rwOf .pciBlk firstArgs (rwOf .pciBlk firstArgs firstDisks)

def oneDisks : Disks :=
  update twoDisks .pciBlk
    (diskComplete (newRequest firstArgs (Disk.fresh 8 512)) statusOk (twoDisks .pciBlk))

def resetDisks : Disks :=
  update oneDisks .pciBlk
    { oneDisks .pciBlk with dev.atIdx := (oneDisks .pciBlk).dev.deviceIdx }

theorem resetDisks_run : ∃ events, Run (Guarded DiskStep FewRequests) firstDisks events resetDisks := by
  have hTwo : Run (Guarded DiskStep FewRequests) firstDisks _ twoDisks :=
    ((Run.nil _).snoc ⟨by decide, .rw _ .pciBlk firstArgs⟩).snoc
      ⟨by decide, .rw _ .pciBlk firstArgs⟩
  have hComplete : Guarded DiskStep FewRequests twoDisks
      (.complete .pciBlk (newRequest firstArgs (Disk.fresh 8 512)) statusOk) oneDisks :=
    ⟨trivial, .complete statusOk List.mem_cons_self⟩
  have hIsr : Guarded DiskStep FewRequests oneDisks (.isr .pciBlk) resetDisks := by
    have hReset : resetDisks = isrOf .pciBlk oneDisks := by
      rw [isrOf_eq, diskIsr_eq, resetDisks]
    rw [hReset]
    exact ⟨trivial, .isr _ _⟩
  exact ⟨_, (hTwo.snoc hComplete).snoc hIsr⟩

/-- After that the next request takes the descriptor 3 of the second one. -/
theorem not_descs_disjoint : ¬ ∀ events disks,
    Run (Guarded DiskStep FewRequests) firstDisks events disks → ∀ name args,
      FewRequests disks (.rw name args) →
      FreshDescs (disks name) (newRequest args (disks name)) := by
  intro hClaim
  obtain ⟨events, hRun⟩ := resetDisks_run
  have hApart := (hClaim events _ hRun .pciBlk firstArgs (by decide)).2.2
  have hSecond : newRequest firstArgs (rwOf .pciBlk firstArgs firstDisks .pciBlk) ∈
      (resetDisks .pciBlk).pending := List.mem_cons_self
  exact hApart _ hSecond 3#16 (by decide) (by decide)

end Kernel.Virtioblk
