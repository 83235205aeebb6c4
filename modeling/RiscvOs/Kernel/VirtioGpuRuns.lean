import RiscvOs.Kernel.VirtioGpu

/-! When a call of `virtio_gpu_wait` returns with its own completion. A call
knows its chain by the head alone, and `devidx` may be moved before it is
loaded. -/
namespace Kernel.VirtioGpu

open Semantics Function Virtio

variable {queueSize : BitVec 16} {s t : Gpu} {event : GpuEvent} {events : List GpuEvent}
  {n : Nat} {idx : BitVec 16}

/-- The elements of the device ring from an index on that do not carry the head
of a chain. -/
def Unlike (dev : VirtGpuDevice) (idx head : BitVec 16) : Prop :=
  ∀ k < added dev idx,
    (dev.deviceRing (slot dev (idx + BitVec.ofNat 16 k))).id ≠ head.setWidth 32

/-- The completion of a chain is at or after an index of the device ring. -/
def Ahead (s : Gpu) (n : Nat) (idx : BitVec 16) : Prop :=
  ∃ k < added s.dev idx, s.owner (slot s.dev (idx + BitVec.ofNat 16 k)) = some n

/-- A request takes a head that no chain on its way and no element from
`devidx` on has; the interrupt branch does not pass the completion of a call
that has yet to load `devidx`; a completion neither takes the slot of one that
is waited for nor brings the index of the device round to a waiting call. -/
def Calm (s : Gpu) : GpuEvent → Prop
  | .submit _ => (∀ n, s.pending n = true → s.head n ≠ headOf s.dev) ∧
      Unlike s.dev s.dev.devidx (headOf s.dev)
  | .irq => ∀ n, s.place n = .submitted → s.owner (slot s.dev s.dev.devidx) ≠ some n
  | .complete _ _ => ∀ n idx, cursor s n = some idx →
      s.owner (slot s.dev s.dev.deviceIdx) ≠ some n ∧ s.dev.deviceIdx + 1 ≠ idx
  | _ => True

/-- What a waiting call can rely on: as long as its chain is on its way, no
element that it will see carries its head; then its completion is ahead. -/
inductive Waits (s : Gpu) (n : Nat) (idx : BitVec 16) : Prop where
  | running (pending : s.pending n = true) (unlike : Unlike s.dev idx (s.head n))
  | completed (pending : s.pending n = false) (ahead : Ahead s n idx)

structure Sound (s : Gpu) : Prop where
  waits : ∀ n idx, cursor s n = some idx → Waits s n idx
  owner : ∀ i n, s.owner i = some n →
    (s.dev.deviceRing i).id = (s.head n).setWidth 32 ∧ n < s.made ∧ s.pending n = false
  pending : ∀ n, s.pending n = true → n < s.made
  place : ∀ n, s.place n ≠ .absent → n < s.made
  distinct : ∀ n m, s.pending n = true → s.pending m = true → n ≠ m → s.head n ≠ s.head m

theorem head_ne {a b : BitVec 16} (h : a ≠ b) : a.setWidth 32 ≠ b.setWidth 32 := by
  intro hSame
  apply h
  bv_omega

/-- Both devices are the same to whoever looks at the device ring. -/
structure SameDevice (dev dev' : VirtGpuDevice) : Prop where
  queueSize : dev'.queueSize = dev.queueSize
  deviceRing : dev'.deviceRing = dev.deviceRing
  deviceIdx : dev'.deviceIdx = dev.deviceIdx
  devidx : dev'.devidx = dev.devidx

theorem addRequest_device (args : GpuArgs) (desc : BitVec 16) (dev : VirtGpuDevice) :
    SameDevice dev (addRequest args desc dev) :=
  ⟨rfl, rfl, rfl, rfl⟩

theorem addData_device (args : GpuArgs) (desc : BitVec 16) (dev : VirtGpuDevice) :
    SameDevice dev (addData args desc dev).2 := by
  unfold addData
  split <;> exact ⟨rfl, rfl, rfl, rfl⟩

theorem addResponse_device (args : GpuArgs) (desc : BitVec 16) (dev : VirtGpuDevice) :
    SameDevice dev (addResponse args desc dev) := by
  unfold addResponse
  split <;> exact ⟨rfl, rfl, rfl, rfl⟩

theorem offerHead_device (head : BitVec 16) (dev : VirtGpuDevice) :
    SameDevice dev (offerHead head dev) :=
  ⟨rfl, rfl, rfl, rfl⟩

theorem SameDevice.trans {a b c : VirtGpuDevice} (h : SameDevice a b) (h' : SameDevice b c) :
    SameDevice a c :=
  ⟨h'.queueSize.trans h.queueSize, h'.deviceRing.trans h.deviceRing,
    h'.deviceIdx.trans h.deviceIdx, h'.devidx.trans h.devidx⟩

/-- A request leaves the side of the device as it is. -/
theorem gpuSubmit_device (args : GpuArgs) (dev : VirtGpuDevice) :
    SameDevice dev (gpuSubmit args dev) := by
  have hRequest := addRequest_device args (headOf dev) dev
  have hData := addData_device args (headOf dev) (addRequest args (headOf dev) dev)
  exact hRequest.trans (hData.trans ((addResponse_device args _ _).trans (offerHead_device _ _)))

/-- One more element is ahead of every index but the next one. -/
theorem added_complete {len : BitVec 32} (h : s.dev.deviceIdx + 1 ≠ idx) :
    added (complete n len s).dev idx = added s.dev idx + 1 := by
  unfold added complete
  simp only
  bv_omega

/-- The element of a completion. -/
theorem complete_deviceRing_self {len : BitVec 32} {idx' : BitVec 16}
    (h : slot s.dev idx' = slot s.dev s.dev.deviceIdx) :
    (complete n len s).dev.deviceRing (slot (complete n len s).dev idx') =
      ⟨(s.head n).setWidth 32, len⟩ :=
  (congrArg (complete n len s).dev.deviceRing h).trans (update_self _ _ _)

theorem complete_deviceRing_of_ne {len : BitVec 32} {idx' : BitVec 16}
    (h : slot s.dev idx' ≠ slot s.dev s.dev.deviceIdx) :
    (complete n len s).dev.deviceRing (slot (complete n len s).dev idx') =
      s.dev.deviceRing (slot s.dev idx') :=
  update_of_ne h _ _

theorem pending_of_complete {len : BitVec 32} {m : Nat}
    (h : (complete n len s).pending m = true) : m ≠ n ∧ s.pending m = true := by
  by_cases hSame : m = n
  · subst hSame
    simp [complete] at h
  · exact ⟨hSame, (update_of_ne hSame _ _).symm.trans h⟩

theorem idx_add_added (dev : VirtGpuDevice) (idx : BitVec 16) :
    idx + BitVec.ofNat 16 (added dev idx) = dev.deviceIdx := by
  unfold added
  bv_omega

/-- The elements after the one at an index. -/
theorem added_succ (dev : VirtGpuDevice) (idx : BitVec 16) (h : idx ≠ dev.deviceIdx) :
    added dev idx = added dev (idx + 1) + 1 := by
  unfold added
  bv_omega

theorem add_one_ofNat (idx : BitVec 16) (k : Nat) :
    idx + 1 + BitVec.ofNat 16 k = idx + BitVec.ofNat 16 (k + 1) := by
  rw [BitVec.ofNat_add, BitVec.add_assoc, BitVec.add_comm 1]
  rfl

theorem Unlike.tail {dev : VirtGpuDevice} {head : BitVec 16} (h : Unlike dev idx head)
    (hNext : idx ≠ dev.deviceIdx) : Unlike dev (idx + 1) head := by
  intro k hk
  rw [add_one_ofNat]
  exact h (k + 1) (by rw [added_succ dev idx hNext]; omega)

/-- A completion ahead is ahead of the next index, unless it is at this one. -/
theorem Ahead.tail (h : Ahead s n idx) (hNext : idx ≠ s.dev.deviceIdx)
    (hOther : s.owner (slot s.dev idx) ≠ some n) : Ahead s n (idx + 1) := by
  obtain ⟨k, hk, hOwner⟩ := h
  rw [added_succ s.dev idx hNext] at hk
  cases k with
  | zero => exact absurd (by simpa using hOwner) hOther
  | succ k => exact ⟨k, by omega, by rwa [add_one_ofNat]⟩

/-- A waiting call goes on to the next element. -/
theorem Waits.tail (h : Waits s n idx) (hNext : idx ≠ s.dev.deviceIdx)
    (hOther : s.owner (slot s.dev idx) ≠ some n) : Waits s n (idx + 1) := by
  cases h with
  | running pending unlike => exact .running pending (unlike.tail hNext)
  | completed pending ahead => exact .completed pending (ahead.tail hNext hOther)

theorem SameDevice.added_eq {dev dev' : VirtGpuDevice} (h : SameDevice dev dev') :
    added dev' idx = added dev idx := by
  unfold added
  rw [h.deviceIdx]

theorem SameDevice.slot_eq {dev dev' : VirtGpuDevice} (h : SameDevice dev dev') :
    slot dev' idx = slot dev idx := by
  unfold slot
  rw [h.queueSize]

theorem Unlike.congr {dev dev' : VirtGpuDevice} {head : BitVec 16} (h : Unlike dev idx head)
    (hDev : SameDevice dev dev') : Unlike dev' idx head := by
  intro k hk
  rw [hDev.added_eq] at hk
  rw [hDev.deviceRing, hDev.slot_eq]
  exact h k hk

/-- A call that waits sees the same after a step that changes neither its own
record nor the device ring. -/
theorem Waits.congr (h : Waits s n idx) (hDev : SameDevice s.dev t.dev)
    (hHead : t.head n = s.head n) (hPending : t.pending n = s.pending n)
    (hOwner : t.owner = s.owner) : Waits t n idx := by
  cases h with
  | running pending unlike =>
      exact .running (hPending.trans pending) (hHead ▸ unlike.congr hDev)
  | completed pending ahead =>
      obtain ⟨k, hk, hMine⟩ := ahead
      refine .completed (hPending.trans pending) ⟨k, by rwa [hDev.added_eq], ?_⟩
      rw [hDev.slot_eq, hOwner]
      exact hMine

/-! The cursors after a step. -/

theorem cursor_submit (args : GpuArgs) (m : Nat) (h : m ≠ s.made) :
    cursor (submit args s) m = cursor s m := by
  unfold cursor submit
  simp only [update_of_ne h, (gpuSubmit_device args s.dev).devidx]

theorem cursor_submit_made (args : GpuArgs) :
    cursor (submit args s) s.made = some s.dev.devidx := by
  unfold cursor submit
  simp only [update_self, (gpuSubmit_device args s.dev).devidx]

theorem cursor_load (h : s.place n = .submitted) (m : Nat) :
    cursor (load n s) m = cursor s m := by
  unfold cursor load
  by_cases hSame : m = n
  · subst hSame
    simp only [update_self, h]
  · simp only [update_of_ne hSame]

/-- A call whose place is overwritten leaves the other cursors as they are. -/
theorem cursor_update_of_ne (place : WaitPlace) {m : Nat} (h : m ≠ n) :
    cursor { s with place := update s.place n place } m = cursor s m := by
  unfold cursor
  simp only [update_of_ne h]

theorem cursor_eq_some (h : cursor s n = some idx) : s.place n ≠ .absent := by
  intro hPlace
  simp [cursor, hPlace] at h

theorem cursor_scanning {desc : BitVec 16} (h : s.place n = .scanning desc) :
    cursor s n = some desc := by
  simp only [cursor, h]

/-- The interrupt branch moves the calls that have not loaded `devidx`. -/
theorem cursor_irqPass (h : cursor (irqPass s) n = some idx) :
    (s.place n = .submitted ∧ idx = s.dev.devidx + 1) ∨ cursor s n = some idx := by
  cases hPlace : s.place n with
  | absent => simp [cursor, irqPass, hPlace] at h
  | returned => simp [cursor, irqPass, hPlace] at h
  | submitted =>
      simp only [cursor, irqPass, hPlace, Option.some.injEq] at h
      exact .inl ⟨rfl, h.symm⟩
  | scanning desc =>
      simp only [cursor, irqPass, hPlace] at h
      exact .inr (by simpa only [cursor, hPlace] using h)

/-! Every step keeps what the waiting calls rely on. -/

/-- Only the places change. -/
theorem Waits.place (h : Waits s n idx) (place : Nat → WaitPlace) :
    Waits { s with place := place } n idx := by
  cases h with
  | running pending unlike => exact .running pending unlike
  | completed pending ahead => exact .completed pending ahead

theorem Waits.irqPass (h : Waits s n idx) : Waits (irqPass s) n idx := by
  cases h with
  | running pending unlike => exact .running pending unlike
  | completed pending ahead => exact .completed pending ahead

theorem gpuInitial_sound (queueSize : BitVec 16) : Sound (gpuInitial queueSize) where
  waits := by
    intro n idx h
    exact absurd rfl (cursor_eq_some h)
  owner := by
    intro i n h
    cases h
  pending := by
    intro n h
    cases h
  place := by
    intro n h
    exact absurd rfl h
  distinct := by
    intro n m h
    cases h

theorem Sound.submit (h : Sound s) (args : GpuArgs) (hCalm : Calm s (.submit args)) :
    Sound (submit args s) := by
  have hDev := gpuSubmit_device args s.dev
  have hOld : ∀ m < s.made, m ≠ s.made := fun m hm => Nat.ne_of_lt hm
  have hHead : ∀ m, m ≠ s.made → (VirtioGpu.submit args s).head m = s.head m :=
    fun m hm => update_of_ne hm _ _
  have hPending : ∀ m, m ≠ s.made → (VirtioGpu.submit args s).pending m = s.pending m :=
    fun m hm => update_of_ne hm _ _
  constructor
  case waits =>
    intro m idx hCursor
    by_cases hNew : m = s.made
    · subst hNew
      rw [cursor_submit_made] at hCursor
      cases hCursor
      refine .running (update_self _ _ _) ?_
      have hHead : (VirtioGpu.submit args s).head s.made = headOf s.dev := update_self _ _ _
      rw [hHead]
      exact hCalm.2.congr hDev
    · rw [cursor_submit args m hNew] at hCursor
      exact (h.waits m idx hCursor).congr hDev (hHead m hNew) (hPending m hNew) rfl
  case owner =>
    intro i m hOwner
    obtain ⟨hId, hMade, hDone⟩ := h.owner i m hOwner
    rw [hHead m (hOld m hMade), hPending m (hOld m hMade)]
    refine ⟨?_, Nat.lt_succ_of_lt hMade, hDone⟩
    exact (congrArg (fun ring => (ring i).id) hDev.deviceRing).trans hId
  case pending =>
    intro m hm
    by_cases hNew : m = s.made
    · exact hNew ▸ Nat.lt_succ_self _
    · rw [hPending m hNew] at hm
      exact Nat.lt_succ_of_lt (h.pending m hm)
  case place =>
    intro m hm
    by_cases hNew : m = s.made
    · exact hNew ▸ Nat.lt_succ_self _
    · have hPlace : (VirtioGpu.submit args s).place m = s.place m := update_of_ne hNew _ _
      rw [hPlace] at hm
      exact Nat.lt_succ_of_lt (h.place m hm)
  case distinct =>
    intro a b ha hb hNe
    have hMine : (VirtioGpu.submit args s).head s.made = headOf s.dev := update_self _ _ _
    by_cases hA : a = s.made
    · subst hA
      have hB : b ≠ s.made := hNe.symm
      rw [hPending b hB] at hb
      rw [hMine, hHead b hB]
      exact (hCalm.1 b hb).symm
    · rw [hPending a hA] at ha
      rw [hHead a hA]
      by_cases hB : b = s.made
      · subst hB
        rw [hMine]
        exact hCalm.1 a ha
      · rw [hPending b hB] at hb
        rw [hHead b hB]
        exact h.distinct a b ha hb hNe

/-- A call goes to a place from where it waits. -/
theorem Sound.moved (h : Sound s) (place : WaitPlace) (hMade : n < s.made)
    (hWaits : ∀ idx, cursor { s with place := update s.place n place } n = some idx →
      Waits s n idx) : Sound { s with place := update s.place n place } where
  waits := by
    intro m idx hCursor
    by_cases hSame : m = n
    · subst hSame
      exact (hWaits idx hCursor).place _
    · rw [cursor_update_of_ne place hSame] at hCursor
      exact (h.waits m idx hCursor).place _
  owner := h.owner
  pending := h.pending
  place := by
    intro m hPlace
    by_cases hSame : m = n
    · exact hSame ▸ hMade
    · simp only [update_of_ne hSame] at hPlace
      exact h.place m hPlace
  distinct := h.distinct

theorem Sound.load (h : Sound s) (hPlace : s.place n = .submitted) : Sound (load n s) := by
  apply h.moved _ (h.place n (by simp [hPlace]))
  intro idx hCursor
  exact h.waits n idx ((cursor_load hPlace n).symm.trans hCursor)

/-- An element that a waiting call owns carries its head. -/
theorem Sound.id_of_owner (h : Sound s) {i : Nat} (hOwner : s.owner i = some n) :
    (s.dev.deviceRing i).id = (s.head n).setWidth 32 :=
  (h.owner i n hOwner).1

theorem Sound.scan {desc : BitVec 16} (h : Sound s) (hPlace : s.place n = .scanning desc) :
    Sound (scan n desc s) := by
  have hMade := h.place n (by simp [hPlace])
  have hWaits := h.waits n desc (cursor_scanning hPlace)
  unfold VirtioGpu.scan
  split
  · exact h
  next hNext =>
    split
    · apply h.moved _ hMade
      intro idx hCursor
      simp [cursor] at hCursor
    next hOther =>
      apply h.moved _ hMade
      intro idx hCursor
      simp only [cursor, update_self, Option.some.injEq] at hCursor
      subst hCursor
      exact hWaits.tail hNext (fun hMine => hOther (h.id_of_owner hMine))

theorem Sound.irqPass (h : Sound s) (hBehind : s.dev.devidx ≠ s.dev.deviceIdx)
    (hCalm : Calm s .irq) : Sound (irqPass s) where
  waits := by
    intro n idx hCursor
    rcases cursor_irqPass hCursor with ⟨hPlace, rfl⟩ | hSame
    · have hWaits := h.waits n s.dev.devidx (by simp only [cursor, hPlace])
      exact (hWaits.tail hBehind (hCalm n hPlace)).irqPass
    · exact (h.waits n idx hSame).irqPass
  owner := h.owner
  pending := h.pending
  place := h.place
  distinct := h.distinct

theorem Sound.complete (h : Sound s) (hPending : s.pending n = true) (len : BitVec 32)
    (hCalm : Calm s (.complete n len)) : Sound (complete n len s) where
  waits := by
    intro m idx hCursor
    obtain ⟨hSlot, hRoom⟩ := hCalm m idx hCursor
    have hAdded : added (VirtioGpu.complete n len s).dev idx = added s.dev idx + 1 :=
      added_complete hRoom
    by_cases hSame : m = n
    · subst hSame
      refine .completed (update_self _ _ _) ⟨added s.dev idx, by omega, ?_⟩
      have hLast : slot s.dev (idx + BitVec.ofNat 16 (added s.dev idx)) =
          slot s.dev s.dev.deviceIdx := by
        rw [idx_add_added]
      exact hLast ▸ update_self _ _ _
    · cases h.waits m idx hCursor with
      | running pending unlike =>
          refine .running ((update_of_ne hSame _ _).trans pending) ?_
          intro k hk
          have hHeads := head_ne (h.distinct n m hPending pending (Ne.symm hSame))
          by_cases hLast : slot s.dev (idx + BitVec.ofNat 16 k) = slot s.dev s.dev.deviceIdx
          · rw [complete_deviceRing_self hLast]
            exact hHeads
          · rw [complete_deviceRing_of_ne hLast]
            apply unlike k
            have hNot : k ≠ added s.dev idx := by
              rintro rfl
              exact hLast (by rw [idx_add_added])
            omega
      | completed pending ahead =>
          obtain ⟨k, hk, hMine⟩ := ahead
          refine .completed ((update_of_ne hSame _ _).trans pending) ⟨k, by omega, ?_⟩
          have hOther : slot s.dev (idx + BitVec.ofNat 16 k) ≠ slot s.dev s.dev.deviceIdx := by
            intro hLast
            exact hSlot (hLast ▸ hMine)
          exact (update_of_ne hOther _ _).trans hMine
  owner := by
    intro i m hOwner
    by_cases hLast : i = slot s.dev s.dev.deviceIdx
    · subst hLast
      have hNew : (VirtioGpu.complete n len s).owner (slot s.dev s.dev.deviceIdx) = some n :=
        update_self _ _ _
      rw [hNew] at hOwner
      cases hOwner
      refine ⟨?_, h.pending n hPending, update_self _ _ _⟩
      have hRing : (VirtioGpu.complete n len s).dev.deviceRing (slot s.dev s.dev.deviceIdx) =
          ⟨(s.head n).setWidth 32, len⟩ := complete_deviceRing_self rfl
      rw [hRing]
      rfl
    · have hOld : s.owner i = some m := (update_of_ne hLast _ _).symm.trans hOwner
      obtain ⟨hId, hMade, hDone⟩ := h.owner i m hOld
      refine ⟨?_, hMade, ?_⟩
      · exact (congrArg VirtqUsedElem.id (update_of_ne hLast _ _)).trans hId
      · by_cases hSame : m = n
        · exact hSame ▸ update_self _ _ _
        · exact (update_of_ne hSame _ _).trans hDone
  pending := by
    intro m hm
    exact h.pending m (pending_of_complete hm).2
  place := h.place
  distinct := by
    intro a b ha hb
    exact h.distinct a b (pending_of_complete ha).2 (pending_of_complete hb).2

theorem Sound.step (h : Sound s) (hStep : Guarded GpuStep Calm s event t) : Sound t := by
  obtain ⟨hCalm, step⟩ := hStep
  cases step with
  | submit args => exact h.submit args hCalm
  | load place => exact h.load place
  | scan place => exact h.scan place
  | complete pending len => exact h.complete pending len hCalm
  | irq behind => exact h.irqPass behind hCalm

theorem run_sound {queueSize : BitVec 16}
    (run : Run (Guarded GpuStep Calm) (gpuInitial queueSize) events s) : Sound s :=
  run.invariant Sound (gpuInitial_sound queueSize) (fun _ _ _ h step => h.step step)

/-- A call that returns from its next pass finds the completion of its own
chain on the device ring, and a completion of a waiting call is at its cursor
or after it. -/
structure WaitCorrect (s : Gpu) : Prop where
  returns : ∀ n desc, s.place n = .scanning desc → (scan n desc s).place n = .returned →
    s.pending n = false ∧ ∃ i, s.owner i = some n
  found : ∀ n idx, cursor s n = some idx → s.pending n = false → Ahead s n idx

/-- The pass that returns is at an element with the head of the call. -/
theorem scan_returned {desc : BitVec 16} (hPlace : s.place n = .scanning desc)
    (hScan : (scan n desc s).place n = .returned) :
    desc ≠ s.dev.deviceIdx ∧
      (s.dev.deviceRing (slot s.dev desc)).id = (s.head n).setWidth 32 := by
  unfold scan at hScan
  split at hScan
  · rw [hPlace] at hScan
    cases hScan
  next hNext =>
    split at hScan
    next hId => exact ⟨hNext, hId⟩
    · simp at hScan

theorem Sound.waitCorrect (h : Sound s) : WaitCorrect s where
  returns := by
    intro n desc hPlace hScan
    obtain ⟨hNext, hId⟩ := scan_returned hPlace hScan
    cases h.waits n desc (cursor_scanning hPlace) with
    | running pending unlike =>
        have hFirst := unlike 0 (by rw [added_succ s.dev desc hNext]; omega)
        exact absurd (by simpa using hId) hFirst
    | completed pending ahead =>
        obtain ⟨k, _, hMine⟩ := ahead
        exact ⟨pending, _, hMine⟩
  found := by
    intro n idx hCursor hDone
    cases h.waits n idx hCursor with
    | running pending _ => simp [hDone] at pending
    | completed _ ahead => exact ahead

/-- In a run whose steps are calm, `virtio_gpu_wait` returns with its own
completion, and its loop can still find it. -/
theorem wait_correct {queueSize : BitVec 16}
    (run : Run (Guarded GpuStep Calm) (gpuInitial queueSize) events s) : WaitCorrect s :=
  (run_sound run).waitCorrect

/-- A request with a response and no data. -/
def infoRequest : GpuArgs where
  rq := 0x1000
  rqSize := 24
  data := 0
  dataSize := 0
  resp := 0x2000
  respSize := 408
  write := false
  translate := id

/-- A call that has completed and goes into its loop. -/
def firstWait : Gpu :=
  load 0 (complete 0 408 (submit infoRequest (gpuInitial 4)))

theorem firstWait_run : Run (Guarded GpuStep Calm) (gpuInitial 4)
    [.submit infoRequest, .complete 0 408, .load 0] firstWait := by
  have hCalm : Calm (gpuInitial 4) (.submit infoRequest) := by
    constructor
    · intro n h
      cases h
    · intro k hk
      exact absurd hk (by simp [added, gpuInitial, VirtGpuDevice.zero])
  have hSubmit : Guarded GpuStep Calm (gpuInitial 4) (.submit infoRequest) _ :=
    ⟨hCalm, .submit _ _⟩
  have hFirst : Calm (submit infoRequest (gpuInitial 4)) (.complete 0 408) := by
    intro n idx hCursor
    refine ⟨by simp [submit, gpuInitial], ?_⟩
    by_cases hNew : n = 0
    · subst hNew
      have hLoad := (cursor_submit_made (s := gpuInitial 4) infoRequest).symm.trans hCursor
      cases hLoad
      decide
    · rw [cursor_submit infoRequest n hNew] at hCursor
      exact absurd rfl (cursor_eq_some hCursor)
  have hComplete : Guarded GpuStep Calm (submit infoRequest (gpuInitial 4)) (.complete 0 408) _ :=
    ⟨hFirst, .complete rfl _⟩
  have hLoad : Guarded GpuStep Calm (complete 0 408 (submit infoRequest (gpuInitial 4)))
      (.load 0) _ := ⟨trivial, .load rfl⟩
  exact (((Run.nil _).snoc hSubmit).snoc hComplete).snoc hLoad

/-- The first call finds its completion. -/
theorem wait_correct_first : (scan 0 0 firstWait).place 0 = .returned ∧ WaitCorrect firstWait :=
  ⟨by decide, wait_correct firstWait_run⟩

/-- The interrupt branch passes the completion before the call loads `devidx`. -/
def lateWait : Gpu :=
  load 0 (irqPass (complete 0 408 (submit infoRequest (gpuInitial 4))))

theorem lateWait_run : Run GpuStep (gpuInitial 4)
    [.submit infoRequest, .complete 0 408, .irq, .load 0] lateWait := by
  have hSubmit : GpuStep (gpuInitial 4) (.submit infoRequest) _ := .submit _ _
  have hComplete : GpuStep (submit infoRequest (gpuInitial 4)) (.complete 0 408) _ :=
    .complete rfl _
  have hIrq : GpuStep (complete 0 408 (submit infoRequest (gpuInitial 4))) .irq _ :=
    .irq (by decide)
  have hLoad : GpuStep (irqPass (complete 0 408 (submit infoRequest (gpuInitial 4)))) (.load 0) _ :=
    .load rfl
  exact ((((Run.nil _).snoc hSubmit).snoc hComplete).snoc hIrq).snoc hLoad

/-- One request; the interrupt is taken between the notification and the load
of `devidx`, and the call waits for ever. -/
theorem not_wait_correct : ∃ events s, Run GpuStep (gpuInitial 4) events s ∧ ¬ WaitCorrect s := by
  refine ⟨_, lateWait, lateWait_run, ?_⟩
  intro h
  obtain ⟨k, hk, _⟩ := h.found 0 1 (by decide) (by decide)
  have hNone : added lateWait.dev 1 = 0 := by decide
  omega

end Kernel.VirtioGpu
