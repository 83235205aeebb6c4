import RiscvOs.Kernel.VirtioblkRuns

/-! Calls that read. The loop after a request compares the index of the device,
which counts requests, with `at_idx`, which counts descriptors. -/
namespace Kernel.Virtioblk

open Semantics Function Virtio

variable {s t : Reading} {name : DiskName} {number tests : Nat} {r : DiskRequest}
  {event : ReadEvent} {events : List ReadEvent}

/-- The device has completed the request with the given number, with success. -/
def Succeeded (disk : Disk) (number : Nat) : Prop :=
  ∃ r ∈ disk.done, r.number = number ∧ r.rq.status = statusOk

/-- The last element of the device ring is the head descriptor of the request,
whose status byte reports success. -/
def Delivered (disk : Disk) (number : Nat) : Prop :=
  ∃ r ∈ disk.done, r.number = number ∧ r.rq.status = statusOk ∧
    (disk.dev.deviceRing ((disk.dev.deviceIdx - 1).toNat % disk.dev.queueSize.toNat)).id =
      r.hdrDesc.setWidth 32

/-- The device has completed the request, with success, before the first test
of the loop. -/
def Prompt (s : Reading) : ReadEvent → Prop
  | .test => ∀ name number, s.place = .polling name number 0 → Succeeded (s.disks name) number
  | _ => True

/-- The request `r` is the only one of its number that the device has
completed, and the last one. -/
structure Last (disk : Disk) (r : DiskRequest) : Prop where
  done : ∃ earlier, disk.done = earlier ++ [r] ∧ ∀ r' ∈ earlier, r'.number ≠ r.number
  ring : (disk.dev.deviceRing ((disk.dev.deviceIdx - 1).toNat % disk.dev.queueSize.toNat)).id =
    r.hdrDesc.setWidth 32

/-- The requests on their way: none but the one of the current call. -/
inductive ReadPhase (s : Reading) : Prop where
  | idle (place : s.place = .idle) (pending : ∀ name, (s.disks name).pending = [])
  | waiting {name : DiskName} {r : DiskRequest} (place : s.place = .polling name r.number 0)
      (others : ∀ other, other ≠ name → (s.disks other).pending = [])
      (pending : (s.disks name).pending = [r])
      (fresh : ∀ r' ∈ (s.disks name).done, r'.number ≠ r.number)
  | served {name : DiskName} {r : DiskRequest} {tests : Nat}
      (place : s.place = .polling name r.number tests)
      (pending : ∀ name, (s.disks name).pending = []) (last : Last (s.disks name) r)
      (status : tests ≠ 0 → r.rq.status = statusOk)

/-- The numbers of completed requests are below the number of requests made. -/
def Numbered (s : Reading) : Prop :=
  ∀ name, ∀ r ∈ (s.disks name).pending ++ (s.disks name).done, r.number < (s.disks name).made

theorem Last.succeeded (h : Last disk r) (hSucceeded : Succeeded disk r.number) :
    r.rq.status = statusOk := by
  obtain ⟨earlier, hDone, hOthers⟩ := h.done
  obtain ⟨r', hMem, hNumber, hStatus⟩ := hSucceeded
  rw [hDone, List.mem_append, List.mem_singleton] at hMem
  rcases hMem with hMem | rfl
  · exact absurd hNumber (hOthers r' hMem)
  · exact hStatus

theorem Last.delivered (h : Last disk r) (hStatus : r.rq.status = statusOk) :
    Delivered disk r.number := by
  obtain ⟨earlier, hDone, _⟩ := h.done
  exact ⟨r, by rw [hDone]; simp, rfl, hStatus, h.ring⟩

theorem last_diskComplete {disk : Disk} (hFresh : ∀ r' ∈ disk.done, r'.number ≠ r.number)
    (status : BitVec 8) : Last (diskComplete r status disk) { r with rq.status := status } := by
  refine ⟨⟨disk.done, rfl, hFresh⟩, ?_⟩
  simp [diskComplete, addUsed]

theorem readTest_disks (name : DiskName) (number tests : Nat) (s : Reading) :
    (readTest name number tests s).disks = s.disks := by
  unfold readTest
  split <;> rfl

theorem ReadStep.numbered (hStep : ReadStep s event t) (h : Numbered s) : Numbered t := by
  intro name r hMem
  cases hStep with
  | @call name' args hIdle hReads =>
      simp only [rwOf_eq] at hMem ⊢
      by_cases hSame : name = name'
      · subst hSame
        simp only [update_self] at hMem ⊢
        change r.number < (s.disks name).made + 1
        simp only [diskRw, List.append_assoc, List.mem_append, List.mem_cons, List.not_mem_nil,
          or_false] at hMem
        rcases hMem with hMem | rfl | hMem
        · exact Nat.lt_succ_of_lt (h name r (List.mem_append_left _ hMem))
        · exact Nat.lt_succ_self _
        · exact Nat.lt_succ_of_lt (h name r (List.mem_append_right _ hMem))
      · simp only [update_of_ne hSame] at hMem ⊢
        exact h name r hMem
  | test =>
      rw [readTest_disks] at hMem ⊢
      exact h name r hMem
  | @complete name' r' status hPending =>
      by_cases hSame : name = name'
      · subst hSame
        simp only [update_self, diskComplete, List.mem_append, List.mem_singleton] at hMem ⊢
        rcases hMem with hMem | hMem | rfl
        · exact h name r (List.mem_append_left _ (List.mem_of_mem_erase hMem))
        · exact h name r (List.mem_append_right _ hMem)
        · exact h name r' (List.mem_append_left _ hPending)
      · simp only [update_of_ne hSame] at hMem ⊢
        exact h name r hMem
  | isr name' =>
      simp only [isrOf_eq, diskIsr_eq] at hMem ⊢
      by_cases hSame : name = name'
      · subst hSame
        simp only [update_self] at hMem ⊢
        exact h name r hMem
      · simp only [update_of_ne hSame] at hMem ⊢
        exact h name r hMem

/-- Moving `at_idx` keeps what is known of the requests. -/
theorem ReadPhase.isr (h : ReadPhase s) (name : DiskName) :
    ReadPhase { s with disks := isrOf name s.disks } := by
  have hPending : ∀ other, (isrOf name s.disks other).pending = (s.disks other).pending := by
    intro other
    rw [isrOf_eq, diskIsr_eq]
    by_cases hSame : other = name
    · subst hSame
      simp
    · simp [hSame]
  have hDone : ∀ other, (isrOf name s.disks other).done = (s.disks other).done := by
    intro other
    rw [isrOf_eq, diskIsr_eq]
    by_cases hSame : other = name
    · subst hSame
      simp
    · simp [hSame]
  cases h with
  | idle place pending => exact .idle place fun other => (hPending other).trans (pending other)
  | waiting place others pending fresh =>
      refine .waiting place (fun other hOther => (hPending other).trans (others other hOther))
        ((hPending _).trans pending) ?_
      rw [hDone]
      exact fresh
  | @served name' r tests place pending last status =>
      refine .served place (fun other => (hPending other).trans (pending other)) ⟨?_, ?_⟩ status
      · rw [hDone]
        exact last.done
      · rw [isrOf_eq, diskIsr_eq]
        by_cases hSame : name' = name
        · subst hSame
          simpa using last.ring
        · simpa [hSame] using last.ring

theorem ReadPhase.call (h : ReadPhase s) (hNumbered : Numbered s) (hIdle : s.place = .idle)
    (name : DiskName) (args : RwArgs) :
    ReadPhase { disks := rwOf name args s.disks
                place := .polling name (s.disks name).made 0 } := by
  cases h with
  | idle place pending =>
      refine @ReadPhase.waiting _ name (newRequest args (s.disks name)) rfl ?_ ?_ ?_
      · intro other hOther
        simp only [rwOf_eq, update_of_ne hOther]
        exact pending other
      · simp only [rwOf_eq, update_self, diskRw, pending, List.nil_append]
        rfl
      · intro r' hMem
        simp only [rwOf_eq, update_self] at hMem
        exact (hNumbered name r' (List.mem_append_right _ hMem)).ne
  | waiting place | served place =>
      rw [hIdle] at place
      cases place

theorem ReadPhase.complete (h : ReadPhase s) (hPending : r ∈ (s.disks name).pending)
    (status : BitVec 8) :
    ReadPhase { s with disks := update s.disks name (diskComplete r status (s.disks name)) } := by
  cases h with
  | idle place pending | served place pending =>
      rw [pending] at hPending
      cases hPending
  | @waiting name' r' place others pending fresh =>
      have hName : name = name' := by
        by_contra hNe
        rw [others name hNe] at hPending
        cases hPending
      subst hName
      have hOwn : r = r' := by simpa [pending] using hPending
      subst hOwn
      refine .served (r := { r with rq.status := status }) place ?_ ?_ fun h => absurd rfl h
      · intro other
        by_cases hSame : other = name
        · subst hSame
          simp [diskComplete, pending]
        · simpa [hSame] using others other hSame
      · simp only [update_self]
        exact last_diskComplete fresh status

/-- At a test of the loop the request is completed with success. -/
theorem ReadPhase.test_succeeded (h : ReadPhase s) (hPrompt : Prompt s .test)
    (hPlace : s.place = .polling name number tests) :
    (∀ other, (s.disks other).pending = []) ∧ ∃ r, r.number = number ∧
      Last (s.disks name) r ∧ r.rq.status = statusOk := by
  cases h with
  | idle place =>
      rw [hPlace] at place
      cases place
  | waiting place others pending fresh =>
      rw [hPlace] at place
      cases place
      obtain ⟨r', hMem, hNumber, _⟩ := hPrompt _ _ hPlace
      exact absurd hNumber (fresh r' hMem)
  | @served name' r tests' place pending last status =>
      rw [hPlace] at place
      cases place
      refine ⟨pending, r, rfl, last, ?_⟩
      by_cases hFirst : tests = 0
      · subst hFirst
        exact last.succeeded (hPrompt _ _ hPlace)
      · exact status hFirst

theorem ReadStep.phase (hStep : Guarded ReadStep Prompt s event t) (hNumbered : Numbered s)
    (h : ReadPhase s) : ReadPhase t := by
  obtain ⟨hPrompt, hStep⟩ := hStep
  cases hStep with
  | call hIdle hReads => exact h.call hNumbered hIdle _ _
  | @test name number tests hPlace =>
      obtain ⟨hNone, r, rfl, hLast, hStatus⟩ := h.test_succeeded hPrompt hPlace
      unfold readTest
      split
      · exact .served rfl hNone hLast fun _ => hStatus
      · exact .idle rfl hNone
  | complete status hPending => exact h.complete hPending status
  | isr name => exact h.isr name

variable {queueSize : DiskName → BitVec 16} {blkSize : DiskName → BitVec 32}

/-- After `pci_init`. -/
def readInitial (queueSize : DiskName → BitVec 16) (blkSize : DiskName → BitVec 32) : Reading where
  disks := fun name => .fresh (queueSize name) (blkSize name)
  place := .idle

theorem readPhase_of_run
    (run : Run (Guarded ReadStep Prompt) (readInitial queueSize blkSize) events s) :
    ReadPhase s ∧ Numbered s := by
  have hInv := run.invariant (fun s => ReadPhase s ∧ Numbered s)
    ⟨.idle rfl fun _ => rfl, fun _ _ hMem => by cases hMem⟩
    (fun _ _ _ h hStep => ⟨ReadStep.phase hStep h.2 h.1, ReadStep.numbered hStep.2 h.2⟩)
  exact hInv

/-- When the device has completed each request, with success, before the loop
of its call is reached, every call returns with its request delivered. -/
theorem read_delivered
    (run : Run (Guarded ReadStep Prompt) (readInitial queueSize blkSize) events s)
    (hTest : Guarded ReadStep Prompt s .test t) (hPlace : s.place = .polling name number tests)
    (hReturns : t.place = .idle) : Delivered (t.disks name) number := by
  obtain ⟨hPrompt, hStep⟩ := hTest
  obtain ⟨_, r, rfl, hLast, hStatus⟩ := (readPhase_of_run run).1.test_succeeded hPrompt hPlace
  cases hStep with
  | test hPlace' =>
      rw [readTest_disks]
      exact hLast.delivered hStatus

/-- A first read, on its way and completed. -/
def firstCall : Reading where
  disks := rwOf .pciBlk firstArgs (readInitial (fun _ => 8) (fun _ => 512)).disks
  place := .polling .pciBlk 0 0

def firstServed : Reading where
  disks := update firstCall.disks .pciBlk
    (diskComplete (newRequest firstArgs (Disk.fresh 8 512)) statusOk (firstCall.disks .pciBlk))
  place := firstCall.place

theorem firstCall_step :
    ReadStep (readInitial (fun _ => 8) (fun _ => 512)) (.call .pciBlk firstArgs) firstCall :=
  .call rfl rfl

theorem read_delivered_first :
    Delivered ((readTest .pciBlk 0 0 firstServed).disks .pciBlk) 0 := by
  have hCall : Guarded ReadStep Prompt (readInitial (fun _ => 8) (fun _ => 512))
      (.call .pciBlk firstArgs) firstCall := ⟨trivial, firstCall_step⟩
  have hComplete : Guarded ReadStep Prompt firstCall
      (.complete .pciBlk (newRequest firstArgs (Disk.fresh 8 512)) statusOk) firstServed :=
    ⟨trivial, .complete statusOk List.mem_cons_self⟩
  refine read_delivered (((Run.nil _).snoc hCall).snoc hComplete) ⟨?_, .test rfl⟩ rfl rfl
  intro name number hPlace
  cases hPlace
  exact ⟨_, List.mem_cons_self, rfl, rfl⟩

/-- The first read returns before the device has done anything. -/
theorem not_read_delivered : ¬ ∀ events s t name number tests,
    Run ReadStep (readInitial (fun _ => 8) (fun _ => 512)) events s → ReadStep s .test t →
    s.place = .polling name number tests → t.place = .idle →
    Delivered (t.disks name) number := by
  intro hClaim
  obtain ⟨r, hMem, _⟩ := hClaim _ firstCall (readTest .pciBlk 0 0 firstCall) .pciBlk 0 0
    ((Run.nil _).snoc firstCall_step) (.test rfl) rfl rfl
  cases hMem

end Kernel.Virtioblk
