import RiscvOs.Kernel.VirtioInp

/-! The events of an input device pass through its queue in order. The
descriptor `i` stays in the slot `i` of the driver ring, and the position of a
completion, counted without wrapping around, is that of its offer. -/
namespace Kernel.VirtioInp

open Semantics Function Virtio

variable {translate : Word → Word} {evts : Word} {queueSize : BitVec 16} {m : Memory}
  {s t : Input} {pushed written : List Word} {event : InputEvent} {events : List InputEvent}

/-- After `n` iterations of the loop of `virtio_input_init`. -/
theorem inputDesc_loop (n : Nat) (hn : n ≤ queueSize.toNat) :
    let ipt := (List.range n).foldl (inputDesc translate evts) (.zero queueSize)
    ipt.queueSize = queueSize ∧ ipt.drvidx = BitVec.ofNat 16 n ∧ ipt.driverIdx = 0 ∧
      ipt.deviceIdx = 0 ∧ ipt.devidx = 0 ∧
      (∀ i < n, ipt.driverRing i = BitVec.ofNat 16 i) ∧
      ∀ i < n, (ipt.qdesc i).addr = translate (eventAddr evts i) := by
  induction n with
  | zero => simp [VirtioIptDevice.zero]
  | succ n ih =>
      obtain ⟨hSize, hDrv, hDriver, hDevice, hDev, hRing, hDesc⟩ := ih (by omega)
      have hWidth := queueSize.isLt
      have hSlot : (BitVec.ofNat 16 n).toNat % queueSize.toNat = n := by
        rw [BitVec.toNat_ofNat, Nat.mod_eq_of_lt (by omega : n < 2 ^ 16),
          Nat.mod_eq_of_lt (by omega)]
      simp only [List.range_succ, List.foldl_append, List.foldl_cons, List.foldl_nil]
      generalize (List.range n).foldl (inputDesc translate evts) (.zero queueSize) = ipt at *
      refine ⟨hSize, ?_, hDriver, hDevice, hDev, fun i hi => ?_, fun i hi => ?_⟩
      · simp only [inputDesc, hDrv, counter_succ]
      · simp only [inputDesc, hDrv, hSize, hSlot]
        by_cases hLast : i = n
        · subst hLast
          rw [update_self]
        · rw [update_of_ne hLast]
          exact hRing i (by omega)
      · simp only [inputDesc]
        by_cases hLast : i = n
        · subst hLast
          rw [update_self]
        · rw [update_of_ne hLast]
          exact hDesc i (by omega)

/-- The completions that the branch is done with. -/
def handled (pushed : List Word) (s : Input) : Nat :=
  pushed.length - if PassedOn s.place then 1 else 0

/-- The buffers offered to the device so far. -/
def offers (queueSize : BitVec 16) (pushed : List Word) (s : Input) : Nat :=
  queueSize.toNat + handled pushed s + if s.place = .advancing then 1 else 0

/-- What the indices of the queue count, and what its rings and buffers hold at
the positions in use. -/
structure Flow (translate : Word → Word) (evts : Word) (queueSize : BitVec 16)
    (pushed written : List Word) (s : Input) : Prop where
  size : s.ipt.queueSize = queueSize
  ring : ∀ i < queueSize.toNat, s.ipt.driverRing i = BitVec.ofNat 16 i
  desc : ∀ i < queueSize.toNat, (s.ipt.qdesc i).addr = translate (eventAddr evts i)
  devidx : s.ipt.devidx = BitVec.ofNat 16 (handled pushed s)
  driverIdx : s.ipt.driverIdx = BitVec.ofNat 16 (offers queueSize pushed s)
  deviceIdx : s.ipt.deviceIdx = BitVec.ofNat 16 written.length
  lastAvail : s.lastAvail = BitVec.ofNat 16 (written.length + s.taken.length)
  bound : written.length + s.taken.length ≤ offers queueSize pushed s
  pushing : s.place = .pushing → pushed.length < written.length
  passed : PassedOn s.place → 0 < pushed.length
  taken : s.taken =
    window (BitVec.ofNat 16) queueSize.toNat written.length s.taken.length
  elems : ∀ k, pushed.length ≤ k → k < written.length →
    (s.ipt.deviceRing (k % queueSize.toNat)).id = BitVec.ofNat 32 (k % queueSize.toNat)
  stored : ∀ k, pushed.length ≤ k → k < written.length →
    written[k]? = some (s.mem.load64 (translate (eventAddr evts (k % queueSize.toNat))))
  pushed : pushed <+: written

theorem offers_le (queueSize : BitVec 16) (s : Input)
    (hPassed : PassedOn s.place → 0 < pushed.length) :
    offers queueSize pushed s ≤ queueSize.toNat + pushed.length := by
  unfold offers handled
  cases hPlace : s.place with
  | idle | testing | pushing | offering => simp [PassedOn]
  | advancing =>
      have hPos := hPassed (by simp [PassedOn, hPlace])
      simp [PassedOn]
      omega

theorem flow_initial :
    Flow translate evts queueSize [] [] (inputInitial translate evts queueSize m) := by
  obtain ⟨hSize, -, hDriver, hDevice, hDev, hRing, hDesc⟩ :=
    @inputDesc_loop translate evts queueSize queueSize.toNat le_rfl
  constructor
  case size => exact hSize
  case ring => exact hRing
  case desc => exact hDesc
  case devidx => exact hDev
  case driverIdx =>
    simp [inputInitial, virtioInputInit, hDriver, hSize, offers, handled, PassedOn]
  case deviceIdx => exact hDevice
  case pushed => exact List.prefix_rfl
  all_goals simp [inputInitial, PassedOn]

/-- A step of the branch that changes neither indices nor rings. -/
theorem Flow.move (h : Flow translate evts queueSize pushed written s) {place : IrqPlace}
    (hHandled : handled pushed { s with place := place } = handled pushed s)
    (hOffers : offers queueSize pushed { s with place := place } = offers queueSize pushed s)
    (hPushing : place = .pushing → pushed.length < written.length)
    (hPassed : PassedOn place → 0 < pushed.length) :
    Flow translate evts queueSize pushed written { s with place := place } where
  size := h.size
  ring := h.ring
  desc := h.desc
  devidx := by rw [hHandled]; exact h.devidx
  driverIdx := by rw [hOffers]; exact h.driverIdx
  deviceIdx := h.deviceIdx
  lastAvail := h.lastAvail
  bound := by rw [hOffers]; exact h.bound
  pushing := hPushing
  passed := hPassed
  taken := h.taken
  elems := h.elems
  stored := h.stored
  pushed := h.pushed

/-- Before the branch passes an event on, `devidx` counts the pushed values. -/
theorem Flow.devidx_eq (h : Flow translate evts queueSize pushed written s) (hPlace : ¬ PassedOn s.place) :
    s.ipt.devidx = BitVec.ofNat 16 pushed.length := by
  rw [h.devidx, handled, if_neg hPlace, Nat.sub_zero]

theorem Flow.written_lt (h : Flow translate evts queueSize pushed written s) :
    written.length + s.taken.length ≤ queueSize.toNat + pushed.length :=
  h.bound.trans (offers_le queueSize s h.passed)

theorem Flow.pushed_le (h : Flow translate evts queueSize pushed written s) :
    pushed.length ≤ written.length :=
  h.pushed.length_le

/-- The test of the loop compares the numbers of pushed and written events. -/
theorem Flow.test (h : Flow translate evts queueSize pushed written s) (hPlace : ¬ PassedOn s.place) :
    s.ipt.devidx = s.ipt.deviceIdx ↔ pushed.length = written.length := by
  have hBound := h.written_lt
  have hWidth := queueSize.isLt
  rw [h.devidx_eq hPlace, h.deviceIdx]
  exact counter_eq_iff h.pushed_le (by omega)

/-- The value that the branch reads is the oldest event not yet passed on. -/
theorem Flow.packEvent (h : Flow translate evts queueSize pushed written s) (hSize : PowerOfTwo queueSize)
    (hIdentity : ∀ i < queueSize.toNat, translate (eventAddr evts i) = eventAddr evts i)
    (hPlace : s.place = .pushing) :
    written[pushed.length]? = some (packEvent translate s.mem
      (s.ipt.qdesc (currentElem s.ipt).id.toNat).addr) := by
  have hLt := h.pushing hPlace
  have hSlot := Nat.mod_lt pushed.length hSize.pos
  have hWidth := queueSize.isLt
  have hElem : (currentElem s.ipt).id.toNat = pushed.length % queueSize.toNat := by
    have hDevidx := h.devidx_eq (by simp [hPlace, PassedOn])
    unfold currentElem
    rw [h.size, hDevidx, counter_mod hSize.dvd, h.elems _ le_rfl hLt, BitVec.toNat_ofNat]
    exact Nat.mod_eq_of_lt (by omega)
  rw [h.stored _ le_rfl hLt, VirtioInp.packEvent, hElem, h.desc _ hSlot, hIdentity _ hSlot,
    hIdentity _ hSlot]

/-- `ring_push` is passed the oldest event. -/
theorem Flow.push (h : Flow translate evts queueSize pushed written s) (hSize : PowerOfTwo queueSize)
    (hIdentity : ∀ i < queueSize.toNat, translate (eventAddr evts i) = eventAddr evts i)
    (hPlace : s.place = .pushing) :
    Flow translate evts queueSize (pushed ++ [VirtioInp.packEvent translate s.mem
      (s.ipt.qdesc (currentElem s.ipt).id.toNat).addr]) written { s with place := .offering } := by
  have hEvent := h.packEvent hSize hIdentity hPlace
  generalize VirtioInp.packEvent translate s.mem (s.ipt.qdesc (currentElem s.ipt).id.toNat).addr =
    value at hEvent ⊢
  constructor
  case size => exact h.size
  case ring => exact h.ring
  case desc => exact h.desc
  case devidx => simpa [handled, PassedOn, hPlace] using h.devidx
  case driverIdx => simpa [offers, handled, PassedOn, hPlace] using h.driverIdx
  case deviceIdx => exact h.deviceIdx
  case lastAvail => exact h.lastAvail
  case bound => simpa [offers, handled, PassedOn, hPlace] using h.bound
  case pushing => nofun
  case passed => simp
  case taken => exact h.taken
  case elems => exact fun k hk => h.elems k (by simp at hk; omega)
  case stored => exact fun k hk => h.stored k (by simp at hk; omega)
  case pushed =>
    obtain ⟨rest, hRest⟩ := h.pushed
    rw [← hRest, List.getElem?_append_right le_rfl, Nat.sub_self] at hEvent
    obtain ⟨tail, rfl⟩ := List.head?_eq_some_iff.mp (by rwa [List.head?_eq_getElem?])
    exact ⟨tail, by simp [← hRest]⟩

theorem Flow.offer (h : Flow translate evts queueSize pushed written s) (hPlace : s.place = .offering) :
    Flow translate evts queueSize pushed written { s with
      place := .advancing, ipt.driverIdx := s.ipt.driverIdx + 1 } := by
  have hPos := h.passed (by simp [PassedOn, hPlace])
  constructor
  case size => exact h.size
  case ring => exact h.ring
  case desc => exact h.desc
  case devidx => simpa [handled, PassedOn, hPlace] using h.devidx
  case driverIdx =>
    simp only [h.driverIdx, counter_succ]
    simp [offers, handled, PassedOn, hPlace]
  case deviceIdx => exact h.deviceIdx
  case lastAvail => exact h.lastAvail
  case bound =>
    have hBound := h.bound
    simp [offers, handled, PassedOn, hPlace] at hBound ⊢
    omega
  case pushing => nofun
  case passed => exact fun _ => hPos
  case taken => exact h.taken
  case elems => exact h.elems
  case stored => exact h.stored
  case pushed => exact h.pushed

theorem Flow.advance (h : Flow translate evts queueSize pushed written s) (hPlace : s.place = .advancing) :
    Flow translate evts queueSize pushed written { s with
      place := .testing, ipt.devidx := s.ipt.devidx + 1 } := by
  have hPos := h.passed (by simp [PassedOn, hPlace])
  have hCount : pushed.length - 1 + 1 = pushed.length := by omega
  constructor
  case size => exact h.size
  case ring => exact h.ring
  case desc => exact h.desc
  case devidx =>
    simp only [h.devidx, counter_succ]
    simp [handled, PassedOn, hPlace, hCount]
  case driverIdx =>
    have hIdx := h.driverIdx
    simp only [offers, handled, PassedOn, hPlace, or_true, if_true, Nat.add_assoc, hCount] at hIdx
    simpa [offers, handled, PassedOn] using hIdx
  case deviceIdx => exact h.deviceIdx
  case lastAvail => exact h.lastAvail
  case bound => simpa [offers, handled, PassedOn] using h.written_lt
  case pushing => nofun
  case passed => simp [PassedOn]
  case taken => exact h.taken
  case elems => exact h.elems
  case stored => exact h.stored
  case pushed => exact h.pushed

theorem Flow.irq (h : Flow translate evts queueSize pushed written s) (hSize : PowerOfTwo queueSize)
    (hIdentity : ∀ i < queueSize.toNat, translate (eventAddr evts i) = eventAddr evts i) :
    Flow translate evts queueSize (pushed ++ (irqAccess translate s).1.toList) written
      (irqAccess translate s).2 := by
  have hPushed := h.pushed_le
  unfold irqAccess
  cases hPlace : s.place with
  | idle =>
      rw [Option.toList_none, List.append_nil]
      refine h.move ?_ ?_ nofun ?_ <;> simp [offers, handled, hPlace, PassedOn]
  | testing =>
      have hTest := h.test (by simp [hPlace, PassedOn])
      by_cases hMeet : s.ipt.devidx = s.ipt.deviceIdx
      · simp only [hMeet, ne_eq, not_true_eq_false, if_false, Option.toList_none, List.append_nil]
        refine h.move ?_ ?_ nofun ?_ <;> simp [offers, handled, hPlace, PassedOn]
      · simp only [hMeet, ne_eq, not_false_eq_true, if_true, Option.toList_none, List.append_nil]
        have hLt := Nat.lt_of_le_of_ne hPushed (hTest.not.mp hMeet)
        refine h.move ?_ ?_ (fun _ => hLt) ?_ <;> simp [offers, handled, hPlace, PassedOn]
  | pushing => exact h.push hSize hIdentity hPlace
  | offering =>
      rw [Option.toList_none, List.append_nil]
      exact h.offer hPlace
  | advancing =>
      rw [Option.toList_none, List.append_nil]
      exact h.advance hPlace

/-- The device takes the buffer of the next position. -/
theorem Flow.take (h : Flow translate evts queueSize pushed written s) (hSize : PowerOfTwo queueSize)
    (hOffered : s.lastAvail ≠ s.ipt.driverIdx) : Flow translate evts queueSize pushed written (deviceTake s) := by
  have hLt : written.length + s.taken.length < offers queueSize pushed s := by
    refine Nat.lt_of_le_of_ne h.bound fun hSame => hOffered ?_
    rw [h.lastAvail, h.driverIdx, hSame]
  have hHead : s.ipt.driverRing (s.lastAvail.toNat % s.ipt.queueSize.toNat) =
      BitVec.ofNat 16 ((written.length + s.taken.length) % queueSize.toNat) := by
    rw [h.size, h.lastAvail, counter_mod hSize.dvd]
    exact h.ring _ (Nat.mod_lt _ hSize.pos)
  constructor
  case size => exact h.size
  case ring => exact h.ring
  case desc => exact h.desc
  case devidx => exact h.devidx
  case driverIdx => exact h.driverIdx
  case deviceIdx => exact h.deviceIdx
  case lastAvail =>
    simp only [deviceTake, h.lastAvail, counter_succ, List.length_append, List.length_singleton,
      Nat.add_assoc]
  case bound =>
    simp only [deviceTake, List.length_append, List.length_singleton]
    exact hLt
  case pushing => exact h.pushing
  case passed => exact h.passed
  case taken =>
    simp only [deviceTake, List.length_append, List.length_singleton, hHead]
    rw [window_succ, ← h.taken]
  case elems => exact h.elems
  case stored => exact h.stored
  case pushed => exact h.pushed

/-- The buffers of two events do not overlap. -/
theorem eventAddr_apart {i j : Nat} (hi : i < 2 ^ 16) (hj : j < 2 ^ 16) (hNe : i ≠ j) :
    Apart (eventAddr evts i) 8 (eventAddr evts j) 8 :=
  apart_of_offsets (by decide) (by decide) (by omega) (by omega) (by omega)

/-- The device writes its next event and returns the buffer. -/
theorem Flow.write (h : Flow translate evts queueSize pushed written s) (hSize : PowerOfTwo queueSize)
    (hIdentity : ∀ i < queueSize.toNat, translate (eventAddr evts i) = eventAddr evts i)
    {head : BitVec 16} {rest : List (BitVec 16)} (hTaken : s.taken = head :: rest) (event : Word) :
    Flow translate evts queueSize pushed (written ++ [event]) (deviceReturn head rest event s) := by
  have hBound := h.written_lt
  have hWidth := queueSize.isLt
  have hLength : s.taken.length = rest.length + 1 := by rw [hTaken]; rfl
  have hWindow := h.taken
  rw [hTaken, List.length_cons, window_eq_cons] at hWindow
  obtain ⟨hHead, hRest⟩ := List.cons.inj hWindow
  have hSlot := Nat.mod_lt written.length hSize.pos
  have hValue : head.toNat = written.length % queueSize.toNat := by
    rw [hHead, BitVec.toNat_ofNat]
    exact Nat.mod_eq_of_lt (by omega)
  -- The positions still to be read are less than a turn before this one.
  have hOther : ∀ k, pushed.length ≤ k → k < written.length →
      k % queueSize.toNat ≠ written.length % queueSize.toNat :=
    fun k hk hkw => mod_ne_of_lt hkw (by omega)
  constructor
  case size => exact h.size
  case ring => exact h.ring
  case desc => exact h.desc
  case devidx => exact h.devidx
  case driverIdx => exact h.driverIdx
  case deviceIdx =>
    simp only [deviceReturn, h.deviceIdx, counter_succ, List.length_append, List.length_singleton]
  case lastAvail =>
    simp only [deviceReturn, h.lastAvail, List.length_append, List.length_singleton, hLength]
    congr 1
    omega
  case bound =>
    have hOffers := h.bound
    simp only [deviceReturn, List.length_append, List.length_singleton]
    change written.length + 1 + rest.length ≤ offers queueSize pushed s
    omega
  case pushing =>
    intro hPlace
    exact (h.pushing hPlace).trans_le (by simp)
  case passed => exact h.passed
  case taken =>
    simp only [deviceReturn, List.length_append, List.length_singleton]
    exact hRest
  case elems =>
    intro k hk hkw
    simp only [deviceReturn, List.length_append, List.length_singleton] at hk hkw ⊢
    rw [h.size, h.deviceIdx, counter_mod hSize.dvd]
    rcases Nat.lt_succ_iff_lt_or_eq.mp hkw with hOld | rfl
    · rw [update_of_ne (hOther k hk hOld)]
      exact h.elems k hk hOld
    · rw [update_self, hHead]
      apply BitVec.eq_of_toNat_eq
      simp only [BitVec.toNat_setWidth, BitVec.toNat_ofNat]
      omega
  case stored =>
    intro k hk hkw
    simp only [deviceReturn, List.length_append, List.length_singleton] at hk hkw ⊢
    rw [hValue, h.desc _ hSlot, hIdentity _ hSlot, hIdentity _ (Nat.mod_lt _ hSize.pos)]
    rcases Nat.lt_succ_iff_lt_or_eq.mp hkw with hOld | rfl
    · have hApart : Apart (eventAddr evts (written.length % queueSize.toNat)) 8
          (eventAddr evts (k % queueSize.toNat)) 8 :=
        eventAddr_apart (by omega) ((Nat.mod_lt k hSize.pos).trans hWidth) (hOther k hk hOld).symm
      rw [Memory.load64_store64_apart _ _ hApart, List.getElem?_append_left hOld, h.stored k hk hOld,
        hIdentity _ (Nat.mod_lt _ hSize.pos)]
    · rw [Memory.load64_store64, List.getElem?_concat_length]
  case pushed =>
    obtain ⟨later, hLater⟩ := h.pushed
    exact ⟨later ++ [event], by simp [← hLater]⟩

@[simp] theorem pushes_append (before after : List InputEvent) :
    pushes (before ++ after) = pushes before ++ pushes after :=
  List.filterMap_append

@[simp] theorem writes_append (before after : List InputEvent) :
    writes (before ++ after) = writes before ++ writes after :=
  List.filterMap_append

@[simp] theorem pushes_irq (push : Option Word) : pushes [.irq push] = push.toList := by
  cases push <;> rfl

theorem InputStep.flow (hStep : InputStep translate s event t) (hSize : PowerOfTwo queueSize)
    (hIdentity : ∀ i < queueSize.toNat, translate (eventAddr evts i) = eventAddr evts i)
    (h : Flow translate evts queueSize (pushes events) (writes events) s) :
    Flow translate evts queueSize (pushes (events ++ [event])) (writes (events ++ [event])) t := by
  rw [pushes_append, writes_append]
  cases hStep with
  | irq hAccess =>
      have hNext := h.irq hSize hIdentity
      rw [hAccess] at hNext
      rw [pushes_irq]
      change Flow _ _ _ _ (writes events ++ []) _
      rw [List.append_nil]
      exact hNext
  | take hOffered =>
      change Flow _ _ _ (pushes events ++ []) (writes events ++ []) _
      rw [List.append_nil, List.append_nil]
      exact h.take hSize hOffered
  | write event hTaken =>
      change Flow _ _ _ (pushes events ++ []) (writes events ++ [event]) _
      rw [List.append_nil]
      exact h.write hSize hIdentity hTaken event

theorem Run.flow (hSize : PowerOfTwo queueSize)
    (hIdentity : ∀ i < queueSize.toNat, translate (eventAddr evts i) = eventAddr evts i)
    (run : Run (InputStep translate) (inputInitial translate evts queueSize m) events s) :
    Flow translate evts queueSize (pushes events) (writes events) s := by
  induction run with
  | nil => exact flow_initial
  | snoc prior last ih => exact InputStep.flow last hSize hIdentity ih

/-- A descriptor on offer is at a position that the device has not returned. -/
theorem Flow.of_mem_offered (h : Flow translate evts queueSize pushed written s) (hSize : PowerOfTwo queueSize)
    {d : BitVec 16} (hMem : d ∈ offered s) :
    ∃ k, written.length ≤ k ∧ k < offers queueSize pushed s ∧
      d = BitVec.ofNat 16 (k % queueSize.toNat) := by
  have hBound := h.bound
  have hWidth := queueSize.isLt
  have hOffers := offers_le queueSize s h.passed
  have hPushed := h.pushed_le
  rcases List.mem_append.mp hMem with hTaken | hRing
  · rw [h.taken] at hTaken
    obtain ⟨i, hi, rfl⟩ := (mem_window _ _ _ _).mp hTaken
    exact ⟨written.length + i, by omega, by omega, rfl⟩
  · obtain ⟨i, hi, rfl⟩ := (mem_window _ _ _ _).mp hRing
    rw [h.driverIdx, h.lastAvail, counter_sub hBound (by omega)] at hi
    refine ⟨written.length + s.taken.length + i, by omega, by omega, ?_⟩
    rw [h.size, h.lastAvail, counter_add_mod hSize.dvd]
    exact h.ring _ (Nat.mod_lt _ hSize.pos)

/-- A completion not yet read is at a position that the device has returned. -/
theorem Flow.of_mem_unread (h : Flow translate evts queueSize pushed written s) (hSize : PowerOfTwo queueSize)
    {e : VirtqUsedElem} (hMem : e ∈ unread s) :
    ∃ k, pushed.length ≤ k ∧ k < written.length ∧
      e.id = BitVec.ofNat 32 (k % queueSize.toNat) := by
  have hBound := h.written_lt
  have hWidth := hSize.le
  have hPushed := h.pushed_le
  have hPassed : handled pushed s + (if PassedOn s.place then 1 else 0) = pushed.length := by
    have hPos := h.passed
    unfold handled
    split
    · have := hPos ‹_›
      omega
    · omega
  have hHandled : handled pushed s ≤ pushed.length := Nat.sub_le _ _
  have hNear : pushed.length ≤ handled pushed s + 1 := by
    rw [← hPassed]
    split <;> omega
  unfold unread at hMem
  rw [window_drop] at hMem
  obtain ⟨i, hi, rfl⟩ := (mem_window _ _ _ _).mp hMem
  rw [h.devidx, h.deviceIdx, counter_sub (by omega) (by omega)] at hi
  refine ⟨pushed.length + i, by omega, by omega, ?_⟩
  rw [h.size, h.devidx, Nat.add_assoc, counter_add_mod hSize.dvd, ← Nat.add_assoc, hPassed]
  exact h.elems _ (by omega) (by omega)

/-- Descriptors on offer and completions not yet read are at positions less
than a turn apart. -/
theorem Flow.apart (h : Flow translate evts queueSize pushed written s) (hSize : PowerOfTwo queueSize) :
    ∀ d ∈ offered s, ∀ e ∈ unread s, e.id.toNat ≠ d.toNat := by
  intro d hOffered e hUnread hSame
  obtain ⟨k, hk, hkOffers, rfl⟩ := h.of_mem_offered hSize hOffered
  obtain ⟨l, hl, hlWritten, hId⟩ := h.of_mem_unread hSize hUnread
  have hOffers := offers_le queueSize s h.passed
  have hWidth := queueSize.isLt
  have hk' := Nat.mod_lt k hSize.pos
  have hl' := Nat.mod_lt l hSize.pos
  have hDesc : k % queueSize.toNat % 2 ^ 16 = k % queueSize.toNat := Nat.mod_eq_of_lt (by omega)
  have hElem : l % queueSize.toNat % 2 ^ 32 = l % queueSize.toNat := Nat.mod_eq_of_lt (by omega)
  rw [hId, BitVec.toNat_ofNat, BitVec.toNat_ofNat, hDesc, hElem] at hSame
  exact mod_ne_of_lt (by omega) (by omega) hSame

/-! ## The branch on its own -/

/-- The accesses of the branch that are left until it returns, when no more
events are written. -/
def accessesLeft (pushed written : List Word) (s : Input) : Nat :=
  4 * (written.length - pushed.length) + match s.place with
    | .idle => 2
    | .testing => 1
    | .pushing => 0
    | .offering => 3
    | .advancing => 2

/-- An access of a branch that has not returned leaves fewer; the one that
returns finds every event passed on. -/
theorem Flow.access (h : Flow translate evts queueSize pushed written s) (hPlace : s.place ≠ .idle) :
    (irqAccess translate s).2.place = .idle ∧ (irqAccess translate s).1 = none ∧ pushed = written ∨
      (irqAccess translate s).2.place ≠ .idle ∧
        accessesLeft (pushed ++ (irqAccess translate s).1.toList) written
          (irqAccess translate s).2 < accessesLeft pushed written s := by
  unfold irqAccess
  cases hAt : s.place with
  | idle => exact absurd hAt hPlace
  | testing =>
      have hTest := h.test (by simp [hAt, PassedOn])
      by_cases hMeet : s.ipt.devidx = s.ipt.deviceIdx
      · rw [if_neg (not_not.mpr hMeet)]
        exact .inl ⟨rfl, rfl, h.pushed.eq_of_length (hTest.mp hMeet)⟩
      · rw [if_pos hMeet]
        refine .inr ⟨nofun, ?_⟩
        simp [accessesLeft, hAt]
  | pushing =>
      have hLt := h.pushing hAt
      refine .inr ⟨nofun, ?_⟩
      simp only [accessesLeft, hAt, Option.toList_some, List.length_append, List.length_singleton]
      omega
  | offering =>
      refine .inr ⟨nofun, ?_⟩
      simp [accessesLeft, hAt]
  | advancing =>
      refine .inr ⟨nofun, ?_⟩
      simp [accessesLeft, hAt]

/-- Without further completions the branch returns, and has passed on all
events by then. -/
theorem Flow.returns (h : Flow translate evts queueSize pushed written s)
    (hSize : PowerOfTwo queueSize)
    (hIdentity : ∀ i < queueSize.toNat, translate (eventAddr evts i) = eventAddr evts i)
    (hPlace : s.place ≠ .idle) :
    ∃ (accesses : List (Option Word)) (t : Input),
      Run (InputStep translate) s (accesses.map .irq) t ∧ t.place = .idle ∧
        pushed ++ pushes (accesses.map .irq) = written := by
  induction hLeft : accessesLeft pushed written s using Nat.strongRecOn generalizing s pushed with
  | ind n ih =>
      have hStep : InputStep translate s (.irq (irqAccess translate s).1)
          (irqAccess translate s).2 := .irq rfl
      rcases h.access hPlace with ⟨hIdle, hNone, hAll⟩ | ⟨hBusy, hLess⟩
      · refine ⟨[(irqAccess translate s).1], _, (Run.nil s).snoc hStep, hIdle, ?_⟩
        rw [List.map_singleton, pushes_irq, hNone, Option.toList_none, List.append_nil]
        exact hAll
      · obtain ⟨accesses, t, hRun, hIdle, hAll⟩ :=
          ih _ (hLeft ▸ hLess) (h.irq hSize hIdentity) hBusy rfl
        refine ⟨(irqAccess translate s).1 :: accesses, t, hRun.cons hStep, hIdle, ?_⟩
        rw [List.map_cons, ← List.singleton_append, pushes_append, pushes_irq, ← List.append_assoc]
        exact hAll

/-- The values passed to `ring_push` are the events that the device wrote, in
order: a prefix at any time, and all of them whenever the branch returns; if the
device writes no more, an interrupt or the one being handled comes to that. No
descriptor is on offer while its event is still to be read. -/
theorem input_exact (hSize : PowerOfTwo queueSize)
    (hIdentity : ∀ i < queueSize.toNat, translate (eventAddr evts i) = eventAddr evts i)
    (run : Run (InputStep translate) (inputInitial translate evts queueSize m) events s) :
    pushes events <+: writes events ∧
      (s.place = .testing → (irqAccess translate s).2.place = .idle →
        pushes events = writes events) ∧
      (∃ (accesses : List (Option Word)) (t : Input),
        Run (InputStep translate) s (accesses.map .irq) t ∧ t.place = .idle ∧
          pushes (events ++ accesses.map .irq) = writes events) ∧
      ∀ d ∈ offered s, ∀ e ∈ unread s, e.id.toNat ≠ d.toNat := by
  have h := Run.flow hSize hIdentity run
  refine ⟨h.pushed, fun hPlace hReturns => ?_, ?_, h.apart hSize⟩
  · have hMeet : s.ipt.devidx = s.ipt.deviceIdx := by
      by_contra hNe
      simp [irqAccess, hPlace, hNe] at hReturns
    exact h.pushed.eq_of_length ((h.test (by simp [hPlace, PassedOn])).mp hMeet)
  · by_cases hIdle : s.place = .idle
    · -- The next interrupt.
      have hAccess : irqAccess translate s = (none, { s with place := .testing }) := by
        simp [irqAccess, hIdle]
      have hTesting : Flow translate evts queueSize (pushes events) (writes events)
          { s with place := .testing } := by
        have hNext := h.irq hSize hIdentity
        rw [hAccess, Option.toList_none, List.append_nil] at hNext
        exact hNext
      obtain ⟨accesses, t, hRun, hReturned, hAll⟩ := hTesting.returns hSize hIdentity nofun
      refine ⟨none :: accesses, t, hRun.cons (.irq hAccess), hReturned, ?_⟩
      rw [pushes_append]
      exact hAll
    · obtain ⟨accesses, t, hRun, hReturned, hAll⟩ := h.returns hSize hIdentity hIdle
      refine ⟨accesses, t, hRun, hReturned, ?_⟩
      rw [pushes_append]
      exact hAll

/-- On a queue of four buffers the device has written a first event, and the
branch has passed it on. -/
def firstPassed : Input :=
  (irqAccess id (irqAccess id (irqAccess id
    (deviceReturn 0 [] 7 (deviceTake (inputInitial id 0x80100000 4 fun _ => 0)))).2).2).2

def firstEvents : List InputEvent :=
  [.take, .write 7, .irq none, .irq none, .irq (some 7)]

theorem input_exact_first : pushes firstEvents <+: writes firstEvents ∧
    (firstPassed.place = .testing → (irqAccess id firstPassed).2.place = .idle →
      pushes firstEvents = writes firstEvents) ∧
    (∃ (accesses : List (Option Word)) (t : Input),
      Run (InputStep id) firstPassed (accesses.map .irq) t ∧ t.place = .idle ∧
        pushes (firstEvents ++ accesses.map .irq) = writes firstEvents) ∧
    ∀ d ∈ offered firstPassed, ∀ e ∈ unread firstPassed, e.id.toNat ≠ d.toNat := by
  have hTake : InputStep id (inputInitial id 0x80100000 4 fun _ => 0) .take _ :=
    .take (by decide)
  have hWritten := ((Run.nil _).snoc hTake).snoc (.write 7 rfl)
  have hPassed : irqAccess id (irqAccess id (irqAccess id
      (deviceReturn 0 [] 7 (deviceTake (inputInitial id 0x80100000 4 fun _ => 0)))).2).2 =
      (some 7, firstPassed) :=
    Prod.ext (by decide) rfl
  exact input_exact ⟨2, rfl⟩ (fun _ _ => rfl)
    (((hWritten.snoc (.irq rfl)).snoc (.irq rfl)).snoc (.irq hPassed))

end Kernel.VirtioInp
