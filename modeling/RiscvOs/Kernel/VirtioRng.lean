import RiscvOs.Kernel.Virtio

/-! The requests of `rng_fill`. Its loop runs `at_idx` up to the free-running
index of the device, and the next call uses `at_idx` as a descriptor. -/
namespace Kernel.Virtio

open Semantics Function

variable {queueSize : BitVec 16} {enabled : Bool} {s t : Rng} {event : RngEvent}
  {events : List RngEvent}

/-- The request with the given number is filled. -/
def Filled (s : Rng) (number : Nat) : Prop :=
  ∃ r ∈ s.filled, r.number = number

/-- The passes after which the loop of `rng_fill` meets the index of a device
that has not moved since the request. -/
def spinLimit (dev : VirtioConfigLoc) : Nat :=
  if dev.deviceIdx.toNat + 1 = dev.queueSize.toNat then dev.deviceIdx.toNat else 65535

/-- A call finds the index of the device below the queue size, and the device
fills the buffer before the loop has made too many passes. -/
def InTime (s : Rng) : RngEvent → Prop
  | .call _ _ => s.dev.deviceIdx.toNat < s.dev.queueSize.toNat
  | .pass => ∀ number passes, s.place = .spinning number passes →
      Filled s number ∨ passes < spinLimit s.dev
  | _ => True

/-- A call writes one descriptor, of the table and of no pending request, and
offers it; a call that returns from its loop has its buffer filled. -/
def RngCorrect (s : Rng) (event : RngEvent) (t : Rng) : Prop :=
  match event with
  | .call phys size => ∃ r : RngRequest, t.pending = s.pending ++ [r] ∧
      r.desc.toNat < s.dev.queueSize.toNat ∧ (∀ r' ∈ s.pending, r'.desc ≠ r.desc) ∧
      t.dev.desc = update s.dev.desc r.desc.toNat ⟨phys, size.setWidth 32, descWrite, 0⟩ ∧
      t.dev.driverRing =
        update s.dev.driverRing (s.dev.driverIdx.toNat % s.dev.queueSize.toNat) r.desc
  | .pass => ∀ number passes, s.place = .spinning number passes → t.place = .idle →
      Filled t number
  | _ => True

/-- The place of `rng_fill` and the requests: none is left when it is idle, and
the loop of a call either waits for its own request or has it filled. -/
inductive Phase (s : Rng) : Prop where
  | idle (place : s.place = .idle) (pending : s.pending = [])
      (cursor : s.dev.atIdx = s.dev.deviceIdx)
  | waiting {number passes : Nat} {r : RngRequest} (place : s.place = .spinning number passes)
      (pending : s.pending = [r]) (own : r.number = number) (unfilled : ¬ Filled s number)
      (inRange : s.dev.deviceIdx.toNat < s.dev.queueSize.toNat)
      (cursor : s.dev.atIdx = BitVec.ofNat 16
        ((s.dev.deviceIdx.toNat + 1) % s.dev.queueSize.toNat + passes))
  | filled {number passes : Nat} (place : s.place = .spinning number passes)
      (pending : s.pending = []) (filled : Filled s number)

/-- Before the limit the cursor has not come round to the index of the device. -/
theorem cursor_ne {dev : VirtioConfigLoc} {passes : Nat}
    (hRange : dev.deviceIdx.toNat < dev.queueSize.toNat) (hPasses : passes < spinLimit dev) :
    BitVec.ofNat 16 ((dev.deviceIdx.toNat + 1) % dev.queueSize.toNat + passes) ≠
      dev.deviceIdx := by
  intro hMeet
  have hValue : ((dev.deviceIdx.toNat + 1) % dev.queueSize.toNat + passes) % 2 ^ 16 =
      dev.deviceIdx.toNat := by
    simpa only [BitVec.toNat_ofNat] using congrArg BitVec.toNat hMeet
  have hWidth := dev.deviceIdx.isLt
  unfold spinLimit at hPasses
  by_cases hLast : dev.deviceIdx.toNat + 1 = dev.queueSize.toNat
  · rw [if_pos hLast] at hPasses
    rw [hLast, Nat.mod_self, Nat.zero_add, Nat.mod_eq_of_lt (by omega)] at hValue
    omega
  · rw [if_neg hLast] at hPasses
    rw [Nat.mod_eq_of_lt (by omega : dev.deviceIdx.toNat + 1 < dev.queueSize.toNat)] at hValue
    omega

/-- The numbers of the requests are below the number of calls. -/
def Numbered (s : Rng) : Prop :=
  ∀ r ∈ s.pending ++ s.filled, r.number < s.made

theorem RngStep.numbered (hStep : RngStep s event t) (h : Numbered s) : Numbered t := by
  cases hStep with
  | call =>
      intro r hMem
      simp only [rngFill, List.append_assoc, List.mem_append, List.mem_cons, List.not_mem_nil,
        or_false] at hMem
      change r.number < s.made + 1
      rcases hMem with hMem | rfl | hMem
      · exact Nat.lt_succ_of_lt (h r (List.mem_append_left _ hMem))
      · exact Nat.lt_succ_self _
      · exact Nat.lt_succ_of_lt (h r (List.mem_append_right _ hMem))
  | refused => exact h
  | pass =>
      unfold rngPass
      split <;> exact h
  | @complete r hPending =>
      intro r' hMem
      simp only [rngComplete, List.mem_append, List.mem_singleton] at hMem
      rcases hMem with hMem | hMem | rfl
      · exact h r' (List.mem_append_left _ (List.mem_of_mem_erase hMem))
      · exact h r' (List.mem_append_right _ hMem)
      · exact h r' (List.mem_append_left _ hPending)

/-- The loop ends only once the request is filled. -/
theorem Phase.filled_of_meet (h : Phase s) (hTime : InTime s .pass) {number passes : Nat}
    (hPlace : s.place = .spinning number passes) (hMeet : s.dev.atIdx = s.dev.deviceIdx) :
    Filled s number ∧ s.pending = [] := by
  cases h with
  | idle place =>
      rw [hPlace] at place
      cases place
  | waiting place pending own unfilled inRange cursor =>
      rw [hPlace] at place
      cases place
      rcases hTime _ _ hPlace with hFilled | hPasses
      · exact absurd hFilled unfilled
      · exact absurd (cursor.symm.trans hMeet) (cursor_ne inRange hPasses)
  | filled place pending filled =>
      rw [hPlace] at place
      cases place
      exact ⟨filled, pending⟩

theorem RngStep.phase (hStep : Guarded RngStep InTime s event t) (hNumbered : Numbered s)
    (h : Phase s) : Phase t := by
  obtain ⟨hTime, hStep⟩ := hStep
  cases hStep with
  | @call phys size hIdle hEnabled =>
      cases h with
      | idle place pending cursor =>
          refine .waiting (r := ⟨s.made, s.dev.atIdx, phys, size⟩) rfl (by simp [rngFill, pending])
            rfl ?_ hTime ?_
          · rintro ⟨r, hMem, hNumber⟩
            have hLt := hNumbered r (List.mem_append_right _ hMem)
            omega
          · simp [rngFill, rngSubmit, offer, cursor]
      | waiting place | filled place =>
          rw [hIdle] at place
          cases place
  | refused => exact h
  | @pass number passes hPlace =>
      unfold rngPass
      by_cases hMeet : s.dev.atIdx = s.dev.deviceIdx
      · rw [if_neg (not_not.mpr hMeet)]
        exact .idle rfl (h.filled_of_meet hTime hPlace hMeet).2 hMeet
      · rw [if_pos hMeet]
        cases h with
        | idle place => rw [hPlace] at place; cases place
        | waiting place pending own unfilled inRange cursor =>
            rw [hPlace] at place
            cases place
            refine .waiting rfl pending own unfilled inRange ?_
            simp only [cursor, counter_succ, Nat.add_assoc]
        | filled place pending filled =>
            rw [hPlace] at place
            cases place
            exact .filled rfl pending filled
  | @complete r hPending =>
      cases h with
      | idle place pending => simp [pending] at hPending
      | @waiting number passes r' place pending own unfilled inRange cursor =>
          have hOwn : r = r' := by simpa [pending] using hPending
          subst hOwn
          exact .filled place (by simp [rngComplete, pending]) ⟨r, by simp [rngComplete], own⟩
      | filled place pending => simp [pending] at hPending

theorem phase_of_run (run : Run (Guarded RngStep InTime) (rngInitial queueSize enabled) events s) :
    Phase s ∧ Numbered s := by
  have hInv := run.invariant (fun s => Phase s ∧ Numbered s)
    ⟨.idle rfl rfl rfl, fun r hMem => by simp [rngInitial] at hMem⟩
    (fun _ _ _ h hStep => ⟨RngStep.phase hStep h.2 h.1, RngStep.numbered hStep.2 h.2⟩)
  exact hInv

/-- In every run in which calls find the index of the device below the queue
size and the device keeps in time with the loop, calls use fresh descriptors of
the table and return with their buffer filled. -/
theorem rng_correct (run : Run (Guarded RngStep InTime) (rngInitial queueSize enabled) events s)
    (hStep : Guarded RngStep InTime s event t) : RngCorrect s event t := by
  obtain ⟨hPhase, _⟩ := phase_of_run run
  obtain ⟨hTime, hStep⟩ := hStep
  cases hStep with
  | @call phys size hIdle hEnabled =>
      cases hPhase with
      | idle place pending cursor =>
          refine ⟨⟨s.made, s.dev.atIdx, phys, size⟩, rfl, ?_, by simp [pending], rfl, rfl⟩
          rw [cursor]
          exact hTime
      | waiting place | filled place =>
          rw [hIdle] at place
          cases place
  | refused => trivial
  | @pass number passes hPlace =>
      intro number' passes' hPlace' hIdle
      rw [hPlace] at hPlace'
      cases hPlace'
      unfold rngPass at hIdle ⊢
      by_cases hMeet : s.dev.atIdx = s.dev.deviceIdx
      · rw [if_neg (not_not.mpr hMeet)]
        exact (hPhase.filled_of_meet hTime hPlace hMeet).1
      · rw [if_pos hMeet] at hIdle
        cases hIdle
  | complete => trivial

/-- A first request on a queue of two descriptors, filled at once. -/
def rngFirst : Rng :=
  rngComplete ⟨0, 0, 0x80100000, 64⟩ (rngFill 0x80100000 64 (rngInitial 2 true))

theorem rngFirst_run : Run (Guarded RngStep InTime) (rngInitial 2 true)
    (([] ++ [.call 0x80100000 64]) ++ [.complete ⟨0, 0, 0x80100000, 64⟩]) rngFirst := by
  have hTime : InTime (rngInitial 2 true) (.call 0x80100000 64) := by
    change (0#16).toNat < (2#16).toNat
    decide
  have hPending : (⟨0, 0, 0x80100000, 64⟩ : RngRequest) ∈
      (rngFill 0x80100000 64 (rngInitial 2 true)).pending := List.mem_singleton.mpr rfl
  exact ((Run.nil _).snoc ⟨hTime, .call rfl rfl⟩).snoc ⟨trivial, .complete hPending⟩

theorem rng_correct_first : RngCorrect rngFirst .pass (rngPass 0 0 rngFirst) := by
  refine rng_correct rngFirst_run ⟨?_, .pass rfl⟩
  intro number passes hPlace
  cases hPlace
  exact Or.inl ⟨_, List.mem_singleton.mpr rfl, rfl⟩

/-- The third request on a queue of two descriptors uses the descriptor 2,
however fast the device is. -/
theorem not_rng_correct : ¬ ∀ events s event t, Run RngStep (rngInitial 2 true) events s →
    RngStep s event t → RngCorrect s event t := by
  intro hClaim
  let second := rngComplete ⟨1, 1, 0x80100000, 64⟩ (rngFill 0x80100000 64 (rngPass 0 0 rngFirst))
  let idle := rngPass 1 2 (rngPass 1 1 (rngPass 1 0 second))
  have hFirst : Run RngStep (rngInitial 2 true) _ (rngPass 0 0 rngFirst) :=
    rngFirst_run.of_guarded.snoc (.pass rfl)
  have hSecond : Run RngStep (rngInitial 2 true) _ second :=
    (hFirst.snoc (.call rfl rfl)).snoc (.complete (List.mem_singleton.mpr rfl))
  have hIdle : Run RngStep (rngInitial 2 true) _ idle :=
    ((hSecond.snoc (.pass rfl)).snoc (.pass rfl)).snoc (.pass rfl)
  obtain ⟨r, hPending, hRange, _⟩ := hClaim _ idle (.call 0x80100000 64) _ hIdle (.call rfl rfl)
  have hOwn := (List.cons.inj (List.append_cancel_left hPending)).1
  rw [← hOwn] at hRange
  revert hRange
  decide

end Kernel.Virtio
