import RiscvOs.Sbi.Hart
import Mathlib.Data.List.Basic

/-! The life of a hart between `hart_start`, its software interrupt and
`hart_stop`, over all interleavings of the harts. -/
namespace Sbi

open Semantics Function

variable {park : Word} {s t u : System} {hart h : Hart} {target scratch : Word}
  {events later : List Event} {event : Event}

/-- What a step changes of the table, the software interrupts, the control
registers and the places of the harts; the locks are left out. -/
inductive Outcome (park : Word) (s : System) : Event → System → Prop where
  | started {t : System} {hart : Hart} {target scratch : Word}
      (status : (s.data hart).status = .stopped)
      (data : t.data = update s.data hart { s.data hart with
        status := .starting, targetAddress := target, scratch := scratch })
      (msip : t.msip = update s.msip hart true) (csr : t.csr = s.csr) (place : t.place = s.place) :
      Outcome park s (.start hart target scratch true) t
  | refused {t : System} {hart : Hart} {target scratch : Word} (data : t.data = s.data)
      (msip : t.msip = s.msip) (csr : t.csr = s.csr) (place : t.place = s.place) :
      Outcome park s (.start hart target scratch false) t
  | stopped {t : System} {hart : Hart} (running : RunsOs park s hart)
      (status : (s.data hart).status = .started)
      (data : t.data = update s.data hart { s.data hart with status := .stopped })
      (msip : t.msip = s.msip) (csr : t.csr = update s.csr hart (parkCsrs park (s.csr hart)))
      (place : t.place = update s.place hart .trap) : Outcome park s (.stop hart none) t
  | notStopped {t : System} {hart : Hart} (data : t.data = s.data) (msip : t.msip = s.msip)
      (csr : t.csr = s.csr) (place : t.place = s.place) :
      Outcome park s (.stop hart (some false)) t
  | woken {t : System} {hart : Hart} {pc : Word} {mode : HartPrivMode}
      (code : s.place hart = .code pc mode) (status : (s.data hart).status = .starting)
      (data : t.data = update s.data hart { s.data hart with status := .started })
      (msip : t.msip = update s.msip hart false)
      (csr : t.csr = update s.csr hart
        (startCsrs hart (s.data hart) (trapCsrs pc mode (s.csr hart))))
      (place : t.place = update s.place hart .trap) : Outcome park s (.msip hart) t
  | interrupted {t : System} {hart : Hart} {pc : Word} {mode : HartPrivMode}
      (code : s.place hart = .code pc mode) (status : (s.data hart).status ≠ .starting)
      (data : t.data = s.data) (msip : t.msip = update s.msip hart false)
      (csr : t.csr = update s.csr hart (trapCsrs pc mode (s.csr hart)))
      (place : t.place = update s.place hart .trap) : Outcome park s (.msip hart) t
  | returned {t : System} {hart : Hart} (trap : s.place hart = .trap) (data : t.data = s.data)
      (msip : t.msip = s.msip) (csr : t.csr = s.csr)
      (place : t.place = update s.place hart
        (.code (s.csr hart).mepc (mpp (s.csr hart).mstatus))) : Outcome park s (.mret hart) t
  | ran {t : System} {hart : Hart} {pc : Word} {mode : HartPrivMode}
      (running : RunsOs park s hart) (data : t.data = s.data) (msip : t.msip = s.msip)
      (csr : t.csr = s.csr) (place : t.place = update s.place hart (.code pc mode)) :
      Outcome park s (.run hart) t

theorem hartStart_outcome {contended result : Bool}
    (hCall : hartStart hart target scratch contended s = (result, t)) :
    Outcome park s (.start hart target scratch result) t := by
  unfold hartStart mutexTrylock at hCall
  split at hCall
  · cases hCall
    exact .refused rfl rfl rfl rfl
  · rename_i hLock
    split at hLock
    · cases hLock
    · cases hLock
      split at hCall
      · cases hCall
        exact .refused rfl rfl rfl rfl
      · rename_i hStatus
        cases hCall
        exact .started (not_not.mp hStatus) rfl rfl rfl rfl

theorem hartStop_outcome {contended : Bool} {result : Option Bool} (hRuns : RunsOs park s hart)
    (hCall : hartStop park hart contended s = (result, t)) :
    Outcome park s (.stop hart result) t := by
  unfold hartStop mutexTrylock at hCall
  split at hCall
  · cases hCall
    exact .notStopped rfl rfl rfl rfl
  · rename_i hLock
    split at hLock
    · cases hLock
    · cases hLock
      split at hCall
      · cases hCall
        exact .notStopped rfl rfl rfl rfl
      · rename_i hStatus
        cases hCall
        exact .stopped hRuns (not_not.mp hStatus) rfl rfl rfl rfl

theorem hartHandleMsip_of_starting (h : (s.data hart).status = .starting) :
    hartHandleMsip hart s = mutexUnlock hart (setData hart { s.data hart with status := .started }
      (setCsr hart (startCsrs hart (s.data hart) (s.csr hart))
        (clintClearMsip hart (mutexLock hart s)))) :=
  if_pos h

theorem hartHandleMsip_of_not_starting (h : (s.data hart).status ≠ .starting) :
    hartHandleMsip hart s = mutexUnlock hart (clintClearMsip hart (mutexLock hart s)) :=
  if_neg h

theorem Step.outcome (h : Step park s event t) : Outcome park s event t := by
  cases h with
  | start hCall => exact hartStart_outcome hCall
  | stop hRuns hCall => exact hartStop_outcome hRuns hCall
  | @msip hart pc mode hPlace hFree =>
      have hData : (takeTrap hart pc mode s).data hart = s.data hart := rfl
      by_cases hStatus : (s.data hart).status = .starting
      · rw [hartHandleMsip_of_starting (by rwa [hData])]
        refine .woken hPlace hStatus rfl rfl ?_ rfl
        simp [mutexUnlock, setData, setCsr, clintClearMsip, mutexLock, takeTrap, setPlace]
      · rw [hartHandleMsip_of_not_starting (by rwa [hData])]
        exact .interrupted hPlace hStatus rfl rfl rfl rfl
  | mret hPlace => exact .returned hPlace rfl rfl rfl rfl
  | run hRuns pc mode => exact .ran hRuns rfl rfl rfl rfl

/-- The moves of a status: `STOPPED` to `STARTING` to `STARTED` and back. -/
inductive Move : HartStatus → HartStatus → Prop where
  | stay (status : HartStatus) : Move status status
  | start : Move .stopped .starting
  | wake : Move .starting .started
  | stop : Move .started .stopped

theorem Step.move (hStep : Step park s event t) (h : Hart) :
    Move (s.data h).status (t.data h).status := by
  cases hStep.outcome with
  | @started _ hart _ _ status data =>
      by_cases hSame : h = hart
      · subst hSame
        simpa [data, status] using Move.start
      · simpa [data, hSame] using Move.stay _
  | @stopped _ hart _ status data =>
      by_cases hSame : h = hart
      · subst hSame
        simpa [data, status] using Move.stop
      · simpa [data, hSame] using Move.stay _
  | @woken _ hart _ _ _ status data =>
      by_cases hSame : h = hart
      · subst hSame
        simpa [data, status] using Move.wake
      · simpa [data, hSame] using Move.stay _
  | refused data | notStopped data | interrupted _ _ data | returned _ data | ran _ data =>
      rw [data]
      exact .stay _

/-- A hart that is to start has its interrupt pending; one that is in code of
the operating system, or in a trap that returns there, is started. -/
structure Alive (park : Word) (s : System) (h : Hart) : Prop where
  pending : (s.data h).status = .starting → s.msip h = true
  running : RunsOs park s h → (s.data h).status = .started
  returning : s.place h = .trap → (s.csr h).mepc ≠ park → (s.data h).status = .started

theorem alive_afterMain (h : Hart) : Alive park (afterMain park) h where
  pending := by
    intro hStatus
    simp only [afterMain, mainData] at hStatus
    split at hStatus <;> cases hStatus
  running := by
    rintro ⟨pc, mode, hPlace, hPc⟩
    simp only [afterMain, mainData]
    cases hPlace
    by_cases hZero : h = 0
    · simp [hZero]
    · simp [mainCsrs, hZero] at hPc
  returning := by
    intro hPlace
    cases hPlace

/-- A step that leaves what `Alive` reads of a hart. -/
theorem Alive.congr (hAlive : Alive park s h) (data : t.data h = s.data h)
    (msip : t.msip h = s.msip h) (csr : t.csr h = s.csr h) (place : t.place h = s.place h) :
    Alive park t h where
  pending := by
    rw [data, msip]
    exact hAlive.pending
  running := by
    unfold RunsOs
    rw [data, place]
    exact hAlive.running
  returning := by
    rw [data, csr, place]
    exact hAlive.returning

theorem Step.alive (hStep : Step park s event t) (h : Hart) (hAlive : Alive park s h) :
    Alive park t h := by
  cases hStep.outcome with
  | @started _ hart _ _ status data msip csr place =>
      by_cases hSame : h = hart
      · subst hSame
        -- A stopped hart is in the loop of `park` or about to return to it.
        refine ⟨fun _ => by simp [msip], fun hRuns => ?_, fun hTrap hPc => ?_⟩
        · have hStarted := hAlive.running (by simpa [RunsOs, place] using hRuns)
          rw [status] at hStarted
          cases hStarted
        · have hStarted := hAlive.returning (by rwa [place] at hTrap) (by rwa [csr] at hPc)
          rw [status] at hStarted
          cases hStarted
      · exact hAlive.congr (by simp [data, hSame]) (by simp [msip, hSame]) (by rw [csr])
          (by rw [place])
  | refused data msip csr place | notStopped data msip csr place =>
      exact hAlive.congr (by rw [data]) (by rw [msip]) (by rw [csr]) (by rw [place])
  | @stopped _ hart _ status data msip csr place =>
      by_cases hSame : h = hart
      · subst hSame
        refine ⟨fun hStatus => by simp [data] at hStatus, ?_, fun _ hPc => ?_⟩
        · rintro ⟨pc, mode, hPlace, _⟩
          simp [place] at hPlace
        · simp [csr, parkCsrs] at hPc
      · exact hAlive.congr (by simp [data, hSame]) (by rw [msip]) (by simp [csr, hSame])
          (by simp [place, hSame])
  | @woken _ hart _ _ _ status data msip csr place =>
      by_cases hSame : h = hart
      · subst hSame
        exact ⟨fun hStatus => by simp [data] at hStatus, fun _ => by simp [data],
          fun _ _ => by simp [data]⟩
      · exact hAlive.congr (by simp [data, hSame]) (by simp [msip, hSame]) (by simp [csr, hSame])
          (by simp [place, hSame])
  | @interrupted _ hart pc mode code status data msip csr place =>
      by_cases hSame : h = hart
      · subst hSame
        refine ⟨fun hStatus => absurd (by rwa [data] at hStatus) status, ?_, fun _ hPc => ?_⟩
        · rintro ⟨pc', mode', hPlace, _⟩
          simp [place] at hPlace
        · rw [data]
          have hMepc : pc ≠ park := by simpa [csr, trapCsrs] using hPc
          exact hAlive.running ⟨pc, mode, code, hMepc⟩
      · exact hAlive.congr (by rw [data]) (by simp [msip, hSame]) (by simp [csr, hSame])
          (by simp [place, hSame])
  | @returned _ hart trap data msip csr place =>
      by_cases hSame : h = hart
      · subst hSame
        refine ⟨fun hStatus => by rw [msip]; exact hAlive.pending (by rwa [data] at hStatus), ?_,
          fun hTrap => by simp [place] at hTrap⟩
        rintro ⟨pc', mode', hPlace, hPc⟩
        rw [place, update_self] at hPlace
        cases hPlace
        rw [data]
        exact hAlive.returning trap hPc
      · exact hAlive.congr (by rw [data]) (by rw [msip]) (by rw [csr]) (by simp [place, hSame])
  | @ran _ hart pc mode running data msip csr place =>
      by_cases hSame : h = hart
      · subst hSame
        exact ⟨fun hStatus => by rw [msip]; exact hAlive.pending (by rwa [data] at hStatus),
          fun _ => by rw [data]; exact hAlive.running running,
          fun hTrap => by simp [place] at hTrap⟩
      · exact hAlive.congr (by rw [data]) (by rw [msip]) (by rw [csr]) (by simp [place, hSame])

theorem alive_of_run (run : Run (Step park) (afterMain park) events s) (h : Hart) :
    Alive park s h :=
  run.invariant (fun s => Alive park s h) (alive_afterMain h)
    (fun _ _ _ hAlive hStep => hStep.alive h hAlive)

/-- The target and the scratch value of a call of `hart_start` for the hart
that returned `true`. -/
def startOf (h : Hart) : Event → Option (Word × Word)
  | .start hart target scratch true => if hart = h then some (target, scratch) else none
  | _ => none

/-- The last call of `hart_start` for the hart that returned `true`. -/
def lastStart (h : Hart) (events : List Event) : Option (Word × Word) :=
  (events.filterMap (startOf h)).getLast?

/-- The calls of `hart_start` for the hart that returned `true`. -/
def startCount (h : Hart) (events : List Event) : Nat :=
  (events.filterMap (startOf h)).length

theorem lastStart_concat (h : Hart) (events : List Event) (event : Event) :
    lastStart h (events ++ [event]) = (startOf h event).or (lastStart h events) := by
  unfold lastStart
  cases hEvent : startOf h event with
  | none => simp [List.filterMap_append, hEvent]
  | some call => simp [List.filterMap_append, hEvent]

theorem startCount_concat (h : Hart) (events : List Event) (event : Event) :
    startCount h (events ++ [event]) = startCount h events + (startOf h event).toList.length := by
  unfold startCount
  cases hEvent : startOf h event with
  | none => simp [List.filterMap_append, hEvent]
  | some call => simp [List.filterMap_append, hEvent]

/-- 1 from a successful `hart_start` until the hart stops. -/
def awake : HartStatus → Nat
  | .stopped => 0
  | _ => 1

/-- Unless the hart stops, each successful start makes a stopped hart awake. -/
theorem Step.awake_eq (hStep : Step park s event t) (h : Hart) (hNoStop : event ≠ .stop h none) :
    awake (t.data h).status = awake (s.data h).status + (startOf h event).toList.length := by
  cases hStep.outcome with
  | @started _ hart _ _ status data =>
      by_cases hSame : hart = h
      · subst hSame
        simp [data, status, awake, startOf]
      · simp [data, Ne.symm hSame, hSame, startOf]
  | @stopped _ hart _ status data =>
      have hOther : h ≠ hart := fun hSame => hNoStop (by rw [hSame])
      simp [data, hOther, startOf]
  | @woken _ hart _ _ _ status data =>
      by_cases hSame : h = hart
      · subst hSame
        simp [data, status, awake, startOf]
      · simp [data, hSame, startOf]
  | refused data | notStopped data | interrupted _ _ data | returned _ data | ran _ data =>
      simp [data, startOf]

theorem awake_of_run (run : Run (Step park) s later t) (h : Hart)
    (hNoStop : .stop h none ∉ later) :
    awake (t.data h).status = awake (s.data h).status + startCount h later := by
  induction run with
  | nil => simp [startCount]
  | @snoc t u later event prior last ih =>
      simp only [List.mem_append, List.mem_singleton, not_or] at hNoStop
      rw [last.awake_eq h (Ne.symm hNoStop.2), ih hNoStop.1, startCount_concat, Nat.add_assoc]

/-- A hart that is to start is given the target of the last start. -/
theorem target_of_run (run : Run (Step park) (afterMain park) events s) (h : Hart)
    (hStatus : (s.data h).status = .starting) :
    lastStart h events = some ((s.data h).targetAddress, (s.data h).scratch) := by
  induction run with
  | nil =>
      simp only [afterMain, mainData] at hStatus
      split at hStatus <;> cases hStatus
  | @snoc s t events event prior last ih =>
      rw [lastStart_concat]
      cases last.outcome with
      | @started _ hart target scratch status data =>
          by_cases hSame : hart = h
          · subst hSame
            simp [data, startOf]
          · have hData : t.data h = s.data h := by simp [data, Ne.symm hSame]
            rw [hData] at hStatus ⊢
            simp [startOf, hSame, ih hStatus]
      | @stopped _ hart _ status data =>
          by_cases hSame : h = hart
          · subst hSame
            simp [data] at hStatus
          · have hData : t.data h = s.data h := by simp [data, hSame]
            rw [hData] at hStatus ⊢
            simp [startOf, ih hStatus]
      | @woken _ hart _ _ _ status data =>
          by_cases hSame : h = hart
          · subst hSame
            simp [data] at hStatus
          · have hData : t.data h = s.data h := by simp [data, hSame]
            rw [hData] at hStatus ⊢
            simp [startOf, ih hStatus]
      | refused data | notStopped data | interrupted _ _ data | returned _ data | ran _ data =>
          rw [data] at hStatus ⊢
          simp [startOf, ih hStatus]

/-- A hart becomes started by its software interrupt, at the target in the
table. -/
theorem Step.wakes (hStep : Step park s event t) (hBefore : (s.data h).status ≠ .started)
    (hAfter : (t.data h).status = .started) :
    event = .msip h ∧ (s.data h).status = .starting ∧
      (t.csr h).mepc = (s.data h).targetAddress := by
  cases hStep.outcome with
  | @started _ hart _ _ status data =>
      by_cases hSame : h = hart
      · subst hSame
        simp [data] at hAfter
      · simp [data, hSame] at hAfter
        exact absurd hAfter hBefore
  | @stopped _ hart _ status data =>
      by_cases hSame : h = hart
      · subst hSame
        simp [data] at hAfter
      · simp [data, hSame] at hAfter
        exact absurd hAfter hBefore
  | @woken _ hart _ _ _ status data _ csr =>
      by_cases hSame : h = hart
      · subst hSame
        exact ⟨rfl, status, by simp [csr, startCsrs]⟩
      · simp [data, hSame] at hAfter
        exact absurd hAfter hBefore
  | refused data | notStopped data | interrupted _ _ data | returned _ data | ran _ data =>
      rw [data] at hAfter
      exact absurd hAfter hBefore

/-- In every state that the harts reach after `main`: the status of a hart only
moves on its cycle, the hart is started at most once until it stops, a hart
that is to start has its interrupt pending, only a started hart is in code of
the operating system, and the interrupt that makes a hart started sends it to
the target of the last successful call. -/
theorem hart_lifecycle (run : Run (Step park) (afterMain park) events s) (h : Hart) :
    (∀ event t, Step park s event t → Move (s.data h).status (t.data h).status) ∧
    (∀ later t, Run (Step park) s later t → .stop h none ∉ later → startCount h later ≤ 1) ∧
    ((s.data h).status = .starting → s.msip h = true) ∧
    (RunsOs park s h → (s.data h).status = .started) ∧
    (∀ event t, Step park s event t → (s.data h).status ≠ .started →
      (t.data h).status = .started →
      event = .msip h ∧ ∃ scratch, lastStart h events = some ((t.csr h).mepc, scratch)) := by
  have hAlive := alive_of_run run h
  refine ⟨fun _ _ hStep => hStep.move h, fun later t hRun hNoStop => ?_, hAlive.pending,
    hAlive.running, fun event t hStep hBefore hAfter => ?_⟩
  · have hCount := awake_of_run hRun h hNoStop
    have hBound : awake (t.data h).status ≤ 1 := by
      cases (t.data h).status <;> simp [awake]
    omega
  · obtain ⟨hEvent, hStatus, hMepc⟩ := hStep.wakes hBefore hAfter
    exact ⟨hEvent, _, by rw [hMepc]; exact target_of_run run h hStatus⟩

theorem firstStarting_step : Step 0x80000100 (afterMain 0x80000100)
    (.start 1 0x80060000 0x80200000 true) firstStarting := by
  have hCall : hartStart 1 0x80060000 0x80200000 false (afterMain 0x80000100) =
      (true, firstStarting) := rfl
  exact .start hCall

theorem firstTrap_step : Step 0x80000100 firstStarting (.msip 1) firstTrap :=
  .msip rfl rfl

theorem firstRunning_step : Step 0x80000100 firstTrap (.mret 1) firstRunning :=
  .mret rfl

/-- Hart 1 is at its target, not in the loop of `park`. -/
theorem firstRunning_os : RunsOs 0x80000100 firstRunning 1 :=
  ⟨_, _, rfl, by decide⟩

theorem firstStopped_step : Step 0x80000100 firstRunning (.stop 1 none) firstStopped := by
  have hCall : hartStop 0x80000100 1 false firstRunning = (none, firstStopped) := rfl
  exact .stop firstRunning_os hCall

/-- One turn of hart 1 through `hart_start`, its interrupt, its target and
`hart_stop`. -/
theorem hart_lifecycle_first :
    firstStarting.msip 1 = true ∧
    (∃ scratch, lastStart 1 [.start 1 0x80060000 0x80200000 true] =
      some ((firstTrap.csr 1).mepc, scratch)) ∧
    (firstRunning.data 1).status = .started ∧
    startCount 1 [.start 1 0x80060000 0x80200000 true, .msip 1, .mret 1] ≤ 1 ∧
    Move (firstRunning.data 1).status (firstStopped.data 1).status := by
  have hStarting : Run (Step 0x80000100) (afterMain 0x80000100) _ firstStarting :=
    (Run.nil _).snoc firstStarting_step
  have hRunning := (hStarting.snoc firstTrap_step).snoc firstRunning_step
  refine ⟨(hart_lifecycle hStarting 1).2.2.1 rfl, ?_,
    (hart_lifecycle hRunning 1).2.2.2.1 firstRunning_os,
    (hart_lifecycle (Run.nil _) 1).2.1 _ _ hRunning (by decide),
    (hart_lifecycle hRunning 1).1 _ _ firstStopped_step⟩
  exact ((hart_lifecycle hStarting 1).2.2.2.2 _ _ firstTrap_step (by decide) rfl).2

/-- What `mret` finds when a trap of the hart ends: the frame of a process is
looked up through `sscratch`. -/
def ResumesAs (s : System) (h : Hart) (target scratch : Word) : Prop :=
  (s.csr h).mepc = target ∧ mpp (s.csr h).mstatus = .supervisor ∧ (s.csr h).sscratch = scratch

theorem Step.privMode (hStep : Step park s event t) (h : Hart) :
    (t.data h).privMode = (s.data h).privMode := by
  cases hStep.outcome with
  | @started _ hart _ _ _ data | @stopped _ hart _ _ data | @woken _ hart _ _ _ _ data =>
      by_cases hSame : h = hart
      · subst hSame
        simp [data]
      · simp [data, hSame]
  | refused data | notStopped data | interrupted _ _ data | returned _ data | ran _ data =>
      rw [data]

/-- `main` gives every hart the machine mode, and nothing changes it. -/
theorem privMode_of_run (run : Run (Step park) (afterMain park) events s) (h : Hart) :
    (s.data h).privMode = .machine :=
  run.invariant (fun s => (s.data h).privMode = .machine) rfl
    (fun _ _ _ hMode hStep => (hStep.privMode h).trans hMode)

/-- A hart that is to start keeps its table entry until its interrupt. -/
theorem Step.starting (hStep : Step park s event t) (h : Hart)
    (hStatus : (s.data h).status = .starting) (hNotYet : event ≠ .msip h) :
    t.data h = s.data h := by
  cases hStep.outcome with
  | @started _ hart _ _ status data =>
      by_cases hSame : h = hart
      · subst hSame
        rw [status] at hStatus
        cases hStatus
      · simp [data, hSame]
  | @stopped _ hart _ status data =>
      by_cases hSame : h = hart
      · subst hSame
        rw [status] at hStatus
        cases hStatus
      · simp [data, hSame]
  | @woken _ hart _ _ _ _ data =>
      have hOther : h ≠ hart := fun hSame => hNotYet (by rw [hSame])
      simp [data, hOther]
  | refused data | notStopped data | interrupted _ _ data | returned _ data | ran _ data =>
      rw [data]

theorem starting_of_run (run : Run (Step park) s later t) (h : Hart)
    (hStatus : (s.data h).status = .starting) (hNotYet : .msip h ∉ later) :
    t.data h = s.data h := by
  induction run with
  | nil => rfl
  | @snoc t u later event prior last ih =>
      simp only [List.mem_append, List.mem_singleton, not_or] at hNotYet
      have hSame := ih hNotYet.1
      rw [last.starting h (by rwa [hSame]) (Ne.symm hNotYet.2), hSame]

/-- What the interrupt of a hart that is to start leaves for its `mret`. -/
theorem Step.msip_starting (hStep : Step park s (.msip h) t)
    (hStatus : (s.data h).status = .starting) :
    (t.csr h).mepc = (s.data h).targetAddress ∧
      (t.csr h).mstatus = ((s.data h).privMode.bits <<< mstatusMppBit) ||| mstatusMpie |||
        mstatusFsInitial ∧
      (t.csr h).sscratch = hartWord h := by
  cases hStep.outcome with
  | woken code status data msip csr place => simp [csr, startCsrs]
  | interrupted code status => exact absurd hStatus status

/-- After a successful `hart_start` the hart resumes at the target, but in
machine mode and with its own number in `sscratch`. -/
theorem handOff_of_run (run : Run (Step park) (afterMain park) events s)
    (hStart : Step park s (.start h target scratch true) t) (wait : Run (Step park) t later u)
    (hNotYet : .msip h ∉ later) {v : System} (hMsip : Step park u (.msip h) v) :
    (v.csr h).mepc = target ∧ mpp (v.csr h).mstatus = .machine ∧
      (v.csr h).sscratch = hartWord h := by
  have hMode := privMode_of_run (run.snoc hStart) h
  have hData : (t.data h).status = .starting ∧ (t.data h).targetAddress = target := by
    cases hStart.outcome with
    | started status data => simp [data]
  have hWait := starting_of_run wait h hData.1 hNotYet
  obtain ⟨hMepc, hMstatus, hSscratch⟩ := hMsip.msip_starting (by rw [hWait]; exact hData.1)
  rw [hWait] at hMepc hMstatus
  refine ⟨hMepc.trans hData.2, ?_, hSscratch⟩
  rw [hMstatus, hMode]
  decide

/-- No call of `hart_start` hands a process frame over: whenever it returns
`true`, the next software interrupt of the hart does not leave it in supervisor
mode with the given value in `sscratch`. -/
theorem hartStart_not_handOff (run : Run (Step park) (afterMain park) events s)
    (hStart : Step park s (.start h target scratch true) t) (wait : Run (Step park) t later u)
    (hNotYet : .msip h ∉ later) {v : System} (hMsip : Step park u (.msip h) v) :
    ¬ ResumesAs v h target scratch := by
  rintro ⟨_, hMode, _⟩
  rw [(handOff_of_run run hStart wait hNotYet hMsip).2.1] at hMode
  cases hMode

theorem hartStart_not_handOff_first : ¬ ResumesAs firstTrap 1 0x80060000 0x80200000 :=
  hartStart_not_handOff (Run.nil _) firstStarting_step (Run.nil _) List.not_mem_nil firstTrap_step

/-- The first start after `main` already misses. -/
theorem handOff_missed : ¬ ∀ t v,
    Step 0x80000100 (afterMain 0x80000100) (.start 1 0x80060000 0x80200000 true) t →
    Step 0x80000100 t (.msip 1) v → ResumesAs v 1 0x80060000 0x80200000 := by
  intro hClaim
  obtain ⟨_, hMode, _⟩ := hClaim _ _ firstStarting_step firstTrap_step
  revert hMode
  decide

end Sbi
