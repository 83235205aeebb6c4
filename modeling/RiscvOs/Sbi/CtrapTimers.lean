import RiscvOs.Sbi.Ctrap

/-! The timers of the harts, over all traps of all harts: a timer is set by calls
of the SBI, fires in machine mode once, and stays raised for the operating system
until its hart acknowledges it. -/
namespace Sbi.Ctrap

open Semantics Function Table Svccall

/-! ## Timers -/

/-- What happens to the timers. -/
inductive TimerEvent where
  | tick (now : Word)
  | set (target : Nat) (deadline : Word)
  | fire (hart : Hart)
  | ack (hart : Hart)
  | other
  deriving DecidableEq

/-- A value of `mtimecmp` as a deadline. -/
def asDeadline (value : Word) : Option Word :=
  if value = clintMtimecmpInfinite then none else some value

/-- The deadline of a hart. -/
def nextDeadline (hart : Hart) (deadline : Option Word) : TimerEvent → Option Word
  | .set target value => if target = hart then asDeadline value else deadline
  | .fire hart' => if hart' = hart then none else deadline
  | _ => deadline

/-- Whether the timer of a hart is raised for the operating system. -/
def nextRaised (hart : Hart) (raised : Bool) : TimerEvent → Bool
  | .fire hart' => if hart' = hart then true else raised
  | .ack hart' => if hart' = hart then false else raised
  | _ => raised

def nextTime (now : Word) : TimerEvent → Word
  | .tick now => now
  | _ => now

/-- How often a timer is set, and how often it fires. -/
def sets (hart : Hart) (events : List TimerEvent) : Nat :=
  events.countP fun
    | .set target _ => target = hart
    | _ => false

def fires (hart : Hart) (events : List TimerEvent) : Nat :=
  events.count (.fire hart)

/-- What a trap means for the timers. -/
def timerEvent (m : Machine) : Event → TimerEvent
  | .tick now => .tick now
  | .receive _ => .other
  | .trap hart trap =>
      let a0 := reg m.mem trap.mscratch xregA0
      let a1 := reg m.mem trap.mscratch xregA1
      if trap.isAsync then
        if trap.cause = 7 then .fire hart else .other
      else if trap.cause = 9 then
        match service (reg m.mem trap.mscratch xregA7) with
        | .setTimecmp => .set (a0.setWidth 32).toNat a1
        | .addTimecmp => .set (a0.setWidth 32).toNat (m.time + a1)
        | .ackTimer => .ack hart
        | _ => .other
      else .other

def TimerStep (b : Tables) (park : Word) (m : Machine) (event : TimerEvent) (m' : Machine) : Prop :=
  ∃ e, timerEvent m e = event ∧ Step b park m e m'

/-- `STIP` of a hart. -/
def Machine.raised (m : Machine) (hart : Hart) : Bool :=
  (m.mip hart).getLsbD 5

/-- What the timers come to in a run. -/
structure TimersExact (b : Tables) (park : Word) (start : Machine) (events : List TimerEvent)
    (m : Machine) : Prop where
  /-- `mtimecmp` is the deadline that was set last, if it has not fired. -/
  deadline : ∀ hart : Hart, m.mtimecmp hart =
    (events.foldl (nextDeadline hart) (asDeadline (start.mtimecmp hart))).getD
      clintMtimecmpInfinite
  /-- A timer is raised from its fire to its acknowledgement. -/
  raised : ∀ hart, m.raised hart = events.foldl (nextRaised hart) (start.raised hart)
  /-- No timer fires before its deadline, or without one. -/
  notEarly : ∀ before hart after, events = before ++ .fire hart :: after →
    ∃ deadline, before.foldl (nextDeadline hart) (asDeadline (start.mtimecmp hart)) =
      some deadline ∧ deadline ≤ before.foldl nextTime start.time
  /-- No timer fires twice for one deadline. -/
  once : ∀ hart, fires hart events ≤
    sets hart events + if asDeadline (start.mtimecmp hart) = none then 0 else 1
  /-- A timer whose deadline has passed can fire. -/
  notLost : ∀ hart deadline,
    events.foldl (nextDeadline hart) (asDeadline (start.mtimecmp hart)) = some deadline →
      deadline ≤ m.time → ∃ m', TimerStep b park m (.fire hart) m' ∧ m'.raised hart = true

variable {b : Tables} {park : Word} {hart hart' : Hart} {trap : Trap} {s : State}
  {m m' start : Machine} {event : TimerEvent} {events : List TimerEvent}

/-! ## What one trap does -/

/-- The part of the state that the timers need. -/
structure Sees (s t : State) : Prop where
  mtimecmp : t.mtimecmp = s.mtimecmp
  mip : t.mip = s.mip

theorem plicHandleIrq_sees (irq : BitVec 32) : Sees s (plicHandleIrq irq s) := by
  unfold plicHandleIrq
  split
  · exact ⟨rfl, rfl⟩
  · exact ⟨rfl, rfl⟩

theorem clintSetMtimecmp_mip (hart : BitVec 32) (val : Word) (s : Svccall.State) :
    (clintSetMtimecmp hart val s).mip = s.mip := by
  unfold clintSetMtimecmp
  split
  · rfl
  · rfl

/-- The register of a hart that exists is the one that is set. -/
theorem clintSetMtimecmp_at (target : BitVec 32) (val : Word) (s : Svccall.State) (hart : Hart) :
    (clintSetMtimecmp target val s).mtimecmp hart =
      if target.toNat = hart then val else s.mtimecmp hart := by
  unfold clintSetMtimecmp
  by_cases hBeyond : target.toNat ≥ 8
  · have hNe : target.toNat ≠ hart := by omega
    rw [if_pos hBeyond, if_neg hNe]
  · rw [if_neg hBeyond]
    change update s.mtimecmp target.toNat val hart = _
    rw [update_apply]
    by_cases hSame : target.toNat = hart
    · rw [if_pos hSame, if_pos hSame.symm]
    · rw [if_neg hSame, if_neg fun h => hSame h.symm]

/-- What a call of the SBI does to the timers. -/
theorem svccall_timers (mscratch : Word) (hartId : BitVec 32) (answers : Answers)
    (s : Svccall.State) :
    (∀ hart : Hart, (svccallHandle b park mscratch hartId answers s).2.mtimecmp hart =
      match service (reg s.table.mem mscratch xregA7) with
      | .setTimecmp =>
          if ((reg s.table.mem mscratch xregA0).setWidth 32).toNat = hart then
            reg s.table.mem mscratch xregA1 else s.mtimecmp hart
      | .addTimecmp =>
          if ((reg s.table.mem mscratch xregA0).setWidth 32).toNat = hart then
            answers.time + reg s.table.mem mscratch xregA1 else s.mtimecmp hart
      | _ => s.mtimecmp hart) ∧
    (svccallHandle b park mscratch hartId answers s).2.mip =
      match service (reg s.table.mem mscratch xregA7) with
      | .ackTimer => s.mip &&& ~~~sipStip
      | _ => s.mip := by
  unfold svccallHandle
  cases hService : service (reg s.table.mem mscratch xregA7) with
  | setTimecmp | addTimecmp =>
      exact ⟨fun hart => clintSetMtimecmp_at _ _ s hart, clintSetMtimecmp_mip _ _ s⟩
  | hartStop =>
      simp only []
      split
      · exact ⟨fun _ => rfl, rfl⟩
      · exact ⟨fun _ => rfl, rfl⟩
  | _ => exact ⟨fun _ => rfl, rfl⟩

/-- The timers behind a call, which returns or leaves the trap in `hart_stop`. -/
theorem ecall_sees (hSync : trap.isAsync = false) (hCause : trap.cause = 9) :
    ∃ char, (cTrapHandler b park hart trap s).2.mtimecmp =
        (svccallHandle b park trap.mscratch (BitVec.ofNat 32 hart) ⟨trap.time, trap.rtc, char⟩
          s.toState).2.mtimecmp ∧
      (cTrapHandler b park hart trap s).2.mip =
        (svccallHandle b park trap.mscratch (BitVec.ofNat 32 hart) ⟨trap.time, trap.rtc, char⟩
          s.toState).2.mip := by
  refine ⟨(getChar trap s).1, ?_⟩
  simp only [cTrapHandler, hSync, hCause, Bool.false_eq_true, ↓reduceIte]
  split
  · exact ⟨rfl, rfl⟩
  · exact ⟨rfl, rfl⟩

/-- Other traps leave the timers, but for a timer interrupt. -/
theorem trap_sees (hTimer : ¬ (trap.isAsync = true ∧ trap.cause = 7))
    (hCall : ¬ (trap.isAsync = false ∧ trap.cause = 9)) :
    Sees s (cTrapHandler b park hart trap s).2 := by
  unfold cTrapHandler
  split
  next hAsync =>
    split
    next => exact ⟨rfl, rfl⟩
    next hCause => exact absurd ⟨hAsync, hCause⟩ hTimer
    next => exact plicHandleIrq_sees trap.irq
    next => exact ⟨rfl, rfl⟩
  next hSync =>
    split
    next hCause => exact absurd ⟨Bool.eq_false_iff.mpr hSync, hCause⟩ hCall
    next => exact ⟨rfl, rfl⟩

theorem stip_set (mip : Word) : (mip ||| sipStip).getLsbD 5 = true := by
  rw [BitVec.getLsbD_or]
  simp [sipStip]

theorem stip_clear (mip : Word) : (mip &&& ~~~sipStip).getLsbD 5 = false := by
  rw [BitVec.getLsbD_and]
  simp [sipStip]

/-- What a step does to the time, the deadlines and the raised timers. -/
structure Effect (m : Machine) (event : TimerEvent) (m' : Machine) : Prop where
  time : m'.time = nextTime m.time event
  deadline : ∀ hart : Hart, asDeadline (m'.mtimecmp hart) =
    nextDeadline hart (asDeadline (m.mtimecmp hart)) event
  raised : ∀ hart, m'.raised hart = nextRaised hart (m.raised hart) event
  due : ∀ hart, event = .fire hart → m.TimerPending hart

/-- A step that concerns no timer. -/
theorem Effect.of_same (hTime : m'.time = m.time) (hDeadline : m'.mtimecmp = m.mtimecmp)
    (hMip : m'.mip = m.mip) : Effect m .other m' where
  time := hTime
  deadline := fun hart => by rw [hDeadline]; rfl
  raised := fun hart => by rw [Machine.raised, hMip]; rfl
  due := fun _ hFire => TimerEvent.noConfusion hFire

theorem back_same (hSees : Sees (m.on hart) s) :
    Effect m .other (m.back hart s) := by
  refine .of_same rfl hSees.mtimecmp ?_
  change update m.mip hart s.mip = m.mip
  rw [hSees.mip]
  exact update_eq_self hart m.mip

theorem effect_fire (hAsync : trap.isAsync = true) (hCause : trap.cause = 7)
    (hPending : m.TimerPending hart) :
    Effect m (.fire hart) (m.back hart (cTrapHandler b park hart trap (m.on hart)).2) := by
  have hHandler : (cTrapHandler b park hart trap (m.on hart)).2 =
      { m.on hart with
        toState := clintSetMtimecmp (BitVec.ofNat 32 hart) clintMtimecmpInfinite
          { (m.on hart).toState with mip := m.mip hart ||| sipStip } } := by
    simp only [cTrapHandler, hAsync, hCause, ↓reduceIte]
    rfl
  have hNumber : (BitVec.ofNat 32 hart).toNat = hart := by
    rw [BitVec.toNat_ofNat]
    omega
  rw [hHandler]
  refine ⟨rfl, fun hart' => ?_, fun hart' => ?_, fun hart' hFire => ?_⟩
  · change asDeadline ((clintSetMtimecmp _ _ _).mtimecmp hart') = _
    rw [clintSetMtimecmp_at, hNumber, nextDeadline]
    by_cases hSame : hart = hart'
    · rw [if_pos hSame, if_pos (congrArg Fin.val hSame)]
      exact if_pos rfl
    · rw [if_neg hSame, if_neg fun h => hSame (Fin.ext h)]
      rfl
  · change (update m.mip hart _ hart').getLsbD 5 = _
    rw [nextRaised]
    by_cases hSame : hart = hart'
    · subst hSame
      rw [if_pos rfl, update_self, clintSetMtimecmp_mip]
      exact stip_set _
    · rw [if_neg hSame, update_of_ne fun h => hSame h.symm]
      rfl
  · obtain rfl := TimerEvent.fire.inj hFire
    exact hPending

theorem effect_call (hSync : trap.isAsync = false) (hCause : trap.cause = 9)
    (hTime : trap.time = m.time) :
    Effect m (timerEvent m (.trap hart trap))
      (m.back hart (cTrapHandler b park hart trap (m.on hart)).2) := by
  obtain ⟨char, hMtimecmp, hMip⟩ :=
    @ecall_sees b park hart trap (m.on hart) hSync hCause
  obtain ⟨hDeadlines, hStip⟩ := @svccall_timers b park trap.mscratch
    (BitVec.ofNat 32 hart) ⟨trap.time, trap.rtc, char⟩ (m.on hart).toState
  generalize (cTrapHandler b park hart trap (m.on hart)).2 = after at hMtimecmp hMip
  rw [← hMip] at hStip
  rw [← hMtimecmp] at hDeadlines
  simp only [timerEvent, hSync, hCause, Bool.false_eq_true, ↓reduceIte]
  have hMem : (m.on hart).table.mem = m.mem := rfl
  rw [hMem] at hStip hDeadlines
  cases hService : service (reg m.mem trap.mscratch xregA7) with
  | setTimecmp =>
      simp only [hService] at hDeadlines hStip ⊢
      refine ⟨rfl, fun hart' => ?_, fun hart' => ?_, fun _ hFire => TimerEvent.noConfusion hFire⟩
      · change asDeadline (after.mtimecmp hart') = _
        rw [hDeadlines, nextDeadline, apply_ite asDeadline]
        rfl
      · change (update m.mip hart after.mip hart').getLsbD 5 = _
        rw [hStip]
        exact congrArg (fun mip => (mip hart').getLsbD 5) (update_eq_self hart m.mip)
  | addTimecmp =>
      simp only [hService] at hDeadlines hStip ⊢
      refine ⟨rfl, fun hart' => ?_, fun hart' => ?_, fun _ hFire => TimerEvent.noConfusion hFire⟩
      · change asDeadline (after.mtimecmp hart') = _
        rw [hDeadlines, nextDeadline, apply_ite asDeadline, hTime]
        rfl
      · change (update m.mip hart after.mip hart').getLsbD 5 = _
        rw [hStip]
        exact congrArg (fun mip => (mip hart').getLsbD 5) (update_eq_self hart m.mip)
  | ackTimer =>
      simp only [hService] at hDeadlines hStip ⊢
      refine ⟨rfl, fun hart' => ?_, fun hart' => ?_, fun _ hFire => TimerEvent.noConfusion hFire⟩
      · change asDeadline (after.mtimecmp hart') = _
        rw [hDeadlines]
        rfl
      · change (update m.mip hart after.mip hart').getLsbD 5 = _
        rw [nextRaised]
        by_cases hSame : hart = hart'
        · subst hSame
          rw [if_pos rfl, update_self, hStip]
          exact stip_clear _
        · rw [if_neg hSame, update_of_ne fun h => hSame h.symm]
          rfl
  | _ =>
      simp only [hService] at hDeadlines hStip ⊢
      refine ⟨rfl, fun hart' => ?_, fun hart' => ?_, fun _ hFire => TimerEvent.noConfusion hFire⟩
      · change asDeadline (after.mtimecmp hart') = _
        rw [hDeadlines]
        rfl
      · change (update m.mip hart after.mip hart').getLsbD 5 = _
        rw [hStip]
        exact congrArg (fun mip => (mip hart').getLsbD 5) (update_eq_self hart m.mip)

theorem TimerStep.effect (hStep : TimerStep b park m event m') : Effect m event m' := by
  obtain ⟨e, rfl, hStep⟩ := hStep
  cases hStep with
  | tick hLe hFinite =>
      exact ⟨rfl, fun _ => rfl, fun _ => rfl, fun _ hFire => TimerEvent.noConfusion hFire⟩
  | receive c => exact .of_same rfl rfl rfl
  | @trap hart trap hTime hPending =>
      by_cases hTimer : trap.isAsync = true ∧ trap.cause = 7
      · obtain ⟨hAsync, hCause⟩ := hTimer
        have hEvent : timerEvent m (.trap hart trap) = .fire hart := by
          simp only [timerEvent, hAsync, hCause, ↓reduceIte]
        rw [hEvent]
        exact effect_fire hAsync hCause (hPending hAsync hCause)
      · by_cases hCall : trap.isAsync = false ∧ trap.cause = 9
        · exact effect_call hCall.1 hCall.2 hTime
        · have hEvent : timerEvent m (.trap hart trap) = .other := by
            cases hAsync : trap.isAsync with
            | false =>
                have hNot : trap.cause ≠ 9 := fun h => hCall ⟨hAsync, h⟩
                simp only [timerEvent, hAsync, Bool.false_eq_true, hNot, ↓reduceIte]
            | true =>
                have hNot : trap.cause ≠ 7 := fun h => hTimer ⟨hAsync, h⟩
                simp only [timerEvent, hAsync, hNot, ↓reduceIte]
          rw [hEvent]
          exact back_same (trap_sees hTimer hCall)

/-! ## Runs -/

theorem getD_asDeadline (value : Word) :
    (asDeadline value).getD clintMtimecmpInfinite = value := by
  unfold asDeadline
  split
  next hInfinite => exact hInfinite.symm
  next => rfl

theorem TimerStep.finite (hStep : TimerStep b park m event m')
    (hTime : m.time < clintMtimecmpInfinite) : m'.time < clintMtimecmpInfinite := by
  obtain ⟨e, -, hStep⟩ := hStep
  cases hStep with
  | tick hLe hFinite => exact hFinite
  | receive c => exact hTime
  | trap hTrap hPending => exact hTime

theorem run_finite (run : Run (TimerStep b park) start events m)
    (hStart : start.time < clintMtimecmpInfinite) :
    m.time < clintMtimecmpInfinite :=
  run.invariant (fun m => m.time < clintMtimecmpInfinite) hStart fun _ _ _ hTime hStep =>
    hStep.finite hTime

theorem run_time (run : Run (TimerStep b park) start events m) :
    m.time = events.foldl nextTime start.time := by
  induction run with
  | nil => rfl
  | snoc prior last ih =>
      rw [List.foldl_append, ← ih, last.effect.time, List.foldl_cons, List.foldl_nil]

theorem run_deadline (run : Run (TimerStep b park) start events m) (hart : Hart) :
    asDeadline (m.mtimecmp hart) =
      events.foldl (nextDeadline hart) (asDeadline (start.mtimecmp hart)) := by
  induction run with
  | nil => rfl
  | snoc prior last ih =>
      rw [List.foldl_append, ← ih, last.effect.deadline, List.foldl_cons, List.foldl_nil]

theorem run_raised (run : Run (TimerStep b park) start events m) (hart : Hart) :
    m.raised hart = events.foldl (nextRaised hart) (start.raised hart) := by
  induction run with
  | nil => rfl
  | snoc prior last ih =>
      rw [List.foldl_append, ← ih, last.effect.raised, List.foldl_cons, List.foldl_nil]

/-- A pending timer has a deadline. -/
theorem exists_deadline (hTime : m.time < clintMtimecmpInfinite) (hPending : m.TimerPending hart) :
    asDeadline (m.mtimecmp hart) = some (m.mtimecmp hart) := by
  unfold Machine.TimerPending at hPending
  apply if_neg
  intro hInfinite
  rw [hInfinite] at hPending
  exact absurd hTime (BitVec.not_lt.mpr hPending)

/-- Whether a hart has a deadline to come to. -/
def waiting (m : Machine) (hart : Hart) : Nat :=
  if asDeadline (m.mtimecmp hart) = none then 0 else 1

/-- A fire takes the deadline away. -/
theorem TimerStep.once (hStep : TimerStep b park m event m')
    (hTime : m.time < clintMtimecmpInfinite) (hart : Hart) :
    fires hart [event] + waiting m' hart ≤ sets hart [event] + waiting m hart := by
  have hEffect := hStep.effect
  rw [waiting, hEffect.deadline hart]
  cases event with
  | set target value =>
      by_cases hSame : target = hart
      · have hSets : sets hart [.set target value] = 1 := by simp [sets, hSame]
        have hFires : fires hart [.set target value] = 0 := by simp [fires]
        rw [hSets, hFires]
        split <;> omega
      · have hSets : sets hart [.set target value] = 0 := by simp [sets, hSame]
        have hFires : fires hart [.set target value] = 0 := by simp [fires]
        rw [hSets, hFires, nextDeadline, if_neg hSame]
        exact Nat.le_refl _
  | fire hart' =>
      by_cases hSame : hart' = hart
      · subst hSame
        have hFires : fires hart' [.fire hart'] = 1 := by simp [fires]
        have hWaiting : waiting m hart' = 1 := by
          rw [waiting, exists_deadline hTime (hEffect.due hart' rfl)]
          rfl
        rw [hFires, hWaiting, nextDeadline, if_pos rfl, if_pos rfl]
        omega
      · have hFires : fires hart [.fire hart'] = 0 := by simp [fires, hSame]
        rw [hFires, nextDeadline, if_neg hSame]
        simp [sets, waiting]
  | tick now => exact Nat.le_refl _
  | ack hart' => exact Nat.le_refl _
  | other => exact Nat.le_refl _

theorem run_once (run : Run (TimerStep b park) start events m)
    (hStart : start.time < clintMtimecmpInfinite) (hart : Hart) :
    fires hart events + waiting m hart ≤ sets hart events + waiting start hart := by
  induction run with
  | nil => exact Nat.le_of_eq (by simp [fires, sets])
  | @snoc m m' events event prior last ih =>
      have hLast := last.once (run_finite prior hStart) hart
      have hFires : fires hart (events ++ [event]) = fires hart events + fires hart [event] :=
        List.count_append
      have hSets : sets hart (events ++ [event]) = sets hart events + sets hart [event] :=
        List.countP_append
      rw [hFires, hSets]
      omega

/-- The timer interrupt of a hart. -/
def timerTrap (m : Machine) : Trap where
  mcause := 0x8000000000000007
  mepc := 0
  mscratch := 0
  time := m.time
  rtc := 0
  irq := 0

theorem exists_fire (hPending : m.TimerPending hart) :
    ∃ m', TimerStep b park m (.fire hart) m' ∧ m'.raised hart = true := by
  have hAsync : (timerTrap m).isAsync = true := by
    change (0x8000000000000007 : Word).getLsbD 63 = true
    decide
  have hCause : (timerTrap m).cause = 7 := by
    change ((0x8000000000000007 : Word) &&& 0xff).toNat = 7
    decide
  have hStep : TimerStep b park m (.fire hart)
      (m.back hart (cTrapHandler b park hart (timerTrap m) (m.on hart)).2) := by
    refine ⟨.trap hart (timerTrap m), ?_, .trap rfl fun _ _ => hPending⟩
    simp only [timerEvent, hAsync, hCause, ↓reduceIte]
  refine ⟨_, hStep, ?_⟩
  rw [hStep.effect.raised hart, nextRaised, if_pos rfl]

/-- The timers are exact along every interleaving of the traps of all harts, whatever
else the traps are for. -/
theorem timers_of_run (hStart : start.time < clintMtimecmpInfinite)
    (run : Run (TimerStep b park) start events m) : TimersExact b park start events m where
  deadline := fun hart => by rw [← run_deadline run, getD_asDeadline]
  raised := run_raised run
  notEarly := by
    rintro before hart after rfl
    obtain ⟨m₁, m₂, hBefore, hFire, -⟩ := run.split
    have hPending := hFire.effect.due hart rfl
    refine ⟨m₁.mtimecmp hart, ?_, ?_⟩
    · rw [← run_deadline hBefore]
      exact exists_deadline (run_finite hBefore hStart) hPending
    · rw [← run_time hBefore]
      exact hPending
  once := fun hart => (Nat.le_add_right _ _).trans (run_once run hStart hart)
  notLost := by
    intro hart deadline hDeadline hPassed
    rw [← run_deadline run] at hDeadline
    apply exists_fire
    have hSame : m.mtimecmp hart = deadline := by
      rw [← getD_asDeadline (m.mtimecmp hart), hDeadline]
      rfl
    rw [Machine.TimerPending, hSame]
    exact hPassed

/-- Hart 0 has a deadline that has passed. -/
def dueMachine : Machine where
  mem _ := 0
  msip _ := false
  mtimecmp _ := 3
  output := []
  received := []
  ring := ⟨fun _ => 0, 0, 0⟩
  completed := []
  csr := mainCsrs 0x80000100
  mip _ := 0
  time := 5

example :
    ∃ m, TimersExact bootTables 0x80000100 dueMachine [.fire 0] m := by
  have hPending : dueMachine.TimerPending 0 := by
    change (3 : Word) ≤ 5
    decide
  obtain ⟨m, hFire, -⟩ := @exists_fire bootTables 0x80000100 0 dueMachine hPending
  exact ⟨m, timers_of_run (by decide) (Run.snoc (Run.nil _) hFire)⟩

end Sbi.Ctrap
