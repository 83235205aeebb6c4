import RiscvOs.Kernel.SchedulingHarts

/-! `syscall.c`, from the trap of a process to the handler of its call, and
on to the scheduler. -/
namespace Kernel.Syscall

open Semantics Function Scheduling

/-- The functions of the table `SYSCALLS`. -/
inductive Handler where
  | exit
  | putchar
  | getchar
  | yield
  | sleep
  deriving DecidableEq

/-- The saved registers, by register number. -/
abbrev Regs := Fin 32 → Word

def xregA0 : Fin 32 := 10

def xregA7 : Fin 32 := 17

/-- `SYSCALLS` -/
def syscalls : List Handler :=
  [.exit, .putchar, .getchar, .yield, .sleep]

/-- `NUM_SYSCALLS`, an `int` -/
def numSyscalls : Int :=
  syscalls.length

/-- `EINVAL` -/
def einval : Word := 22

/-- A trap of a process: `scratch`, the harts with their `sepc`, and the
characters for `sbi_putchar`. -/
structure Trap where
  scratch : Regs
  harts : Harts
  output : List Byte

/-- `SYSCALLS[x]`: an entry of the table is the address of its function, and
outside of the table it is what memory holds there. -/
def syscallsAt (m : Memory) (table : Word) (code : Handler → Word) (x : Word) : Word :=
  match syscalls[x.toNat]? with
  | some handler => code handler
  | none => m.load64 (table + 8 * x)

/-- `syscall_handle` up to the call of a function, with the address that it
calls. The comparison is one of signed values. -/
def syscallHandle (m : Memory) (table : Word) (code : Handler → Word) (hart : Nat) (epc : Word)
    (k : Trap) : Option Word × Trap :=
  let k := { k with harts := { k.harts with sepc := update k.harts.sepc hart (epc + 4) } }
  if (k.scratch xregA7).toInt ≥ numSyscalls then
    (none, { k with scratch := update k.scratch xregA0 (-einval) })
  else (some (syscallsAt m table code (k.scratch xregA7)), k)

/-- A handler returns to the trap vector, whose `sret` goes to `sepc`, or calls
`schedule_hart_spawn`, which does not return. -/
inductive Outcome where
  | returns (k : Trap)
  | schedules (k : Trap)

/-- The handlers; `time` is the answer of `sbi_get_time` and `c` the one of
`sbi_getchar`. -/
def handle (hart : Nat) (time : Word) (c : Byte) (k : Trap) : Handler → Outcome
  | .exit => .schedules { k with harts := (syscallExit hart k.harts).setPlace hart .check }
  | .putchar => .returns { k with output := k.output ++ [(k.scratch xregA0).setWidth 8] }
  | .getchar => .returns { k with scratch := update k.scratch xregA0 (c.setWidth 64) }
  | .yield => .schedules { k with harts := k.harts.setPlace hart .check }
  | .sleep => .schedules { k with
      harts := (syscallSleep hart (k.scratch xregA0) time k.harts).setPlace hart .check }

/-- The hart on which an event is a trap of the running process. -/
def trapOf : HartEvent → Option Nat
  | .resched hart _ | .exit hart _ | .sleep hart _ _ _ => some hart
  | _ => none

/-- The trap vector returns to `epc + 4`, or the scheduler saves `epc + 4` for
the process that made the call, and for no other one, whatever the other harts
do. -/
def Resumes (hart : Nat) (caller epc : Word) : Outcome → Prop
  | .returns k => k.harts.sepc hart = epc + 4
  | .schedules k => ∀ events t u p, Run HartStep k.harts events t →
      (∀ event ∈ events, trapOf event ≠ some hart) → t.place hart = .saving p →
        HartStep t (.save hart) u → p = caller ∧ (u.sched.procs p).frame.sepc = epc + 4

/-- A number of the table calls its handler, any other one fails with
`-EINVAL`, and the process goes on behind its `ecall`. -/
structure Handles (m : Memory) (table : Word) (code : Handler → Word) (hart : Nat) (epc time : Word)
    (c : Byte) (k : Trap) : Prop where
  valid : 0 ≤ (k.scratch xregA7).toInt ∧ (k.scratch xregA7).toInt < numSyscalls →
    ∃ handler, syscalls[(k.scratch xregA7).toNat]? = some handler ∧
      (syscallHandle m table code hart epc k).1 = some (code handler)
  invalid : ¬ (0 ≤ (k.scratch xregA7).toInt ∧ (k.scratch xregA7).toInt < numSyscalls) →
    (syscallHandle m table code hart epc k).1 = none ∧
      (syscallHandle m table code hart epc k).2.scratch = update k.scratch xregA0 (-einval)
  returns : (syscallHandle m table code hart epc k).1 = none →
    (syscallHandle m table code hart epc k).2.harts.sepc hart = epc + 4
  resumes : ∀ handler, (syscallHandle m table code hart epc k).1 = some (code handler) →
    Resumes hart (k.harts.sched.current hart) epc
      (handle hart time c (syscallHandle m table code hart epc k).2 handler)

section Saved

variable {hart : Nat} {caller epc : Word} {s t : Harts} {event : HartEvent}

/-- Until the next trap of the hart: `sepc` is as it was, and the scheduler
works on the caller up to where it saves it. -/
structure OnCaller (hart : Nat) (caller epc : Word) (s : Harts) : Prop where
  sepc : s.sepc hart = epc
  check : s.place hart = .check → s.sched.current hart = caller
  holds : ∀ p, s.place hart = .charge p ∨ s.place hart = .adding p ∨ s.place hart = .saving p →
    p = caller

/-- A step of another hart, which sets neither `sepc` nor `p_current` of this
one. -/
theorem OnCaller.frame (h : OnCaller hart caller epc s) (hSepc : t.sepc hart = s.sepc hart)
    (hPlace : t.place hart = s.place hart) (hCurrent : t.sched.current hart = s.sched.current hart) :
    OnCaller hart caller epc t :=
  ⟨hSepc.trans h.sepc, fun hCheck => hCurrent.trans (h.check (hPlace ▸ hCheck)),
    fun p hHolds => h.holds p (by rwa [hPlace] at hHolds)⟩

/-- The hart itself moves on to a place where it holds the caller or nothing. -/
theorem OnCaller.move (h : OnCaller hart caller epc s) {place : HartPlace}
    (hSepc : t.sepc hart = s.sepc hart) (hPlace : t.place hart = place) (hCheck : place ≠ .check)
    (hHolds : ∀ p, place = .charge p ∨ place = .adding p ∨ place = .saving p → p = caller) :
    OnCaller hart caller epc t :=
  ⟨hSepc.trans h.sepc, fun hAgain => absurd (hPlace ▸ hAgain) hCheck,
    fun p hSome => hHolds p (by rwa [hPlace] at hSome)⟩

theorem checkNext_cases (hart : Nat) (s : Harts) : checkNext hart s = .finding ∨
    checkNext hart s = .charge (s.sched.current hart) ∨
    checkNext hart s = .saving (s.sched.current hart) := by
  unfold checkNext
  dsimp only
  split
  · exact .inl rfl
  · split
    · exact .inr (.inl rfl)
    · exact .inr (.inr rfl)

theorem OnCaller.step (h : OnCaller hart caller epc s) (hStep : HartStep s event t)
    (hNoTrap : trapOf event ≠ some hart) : OnCaller hart caller epc t := by
  have hOther {hart' : Nat} (hNe : hart' ≠ hart) : hart ≠ hart' := Ne.symm hNe
  cases hStep with
  | @resched hart' epc' hPlace =>
      have hNe : hart ≠ hart' := fun hSame => hNoTrap (by rw [hSame]; rfl)
      exact h.frame (update_of_ne hNe ..) (update_of_ne hNe ..) rfl
  | @exit hart' epc' hPlace =>
      have hNe : hart ≠ hart' := fun hSame => hNoTrap (by rw [hSame]; rfl)
      have hQueue := syscallExit_sameQueue hart' s
      refine h.frame ?_ ?_ (congrFun hQueue.current hart)
      · exact (update_of_ne hNe ..).trans (by unfold syscallExit; dsimp only; split <;> rfl)
      · exact (update_of_ne hNe ..).trans (congrFun hQueue.place hart)
  | @sleep hart' epc' a0 time hPlace =>
      have hNe : hart ≠ hart' := fun hSame => hNoTrap (by rw [hSame]; rfl)
      have hQueue := syscallSleep_sameQueue hart' a0 time s
      refine h.frame ?_ ?_ (congrFun hQueue.current hart)
      · exact (update_of_ne hNe ..).trans (by unfold syscallSleep; dsimp only; split <;> rfl)
      · exact (update_of_ne hNe ..).trans (congrFun hQueue.place hart)
  | @check hart' hPlace =>
      by_cases hSame : hart = hart'
      · subst hSame
        have hCurrent := h.check hPlace
        rcases checkNext_cases hart s with hNext | hNext | hNext
        · exact h.move rfl ((update_self ..).trans hNext) (by simp) (by simp)
        · exact h.move rfl ((update_self ..).trans hNext) (by simp) (by simp [hCurrent])
        · exact h.move rfl ((update_self ..).trans hNext) (by simp) (by simp [hCurrent])
      · exact h.frame rfl (update_of_ne hSame ..) rfl
  | @charge hart' time p hPlace =>
      by_cases hSame : hart = hart'
      · subst hSame
        refine h.move rfl (update_self ..) (by simp) fun q hSome => ?_
        obtain rfl : p = q := by simpa using hSome
        exact h.holds p (.inl hPlace)
      · exact h.frame rfl (update_of_ne hSame ..) rfl
  | @add hart' page p t' hPlace hCall =>
      have hCurrent := congrFun (scheduleAdd_current hCall) hart
      by_cases hSame : hart = hart'
      · subst hSame
        refine h.move rfl (update_self ..) (by simp) fun q hSome => ?_
        obtain rfl : p = q := by simpa using hSome
        exact h.holds p (.inr (.inl hPlace))
      · exact h.frame rfl (update_of_ne hSame ..) hCurrent
  | @save hart' p hPlace =>
      by_cases hSame : hart = hart'
      · subst hSame
        exact h.move rfl (update_self ..) (by simp) (by simp)
      · exact h.frame rfl (update_of_ne hSame ..) rfl
  | @leave hart' p hPlace =>
      by_cases hSame : hart = hart'
      · subst hSame
        exact h.move rfl (update_self ..) (by simp) (by simp)
      · exact h.frame rfl (update_of_ne hSame ..) rfl
  | @find hart' time n t' hPlace hCall =>
      by_cases hSame : hart = hart'
      · subst hSame
        exact h.move rfl (update_self ..) (by simp) (by simp)
      · refine h.frame rfl (update_of_ne hSame ..) ?_
        rcases scheduleFindNext_cases hCall with ⟨-, rfl⟩ | ⟨-, -, tree, freed, -, rfl⟩
        · rfl
        · exact update_of_ne hSame ..
  | @spawn hart' n hPlace hSome =>
      by_cases hSame : hart = hart'
      · subst hSame
        exact h.move rfl (update_self ..) (by simp) (by simp)
      · exact h.frame rfl (update_of_ne hSame ..) (update_of_ne hSame ..)

/-- A hart that enters the scheduler saves its caller at `sepc`. -/
theorem resumes_of_check {k : Trap} (hSepc : k.harts.sepc hart = epc + 4)
    (hPlace : k.harts.place hart = .check) (hCurrent : k.harts.sched.current hart = caller) :
    Resumes hart caller epc (.schedules k) := by
  intro events t u p run hNoTrap hSaving hSave
  have hStart : OnCaller hart caller (epc + 4) k.harts :=
    ⟨hSepc, fun _ => hCurrent, by simp [hPlace]⟩
  have hKept : OnCaller hart caller (epc + 4) t := by
    clear hSaving hSave
    induction run with
    | nil => exact hStart
    | @snoc t u earlier event prior last ih =>
        have hBefore := ih fun e he => hNoTrap e (List.mem_append_left _ he)
        exact hBefore.step last (hNoTrap event (by simp))
  refine ⟨hKept.holds p (.inr (.inr hSaving)), ?_⟩
  cases hSave with
  | @save _ q hPlace' =>
      obtain rfl : p = q := by simpa [hSaving] using hPlace'
      have hSaved : (update t.sched.procs p { t.sched.procs p with
          frame := { (t.sched.procs p).frame with sepc := t.sepc hart } } p).frame.sepc =
          t.sepc hart := by rw [update_self]
      exact hSaved.trans hKept.sepc

end Saved

section Dispatch

variable {m : Memory} {table : Word} {code : Handler → Word} {hart : Nat} {epc time : Word}
  {c : Byte} {k : Trap}

/-- Every handler goes on behind the `ecall`. -/
theorem handle_resumes (hSepc : k.harts.sepc hart = epc + 4) (handler : Handler) :
    Resumes hart (k.harts.sched.current hart) epc (handle hart time c k handler) := by
  cases handler with
  | putchar | getchar => exact hSepc
  | yield => exact resumes_of_check hSepc (update_self ..) rfl
  | exit =>
      refine resumes_of_check ?_ (update_self ..)
        (congrFun (syscallExit_sameQueue hart k.harts).current hart)
      exact Eq.trans (by unfold syscallExit; dsimp only; split <;> rfl) hSepc
  | sleep =>
      refine resumes_of_check ?_ (update_self ..)
        (congrFun (syscallSleep_sameQueue hart (k.scratch xregA0) time k.harts).current hart)
      exact Eq.trans (by unfold syscallSleep; dsimp only; split <;> rfl) hSepc

theorem syscallHandle_sepc : (syscallHandle m table code hart epc k).2.harts.sepc hart = epc + 4 ∧
    (syscallHandle m table code hart epc k).2.harts.sched = k.harts.sched := by
  unfold syscallHandle
  dsimp only
  split
  · exact ⟨update_self .., rfl⟩
  · exact ⟨update_self .., rfl⟩

/-- With the top bit set a function is called, at the address that memory holds
in front of the table. -/
theorem syscallHandle_negative (h : (k.scratch xregA7).toInt < 0) :
    (syscallHandle m table code hart epc k).1 =
      some (m.load64 (table + 8 * k.scratch xregA7)) := by
  have hBeyond : syscalls.length ≤ (k.scratch xregA7).toNat := by
    rw [BitVec.toInt_eq_toNat_cond] at h
    have hLength : syscalls.length = 5 := rfl
    split at h
    · omega
    · omega
  rw [syscallHandle, if_neg (by unfold numSyscalls; dsimp only; omega)]
  simp only [syscallsAt, List.getElem?_eq_none hBeyond]

/-- A handler that does not return is a step of the scheduler's harts. -/
theorem handle_schedules {handler : Handler} {k' : Trap} (hPlace : k.harts.place hart = .running)
    (hOutcome : handle hart time c (syscallHandle m table code hart epc k).2 handler =
      .schedules k') :
    ∃ event, trapOf event = some hart ∧ HartStep k.harts event k'.harts := by
  have hHarts : (syscallHandle m table code hart epc k).2.harts =
      { k.harts with sepc := update k.harts.sepc hart (epc + 4) } := by
    unfold syscallHandle
    dsimp only
    split
    · rfl
    · rfl
  cases handler with
  | putchar | getchar => cases hOutcome
  | yield =>
      cases hOutcome
      refine ⟨.resched hart (epc + 4), rfl, ?_⟩
      rw [hHarts]
      exact .resched hPlace
  | exit =>
      cases hOutcome
      refine ⟨.exit hart (epc + 4), rfl, ?_⟩
      have hEnter : (syscallExit hart (syscallHandle m table code hart epc k).2.harts).setPlace hart
          .check = enter hart (epc + 4) (syscallExit hart k.harts) := by
        rw [hHarts]
        unfold syscallExit
        dsimp only
        split
        · rfl
        · rfl
      dsimp only
      rw [hEnter]
      exact .exit hPlace
  | sleep =>
      cases hOutcome
      refine ⟨.sleep hart (epc + 4)
        ((syscallHandle m table code hart epc k).2.scratch xregA0) time, rfl, ?_⟩
      have hEnter (a0 : Word) :
          (syscallSleep hart a0 time (syscallHandle m table code hart epc k).2.harts).setPlace hart
            .check = enter hart (epc + 4) (syscallSleep hart a0 time k.harts) := by
        rw [hHarts]
        unfold syscallSleep
        dsimp only
        split
        · rfl
        · rfl
      dsimp only
      rw [hEnter]
      exact .sleep hPlace

/-- The dispatcher meets its contract for the values that are not negative: the
comparison with `NUM_SYSCALLS` lets every negative one through. -/
theorem handles_iff : Handles m table code hart epc time c k ↔ 0 ≤ (k.scratch xregA7).toInt := by
  constructor
  · intro h
    by_contra hNegative
    have hCalled := @syscallHandle_negative m table code hart epc k (not_le.mp hNegative)
    rw [(h.invalid fun hRange => hNegative hRange.1).1] at hCalled
    cases hCalled
  · intro hNonneg
    refine ⟨?_, ?_, fun _ => syscallHandle_sepc.1, fun handler _ => ?_⟩
    · rintro ⟨-, hLess⟩
      have hIndex : (k.scratch xregA7).toNat < syscalls.length := by
        rw [BitVec.toInt_eq_toNat_cond] at hNonneg hLess
        unfold numSyscalls at hLess
        split at hLess
        · omega
        · have hLt := (k.scratch xregA7).isLt
          omega
      have hEntry := List.getElem?_eq_getElem hIndex
      refine ⟨_, hEntry, ?_⟩
      rw [syscallHandle, if_neg (not_le.mpr hLess)]
      simp only [syscallsAt, hEntry]
    · intro hOutside
      have hGe : (k.scratch xregA7).toInt ≥ numSyscalls := by
        by_contra hLess
        exact hOutside ⟨hNonneg, not_le.mp hLess⟩
      rw [syscallHandle, if_pos hGe]
      exact ⟨rfl, rfl⟩
    · have hSched := @syscallHandle_sepc m table code hart epc k
      have hResumes := @handle_resumes hart epc time c _ hSched.1 handler
      rwa [hSched.2] at hResumes

end Dispatch

/-- The process on hart 0 asks for call -1. -/
def callMinusOne : Trap where
  scratch := update (fun _ => 0) xregA7 (-1)
  harts := exampleHarts
  output := []

/-- The eight bytes in front of the table are taken for the address of a
function. -/
theorem not_handles :
    (syscallHandle (Memory.store64 (fun _ => 0) 0x80054ff8 0x80041414) 0x80055000 (fun _ => 0x80050000)
      0 0x400100 callMinusOne).1 = some 0x80041414 ∧
    ¬ Handles (Memory.store64 (fun _ => 0) 0x80054ff8 0x80041414) 0x80055000 (fun _ => 0x80050000)
      0 0x400100 0 0 callMinusOne := by
  have hNegative : (callMinusOne.scratch xregA7).toInt < 0 := by decide
  have hCalled := @syscallHandle_negative (Memory.store64 (fun _ => 0) 0x80054ff8 0x80041414) 0x80055000
    (fun _ => 0x80050000) 0 0x400100 callMinusOne hNegative
  have hPointer : (Memory.store64 (fun _ => 0) 0x80054ff8 0x80041414).load64
      (0x80055000 + 8 * callMinusOne.scratch xregA7) = 0x80041414 := by decide +kernel
  rw [hPointer] at hCalled
  refine ⟨hCalled, fun h => ?_⟩
  have hNone := (h.invalid fun hRange => absurd hNegative (not_lt.mpr hRange.1)).1
  rw [hCalled] at hNone
  cases hNone

end Kernel.Syscall
