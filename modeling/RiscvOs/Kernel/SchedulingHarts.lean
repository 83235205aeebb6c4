import RiscvOs.Kernel.SchedulingQueue

/-! `schedule_hart_spawn` on any number of harts, from the traps that lead to
it to `p_spawn_on_hart`. A critical section of `scheduling_mutex` is one step,
and so is each statement outside. -/
namespace Kernel.Scheduling

open Semantics SortedMap Function Rbtree RBNode

/-- What a hart does next, with the variables `p` and `n` that it holds. -/
inductive HartPlace where
  | running
  | check
  | charge (p : Word)
  | adding (p : Word)
  | saving (p : Word)
  | leaving (p : Word)
  | finding
  | spawning (n : Word)

/-- The last three fields record the run: the process that a hart has run
without saving `sepc`, the processes that exited, and until when the others
sleep. -/
structure Harts where
  sched : Sched
  idle : Nat → Word
  trapStacks : Nat → Word
  place : Nat → HartPlace
  sepc : Nat → Word
  unsaved : Nat → Option Word
  dead : Set Word
  wake : Word → Option Word

/-- `VIRT_TIMER_FREQ`, from the headers of the SBI -/
def virtTimerFreq : Word := 100000

def Harts.setProc (p : Word) (process : Process) (s : Harts) : Harts :=
  { s with sched := { s.sched with procs := update s.sched.procs p process } }

def Harts.setPlace (hart : Nat) (place : HartPlace) (s : Harts) : Harts :=
  { s with place := update s.place hart place }

/-- A hart enters `schedule_hart_spawn`; `epc` is what `sepc` holds. -/
def enter (hart : Nat) (epc : Word) (s : Harts) : Harts :=
  { s with
    sepc := update s.sepc hart epc
    place := update s.place hart .check }

/-- `syscall_exit` up to its call of `schedule_hart_spawn`. -/
def syscallExit (hart : Nat) (s : Harts) : Harts :=
  let p := s.sched.current hart
  if p = 0 then s
  else { s.setProc p { s.sched.procs p with state := .dead } with dead := insert p s.dead }

/-- `syscall_sleep` up to its call of `schedule_hart_spawn`. -/
def syscallSleep (hart : Nat) (a0 time : Word) (s : Harts) : Harts :=
  let current := s.sched.current hart
  if current = 0 then s
  else
    let sleepUntil := a0 * virtTimerFreq + time
    { s.setProc current { s.sched.procs current with sleepUntil, state := .sleeping } with
      wake := update s.wake current (some sleepUntil) }

/-- The tests of `schedule_hart_check`. -/
def checkNext (hart : Nat) (s : Harts) : HartPlace :=
  let p := s.sched.current hart
  if p = 0 then .finding
  else if p ≠ s.idle hart then .charge p
  else .saving p

/-- `p->v_runtime += sbi_get_time() - p->start_time` -/
def chargeTime (p time : Word) (s : Harts) : Harts :=
  let process := s.sched.procs p
  s.setProc p { process with vRuntime := process.vRuntime + (time - process.startTime) }

/-- `CSR_READ(p->frame.sepc, "sepc")` -/
def saveSepc (hart : Nat) (p : Word) (s : Harts) : Harts :=
  let process := s.sched.procs p
  { s.setProc p { process with frame := { process.frame with sepc := s.sepc hart } } with
    unsaved := update s.unsaved hart none }

/-- `p->hart_num = -1` -/
def leaveHart (p : Word) (s : Harts) : Harts :=
  s.setProc p { s.sched.procs p with hartNum := -1 }

/-- `if (n == NULL) n = main_idle_processes[hart]` -/
def chooseNext (hart : Nat) (n : Word) (s : Harts) : Word :=
  if n = 0 then s.idle hart else n

/-- `p_spawn_on_hart` on its own hart, until the process runs. -/
def pSpawnOnHart (hart : Nat) (p : Word) (s : Harts) : Harts :=
  let process := s.sched.procs p
  let frame := { process.frame with trapStack := s.trapStacks hart }
  { s with
    sched := { s.sched with
      procs := update s.sched.procs p { process with hartNum := hart, frame }
      current := update s.sched.current hart p }
    place := update s.place hart .running
    unsaved := update s.unsaved hart (some p) }

inductive HartEvent where
  | resched (hart : Nat) (epc : Word)
  | exit (hart : Nat) (epc : Word)
  | sleep (hart : Nat) (epc a0 time : Word)
  | check (hart : Nat)
  | charge (hart : Nat) (time : Word)
  | add (hart : Nat) (page : Word)
  | save (hart : Nat)
  | leave (hart : Nat)
  | find (hart : Nat) (time : Word)
  | spawn (hart : Nat)

/-- The first three are a timer interrupt or `syscall_yield`, `syscall_exit`
and `syscall_sleep`. -/
inductive HartStep : Harts → HartEvent → Harts → Prop where
  | resched {s : Harts} {hart : Nat} {epc : Word} (hPlace : s.place hart = .running) :
      HartStep s (.resched hart epc) (enter hart epc s)
  | exit {s : Harts} {hart : Nat} {epc : Word} (hPlace : s.place hart = .running) :
      HartStep s (.exit hart epc) (enter hart epc (syscallExit hart s))
  | sleep {s : Harts} {hart : Nat} {epc a0 time : Word} (hPlace : s.place hart = .running) :
      HartStep s (.sleep hart epc a0 time) (enter hart epc (syscallSleep hart a0 time s))
  | check {s : Harts} {hart : Nat} (hPlace : s.place hart = .check) :
      HartStep s (.check hart) (s.setPlace hart (checkNext hart s))
  | charge {s : Harts} {hart : Nat} {time p : Word} (hPlace : s.place hart = .charge p) :
      HartStep s (.charge hart time) ((chargeTime p time s).setPlace hart (.adding p))
  | add {s : Harts} {hart : Nat} {page p : Word} {t : Sched} (hPlace : s.place hart = .adding p)
      (call : scheduleAdd page p s.sched = some t) :
      HartStep s (.add hart page) ({ s with sched := t }.setPlace hart (.saving p))
  | save {s : Harts} {hart : Nat} {p : Word} (hPlace : s.place hart = .saving p) :
      HartStep s (.save hart) ((saveSepc hart p s).setPlace hart (.leaving p))
  | leave {s : Harts} {hart : Nat} {p : Word} (hPlace : s.place hart = .leaving p) :
      HartStep s (.leave hart) ((leaveHart p s).setPlace hart .finding)
  | find {s : Harts} {hart : Nat} {time n : Word} {t : Sched} (hPlace : s.place hart = .finding)
      (call : scheduleFindNext hart time s.sched = some (n, t)) :
      HartStep s (.find hart time) ({ s with sched := t }.setPlace hart (.spawning n))
  | spawn {s : Harts} {hart : Nat} {n : Word} (hPlace : s.place hart = .spawning n)
      (hSome : chooseNext hart n s ≠ 0) :
      HartStep s (.spawn hart) (pSpawnOnHart hart (chooseNext hart n s) s)

/-- A process is not the idle process of a hart. -/
def NotIdle (idle : Nat → Word) (p : Word) : Prop :=
  ∀ hart, p ≠ idle hart

/-- Before the first trap: the queue holds processes that no hart runs, each
at its own run time, and no two harts run the same process. -/
structure Booted (s : Harts) : Prop where
  ordered : Ordered s.sched.tree.root.entries
  entry : ∀ key p, s.sched.lookup key = some p → p ≠ 0 →
    NotIdle s.idle p ∧ key = (s.sched.procs p).vRuntime ∧ ∀ hart, s.sched.current hart ≠ p
  current : ∀ hart, s.sched.current hart = 0 ∨ s.sched.current hart = s.idle hart ∨
    NotIdle s.idle (s.sched.current hart)
  alone : ∀ hart hart', s.sched.current hart ≠ 0 → NotIdle s.idle (s.sched.current hart) →
    s.sched.current hart' = s.sched.current hart → hart' = hart
  place : ∀ hart, s.place hart = .running
  unsaved : ∀ hart p, s.unsaved hart = some p → s.sched.current hart = p
  dead : s.dead = ∅
  wake : ∀ p, s.wake p = none

/-- What the variables of a hart that runs `cur` hold. -/
def HartPlace.Holds (idle : Nat → Word) (cur : Word) : HartPlace → Prop
  | charge p | adding p => p = cur ∧ p ≠ 0 ∧ NotIdle idle p
  | saving p | leaving p => p = cur
  | spawning n => n ≠ 0 → n = cur
  | _ => True

/-- No idle process is in the queue or on the hart of another one. -/
structure Settled (s : Harts) : Prop where
  entry : ∀ e ∈ s.sched.tree.root.entries, e.2 = 0 ∨ NotIdle s.idle e.2
  current : ∀ hart, s.sched.current hart = 0 ∨ s.sched.current hart = s.idle hart ∨
    NotIdle s.idle (s.sched.current hart)
  holds : ∀ hart, (s.place hart).Holds s.idle (s.sched.current hart)

/-- The queue, its keys and the harts are the same. -/
structure SameQueue (s t : Harts) : Prop where
  idle : t.idle = s.idle
  tree : t.sched.tree = s.sched.tree
  current : t.sched.current = s.sched.current
  vRuntime : ∀ p, (t.sched.procs p).vRuntime = (s.sched.procs p).vRuntime
  place : t.place = s.place
  unsaved : t.unsaved = s.unsaved

section Facts

variable {s t : Harts} {event : HartEvent} {events : List HartEvent} {hart : Nat} {p : Word}

theorem syscallExit_sameQueue (hart : Nat) (s : Harts) : SameQueue s (syscallExit hart s) := by
  unfold syscallExit
  dsimp only
  split
  · exact ⟨rfl, rfl, rfl, fun _ => rfl, rfl, rfl⟩
  · exact ⟨rfl, rfl, rfl, update_vRuntime (by rfl), rfl, rfl⟩

theorem syscallSleep_sameQueue (hart : Nat) (a0 time : Word) (s : Harts) :
    SameQueue s (syscallSleep hart a0 time s) := by
  unfold syscallSleep
  dsimp only
  split
  · exact ⟨rfl, rfl, rfl, fun _ => rfl, rfl, rfl⟩
  · exact ⟨rfl, rfl, rfl, update_vRuntime (by rfl), rfl, rfl⟩

/-- What `schedule_add` puts in the queue. -/
theorem mem_of_scheduleAdd {a b : Sched} {page : Word} {e : Word × Word}
    (h : scheduleAdd page p a = some b) (he : e ∈ b.tree.root.entries) :
    e ∈ a.tree.root.entries ∨ e.2 = p := by
  simp only [scheduleAdd, Option.bind_eq_bind, Option.bind_eq_some_iff] at h
  obtain ⟨tree, hInsert, hLast⟩ := h
  cases hLast
  exact mem_of_rbInsert hInsert he

theorem scheduleAdd_current {a b : Sched} {page : Word} (h : scheduleAdd page p a = some b) :
    b.current = a.current := by
  simp only [scheduleAdd, Option.bind_eq_bind, Option.bind_eq_some_iff] at h
  obtain ⟨tree, -, hLast⟩ := h
  cases hLast
  rfl

/-- `schedule_find_next` either answers `NULL` and changes nothing, or takes
the process that it finds. -/
theorem scheduleFindNext_cases {a b : Sched} {time n : Word}
    (h : scheduleFindNext hart time a = some (n, b)) :
    (n = 0 ∧ b = a) ∨
      (leftmostValue a = some n ∧ (a.procs n).state = .running ∧
        ∃ tree freed, rbDelete a.tree (a.procs n).vRuntime = some (tree, freed) ∧
          b = { tree
                procs := update a.procs n { a.procs n with startTime := time, hartNum := hart }
                current := update a.current hart n }) := by
  simp only [scheduleFindNext, takeNext, Option.bind_eq_bind, Option.bind_eq_some_iff] at h
  obtain ⟨p, hValue, h⟩ := h
  split at h
  next hState =>
    simp only [Option.bind_eq_some_iff] at h
    obtain ⟨⟨tree, freed⟩, hDelete, hLast⟩ := h
    cases hLast
    exact .inr ⟨hValue, hState, tree, freed, hDelete, rfl⟩
  next =>
    cases h
    exact .inl ⟨rfl, rfl⟩

/-- The process that `schedule_find_next` takes is in the tree. -/
theorem mem_of_leftmostValue {a : Sched} (h : leftmostValue a = some p) :
    p ≠ 0 ∧ ∃ key, (key, p) ∈ a.tree.root.entries := by
  obtain ⟨hSome, key, c, u, -, hNode, hMin⟩ := leftmostValue_eq_some.mp h
  rw [min_eq_head] at hMin
  exact ⟨hSome, key, mem_of_nodeAt hNode _ (List.mem_of_head? hMin)⟩

theorem Settled.notIdle (h : Settled s) (hValue : leftmostValue s.sched = some p) :
    NotIdle s.idle p := by
  obtain ⟨hSome, key, hMem⟩ := mem_of_leftmostValue hValue
  exact (h.entry _ hMem).resolve_left hSome

/-- A step changes the place of one hart and the process on it. -/
theorem Settled.move (h : Settled s) {place : HartPlace} (hIdle : t.idle = s.idle)
    (hEntry : ∀ e ∈ t.sched.tree.root.entries, e.2 = 0 ∨ NotIdle s.idle e.2)
    (hPlace : t.place = update s.place hart place)
    (hCurrent : t.sched.current = update s.sched.current hart p)
    (hp : p = 0 ∨ p = s.idle hart ∨ NotIdle s.idle p) (hHolds : place.Holds s.idle p) :
    Settled t := by
  refine ⟨by rwa [hIdle], ?_, ?_⟩
  · intro hart'
    rw [hIdle, hCurrent]
    by_cases hSame : hart' = hart
    · subst hSame
      rwa [update_self]
    · rw [update_of_ne hSame]
      exact h.current hart'
  · intro hart'
    rw [hIdle, hCurrent, hPlace]
    by_cases hSame : hart' = hart
    · subst hSame
      rwa [update_self, update_self]
    · rw [update_of_ne hSame, update_of_ne hSame]
      exact h.holds hart'

/-- A step that keeps the queue and the process on each hart. -/
theorem Settled.stay (h : Settled s) {place : HartPlace} (hIdle : t.idle = s.idle)
    (hTree : t.sched.tree = s.sched.tree) (hPlace : t.place = update s.place hart place)
    (hCurrent : t.sched.current = s.sched.current)
    (hHolds : place.Holds s.idle (s.sched.current hart)) : Settled t :=
  h.move hIdle (by rw [hTree]; exact h.entry) hPlace
    (by rw [hCurrent, update_eq_self]) (h.current hart) hHolds

/-- The variables after the tests of `schedule_hart_check`. -/
theorem Settled.checkNext_holds (h : Settled s) (hart : Nat) :
    (checkNext hart s).Holds s.idle (s.sched.current hart) := by
  unfold checkNext
  dsimp only
  split
  next => trivial
  next hSome =>
    split
    next hIdle => exact ⟨rfl, hSome, ((h.current hart).resolve_left hSome).resolve_left hIdle⟩
    next => exact rfl

theorem Settled.step (h : Settled s) (hStep : HartStep s event t) : Settled t := by
  cases hStep with
  | resched hPlace => exact h.stay rfl rfl rfl rfl trivial
  | @exit hart epc hPlace =>
      have hSame := syscallExit_sameQueue hart s
      have hNext : (enter hart epc (syscallExit hart s)).place = update s.place hart .check := by
        rw [enter, hSame.place]
      exact h.stay hSame.idle hSame.tree hNext hSame.current trivial
  | @sleep hart epc a0 time hPlace =>
      have hSame := syscallSleep_sameQueue hart a0 time s
      have hNext : (enter hart epc (syscallSleep hart a0 time s)).place = update s.place hart .check := by
        rw [enter, hSame.place]
      exact h.stay hSame.idle hSame.tree hNext hSame.current trivial
  | @check hart hPlace => exact h.stay rfl rfl rfl rfl (h.checkNext_holds hart)
  | @charge hart time p hPlace =>
      have hHolds := h.holds hart
      rw [hPlace] at hHolds
      exact h.stay rfl rfl rfl rfl hHolds
  | @add hart page p t hPlace call =>
      have hHolds := h.holds hart
      rw [hPlace] at hHolds
      have hCurrent : t.current = update s.sched.current hart (s.sched.current hart) := by
        rw [scheduleAdd_current call, update_eq_self]
      refine h.move rfl ?_ rfl hCurrent (h.current hart) hHolds.1
      · intro e he
        rcases mem_of_scheduleAdd call he with hOld | rfl
        · exact h.entry e hOld
        · exact .inr hHolds.2.2
  | @save hart p hPlace =>
      have hHolds := h.holds hart
      rw [hPlace] at hHolds
      exact h.stay rfl rfl rfl rfl hHolds
  | leave hPlace => exact h.stay rfl rfl rfl rfl trivial
  | @find hart time n t hPlace call =>
      rcases scheduleFindNext_cases call with ⟨rfl, rfl⟩ | ⟨hValue, -, tree, freed, hDelete, rfl⟩
      · exact h.stay rfl rfl rfl rfl fun hSome => absurd rfl hSome
      · refine h.move rfl ?_ rfl rfl (.inr (.inr (h.notIdle hValue))) fun _ => rfl
        intro e he
        exact h.entry e (mem_of_rbDelete hDelete he)
  | @spawn hart n hPlace hSome =>
      refine h.move rfl h.entry rfl rfl ?_ trivial
      have hHolds := h.holds hart
      rw [hPlace] at hHolds
      unfold chooseNext
      split
      next => exact .inr (.inl rfl)
      next hNext =>
        rw [hHolds hNext]
        exact h.current hart

theorem Booted.settled (h : Booted s) : Settled s := by
  refine ⟨?_, h.current, ?_⟩
  · rintro ⟨key, p⟩ he
    by_cases hNone : p = 0
    · exact .inl hNone
    · exact .inr (h.entry key p ((mem_iff_get h.ordered).mp he) hNone).1
  · intro hart
    rw [h.place hart]
    trivial

/-- Whatever exits and sleeps, no idle process gets into the queue. -/
theorem settled_of_run (hStart : Booted s) (run : Run HartStep s events t) : Settled t :=
  run.invariant Settled hStart.settled fun _ _ _ h last => h.step last

end Facts

/-- `schedule_find_next` hands out no process that exited, and none before the
end of its sleep. -/
def FindsAwake (s : Harts) : Prop :=
  ∀ hart time p t, scheduleFindNext hart time s.sched = some (p, t) → p ≠ 0 →
    p ∉ s.dead ∧ ∀ sleepUntil, s.wake p = some sleepUntil → sleepUntil ≤ time

/-- Only a hart with no process or with its idle process exits or sleeps. -/
def Idles (s : Harts) : HartEvent → Prop
  | .exit hart _ | .sleep hart _ _ _ =>
      s.sched.current hart = 0 ∨ s.sched.current hart = s.idle hart
  | _ => True

/-- The processes that exited or sleep are idle processes. -/
structure Resting (s : Harts) : Prop extends Settled s where
  dead : ∀ p ∈ s.dead, ¬ NotIdle s.idle p
  wake : ∀ p, NotIdle s.idle p → s.wake p = none

section Awake

variable {s t : Harts} {event : HartEvent} {events : List HartEvent}

theorem Resting.findsAwake (h : Resting s) : FindsAwake s := by
  intro hart time p t call hSome
  rcases scheduleFindNext_cases call with ⟨rfl, -⟩ | ⟨hValue, -⟩
  · exact absurd rfl hSome
  · have hNot := h.notIdle hValue
    refine ⟨fun hDead => h.dead p hDead hNot, ?_⟩
    intro sleepUntil hWake
    cases (h.wake p hNot).symm.trans hWake

theorem mem_of_syscallExit {hart : Nat} {p : Word} (h : p ∈ (syscallExit hart s).dead) :
    p ∈ s.dead ∨ s.sched.current hart ≠ 0 ∧ p = s.sched.current hart := by
  unfold syscallExit at h
  dsimp only at h
  split at h
  next => exact .inl h
  next hSome => exact (Set.mem_insert_iff.mp h).symm.imp_right fun hSame => ⟨hSome, hSame⟩

theorem syscallExit_wake (hart : Nat) (s : Harts) : (syscallExit hart s).wake = s.wake := by
  unfold syscallExit
  dsimp only
  split <;> rfl

theorem syscallSleep_dead (hart : Nat) (a0 time : Word) (s : Harts) :
    (syscallSleep hart a0 time s).dead = s.dead := by
  unfold syscallSleep
  dsimp only
  split <;> rfl

theorem syscallSleep_wake {hart : Nat} {p : Word} (a0 time : Word)
    (h : s.sched.current hart = 0 ∨ p ≠ s.sched.current hart) :
    (syscallSleep hart a0 time s).wake p = s.wake p := by
  unfold syscallSleep
  dsimp only
  split
  next => rfl
  next hSome => exact update_of_ne (h.resolve_left hSome) _ _

theorem Resting.step (h : Resting s) (last : Guarded HartStep Idles s event t) : Resting t := by
  obtain ⟨hIdles, hStep⟩ := last
  refine ⟨h.toSettled.step hStep, ?_, ?_⟩
  · cases hStep with
    | @exit hart epc hPlace =>
        intro p hp
        change ¬ NotIdle (syscallExit hart s).idle p
        rw [(syscallExit_sameQueue hart s).idle]
        rcases mem_of_syscallExit hp with hOld | ⟨hSome, rfl⟩
        · exact h.dead p hOld
        · exact fun hNot => hNot hart (hIdles.resolve_left hSome)
    | @sleep hart epc a0 time hPlace =>
        intro p hp
        change p ∈ (syscallSleep hart a0 time s).dead at hp
        change ¬ NotIdle (syscallSleep hart a0 time s).idle p
        rw [syscallSleep_dead] at hp
        rw [(syscallSleep_sameQueue hart a0 time s).idle]
        exact h.dead p hp
    | _ => exact h.dead
  · cases hStep with
    | @exit hart epc hPlace =>
        intro p hNot
        change NotIdle (syscallExit hart s).idle p at hNot
        change (syscallExit hart s).wake p = none
        rw [(syscallExit_sameQueue hart s).idle] at hNot
        rw [syscallExit_wake]
        exact h.wake p hNot
    | @sleep hart epc a0 time hPlace =>
        intro p hNot
        change NotIdle (syscallSleep hart a0 time s).idle p at hNot
        change (syscallSleep hart a0 time s).wake p = none
        rw [(syscallSleep_sameQueue hart a0 time s).idle] at hNot
        rw [syscallSleep_wake a0 time (hIdles.imp_right fun hSame => hSame ▸ hNot hart)]
        exact h.wake p hNot
    | _ => exact h.wake

/-- A process that exited or sleeps stays away where it is an idle process. -/
theorem findsAwake_of_idles (hStart : Booted s) (run : Run (Guarded HartStep Idles) s events t) :
    FindsAwake t := by
  have hResting : Resting s :=
    ⟨hStart.settled, by simp [hStart.dead], fun p _ => hStart.wake p⟩
  exact (run.invariant Resting hResting fun _ _ _ h last => h.step last).findsAwake

end Awake

/-- `scheduling_init(1)` and `schedule_add` for the process at `0x80071000`;
hart 0 runs the one at `0x80072000`, the others their idle process. -/
def exampleHarts : Harts where
  sched := {
    tree := ⟨node 0x80060000 0 0x80071000 .black null null⟩
    procs := fun _ => { Process.zero with state := .running }
    current := update (fun _ => 0x80070000) 0 0x80072000 }
  idle := fun _ => 0x80070000
  trapStacks := fun _ => 0
  place := fun _ => .running
  sepc := fun _ => 0
  unsaved := fun hart => some (if hart = 0 then 0x80072000 else 0x80070000)
  dead := ∅
  wake := fun _ => none

theorem current_exampleHarts (hart : Nat) :
    exampleHarts.sched.current hart = if hart = 0 then 0x80072000 else 0x80070000 :=
  update_apply (fun _ => (0x80070000 : Word)) 0 0x80072000 hart

theorem notIdle_exampleHarts {p : Word} (h : p ≠ 0x80070000) : NotIdle exampleHarts.idle p :=
  fun _ => h

theorem booted_exampleHarts : Booted exampleHarts := by
  refine ⟨List.pairwise_singleton _ _, ?_, ?_, ?_, fun _ => rfl, ?_, rfl, fun _ => rfl⟩
  · intro key p hEntry hSome
    change get [(0, 0x80071000)] key = some p at hEntry
    rw [get_cons] at hEntry
    split at hEntry
    next hKey =>
      cases hEntry
      refine ⟨notIdle_exampleHarts (by decide), hKey.symm, ?_⟩
      intro hart
      rw [current_exampleHarts]
      split <;> decide
    next => cases hEntry
  · intro hart
    rw [current_exampleHarts]
    split
    next => exact .inr (.inr (notIdle_exampleHarts (by decide)))
    next => exact .inr (.inl rfl)
  · intro hart hart' hSome hNot hSame
    rw [current_exampleHarts] at hNot hSame
    split at hNot
    next hZero =>
      rw [current_exampleHarts, if_pos hZero] at hSame
      split at hSame
      next hZero' => exact hZero'.trans hZero.symm
      next => cases hSame
    next => exact absurd rfl (hNot hart)
  · intro hart p hUnsaved
    cases hUnsaved
    exact current_exampleHarts hart

/-- The process at `0x80072000` makes way for the other one, which exits, and
is handed out again. -/
theorem not_findsAwake : ∃ u, Booted exampleHarts ∧ Run HartStep exampleHarts
    [.resched 0 0, .check 0, .charge 0 0x80061000, .add 0 0x80061000, .save 0, .leave 0,
      .find 0 0x80061001, .spawn 0, .exit 0 0, .check 0, .charge 0 0x80061005, .add 0 0x80062000,
      .save 0, .leave 0] u ∧ ¬ FindsAwake u := by
  refine ⟨_, booted_exampleHarts, .snoc (.snoc (.snoc (.snoc (.snoc (.snoc (.snoc (.snoc (.snoc
    (.snoc (.snoc (.snoc (.snoc (.snoc (.nil _) (.resched rfl)) (.check rfl)) (.charge rfl))
    (.add rfl rfl)) (.save rfl)) (.leave rfl)) (.find rfl rfl)) (.spawn rfl (by decide)))
    (.exit rfl)) (.check rfl)) (.charge rfl)) (.add rfl rfl)) (.save rfl)) (.leave rfl), ?_⟩
  intro hAwake
  exact (hAwake 0 0x80061006 0x80071000 _ rfl (by decide)).1 (.inl rfl)

/-- The idle process of hart 1 exits, and is not handed out. -/
theorem findsAwake_of_idles_one : ∃ u, u.dead = {0x80070000} ∧ FindsAwake u := by
  have hIdles : Idles exampleHarts (.exit 1 0) := .inr rfl
  have run : Run (Guarded HartStep Idles) exampleHarts [.exit 1 0]
      (enter 1 0 (syscallExit 1 exampleHarts)) := .snoc (.nil _) ⟨hIdles, .exit rfl⟩
  exact ⟨_, LawfulSingleton.insert_empty_eq _, findsAwake_of_idles booted_exampleHarts run⟩

end Kernel.Scheduling
