import RiscvOs.Kernel.Isolation
import RiscvOs.Kernel.UaccessRuns
import RiscvOs.Sbi.HartRuns

/-! `p_spawn_on_hart` for any hart, with what the hart table says when it asks
for the status and when it asks for the start: other harts act in between. -/
namespace Kernel.Spawn

open Semantics Function Mmu Sbi

/-- The process, `p_current`, and the words `mtimecmp` of the CLINT. -/
structure SpawnState where
  process : Process
  current : Hart → Word
  mtimecmp : Hart → Word

/-- The entry of the tables that an `int` stands for. -/
def hartIndex (hart : BitVec 32) : Option Hart :=
  if h : hart.toNat < 8 then some ⟨hart.toNat, h⟩ else none

/-- `hart_get_status` -/
def hartGetStatus (s : System) (hart : BitVec 32) : HartStatus :=
  match hartIndex hart with
  | none => .invalid
  | some hart => (s.data hart).status

/-- `P_DEFAULT_CTXTMR` -/
def pDefaultCtxtmr : Nat := 10000

/-- `clint_add_mtimecmp` at the given time. -/
def addMtimecmp (target : Hart) (time val : Word) (s : SpawnState) : SpawnState :=
  { s with mtimecmp := update s.mtimecmp target (time + val) }

/-- The updates behind the first check. -/
def place (trapStacks : Hart → Word) (p : Word) (target : Hart) (time : Word) (s : SpawnState) :
    SpawnState :=
  addMtimecmp target time (BitVec.ofNat 64 (s.process.quantum.toNat * pDefaultCtxtmr)) { s with
    process := { s.process with
      hartNum := (target : Nat)
      frame := { s.process.frame with trapStack := trapStacks target } }
    current := update s.current target p }

/-- `p_spawn_on_hart` of the process at the address `p`, by the hart `whoami`;
`check` and `start` are the hart table at `sbi_hart_get_status` and at
`sbi_hart_start`. A result `none` is a call that enters the process and does
not return. -/
def pSpawnOnHart (g : Globals) (m : Memory) (trapStacks : Hart → Word) (whoami : Hart) (p : Word)
    (hart : BitVec 32) (time : Word) (contended : Bool) (check start : System) (s : SpawnState) :
    Option Bool × SpawnState × System :=
  if hart ≠ BitVec.ofNat 32 whoami ∧ hartGetStatus check hart ≠ .stopped then (some false, s, check)
  else match hartIndex hart with
  -- The own hart and a stopped one have an entry.
  | none => (some false, s, check)
  | some target =>
      let s := place trapStacks p target time s
      if whoami = target then (none, s, check)
      else
        let phys := mmuTranslate m s.process.ptable s.process.frame.sscratch
        if phys = -1 then (some false, s, start)
        else
          let (ok, table) := hartStart target g.spawnThreadStart phys contended start
          (some ok, s, table)

/-- A call that returns `false` leaves `p_current[hart]`, `p->hart_num` and the
timer of the hart as they were. -/
def FailureUnchanged (hart : BitVec 32) (s : SpawnState) (result : Option Bool) (t : SpawnState) :
    Prop :=
  result = some false → t.process.hartNum = s.process.hartNum ∧
    ∀ target, hartIndex hart = some target →
      t.current target = s.current target ∧ t.mtimecmp target = s.mtimecmp target

/-- The values that the call writes are there before it. -/
def Placed (p : Word) (target : Hart) (time : Word) (s : SpawnState) : Prop :=
  s.process.hartNum = (target : Nat) ∧ s.current target = p ∧
    s.mtimecmp target = time + BitVec.ofNat 64 (s.process.quantum.toNat * pDefaultCtxtmr)

/-- The frame is mapped in the table of the process, and the hart is still
stopped, with its lock free. -/
def CanStart (m : Memory) (target : Hart) (contended : Bool) (start : System) (s : SpawnState) :
    Prop :=
  mmuTranslate m s.process.ptable s.process.frame.sscratch ≠ -1 ∧
    start.locked target = false ∧ contended = false ∧ (start.data target).status = .stopped

section Call

variable {g : Globals} {m : Memory} {trapStacks : Hart → Word} {whoami target : Hart}
  {p time : Word} {hart : BitVec 32} {contended : Bool} {check start : System}
  {s t : SpawnState}

theorem hartIndex_ofNat (h : Hart) : hartIndex (BitVec.ofNat 32 h) = some h := by
  have hValue : (BitVec.ofNat 32 (h : Nat)).toNat = h := by
    rw [BitVec.toNat_ofNat]
    omega
  simp only [hartIndex, hValue, h.isLt, ↓reduceDIte]

theorem eq_of_hartIndex (h : hartIndex hart = some target) : hart = BitVec.ofNat 32 target := by
  unfold hartIndex at h
  split at h
  · cases h
    rw [BitVec.ofNat_toNat, BitVec.setWidth_eq]
  · cases h

theorem hartStart_fst {target' scratch : Word} : (hartStart target target' scratch contended start).1 =
    true ↔ start.locked target = false ∧ contended = false ∧
      (start.data target).status = .stopped := by
  unfold hartStart mutexTrylock
  cases hLock : start.locked target with
  | true => simp
  | false =>
      cases contended with
      | true => simp
      | false =>
          by_cases hStatus : (start.data target).status = .stopped
          · simp [mutexLock, hStatus]
          · simp [mutexLock, hStatus]

/-- A hart without an entry, and one that is not stopped, is refused before
anything is written. -/
theorem pSpawnOnHart_refused (h : ∀ target, hartIndex hart = some target →
      target ≠ whoami ∧ (check.data target).status ≠ .stopped) :
    pSpawnOnHart g m trapStacks whoami p hart time contended check start s =
      (some false, s, check) := by
  have hOther : hart ≠ BitVec.ofNat 32 whoami := by
    rintro rfl
    exact (h whoami (hartIndex_ofNat whoami)).1 rfl
  have hStatus : hartGetStatus check hart ≠ .stopped := by
    unfold hartGetStatus
    split
    · simp
    next target hTarget => exact (h target hTarget).2
  exact if_pos ⟨hOther, hStatus⟩

theorem pSpawnOnHart_self : (pSpawnOnHart g m trapStacks whoami p (BitVec.ofNat 32 whoami) time
    contended check start s).1 = none := by
  simp [pSpawnOnHart, hartIndex_ofNat]

/-- A hart that the check finds stopped is written, whatever follows. -/
theorem pSpawnOnHart_stopped (hOther : target ≠ whoami)
    (hStatus : (check.data target).status = .stopped) :
    (pSpawnOnHart g m trapStacks whoami p (BitVec.ofNat 32 target) time contended check start s).2.1 =
        place trapStacks p target time s ∧
      ((pSpawnOnHart g m trapStacks whoami p (BitVec.ofNat 32 target) time contended check start
        s).1 = some false ↔ ¬ CanStart m target contended start s) := by
  have hStopped : hartGetStatus check (BitVec.ofNat 32 target) = .stopped := by
    rw [hartGetStatus, hartIndex_ofNat]
    exact hStatus
  rw [pSpawnOnHart, if_neg fun h => h.2 hStopped, hartIndex_ofNat]
  simp only [if_neg (Ne.symm hOther)]
  by_cases hMapped : mmuTranslate m s.process.ptable s.process.frame.sscratch = -1
  · have hPlaced : mmuTranslate m (place trapStacks p target time s).process.ptable
        (place trapStacks p target time s).process.frame.sscratch = -1 := hMapped
    rw [if_pos hPlaced]
    exact ⟨rfl, by simp [CanStart, hMapped]⟩
  · have hPlaced : ¬ mmuTranslate m (place trapStacks p target time s).process.ptable
        (place trapStacks p target time s).process.frame.sscratch = -1 := hMapped
    rw [if_neg hPlaced]
    refine ⟨rfl, ?_⟩
    rw [Option.some.injEq, ← Bool.not_eq_true, hartStart_fst, CanStart]
    exact not_congr ⟨fun h => ⟨hMapped, h⟩, fun h => h.2⟩

/-- The values of a hart are as they were when it has no entry, is refused at
once, is the own one, or starts. -/
theorem failureUnchanged_iff :
    FailureUnchanged hart s
        (pSpawnOnHart g m trapStacks whoami p hart time contended check start s).1
        (pSpawnOnHart g m trapStacks whoami p hart time contended check start s).2.1 ↔
      ∀ target, hartIndex hart = some target → target ≠ whoami →
        (check.data target).status = .stopped →
          CanStart m target contended start s ∨ Placed p target time s := by
  by_cases hFound : ∃ target, hartIndex hart = some target ∧ target ≠ whoami ∧
    (check.data target).status = .stopped
  · obtain ⟨target, hTarget, hOther, hStatus⟩ := hFound
    obtain rfl := eq_of_hartIndex hTarget
    obtain ⟨hPlace, hFalse⟩ := @pSpawnOnHart_stopped g m trapStacks whoami target p time contended
      check start s hOther hStatus
    have hSame : FailureUnchanged (BitVec.ofNat 32 target) s
        (pSpawnOnHart g m trapStacks whoami p (BitVec.ofNat 32 target) time contended check start s).1
        (pSpawnOnHart g m trapStacks whoami p (BitVec.ofNat 32 target) time contended check start
          s).2.1 ↔ (¬ CanStart m target contended start s → Placed p target time s) := by
      rw [FailureUnchanged, hFalse, hPlace]
      refine imp_congr_right fun _ => ?_
      simp only [hTarget, Option.some.injEq, forall_eq', Placed, place, addMtimecmp, update_self]
      exact and_congr eq_comm (and_congr eq_comm eq_comm)
    rw [hSame, ← or_iff_not_imp_left]
    constructor
    · intro h other hOtherIndex _ _
      obtain rfl : target = other := by simpa [hTarget] using hOtherIndex
      exact h
    · exact fun h => h target hTarget hOther hStatus
  · constructor
    · exact fun _ target hTarget hOther hStatus => absurd ⟨target, hTarget, hOther, hStatus⟩ hFound
    · intro _
      by_cases hOwn : hart = BitVec.ofNat 32 whoami
      · subst hOwn
        rw [pSpawnOnHart_self]
        exact fun hNone => absurd hNone (by simp)
      · rw [pSpawnOnHart_refused]
        · exact fun _ => ⟨rfl, fun _ _ => ⟨rfl, rfl⟩⟩
        · intro target hTarget
          have hOther : target ≠ whoami := by
            rintro rfl
            exact hOwn (eq_of_hartIndex hTarget)
          exact ⟨hOther, fun hStatus => hFound ⟨target, hTarget, hOther, hStatus⟩⟩

end Call

section Race

variable {park : Word} {s t : System} {event : Event} {later : List Event} {h : Hart}

/-- A stopped hart stays stopped until a start of it succeeds. -/
theorem Step.stopped (hStep : Step park s event t) (hStatus : (s.data h).status = .stopped)
    (hNoStart : ∀ target scratch, event ≠ .start h target scratch true) :
    (t.data h).status = .stopped := by
  cases hStep.outcome with
  | @started _ hart target scratch _ data =>
      have hOther : h ≠ hart := fun hSame => hNoStart target scratch (by rw [hSame])
      simpa [data, hOther] using hStatus
  | @stopped _ hart _ status data =>
      by_cases hSame : h = hart
      · subst hSame
        simp [data]
      · simpa [data, hSame] using hStatus
  | @woken _ hart _ _ _ status data =>
      by_cases hSame : h = hart
      · subst hSame
        rw [status] at hStatus
        cases hStatus
      · simpa [data, hSame] using hStatus
  | refused data | notStopped data | interrupted _ _ data | returned _ data | ran _ data =>
      rw [data]
      exact hStatus

/-- When the hart is not stopped any more at the start, another start of it has
succeeded since the check. -/
theorem started_of_run (run : Run (Step park) s later t) (hCheck : (s.data h).status = .stopped)
    (hStart : (t.data h).status ≠ .stopped) :
    ∃ target scratch, .start h target scratch true ∈ later := by
  induction run with
  | nil => exact absurd hCheck hStart
  | @snoc t u later event prior last ih =>
      by_cases hBefore : (t.data h).status = .stopped
      · by_contra hNone
        refine hStart (Step.stopped last hBefore fun target scratch hEvent => hNone ?_)
        exact ⟨target, scratch, by simp [hEvent]⟩
      · obtain ⟨target, scratch, hMem⟩ := ih hBefore
        exact ⟨target, scratch, List.mem_append_left _ hMem⟩

end Race

section Stale

/-- A process on no hart, with its frame in the page at 0x400000. -/
def waiting : SpawnState where
  process := { Process.zero with
    ptable := 0x80200000
    frame := { Process.zero.frame with sscratch := 0x400000 }
    quantum := pDefaultQuantum
    hartNum := -1 }
  current := fun _ => 0
  mtimecmp := fun _ => 0

/-- Hart 0 finds hart 1 stopped, and another hart starts hart 1 before it: the
call fails with its process in `p_current[1]`. -/
theorem current_stale (g : Globals) (trapStacks : Hart → Word) :
    (pSpawnOnHart g Uaccess.onePage.mem trapStacks 0 0x80062000 1 0 false
      (afterMain 0x80000100) firstStarting waiting).1 = some false ∧
    (pSpawnOnHart g Uaccess.onePage.mem trapStacks 0 0x80062000 1 0 false
      (afterMain 0x80000100) firstStarting waiting).2.1.current 1 = 0x80062000 := by
  obtain ⟨hPlace, hFalse⟩ := @pSpawnOnHart_stopped g Uaccess.onePage.mem trapStacks 0 1 0x80062000 0
    false (afterMain 0x80000100) firstStarting waiting (by decide) rfl
  refine ⟨hFalse.mpr fun hStart => ?_, ?_⟩
  · exact absurd hStart.2.2.2 (by decide)
  · exact congrFun (congrArg SpawnState.current hPlace) 1

theorem not_failureUnchanged : ∃ events,
    Run (Step 0x80000100) (afterMain 0x80000100) events firstStarting ∧
    mmuTranslate Uaccess.onePage.mem waiting.process.ptable waiting.process.frame.sscratch ≠ -1 ∧
    ¬ FailureUnchanged 1 waiting
      (pSpawnOnHart bootGlobals Uaccess.onePage.mem (fun _ => 0) 0 0x80062000 1 0 false
        (afterMain 0x80000100) firstStarting waiting).1
      (pSpawnOnHart bootGlobals Uaccess.onePage.mem (fun _ => 0) 0 0x80062000 1 0 false
        (afterMain 0x80000100) firstStarting waiting).2.1 := by
  refine ⟨_, Run.snoc (Run.nil _) firstStarting_step, Uaccess.onePage_translate, fun h => ?_⟩
  obtain ⟨hFalse, hCurrent⟩ := current_stale bootGlobals fun _ => 0
  have hSame := ((h hFalse).2 1 rfl).1
  rw [hCurrent] at hSame
  exact absurd hSame (by decide)

end Stale

end Kernel.Spawn
