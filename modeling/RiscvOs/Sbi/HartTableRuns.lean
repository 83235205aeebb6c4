import RiscvOs.Sbi.HartTable
import RiscvOs.Semantics.Transition

/-! Which calls of `hart.c` give the lock of a hart back, and what sequences of
such calls leave. -/
namespace Sbi.Table

open Semantics

inductive Call where
  | start (hart : BitVec 32) (target scratch : Word)
  | stop (hart : BitVec 32)
  | msip (hart : BitVec 32)
  deriving DecidableEq

def Call.hart : Call → BitVec 32
  | start hart _ _ | stop hart | msip hart => hart

def call (b : Tables) (park : Word) (s : Machine) : Call → Leave × Machine
  | .start hart target scratch => hartStart b hart target scratch s
  | .stop hart => hartStop b park hart s
  | .msip hart => hartHandleMsip b hart s

/-- A call that acquires its lock leaves with the lock released, and a hart that
does not exist is rejected without an access to the tables. -/
def Disciplined (b : Tables) (park : Word) (c : Call) (s : Machine) : Prop :=
  (c.hart.toNat < 8 → s.mem.load32 (b.lockAt c.hart) ≠ mutexLocked →
    (call b park s c).1 ≠ .spins ∧
      (call b park s c).2.mem.load32 (b.lockAt c.hart) ≠ mutexLocked) ∧
  (8 ≤ c.hart.toNat → (call b park s c).2 = s)

/-- The hart exists, and a hart that is to stop is started, or its lock is
held. -/
def Meets (b : Tables) (s : Machine) (c : Call) : Prop :=
  c.hart.toNat < 8 ∧ ∀ hart, c = .stop hart →
    s.mem.load32 (b.lockAt hart) = mutexLocked ∨ s.mem.load32 (b.dataAt hart) = hsStarted

def AllFree (b : Tables) (s : Machine) : Prop :=
  ∀ hart : BitVec 32, hart.toNat < 8 → s.mem.load32 (b.lockAt hart) ≠ mutexLocked

/-- A call by any hart, which comes with its own control registers. -/
def CallStep (b : Tables) (park : Word) (s : Machine) (c : Call) (t : Machine) : Prop :=
  ∃ csr, (call b park { s with csr } c).2 = t

section Entries

variable {b : Tables} {hart hart' : BitVec 32}

theorem dataAt_eq (b : Tables) (hart : BitVec 32) :
    b.dataAt hart = b.data + BitVec.ofNat 64 (24 * hart.toNat) := by
  rw [Tables.dataAt]
  congr 1

theorem lockAt_eq (b : Tables) (hart : BitVec 32) :
    b.lockAt hart = b.lock + BitVec.ofNat 64 (4 * hart.toNat) := by
  rw [Tables.lockAt]
  congr 1

theorem dataAt_apart (hApart : Apart b.data 192 b.lock 32) (h : hart.toNat < 8)
    (h' : hart'.toNat < 8) {i n : Nat} (hn : 0 < n) (hi : i + n ≤ 24) :
    Apart (b.dataAt hart + BitVec.ofNat 64 i) n (b.lockAt hart') 4 := by
  rw [dataAt_eq, lockAt_eq, BitVec.add_assoc, ← BitVec.ofNat_add]
  exact hApart.part (by omega) (by omega) hn (by decide)

theorem lockAt_apart (h : hart.toNat < 8) (h' : hart'.toNat < 8) (hOther : hart' ≠ hart) :
    Apart (b.lockAt hart) 4 (b.lockAt hart') 4 := by
  have hValue : hart'.toNat ≠ hart.toNat := fun hSame => hOther (BitVec.eq_of_toNat_eq hSame)
  rw [lockAt_eq, lockAt_eq]
  exact apart_of_offsets (by decide) (by decide) (by omega) (by omega) (by omega)

/-- Stores to an entry of the table and to the lock of a hart leave the other
locks as they are. -/
theorem load32_lockAt_of_stores (hApart : Apart b.data 192 b.lock 32) (h : hart.toNat < 8)
    (h' : hart'.toNat < 8) (hOther : hart' ≠ hart) (m : Memory) (lockWord status : BitVec 32)
    (target scratch : Word) :
    (m.store32 (b.lockAt hart) lockWord).load32 (b.lockAt hart') = m.load32 (b.lockAt hart') ∧
    (m.store32 (b.dataAt hart) status).load32 (b.lockAt hart') = m.load32 (b.lockAt hart') ∧
    ((m.store64 (b.dataAt hart + 8) target).store64 (b.dataAt hart + 16) scratch).load32
      (b.lockAt hart') = m.load32 (b.lockAt hart') := by
  have hField {i n : Nat} (hn : 0 < n) (hi : i + n ≤ 24) :
      Apart (b.dataAt hart + BitVec.ofNat 64 i) n (b.lockAt hart') 4 :=
    dataAt_apart hApart h h' hn hi
  have hStatus : Apart (b.dataAt hart) 4 (b.lockAt hart') 4 := by
    have hFirst := hField (i := 0) (n := 4) (by decide) (by decide)
    rwa [show b.dataAt hart + BitVec.ofNat 64 0 = b.dataAt hart by simp] at hFirst
  refine ⟨Memory.load32_congr (Memory.agreeOn_store32 m lockWord (lockAt_apart h h' hOther)),
    Memory.load32_congr (Memory.agreeOn_store32 m status hStatus), Memory.load32_congr ?_⟩
  exact (Memory.agreeOn_store64 m target (hField (i := 8) (by decide) (by decide))).trans
    (Memory.agreeOn_store64 _ scratch (hField (i := 16) (by decide) (by decide)))

/-- The status that a call finds is the one before it takes the lock. -/
theorem taken_load32_dataAt (hApart : Apart b.data 192 b.lock 32) (hart : BitVec 32)
    (h : hart.toNat < 8) (m : Memory) :
    (taken b hart m).load32 (b.dataAt hart) = m.load32 (b.dataAt hart) := by
  have hFirst := dataAt_apart hApart h h (i := 0) (n := 4) (by decide) (by decide)
  rw [show b.dataAt hart + BitVec.ofNat 64 0 = b.dataAt hart by simp] at hFirst
  exact Memory.load32_congr (Memory.agreeOn_store32 m mutexLocked hFirst.symm)

end Entries

section Calls

variable {b : Tables} {park : Word} {c : Call} {s t : Machine}

/-- No call leaves the tables and the locks untouched. -/
theorem call_ne (b : Tables) (park : Word) (s : Machine) (c : Call) :
    (call b park s c).2 ≠ s := by
  have hTouched : s.touched.length < (call b park s c).2.touched.length := by
    cases c with
    | start hart target scratch => exact hartStart_touched
    | stop hart => exact hartStop_touched
    | msip hart => exact hartHandleMsip_touched
  intro hSame
  rw [hSame] at hTouched
  exact lt_irrefl _ hTouched

/-- What a call that acquires its lock leaves there. -/
theorem call_lock (hFree : s.mem.load32 (b.lockAt c.hart) ≠ mutexLocked) :
    (call b park s c).1 ≠ .spins ∧
      ((call b park s c).2.mem.load32 (b.lockAt c.hart) ≠ mutexLocked ↔
        ∀ hart, c = .stop hart → (taken b hart s.mem).load32 (b.dataAt hart) = hsStarted) := by
  have hReleased (m : Memory) (a : Word) : (m.store32 a 0).load32 a ≠ mutexLocked := by
    rw [Memory.load32_store32]
    decide
  cases c with
  | start hart target scratch =>
      have hFree : s.mem.load32 (b.lockAt hart) ≠ mutexLocked := hFree
      obtain ⟨hLeave, hMem⟩ := hartStart_free target scratch hFree
      rw [call, hLeave, hMem]
      exact ⟨by simp, iff_of_true (hReleased _ _) (by simp)⟩
  | stop hart =>
      have hFree : s.mem.load32 (b.lockAt hart) ≠ mutexLocked := hFree
      obtain ⟨hLeave, hMem⟩ := hartStop_free park hFree
      rw [call, hLeave, hMem]
      simp only [Call.stop.injEq, forall_eq']
      split
      next hStatus => exact ⟨by simp, iff_of_true (hReleased _ _) hStatus⟩
      next hStatus =>
        refine ⟨by simp, iff_of_false (fun hOpen => hOpen ?_) hStatus⟩
        exact Memory.load32_store32 ..
  | msip hart =>
      have hFree : s.mem.load32 (b.lockAt hart) ≠ mutexLocked := hFree
      obtain ⟨hLeave, hMem⟩ := hartHandleMsip_free hFree
      rw [call, hLeave, hMem]
      exact ⟨by simp, iff_of_true (hReleased _ _) (by simp)⟩

theorem disciplined_iff (hApart : Apart b.data 192 b.lock 32) :
    Disciplined b park c s ↔ Meets b s c := by
  by_cases hHart : c.hart.toNat < 8
  · constructor
    · rintro ⟨hReleased, -⟩
      refine ⟨hHart, fun hart hStop => ?_⟩
      by_cases hFree : s.mem.load32 (b.lockAt c.hart) = mutexLocked
      · subst hStop
        exact .inl hFree
      · have hStatus := (call_lock hFree).2.mp (hReleased hHart hFree).2 hart hStop
        subst hStop
        exact .inr (by rwa [taken_load32_dataAt hApart hart hHart] at hStatus)
    · rintro ⟨-, h⟩
      refine ⟨fun _ hFree => ⟨(call_lock hFree).1, (call_lock hFree).2.mpr fun hart hStop => ?_⟩,
        fun hBeyond => absurd hHart (not_lt.mpr hBeyond)⟩
      subst hStop
      rw [taken_load32_dataAt hApart hart hHart]
      exact (h hart rfl).resolve_left hFree
  · refine iff_of_false (fun h => ?_) fun h => hHart h.1
    exact call_ne b park s c (h.2 (not_lt.mp hHart))

/-- The locks of the other harts are as they were. -/
theorem call_lock_other (hApart : Apart b.data 192 b.lock 32) (hHart : c.hart.toNat < 8)
    {hart' : BitVec 32} (h' : hart'.toNat < 8) (hOther : hart' ≠ c.hart) :
    (call b park s c).2.mem.load32 (b.lockAt hart') = s.mem.load32 (b.lockAt hart') := by
  have hStores := load32_lockAt_of_stores hApart hHart h' hOther
  have hLock (m : Memory) (value : BitVec 32) := (hStores m value 0 0 0).1
  have hStatus (m : Memory) (value : BitVec 32) := (hStores m 0 value 0 0).2.1
  have hTarget (m : Memory) (target scratch : Word) := (hStores m 0 0 target scratch).2.2
  cases c with
  | start hart target scratch =>
      by_cases hFree : s.mem.load32 (b.lockAt hart) = mutexLocked
      · rw [call, hartStart_held hFree]
        exact hLock _ _
      · rw [call, (hartStart_free target scratch hFree).2]
        refine (hLock _ _).trans ?_
        split
        · exact (hTarget _ _ _).trans ((hStatus _ _).trans (hLock _ _))
        · exact hLock _ _
  | stop hart =>
      by_cases hFree : s.mem.load32 (b.lockAt hart) = mutexLocked
      · rw [call, hartStop_held hFree]
        exact hLock _ _
      · rw [call, (hartStop_free park hFree).2]
        split
        · exact (hLock _ _).trans ((hStatus _ _).trans (hLock _ _))
        · exact hLock _ _
  | msip hart =>
      by_cases hFree : s.mem.load32 (b.lockAt hart) = mutexLocked
      · rw [call, hartHandleMsip_held hFree]
        exact hLock _ _
      · rw [call, (hartHandleMsip_free hFree).2]
        refine (hLock _ _).trans ?_
        split
        · exact (hStatus _ _).trans (hLock _ _)
        · exact hLock _ _

theorem AllFree.call (hFree : AllFree b s) (hApart : Apart b.data 192 b.lock 32)
    (hMeets : Meets b s c) : AllFree b (call b park s c).2 := by
  intro hart' h'
  have hOpen := hFree c.hart hMeets.1
  by_cases hSame : hart' = c.hart
  · subst hSame
    refine (call_lock hOpen).2.mpr fun hart hStop => ?_
    subst hStop
    rw [taken_load32_dataAt hApart hart hMeets.1]
    exact (hMeets.2 hart rfl).resolve_left hOpen
  · rw [call_lock_other hApart hMeets.1 h' hSame]
    exact hFree hart' h'

/-- After any sequence of such calls no lock is held. -/
theorem allFree_of_run (hApart : Apart b.data 192 b.lock 32) (hFree : AllFree b s)
    {calls : List Call} (run : Run (Guarded (CallStep b park) (Meets b)) s calls t) : AllFree b t := by
  refine run.invariant (AllFree b) hFree ?_
  rintro s c t hFree ⟨hMeets, csr, rfl⟩
  exact @AllFree.call b park c { s with csr } hFree hApart hMeets

/-- A call keeps the discipline of the locks when its hart exists and, if it is
`hart_stop`, is started; sequences of such calls leave every lock free, and no
call behind them is refused a lock or waits for one. -/
theorem lock_discipline (hApart : Apart b.data 192 b.lock 32) :
    (∀ c s, Disciplined b park c s ↔ Meets b s c) ∧
    ∀ s calls t, AllFree b s → Run (Guarded (CallStep b park) (Meets b)) s calls t →
      AllFree b t ∧ ∀ c : Call, c.hart.toNat < 8 →
        (mutexTrylock (b.lockAt c.hart) t).1 = true ∧ (call b park t c).1 ≠ .spins := by
  refine ⟨fun c s => disciplined_iff hApart, fun s calls t hFree run => ?_⟩
  have hAll := allFree_of_run hApart hFree run
  refine ⟨hAll, fun c hHart => ⟨?_, (call_lock (hAll c.hart hHart)).1⟩⟩
  rw [mutexTrylock_fst]
  exact decide_eq_true (hAll c.hart hHart)

end Calls

section BootTable

/-- The tables of a small SBI. -/
def bootTables : Tables where
  data := 0x80002000
  lock := 0x80003000

/-- Hart 0 is started, hart 1 stopped, and every lock is free. -/
def bootMachine : Machine where
  mem := (Memory.store32 (fun _ => 0) 0x80002000 hsStarted).store32 0x80002018 hsStopped
  msip := fun _ => false
  csr := mainCsrs 0x80000100 0
  touched := []

theorem bootTables_apart : Apart bootTables.data 192 bootTables.lock 32 := by
  unfold Apart
  decide

theorem disciplined_start : Disciplined bootTables 0x80000100 (.start 1 0x80060000 0x80200000)
    bootMachine :=
  ((lock_discipline bootTables_apart).1 _ _).mpr ⟨by decide, fun _ hStop => by cases hStop⟩

/-- `hart_stop` of a hart that is not started keeps its lock, and the software
interrupt of this hart waits for ever; `hart_start` of a ninth hart goes to the
word behind the locks. -/
theorem not_disciplined :
    (call bootTables 0x80000100 bootMachine (.stop 1)).1 = .returned false ∧
    (call bootTables 0x80000100 (call bootTables 0x80000100 bootMachine (.stop 1)).2 (.msip 1)).1 =
      .spins ∧
    ¬ Disciplined bootTables 0x80000100 (.stop 1) bootMachine ∧
    ¬ Disciplined bootTables 0x80000100 (.start 8 0x80060000 0x80200000) bootMachine := by
  have hFree : bootMachine.mem.load32 (bootTables.lockAt 1) ≠ mutexLocked := by decide +kernel
  have hStopped : bootMachine.mem.load32 (bootTables.dataAt 1) = hsStopped := by decide +kernel
  have hStatus : (taken bootTables 1 bootMachine.mem).load32 (bootTables.dataAt 1) ≠ hsStarted := by
    rw [taken_load32_dataAt bootTables_apart 1 (by decide), hStopped]
    decide
  obtain ⟨hLeave, hMem⟩ := hartStop_free 0x80000100 hFree
  rw [if_neg hStatus] at hLeave hMem
  have hHeld : (hartStop bootTables 0x80000100 1 bootMachine).2.mem.load32 (bootTables.lockAt 1) =
      mutexLocked := by
    rw [hMem]
    exact Memory.load32_store32 ..
  refine ⟨hLeave, ?_, ?_, ?_⟩
  · exact congrArg Prod.fst (hartHandleMsip_held hHeld)
  · rw [disciplined_iff bootTables_apart]
    intro h
    rcases h.2 1 rfl with hLocked | hStarted
    · exact hFree hLocked
    · rw [hStopped] at hStarted
      exact absurd hStarted (by decide)
  · rw [disciplined_iff bootTables_apart]
    exact fun h => absurd h.1 (by decide)

end BootTable

end Sbi.Table
