import RiscvOs.Sbi.Hart

/-! `sbi/src/hart.c` and `lock.c` on the bytes of the tables. The arguments are
any `unsigned int`, and an entry is where the address arithmetic finds it. -/
namespace Sbi.Table

open Semantics Function

/-- The addresses of `sbi_hart_data` and `sbi_hart_lock`. -/
structure Tables where
  data : Word
  lock : Word

/-- `sbi_hart_data + hart`: an entry has the status, the mode, the target
address and the scratch value at 0, 4, 8 and 16. -/
def Tables.dataAt (b : Tables) (hart : BitVec 32) : Word :=
  b.data + 24 * hart.setWidth 64

/-- `sbi_hart_lock + hart` -/
def Tables.lockAt (b : Tables) (hart : BitVec 32) : Word :=
  b.lock + 4 * hart.setWidth 64

/-- Memory, the words of the CLINT, and the control registers of the hart that
makes the call. As a record, `touched` lists the addresses at which a call read
or wrote an entry of a table or a lock. -/
structure Machine where
  mem : Memory
  msip : Nat → Bool
  csr : Csrs
  touched : List Word

def Machine.touch (a : Word) (s : Machine) : Machine :=
  { s with touched := a :: s.touched }

def Machine.load32 (a : Word) (s : Machine) : BitVec 32 × Machine :=
  (s.mem.load32 a, s.touch a)

def Machine.load64 (a : Word) (s : Machine) : Word × Machine :=
  (s.mem.load64 a, s.touch a)

def Machine.store32 (a : Word) (value : BitVec 32) (s : Machine) : Machine :=
  { s.touch a with mem := s.mem.store32 a value }

def Machine.store64 (a value : Word) (s : Machine) : Machine :=
  { s.touch a with mem := s.mem.store64 a value }

/-- `amoswap.w` -/
def Machine.amoswap (a : Word) (value : BitVec 32) (s : Machine) : BitVec 32 × Machine :=
  (s.mem.load32 a, s.store32 a value)

/-- `MUTEX_LOCKED` -/
def mutexLocked : BitVec 32 := 1

def mutexTrylock (mutex : Word) (s : Machine) : Bool × Machine :=
  let (old, s) := s.amoswap mutex mutexLocked
  (old ≠ mutexLocked, s)

def mutexUnlock (mutex : Word) (s : Machine) : Machine :=
  (s.amoswap mutex 0).2

/-- `HS_STOPPED`, `HS_STARTING` and `HS_STARTED` -/
def hsStopped : BitVec 32 := 1

def hsStarting : BitVec 32 := 2

def hsStarted : BitVec 32 := 3

/-- How a call leaves; `spins` is a call that waits for a lock and makes no
further step of its own. -/
inductive Leave where
  | returned (ret : Bool)
  | mret
  | spins
  deriving DecidableEq

def clintSetMsip (hart : BitVec 32) (s : Machine) : Machine :=
  if hart.toNat ≥ 8 then s else { s with msip := update s.msip hart.toNat true }

def clintClearMsip (hart : BitVec 32) (s : Machine) : Machine :=
  if hart.toNat ≥ 8 then s else { s with msip := update s.msip hart.toNat false }

/-- The status, 0 for `HS_INVALID`. -/
def hartGetStatus (b : Tables) (hart : BitVec 32) (s : Machine) : BitVec 32 × Machine :=
  if hart.toNat ≥ 8 then (0, s) else s.load32 (b.dataAt hart)

def hartStart (b : Tables) (hart : BitVec 32) (target scratch : Word) (s : Machine) :
    Leave × Machine :=
  let (ok, s) := mutexTrylock (b.lockAt hart) s
  if !ok then (.returned false, s)
  else
    let (status, s) := s.load32 (b.dataAt hart)
    let (ret, s) :=
      if status ≠ hsStopped then (false, s)
      else (true, clintSetMsip hart (((s.store32 (b.dataAt hart) hsStarting).store64
        (b.dataAt hart + 8) target).store64 (b.dataAt hart + 16) scratch))
    (.returned ret, mutexUnlock (b.lockAt hart) s)

def hartStop (b : Tables) (park : Word) (hart : BitVec 32) (s : Machine) : Leave × Machine :=
  let (ok, s) := mutexTrylock (b.lockAt hart) s
  if !ok then (.returned false, s)
  else
    let (status, s) := s.load32 (b.dataAt hart)
    if status ≠ hsStarted then (.returned false, s)
    else
      let s := s.store32 (b.dataAt hart) hsStopped
      (.mret, mutexUnlock (b.lockAt hart) { s with csr := parkCsrs park s.csr })

/-- The registers that `hart_handle_msip` writes for a hart that starts. -/
def startCsrs (hart priv : BitVec 32) (target : Word) (c : Csrs) : Csrs :=
  { c with
    mepc := target
    mstatus := (priv <<< mstatusMppBit).setWidth 64 ||| mstatusMpie ||| mstatusFsInitial
    mie := mieSsie ||| mieStie ||| mieMtie
    mideleg := mieSeie ||| mieSsie ||| mieStie
    medeleg := medelegAll
    sscratch := hart.setWidth 64 }

/-- `mutex_spinlock` takes a free lock at once. -/
def hartHandleMsip (b : Tables) (hart : BitVec 32) (s : Machine) : Leave × Machine :=
  let (ok, s) := mutexTrylock (b.lockAt hart) s
  if !ok then (.spins, s)
  else
    let s := clintClearMsip hart s
    let (status, s) := s.load32 (b.dataAt hart)
    let s :=
      if status = hsStarting then
        let (target, s) := s.load64 (b.dataAt hart + 8)
        let (priv, s) := s.load32 (b.dataAt hart + 4)
        { s with csr := startCsrs hart priv target s.csr }.store32 (b.dataAt hart) hsStarted
      else s
    (.mret, mutexUnlock (b.lockAt hart) s)

section Memory

variable {b : Tables} {park target scratch : Word} {hart : BitVec 32} {s : Machine}

@[simp] theorem clintSetMsip_mem : (clintSetMsip hart s).mem = s.mem := by
  unfold clintSetMsip
  split
  · rfl
  · rfl

@[simp] theorem clintSetMsip_touched : (clintSetMsip hart s).touched = s.touched := by
  unfold clintSetMsip
  split
  · rfl
  · rfl

@[simp] theorem clintClearMsip_mem : (clintClearMsip hart s).mem = s.mem := by
  unfold clintClearMsip
  split
  · rfl
  · rfl

@[simp] theorem clintClearMsip_touched : (clintClearMsip hart s).touched = s.touched := by
  unfold clintClearMsip
  split
  · rfl
  · rfl

@[simp] theorem mutexTrylock_fst {a : Word} :
    (mutexTrylock a s).1 = decide (s.mem.load32 a ≠ mutexLocked) := rfl

@[simp] theorem mutexTrylock_mem {a : Word} :
    (mutexTrylock a s).2.mem = s.mem.store32 a mutexLocked := rfl

@[simp] theorem mutexUnlock_mem {a : Word} : (mutexUnlock a s).mem = s.mem.store32 a 0 := rfl

/-- Memory with the lock of a hart taken. -/
def taken (b : Tables) (hart : BitVec 32) (m : Memory) : Memory :=
  m.store32 (b.lockAt hart) mutexLocked

theorem hartStart_held (h : s.mem.load32 (b.lockAt hart) = mutexLocked) :
    hartStart b hart target scratch s = (.returned false, (mutexTrylock (b.lockAt hart) s).2) := by
  simp [hartStart, mutexTrylock, Machine.amoswap, h]

theorem hartStop_held (h : s.mem.load32 (b.lockAt hart) = mutexLocked) :
    hartStop b park hart s = (.returned false, (mutexTrylock (b.lockAt hart) s).2) := by
  simp [hartStop, mutexTrylock, Machine.amoswap, h]

theorem hartHandleMsip_held (h : s.mem.load32 (b.lockAt hart) = mutexLocked) :
    hartHandleMsip b hart s = (.spins, (mutexTrylock (b.lockAt hart) s).2) := by
  simp [hartHandleMsip, mutexTrylock, Machine.amoswap, h]

/-- `hart_start` with a free lock: what it returns, and what it leaves in
memory. -/
theorem hartStart_free (target scratch : Word) (h : s.mem.load32 (b.lockAt hart) ≠ mutexLocked) :
    (hartStart b hart target scratch s).1 =
        .returned (decide ((taken b hart s.mem).load32 (b.dataAt hart) = hsStopped)) ∧
      (hartStart b hart target scratch s).2.mem =
        (if (taken b hart s.mem).load32 (b.dataAt hart) = hsStopped then
          (((taken b hart s.mem).store32 (b.dataAt hart) hsStarting).store64
            (b.dataAt hart + 8) target).store64 (b.dataAt hart + 16) scratch
        else taken b hart s.mem).store32 (b.lockAt hart) 0 := by
  have hTaken : s.mem.store32 (b.lockAt hart) mutexLocked = taken b hart s.mem := rfl
  simp only [hartStart, mutexTrylock, Machine.amoswap, Machine.load32, Machine.store32,
    Machine.store64, Machine.touch, h, hTaken, ne_eq, not_false_eq_true, decide_true,
    Bool.not_true, Bool.false_eq_true, ↓reduceIte]
  by_cases hStatus : (taken b hart s.mem).load32 (b.dataAt hart) = hsStopped
  · simp [hStatus, mutexUnlock, Machine.amoswap, Machine.store32, Machine.touch]
  · simp [hStatus, mutexUnlock, Machine.amoswap, Machine.store32, Machine.touch]

theorem hartStop_free (park : Word) (h : s.mem.load32 (b.lockAt hart) ≠ mutexLocked) :
    (hartStop b park hart s).1 =
        (if (taken b hart s.mem).load32 (b.dataAt hart) = hsStarted then .mret
        else .returned false) ∧
      (hartStop b park hart s).2.mem =
        if (taken b hart s.mem).load32 (b.dataAt hart) = hsStarted then
          ((taken b hart s.mem).store32 (b.dataAt hart) hsStopped).store32 (b.lockAt hart) 0
        else taken b hart s.mem := by
  have hTaken : s.mem.store32 (b.lockAt hart) mutexLocked = taken b hart s.mem := rfl
  simp only [hartStop, mutexTrylock, Machine.amoswap, Machine.load32, Machine.store32,
    Machine.touch, h, hTaken, ne_eq, not_false_eq_true, decide_true, Bool.not_true,
    Bool.false_eq_true, ↓reduceIte]
  by_cases hStatus : (taken b hart s.mem).load32 (b.dataAt hart) = hsStarted
  · simp [hStatus, mutexUnlock, Machine.amoswap, Machine.store32, Machine.touch]
  · simp [hStatus]

theorem hartHandleMsip_free (h : s.mem.load32 (b.lockAt hart) ≠ mutexLocked) :
    (hartHandleMsip b hart s).1 = .mret ∧
      (hartHandleMsip b hart s).2.mem =
        (if (taken b hart s.mem).load32 (b.dataAt hart) = hsStarting then
          (taken b hart s.mem).store32 (b.dataAt hart) hsStarted
        else taken b hart s.mem).store32 (b.lockAt hart) 0 := by
  have hTaken : s.mem.store32 (b.lockAt hart) mutexLocked = taken b hart s.mem := rfl
  simp only [hartHandleMsip, mutexTrylock, Machine.amoswap, Machine.load32, Machine.load64,
    Machine.store32, Machine.touch, h, hTaken, ne_eq, not_false_eq_true, decide_true, Bool.not_true,
    Bool.false_eq_true, ↓reduceIte, clintClearMsip_mem]
  by_cases hStatus : (taken b hart s.mem).load32 (b.dataAt hart) = hsStarting
  · simp [hStatus, mutexUnlock, Machine.amoswap, Machine.store32, Machine.touch]
  · simp [hStatus, mutexUnlock, Machine.amoswap, Machine.store32, Machine.touch]

/-- Every call makes for the lock at its address, whatever its argument. -/
theorem hartStart_touched :
    s.touched.length < (hartStart b hart target scratch s).2.touched.length := by
  by_cases hLock : s.mem.load32 (b.lockAt hart) = mutexLocked
  · simp [hartStart_held hLock, mutexTrylock, Machine.amoswap, Machine.store32, Machine.touch]
  · by_cases hStatus : (taken b hart s.mem).load32 (b.dataAt hart) = hsStopped
    all_goals
      rw [taken] at hStatus
      simp [hartStart, mutexTrylock, Machine.amoswap, Machine.load32, Machine.store32,
        Machine.store64, Machine.touch, mutexUnlock, hLock, hStatus]
      omega

theorem hartStop_touched :
    s.touched.length < (hartStop b park hart s).2.touched.length := by
  by_cases hLock : s.mem.load32 (b.lockAt hart) = mutexLocked
  · simp [hartStop_held hLock, mutexTrylock, Machine.amoswap, Machine.store32, Machine.touch]
  · by_cases hStatus : (taken b hart s.mem).load32 (b.dataAt hart) = hsStarted
    all_goals
      rw [taken] at hStatus
      simp only [hartStop, mutexTrylock, mutexUnlock, Machine.amoswap, Machine.load32,
        Machine.store32, Machine.touch, hLock, hStatus, ne_eq, not_false_eq_true,
        not_true_eq_false, decide_true, Bool.not_true, Bool.false_eq_true, ↓reduceIte,
        List.length_cons]
      omega

theorem hartHandleMsip_touched :
    s.touched.length < (hartHandleMsip b hart s).2.touched.length := by
  by_cases hLock : s.mem.load32 (b.lockAt hart) = mutexLocked
  · simp [hartHandleMsip_held hLock, mutexTrylock, Machine.amoswap, Machine.store32, Machine.touch]
  · by_cases hStatus : (taken b hart s.mem).load32 (b.dataAt hart) = hsStarting
    all_goals
      rw [taken] at hStatus
      simp [hartHandleMsip, mutexTrylock, Machine.amoswap, Machine.load32, Machine.load64,
        Machine.store32, Machine.touch, mutexUnlock, hLock, hStatus]
      omega

end Memory

end Sbi.Table
