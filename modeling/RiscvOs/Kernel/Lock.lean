import RiscvOs.Kernel.Process
import RiscvOs.Semantics.Transition

/-! `lock.c`, mutexes, semaphores and barriers. Every atomic instruction is a step of
its own; harts are the callers that run at the same time. -/
namespace Kernel.Lock

open Semantics Function

/-- `amoadd.w`: the old value and the sum. -/
def amoadd (value operand : BitVec 32) : BitVec 32 × BitVec 32 :=
  (value, value + operand)

/-! ## Mutexes -/

/-- `MUTEX_UNLOCKED` and `MUTEX_LOCKED` -/
inductive Mutex where
  | unlocked
  | locked
  deriving DecidableEq, Repr

/-- `amoswap.w.aq`: the answer of the call, and the mutex behind it. -/
def mutexTrylock (mutex : Mutex) : Bool × Mutex :=
  (mutex ≠ .locked, .locked)

/-- The call returns only when it finds the mutex unlocked. -/
def mutexSpinlock (mutex : Mutex) : Option Mutex :=
  match mutexTrylock mutex with
  | (true, mutex) => some mutex
  | (false, _) => none

def mutexUnlock (_ : Mutex) : Mutex :=
  .unlocked

/-! ## Semaphores -/

def semaphoreUp (value : BitVec 32) : BitVec 32 :=
  (amoadd value 1).2

/-- `semaphore_trydown` up to its test of the old value: what it will return, and
the new value. If that is false, it calls `semaphore_up` before it returns. -/
def semaphoreTrydown (value : BitVec 32) : Bool × BitVec 32 :=
  let (old, value) := amoadd value (-1)
  (¬ old.toInt ≤ 0, value)

/-- A semaphore that harts use. `restoring` are the harts in a call of
`semaphore_trydown` that found no unit and has not called `semaphore_up` yet. -/
structure Semaphore (Hart : Type) where
  value : BitVec 32
  restoring : Finset Hart

variable {Hart : Type}

/-- The first step of a `semaphore_trydown` with what it returns, the call of
`semaphore_up` inside it, or a call of `semaphore_up` from elsewhere. -/
inductive SemaphoreEvent (Hart : Type) where
  | trydown (h : Hart) (found : Bool)
  | restore (h : Hart)
  | up (h : Hart)

/-- A hart that has to restore does that before its next call. -/
inductive SemaphoreStep [DecidableEq Hart] :
    Semaphore Hart → SemaphoreEvent Hart → Semaphore Hart → Prop where
  | trydown {s : Semaphore Hart} (h : Hart) {found : Bool} {value : BitVec 32}
      (hFree : h ∉ s.restoring) (hCall : semaphoreTrydown s.value = (found, value)) :
      SemaphoreStep s (.trydown h found)
        { value := value, restoring := if found then s.restoring else insert h s.restoring }
  | restore (s : Semaphore Hart) (h : Hart) (hRestoring : h ∈ s.restoring) :
      SemaphoreStep s (.restore h)
        { value := semaphoreUp s.value, restoring := s.restoring.erase h }
  | up (s : Semaphore Hart) (h : Hart) (hFree : h ∉ s.restoring) :
      SemaphoreStep s (.up h) { s with value := semaphoreUp s.value }

def semaphoreInit (value : BitVec 32) : Semaphore Hart where
  value := value
  restoring := ∅

/-- The calls of `semaphore_up` that restore nothing. -/
def ups (events : List (SemaphoreEvent Hart)) : Nat :=
  events.countP fun
    | .up _ => true
    | _ => false

/-- The calls of `semaphore_trydown` that return true. -/
def successes (events : List (SemaphoreEvent Hart)) : Nat :=
  events.countP fun
    | .trydown _ found => found
    | _ => false

/-- The calls of `semaphore_trydown` that return false. -/
def failures (events : List (SemaphoreEvent Hart)) : Nat :=
  events.countP fun
    | .trydown _ found => !found
    | _ => false

/-- Those of them that have restored. -/
def restores (events : List (SemaphoreEvent Hart)) : Nat :=
  events.countP fun
    | .restore _ => true
    | _ => false

/-- The sum of the next atomic instruction is a 32-bit count. -/
def NoOverflow (s : Semaphore Hart) : SemaphoreEvent Hart → Prop
  | .trydown _ _ => ¬ s.value.saddOverflow (-1)
  | .restore _ => ¬ s.value.saddOverflow 1
  | .up _ => ¬ s.value.saddOverflow 1

/-! ## Barriers -/

/-- `struct Barrier` -/
structure Barrier where
  head : Word
  value : BitVec 32

/-- The memory that a barrier uses: the fields of `struct Barrier_List` and the
field `state` of processes, by address. -/
structure Store where
  proc : Word → Word
  next : Word → Word
  state : Word → PState

def barrierInit : Barrier where
  head := 0
  value := 0

/-- `barrier_add_process`, where `kmalloc` returns `bl`. -/
def barrierAddProcess (barrier : Barrier) (m : Store) (bl proc : Word) : Barrier × Store :=
  let m := { m with proc := update m.proc bl proc }
  let m := { m with next := update m.next bl barrier.head }
  ({ head := bl, value := barrier.value + 1 }, m)

/-- The loop of `barrier_wall`, with the nodes that it frees. `kfree` may write
into the node; `scrap` is what it leaves there. It has no result when the fuel
runs out. -/
def wallLoop (scrap : Word → Word × Word) : Nat → Store → Word → Option (List Word × Store)
  | 0, _, _ => none
  | fuel + 1, m, bl =>
      if bl = 0 then some ([], m)
      else do
        let next := m.next bl
        let m := { m with state := update m.state (m.proc bl) .running }
        let m := { m with
          proc := update m.proc bl (scrap bl).1, next := update m.next bl (scrap bl).2 }
        let (freed, m) ← wallLoop scrap fuel m next
        some (bl :: freed, m)

/-- Where a hart is with respect to `barrier_wall`. -/
inductive WallPlace where
  | outside
  /-- Its decrement found at most 1; the loop is to come. -/
  | opening
  deriving DecidableEq

/-- `barrier_wall` up to its test of the old value: whether this call opens the
barrier, and the barrier behind the decrement. -/
def wallArrive (barrier : Barrier) : Bool × Barrier :=
  let (old, value) := amoadd barrier.value (-1)
  (old.toInt ≤ 1, { barrier with value := value })

/-- The rest of the call of `barrier_wall` that opens the barrier, with the nodes
that it frees. -/
def wallOpen (scrap : Word → Word × Word) (fuel : Nat) (barrier : Barrier) (m : Store) :
    Option (List Word × Barrier × Store) := do
  let (freed, m) ← wallLoop scrap fuel m barrier.head
  some (freed, { barrier with head := 0 }, m)

/-- What has happened in a round: the nodes that were added, with their
processes, the latest first; how many calls of `barrier_wall` have decremented;
the nodes that were freed; and the states of the processes before the round. -/
structure Round where
  added : List (Word × Word)
  arrived : Nat
  freed : List Word
  before : Word → PState

/-- A process is added; after the last call of `barrier_wall` that starts a round. -/
def Round.add (r : Round) (state : Word → PState) (bl proc : Word) : Round :=
  if r.arrived = r.added.length then
    { added := [(bl, proc)], arrived := 0, freed := [], before := state }
  else { r with added := (bl, proc) :: r.added }

/-- A barrier that harts use, with the events of the current round. -/
structure BarrierUse (Hart : Type) where
  barrier : Barrier
  store : Store
  place : Hart → WallPlace
  round : Round

/-- As many calls of `barrier_wall` as processes, and all have returned. -/
def RoundOver (s : BarrierUse Hart) : Prop :=
  s.round.arrived = s.round.added.length ∧ ∀ h, s.place h = .outside

/-- The addresses that `kmalloc` can return for a node. They are multiples of
16 bytes apart, in pages of the 220 MiB of memory that `riscv.lds` gives. -/
structure NodeSpace where
  addresses : Finset Word
  nonNull : 0 ∉ addresses
  fits : 16 * addresses.card ≤ 220 * 2 ^ 20

inductive BarrierEvent (Hart : Type) where
  | add (bl proc : Word)
  | arrive (h : Hart)
  | walk (h : Hart) (scrap : Word → Word × Word)

/-- Every node that is added is one that `kmalloc` can return, and not one that
it returned in this round and that is not yet freed. -/
inductive BarrierStep [DecidableEq Hart] (space : NodeSpace) :
    BarrierUse Hart → BarrierEvent Hart → BarrierUse Hart → Prop where
  | add {s : BarrierUse Hart} (bl proc : Word) {barrier : Barrier} {store : Store}
      (hSpace : bl ∈ space.addresses)
      (hFresh : bl ∈ s.round.added.map Prod.fst → bl ∈ s.round.freed)
      (hCall : barrierAddProcess s.barrier s.store bl proc = (barrier, store)) :
      BarrierStep space s (.add bl proc) { s with
        barrier := barrier, store := store, round := s.round.add s.store.state bl proc }
  | arrive {s : BarrierUse Hart} (h : Hart) {opens : Bool} {barrier : Barrier}
      (hOutside : s.place h = .outside) (hCall : wallArrive s.barrier = (opens, barrier)) :
      BarrierStep space s (.arrive h) { s with
        barrier := barrier
        place := if opens then update s.place h .opening else s.place
        round := { s.round with arrived := s.round.arrived + 1 } }
  | walk {s : BarrierUse Hart} (h : Hart) (scrap : Word → Word × Word) {fuel : Nat}
      {freed : List Word} {barrier : Barrier} {store : Store}
      (hOpening : s.place h = .opening)
      (hCall : wallOpen scrap fuel s.barrier s.store = some (freed, barrier, store)) :
      BarrierStep space s (.walk h scrap) {
        barrier := barrier
        store := store
        place := update s.place h .outside
        round := { s.round with freed := s.round.freed ++ freed } }

/-- In every round the processes are added first, then `barrier_wall` is called
as many times. -/
def InRounds (s : BarrierUse Hart) : BarrierEvent Hart → Prop
  | .add _ _ => s.round.arrived = 0 ∨ RoundOver s
  | .arrive _ => s.round.arrived < s.round.added.length
  | .walk _ _ => True

/-- After `barrier_init`. -/
def barrierStart (m : Store) : BarrierUse Hart where
  barrier := barrierInit
  store := m
  place := fun _ => .outside
  round := { added := [], arrived := 0, freed := [], before := m.state }

end Kernel.Lock
