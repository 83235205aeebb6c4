import RiscvOs.Semantics.Memory
import RiscvOs.Semantics.Circular

/-! `sbi/src/ring_buff.c`, the ring of console characters. Harts call it at the
same time; every access of a call to the mutex or the ring is a step of its own. -/
namespace Sbi.RingBuff

open Semantics Function

/-- `BUFF_SIZE` -/
def buffSize : Int := 10

/-- `MUTEX_LOCKED` and `MUTEX_UNLOCKED` -/
def mutexLocked : BitVec 32 := 1

def mutexUnlocked : BitVec 32 := 0

/-- `buf`, `start` and, as `stop`, the variable `end`. -/
structure Ring where
  buf : Nat → Byte
  start : Int
  stop : Int

/-- `buf[(start + end) % BUFF_SIZE] = c` -/
def Ring.write (r : Ring) (c : Byte) : Ring :=
  { r with buf := update r.buf ((r.start + r.stop).tmod buffSize).toNat c }

def Ring.advance (r : Ring) : Ring :=
  { r with start := (r.start + 1).tmod buffSize }

/-- `ring_put` between its calls for the mutex. -/
def ringPut (r : Ring) (c : Byte) : Ring :=
  if r.stop < buffSize then { r.write c with stop := r.stop + 1 } else r

/-- `ring_get` between its calls for the mutex. -/
def ringGet (r : Ring) : Byte × Ring :=
  if r.stop > 0 then (r.buf r.start.toNat, { r.advance with stop := r.stop - 1 }) else (0xff, r)

inductive Call where
  | put (c : Byte)
  | get
  deriving DecidableEq

/-- What a call has come to: whether the character was accepted, or what is
returned and whether there was a character. -/
inductive Entry where
  | put (c : Byte) (accepted : Bool)
  | get (ret : Byte) (found : Bool)
  deriving DecidableEq

def Entry.call : Entry → Call
  | .put c _ => .put c
  | .get _ _ => .get

/-- Where a hart is in `ring_put` or `ring_get`. -/
inductive Place where
  | outside
  /-- In `mutex_spinlock`. -/
  | spins (call : Call)
  /-- Before the test of `end`. -/
  | tests (call : Call)
  /-- `ring_put` found room. -/
  | writes (c : Byte)
  /-- `ring_put` has written the character. -/
  | counts (c : Byte)
  /-- `ring_get` found a character. -/
  | reads
  /-- `ring_get` has read the character. -/
  | advances (ret : Byte)
  /-- `ring_get` has stored `start`. -/
  | discounts (ret : Byte)
  /-- Before `mutex_unlock`. -/
  | leaves (entry : Entry)
  deriving DecidableEq

/-- The call of a hart that has the mutex. -/
def Place.call : Place → Option Call
  | .outside => none
  | .spins _ => none
  | .tests call => some call
  | .writes c => some (.put c)
  | .counts c => some (.put c)
  | .reads => some .get
  | .advances _ => some .get
  | .discounts _ => some .get
  | .leaves entry => some entry.call

/-- The mutex, the ring and the places of the harts. -/
structure Console (Hart : Type) where
  mutex : BitVec 32
  ring : Ring
  place : Hart → Place

variable {Hart : Type} [DecidableEq Hart]

def Console.move (s : Console Hart) (h : Hart) (place : Place) : Console Hart :=
  { s with place := update s.place h place }

@[simp] theorem Console.move_self (s : Console Hart) (h : Hart) (place : Place) :
    (s.move h place).place h = place :=
  update_self ..

theorem Console.move_of_ne (s : Console Hart) {h h' : Hart} (place : Place) (hOther : h' ≠ h) :
    (s.move h place).place h' = s.place h' :=
  update_of_ne hOther ..

/-- The next access of a hart. A call of `mutex_trylock` that finds the mutex
locked leaves it so. -/
def step (h : Hart) (s : Console Hart) : Console Hart :=
  match s.place h with
  | .outside => s
  | .spins call =>
      if s.mutex ≠ mutexLocked then { s.move h (.tests call) with mutex := mutexLocked } else s
  | .tests (.put c) =>
      if s.ring.stop < buffSize then s.move h (.writes c)
      else s.move h (.leaves (.put c false))
  | .writes c => { s.move h (.counts c) with ring := s.ring.write c }
  | .counts c => { s.move h (.leaves (.put c true)) with ring.stop := s.ring.stop + 1 }
  | .tests .get =>
      if s.ring.stop > 0 then s.move h .reads
      else s.move h (.leaves (.get 0xff false))
  | .reads => s.move h (.advances (s.ring.buf s.ring.start.toNat))
  | .advances ret => { s.move h (.discounts ret) with ring := s.ring.advance }
  | .discounts ret => { s.move h (.leaves (.get ret true)) with ring.stop := s.ring.stop - 1 }
  | .leaves _ => { s.move h .outside with mutex := mutexUnlocked }

/-- A hart that is outside makes a call, or a hart makes its next access. -/
inductive Event (Hart : Type) where
  | call (h : Hart) (call : Call)
  | step (h : Hart)

/-- The console and, as a record of the run, what the calls have come to, in the
order in which they gave the mutex back. -/
structure Session (Hart : Type) extends Console Hart where
  history : List Entry

/-- The call that the next access of a hart ends. -/
def ended (h : Hart) (s : Console Hart) : List Entry :=
  match s.place h with
  | .leaves entry => [entry]
  | _ => []

def act (s : Session Hart) : Event Hart → Session Hart
  | .call h call =>
      if s.place h = .outside then { s with toConsole := s.move h (.spins call) } else s
  | .step h =>
      { toConsole := step h s.toConsole, history := s.history ++ ended h s.toConsole }

/-- All variables are zero before the first call. -/
def boot (Hart : Type) : Session Hart where
  mutex := mutexUnlocked
  ring := ⟨fun _ => 0, 0, 0⟩
  place := fun _ => .outside
  history := []

/-- The accepted characters, and those that calls returned, in order. -/
def accepted (history : List Entry) : List Byte :=
  history.filterMap fun
    | .put c true => some c
    | _ => none

def returned (history : List Entry) : List Byte :=
  history.filterMap fun
    | .get ret true => some ret
    | _ => none

/-- The accepted characters that no call has returned. -/
def unread (history : List Entry) : List Byte :=
  (accepted history).drop (returned history).length

/-- What an entry has to be after the entries before it. -/
def Correct (before : List Entry) : Entry → Prop
  | .put _ accepted => accepted = false ↔ (unread before).length = 10
  | .get ret found =>
      match unread before with
      | [] => found = false ∧ ret = 0xff
      | c :: _ => found = true ∧ ret = c

/-- The hart ends the call that it is in by accesses of its own, with the entry. -/
def Ends (h : Hart) (s t : Session Hart) (entry : Entry) : Prop :=
  ∃ n, t = (List.replicate n (.step h)).foldl act s ∧ t.place h = .outside ∧
    t.mutex = mutexUnlocked ∧ t.history = s.history ++ [entry]

/-- The ring is a queue of ten characters, and every call comes to its end. -/
structure Fifo (s : Session Hart) : Prop where
  start_nonneg : 0 ≤ s.ring.start
  start_lt : s.ring.start < 10
  stop_nonneg : 0 ≤ s.ring.stop
  stop_le : s.ring.stop ≤ 10
  inOrder : returned s.history <+: accepted s.history
  correct : ∀ before entry after, s.history = before ++ entry :: after → Correct before entry
  /-- A hart that waits for the mutex takes it when it is free. -/
  enters : ∀ h call, s.place h = .spins call → s.mutex ≠ mutexLocked →
    (act s (.step h)).place h = .tests call
  /-- Some hart has a mutex that is locked. -/
  held : s.mutex = mutexLocked → ∃ h call, (s.place h).call = some call
  /-- Any hart that has it ends its call. -/
  ends : ∀ h call, (s.place h).call = some call →
    ∃ t entry, Ends h s t entry ∧ entry.call = call ∧ Correct s.history entry
  /-- A whole critical section is the function on the ring. -/
  put : ∀ h c, s.place h = .tests (.put c) → ∃ t,
    Ends h s t (.put c (s.ring.stop < buffSize)) ∧ t.ring = ringPut s.ring c
  get : ∀ h, s.place h = .tests .get → ∃ t,
    Ends h s t (.get (ringGet s.ring).1 (s.ring.stop > 0)) ∧ t.ring = (ringGet s.ring).2
  /-- When nothing is unread, `ring_get` changes nothing. -/
  empty : ∀ h, s.place h = .tests .get → unread s.history = [] →
    ringGet s.ring = (0xff, s.ring)

end Sbi.RingBuff
