import RiscvOs.Kernel.RingbuffRuns
import RiscvOs.Semantics.Calls

/-! The ring as a bounded queue, when the calls of `ring_push` and `ring_pop`
do not interrupt each other. -/
namespace Kernel.Ringbuff

open Semantics Function

variable {buf : RingBuffer} {capacity : BitVec 32} {behavior : RingBufferBehavior}

/-- `ring_pop`: its result, what it stores in `*elem`, and the ring. -/
def ringPop (buf : RingBuffer) : Bool × Option Word × RingBuffer :=
  if buf.numElements = 0 then (false, none, buf)
  else (true, some (buf.buffer buf.first.toNat), { buf with
    first := (buf.first + 1) % buf.capacity
    numElements := buf.numElements - 1 })

/-- Without an interrupt the accesses of `ring_pop` have the effect of one step. -/
theorem popAccess_ringPop (s : Shared) (hIdle : s.place = .idle) (hSome : s.buf.numElements ≠ 0) :
    ∃ elem, ringPop s.buf = (true, some elem, (popAccess^[7] s).buf) ∧
      popAccess^[7] s = { s with
        buf := (ringPop s.buf).2.2, place := .idle, popped := s.popped ++ [elem] } := by
  obtain ⟨buf, place, pushed, popped⟩ := s
  subst hIdle
  have hEntered : popAccess ⟨buf, .idle, pushed, popped⟩ = ⟨buf, .entered, pushed, popped⟩ :=
    if_neg hSome
  have hPop : ringPop buf = (true, some (buf.buffer buf.first.toNat), { buf with
      first := (buf.first + 1) % buf.capacity, numElements := buf.numElements - 1 }) :=
    if_neg hSome
  refine ⟨buf.buffer buf.first.toNat, ?_, ?_⟩
  · rw [hPop, iterate_succ_apply, hEntered]
    rfl
  · rw [hPop, iterate_succ_apply, hEntered]
    rfl

inductive Call where
  | push (elem : Word)
  | pop

/-- A call on the ring, with its result and what it stores in `*elem`. -/
def ringCall (buf : RingBuffer) : Call → RingBuffer × Bool × Option Word
  | .push elem => ((ringPush buf elem).2, (ringPush buf elem).1, none)
  | .pop => ((ringPop buf).2.2, (ringPop buf).1, (ringPop buf).2.1)

/-- A push on a queue of at most `capacity` elements, oldest first. -/
def queuePush (capacity : Nat) (behavior : RingBufferBehavior) (queue : List Word)
    (elem : Word) : Bool × List Word :=
  if queue.length < capacity then (true, queue ++ [elem])
  else match behavior with
    | .discard => (true, queue)
    | .error => (false, queue)
    | .overwrite => (true, queue.tail ++ [elem])

def queuePop : List Word → Bool × Option Word × List Word
  | [] => (false, none, [])
  | elem :: rest => (true, some elem, rest)

def queueCall (capacity : Nat) (behavior : RingBufferBehavior) (queue : List Word) :
    Call → List Word × Bool × Option Word
  | .push elem => ((queuePush capacity behavior queue elem).2,
      (queuePush capacity behavior queue elem).1, none)
  | .pop => ((queuePop queue).2.2, (queuePop queue).1, (queuePop queue).2.1)

/-- The ring holds the queue, and nothing behind its pages was written. -/
structure Represents (capacity : BitVec 32) (behavior : RingBufferBehavior) (buf : RingBuffer)
    (queue : List Word) : Prop where
  capacity_eq : buf.capacity = capacity
  behavior_eq : buf.behavior = behavior
  first_lt : buf.first.toNat < capacity.toNat
  count_le : queue.length ≤ capacity.toNat
  count : buf.numElements.toNat = queue.length
  contents_eq : contents buf = queue
  outside : ∀ i, ringSlots ≤ i → buf.buffer i = 0

namespace Represents

variable {queue : List Word}

theorem ringInit (hPos : 0 < capacity.toNat) :
    Represents capacity behavior (ringInit capacity behavior) [] where
  capacity_eq := rfl
  behavior_eq := rfl
  first_lt := hPos
  count_le := Nat.zero_le _
  count := rfl
  contents_eq := rfl
  outside _ _ := rfl

theorem fits (h : Represents capacity behavior buf queue) (hSlots : capacity.toNat ≤ ringSlots)
    (hRoom : queue.length < capacity.toNat) : Fits buf where
  capacity := by rw [h.capacity_eq]; exact hSlots
  first := by rw [h.capacity_eq]; exact h.first_lt
  room := by rw [h.capacity_eq, h.count]; exact hRoom

/-- The ring is full exactly if the queue is. -/
theorem full_iff (h : Represents capacity behavior buf queue) :
    buf.capacity ≤ buf.numElements ↔ ¬ queue.length < capacity.toNat := by
  rw [BitVec.le_def, h.capacity_eq, h.count, Nat.not_lt]

/-- The end of `ring_push` appends. -/
theorem ringStore (h : Represents capacity behavior buf queue)
    (hSlots : capacity.toNat ≤ ringSlots) (hRoom : queue.length < capacity.toNat) (elem : Word) :
    Represents capacity behavior (ringStore buf elem) (queue ++ [elem]) := by
  have hFits := h.fits hSlots hRoom
  have hCapacity := h.capacity_eq
  refine ⟨h.capacity_eq, h.behavior_eq, h.first_lt, ?_, ?_, ?_, ?_⟩
  · rw [List.length_append, List.length_singleton]
    exact hRoom
  · change (buf.numElements + 1).toNat = _
    rw [hFits.toNat_succ, h.count, List.length_append, List.length_singleton]
  · rw [hFits.contents_ringStore, h.contents_eq]
  · intro i hi
    have hSlot : ((buf.first + buf.numElements) % buf.capacity).toNat < capacity.toNat := by
      rw [hFits.slot, hCapacity]
      exact Nat.mod_lt _ (by omega)
    change update buf.buffer _ elem i = 0
    rw [update_of_ne (by omega)]
    exact h.outside i hi

/-- The start and the count move past the oldest element, in `ring_pop` and in
a `ring_push` that overwrites. -/
theorem advance {elem : Word} {rest : List Word}
    (h : Represents capacity behavior buf (elem :: rest)) (hSlots : capacity.toNat ≤ ringSlots) :
    buf.buffer buf.first.toNat = elem ∧
      Represents capacity behavior { buf with
        first := (buf.first + 1) % buf.capacity
        numElements := buf.numElements - 1 } rest := by
  have hFirst := h.first_lt
  have hCount := h.count
  have hLe := h.count_le
  have hContents := h.contents_eq
  rw [List.length_cons] at hCount hLe
  have hLess : (buf.numElements - 1).toNat = rest.length := by
    bv_omega
  have hNext : ((buf.first + 1) % buf.capacity).toNat =
      (buf.first.toNat + 1) % capacity.toNat := by
    have hCapacity := h.capacity_eq
    rw [toNat_next (by rw [hCapacity]; exact hSlots) (by rw [hCapacity]; exact hFirst), hCapacity]
  unfold contents at hContents
  rw [hCount, window_eq_cons, h.capacity_eq, Nat.mod_eq_of_lt hFirst] at hContents
  obtain ⟨hElem, hRest⟩ := List.cons.inj hContents
  refine ⟨hElem, h.capacity_eq, h.behavior_eq, ?_, ?_, hLess, ?_, h.outside⟩
  · change ((buf.first + 1) % buf.capacity).toNat < _
    rw [hNext]
    exact Nat.mod_lt _ (by omega)
  · omega
  · change window buf.buffer buf.capacity.toNat ((buf.first + 1) % buf.capacity).toNat
      (buf.numElements - 1).toNat = rest
    rw [hNext, hLess, h.capacity_eq, window_mod]
    exact hRest

/-- `ring_push` against the queue; on a full ring the behaviour decides. -/
theorem push (h : Represents capacity behavior buf queue) (hPos : 0 < capacity.toNat)
    (hSlots : capacity.toNat ≤ ringSlots) (elem : Word) :
    Represents capacity behavior (ringPush buf elem).2
        (queuePush capacity.toNat behavior queue elem).2 ∧
      (ringPush buf elem).1 = (queuePush capacity.toNat behavior queue elem).1 := by
  unfold queuePush
  by_cases hRoom : queue.length < capacity.toNat
  · rw [(h.fits hSlots hRoom).ringPush, if_pos hRoom]
    exact ⟨h.ringStore hSlots hRoom elem, rfl⟩
  · have hFull := h.full_iff.mpr hRoom
    have hBehavior := h.behavior_eq
    unfold ringPush
    rw [if_pos hFull, if_neg hRoom]
    cases behavior with
    | discard =>
        rw [hBehavior]
        exact ⟨h, rfl⟩
    | error =>
        rw [hBehavior]
        exact ⟨h, rfl⟩
    | overwrite =>
        rw [hBehavior]
        cases queue with
        | nil => exact absurd hPos hRoom
        | cons oldest rest =>
            have hNext := (h.advance hSlots).2.ringStore hSlots h.count_le elem
            rw [hBehavior] at hNext
            exact ⟨hNext, rfl⟩

/-- `ring_pop` against the queue. -/
theorem pop (h : Represents capacity behavior buf queue) (hSlots : capacity.toNat ≤ ringSlots) :
    Represents capacity behavior (ringPop buf).2.2 (queuePop queue).2.2 ∧
      (ringPop buf).1 = (queuePop queue).1 ∧ (ringPop buf).2.1 = (queuePop queue).2.1 := by
  have hCount := h.count
  cases queue with
  | nil =>
      have hEmpty : ringPop buf = (false, none, buf) :=
        if_pos (BitVec.eq_of_toNat_eq hCount)
      rw [hEmpty]
      exact ⟨h, rfl, rfl⟩
  | cons elem rest =>
      have hSome : buf.numElements ≠ 0 := by
        intro hZero
        rw [hZero] at hCount
        cases hCount
      obtain ⟨hElem, hRest⟩ := h.advance hSlots
      have hPop : ringPop buf = (true, some (buf.buffer buf.first.toNat), { buf with
          first := (buf.first + 1) % buf.capacity, numElements := buf.numElements - 1 }) :=
        if_neg hSome
      rw [hPop, hElem]
      exact ⟨hRest, rfl, rfl⟩

end Represents

/-- The ring refines the bounded queue. -/
theorem ringCall_refines (hPos : 0 < capacity.toNat) (hSlots : capacity.toNat ≤ ringSlots) :
    Refines ringCall (queueCall capacity.toNat behavior) (Represents capacity behavior) := by
  intro buf queue call h
  cases call with
  | push elem =>
      obtain ⟨hNext, hResult⟩ := h.push hPos hSlots elem
      exact ⟨hNext, congrArg (·, none) hResult⟩
  | pop =>
      obtain ⟨hNext, hResult, hStored⟩ := h.pop hSlots
      exact ⟨hNext, congrArg₂ Prod.mk hResult hStored⟩

/-- What is promised of a ring after a list of calls: its contents are those of
the queue, at most `capacity` elements; every call had the result of the queue;
`ring_pop` fails and writes nothing exactly on the empty queue, and a full ring
is not changed unless it overwrites. -/
structure BehavesAsQueue (capacity : BitVec 32) (behavior : RingBufferBehavior)
    (list : List Call) : Prop where
  contents_eq : contents (calls ringCall (ringInit capacity behavior) list).1 =
    (calls (queueCall capacity.toNat behavior) [] list).1
  bounded : (calls (queueCall capacity.toNat behavior) [] list).1.length ≤ capacity.toNat
  outputs_eq : (calls ringCall (ringInit capacity behavior) list).2 =
    (calls (queueCall capacity.toNat behavior) [] list).2
  pop_empty : (ringPop (calls ringCall (ringInit capacity behavior) list).1 =
      (false, none, (calls ringCall (ringInit capacity behavior) list).1)) ↔
    (calls (queueCall capacity.toNat behavior) [] list).1 = []
  push_full : behavior ≠ .overwrite →
    (calls (queueCall capacity.toNat behavior) [] list).1.length = capacity.toNat →
    ∀ elem, ringPush (calls ringCall (ringInit capacity behavior) list).1 elem =
      (behavior == .discard, (calls ringCall (ringInit capacity behavior) list).1)
  outside : ∀ i, ringSlots ≤ i →
    (calls ringCall (ringInit capacity behavior) list).1.buffer i = 0

/-- For every capacity that the buffer can hold and every behaviour the ring is
a bounded queue along every list of calls. -/
theorem behavesAsQueue (hPos : 0 < capacity.toNat) (hSlots : capacity.toNat ≤ ringSlots)
    (list : List Call) : BehavesAsQueue capacity behavior list := by
  have hRefines : Refines ringCall (queueCall capacity.toNat behavior)
      (Represents capacity behavior) := ringCall_refines hPos hSlots
  obtain ⟨h, hOutputs⟩ := hRefines.calls list (Represents.ringInit hPos)
  refine ⟨h.contents_eq, h.count_le, hOutputs, ?_, ?_, h.outside⟩
  · have hCount := h.count
    rw [← List.length_eq_zero_iff, ← hCount]
    constructor
    · intro hPop
      by_contra hSome
      have hSome' : (calls ringCall (ringInit capacity behavior) list).1.numElements ≠ 0 :=
        fun hZero => hSome (by rw [hZero]; rfl)
      rw [ringPop, if_neg hSome'] at hPop
      exact Bool.noConfusion (congrArg Prod.fst hPop)
    · intro hZero
      exact if_pos (BitVec.eq_of_toNat_eq hZero)
  · intro hBehavior hFull elem
    have hLe := h.full_iff.mpr (by omega)
    unfold ringPush
    rw [if_pos hLe, h.behavior_eq]
    cases behavior with
    | discard => rfl
    | error => rfl
    | overwrite => exact absurd rfl hBehavior

/-- A ring of three elements that overwrites, pushed beyond its end. -/
theorem behavesAsQueue_three : BehavesAsQueue 3 .overwrite
    [.push 1, .push 2, .push 3, .push 4, .pop, .push 5, .push 6, .pop, .pop, .pop, .pop] :=
  behavesAsQueue (by decide) (by decide) _

end Kernel.Ringbuff
