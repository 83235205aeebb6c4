import RiscvOs.Semantics.Memory
import RiscvOs.Semantics.Transition
import RiscvOs.Semantics.Circular

/-! `ringbuff.c`, the ring that the interrupts of the input devices fill and
the paint loop empties. `ring_push` runs inside an interrupt and is one step;
`ring_pop` can be interrupted between any two of its accesses. -/
namespace Kernel.Ringbuff

open Semantics Function

/-- `RingBufferBehavior` -/
inductive RingBufferBehavior where
  | overwrite
  | discard
  | error
  deriving DecidableEq

/-- `RingBuffer`; `first` is the field `at`. -/
structure RingBuffer where
  first : BitVec 32
  numElements : BitVec 32
  capacity : BitVec 32
  behavior : RingBufferBehavior
  buffer : Nat → Word

/-- The elements that the 10 pages of `ring_init` hold. -/
def ringSlots : Nat := 10 * 4096 / 8

def ringInit (capacity : BitVec 32) (behavior : RingBufferBehavior) : RingBuffer where
  first := 0
  numElements := 0
  capacity := capacity
  behavior := behavior
  buffer := fun _ => 0

/-- The end of `ring_push`, when there is room. -/
def ringStore (buf : RingBuffer) (elem : Word) : RingBuffer :=
  let b := (buf.first + buf.numElements) % buf.capacity
  { buf with
    buffer := update buf.buffer b.toNat elem
    numElements := buf.numElements + 1 }

def ringPush (buf : RingBuffer) (elem : Word) : Bool × RingBuffer :=
  if buf.capacity ≤ buf.numElements then
    match buf.behavior with
    | .discard => (true, buf)
    | .error => (false, buf)
    | .overwrite =>
        (true, ringStore { buf with
          numElements := buf.numElements - 1
          first := (buf.first + 1) % buf.capacity } elem)
  else (true, ringStore buf elem)

/-- Where `ring_pop` is, with what it has loaded. -/
inductive PopPlace where
  | idle
  /-- `num_elements` was not 0. -/
  | entered
  /-- `at` is loaded, for the element. -/
  | indexed (first : BitVec 32)
  /-- The element is in `*elem`. -/
  | taken (elem : Word)
  /-- `at` is loaded, to advance it. -/
  | advancing (elem : Word) (first : BitVec 32)
  /-- `at` is stored. -/
  | advanced (elem : Word)
  /-- `num_elements` is loaded, to decrease it. -/
  | decreasing (elem : Word) (num : BitVec 32)

/-- The ring, the place of `ring_pop`, and as a record the values that were
pushed and those that calls of `ring_pop` returned. -/
structure Shared where
  buf : RingBuffer
  place : PopPlace
  pushed : List Word
  popped : List Word

/-- One access of `ring_pop`; from `idle` it is a new call. -/
def popAccess (s : Shared) : Shared :=
  match s.place with
  | .idle => if s.buf.numElements = 0 then s else { s with place := .entered }
  | .entered => { s with place := .indexed s.buf.first }
  | .indexed first => { s with place := .taken (s.buf.buffer first.toNat) }
  | .taken elem => { s with place := .advancing elem s.buf.first }
  | .advancing elem first =>
      { s with place := .advanced elem, buf.first := (first + 1) % s.buf.capacity }
  | .advanced elem => { s with place := .decreasing elem s.buf.numElements }
  | .decreasing elem num =>
      { s with place := .idle, buf.numElements := num - 1, popped := s.popped ++ [elem] }

inductive Event where
  | push (elem : Word)
  | pop
  deriving DecidableEq

/-- An interrupt pushes an element, or `ring_pop` makes its next access. -/
inductive Step : Shared → Event → Shared → Prop where
  | push (s : Shared) (elem : Word) :
      Step s (.push elem) { s with
        buf := (ringPush s.buf elem).2, pushed := s.pushed ++ [elem] }
  | pop (s : Shared) : Step s .pop (popAccess s)

def initial (capacity : BitVec 32) (behavior : RingBufferBehavior) : Shared where
  buf := ringInit capacity behavior
  place := .idle
  pushed := []
  popped := []

/-- The pushed values that no call of `ring_pop` has returned. -/
def held (s : Shared) : List Word :=
  s.pushed.drop s.popped.length

/-- The values in the ring, oldest first. -/
def contents (buf : RingBuffer) : List Word :=
  window buf.buffer buf.capacity.toNat buf.first.toNat buf.numElements.toNat

/-- A push leaves the ring with fewer than `capacity` elements. -/
def NeverFull (s : Shared) : Event → Prop
  | .push _ => (held s).length + 1 < s.buf.capacity.toNat
  | .pop => True

instance (s : Shared) (event : Event) : Decidable (NeverFull s event) :=
  match event with
  | .push _ => inferInstanceAs (Decidable (_ < _))
  | .pop => inferInstanceAs (Decidable True)

/-- The call of `ring_pop` has stored `at` and not yet `num_elements`. -/
def Torn : PopPlace → Prop
  | .advanced _ => True
  | .decreasing _ _ => True
  | _ => False

end Kernel.Ringbuff
