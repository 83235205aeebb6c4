import RiscvOs.Semantics.Memory
import RiscvOs.Semantics.Transition
import RiscvOs.Semantics.Ring

/-! `map.c`, maps from 64-bit keys to pointers. The elements are a circular
doubly linked list through the element `head` of the map, at the address of the
map. Loops have no result when their fuel runs out. -/
namespace Kernel.Map

open Semantics Function

/-- The fields of `MapElem`, by the address of the element. -/
structure Elems where
  key : Word → Word
  value : Word → Word
  next : Word → Word
  prev : Word → Word

/-- The memory of a map, and the elements that `kzalloc` returned and that were
not freed, in the order of their allocation. -/
structure Heap where
  elems : Elems
  live : List Word

/-- What a block holds. -/
structure Elem where
  key : Word
  value : Word
  next : Word
  prev : Word

def Elems.write (m : Elems) (a : Word) (e : Elem) : Elems where
  key := update m.key a e.key
  value := update m.value a e.value
  next := update m.next a e.next
  prev := update m.prev a e.prev

def setNext (m : Elems) (a next : Word) : Elems :=
  { m with next := update m.next a next }

def setPrev (m : Elems) (a prev : Word) : Elems :=
  { m with prev := update m.prev a prev }

/-- `kzalloc(sizeof(MapElem))` when it returns `l`. -/
def kzalloc (h : Heap) (l : Word) : Heap where
  elems := h.elems.write l ⟨0, 0, 0, 0⟩
  live := h.live ++ [l]

/-- `kfree`; it may write into the element, and `scrap` is what it leaves there. -/
def kfree (scrap : Word → Elem) (h : Heap) (e : Word) : Heap where
  elems := h.elems.write e (scrap e)
  live := h.live.erase e

def mapInit (m : Elems) (mp : Word) : Heap where
  elems := setPrev (setNext m mp mp) mp mp
  live := []

/-- `map_for_each` from the element `e`: the first element that passes the test,
or none if the loop ends at the head. -/
def mapForEach (m : Elems) (mp : Word) (test : Word → Bool) : Nat → Word → Option (Option Word)
  | 0, _ => none
  | fuel + 1, e =>
      if e = mp then some none
      else if test e then some (some e)
      else mapForEach m mp test fuel (m.prev e)

/-- `map_for_each_descending` with an empty body, from the element `e`: where
the loop variable is at the end. -/
def mapDescend (m : Elems) (mp : Word) : Nat → Word → Option Word
  | 0, _ => none
  | fuel + 1, e => if e = mp then some e else mapDescend m mp fuel (m.prev e)

def mapFindElem (fuel : Nat) (m : Elems) (mp key : Word) : Option Word := do
  let found ← mapForEach m mp (fun e => m.key e == key) fuel (m.prev mp)
  some (found.getD 0)

def mapFind (fuel : Nat) (m : Elems) (mp key : Word) : Option Word := do
  let e ← mapFindElem fuel m mp key
  some (if e = 0 then 0 else m.value e)

/-- The end of `map_add`. -/
def mapStore (h : Heap) (l key value : Word) : Heap :=
  { h with elems := { h.elems with
      key := update h.elems.key l key, value := update h.elems.value l value } }

/-- The new element `l` behind the element `e`, in `map_add`. -/
def mapLink (m : Elems) (e l : Word) : Elems :=
  let m := setNext m l (m.next e)
  let m := setPrev m l e
  let m := setPrev m (m.next l) l
  setNext m (m.prev l) l

/-- `map_add`, where `kzalloc` returns `node` if it is called. -/
def mapAdd (fuel : Nat) (h : Heap) (mp key value node : Word) : Option Heap := do
  let l ← mapFindElem fuel h.elems mp key
  if l = 0 then
    let l := node
    let h := kzalloc h l
    let e ← mapDescend h.elems mp fuel (h.elems.prev mp)
    some (mapStore { h with elems := mapLink h.elems e l } l key value)
  else some (mapStore h l key value)

/-- The links around an element that leaves the list. -/
def mapUnlink (m : Elems) (e : Word) : Elems :=
  let m := setPrev m (m.next e) (m.prev e)
  setNext m (m.prev e) (m.next e)

def mapRemoveElem (scrap : Word → Elem) (h : Heap) (e : Word) : Word × Heap :=
  let ret := h.elems.value e
  (ret, kfree scrap { h with elems := mapUnlink h.elems e } e)

/-- The loop of `map_remove` and of `map_remove_by_value`. -/
def mapRemoveFirst (scrap : Word → Elem) (fuel : Nat) (h : Heap) (mp : Word)
    (test : Word → Bool) : Option (Word × Heap) := do
  let found ← mapForEach h.elems mp test fuel (h.elems.prev mp)
  match found with
  | none => some (0, h)
  | some e => some (h.elems.value e, (mapRemoveElem scrap h e).2)

def mapRemove (scrap : Word → Elem) (fuel : Nat) (h : Heap) (mp key : Word) :
    Option (Word × Heap) :=
  mapRemoveFirst scrap fuel h mp fun e => h.elems.key e == key

def mapRemoveByValue (scrap : Word → Elem) (fuel : Nat) (h : Heap) (mp value : Word) :
    Option (Word × Heap) :=
  mapRemoveFirst scrap fuel h mp fun e => h.elems.value e == value

/-- The loop of `map_clear`. -/
def clearLoop (scrap : Word → Elem) (mp : Word) : Nat → Heap → Word → Option Heap
  | 0, _, _ => none
  | fuel + 1, h, e =>
      if e = mp then some h
      else
        let n := h.elems.next e
        clearLoop scrap mp fuel (mapRemoveElem scrap h e).2 n

def mapClear (scrap : Word → Elem) (fuel : Nat) (h : Heap) (mp : Word) : Option Heap :=
  clearLoop scrap mp fuel h (h.elems.next mp)

inductive Call where
  | add (key value : Word)
  | remove (key : Word)
  | removeByValue (value : Word)
  | clear

/-- What the allocator does in a call: the element that `kzalloc` returns, and
what `kfree` leaves in the elements. -/
structure Allocator where
  node : Word
  scrap : Word → Elem

/-- A call with its result; calls without a result have 0. -/
def mapCall (alloc : Allocator) (fuel : Nat) (h : Heap) (mp : Word) :
    Call → Option (Word × Heap)
  | .add key value => (mapAdd fuel h mp key value alloc.node).map fun h => (0, h)
  | .remove key => mapRemove alloc.scrap fuel h mp key
  | .removeByValue value => mapRemoveByValue alloc.scrap fuel h mp value
  | .clear => (mapClear alloc.scrap fuel h mp).map fun h => (0, h)

/-- The element is not `NULL`, not in the map and not in use. -/
def Fresh (mp : Word) (h : Heap) (node : Word) : Prop :=
  node ≠ 0 ∧ node ≠ mp ∧ node ∉ h.live

/-- The call returns: with enough fuel it has this result. -/
def Returns (alloc : Allocator) (h : Heap) (mp : Word) (call : Call) (result : Word)
    (h' : Heap) : Prop :=
  ∃ least, ∀ fuel, least ≤ fuel → mapCall alloc fuel h mp call = some (result, h')

/-- If the call allocates an element, it gets a fresh one. -/
def Allocates (mp : Word) (h : Heap) (node : Word) : Call → Prop
  | .add _ _ => Fresh mp h node
  | _ => True

/-- A call on the map, with its result. -/
inductive Step (mp : Word) : Heap → Call × Word → Heap → Prop where
  | call {h h' : Heap} {call : Call} {result : Word} (alloc : Allocator)
      (hFresh : Allocates mp h alloc.node call) (hReturns : Returns alloc h mp call result h') :
      Step mp h (call, result) h'

end Kernel.Map
