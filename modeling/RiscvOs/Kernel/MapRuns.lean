import RiscvOs.Kernel.Map

/-! Maps over any sequence of calls. The loops follow the `prev` links, so the
elements are listed in that order, the oldest first; with the two link fields
exchanged they are a ring in the sense of `Ring`. -/
namespace Kernel.Map

open Semantics Function

variable {m m' : Elems} {h h' : Heap} {mp key value e l : Word} {xs ys nodes : List Word}
  {test : Word → Bool} {fuel : Nat} {scrap : Word → Elem}

/-! ## Specification -/

/-- The value last added for every key and not removed since. -/
abbrev Contents := Word → Option Word

/-- A call on the contents, with its result. Of the keys with the value,
`map_remove_by_value` may take any. -/
inductive Spec : Contents → Call × Word → Contents → Prop where
  | add (contents : Contents) (key value : Word) :
      Spec contents (.add key value, 0) (update contents key (some value))
  | remove (contents : Contents) (key : Word) :
      Spec contents (.remove key, (contents key).getD 0) (update contents key none)
  | removeByValue (contents : Contents) (key value : Word) (hValue : contents key = some value) :
      Spec contents (.removeByValue value, value) (update contents key none)
  | removeMissing (contents : Contents) (value : Word) (hNone : ∀ key, contents key ≠ some value) :
      Spec contents (.removeByValue value, 0) contents
  | clear (contents : Contents) : Spec contents (.clear, 0) fun _ => none

/-- Either no element passes the test, and nothing changes; or one that does is
unlinked and freed, and its value is the result. -/
def Unlinks (h : Heap) (test : Word → Prop) (result : Word) (h' : Heap) : Prop :=
  ((∀ e ∈ h.live, ¬ test e) ∧ result = 0 ∧ h' = h) ∨
    ∃ e ∈ h.live, test e ∧ result = h.elems.value e ∧ h'.live = h.live.erase e

/-- The elements are linked in both directions through the head, their keys are
distinct, and they are the contents. -/
structure Represents (mp : Word) (h : Heap) (contents : Contents) : Prop where
  ring : Ring h.elems.prev h.elems.next mp h.live
  keys : (h.live.map h.elems.key).Nodup
  nonNull : 0 ∉ h.live
  contents_iff : ∀ key value, contents key = some value ↔
    ∃ e ∈ h.live, h.elems.key e = key ∧ h.elems.value e = value

/-- What is promised of a map with these contents. -/
structure Sound (mp : Word) (h : Heap) (contents : Contents) : Prop where
  represents : Represents mp h contents
  find : ∀ key, ∃ least, ∀ fuel, least ≤ fuel →
    mapFind fuel h.elems mp key = some ((contents key).getD 0)
  returns : ∀ call alloc, Allocates mp h alloc.node call →
    ∃ result h', Returns alloc h mp call result h'
  remove : ∀ alloc key result h', Returns alloc h mp (.remove key) result h' →
    Unlinks h (h.elems.key · = key) result h'
  removeByValue : ∀ alloc value result h', Returns alloc h mp (.removeByValue value) result h' →
    Unlinks h (h.elems.value · = value) result h'

/-! ## Loops -/

/-- A step of a loop to the next element of the list. -/
theorem ring_walk {y : Word} {rest : List Word} (hRing : Ring m.prev m.next mp (xs ++ y :: rest)) :
    y ≠ mp ∧ m.prev y = rest.headD mp ∧ Ring m.prev m.next mp ((xs ++ [y]) ++ rest) := by
  refine ⟨?_, hRing.links_of_split.1, by rwa [List.append_assoc]⟩
  rintro rfl
  exact hRing.nodup_of_split.1 List.mem_cons_self

theorem mapForEach_spec (hRing : Ring m.prev m.next mp (xs ++ ys)) (test : Word → Bool)
    (hFuel : ys.length < fuel) :
    mapForEach m mp test fuel (ys.headD mp) = some (ys.find? test) := by
  induction ys generalizing xs fuel with
  | nil =>
      cases fuel with
      | zero => cases hFuel
      | succ fuel => exact if_pos rfl
  | cons y rest ih =>
      cases fuel with
      | zero => cases hFuel
      | succ fuel =>
          obtain ⟨hHead, hNext, hRest⟩ := ring_walk hRing
          change mapForEach m mp test (fuel + 1) y = _
          unfold mapForEach
          rw [if_neg hHead, List.find?_cons, hNext]
          cases test y with
          | true => rfl
          | false => exact ih hRest (Nat.lt_of_succ_lt_succ hFuel)

theorem mapDescend_spec (hRing : Ring m.prev m.next mp (xs ++ ys)) (hFuel : ys.length < fuel) :
    mapDescend m mp fuel (ys.headD mp) = some mp := by
  induction ys generalizing xs fuel with
  | nil =>
      cases fuel with
      | zero => cases hFuel
      | succ fuel => exact if_pos rfl
  | cons y rest ih =>
      cases fuel with
      | zero => cases hFuel
      | succ fuel =>
          obtain ⟨hHead, hNext, hRest⟩ := ring_walk hRing
          change mapDescend m mp (fuel + 1) y = _
          unfold mapDescend
          rw [if_neg hHead, hNext]
          exact ih hRest (Nat.lt_of_succ_lt_succ hFuel)

/-- The loops over the whole list. -/
theorem mapForEach_all (hRing : Ring m.prev m.next mp nodes) (test : Word → Bool)
    (hFuel : nodes.length < fuel) :
    mapForEach m mp test fuel (m.prev mp) = some (nodes.find? test) := by
  have hAll : Ring m.prev m.next mp ([] ++ nodes) := hRing
  rw [hRing.first]
  exact mapForEach_spec hAll test hFuel

theorem mapDescend_all (hRing : Ring m.prev m.next mp nodes) (hFuel : nodes.length < fuel) :
    mapDescend m mp fuel (m.prev mp) = some mp := by
  have hAll : Ring m.prev m.next mp ([] ++ nodes) := hRing
  rw [hRing.first]
  exact mapDescend_spec hAll hFuel

/-! ## Links -/

/-- The new element between `e` and the next one. -/
theorem mapLink_next (hNext : m.next e ≠ l) :
    (mapLink m e l).next = update (update m.next l (m.next e)) e l := by
  unfold mapLink setNext setPrev
  simp only [update_self, update_of_ne hNext.symm]

theorem mapLink_prev : (mapLink m e l).prev = update (update m.prev l e) (m.next e) l := by
  unfold mapLink setNext setPrev
  simp only [update_self]

theorem ring_mapLink (hRing : Ring m.prev m.next mp nodes) (hHead : l ≠ mp) (hNew : l ∉ nodes) :
    Ring (mapLink m mp l).prev (mapLink m mp l).next mp (nodes ++ [l]) := by
  have hLast : m.next mp = nodes.getLastD mp := hRing.last
  have hMem : nodes.getLastD mp ∈ mp :: nodes := List.getLastD_mem_cons
  have hOther : l ∉ mp :: nodes := by
    rw [List.mem_cons, not_or]
    exact ⟨hHead, hNew⟩
  have hNe {x : Word} (hx : x ∈ mp :: nodes) : x ≠ l := by
    rintro rfl
    exact hOther hx
  have hLastNe : nodes.getLastD mp ≠ l := hNe hMem
  rw [mapLink_next (by rw [hLast]; exact hLastNe), mapLink_prev, hLast]
  have hEnd : Ring m.prev m.next mp (nodes ++ []) := by rwa [List.append_nil]
  apply hEnd.insert
  · rwa [List.append_nil]
  · rw [update_of_ne hLastNe.symm, update_self, List.headD_nil]
  · rw [update_of_ne hHead, update_self]
  · exact update_self _ _ _
  · exact update_self _ _ _
  · intro x hx hxLast
    rw [List.append_nil] at hx
    rw [update_of_ne hxLast, update_of_ne (hNe hx)]
  · intro x hx hxHead
    rw [List.append_nil] at hx
    rw [List.headD_nil] at hxHead
    rw [update_of_ne hxHead, update_of_ne (hNe hx)]

theorem ring_mapUnlink (hRing : Ring m.prev m.next mp (xs ++ e :: ys)) :
    Ring (mapUnlink m e).prev (mapUnlink m e).next mp (xs ++ ys) := by
  obtain ⟨hPrev, hNext⟩ := hRing.links_of_split
  obtain ⟨hNew, -⟩ := hRing.nodup_of_split
  obtain ⟨hLast, -⟩ := Ring.neighbours_mem mp xs ys
  have hLastNe : e ≠ xs.getLastD mp := by
    intro hEq
    rw [hEq] at hNew
    exact hNew hLast
  have hUnlink : mapUnlink m e = { m with
      prev := update m.prev (xs.getLastD mp) (ys.headD mp)
      next := update m.next (ys.headD mp) (xs.getLastD mp) } := by
    unfold mapUnlink setNext setPrev
    simp only [hPrev, hNext, update_of_ne hLastNe]
  rw [hUnlink]
  apply hRing.remove
  · exact update_self _ _ _
  · exact update_self _ _ _
  · intro x _ hxLast
    exact update_of_ne hxLast _ _
  · intro x _ hxHead
    exact update_of_ne hxHead _ _

/-- What lies outside the list does not matter. -/
theorem ring_write (hRing : Ring m.prev m.next mp nodes) (hNew : l ∉ mp :: nodes) (x : Elem) :
    Ring (m.write l x).prev (m.write l x).next mp nodes := by
  have hNe {y : Word} (hy : y ∈ mp :: nodes) : y ≠ l := by
    rintro rfl
    exact hNew hy
  apply hRing.congr
  · intro y hy
    exact update_of_ne (hNe hy) _ _
  · intro y hy
    exact update_of_ne (hNe hy) _ _

/-! ## Operations -/

namespace Represents

variable {contents : Contents} (hMap : Represents mp h contents)
include hMap

theorem eq_of_key {a b : Word} (ha : a ∈ h.live) (hb : b ∈ h.live)
    (hKey : h.elems.key a = h.elems.key b) : a = b :=
  List.inj_on_of_nodup_map hMap.keys ha hb hKey

theorem ne_zero {a : Word} (ha : a ∈ h.live) : a ≠ 0 := by
  rintro rfl
  exact hMap.nonNull ha

theorem ne_head {a : Word} (ha : a ∈ h.live) : a ≠ mp := by
  rintro rfl
  exact (List.nodup_cons.mp hMap.ring.nodup).1 ha

/-- No element has the key. -/
theorem contents_none (hNone : h.live.find? (h.elems.key · == key) = none) :
    contents key = none ∧ ∀ e ∈ h.live, h.elems.key e ≠ key := by
  have hOther (e : Word) (he : e ∈ h.live) : h.elems.key e ≠ key := by
    simpa using List.find?_eq_none.mp hNone e he
  refine ⟨?_, hOther⟩
  cases hValue : contents key with
  | none => rfl
  | some value =>
      obtain ⟨e, he, hKey, -⟩ := (hMap.contents_iff key value).mp hValue
      exact absurd hKey (hOther e he)

/-- The element that has the key. -/
theorem contents_some (hSome : h.live.find? (h.elems.key · == key) = some e) :
    e ∈ h.live ∧ h.elems.key e = key ∧ contents key = some (h.elems.value e) := by
  have hMem := List.mem_of_find?_eq_some hSome
  have hKey : h.elems.key e = key := by simpa using List.find?_some hSome
  exact ⟨hMem, hKey, (hMap.contents_iff key _).mpr ⟨e, hMem, hKey, rfl⟩⟩

theorem mapFindElem_spec (hFuel : h.live.length < fuel) :
    mapFindElem fuel h.elems mp key =
      some ((h.live.find? (h.elems.key · == key)).getD 0) := by
  unfold mapFindElem
  rw [mapForEach_all hMap.ring _ hFuel]
  rfl

theorem mapFind_spec (hFuel : h.live.length < fuel) :
    mapFind fuel h.elems mp key = some ((contents key).getD 0) := by
  unfold mapFind
  rw [hMap.mapFindElem_spec hFuel]
  cases hFind : h.live.find? (h.elems.key · == key) with
  | none =>
      rw [(hMap.contents_none hFind).1]
      rfl
  | some e =>
      obtain ⟨hMem, -, hValue⟩ := hMap.contents_some hFind
      rw [hValue]
      exact congrArg some (if_neg (hMap.ne_zero hMem))

/-- `map_add` of a key that is present. -/
theorem mapStore (hMem : e ∈ h.live) (hKey : h.elems.key e = key) :
    Represents mp (mapStore h e key value) (update contents key (some value)) := by
  have hSame : update h.elems.key e key = h.elems.key := by
    rw [← hKey]
    exact update_eq_self e h.elems.key
  refine ⟨hMap.ring, ?_, hMap.nonNull, fun key' value' => ?_⟩
  · change (h.live.map (update h.elems.key e key)).Nodup
    rw [hSame]
    exact hMap.keys
  · change _ ↔ ∃ a ∈ h.live, update h.elems.key e key a = key' ∧
      update h.elems.value e value a = value'
    rw [hSame]
    by_cases hAt : key' = key
    · subst hAt
      rw [update_self]
      constructor
      · intro hEq
        exact ⟨e, hMem, hKey, by rw [update_self]; exact Option.some.inj hEq⟩
      · rintro ⟨a, ha, haKey, haValue⟩
        rw [hMap.eq_of_key ha hMem (haKey.trans hKey.symm), update_self] at haValue
        rw [haValue]
    · have hOther {a : Word} (haKey : h.elems.key a = key') : a ≠ e := by
        rintro rfl
        exact hAt (haKey.symm.trans hKey)
      rw [update_of_ne hAt, hMap.contents_iff]
      constructor
      · rintro ⟨a, ha, haKey, haValue⟩
        exact ⟨a, ha, haKey, by rwa [update_of_ne (hOther haKey)]⟩
      · rintro ⟨a, ha, haKey, haValue⟩
        rw [update_of_ne (hOther haKey)] at haValue
        exact ⟨a, ha, haKey, haValue⟩

/-- `map_add` of a key that is absent. -/
theorem mapInsert (hFresh : Fresh mp h l) (hAbsent : ∀ e ∈ h.live, h.elems.key e ≠ key) :
    Represents mp
      (Map.mapStore { kzalloc h l with elems := mapLink (kzalloc h l).elems mp l } l key value)
      (update contents key (some value)) := by
  obtain ⟨hNull, hHead, hNew⟩ := hFresh
  have hOutside : l ∉ mp :: h.live := by
    rw [List.mem_cons, not_or]
    exact ⟨hHead, hNew⟩
  have hNe {a : Word} (ha : a ∈ h.live) : a ≠ l := by
    rintro rfl
    exact hNew ha
  -- The zeroes of `kzalloc` are overwritten.
  have hKeys : update (update h.elems.key l 0) l key = update h.elems.key l key :=
    update_idem _ _ _
  have hValues : update (update h.elems.value l 0) l value = update h.elems.value l value :=
    update_idem _ _ _
  refine ⟨ring_mapLink (ring_write hMap.ring hOutside _) hHead hNew, ?_, ?_, fun key' value' => ?_⟩
  · change ((h.live ++ [l]).map (update (update h.elems.key l 0) l key)).Nodup
    rw [hKeys, List.map_append, List.map_singleton, update_self, ← List.concat_eq_append]
    have hOld : h.live.map (update h.elems.key l key) = h.live.map h.elems.key :=
      List.map_congr_left fun a ha => update_of_ne (hNe ha) _ _
    rw [hOld]
    refine List.Nodup.concat (fun hMem => ?_) hMap.keys
    obtain ⟨a, ha, haKey⟩ := List.mem_map.mp hMem
    exact hAbsent a ha haKey
  · intro hMem
    rcases List.mem_append.mp hMem with hMem | hMem
    · exact hMap.nonNull hMem
    · exact hNull (List.mem_singleton.mp hMem).symm
  · change _ ↔ ∃ a ∈ h.live ++ [l], update (update h.elems.key l 0) l key a = key' ∧
      update (update h.elems.value l 0) l value a = value'
    rw [hKeys, hValues]
    constructor
    · intro hEq
      by_cases hAt : key' = key
      · subst hAt
        rw [update_self] at hEq
        refine ⟨l, List.mem_append_right _ (List.mem_singleton_self l), update_self _ _ _, ?_⟩
        rw [update_self]
        exact Option.some.inj hEq
      · rw [update_of_ne hAt, hMap.contents_iff] at hEq
        obtain ⟨a, ha, haKey, haValue⟩ := hEq
        refine ⟨a, List.mem_append_left _ ha, ?_, ?_⟩
        · rwa [update_of_ne (hNe ha)]
        · rwa [update_of_ne (hNe ha)]
    · rintro ⟨a, ha, haKey, haValue⟩
      rcases List.mem_append.mp ha with ha | ha
      · rw [update_of_ne (hNe ha)] at haKey haValue
        have hAt : key' ≠ key := fun hEq => hAbsent a ha (haKey.trans hEq)
        rw [update_of_ne hAt, hMap.contents_iff]
        exact ⟨a, ha, haKey, haValue⟩
      · rw [List.mem_singleton.mp ha, update_self] at haKey haValue
        rw [← haKey, ← haValue, update_self]

/-- `map_remove_elem`. -/
theorem mapRemoveElem (hMem : e ∈ h.live) : Represents mp (mapRemoveElem scrap h e).2
    (update contents (h.elems.key e) none) := by
  obtain ⟨xs, ys, hSplit⟩ := List.append_of_mem hMem
  have hRing := hMap.ring
  have hKeys := hMap.keys
  rw [hSplit] at hRing hKeys
  have hNew := hRing.nodup_of_split.1
  rw [List.mem_cons, not_or] at hNew
  have hErase : h.live.erase e = xs ++ ys := by
    have hFirst : e ∉ xs := fun hx => hNew.2 (List.mem_append_left _ hx)
    rw [hSplit, List.erase_append_right _ hFirst, List.erase_cons_head]
  have hNe {a : Word} (ha : a ∈ xs ++ ys) : a ≠ e := by
    rintro rfl
    exact hNew.2 ha
  have hOld {a : Word} (ha : a ∈ xs ++ ys) : a ∈ h.live := by
    rw [← hErase] at ha
    exact List.mem_of_mem_erase ha
  have hRest : Ring _ _ mp (xs ++ ys) := ring_write (ring_mapUnlink hRing)
    (by rw [List.mem_cons, not_or]; exact hNew) (scrap e)
  refine ⟨?_, ?_, ?_, fun key' value' => ?_⟩
  · change Ring _ _ mp (h.live.erase e)
    rw [hErase]
    exact hRest
  · change ((h.live.erase e).map (update h.elems.key e (scrap e).key)).Nodup
    have hSame : (xs ++ ys).map (update h.elems.key e (scrap e).key) =
        (xs ++ ys).map h.elems.key :=
      List.map_congr_left fun a ha => update_of_ne (hNe ha) _ _
    rw [hErase, hSame]
    exact hKeys.sublist ((List.append_sublist_append_left xs).mpr (List.sublist_cons_self e ys)
      |>.map _)
  · exact fun hZero => hMap.nonNull (List.mem_of_mem_erase hZero)
  · change _ ↔ ∃ a ∈ h.live.erase e, update h.elems.key e (scrap e).key a = key' ∧
      update h.elems.value e (scrap e).value a = value'
    rw [hErase]
    by_cases hAt : key' = h.elems.key e
    · rw [hAt, update_self]
      refine ⟨nofun, ?_⟩
      rintro ⟨a, ha, haKey, -⟩
      rw [update_of_ne (hNe ha)] at haKey
      exact absurd (hMap.eq_of_key (hOld ha) hMem haKey) (hNe ha)
    · rw [update_of_ne hAt, hMap.contents_iff]
      constructor
      · rintro ⟨a, ha, haKey, haValue⟩
        have haNe : a ≠ e := by
          rintro rfl
          exact hAt haKey.symm
        have haRest : a ∈ xs ++ ys := by
          rw [← hErase]
          exact (List.mem_erase_of_ne haNe).mpr ha
        refine ⟨a, haRest, ?_, ?_⟩
        · rwa [update_of_ne haNe]
        · rwa [update_of_ne haNe]
      · rintro ⟨a, ha, haKey, haValue⟩
        rw [update_of_ne (hNe ha)] at haKey haValue
        exact ⟨a, hOld ha, haKey, haValue⟩

/-- The loop of `map_clear` frees the elements from the newest to the oldest. -/
theorem clearLoop_spec (scrap : Word → Elem) : ∃ h', Represents mp h' (fun _ => none) ∧
    ∀ fuel, h.live.length < fuel →
      clearLoop scrap mp fuel h (h.live.getLastD mp) = some h' := by
  induction hLength : h.live.length generalizing h contents with
  | zero =>
      have hEmpty := List.length_eq_zero_iff.mp hLength
      have hNone : contents = fun _ => none := by
        funext key
        cases hValue : contents key with
        | none => rfl
        | some value =>
            obtain ⟨e, he, -⟩ := (hMap.contents_iff key value).mp hValue
            rw [hEmpty] at he
            cases he
      refine ⟨h, hNone ▸ hMap, fun fuel hFuel => ?_⟩
      rw [hEmpty]
      cases fuel with
      | zero => cases hFuel
      | succ fuel => exact if_pos rfl
  | succ n ih =>
      have hSome : h.live ≠ [] := List.ne_nil_of_length_pos (by omega)
      obtain ⟨xs, e, hSplit⟩ : ∃ xs e, h.live = xs ++ [e] :=
        ⟨_, _, (List.dropLast_append_getLast hSome).symm⟩
      have hMem : e ∈ h.live := by
        rw [hSplit]
        exact List.mem_append_right _ (List.mem_singleton_self e)
      have hNext : h.elems.next e = xs.getLastD mp := by
        have hRing := hMap.ring
        rw [hSplit] at hRing
        exact hRing.links_of_split.2
      have hErase : (Map.mapRemoveElem scrap h e).2.live = xs := by
        have hNodup := (List.nodup_cons.mp hMap.ring.nodup).2
        rw [hSplit, List.nodup_append] at hNodup
        have hFirst : e ∉ xs := fun hx => hNodup.2.2 e hx e (List.mem_singleton_self e) rfl
        change h.live.erase e = xs
        rw [hSplit, List.erase_append_right _ hFirst, List.erase_cons_head, List.append_nil]
      have hCount : xs.length = n := by
        rw [hSplit, List.length_append, List.length_singleton] at hLength
        omega
      obtain ⟨h', hMap', hLoop⟩ := ih (hMap.mapRemoveElem hMem) (by rw [hErase, hCount])
      refine ⟨h', hMap', fun fuel hFuel => ?_⟩
      cases fuel with
      | zero => cases hFuel
      | succ fuel =>
          have hStep : clearLoop scrap mp (fuel + 1) h e =
              clearLoop scrap mp fuel (Map.mapRemoveElem scrap h e).2 (h.elems.next e) :=
            if_neg (hMap.ne_head hMem)
          rw [hErase] at hLoop
          rw [hSplit, List.getLastD_concat, hStep, hNext]
          exact hLoop fuel (Nat.lt_of_succ_lt_succ hFuel)

/-! ## Calls -/

theorem mapAdd_absent (hFind : h.live.find? (h.elems.key · == key) = none)
    (hFresh : Fresh mp h l) (hFuel : h.live.length < fuel) :
    mapAdd fuel h mp key value l = some (Map.mapStore
      { kzalloc h l with elems := mapLink (kzalloc h l).elems mp l } l key value) := by
  have hOutside : l ∉ mp :: h.live := by
    rw [List.mem_cons, not_or]
    exact hFresh.2
  have hDescend : mapDescend (kzalloc h l).elems mp fuel ((kzalloc h l).elems.prev mp) = some mp :=
    mapDescend_all (ring_write hMap.ring hOutside _) hFuel
  unfold mapAdd
  rw [hMap.mapFindElem_spec hFuel, hFind]
  change (do
    let e ← mapDescend (kzalloc h l).elems mp fuel ((kzalloc h l).elems.prev mp)
    some (Map.mapStore { kzalloc h l with elems := mapLink (kzalloc h l).elems e l }
      l key value)) = _
  rw [hDescend]
  rfl

theorem mapAdd_present (hFind : h.live.find? (h.elems.key · == key) = some e)
    (hFuel : h.live.length < fuel) :
    mapAdd fuel h mp key value l = some (Map.mapStore h e key value) := by
  unfold mapAdd
  rw [hMap.mapFindElem_spec hFuel, hFind]
  exact if_neg (hMap.ne_zero (hMap.contents_some hFind).1)

theorem returns_add (alloc : Allocator) (hFresh : Fresh mp h alloc.node) (key value : Word) :
    ∃ h', Returns alloc h mp (.add key value) 0 h' ∧
      Represents mp h' (update contents key (some value)) := by
  cases hFind : h.live.find? (h.elems.key · == key) with
  | none =>
      refine ⟨_, ⟨h.live.length + 1, fun fuel hFuel => ?_⟩,
        hMap.mapInsert hFresh (hMap.contents_none hFind).2⟩
      have hAdd : mapAdd fuel h mp key value alloc.node = _ :=
        hMap.mapAdd_absent hFind hFresh hFuel
      exact congrArg (Option.map fun h => (0, h)) hAdd
  | some e =>
      obtain ⟨hMem, hKey, -⟩ := hMap.contents_some hFind
      refine ⟨_, ⟨h.live.length + 1, fun fuel hFuel => ?_⟩, hMap.mapStore hMem hKey⟩
      have hAdd : mapAdd fuel h mp key value alloc.node = _ := hMap.mapAdd_present hFind hFuel
      exact congrArg (Option.map fun h => (0, h)) hAdd

theorem mapRemoveFirst_none (hNone : h.live.find? test = none)
    (hFuel : h.live.length < fuel) : mapRemoveFirst scrap fuel h mp test = some (0, h) := by
  unfold mapRemoveFirst
  rw [mapForEach_all hMap.ring _ hFuel, hNone]
  rfl

theorem mapRemoveFirst_some (hSome : h.live.find? test = some e)
    (hFuel : h.live.length < fuel) : mapRemoveFirst scrap fuel h mp test =
      some (h.elems.value e, (Map.mapRemoveElem scrap h e).2) := by
  unfold mapRemoveFirst
  rw [mapForEach_all hMap.ring _ hFuel, hSome]
  rfl

theorem returns_remove (alloc : Allocator) (key : Word) :
    ∃ h', Returns alloc h mp (.remove key) ((contents key).getD 0) h' ∧
      Represents mp h' (update contents key none) ∧
      Unlinks h (h.elems.key · = key) ((contents key).getD 0) h' := by
  cases hFind : h.live.find? (h.elems.key · == key) with
  | none =>
      obtain ⟨hNone, hOther⟩ := hMap.contents_none hFind
      refine ⟨h, ⟨h.live.length + 1, fun fuel hFuel => ?_⟩, ?_, .inl ⟨hOther, ?_, rfl⟩⟩
      · rw [hNone]
        exact hMap.mapRemoveFirst_none hFind hFuel
      · rw [← hNone, update_eq_self]
        exact hMap
      · rw [hNone]
        rfl
  | some e =>
      obtain ⟨hMem, hKey, hValue⟩ := hMap.contents_some hFind
      refine ⟨(Map.mapRemoveElem alloc.scrap h e).2, ⟨h.live.length + 1, fun fuel hFuel => ?_⟩,
        hKey ▸ hMap.mapRemoveElem hMem,
        .inr ⟨e, hMem, hKey, ?_, rfl⟩⟩
      · rw [hValue]
        exact hMap.mapRemoveFirst_some hFind hFuel
      · rw [hValue]
        rfl

theorem returns_removeByValue (alloc : Allocator) (value : Word) :
    ∃ result h' contents', Returns alloc h mp (.removeByValue value) result h' ∧
      Spec contents (.removeByValue value, result) contents' ∧ Represents mp h' contents' ∧
      Unlinks h (h.elems.value · = value) result h' := by
  cases hFind : h.live.find? (h.elems.value · == value) with
  | none =>
      have hOther (e : Word) (he : e ∈ h.live) : h.elems.value e ≠ value := by
        simpa using List.find?_eq_none.mp hFind e he
      refine ⟨0, h, contents, ⟨h.live.length + 1, fun fuel hFuel => ?_⟩,
        .removeMissing _ _ fun key hValue => ?_, hMap, .inl ⟨hOther, rfl, rfl⟩⟩
      · exact hMap.mapRemoveFirst_none hFind hFuel
      · obtain ⟨e, he, -, heValue⟩ := (hMap.contents_iff key value).mp hValue
        exact hOther e he heValue
  | some e =>
      have hMem := List.mem_of_find?_eq_some hFind
      have hValue : h.elems.value e = value := by simpa using List.find?_some hFind
      refine ⟨value, (Map.mapRemoveElem alloc.scrap h e).2, _,
        ⟨h.live.length + 1, fun fuel hFuel => ?_⟩,
        .removeByValue _ (h.elems.key e) _ ?_, hMap.mapRemoveElem hMem,
        .inr ⟨e, hMem, hValue, hValue.symm, rfl⟩⟩
      · rw [← hValue]
        exact hMap.mapRemoveFirst_some (hValue.symm ▸ hFind) hFuel
      · exact (hMap.contents_iff _ _).mpr ⟨e, hMem, rfl, hValue⟩

theorem returns_clear (alloc : Allocator) :
    ∃ h', Returns alloc h mp .clear 0 h' ∧ Represents mp h' fun _ => none := by
  obtain ⟨h', hMap', hLoop⟩ := hMap.clearLoop_spec alloc.scrap
  refine ⟨h', ⟨h.live.length + 1, fun fuel hFuel => ?_⟩, hMap'⟩
  unfold mapCall mapClear
  rw [hMap.ring.last, hLoop fuel hFuel]
  rfl

/-- Every call returns, as the specification says. -/
theorem returns (alloc : Allocator) (call : Call) (hFresh : Allocates mp h alloc.node call) :
    ∃ result h' contents', Returns alloc h mp call result h' ∧
      Spec contents (call, result) contents' ∧ Represents mp h' contents' := by
  cases call with
  | add key value =>
      obtain ⟨h', hReturns, hMap'⟩ := hMap.returns_add alloc hFresh key value
      exact ⟨0, h', _, hReturns, .add _ _ _, hMap'⟩
  | remove key =>
      obtain ⟨h', hReturns, hMap', -⟩ := hMap.returns_remove alloc key
      exact ⟨_, h', _, hReturns, .remove _ _, hMap'⟩
  | removeByValue value =>
      obtain ⟨result, h', contents', hReturns, hSpec, hMap', -⟩ :=
        hMap.returns_removeByValue alloc value
      exact ⟨result, h', contents', hReturns, hSpec, hMap'⟩
  | clear =>
      obtain ⟨h', hReturns, hMap'⟩ := hMap.returns_clear alloc
      exact ⟨0, h', _, hReturns, .clear _, hMap'⟩

end Represents

/-- A call has one result. -/
theorem Returns.unique {alloc : Allocator} {call : Call} {r r' : Word} {h₁ h₂ : Heap}
    (hFirst : Returns alloc h mp call r h₁) (hSecond : Returns alloc h mp call r' h₂) :
    r = r' ∧ h₁ = h₂ := by
  obtain ⟨least, hFirst⟩ := hFirst
  obtain ⟨least', hSecond⟩ := hSecond
  have hSame := (hFirst _ (le_max_left least least')).symm.trans
    (hSecond _ (le_max_right least least'))
  exact Prod.mk.inj (Option.some.inj hSame)

theorem represents_init (m : Elems) (mp : Word) :
    Represents mp (mapInit m mp) fun _ => none where
  ring := by
    refine ⟨fun l hl => ?_, List.nodup_singleton mp⟩
    rw [List.mem_singleton.mp hl]
    exact ⟨update_self _ _ _, update_self _ _ _⟩
  keys := List.nodup_nil
  nonNull := nofun
  contents_iff key value := by
    refine ⟨nofun, ?_⟩
    rintro ⟨e, he, -⟩
    cases he

theorem Represents.sound {contents : Contents} (hMap : Represents mp h contents) :
    Sound mp h contents where
  represents := hMap
  find key := ⟨h.live.length + 1, fun _ hFuel => hMap.mapFind_spec hFuel⟩
  returns call alloc hFresh := by
    obtain ⟨result, h', -, hReturns, -⟩ := hMap.returns alloc call hFresh
    exact ⟨result, h', hReturns⟩
  remove alloc key result h' hReturns := by
    obtain ⟨h₁, hReturns₁, -, hUnlinks⟩ := hMap.returns_remove alloc key
    obtain ⟨rfl, rfl⟩ := hReturns.unique hReturns₁
    exact hUnlinks
  removeByValue alloc value result h' hReturns := by
    obtain ⟨r, h₁, -, hReturns₁, -, -, hUnlinks⟩ := hMap.returns_removeByValue alloc value
    obtain ⟨rfl, rfl⟩ := hReturns.unique hReturns₁
    exact hUnlinks

/-- A call on a map is a call on its contents. -/
theorem Step.spec {contents : Contents} {event : Call × Word} (hMap : Represents mp h contents)
    (hStep : Step mp h event h') :
    ∃ contents', Spec contents event contents' ∧ Represents mp h' contents' := by
  obtain ⟨alloc, hFresh, hReturns⟩ := hStep
  obtain ⟨r, h₁, contents', hReturns₁, hSpec, hMap'⟩ := hMap.returns alloc _ hFresh
  obtain ⟨rfl, rfl⟩ := hReturns.unique hReturns₁
  exact ⟨contents', hSpec, hMap'⟩

/-- After every sequence of calls from `map_init`, all results are those of the
contents, and the list of elements is sound. -/
theorem map_sound_of_run (m : Elems) {events : List (Call × Word)}
    (run : Run (Step mp) (mapInit m mp) events h) :
    ∃ contents, Run Spec (fun _ => none) events contents ∧ Sound mp h contents := by
  obtain ⟨contents, hRun, hMap⟩ := run.simulation (Represents mp) (represents_init m mp)
    (fun _ _ _ _ hMap hStep => Step.spec hMap hStep)
  exact ⟨contents, hRun, hMap.sound⟩

/-- A key is added and removed again. -/
theorem map_sound_of_run_remove : ∃ h contents,
    Run Spec (fun _ => none) [(.add 5 7, 0), (.remove 5, 7)] contents ∧
      Sound 0x80060000 h contents := by
  let alloc : Allocator := ⟨0x120000fc8, fun _ => ⟨1, 2, 3, 4⟩⟩
  let m : Elems := ⟨fun _ => 0, fun _ => 0, fun _ => 0, fun _ => 0⟩
  have hStart := represents_init m 0x80060000
  have hFresh : Fresh 0x80060000 (mapInit m 0x80060000) alloc.node :=
    ⟨by decide, by decide, List.not_mem_nil⟩
  obtain ⟨h₁, hAdd, hMap₁⟩ := hStart.returns_add alloc hFresh 5 7
  obtain ⟨h₂, hRemove, -⟩ := hMap₁.returns_remove alloc 5
  rw [update_self] at hRemove
  exact ⟨h₂, map_sound_of_run m
    (.snoc (.snoc (.nil _) (.call alloc hFresh hAdd)) (.call alloc trivial hRemove))⟩

end Kernel.Map
