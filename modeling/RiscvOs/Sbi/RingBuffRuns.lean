import RiscvOs.Sbi.RingBuff

/-! The console ring along the runs of all harts. The hart in a critical section
decides what the variables of the ring mean. -/
namespace Sbi.RingBuff

open Semantics Function

variable {Hart : Type} {s : Session Hart} {hart : Hart} {r : Ring} {history : List Entry}
  {queue : List Byte} {c : Byte} {place : Place} {entry : Entry}

/-! ## The record -/

theorem accepted_append (history history' : List Entry) :
    accepted (history ++ history') = accepted history ++ accepted history' :=
  List.filterMap_append

theorem returned_append (history history' : List Entry) :
    returned (history ++ history') = returned history ++ returned history' :=
  List.filterMap_append

/-- The characters come back in order. -/
def InOrder (history : List Entry) : Prop :=
  accepted history = returned history ++ unread history

theorem unread_eq (h : accepted history = returned history ++ queue) : unread history = queue := by
  rw [unread, h, List.drop_left]

theorem inOrder_iff : InOrder history ↔ returned history <+: accepted history := by
  constructor
  · exact fun h => ⟨unread history, h.symm⟩
  · rintro ⟨queue, hQueue⟩
    rw [InOrder, unread_eq hQueue.symm, hQueue]

/-- Entries that leave the record of the characters as it is. -/
theorem unread_dropped (c : Byte) : unread (history ++ [.put c false]) = unread history := by
  rw [unread, accepted_append, returned_append]
  simp [accepted, returned, unread]

theorem unread_nothing (ret : Byte) : unread (history ++ [.get ret false]) = unread history := by
  rw [unread, accepted_append, returned_append]
  simp [accepted, returned, unread]

theorem InOrder.skip (h : InOrder history) (hAccepted : accepted [entry] = [])
    (hReturned : returned [entry] = []) : InOrder (history ++ [entry]) := by
  rw [inOrder_iff] at h ⊢
  rwa [accepted_append, returned_append, hAccepted, hReturned, List.append_nil, List.append_nil]

theorem InOrder.accept (h : InOrder history) (c : Byte) :
    accepted (history ++ [.put c true]) =
      returned (history ++ [.put c true]) ++ (unread history ++ [c]) := by
  rw [accepted_append, returned_append, h]
  simp [accepted, returned]

theorem InOrder.give {ret : Byte} {rest : List Byte} (h : InOrder history)
    (hHead : unread history = ret :: rest) :
    accepted (history ++ [.get ret true]) =
      returned (history ++ [.get ret true]) ++ rest := by
  rw [accepted_append, returned_append, h, hHead]
  simp [accepted, returned]

/-- Every entry is correct after those before it. -/
def AllCorrect (history : List Entry) : Prop :=
  ∀ before entry after, history = before ++ entry :: after → Correct before entry

theorem AllCorrect.append (h : AllCorrect history) (hLast : Correct history entry) :
    AllCorrect (history ++ [entry]) := by
  intro before other after hSplit
  rcases List.eq_nil_or_concat after with rfl | ⟨front, last, rfl⟩
  · obtain ⟨rfl, hSame⟩ := List.append_inj' hSplit rfl
    obtain rfl := List.singleton_injective hSame
    exact hLast
  · rw [List.concat_eq_append, ← List.cons_append, ← List.append_assoc] at hSplit
    exact h before other front (List.append_inj' hSplit rfl).1

/-! ## The ring as a queue -/

/-- The ring holds the queue. -/
structure Holds (r : Ring) (queue : List Byte) : Prop where
  start_nonneg : 0 ≤ r.start
  start_lt : r.start < 10
  stop : r.stop = queue.length
  room : queue.length ≤ 10
  contents : window r.buf 10 r.start.toNat queue.length = queue

theorem holds_boot : Holds ⟨fun _ => 0, 0, 0⟩ [] where
  start_nonneg := Int.le_refl 0
  start_lt := show (0 : Int) < 10 by decide
  stop := rfl
  room := by decide
  contents := rfl

theorem Holds.bounds (h : Holds r queue) :
    0 ≤ r.start ∧ r.start < 10 ∧ 0 ≤ r.stop ∧ r.stop ≤ 10 := by
  have hStop := h.stop
  have hRoom := h.room
  exact ⟨h.start_nonneg, h.start_lt, by omega, by omega⟩

/-- The remainder of C is that of natural numbers here. -/
theorem toNat_tmod {i : Int} (h : 0 ≤ i) (k : Nat) :
    ((i + k).tmod buffSize).toNat = (i.toNat + k) % 10 := by
  have hNat : i = (i.toNat : Int) := (Int.toNat_of_nonneg h).symm
  rw [hNat, ← Int.natCast_add]
  exact congrArg Int.toNat (Int.ofNat_tmod _ 10).symm

/-- The slot behind the queue. -/
theorem Holds.slot (h : Holds r queue) :
    ((r.start + r.stop).tmod buffSize).toNat = (r.start.toNat + queue.length) % 10 := by
  rw [h.stop]
  exact toNat_tmod h.start_nonneg queue.length

theorem Holds.push (h : Holds r queue) (hRoom : queue.length < 10) (c : Byte) :
    Holds { r.write c with stop := r.stop + 1 } (queue ++ [c]) where
  start_nonneg := h.start_nonneg
  start_lt := h.start_lt
  stop := by
    change r.stop + 1 = _
    rw [h.stop, List.length_append]
    rfl
  room := by
    rw [List.length_append]
    exact hRoom
  contents := by
    change window (update r.buf _ c) 10 r.start.toNat _ = _
    rw [h.slot, List.length_append, List.length_singleton, window_push _ _ hRoom, h.contents]

theorem Holds.first {ret : Byte} {rest : List Byte} (h : Holds r (ret :: rest)) :
    r.buf r.start.toNat = ret ∧ window r.buf 10 (r.start.toNat + 1) rest.length = rest := by
  have hContents := h.contents
  rw [List.length_cons, window_eq_cons, List.cons.injEq,
    Nat.mod_eq_of_lt (Int.toNat_lt_of_ne_zero (by decide) |>.mpr h.start_lt)] at hContents
  exact hContents

theorem Holds.pop {ret : Byte} {rest : List Byte} (h : Holds r (ret :: rest)) :
    Holds { r.advance with stop := r.stop - 1 } rest := by
  have hNonneg := h.start_nonneg
  have hNext : ((r.start + 1).tmod buffSize).toNat = (r.start.toNat + 1) % 10 :=
    toNat_tmod hNonneg 1
  have hRoom := h.room
  rw [List.length_cons] at hRoom
  refine ⟨Int.tmod_nonneg _ (by omega), Int.tmod_lt_of_pos _ (by decide), ?_, by omega, ?_⟩
  · change r.stop - 1 = _
    rw [h.stop, List.length_cons]
    omega
  · change window r.buf 10 ((r.start + 1).tmod buffSize).toNat _ = _
    rw [hNext, window_mod]
    exact h.first.2

/-! ## The critical section -/

def Place.Inside (place : Place) : Prop :=
  place.call ≠ none

/-- What a call that has come to the entry leaves in a ring that held the queue. -/
def Behind (r : Ring) (queue : List Byte) : Entry → Prop
  | .put c true => queue.length < 10 ∧ Holds r (queue ++ [c])
  | .put _ false => queue.length = 10 ∧ Holds r queue
  | .get ret true => ∃ rest, queue = ret :: rest ∧ Holds r rest
  | .get ret false => queue = [] ∧ ret = 0xff ∧ Holds r queue

/-- What the ring holds while a hart is at a place in its critical section. -/
def View (r : Ring) (queue : List Byte) : Place → Prop
  | .writes _ => Holds r queue ∧ queue.length < 10
  | .counts c => r.stop = queue.length ∧ Holds { r with stop := r.stop + 1 } (queue ++ [c])
  | .reads => Holds r queue ∧ queue ≠ []
  | .advances ret => Holds r queue ∧ ∃ rest, queue = ret :: rest
  | .discounts ret =>
      r.stop = queue.length ∧ queue.length ≤ 10 ∧
        ∃ rest, queue = ret :: rest ∧ Holds { r with stop := r.stop - 1 } rest
  | .leaves entry => Behind r queue entry
  | _ => Holds r queue

namespace Behind

theorem correct (h : Behind r (unread history) entry) : Correct history entry := by
  match entry, h with
  | .put c true, h => exact iff_of_false nofun (Nat.ne_of_lt h.1)
  | .put c false, h => exact iff_of_true rfl h.1
  | .get ret true, ⟨rest, hHead, _⟩ =>
      rw [Correct, hHead]
      exact ⟨rfl, rfl⟩
  | .get ret false, h =>
      rw [Correct, h.1]
      exact ⟨rfl, h.2.1⟩

/-- The record with the entry still has the order and the contents of the ring. -/
theorem record (h : Behind r (unread history) entry) (hOrder : InOrder history) :
    InOrder (history ++ [entry]) ∧ Holds r (unread (history ++ [entry])) := by
  match entry, h with
  | .put c true, h =>
      have hRecord := hOrder.accept c
      have hUnread := unread_eq hRecord
      refine ⟨?_, ?_⟩
      · rw [InOrder, hUnread, hRecord]
      · rw [hUnread]
        exact h.2
  | .put c false, h =>
      refine ⟨hOrder.skip rfl rfl, ?_⟩
      rw [unread_dropped]
      exact h.2
  | .get ret true, ⟨rest, hHead, hHolds⟩ =>
      have hRecord := hOrder.give hHead
      have hUnread := unread_eq hRecord
      refine ⟨?_, ?_⟩
      · rw [InOrder, hUnread, hRecord]
      · rw [hUnread]
        exact hHolds
  | .get ret false, h =>
      refine ⟨hOrder.skip rfl rfl, ?_⟩
      rw [unread_nothing]
      exact h.2.2

theorem bounds (h : Behind r queue entry) : 0 ≤ r.start ∧ r.start < 10 ∧ 0 ≤ r.stop ∧ r.stop ≤ 10 := by
  match entry, h with
  | .put c true, h => exact h.2.bounds
  | .put c false, h => exact h.2.bounds
  | .get ret true, ⟨_, _, hHolds⟩ => exact hHolds.bounds
  | .get ret false, h => exact h.2.2.bounds

end Behind

/-- The mutex admits one hart, and the ring holds the unread characters. -/
structure Inv (s : Session Hart) : Prop where
  alone : ∀ h h', (s.place h).Inside → (s.place h').Inside → h = h'
  locked : ∀ h, (s.place h).Inside → s.mutex = mutexLocked
  held : s.mutex = mutexLocked → ∃ h, (s.place h).Inside
  view : ∀ h, (s.place h).Inside → View s.ring (unread s.history) (s.place h)
  free : (∀ h, ¬ (s.place h).Inside) → Holds s.ring (unread s.history)
  inOrder : InOrder s.history
  correct : AllCorrect s.history

theorem inv_boot : Inv (boot Hart) where
  alone := fun _ _ hIn => absurd rfl hIn
  locked := fun _ hIn => absurd rfl hIn
  held := nofun
  view := fun _ hIn => absurd rfl hIn
  free := fun _ => holds_boot
  inOrder := rfl
  correct := fun before entry after hSplit => by simp [boot] at hSplit

namespace Inv

theorem viewAt (h : Inv s) (hPlace : s.place hart = place) (hStay : place.Inside) :
    View s.ring (unread s.history) place :=
  hPlace ▸ h.view hart (hPlace ▸ hStay)

/-- The bounds hold in the middle of a call too. -/
theorem bounds (h : Inv s) :
    0 ≤ s.ring.start ∧ s.ring.start < 10 ∧ 0 ≤ s.ring.stop ∧ s.ring.stop ≤ 10 := by
  have hView : ∀ place, View s.ring (unread s.history) place →
      0 ≤ s.ring.start ∧ s.ring.start < 10 ∧ 0 ≤ s.ring.stop ∧ s.ring.stop ≤ 10 := by
    intro place h
    cases place with
    | writes c => exact h.1.bounds
    | counts c =>
        obtain ⟨hStop, hNext⟩ := h
        have hRoom := hNext.room
        rw [List.length_append, List.length_singleton] at hRoom
        exact ⟨hNext.start_nonneg, hNext.start_lt, by omega, by omega⟩
    | reads => exact h.1.bounds
    | advances ret => exact h.1.bounds
    | discounts ret =>
        obtain ⟨hStop, hRoom, rest, -, hRest⟩ := h
        exact ⟨hRest.start_nonneg, hRest.start_lt, by omega, by omega⟩
    | leaves entry => exact Behind.bounds h
    | _ => exact Holds.bounds h
  by_cases hNone : ∀ hart, ¬ (s.place hart).Inside
  · exact hView .outside (h.free hNone)
  · obtain ⟨hart, hIn⟩ := not_forall_not.mp hNone
    exact hView _ (h.view hart hIn)

/-- A call of `ring_get` that finds nothing leaves the ring as it is. -/
theorem ringGet_empty (h : Inv s) (hPlace : s.place hart = .tests .get)
    (hNil : unread s.history = []) : ringGet s.ring = (0xff, s.ring) := by
  have hHolds : Holds s.ring (unread s.history) := h.viewAt hPlace nofun
  have hStop : ¬ s.ring.stop > 0 := by
    rw [hHolds.stop, hNil]
    decide
  exact if_neg hStop

variable [DecidableEq Hart]

/-- The hart in the critical section makes an access there. -/
theorem within (h : Inv s) (hIn : (s.place hart).Inside) (place : Place) {t : Console Hart}
    (hPlace : t.place = update s.place hart place) (hMutex : t.mutex = s.mutex)
    (hView : View t.ring (unread s.history) place) (hStay : place.Inside) :
    Inv ⟨t, s.history⟩ := by
  have hOnly : ∀ h', (t.place h').Inside → h' = hart := by
    intro h' hIn'
    by_contra hOther
    rw [hPlace, update_of_ne hOther] at hIn'
    exact hOther (h.alone h' hart hIn' hIn)
  have hHere : t.place hart = place := by
    rw [hPlace, update_self]
  constructor
  · intro h₁ h₂ hIn₁ hIn₂
    rw [hOnly h₁ hIn₁, hOnly h₂ hIn₂]
  · intro h' _
    exact hMutex.trans (h.locked hart hIn)
  · intro _
    exact ⟨hart, hHere ▸ hStay⟩
  · intro h' hIn'
    change View t.ring (unread s.history) (t.place h')
    rw [hOnly h' hIn', hHere]
    exact hView
  · intro hNone
    exact absurd (hHere ▸ hStay) (hNone hart)
  · exact h.inOrder
  · exact h.correct

/-- A hart makes a call, which waits for the mutex. -/
theorem call (h : Inv s) (hOut : s.place hart = .outside) (c : Call) :
    Inv { s with toConsole := s.move hart (.spins c) } := by
  have hSame : ∀ h', ((s.move hart (.spins c)).place h').Inside →
      (s.place h').Inside ∧ (s.move hart (.spins c)).place h' = s.place h' := by
    intro h' hIn
    by_cases hHere : h' = hart
    · rw [hHere, Console.move_self] at hIn
      exact absurd rfl hIn
    · have hPlace := s.move_of_ne (.spins c) hHere
      rw [hPlace] at hIn
      exact ⟨hIn, hPlace⟩
  have hStill : ∀ h', (s.place h').Inside → ((s.move hart (.spins c)).place h').Inside := by
    intro h' hIn
    have hOther : h' ≠ hart := by
      rintro rfl
      rw [hOut] at hIn
      exact hIn rfl
    rw [Console.move_of_ne _ _ hOther]
    exact hIn
  constructor
  · exact fun h₁ h₂ hIn₁ hIn₂ => h.alone h₁ h₂ (hSame h₁ hIn₁).1 (hSame h₂ hIn₂).1
  · exact fun h' hIn => h.locked h' (hSame h' hIn).1
  · intro hLocked
    obtain ⟨h', hIn⟩ := h.held hLocked
    exact ⟨h', hStill h' hIn⟩
  · intro h' hIn
    change View s.ring (unread s.history) ((s.move hart (.spins c)).place h')
    rw [(hSame h' hIn).2]
    exact h.view h' (hSame h' hIn).1
  · exact fun hNone => h.free fun h' hIn => hNone h' (hStill h' hIn)
  · exact h.inOrder
  · exact h.correct

/-- A hart takes the mutex. -/
theorem take (h : Inv s) (hFree : s.mutex ≠ mutexLocked) (c : Call) :
    Inv ⟨{ s.move hart (.tests c) with mutex := mutexLocked }, s.history⟩ := by
  have hNone : ∀ h', ¬ (s.place h').Inside := fun h' hIn => hFree (h.locked h' hIn)
  have hOnly : ∀ h', ((s.move hart (.tests c)).place h').Inside → h' = hart := by
    intro h' hIn
    by_contra hOther
    rw [Console.move_of_ne _ _ hOther] at hIn
    exact hNone h' hIn
  have hHere : ((s.move hart (.tests c)).place hart).Inside := by
    rw [Console.move_self]
    exact nofun
  constructor
  · exact fun h₁ h₂ hIn₁ hIn₂ => (hOnly h₁ hIn₁).trans (hOnly h₂ hIn₂).symm
  · exact fun _ _ => rfl
  · exact fun _ => ⟨hart, hHere⟩
  · intro h' hIn
    change View s.ring (unread s.history) ((s.move hart (.tests c)).place h')
    rw [hOnly h' hIn, Console.move_self]
    exact h.free hNone
  · exact fun hAll => absurd hHere (hAll hart)
  · exact h.inOrder
  · exact h.correct

/-- A hart gives the mutex back, and its call goes into the record. -/
theorem leave (h : Inv s) (hPlace : s.place hart = .leaves entry) :
    Inv ⟨{ s.move hart .outside with mutex := mutexUnlocked }, s.history ++ [entry]⟩ := by
  have hIn : (s.place hart).Inside := by
    rw [hPlace]
    exact nofun
  have hNone : ∀ h', ¬ ((s.move hart .outside).place h').Inside := by
    intro h' hIn'
    by_cases hHere : h' = hart
    · rw [hHere, Console.move_self] at hIn'
      exact hIn' rfl
    · rw [Console.move_of_ne _ _ hHere] at hIn'
      exact hHere (h.alone h' hart hIn' hIn)
  have hBehind : Behind s.ring (unread s.history) entry := h.viewAt hPlace nofun
  obtain ⟨hOrder, hHolds⟩ := hBehind.record h.inOrder
  constructor
  · exact fun h₁ _ hIn₁ => absurd hIn₁ (hNone h₁)
  · exact fun h' hIn' => absurd hIn' (hNone h')
  · exact nofun
  · exact fun h' hIn' => absurd hIn' (hNone h')
  · exact fun _ => hHolds
  · exact hOrder
  · exact h.correct.append hBehind.correct

/-! One lemma for each access in the critical section. -/

theorem testPut (h : Inv s) (hPlace : s.place hart = .tests (.put c)) :
    Inv ⟨step hart s.toConsole, s.history⟩ := by
  have hIn : (s.place hart).Inside := hPlace ▸ nofun
  have hHolds : Holds s.ring (unread s.history) := h.viewAt hPlace nofun
  simp only [step, hPlace]
  split
  next hRoom =>
    have hLt : (unread s.history).length < 10 := by
      rw [hHolds.stop] at hRoom
      exact Int.ofNat_lt.mp hRoom
    exact h.within hIn (.writes c) rfl rfl ⟨hHolds, hLt⟩ nofun
  next hFull =>
    have hLength : (unread s.history).length = 10 := by
      have hRoom := hHolds.room
      rw [hHolds.stop] at hFull
      have hGe : (10 : Int) ≤ (unread s.history).length := Int.not_lt.mp hFull
      omega
    exact h.within hIn (.leaves (.put c false)) rfl rfl ⟨hLength, hHolds⟩ nofun

theorem write (h : Inv s) (hPlace : s.place hart = .writes c) :
    Inv ⟨step hart s.toConsole, s.history⟩ := by
  have hIn : (s.place hart).Inside := hPlace ▸ nofun
  obtain ⟨hHolds, hRoom⟩ := h.viewAt hPlace nofun
  simp only [step, hPlace]
  exact h.within hIn (.counts c) rfl rfl ⟨hHolds.stop, hHolds.push hRoom c⟩ nofun

theorem count (h : Inv s) (hPlace : s.place hart = .counts c) :
    Inv ⟨step hart s.toConsole, s.history⟩ := by
  have hIn : (s.place hart).Inside := hPlace ▸ nofun
  obtain ⟨-, hHolds⟩ := h.viewAt hPlace nofun
  have hRoom := hHolds.room
  rw [List.length_append, List.length_singleton] at hRoom
  simp only [step, hPlace]
  exact h.within hIn (.leaves (.put c true)) rfl rfl ⟨by omega, hHolds⟩ nofun

theorem testGet (h : Inv s) (hPlace : s.place hart = .tests .get) :
    Inv ⟨step hart s.toConsole, s.history⟩ := by
  have hIn : (s.place hart).Inside := hPlace ▸ nofun
  have hHolds : Holds s.ring (unread s.history) := h.viewAt hPlace nofun
  simp only [step, hPlace]
  split
  next hSome =>
    have hNe : unread s.history ≠ [] := by
      intro hNil
      rw [hHolds.stop, hNil] at hSome
      exact absurd hSome (by decide)
    exact h.within hIn .reads rfl rfl ⟨hHolds, hNe⟩ nofun
  next hNone =>
    have hNil : unread s.history = [] := by
      rw [hHolds.stop] at hNone
      exact List.length_eq_zero_iff.mp (by omega)
    exact h.within hIn (.leaves (.get 0xff false)) rfl rfl ⟨hNil, rfl, hHolds⟩ nofun

theorem read (h : Inv s) (hPlace : s.place hart = .reads) :
    Inv ⟨step hart s.toConsole, s.history⟩ := by
  have hIn : (s.place hart).Inside := hPlace ▸ nofun
  obtain ⟨hHolds, hNe⟩ := h.viewAt hPlace nofun
  obtain ⟨ret, rest, hHead⟩ := List.exists_cons_of_ne_nil hNe
  have hRead : s.ring.buf s.ring.start.toNat = ret := (hHead ▸ hHolds).first.1
  simp only [step, hPlace]
  refine h.within hIn (.advances _) rfl rfl ⟨hHolds, rest, ?_⟩ nofun
  rw [hRead, hHead]

theorem advance {ret : Byte} (h : Inv s) (hPlace : s.place hart = .advances ret) :
    Inv ⟨step hart s.toConsole, s.history⟩ := by
  have hIn : (s.place hart).Inside := hPlace ▸ nofun
  obtain ⟨hHolds, rest, hHead⟩ := h.viewAt hPlace nofun
  simp only [step, hPlace]
  exact h.within hIn (.discounts ret) rfl rfl
    ⟨hHolds.stop, hHolds.room, rest, hHead, (hHead ▸ hHolds).pop⟩ nofun

theorem discount {ret : Byte} (h : Inv s) (hPlace : s.place hart = .discounts ret) :
    Inv ⟨step hart s.toConsole, s.history⟩ := by
  have hIn : (s.place hart).Inside := hPlace ▸ nofun
  obtain ⟨-, -, rest, hHead, hHolds⟩ := h.viewAt hPlace nofun
  simp only [step, hPlace]
  exact h.within hIn (.leaves (.get ret true)) rfl rfl ⟨rest, hHead, hHolds⟩ nofun

/-- A hart that is not about to give the mutex back ends no call. -/
theorem act_step (hPlace : ∀ entry, s.place hart ≠ .leaves entry) :
    RingBuff.act s (.step hart) = ⟨RingBuff.step hart s.toConsole, s.history⟩ := by
  have hNone : ended hart s.toConsole = [] := by
    unfold ended
    split
    next entry hAt => exact absurd hAt (hPlace entry)
    next => rfl
  rw [RingBuff.act, hNone, List.append_nil]

theorem act_leave (hPlace : s.place hart = .leaves entry) :
    RingBuff.act s (.step hart) =
      ⟨{ s.move hart .outside with mutex := mutexUnlocked }, s.history ++ [entry]⟩ := by
  simp only [RingBuff.act, RingBuff.step, ended, hPlace]

theorem step (h : Inv s) (hart : Hart) : Inv (RingBuff.act s (.step hart)) := by
  by_cases hLeaves : ∃ entry, s.place hart = .leaves entry
  · obtain ⟨entry, hPlace⟩ := hLeaves
    rw [act_leave hPlace]
    exact h.leave hPlace
  · rw [act_step (not_exists.mp hLeaves)]
    cases hPlace : s.place hart with
    | outside => simpa only [RingBuff.step, hPlace] using h
    | spins call =>
        simp only [RingBuff.step, hPlace]
        split
        next hFree => exact h.take hFree call
        next => exact h
    | tests call =>
        cases call with
        | put c => exact h.testPut hPlace
        | get => exact h.testGet hPlace
    | writes c => exact h.write hPlace
    | counts c => exact h.count hPlace
    | reads => exact h.read hPlace
    | advances ret => exact h.advance hPlace
    | discounts ret => exact h.discount hPlace
    | leaves entry => exact absurd ⟨entry, hPlace⟩ hLeaves

theorem act (h : Inv s) (event : Event Hart) : Inv (RingBuff.act s event) := by
  cases event with
  | call hart c =>
      rw [RingBuff.act]
      split
      next hOut => exact h.call hOut c
      next => exact h
  | step hart => exact h.step hart

theorem run (h : Inv s) (events : List (Event Hart)) : Inv (events.foldl RingBuff.act s) := by
  induction events generalizing s with
  | nil => exact h
  | cons event events ih => exact ih (h.act event)

end Inv

variable [DecidableEq Hart]

/-! ## Whole calls -/

/-- The hart ends its call with the entry and leaves the ring so. -/
def EndsWith (hart : Hart) (s : Session Hart) (entry : Entry) (r : Ring) : Prop :=
  ∃ t, Ends hart s t entry ∧ t.ring = r

theorem endsWith_leaves (hPlace : s.place hart = .leaves entry) :
    EndsWith hart s entry s.ring := by
  have hAct := Inv.act_leave hPlace
  refine ⟨_, ⟨1, rfl, ?_⟩, ?_⟩
  · rw [List.replicate_one, List.foldl_cons, List.foldl_nil, hAct]
    exact ⟨s.move_self hart .outside, rfl, rfl⟩
  · rw [List.replicate_one, List.foldl_cons, List.foldl_nil, hAct]
    rfl

/-- One more access in front of the others. -/
theorem EndsWith.step (hPlace : ∀ entry, s.place hart ≠ .leaves entry) {t : Console Hart}
    (hStep : step hart s.toConsole = t) (h : EndsWith hart ⟨t, s.history⟩ entry r) :
    EndsWith hart s entry r := by
  obtain ⟨u, ⟨n, hRun, hEnd⟩, hRing⟩ := h
  refine ⟨u, ⟨n + 1, ?_, hEnd⟩, hRing⟩
  rw [List.replicate_succ, List.foldl_cons, Inv.act_step hPlace, hStep]
  exact hRun

theorem endsWith_counts (hPlace : s.place hart = .counts c) :
    EndsWith hart s (.put c true) { s.ring with stop := s.ring.stop + 1 } := by
  refine .step (by simp [hPlace]) (by simp only [step, hPlace]; rfl) ?_
  exact endsWith_leaves (s.move_self hart _)

theorem endsWith_writes (hPlace : s.place hart = .writes c) :
    EndsWith hart s (.put c true) { s.ring.write c with stop := s.ring.stop + 1 } := by
  refine .step (by simp [hPlace]) (by simp only [step, hPlace]; rfl) ?_
  exact endsWith_counts (s.move_self hart _)

/-- A whole critical section of `ring_put`. -/
theorem endsWith_put (hPlace : s.place hart = .tests (.put c)) :
    EndsWith hart s (.put c (s.ring.stop < buffSize)) (ringPut s.ring c) := by
  unfold ringPut
  by_cases hRoom : s.ring.stop < buffSize
  · rw [decide_eq_true hRoom, if_pos hRoom]
    refine .step (by simp [hPlace]) (by simp only [step, hPlace, if_pos hRoom]; rfl) ?_
    exact endsWith_writes (s.move_self hart _)
  · rw [decide_eq_false hRoom, if_neg hRoom]
    refine .step (by simp [hPlace]) (by simp only [step, hPlace, if_neg hRoom]; rfl) ?_
    exact endsWith_leaves (s.move_self hart _)

theorem endsWith_discounts {ret : Byte} (hPlace : s.place hart = .discounts ret) :
    EndsWith hart s (.get ret true) { s.ring with stop := s.ring.stop - 1 } := by
  refine .step (by simp [hPlace]) (by simp only [step, hPlace]; rfl) ?_
  exact endsWith_leaves (s.move_self hart _)

theorem endsWith_advances {ret : Byte} (hPlace : s.place hart = .advances ret) :
    EndsWith hart s (.get ret true) { s.ring.advance with stop := s.ring.stop - 1 } := by
  refine .step (by simp [hPlace]) (by simp only [step, hPlace]; rfl) ?_
  exact endsWith_discounts (s.move_self hart _)

theorem endsWith_reads (hPlace : s.place hart = .reads) :
    EndsWith hart s (.get (s.ring.buf s.ring.start.toNat) true)
      { s.ring.advance with stop := s.ring.stop - 1 } := by
  refine .step (by simp [hPlace]) (by simp only [step, hPlace]; rfl) ?_
  exact endsWith_advances (s.move_self hart _)

/-- A whole critical section of `ring_get`. -/
theorem endsWith_get (hPlace : s.place hart = .tests .get) :
    EndsWith hart s (.get (ringGet s.ring).1 (s.ring.stop > 0)) (ringGet s.ring).2 := by
  unfold ringGet
  by_cases hSome : s.ring.stop > 0
  · rw [decide_eq_true hSome, if_pos hSome]
    refine .step (by simp [hPlace]) (by simp only [step, hPlace, if_pos hSome]; rfl) ?_
    exact endsWith_reads (s.move_self hart _)
  · rw [decide_eq_false hSome, if_neg hSome]
    refine .step (by simp [hPlace]) (by simp only [step, hPlace, if_neg hSome]; rfl) ?_
    exact endsWith_leaves (s.move_self hart _)

/-- From any place in a critical section. -/
theorem endsWith_call {call : Call} (hCall : (s.place hart).call = some call) :
    ∃ entry r, EndsWith hart s entry r ∧ entry.call = call := by
  generalize hPlace : s.place hart = place at hCall
  cases place with
  | outside => cases hCall
  | spins called => cases hCall
  | tests called =>
      cases called with
      | put c => exact ⟨_, _, endsWith_put hPlace, Option.some.inj hCall⟩
      | get => exact ⟨_, _, endsWith_get hPlace, Option.some.inj hCall⟩
  | writes c => exact ⟨_, _, endsWith_writes hPlace, Option.some.inj hCall⟩
  | counts c => exact ⟨_, _, endsWith_counts hPlace, Option.some.inj hCall⟩
  | reads => exact ⟨_, _, endsWith_reads hPlace, Option.some.inj hCall⟩
  | advances ret => exact ⟨_, _, endsWith_advances hPlace, Option.some.inj hCall⟩
  | discounts ret => exact ⟨_, _, endsWith_discounts hPlace, Option.some.inj hCall⟩
  | leaves entry => exact ⟨_, _, endsWith_leaves hPlace, Option.some.inj hCall⟩

/-! ## All runs -/

theorem Inv.correct_of_ends {t : Session Hart} (h : Inv s) (hEnds : Ends hart s t entry) :
    Correct s.history entry := by
  obtain ⟨n, hRun, -, -, hHistory⟩ := hEnds
  have hEnd : Inv t := hRun ▸ h.run (List.replicate n (.step hart))
  exact hEnd.correct s.history entry [] hHistory

/-- The console ring is a queue along every interleaving of the harts, and no
call of theirs is lost. -/
theorem fifo_of_run (events : List (Event Hart)) : Fifo (events.foldl act (boot Hart)) := by
  have h := inv_boot.run events
  generalize events.foldl act (boot Hart) = s at h ⊢
  obtain ⟨hStart, hStartLt, hStop, hStopLe⟩ := h.bounds
  exact {
    start_nonneg := hStart
    start_lt := hStartLt
    stop_nonneg := hStop
    stop_le := hStopLe
    inOrder := inOrder_iff.mp h.inOrder
    correct := h.correct
    enters := fun hart call hPlace hFree => by
      rw [Inv.act_step (by simp [hPlace])]
      simp only [step, hPlace, if_pos hFree]
      exact s.move_self hart _
    held := fun hLocked => by
      obtain ⟨hart, hIn⟩ := h.held hLocked
      exact ⟨hart, Option.ne_none_iff_exists'.mp hIn⟩
    ends := fun hart call hCall => by
      obtain ⟨entry, r, ⟨t, hEnds, -⟩, hSame⟩ := endsWith_call hCall
      exact ⟨t, entry, hEnds, hSame, h.correct_of_ends hEnds⟩
    put := fun hart c hPlace => endsWith_put hPlace
    get := fun hart hPlace => endsWith_get hPlace
    empty := fun hart hPlace hNil => h.ringGet_empty hPlace hNil }

end Sbi.RingBuff
