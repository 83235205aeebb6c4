import RiscvOs.Kernel.Lock

/-! Semaphores under any interleaving of their atomic steps. A failed
`semaphore_trydown` leaves the value one too low until it restores it; the
invariant counts the harts between the two steps. -/
namespace Kernel.Lock

open Semantics

variable {Hart : Type} {s t : Semaphore Hart} {start : BitVec 32}
  {events : List (SemaphoreEvent Hart)} {event : SemaphoreEvent Hart} {h : Hart} {found : Bool}

@[simp] theorem ups_snoc : ups (events ++ [event]) = ups events + ups [event] :=
  List.countP_append

@[simp] theorem successes_snoc :
    successes (events ++ [event]) = successes events + successes [event] :=
  List.countP_append

@[simp] theorem failures_snoc :
    failures (events ++ [event]) = failures events + failures [event] :=
  List.countP_append

@[simp] theorem restores_snoc :
    restores (events ++ [event]) = restores events + restores [event] :=
  List.countP_append

/-- What is promised of a semaphore that started with the value `start`, after
the events of a run. The harts in `restoring` are those whose failed calls have
not restored yet. -/
structure Sound [DecidableEq Hart] (start : BitVec 32) (events : List (SemaphoreEvent Hart))
    (s : Semaphore Hart) : Prop where
  successes_le : (successes events : Int) ≤ start.toInt + ups events
  value_eq : s.value.toInt =
    start.toInt + ups events - successes events - (failures events - restores events)
  restoring_card : s.restoring.card + restores events = failures events
  nonneg : s.restoring = ∅ → 0 ≤ s.value.toInt
  /-- The next call of any hart has an answer, and that is right. -/
  answer : ∀ h, h ∉ s.restoring → ∀ found,
    (∃ t, SemaphoreStep s (.trydown h found) t) ↔ found = decide (0 < s.value.toInt)

/-- A call returns true exactly if it finds a unit. -/
theorem semaphoreTrydown_eq (value : BitVec 32) :
    semaphoreTrydown value = (decide (0 < value.toInt), value + -1) := by
  unfold semaphoreTrydown amoadd
  rw [Prod.mk.injEq]
  refine ⟨?_, rfl⟩
  rw [decide_eq_decide, Int.not_le]

/-- What a run keeps of the counts and of the value. -/
structure SemaphoreInv (start : BitVec 32) (events : List (SemaphoreEvent Hart))
    (s : Semaphore Hart) : Prop where
  value_eq : s.value.toInt = start.toInt + ups events - successes events - s.restoring.card
  successes_le : (successes events : Int) ≤ start.toInt + ups events
  restoring_card : s.restoring.card + restores events = failures events

theorem SemaphoreInv.init (hStart : 0 ≤ start.toInt) :
    SemaphoreInv start [] (semaphoreInit start : Semaphore Hart) where
  value_eq := by simp [semaphoreInit, ups, successes]
  successes_le := by simpa [ups, successes] using hStart
  restoring_card := rfl

theorem semaphoreUp_toInt {value : BitVec 32} (hRange : ¬ value.saddOverflow 1) :
    (semaphoreUp value).toInt = value.toInt + 1 := by
  have hOne : (1 : BitVec 32).toInt = 1 := rfl
  unfold semaphoreUp amoadd
  rw [BitVec.toInt_add_of_not_saddOverflow hRange, hOne]

theorem SemaphoreInv.up (hInv : SemaphoreInv start events s)
    (hRange : ¬ s.value.saddOverflow 1) :
    SemaphoreInv start (events ++ [.up h]) { s with value := semaphoreUp s.value } := by
  have hValue := hInv.value_eq
  have hSuccesses := hInv.successes_le
  have hUps : ups (events ++ [.up h]) = ups events + 1 := ups_snoc
  have hSucceed : successes (events ++ [.up h]) = successes events := successes_snoc
  have hFail : failures (events ++ [.up h]) = failures events := failures_snoc
  have hRestores : restores (events ++ [.up h]) = restores events := restores_snoc
  refine ⟨?_, ?_, ?_⟩
  · change (semaphoreUp s.value).toInt = _ - (s.restoring.card : Int)
    rw [semaphoreUp_toInt hRange, hUps, hSucceed]
    omega
  · rw [hUps, hSucceed]
    omega
  · rw [hRestores, hFail]
    exact hInv.restoring_card

variable [DecidableEq Hart]

theorem SemaphoreStep.trydown_iff (hFree : h ∉ s.restoring) :
    (∃ t, SemaphoreStep s (.trydown h found) t) ↔ found = decide (0 < s.value.toInt) := by
  constructor
  · rintro ⟨t, hStep⟩
    cases hStep with
    | trydown h hFree hCall =>
        rw [semaphoreTrydown_eq] at hCall
        exact (congrArg Prod.fst hCall).symm
  · rintro rfl
    exact ⟨_, .trydown h hFree (semaphoreTrydown_eq _)⟩

/-- The value is never negative but for the harts that have to restore. -/
theorem SemaphoreInv.sound (hInv : SemaphoreInv start events s) : Sound start events s := by
  have hValue := hInv.value_eq
  have hSuccesses := hInv.successes_le
  have hCard := hInv.restoring_card
  refine ⟨hSuccesses, by omega, hCard, fun hNone => ?_,
    fun h hFree found => SemaphoreStep.trydown_iff hFree⟩
  rw [hNone, Finset.card_empty] at hValue
  omega

/-- A failed call takes one unit that it does not count as a success, and a
success finds a unit that was not taken. -/
theorem SemaphoreInv.trydown {value : BitVec 32} (hInv : SemaphoreInv start events s)
    (hFree : h ∉ s.restoring) (hRange : ¬ s.value.saddOverflow (-1))
    (hCall : semaphoreTrydown s.value = (found, value)) :
    SemaphoreInv start (events ++ [.trydown h found])
      ⟨value, if found then s.restoring else insert h s.restoring⟩ := by
  have hValue := hInv.value_eq
  have hSuccesses := hInv.successes_le
  have hCard := hInv.restoring_card
  have hMinus : (-1 : BitVec 32).toInt = -1 := rfl
  have hLess : (s.value + -1).toInt = s.value.toInt - 1 := by
    rw [BitVec.toInt_add_of_not_saddOverflow hRange, hMinus]
    rfl
  rw [semaphoreTrydown_eq] at hCall
  obtain ⟨hFound, rfl⟩ := Prod.mk.inj hCall
  have hUps : ups (events ++ [.trydown h found]) = ups events := by
    rw [ups_snoc]
    rfl
  have hRestores : restores (events ++ [.trydown h found]) = restores events := by
    rw [restores_snoc]
    rfl
  cases found with
  | true =>
      have hUnit := of_decide_eq_true hFound
      have hSucceed : successes (events ++ [.trydown h true]) = successes events + 1 :=
        successes_snoc
      have hFail : failures (events ++ [.trydown h true]) = failures events := failures_snoc
      rw [if_pos rfl]
      refine ⟨?_, ?_, ?_⟩
      · change (s.value + -1).toInt = _ - (s.restoring.card : Int)
        rw [hLess, hUps, hSucceed]
        omega
      · rw [hUps, hSucceed]
        omega
      · rw [hRestores, hFail]
        exact hCard
  | false =>
      have hSucceed : successes (events ++ [.trydown h false]) = successes events :=
        successes_snoc
      have hFail : failures (events ++ [.trydown h false]) = failures events + 1 := failures_snoc
      rw [if_neg Bool.false_ne_true]
      refine ⟨?_, ?_, ?_⟩
      · rw [hLess, hUps, hSucceed, Finset.card_insert_of_notMem hFree]
        omega
      · rw [hUps, hSucceed]
        exact hSuccesses
      · rw [hRestores, hFail, Finset.card_insert_of_notMem hFree]
        omega

theorem SemaphoreInv.restore (hInv : SemaphoreInv start events s) (hRestoring : h ∈ s.restoring)
    (hRange : ¬ s.value.saddOverflow 1) :
    SemaphoreInv start (events ++ [.restore h])
      ⟨semaphoreUp s.value, s.restoring.erase h⟩ := by
  have hValue := hInv.value_eq
  have hCard := hInv.restoring_card
  have hPos : 0 < s.restoring.card := Finset.card_pos.mpr ⟨h, hRestoring⟩
  have hUps : ups (events ++ [.restore h]) = ups events := ups_snoc
  have hSucceed : successes (events ++ [.restore h]) = successes events := successes_snoc
  have hFail : failures (events ++ [.restore h]) = failures events := failures_snoc
  have hRestores : restores (events ++ [.restore h]) = restores events + 1 := restores_snoc
  refine ⟨?_, ?_, ?_⟩
  · rw [semaphoreUp_toInt hRange, hUps, hSucceed, Finset.card_erase_of_mem hRestoring]
    omega
  · rw [hUps, hSucceed]
    exact hInv.successes_le
  · rw [hRestores, hFail, Finset.card_erase_of_mem hRestoring]
    omega

theorem SemaphoreStep.inv (hStep : Guarded SemaphoreStep NoOverflow s event t)
    (hInv : SemaphoreInv start events s) : SemaphoreInv start (events ++ [event]) t := by
  obtain ⟨hRange, hStep⟩ := hStep
  cases hStep with
  | trydown h hFree hCall => exact hInv.trydown hFree hRange hCall
  | restore h hRestoring => exact hInv.restore hRestoring hRange
  | up => exact hInv.up hRange

/-- In every interleaving no unit is given out twice, the value accounts for
all units, and it is not negative while no failed call has to restore. -/
theorem semaphore_accounts_of_run (hStart : 0 ≤ start.toInt)
    (run : Run (Guarded SemaphoreStep NoOverflow) (semaphoreInit start) events s) :
    Sound start events s := by
  have hInv : SemaphoreInv start events s := by
    induction run with
    | nil => exact .init hStart
    | snoc prior last ih => exact SemaphoreStep.inv last ih
  exact hInv.sound

/-- Two harts compete for one unit: the second one fails and restores after the
first one has given the unit back. -/
theorem semaphore_accounts_of_run_two :
    Sound 1 [.trydown false true, .trydown true false, .up false, .restore true]
      (⟨1, ∅⟩ : Semaphore Bool) :=
  semaphore_accounts_of_run (by decide)
    (.snoc (.snoc (.snoc (.snoc (.nil _)
      ⟨by unfold NoOverflow; decide, .trydown false (by decide) rfl⟩)
      ⟨by unfold NoOverflow; decide, .trydown true (by decide) rfl⟩)
      ⟨by unfold NoOverflow; decide, .up _ false (by decide)⟩)
      ⟨by unfold NoOverflow; decide, .restore _ true (by decide)⟩)

end Kernel.Lock
