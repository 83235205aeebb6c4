import RiscvOs.Kernel.Lock
import RiscvOs.Semantics.Chain

/-! Barriers over any number of rounds. The counter and the list hold the same
set of processes; the call that finds the counter at 1 empties the list. -/
namespace Kernel.Lock

open Semantics Function

variable {Hart : Type} {m : Store} {bl proc head : Word} {nodes : List Word}

/-- What is promised of a barrier: before the last call of `barrier_wall` of a
round no process is set running and no node is freed; then exactly one call has
to open the barrier, or all are over, every added process was set running, every
node was freed once, and the barrier is as after `barrier_init`. -/
structure Opens [DecidableEq Hart] (space : NodeSpace) (s : BarrierUse Hart) : Prop where
  waits : s.round.arrived < s.round.added.length →
    s.store.state = s.round.before ∧ s.round.freed = [] ∧ ∀ h, s.place h = .outside
  last : s.round.arrived = s.round.added.length → RoundOver s ∨ ∃ h,
    (∀ h', s.place h' = .opening ↔ h' = h) ∧ s.store.state = s.round.before ∧ s.round.freed = [] ∧
      ∀ scrap, ∃ t, BarrierStep space s (.walk h scrap) t ∧ RoundOver t
  opened : RoundOver s →
    (∀ l ∈ s.round.added, s.store.state l.2 = .running) ∧
      (∀ p, p ∉ s.round.added.map Prod.snd → s.store.state p = s.round.before p) ∧
      s.round.freed = s.round.added.map Prod.fst ∧ s.round.freed.Nodup ∧ s.barrier = barrierInit
  arrived_le : s.round.arrived ≤ s.round.added.length

/-! ## The loop of `barrier_wall` -/

/-- The loop visits the nodes of the list; of the memory outside the nodes it
changes the states of their processes. -/
theorem wallLoop_spec (scrap : Word → Word × Word)
    (hChain : Chain m.next 0 bl nodes) : ∃ m' : Store,
      (∀ p, p ∈ nodes.map m.proc → m'.state p = .running) ∧
      (∀ p, p ∉ nodes.map m.proc → m'.state p = m.state p) ∧
      ∀ fuel, wallLoop scrap fuel m bl = if nodes.length < fuel then some (nodes, m') else none := by
  induction nodes generalizing m bl with
  | nil =>
      refine ⟨m, nofun, fun _ _ => rfl, fun fuel => ?_⟩
      cases fuel with
      | zero => rfl
      | succ fuel => exact if_pos hChain
  | cons x rest ih =>
      have hNodup := List.nodup_cons.mp hChain.nodup
      obtain ⟨rfl, hNull, hRest⟩ := hChain
      let m₁ : Store := {
        proc := update m.proc bl (scrap bl).1
        next := update m.next bl (scrap bl).2
        state := update m.state (m.proc bl) .running }
      have hOther (y : Word) (hy : y ∈ rest) : y ≠ bl := by
        rintro rfl
        exact hNodup.1 hy
      have hChain₁ : Chain m₁.next 0 (m.next bl) rest :=
        hRest.congr fun y hy => update_of_ne (hOther y hy) _ _
      have hProc : rest.map m₁.proc = rest.map m.proc :=
        List.map_congr_left fun y hy => update_of_ne (hOther y hy) _ _
      obtain ⟨m', hRunning, hSame, hLoop⟩ := ih hChain₁
      rw [hProc] at hRunning hSame
      refine ⟨m', fun p hp => ?_, fun p hp => ?_, fun fuel => ?_⟩
      · by_cases hMem : p ∈ rest.map m.proc
        · exact hRunning p hMem
        · rw [hSame p hMem]
          rcases List.mem_cons.mp hp with rfl | hp
          · exact update_self _ _ _
          · exact absurd hp hMem
      · rw [List.map_cons, List.mem_cons, not_or] at hp
        rw [hSame p hp.2]
        exact update_of_ne hp.1 _ _
      · cases fuel with
        | zero => rfl
        | succ fuel =>
            have hStep : wallLoop scrap (fuel + 1) m bl =
                (wallLoop scrap fuel m₁ (m.next bl)).map fun r => (bl :: r.1, r.2) := by
              refine (if_neg hNull).trans ?_
              change (wallLoop scrap fuel m₁ (m.next bl)).bind _ = _
              cases wallLoop scrap fuel m₁ (m.next bl) <;> rfl
            rw [hStep, hLoop fuel, List.length_cons]
            by_cases hFuel : rest.length < fuel
            · rw [if_pos hFuel, if_pos (Nat.succ_lt_succ hFuel)]
              rfl
            · rw [if_neg hFuel, if_neg (fun h => hFuel (Nat.lt_of_succ_lt_succ h))]
              rfl

/-! ## The invariant -/

/-- The barrier is closed: its list holds the processes of the round. -/
structure Closed (s : BarrierUse Hart) : Prop where
  chain : Chain s.store.next 0 s.barrier.head (s.round.added.map Prod.fst)
  procs : ∀ l ∈ s.round.added, s.store.proc l.1 = l.2
  state : s.store.state = s.round.before
  freed : s.round.freed = []

/-- The barrier has been opened. -/
structure Opened (s : BarrierUse Hart) : Prop where
  head : s.barrier.head = 0
  running : ∀ p, p ∈ s.round.added.map Prod.snd → s.store.state p = .running
  others : ∀ p, p ∉ s.round.added.map Prod.snd → s.store.state p = s.round.before p
  freed : s.round.freed = s.round.added.map Prod.fst

/-- The counter is the number of calls that are still to come. -/
structure BarrierInv (space : NodeSpace) (s : BarrierUse Hart) : Prop where
  arrived_le : s.round.arrived ≤ s.round.added.length
  value : s.barrier.value = BitVec.ofNat 32 (s.round.added.length - s.round.arrived)
  nodup : (s.round.added.map Prod.fst).Nodup
  inSpace : ∀ x ∈ s.round.added.map Prod.fst, x ∈ space.addresses
  opening : ∀ h, s.place h = .opening →
    s.round.arrived = s.round.added.length ∧ s.round.added ≠ [] ∧ ∀ h', s.place h' = .opening → h' = h
  closed : s.round.arrived < s.round.added.length ∨ (∃ h, s.place h = .opening) → Closed s
  opened : RoundOver s → Opened s

variable {space : NodeSpace} {s t : BarrierUse Hart}

theorem outside_of_ne {place : WallPlace} (h : place ≠ .opening) : place = .outside := by
  cases place with
  | outside => rfl
  | opening => exact absurd rfl h

/-- The list never grows to a length that the counter cannot hold. -/
theorem BarrierInv.length_lt (h : BarrierInv space s) : s.round.added.length < 2 ^ 31 := by
  have hSubset : (s.round.added.map Prod.fst).toFinset ⊆ space.addresses := by
    intro x hx
    exact h.inSpace x (List.mem_toFinset.mp hx)
  have hCard := Finset.card_le_card hSubset
  rw [List.toFinset_card_of_nodup h.nodup, List.length_map] at hCard
  have hFits := space.fits
  omega

theorem BarrierInv.outside (h : BarrierInv space s) (hEarly : s.round.arrived < s.round.added.length)
    (x : Hart) : s.place x = .outside :=
  outside_of_ne fun hOpening => by
    have := (h.opening x hOpening).1
    omega

/-- A round that has not begun yet, or the one before is over. -/
theorem BarrierInv.roundOver (h : BarrierInv space s) (hRounds : s.round.arrived = 0 ∨ RoundOver s)
    (hFull : s.round.arrived = s.round.added.length) : RoundOver s := by
  rcases hRounds with hZero | hOver
  · refine ⟨hFull, fun x => outside_of_ne fun hOpening => ?_⟩
    have hNone := List.length_eq_zero_iff.mp (hFull.symm.trans hZero)
    exact (h.opening x hOpening).2.1 hNone
  · exact hOver

theorem barrierInv_start (m : Store) : BarrierInv space (barrierStart m : BarrierUse Hart) where
  arrived_le := Nat.le_refl 0
  value := rfl
  nodup := List.nodup_nil
  inSpace := nofun
  opening := nofun
  closed h := by
    rcases h with h | ⟨_, h⟩
    · exact absurd h (Nat.lt_irrefl 0)
    · cases h
  opened _ := ⟨rfl, nofun, fun _ _ => rfl, rfl⟩

/-- The barrier, and the record of its round, behind `barrier_add_process`. -/
def afterAdd (s : BarrierUse Hart) (bl proc : Word) : BarrierUse Hart where
  barrier := (barrierAddProcess s.barrier s.store bl proc).1
  store := (barrierAddProcess s.barrier s.store bl proc).2
  place := s.place
  round := s.round.add s.store.state bl proc

/-- The first process of a round. -/
theorem BarrierInv.addFirst (h : BarrierInv space s) (hOver : RoundOver s)
    (hSpace : bl ∈ space.addresses) : BarrierInv space (afterAdd s bl proc) := by
  have hOpened := h.opened hOver
  have hValue : s.barrier.value = 0 := by
    rw [h.value, hOver.1, Nat.sub_self]
    rfl
  have hRound : s.round.add s.store.state bl proc =
      { added := [(bl, proc)], arrived := 0, freed := [], before := s.store.state } :=
    if_pos hOver.1
  unfold afterAdd
  rw [hRound]
  have hNull : bl ≠ 0 := fun hZero => space.nonNull (hZero ▸ hSpace)
  refine ⟨Nat.zero_le _, ?_, List.nodup_singleton _, ?_, ?_, fun _ => ⟨?_, ?_, rfl, rfl⟩, ?_⟩
  · change s.barrier.value + 1 = _
    rw [hValue]
    rfl
  · intro x hx
    rw [List.mem_singleton.mp hx]
    exact hSpace
  · intro x hx
    rw [hOver.2 x] at hx
    cases hx
  · apply Chain.cons _ hNull
    change update s.store.next bl s.barrier.head bl = 0
    rw [update_self, hOpened.head]
  · intro l hl
    rw [List.mem_singleton.mp hl]
    exact update_self _ _ _
  · intro hZero
    cases hZero.1

/-- One more process of the round. -/
theorem BarrierInv.addNext (h : BarrierInv space s) (hZero : s.round.arrived = 0)
    (hMore : s.round.arrived ≠ s.round.added.length) (hSpace : bl ∈ space.addresses)
    (hFresh : bl ∈ s.round.added.map Prod.fst → bl ∈ s.round.freed) :
    BarrierInv space (afterAdd s bl proc) := by
  have hEarly : s.round.arrived < s.round.added.length := lt_of_le_of_ne h.arrived_le hMore
  have hClosed := h.closed (.inl hEarly)
  rw [hClosed.freed] at hFresh
  have hNew : bl ∉ s.round.added.map Prod.fst := fun hMem => by cases hFresh hMem
  have hOther (x : Word) (hx : x ∈ s.round.added.map Prod.fst) : x ≠ bl := by
    rintro rfl
    exact hNew hx
  have hRound : s.round.add s.store.state bl proc =
      { s.round with added := (bl, proc) :: s.round.added } := if_neg hMore
  unfold afterAdd
  rw [hRound]
  have hNull : bl ≠ 0 := fun hZero => space.nonNull (hZero ▸ hSpace)
  refine ⟨?_, ?_, List.nodup_cons.mpr ⟨hNew, h.nodup⟩, ?_, ?_,
    fun _ => ⟨?_, ?_, hClosed.state, hClosed.freed⟩, ?_⟩
  · exact Nat.le_succ_of_le h.arrived_le
  · change s.barrier.value + 1 = BitVec.ofNat 32 (s.round.added.length + 1 - s.round.arrived)
    rw [h.value, hZero, Nat.sub_zero, Nat.sub_zero, BitVec.ofNat_add]
    rfl
  · intro x hx
    rcases List.mem_cons.mp hx with rfl | hx
    · exact hSpace
    · exact h.inSpace x hx
  · intro x hx
    rw [h.outside hEarly x] at hx
    cases hx
  · apply Chain.cons _ hNull
    change Chain _ 0 (update s.store.next bl s.barrier.head bl) _
    rw [update_self]
    exact hClosed.chain.congr fun y hy => update_of_ne (hOther y hy) _ _
  · intro l hl
    rcases List.mem_cons.mp hl with rfl | hl
    · exact update_self _ _ _
    · have hNe := hOther l.1 (List.mem_map_of_mem hl)
      exact (update_of_ne hNe _ _).trans (hClosed.procs l hl)
  · intro hOver
    have hLength : s.round.arrived = s.round.added.length + 1 := hOver.1
    omega

theorem BarrierInv.add (h : BarrierInv space s) (hRounds : s.round.arrived = 0 ∨ RoundOver s)
    (hSpace : bl ∈ space.addresses) (hFresh : bl ∈ s.round.added.map Prod.fst → bl ∈ s.round.freed) :
    BarrierInv space (afterAdd s bl proc) := by
  by_cases hFull : s.round.arrived = s.round.added.length
  · exact h.addFirst (h.roundOver hRounds hFull) hSpace
  · rcases hRounds with hZero | hOver
    · exact h.addNext hZero hFull hSpace hFresh
    · exact absurd hOver.1 hFull

/-- The counter is at most 1 exactly before the last call of the round. -/
theorem BarrierInv.le_one_iff (hInv : BarrierInv space s) (hEarly : s.round.arrived < s.round.added.length) :
    s.barrier.value.toInt ≤ 1 ↔ s.round.arrived + 1 = s.round.added.length := by
  have hLength := hInv.length_lt
  have hNat : s.barrier.value.toNat = s.round.added.length - s.round.arrived := by
    rw [hInv.value, BitVec.toNat_ofNat]
    exact Nat.mod_eq_of_lt (by omega)
  have hInt : s.barrier.value.toInt = s.barrier.value.toNat :=
    BitVec.toInt_eq_toNat_of_lt (by omega)
  rw [hInt, hNat]
  omega

variable [DecidableEq Hart] {h : Hart}

theorem wallArrive_eq (barrier : Barrier) :
    wallArrive barrier =
      (decide (barrier.value.toInt ≤ 1), { barrier with value := barrier.value + -1 }) :=
  rfl

theorem BarrierInv.arrive {opens : Bool} {barrier : Barrier} (hInv : BarrierInv space s)
    (hEarly : s.round.arrived < s.round.added.length)
    (hCall : wallArrive s.barrier = (opens, barrier)) :
    BarrierInv space { s with
      barrier := barrier
      place := if opens then update s.place h .opening else s.place
      round := { s.round with arrived := s.round.arrived + 1 } } := by
  have hOutside := hInv.outside hEarly
  have hClosed := hInv.closed (.inl hEarly)
  have hLe := hInv.le_one_iff hEarly
  have hNodup := hInv.nodup
  have hInSpace := hInv.inSpace
  have hSome : s.round.added ≠ [] := List.ne_nil_of_length_pos (by omega)
  have hValue : s.barrier.value + -1 =
      BitVec.ofNat 32 (s.round.added.length - (s.round.arrived + 1)) := by
    have hSplit : s.round.added.length - s.round.arrived =
        s.round.added.length - (s.round.arrived + 1) + 1 := by omega
    have hCancel : BitVec.ofNat 32 1 + -1 = 0#32 := rfl
    rw [hInv.value, hSplit, BitVec.ofNat_add, BitVec.add_assoc, hCancel, BitVec.add_zero]
  rw [wallArrive_eq] at hCall
  obtain ⟨rfl, rfl⟩ := Prod.mk.inj hCall
  -- The fields are named: the old and the new value of the counter are not to be compared.
  obtain ⟨⟨head, value⟩, store, place, ⟨added, arrived, freed, before⟩⟩ := s
  dsimp only at *
  generalize value + -1 = value' at hValue ⊢
  have hOld (place' : Hart → WallPlace) :
      Closed ⟨⟨head, value'⟩, store, place', ⟨added, arrived + 1, freed, before⟩⟩ :=
    ⟨hClosed.chain, hClosed.procs, hClosed.state, hClosed.freed⟩
  by_cases hLast : arrived + 1 = added.length
  · rw [if_pos (decide_eq_true (hLe.mpr hLast))]
    have hOnly (x : Hart) (hx : update place h .opening x = .opening) : x = h := by
      by_contra hNe
      rw [update_of_ne hNe, hOutside x] at hx
      cases hx
    refine ⟨hEarly, hValue, hNodup, hInSpace, fun x hx => ⟨hLast, hSome, fun y hy => ?_⟩,
      fun _ => hOld _, fun hOver => ?_⟩
    · rw [hOnly x hx, hOnly y hy]
    · have hAt : update place h .opening h = .outside := hOver.2 h
      rw [update_self] at hAt
      cases hAt
  · rw [if_neg (by simpa using fun hFew => hLast (hLe.mp hFew))]
    refine ⟨hEarly, hValue, hNodup, hInSpace, fun x hx => ?_, fun _ => hOld _,
      fun hOver => absurd hOver.1 hLast⟩
    have hAt : place x = .opening := hx
    rw [hOutside x] at hAt
    cases hAt

/-- The barrier, and the record of its round, when the call that walks the list
is over. -/
def afterWalk (s : BarrierUse Hart) (h : Hart) (freed : List Word) (barrier : Barrier)
    (store : Store) : BarrierUse Hart where
  barrier := barrier
  store := store
  place := update s.place h .outside
  round := { s.round with freed := s.round.freed ++ freed }

/-- The call that opens the barrier has a result, and that ends the round. -/
theorem BarrierInv.wallOpen (hInv : BarrierInv space s) (hOpening : s.place h = .opening)
    (scrap : Word → Word × Word) : ∃ freed barrier store,
      (∀ fuel, wallOpen scrap fuel s.barrier s.store =
        if s.round.added.length < fuel then some (freed, barrier, store) else none) ∧
      BarrierInv space (afterWalk s h freed barrier store) ∧
      RoundOver (afterWalk s h freed barrier store) := by
  have hClosed := hInv.closed (.inr ⟨h, hOpening⟩)
  obtain ⟨hFull, -, hOnly⟩ := hInv.opening h hOpening
  obtain ⟨m', hRunning, hSame, hLoop⟩ := wallLoop_spec scrap hClosed.chain
  have hProcs : (s.round.added.map Prod.fst).map s.store.proc = s.round.added.map Prod.snd := by
    rw [List.map_map]
    exact List.map_congr_left hClosed.procs
  rw [hProcs] at hRunning hSame
  have hOutside (x : Hart) : update s.place h .outside x = .outside := by
    by_cases hx : x = h
    · rw [hx]
      exact update_self _ _ _
    · apply outside_of_ne
      intro hAt
      rw [update_of_ne hx] at hAt
      exact hx (hOnly x hAt)
  refine ⟨s.round.added.map Prod.fst, { s.barrier with head := 0 }, m', fun fuel => ?_,
    ⟨hInv.arrived_le, hInv.value, hInv.nodup, hInv.inSpace, fun x hx => ?_,
      fun hClosed => ?_, fun _ => ⟨rfl, hRunning, fun p hp => ?_, ?_⟩⟩, hFull, hOutside⟩
  · unfold Lock.wallOpen
    rw [hLoop fuel, List.length_map]
    by_cases hFuel : s.round.added.length < fuel
    · rw [if_pos hFuel, if_pos hFuel]
      rfl
    · rw [if_neg hFuel, if_neg hFuel]
      rfl
  · have hAt : update s.place h .outside x = .opening := hx
    rw [hOutside x] at hAt
    cases hAt
  · rcases hClosed with hEarly | ⟨x, hx⟩
    · exact absurd hFull (Nat.ne_of_lt hEarly)
    · have hAt : update s.place h .outside x = .opening := hx
      rw [hOutside x] at hAt
      cases hAt
  · exact (hSame p hp).trans (congrFun hClosed.state p)
  · change s.round.freed ++ _ = _
    rw [hClosed.freed]
    rfl

theorem BarrierStep.inv {event : BarrierEvent Hart}
    (hStep : Guarded (BarrierStep space) InRounds s event t) (hInv : BarrierInv space s) :
    BarrierInv space t := by
  obtain ⟨hRounds, hStep⟩ := hStep
  cases hStep with
  | add bl proc hSpace hFresh hCall =>
      obtain ⟨rfl, rfl⟩ := Prod.mk.inj hCall
      exact hInv.add hRounds hSpace hFresh
  | arrive h hOutside hCall => exact hInv.arrive hRounds hCall
  | walk h scrap hOpening hCall =>
      obtain ⟨freed, barrier, store, hFuel, hInv', -⟩ := hInv.wallOpen hOpening scrap
      rw [hFuel] at hCall
      split at hCall
      · cases hCall
        exact hInv'
      · cases hCall

theorem BarrierInv.opens (hInv : BarrierInv space s) : Opens space s where
  waits hEarly := by
    have hClosed := hInv.closed (.inl hEarly)
    exact ⟨hClosed.state, hClosed.freed, hInv.outside hEarly⟩
  last hFull := by
    by_cases hOver : RoundOver s
    · exact .inl hOver
    · have hSome : ∃ h, s.place h = .opening := by
        by_contra hNone
        exact hOver ⟨hFull, fun x => outside_of_ne fun hx => hNone ⟨x, hx⟩⟩
      obtain ⟨h, hOpening⟩ := hSome
      have hClosed := hInv.closed (.inr ⟨h, hOpening⟩)
      refine .inr ⟨h, fun h' => ⟨(hInv.opening h hOpening).2.2 h', fun hEq => hEq ▸ hOpening⟩,
        hClosed.state, hClosed.freed, fun scrap => ?_⟩
      obtain ⟨freed, barrier, store, hFuel, -, hOver'⟩ := hInv.wallOpen hOpening scrap
      have hCall := hFuel (s.round.added.length + 1)
      rw [if_pos (Nat.lt_succ_self _)] at hCall
      exact ⟨_, .walk h scrap hOpening hCall, hOver'⟩
  opened hOver := by
    have hOpened := hInv.opened hOver
    refine ⟨fun l hl => hOpened.running l.2 (List.mem_map_of_mem hl), hOpened.others,
      hOpened.freed, hOpened.freed ▸ hInv.nodup, ?_⟩
    have hValue := hInv.value
    have hHead := hOpened.head
    rw [hOver.1, Nat.sub_self] at hValue
    obtain ⟨⟨head, value⟩⟩ := s
    subst hHead hValue
    rfl
  arrived_le := hInv.arrived_le

/-- In every run the barrier opens at the last call of every round and not
before. -/
theorem barrier_opens_of_run (m : Store) {events : List (BarrierEvent Hart)}
    (run : Run (Guarded (BarrierStep space) InRounds) (barrierStart m) events s) :
    Opens space s :=
  (run.invariant (BarrierInv space) (barrierInv_start m)
    (fun _ _ _ hInv hStep => BarrierStep.inv hStep hInv)).opens

/-- A round of two processes whose last call has not walked the list yet. -/
theorem barrier_opens_of_run_two :
    Opens ⟨{0x120000fd8, 0x120000fa8}, by decide, by decide⟩
      ({ barrier := ⟨0x120000fd8, 0⟩
         store := (barrierAddProcess ⟨0x120000fa8, 1⟩ (barrierAddProcess barrierInit
           ⟨fun _ => 0, fun _ => 0, fun _ => .waiting⟩ 0x120000fa8 0x80071000).2
           0x120000fd8 0x80070000).2
         place := update (fun _ => .outside) true .opening
         round := ⟨[(0x120000fd8, 0x80070000), (0x120000fa8, 0x80071000)], 2, [],
           fun _ => .waiting⟩ } : BarrierUse Bool) :=
  barrier_opens_of_run ⟨fun _ => 0, fun _ => 0, fun _ => .waiting⟩
    (.snoc (.snoc (.snoc (.snoc (.nil _)
      ⟨by exact Or.inl rfl, .add 0x120000fa8 0x80071000 (by decide) nofun rfl⟩)
      ⟨by exact Or.inl rfl, .add 0x120000fd8 0x80070000 (by decide) (by decide) rfl⟩)
      ⟨by unfold InRounds; decide, .arrive false rfl rfl⟩)
      ⟨by unfold InRounds; decide, .arrive true rfl rfl⟩)

end Kernel.Lock
