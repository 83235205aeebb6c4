import RiscvOs.Kernel.SchedulingHarts

/-! When no two harts run the same process. A hart gives its process back to
the queue before it saves `sepc`, and has it in `p_current` until it takes the
next one: another hart must not find the process in between. -/
namespace Kernel.Scheduling

open Semantics SortedMap Function Rbtree RBNode

/-- Behind `schedule_add`, and before the next write to `p_current`. -/
def HartPlace.Window : HartPlace → Prop
  | saving _ | leaving _ | finding => True
  | spawning n => n = 0
  | _ => False

/-- Before `sepc` is saved. -/
def HartPlace.Open : HartPlace → Prop
  | running | check | charge _ | adding _ | saving _ => True
  | _ => False

/-- Also the calls of `schedule_find_next` whose walk begins at no node of the
tree, where it may come to any value. -/
inductive StrayStep : Harts → HartEvent → Harts → Prop where
  | hart {s t : Harts} {event : HartEvent} (hStep : HartStep s event t) : StrayStep s event t
  | find {s : Harts} {hart : Nat} {time value n : Word} {t : Sched}
      (hPlace : s.place hart = .finding) (hStrays : Strays s.sched) (hValue : value ≠ 0)
      (call : takeNext hart time value s.sched = some (n, t)) :
      StrayStep s (.find hart time) ({ s with sched := t }.setPlace hart (.spawning n))

/-- The walk of `schedule_find_next` begins at a node of the tree, the process
that it finds is not in the window of another hart, and its deletion takes a safe
way. -/
def Clear (s : Harts) : HartEvent → Prop
  | .find hart _ => Begins s.sched ∧
      ∀ key p, Found s.sched key p → p ≠ 0 → PathSafe key s.sched.tree.root ∧
        ∀ hart', hart' ≠ hart → s.sched.current hart' = p → ¬ (s.place hart').Window
  | _ => True

/-- No two harts run the same process, idle processes aside. -/
def RunsAlone (s : Harts) : Prop :=
  ∀ hart hart' p, p ≠ 0 → NotIdle s.idle p → s.sched.current hart = p →
    s.sched.current hart' = p → hart' = hart

/-- No hart has run what `schedule_find_next` hands out without saving `sepc`
since. -/
def FindsSaved (hart : Nat) (s : Harts) : Prop :=
  ∀ time p t, scheduleFindNext hart time s.sched = some (p, t) → p ≠ 0 →
    ∀ hart', s.unsaved hart' ≠ some p

/-- A process in the queue is on no hart but in its window. -/
structure Exclusive (s : Harts) : Prop extends Settled s where
  ordered : Ordered s.sched.tree.root.entries
  key : ∀ key p, s.sched.lookup key = some p → p ≠ 0 → key = (s.sched.procs p).vRuntime
  queued : ∀ key p, s.sched.lookup key = some p → p ≠ 0 →
    ∀ hart, s.sched.current hart = p → (s.place hart).Window
  alone : RunsAlone s
  unsaved : ∀ hart p, p ≠ 0 → s.unsaved hart = some p →
    s.sched.current hart = p ∧ (s.place hart).Open

section Facts

variable {s t : Harts} {event : HartEvent} {events : List HartEvent} {hart : Nat} {p : Word}

theorem Booted.exclusive (h : Booted s) : Exclusive s := by
  refine ⟨h.settled, h.ordered, fun key p hEntry hSome => (h.entry key p hEntry hSome).2.1,
    ?_, ?_, ?_⟩
  · intro key p hEntry hSome hart hCurrent
    exact absurd hCurrent ((h.entry key p hEntry hSome).2.2 hart)
  · rintro hart hart' p hSome hNot rfl hSame
    exact h.alone hart hart' hSome hNot hSame
  · intro hart p hSome hUnsaved
    refine ⟨h.unsaved hart p hUnsaved, ?_⟩
    rw [h.place hart]
    trivial

/-- A step of one hart, which then runs the process `p`. -/
theorem Exclusive.move (h : Exclusive s) {place : HartPlace} (hSettled : Settled t)
    (hIdle : t.idle = s.idle) (hOrdered : Ordered t.sched.tree.root.entries)
    (hPlace : t.place = update s.place hart place)
    (hCurrent : t.sched.current = update s.sched.current hart p)
    (hUnsaved : ∀ hart', hart' ≠ hart → t.unsaved hart' = s.unsaved hart')
    (hKey : ∀ key q, t.sched.lookup key = some q → q ≠ 0 → key = (t.sched.procs q).vRuntime)
    (hHere : ∀ key q, t.sched.lookup key = some q → q ≠ 0 → p = q → place.Window)
    (hOthers : ∀ key q, t.sched.lookup key = some q → q ≠ 0 →
      ∀ hart', hart' ≠ hart → s.sched.current hart' = q → (s.place hart').Window)
    (hAlone : p ≠ 0 → NotIdle s.idle p → ∀ hart', hart' ≠ hart → s.sched.current hart' ≠ p)
    (hOpen : ∀ q, q ≠ 0 → t.unsaved hart = some q → p = q ∧ place.Open) : Exclusive t := by
  have hSelf : t.sched.current hart = p := by rw [hCurrent, update_self]
  have hOther {hart' : Nat} (hNe : hart' ≠ hart) :
      t.sched.current hart' = s.sched.current hart' := by rw [hCurrent, update_of_ne hNe]
  have hPlaceSelf : t.place hart = place := by rw [hPlace, update_self]
  have hPlaceOther {hart' : Nat} (hNe : hart' ≠ hart) : t.place hart' = s.place hart' := by
    rw [hPlace, update_of_ne hNe]
  refine ⟨hSettled, hOrdered, hKey, ?_, ?_, ?_⟩
  · intro key q hEntry hSome hart' hRuns
    by_cases hSame : hart' = hart
    · subst hSame
      rw [hPlaceSelf]
      exact hHere key q hEntry hSome (hSelf.symm.trans hRuns)
    · rw [hPlaceOther hSame]
      exact hOthers key q hEntry hSome hart' hSame ((hOther hSame).symm.trans hRuns)
  · intro hart₁ hart₂ q hSome hNot hRuns₁ hRuns₂
    rw [hIdle] at hNot
    by_cases hSame₁ : hart₁ = hart
    · subst hSame₁
      cases hSelf.symm.trans hRuns₁
      by_contra hNe
      exact hAlone hSome hNot hart₂ hNe ((hOther hNe).symm.trans hRuns₂)
    · by_cases hSame₂ : hart₂ = hart
      · subst hSame₂
        cases hSelf.symm.trans hRuns₂
        exact absurd ((hOther hSame₁).symm.trans hRuns₁) (hAlone hSome hNot hart₁ hSame₁)
      · exact h.alone hart₁ hart₂ q hSome hNot ((hOther hSame₁).symm.trans hRuns₁)
          ((hOther hSame₂).symm.trans hRuns₂)
  · intro hart' q hSome hRan
    by_cases hSame : hart' = hart
    · subst hSame
      rw [hSelf, hPlaceSelf]
      exact hOpen q hSome hRan
    · rw [hUnsaved hart' hSame] at hRan
      rw [hOther hSame, hPlaceOther hSame]
      exact h.unsaved hart' q hSome hRan

/-- A hart that keeps its process is alone with it. -/
theorem Exclusive.keeps_alone (h : Exclusive s) (hart : Nat) :
    s.sched.current hart ≠ 0 → NotIdle s.idle (s.sched.current hart) →
      ∀ hart', hart' ≠ hart → s.sched.current hart' ≠ s.sched.current hart := by
  intro hSome hNot hart' hNe hSame
  exact hNe (h.alone hart hart' _ hSome hNot rfl hSame)

/-- A step that keeps the queue and the processes on the harts. -/
theorem Exclusive.stay (h : Exclusive s) {place : HartPlace} (hSettled : Settled t)
    (hIdle : t.idle = s.idle) (hTree : t.sched.tree = s.sched.tree)
    (hPlace : t.place = update s.place hart place) (hCurrent : t.sched.current = s.sched.current)
    (hTime : ∀ key q, s.sched.lookup key = some q → q ≠ 0 →
      (t.sched.procs q).vRuntime = (s.sched.procs q).vRuntime)
    (hWindow : (s.place hart).Window → place.Window)
    (hUnsaved : ∀ hart', hart' ≠ hart → t.unsaved hart' = s.unsaved hart')
    (hOpen : ∀ q, q ≠ 0 → t.unsaved hart = some q → s.sched.current hart = q ∧ place.Open) :
    Exclusive t := by
  have hLookup (key : Word) : t.sched.lookup key = s.sched.lookup key := by
    rw [Sched.lookup, hTree]
    rfl
  have hSame : t.sched.current = update s.sched.current hart (s.sched.current hart) := by
    rw [hCurrent, update_eq_self]
  refine h.move hSettled hIdle (by rw [hTree]; exact h.ordered) hPlace hSame hUnsaved ?_ ?_ ?_
    (h.keeps_alone hart) hOpen
  · intro key q hEntry hSome
    rw [hLookup] at hEntry
    rw [hTime key q hEntry hSome]
    exact h.key key q hEntry hSome
  · intro key q hEntry hSome hRuns
    rw [hLookup] at hEntry
    exact hWindow (h.queued key q hEntry hSome hart hRuns)
  · intro key q hEntry hSome hart' _ hRuns
    rw [hLookup] at hEntry
    exact h.queued key q hEntry hSome hart' hRuns

/-- A trap brings a hart to `schedule_hart_check`. -/
theorem Exclusive.enter (h : Exclusive s) {s' : Harts} {epc : Word} (hSame : SameQueue s s')
    (hPlace : s.place hart = .running) (hSettled : Settled (enter hart epc s')) :
    Exclusive (enter hart epc s') := by
  have hNext : (Scheduling.enter hart epc s').place = update s.place hart .check := by
    rw [Scheduling.enter, hSame.place]
  refine h.stay hSettled hSame.idle hSame.tree hNext hSame.current
    (fun key q _ _ => hSame.vRuntime q) ?_ (fun hart' _ => congrFun hSame.unsaved hart') ?_
  · rw [hPlace]
    exact id
  · intro q hSome hRan
    change s'.unsaved hart = some q at hRan
    rw [hSame.unsaved] at hRan
    exact ⟨(h.unsaved hart q hSome hRan).1, trivial⟩

theorem Exclusive.check (h : Exclusive s) (hPlace : s.place hart = .check)
    (hSettled : Settled (s.setPlace hart (checkNext hart s))) :
    Exclusive (s.setPlace hart (checkNext hart s)) := by
  refine h.stay hSettled rfl rfl rfl rfl (fun _ _ _ _ => rfl) ?_ (fun _ _ => rfl) ?_
  · rw [hPlace]
    exact False.elim
  · intro q hSome hRan
    obtain ⟨hRuns, -⟩ := h.unsaved hart q hSome hRan
    refine ⟨hRuns, ?_⟩
    unfold checkNext
    dsimp only
    rw [hRuns, if_neg hSome]
    split <;> trivial

/-- The process whose run time grows is not in the queue. -/
theorem Exclusive.charge (h : Exclusive s) {time : Word} (hPlace : s.place hart = .charge p)
    (hSettled : Settled ((chargeTime p time s).setPlace hart (.adding p))) :
    Exclusive ((chargeTime p time s).setPlace hart (.adding p)) := by
  have hHolds := h.holds hart
  rw [hPlace] at hHolds
  refine h.stay hSettled rfl rfl rfl rfl ?_ ?_ (fun _ _ => rfl) ?_
  · intro key q hEntry hSome
    have hNe : q ≠ p := by
      rintro rfl
      have hWindow := h.queued key q hEntry hSome hart hHolds.1.symm
      rw [hPlace] at hWindow
      exact hWindow
    change (update s.sched.procs p _ q).vRuntime = _
    rw [update_of_ne hNe]
  · rw [hPlace]
    exact False.elim
  · intro q hSome hRan
    exact ⟨(h.unsaved hart q hSome hRan).1, trivial⟩

/-- `schedule_add` brings in one entry at most, for its own process. -/
theorem scheduleAdd_entry {a b : Sched} {page : Word} (h : Ordered a.tree.root.entries)
    (call : scheduleAdd page p a = some b) : Ordered b.tree.root.entries ∧
      (∀ q, (b.procs q).vRuntime = (a.procs q).vRuntime) ∧
      ∀ key q, b.lookup key = some q →
        (q = p ∧ key = (a.procs p).vRuntime) ∨ a.lookup key = some q := by
  obtain ⟨tree, hInsert, hEntries⟩ := rbInsert_cases page h (a.procs p).vRuntime p
  simp only [scheduleAdd, hInsert, Option.bind_eq_bind, Option.bind_some] at call
  cases call
  refine ⟨?_, ?_, ?_⟩
  · rcases hEntries with hPut | ⟨-, hOld⟩
    · rw [hPut]
      exact h.put _ _
    · rwa [hOld]
  · exact update_vRuntime (by rfl)
  · intro key q hEntry
    dsimp only [Sched.lookup] at hEntry
    rcases hEntries with hPut | ⟨-, hOld⟩
    · rw [hPut, get_put] at hEntry
      split at hEntry
      next hKey =>
        cases hEntry
        exact .inl ⟨rfl, hKey⟩
      next => exact .inr hEntry
    · rw [hOld] at hEntry
      exact .inr hEntry

theorem Exclusive.add (h : Exclusive s) {page : Word} {b : Sched}
    (hPlace : s.place hart = .adding p) (call : scheduleAdd page p s.sched = some b)
    (hSettled : Settled ({ s with sched := b }.setPlace hart (.saving p))) :
    Exclusive ({ s with sched := b }.setPlace hart (.saving p)) := by
  have hHolds := h.holds hart
  rw [hPlace] at hHolds
  obtain ⟨rfl, hSome, hNot⟩ := hHolds
  obtain ⟨hOrdered, hTime, hEntry⟩ := scheduleAdd_entry h.ordered call
  have hCurrent : b.current = update s.sched.current hart (s.sched.current hart) := by
    rw [scheduleAdd_current call, update_eq_self]
  refine h.move hSettled rfl hOrdered rfl hCurrent (fun _ _ => rfl) ?_ (fun _ _ _ _ _ => trivial) ?_
    (h.keeps_alone hart) ?_
  · intro key q hFound hq
    change key = (b.procs q).vRuntime
    rw [hTime]
    rcases hEntry key q hFound with ⟨rfl, hKey⟩ | hOld
    · exact hKey
    · exact h.key key q hOld hq
  · intro key q hFound hq hart' hNe hRuns
    rcases hEntry key q hFound with ⟨rfl, -⟩ | hOld
    · exact absurd hRuns (h.keeps_alone hart hSome hNot hart' hNe)
    · exact h.queued key q hOld hq hart' hRuns
  · intro q hq hRan
    exact ⟨(h.unsaved hart q hq hRan).1, trivial⟩

theorem Exclusive.save (h : Exclusive s)
    (hSettled : Settled ((saveSepc hart p s).setPlace hart (.leaving p))) :
    Exclusive ((saveSepc hart p s).setPlace hart (.leaving p)) := by
  have hTime (q : Word) : ((saveSepc hart p s).sched.procs q).vRuntime =
      (s.sched.procs q).vRuntime := update_vRuntime (by rfl) q
  refine h.stay hSettled rfl rfl rfl rfl (fun _ q _ _ => hTime q) (fun _ => trivial)
    (fun hart' hNe => update_of_ne hNe _ _) ?_
  intro q hSome hRan
  change update s.unsaved hart none hart = some q at hRan
  rw [update_self] at hRan
  cases hRan

/-- Behind the save the hart has run no process that is not saved. -/
theorem Exclusive.saved (h : Exclusive s) (hPlace : ¬ (s.place hart).Open) (hSome : p ≠ 0) :
    s.unsaved hart ≠ some p :=
  fun hRan => hPlace (h.unsaved hart p hSome hRan).2

theorem Exclusive.leave (h : Exclusive s) (hPlace : s.place hart = .leaving p)
    (hSettled : Settled ((leaveHart p s).setPlace hart .finding)) :
    Exclusive ((leaveHart p s).setPlace hart .finding) := by
  have hTime (q : Word) : ((leaveHart p s).sched.procs q).vRuntime =
      (s.sched.procs q).vRuntime := update_vRuntime (by rfl) q
  refine h.stay hSettled rfl rfl rfl rfl (fun _ q _ _ => hTime q) (fun _ => trivial)
    (fun _ _ => rfl) ?_
  intro q hSome hRan
  exact absurd hRan (h.saved (by rw [hPlace]; exact id) hSome)

/-- The process that is handed out leaves the queue. -/
theorem Exclusive.find (h : Exclusive s) {time n : Word} {b : Sched}
    (hPlace : s.place hart = .finding) (hClear : Clear s (.find hart time))
    (call : scheduleFindNext hart time s.sched = some (n, b))
    (hSettled : Settled ({ s with sched := b }.setPlace hart (.spawning n))) :
    Exclusive ({ s with sched := b }.setPlace hart (.spawning n)) := by
  have hOpen : ¬ (s.place hart).Open := by rw [hPlace]; exact id
  rcases scheduleFindNext_cases call with ⟨rfl, rfl⟩ | ⟨hValue, -, tree, freed, hDelete, rfl⟩
  · exact h.stay hSettled rfl rfl rfl rfl (fun _ _ _ _ => rfl) (fun _ => rfl) (fun _ _ => rfl)
      fun q hSome hRan => absurd hRan (h.saved hOpen hSome)
  · obtain ⟨hSome, key, hFound⟩ := leftmostValue_eq_some.mp hValue
    obtain ⟨hPath, hOthers⟩ := hClear.2 key n hFound hSome
    have hEntry := hFound.lookup h.ordered
    have hKey := h.key key n hEntry hSome
    obtain ⟨tree', freed', hDelete', hEntries, -⟩ := rbDelete_spec h.ordered hPath
    rw [hKey, hDelete] at hDelete'
    cases hDelete'
    have hLookup {x q : Word} (hFind : get tree.root.entries x = some q) :
        x ≠ key ∧ s.sched.lookup x = some q := by
      rw [hEntries, get_erase] at hFind
      split at hFind
      next => cases hFind
      next hNe => exact ⟨hNe, hFind⟩
    have hTime (q : Word) : (update s.sched.procs n
        { s.sched.procs n with startTime := time, hartNum := hart } q).vRuntime =
          (s.sched.procs q).vRuntime := update_vRuntime (by rfl) q
    have hOrdered : Ordered tree.root.entries := by
      rw [hEntries]
      exact h.ordered.erase key
    refine h.move hSettled rfl hOrdered rfl rfl
      (fun _ _ => rfl) ?_ ?_ ?_ ?_ fun q hq hRan => absurd hRan (h.saved hOpen hq)
    · intro x q hFind hq
      exact (h.key x q (hLookup hFind).2 hq).trans (hTime q).symm
    · rintro x q hFind hq rfl
      exact absurd ((h.key x n (hLookup hFind).2 hq).trans hKey.symm) (hLookup hFind).1
    · intro x q hFind hq hart' _ hRuns
      exact h.queued x q (hLookup hFind).2 hq hart' hRuns
    · intro _ _ hart' hNe hRuns
      exact hOthers hart' hNe hRuns (h.queued key n hEntry hSome hart' hRuns)

theorem Exclusive.spawn (h : Exclusive s) {n : Word} (hPlace : s.place hart = .spawning n)
    (hSettled : Settled (pSpawnOnHart hart (chooseNext hart n s) s)) :
    Exclusive (pSpawnOnHart hart (chooseNext hart n s) s) := by
  have hHolds := h.holds hart
  rw [hPlace] at hHolds
  have hChosen : chooseNext hart n s = s.idle hart ∨
      n ≠ 0 ∧ chooseNext hart n s = s.sched.current hart := by
    unfold chooseNext
    split
    next => exact .inl rfl
    next hSome => exact .inr ⟨hSome, hHolds hSome⟩
  have hTime (q : Word) : ((pSpawnOnHart hart (chooseNext hart n s) s).sched.procs q).vRuntime =
      (s.sched.procs q).vRuntime := update_vRuntime (by rfl) q
  refine h.move hSettled rfl h.ordered rfl rfl (fun hart' hNe => update_of_ne hNe _ _) ?_ ?_
    (fun key q hEntry hSome hart' _ hRuns => h.queued key q hEntry hSome hart' hRuns) ?_ ?_
  · intro key q hEntry hSome
    rw [h.key key q hEntry hSome]
    exact (hTime q).symm
  · intro key q hEntry hSome hRuns
    rcases hChosen with hIdle | ⟨hNext, hCurrent⟩
    · have hMem := (mem_iff_get h.ordered).mpr hEntry
      exact absurd (hRuns.symm.trans hIdle) ((h.entry _ hMem).resolve_left hSome hart)
    · have hWindow := h.queued key q hEntry hSome hart (hCurrent.symm.trans hRuns)
      rw [hPlace] at hWindow
      exact absurd hWindow hNext
  · intro hSome hNot
    rcases hChosen with hIdle | ⟨-, hCurrent⟩
    · exact absurd hIdle (hNot hart)
    · rw [hCurrent] at hSome hNot ⊢
      exact h.keeps_alone hart hSome hNot
  · intro q _ hRan
    change update s.unsaved hart _ hart = some q at hRan
    rw [update_self] at hRan
    exact ⟨Option.some.inj hRan, trivial⟩

theorem Exclusive.hartStep (h : Exclusive s) (hClear : Clear s event)
    (hStep : HartStep s event t) : Exclusive t := by
  have hSettled := h.toSettled.step hStep
  cases hStep with
  | resched hPlace => exact h.enter ⟨rfl, rfl, rfl, fun _ => rfl, rfl, rfl⟩ hPlace hSettled
  | exit hPlace => exact h.enter (syscallExit_sameQueue _ _) hPlace hSettled
  | sleep hPlace => exact h.enter (syscallSleep_sameQueue _ _ _ _) hPlace hSettled
  | check hPlace => exact h.check hPlace hSettled
  | charge hPlace => exact h.charge hPlace hSettled
  | add hPlace call => exact h.add hPlace call hSettled
  | save hPlace => exact h.save hSettled
  | leave hPlace => exact h.leave hPlace hSettled
  | find hPlace call => exact h.find hPlace hClear call hSettled
  | spawn hPlace => exact h.spawn hPlace hSettled

theorem Exclusive.step (h : Exclusive s) (last : Guarded StrayStep Clear s event t) :
    Exclusive t := by
  obtain ⟨hClear, hStep⟩ := last
  cases hStep with
  | hart hStep => exact h.hartStep hClear hStep
  | find hPlace hStrays => exact absurd hStrays hClear.1.not_strays

/-- What a hart finds outside the windows of the others is saved. -/
theorem Exclusive.findsSaved (h : Exclusive s) {time : Word} (hPlace : s.place hart = .finding)
    (hClear : Clear s (.find hart time)) : FindsSaved hart s := by
  intro time n b call hSome hart' hRan
  rcases scheduleFindNext_cases call with ⟨rfl, -⟩ | ⟨hValue, -⟩
  · exact hSome rfl
  · obtain ⟨-, key, hFound⟩ := leftmostValue_eq_some.mp hValue
    obtain ⟨hRuns, hOpen⟩ := h.unsaved hart' n hSome hRan
    by_cases hSame : hart' = hart
    · subst hSame
      rw [hPlace] at hOpen
      exact hOpen
    · exact (hClear.2 key n hFound hSome).2 hart' hSame hRuns
        (h.queued key n (hFound.lookup h.ordered) hSome hart' hRuns)

end Facts

/-- Where no hart finds a process in the window of another one, no process is
on two harts, and all that is handed out is saved. -/
theorem runsAlone_of_clear {s t : Harts} {events : List HartEvent} (hStart : Booted s)
    (run : Run (Guarded StrayStep Clear) s events t) : RunsAlone t ∧
      ∀ hart time, t.place hart = .finding → Clear t (.find hart time) → FindsSaved hart t := by
  have hExclusive : Exclusive t :=
    run.invariant Exclusive hStart.exclusive fun _ _ _ h last => h.step last
  exact ⟨hExclusive.alone, fun hart time hPlace hClear => hExclusive.findsSaved hPlace hClear⟩

/-- Hart 0 takes the process at `0x80071000` in place of its own. -/
theorem runsAlone_of_clear_find : ∃ u, u.sched.current 0 = 0x80071000 ∧ RunsAlone u := by
  obtain ⟨s, t, run, hTree, hPlace, hCurrent, call, hNext⟩ : ∃ s t,
      Run (Guarded StrayStep Clear) exampleHarts [.resched 0 0, .check 0, .charge 0 0x80061000,
        .add 0 0x80061000, .save 0, .leave 0] s ∧
      s.sched.tree.root = node 0x80061000 0x80061000 0x80072000 .black
        (node 0x80060000 0 0x80071000 .red null null) null ∧
      s.place 0 = .finding ∧ s.sched.current = exampleHarts.sched.current ∧
      scheduleFindNext 0 0x80061001 s.sched = some (0x80071000, t) ∧ t.current 0 = 0x80071000 :=
    ⟨_, _, .snoc (.snoc (.snoc (.snoc (.snoc (.snoc (.nil _) ⟨trivial, .hart (.resched rfl)⟩)
      ⟨trivial, .hart (.check rfl)⟩) ⟨trivial, .hart (.charge rfl)⟩)
      ⟨trivial, .hart (.add rfl rfl)⟩) ⟨trivial, .hart (.save rfl)⟩)
      ⟨trivial, .hart (.leave rfl)⟩, rfl, rfl, rfl, rfl, rfl⟩
  have hClear : Clear s (.find 0 0x80061001) := by
    refine ⟨⟨0x80061000, s.sched.tree.root, ?_, ?_⟩, ?_⟩
    · rw [hTree]
      rfl
    · rw [hTree]
      rfl
    rintro key p ⟨a, u, hRoot, hNode, hMin⟩ -
    rw [hTree] at hRoot hNode ⊢
    cases hRoot
    cases hNode
    cases hMin
    refine ⟨.goLeft (by decide) (by decide) rfl (.free (by decide) rfl), ?_⟩
    intro hart' hNe hRuns
    rw [hCurrent, current_exampleHarts, if_neg hNe] at hRuns
    cases hRuns
  exact ⟨_, hNext, (runsAlone_of_clear booted_exampleHarts
    (.snoc run ⟨hClear, .hart (.find hPlace call)⟩)).1⟩

/-- Hart 1 finds the process that hart 0 has just put back, before hart 0
saves `sepc`. -/
theorem not_runsAlone : ∃ u v, Booted exampleHarts ∧ Run StrayStep exampleHarts
    [.resched 0 0, .check 0, .charge 0 0x80061000, .add 0 0x80061000, .save 0, .leave 0,
      .find 0 0x80061001, .spawn 0, .resched 0 0, .check 0, .charge 0 0x80061005,
      .add 0 0x80062000, .resched 1 0, .check 1, .save 1, .leave 1] u ∧
    StrayStep u (.find 1 0x80061006) v ∧ ¬ FindsSaved 1 u ∧ ¬ RunsAlone v := by
  refine ⟨_, _, booted_exampleHarts, .snoc (.snoc (.snoc (.snoc (.snoc (.snoc (.snoc (.snoc (.snoc
    (.snoc (.snoc (.snoc (.snoc (.snoc (.snoc (.snoc (.nil _) (.hart (.resched rfl)))
    (.hart (.check rfl))) (.hart (.charge rfl))) (.hart (.add rfl rfl))) (.hart (.save rfl)))
    (.hart (.leave rfl))) (.hart (.find rfl rfl))) (.hart (.spawn rfl (by decide))))
    (.hart (.resched rfl))) (.hart (.check rfl))) (.hart (.charge rfl))) (.hart (.add rfl rfl)))
    (.hart (.resched rfl))) (.hart (.check rfl))) (.hart (.save rfl))) (.hart (.leave rfl)),
    .hart (.find rfl rfl), ?_, ?_⟩
  · intro hSaved
    exact hSaved 0x80061006 0x80071000 _ rfl (by decide) 0 rfl
  · intro hAlone
    have hSame := hAlone 0 1 0x80071000 (by decide) (notIdle_exampleHarts (by decide)) rfl rfl
    cases hSame

end Kernel.Scheduling
