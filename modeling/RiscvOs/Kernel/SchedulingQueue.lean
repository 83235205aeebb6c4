import RiscvOs.Kernel.Scheduling
import RiscvOs.Semantics.Transition

/-! Runs of `schedule_add`, `schedule_remove` and `schedule_find_next`, one
after the other. The queue is keyed by `v_runtime`, and `schedule_find_next`
finds it by accident only. -/
namespace Kernel.Scheduling

open Semantics SortedMap Function Rbtree RBNode

section Facts

variable {s : Sched} {n u : RBNode} {a key value : Word}

theorem mem_of_nodeAt (h : nodeAt a n = some u) : ∀ e ∈ u.entries, e ∈ n.entries := by
  induction n with
  | null => cases h
  | node addr key value color left right ihLeft ihRight =>
      rw [nodeAt] at h
      intro e he
      split at h
      · cases h
        exact he
      · rw [entries, List.mem_append, List.mem_cons]
        rcases Option.or_eq_some_iff.mp h with hLeft | ⟨-, hRight⟩
        · exact .inl (ihLeft hLeft e he)
        · exact .inr (.inr (ihRight hRight e he))

/-- From a node on the left spine the walk ends at the least key. -/
theorem min_of_leftSpine (h : LeftSpine a n) : ∃ u, nodeAt a n = some u ∧ min u = min n := by
  induction n with
  | null => cases h
  | node addr key value color left right ihLeft =>
      rw [nodeAt]
      by_cases hHere : addr = a
      · exact ⟨_, if_pos hHere, rfl⟩
      · obtain ⟨u, hNode, hMin⟩ := ihLeft (h.resolve_left hHere)
        refine ⟨u, by rw [if_neg hHere, hNode]; rfl, hMin.trans ?_⟩
        cases left with
        | null => cases hNode
        | node => rfl

/-- The entry with the least key comes first. -/
theorem least_of_min (h : Ordered n.entries) (hMin : min n = some (key, value)) :
    get n.entries key = some value ∧ ∀ e ∈ n.entries, key ≤ e.1 := by
  rw [min_eq_head] at hMin
  obtain ⟨rest, hEntries⟩ := List.head?_eq_some_iff.mp hMin
  rw [hEntries] at h ⊢
  refine ⟨by rw [get_cons, if_pos rfl], ?_⟩
  intro e he
  rcases List.mem_cons.mp he with rfl | hRest
  · exact le_refl _
  · exact le_of_lt ((List.pairwise_cons.mp h).1 e hRest)

/-- The entries of an ordered list are what is found in it. -/
theorem mem_iff_get {l : List (Word × Word)} (h : Ordered l) :
    (key, value) ∈ l ↔ get l key = some value := by
  induction l with
  | nil => simp
  | cons e l ih =>
      obtain ⟨hHead, hTail⟩ := List.pairwise_cons.mp h
      rw [List.mem_cons, get_cons, ih hTail]
      by_cases hKey : e.1 = key
      · have hNone : get l key = none :=
          get_eq_none fun a ha hSame => absurd (hHead a ha) (by rw [hSame, hKey]; exact lt_irrefl _)
        rw [if_pos hKey, hNone]
        simp [← hKey, Prod.ext_iff, eq_comm]
      · have hNe : (key, value) ≠ e := fun hSame => hKey (by rw [← hSame])
        simp [hKey, hNe]

theorem leftmostValue_eq_some {p : Word} :
    leftmostValue s = some p ↔ p ≠ 0 ∧ ∃ key, Found s key p := by
  simp only [leftmostValue, Option.bind_eq_bind, Option.bind_eq_some_iff, Found]
  constructor
  · rintro ⟨a, hRoot, u, hNode, ⟨key, value⟩, hMin, hValue⟩
    by_cases hNull : value = 0
    · cases (if_pos hNull).symm.trans hValue
    · cases (if_neg hNull).symm.trans hValue
      exact ⟨hNull, key, a, u, hRoot, hNode, hMin⟩
  · rintro ⟨hSome, key, a, u, hRoot, hNode, hMin⟩
    exact ⟨a, hRoot, u, hNode, (key, p), hMin, if_neg hSome⟩

/-- A write to another field of a process keeps all run times. -/
theorem update_vRuntime {procs : Word → Process} {p : Word} {process : Process}
    (h : process.vRuntime = (procs p).vRuntime) (q : Word) :
    (update procs p process q).vRuntime = (procs q).vRuntime := by
  rw [update_apply]
  split
  next hSame => rw [hSame, h]
  next => rfl

/-- What the walk ends at is an entry of the tree. -/
theorem Found.lookup {p : Word} (h : Found s key p) (hOrdered : Ordered s.tree.root.entries) :
    s.lookup key = some p := by
  obtain ⟨a, u, -, hNode, hMin⟩ := h
  rw [min_eq_head] at hMin
  exact (mem_iff_get hOrdered).mp (mem_of_nodeAt hNode _ (List.mem_of_head? hMin))

/-- From the left spine the walk ends at the least key. -/
theorem FindSafe.found (h : FindSafe s) (hOrdered : Ordered s.tree.root.entries) :
    ∃ key p, p ≠ 0 ∧ Found s key p ∧ ∀ e ∈ s.tree.root.entries, key ≤ e.1 := by
  obtain ⟨a, hRoot, hSpine⟩ := h.root
  obtain ⟨key, p, hMin, hSome⟩ := h.least
  obtain ⟨u, hNode, hSame⟩ := min_of_leftSpine hSpine
  exact ⟨key, p, hSome, ⟨a, u, hRoot, hNode, hSame.trans hMin⟩, (least_of_min hOrdered hMin).2⟩

/-- What `schedule_find_next` does with the runnable process that it finds. -/
theorem scheduleFindNext_spec {p : Word} (h : Ordered s.tree.root.entries)
    (hPath : PathSafe (s.procs p).vRuntime s.tree.root) (hValue : leftmostValue s = some p)
    (hState : (s.procs p).state = .running) (hart : Nat) (time : Word) :
    ∃ t, scheduleFindNext hart time s = some (p, t) ∧ Ordered t.tree.root.entries ∧
      (∀ x, t.lookup x = if x = (s.procs p).vRuntime then none else s.lookup x) ∧
      t.procs = update s.procs p { s.procs p with startTime := time, hartNum := hart } ∧
      t.current = update s.current hart p := by
  obtain ⟨tree, freed, hDelete, hEntries, -⟩ := rbDelete_spec h hPath
  refine ⟨{ tree
            procs := update s.procs p { s.procs p with startTime := time, hartNum := hart }
            current := update s.current hart p }, ?_, ?_, ?_, rfl, rfl⟩
  · simp [scheduleFindNext, takeNext, hValue, hState, hDelete]
  · rw [hEntries]
    exact h.erase _
  · intro x
    simp only [Sched.lookup, hEntries, get_erase]

/-- `schedule_add` puts the process at the key of its run time. -/
theorem scheduleAdd_spec {page : Word} (hPage : page ≠ 0) (h : Ordered s.tree.root.entries)
    (p : Word) : ∃ t, scheduleAdd page p s = some t ∧ Ordered t.tree.root.entries ∧
      (∀ x, t.lookup x = if x = (s.procs p).vRuntime then some p else s.lookup x) ∧
      t.procs = update s.procs p { s.procs p with state := .running } ∧ t.current = s.current := by
  obtain ⟨tree, hInsert, hEntries⟩ := rbInsert_spec hPage h (s.procs p).vRuntime p
  refine ⟨{ s with
            tree
            procs := update s.procs p { s.procs p with state := .running } }, ?_, ?_, ?_, rfl, rfl⟩
  · simp [scheduleAdd, hInsert]
  · rw [hEntries]
    exact h.put _ _
  · intro x
    simp only [Sched.lookup, hEntries, get_put]

/-- `schedule_remove` clears the key of the run time, whatever is there. -/
theorem scheduleRemove_spec (h : Ordered s.tree.root.entries) {p : Word}
    (hPath : PathSafe (s.procs p).vRuntime s.tree.root) : ∃ t, scheduleRemove p s = some t ∧
      Ordered t.tree.root.entries ∧
      (∀ x, t.lookup x = if x = (s.procs p).vRuntime then none else s.lookup x) ∧
      t.procs = s.procs ∧ t.current = s.current := by
  obtain ⟨tree, freed, hDelete, hEntries, -⟩ := rbDelete_spec h hPath
  refine ⟨{ s with tree }, by simp [scheduleRemove, hDelete], ?_, ?_, rfl, rfl⟩
  · rw [hEntries]
    exact h.erase _
  · intro x
    simp only [Sched.lookup, hEntries, get_erase]

end Facts

/-- The queue, and the processes that were added and are neither removed nor
handed out. -/
structure QueueState where
  sched : Sched
  ready : Set Word

/-- A call of one of the functions, with the page that a node would get, or
the charge of the run time of a process that is not in the queue. -/
inductive QueueEvent where
  | add (page p : Word)
  | remove (p : Word)
  | findNext (hart : Nat) (time : Word)
  | charge (p vRuntime : Word)

/-- `p->v_runtime = vRuntime` -/
def setVRuntime (p vRuntime : Word) (s : Sched) : Sched :=
  { s with procs := update s.procs p { s.procs p with vRuntime := vRuntime } }

/-- Where the walk of `schedule_find_next` begins at no node of the tree, it may
come to any value. -/
inductive QueueStep : QueueState → QueueEvent → QueueState → Prop where
  | add {s : QueueState} {page p : Word} {t : Sched} (hp : p ≠ 0)
      (call : scheduleAdd page p s.sched = some t) :
      QueueStep s (.add page p) ⟨t, insert p s.ready⟩
  | remove {s : QueueState} {p : Word} {t : Sched} (call : scheduleRemove p s.sched = some t) :
      QueueStep s (.remove p) ⟨t, s.ready \ {p}⟩
  | findNext {s : QueueState} {hart : Nat} {time p : Word} {t : Sched}
      (call : scheduleFindNext hart time s.sched = some (p, t)) :
      QueueStep s (.findNext hart time) ⟨t, s.ready \ {p}⟩
  | stray {s : QueueState} {hart : Nat} {time value p : Word} {t : Sched}
      (hStrays : Strays s.sched) (hValue : value ≠ 0)
      (call : takeNext hart time value s.sched = some (p, t)) :
      QueueStep s (.findNext hart time) ⟨t, s.ready \ {p}⟩
  | charge {s : QueueState} {p vRuntime : Word} (hOut : p ∉ s.ready) :
      QueueStep s (.charge p vRuntime) ⟨setVRuntime p vRuntime s.sched, s.ready⟩

/-- The state behind `scheduling_init(1)`. -/
def queueStart (page : Word) (s : Sched) : QueueState :=
  ⟨schedulingInit page s, ∅⟩

/-- No other process that is ready has the run time of this one. -/
def Alone (s : QueueState) (p : Word) : Prop :=
  ∀ q ∈ s.ready, (s.sched.procs q).vRuntime = (s.sched.procs p).vRuntime → q = p

/-- A process is added with a node for it, and added or removed with a run
time that no other ready process has; the walks of `schedule_find_next` begin at
a node of the tree; deletions take a safe way. -/
def Apart (s : QueueState) : QueueEvent → Prop
  | .add page p => page ≠ 0 ∧ Alone s p
  | .remove p => Alone s p ∧ PathSafe (s.sched.procs p).vRuntime s.sched.tree.root
  | .findNext _ _ => Begins s.sched ∧ WalkSafe s.sched
  | .charge _ _ => True

/-- The tree holds the ready processes at their run times, and possibly the
node of `rb_new`, whose value is no process. -/
structure Queued (s : QueueState) : Prop where
  ordered : Ordered s.sched.tree.root.entries
  entry : ∀ key p, s.sched.lookup key = some p →
    p = 0 ∨ p ∈ s.ready ∧ key = (s.sched.procs p).vRuntime
  ready : ∀ p ∈ s.ready, p ≠ 0 ∧ (s.sched.procs p).state = .running ∧
    s.sched.lookup (s.sched.procs p).vRuntime = some p

section Runs

variable {s u : QueueState} {t : Sched} {p : Word}

theorem queued_start (page : Word) (s : Sched) : Queued (queueStart page s) := by
  refine ⟨?_, ?_, fun p hp => absurd hp (Set.notMem_empty p)⟩
  · unfold queueStart schedulingInit rbNew
    dsimp only
    split <;> simp [entries, Ordered]
  · intro key p hEntry
    have hZero : ∀ e ∈ (rbNew page).root.entries, e.2 = 0 := by
      unfold rbNew
      split <;> simp [entries]
    obtain ⟨e, hFind, rfl⟩ := Option.map_eq_some_iff.mp hEntry
    exact .inl (hZero e (List.mem_of_find?_eq_some hFind))

/-- Two ready processes differ in their run times. -/
theorem Queued.alone (h : Queued s) (hp : p ∈ s.ready) : Alone s p := by
  intro q hq hSame
  have hEntry := (h.ready q hq).2.2
  rw [hSame, (h.ready p hp).2.2] at hEntry
  exact (Option.some.inj hEntry).symm

/-- A ready process that comes in at its own key. -/
theorem Queued.insert (h : Queued s) (hp : p ≠ 0) (hAlone : Alone s p)
    (hOrdered : Ordered t.tree.root.entries)
    (hLookup : ∀ x, t.lookup x =
      if x = (s.sched.procs p).vRuntime then some p else s.sched.lookup x)
    (hProcs : t.procs = update s.sched.procs p { s.sched.procs p with state := .running }) :
    Queued ⟨t, insert p s.ready⟩ := by
  have hTime (q : Word) : (t.procs q).vRuntime = (s.sched.procs q).vRuntime := by
    rw [hProcs]
    exact update_vRuntime (by rfl) q
  have hState (q : Word) (hq : (s.sched.procs q).state = .running) :
      (t.procs q).state = .running := by
    rw [hProcs, update_apply]
    split
    · rfl
    · exact hq
  refine ⟨hOrdered, ?_, ?_⟩
  · intro key q hEntry
    change t.lookup key = some q at hEntry
    rw [hLookup] at hEntry
    split at hEntry
    next hKey =>
      cases hEntry
      exact .inr ⟨Set.mem_insert _ _, hKey.trans (hTime _).symm⟩
    next hKey =>
      rcases h.entry key q hEntry with hNone | ⟨hReady, hSame⟩
      · exact .inl hNone
      · exact .inr ⟨Set.mem_insert_of_mem _ hReady, hSame.trans (hTime q).symm⟩
  · intro q hq
    change q ≠ 0 ∧ (t.procs q).state = .running ∧ t.lookup (t.procs q).vRuntime = some q
    rw [hTime, hLookup]
    rcases Set.mem_insert_iff.mp hq with rfl | hReady
    · refine ⟨hp, ?_, if_pos rfl⟩
      rw [hProcs, update_self]
    · obtain ⟨hSome, hRunning, hEntry⟩ := h.ready q hReady
      refine ⟨hSome, hState q hRunning, ?_⟩
      split
      next hSame => rw [hAlone q hReady hSame]
      next => exact hEntry

/-- A process goes out with what is at its key. -/
theorem Queued.erase (h : Queued s) (hAlone : Alone s p)
    (hOrdered : Ordered t.tree.root.entries)
    (hLookup : ∀ x, t.lookup x =
      if x = (s.sched.procs p).vRuntime then none else s.sched.lookup x)
    (hProcs : ∀ q, (t.procs q).vRuntime = (s.sched.procs q).vRuntime ∧
      (t.procs q).state = (s.sched.procs q).state) :
    Queued ⟨t, s.ready \ {p}⟩ := by
  refine ⟨hOrdered, ?_, ?_⟩
  · intro key q hEntry
    change t.lookup key = some q at hEntry
    rw [hLookup] at hEntry
    split at hEntry
    next => cases hEntry
    next hKey =>
      rcases h.entry key q hEntry with hNone | ⟨hReady, hSame⟩
      · exact .inl hNone
      · refine .inr ⟨⟨hReady, ?_⟩, hSame.trans (hProcs q).1.symm⟩
        rintro rfl
        exact hKey hSame
  · rintro q ⟨hReady, hOther⟩
    obtain ⟨hSome, hRunning, hEntry⟩ := h.ready q hReady
    change q ≠ 0 ∧ (t.procs q).state = .running ∧ t.lookup (t.procs q).vRuntime = some q
    rw [(hProcs q).1, (hProcs q).2, hLookup]
    refine ⟨hSome, hRunning, ?_⟩
    split
    next hSame => exact absurd (hAlone q hReady hSame) hOther
    next => exact hEntry

/-- What the walk finds is ready. -/
theorem Queued.found (h : Queued s) (hValue : leftmostValue s.sched = some p) :
    p ∈ s.ready ∧ Found s.sched (s.sched.procs p).vRuntime p := by
  obtain ⟨hSome, key, hFound⟩ := leftmostValue_eq_some.mp hValue
  obtain ⟨hReady, hKey⟩ := (h.entry key p (hFound.lookup h.ordered)).resolve_left hSome
  exact ⟨hReady, hKey ▸ hFound⟩

/-- `schedule_find_next` takes what the walk finds out of the queue. -/
theorem Queued.findNext (h : Queued s) (hWalk : WalkSafe s.sched)
    (hValue : leftmostValue s.sched = some p) (hart : Nat) (time : Word) :
    ∃ t, scheduleFindNext hart time s.sched = some (p, t) ∧ Queued ⟨t, s.ready \ {p}⟩ := by
  obtain ⟨hReady, hFound⟩ := h.found hValue
  obtain ⟨hSome, hRunning, -⟩ := h.ready p hReady
  obtain ⟨t, hCall, hOrdered, hLookup, hProcs, -⟩ :=
    scheduleFindNext_spec h.ordered (hWalk _ p hFound hSome) hValue hRunning hart time
  refine ⟨t, hCall, h.erase (h.alone hReady) hOrdered hLookup ?_⟩
  intro q
  rw [hProcs, update_apply]
  split
  next hSame => exact ⟨by rw [hSame], by rw [hSame]⟩
  next => exact ⟨rfl, rfl⟩

theorem Queued.step {event : QueueEvent} (h : Queued s)
    (last : Guarded QueueStep Apart s event u) : Queued u := by
  obtain ⟨hApart, hStep⟩ := last
  cases hStep with
  | @add page p t hp call =>
      obtain ⟨hPage, hAlone⟩ := hApart
      obtain ⟨t', hCall, hOrdered, hLookup, hProcs, -⟩ := scheduleAdd_spec hPage h.ordered p
      cases hCall.symm.trans call
      exact h.insert hp hAlone hOrdered hLookup hProcs
  | @remove p t call =>
      obtain ⟨hAlone, hPath⟩ := hApart
      obtain ⟨t', hCall, hOrdered, hLookup, hProcs, -⟩ := scheduleRemove_spec h.ordered hPath
      cases hCall.symm.trans call
      exact h.erase hAlone hOrdered hLookup fun q => by rw [hProcs]; exact ⟨rfl, rfl⟩
  | @findNext hart time p t call =>
      cases hValue : leftmostValue s.sched with
      | none =>
          unfold scheduleFindNext at call
          rw [hValue] at call
          cases call
      | some q =>
          obtain ⟨t', hCall, hQueued⟩ := h.findNext hApart.2 hValue hart time
          cases hCall.symm.trans call
          exact hQueued
  | stray hStrays => exact absurd hStrays hApart.1.not_strays
  | @charge p vRuntime hOut =>
      have hProcs (q : Word) (hq : q ∈ s.ready) :
          (setVRuntime p vRuntime s.sched).procs q = s.sched.procs q :=
        update_of_ne (fun hSame : q = p => hOut (hSame ▸ hq)) _ _
      refine ⟨h.ordered, ?_, ?_⟩
      · intro key q hEntry
        refine (h.entry key q hEntry).imp_right ?_
        rintro ⟨hReady, hKey⟩
        exact ⟨hReady, by rw [hProcs q hReady]; exact hKey⟩
      · intro q hReady
        change q ∈ s.ready at hReady
        rw [hProcs q hReady]
        exact h.ready q hReady

/-- In the runs of such calls the tree and the list of the ready processes
agree. -/
theorem queued_of_run {page : Word} {s : Sched} {events : List QueueEvent}
    (run : Run (Guarded QueueStep Apart) (queueStart page s) events u) : Queued u :=
  run.invariant Queued (queued_start page s) fun _ _ _ h last => h.step last

theorem Queued.inTree_iff (h : Queued s) : InTree s.sched p ↔ p ∈ s.ready := by
  constructor
  · rintro ⟨hSome, key, hEntry⟩
    exact ((h.entry key p hEntry).resolve_left hSome).1
  · intro hReady
    exact ⟨(h.ready p hReady).1, _, (h.ready p hReady).2.2⟩

/-- The call of an empty queue ends in a bad read: there is no run of it in
which `schedule_find_next` answers `NULL`. -/
theorem Queued.findNext_empty (h : Queued s) (hEmpty : s.ready = ∅) (hart : Nat) (time : Word) :
    scheduleFindNext hart time s.sched = none := by
  cases hValue : leftmostValue s.sched with
  | none => simp [scheduleFindNext, hValue]
  | some p =>
      have hReady := (h.found hValue).1
      rw [hEmpty] at hReady
      exact absurd hReady (Set.notMem_empty p)

end Runs

/-- The call ends: with `NULL` where no process is ready, and else with the
ready process that ran for the least time, which alone is taken out. -/
def FindsLeast (hart : Nat) (time : Word) (s : QueueState) : Prop :=
  ∃ p t, scheduleFindNext hart time s.sched = some (p, t) ∧
    ((s.ready = ∅ ∧ p = 0 ∧ t = s.sched) ∨
      (p ∈ s.ready ∧
        (∀ q ∈ s.ready, (s.sched.procs p).vRuntime ≤ (s.sched.procs q).vRuntime) ∧
        ∀ q, InTree t q ↔ q ∈ s.ready ∧ q ≠ p))

/-- `schedule_find_next` is right where the key of the root is the address of
a node on the way to the least key. -/
theorem scheduleFindNext_least {page : Word} {s : Sched} {events : List QueueEvent}
    {u : QueueState} (run : Run (Guarded QueueStep Apart) (queueStart page s) events u)
    (hSafe : FindSafe u.sched) (hart : Nat) (time : Word) : FindsLeast hart time u := by
  have hQueued := queued_of_run run
  obtain ⟨key, p, hSome, hFound, hLeast⟩ := hSafe.found hQueued.ordered
  have hValue : leftmostValue u.sched = some p := leftmostValue_eq_some.mpr ⟨hSome, key, hFound⟩
  obtain ⟨hReady, hKey⟩ :=
    (hQueued.entry key p (hFound.lookup hQueued.ordered)).resolve_left hSome
  obtain ⟨t, hCall, hNext⟩ := hQueued.findNext hSafe.walk hValue hart time
  refine ⟨p, t, hCall, .inr ⟨hReady, ?_, fun q => hNext.inTree_iff⟩⟩
  intro q hq
  have hEntry := (mem_iff_get hQueued.ordered).mpr (hQueued.ready q hq).2.2
  rw [← hKey]
  exact hLeast _ hEntry

/-- No process has run, but for the one at `0x80072000`, which ran for a time
that is the address of the first node. -/
def exampleSched : Sched where
  tree := ⟨null⟩
  procs := update (fun _ => Process.zero) 0x80072000 { Process.zero with vRuntime := 0x80060000 }
  current := fun _ => 0

/-- The second process goes to the root and the first one to its left. -/
theorem exampleRun : ∃ t, Run (Guarded QueueStep Apart) (queueStart 0x80060000 exampleSched)
      [.add 0x80061000 0x80071000, .add 0x80062000 0x80072000]
      ⟨t, insert 0x80072000 (insert 0x80071000 ∅)⟩ ∧
    t.tree.root = node 0x80062000 0x80060000 0x80072000 .black
      (node 0x80060000 0 0x80071000 .red null null) null := by
  obtain ⟨s, t, hFirst, hSecond, hTime, hTime', hTree⟩ : ∃ s t,
      scheduleAdd 0x80061000 0x80071000 (schedulingInit 0x80060000 exampleSched) = some s ∧
      scheduleAdd 0x80062000 0x80072000 s = some t ∧
      (s.procs 0x80071000).vRuntime = 0 ∧ (s.procs 0x80072000).vRuntime = 0x80060000 ∧
      t.tree.root = node 0x80062000 0x80060000 0x80072000 .black
        (node 0x80060000 0 0x80071000 .red null null) null :=
    ⟨_, _, rfl, rfl, rfl, rfl, rfl⟩
  have hApart : Apart (queueStart 0x80060000 exampleSched) (.add 0x80061000 0x80071000) :=
    ⟨by decide, fun q hq => absurd hq (Set.notMem_empty q)⟩
  have hApart' : Apart ⟨s, insert 0x80071000 ∅⟩ (.add 0x80062000 0x80072000) := by
    refine ⟨by decide, ?_⟩
    rintro q (rfl | hq) hSame
    · rw [hTime, hTime'] at hSame
      cases hSame
    · exact absurd hq (Set.notMem_empty q)
  exact ⟨t, .snoc (.snoc (.nil _) ⟨hApart, .add (by decide) hFirst⟩)
    ⟨hApart', .add (by decide) hSecond⟩, hTree⟩

theorem scheduleFindNext_least_two : ∃ u : QueueState,
    u.ready = {0x80072000, 0x80071000} ∧ FindsLeast 0 0 u := by
  obtain ⟨t, run, hTree⟩ := exampleRun
  have hSafe : FindSafe t := by
    refine ⟨?_, ⟨0x80060000, ?_, ?_⟩, ⟨0, 0x80071000, ?_, by decide⟩⟩
    · rintro key p ⟨a, u, hRoot, hNode, hMin⟩ -
      rw [hTree] at hRoot hNode ⊢
      cases hRoot
      cases hNode
      cases hMin
      exact .goLeft (by decide) (by decide) rfl (.free (by decide) rfl)
    · rw [hTree]
      rfl
    · rw [hTree]
      exact .inr (.inl rfl)
    · rw [hTree]
      rfl
  exact ⟨_, by simp, scheduleFindNext_least run hSafe 0 0⟩

/-- After one call of `schedule_add` the key of the root is 0, which
`schedule_find_next` takes for the address of the first node. -/
theorem not_scheduleFindNext_least : ∃ u : QueueState,
    Run QueueStep (queueStart 0x80060000 exampleSched) [.add 0x80061000 0x80071000] u ∧
      u.ready = {0x80071000} ∧ ¬ FindsLeast 0 0 u := by
  refine ⟨_, .snoc (.nil _) (.add (by decide) rfl), LawfulSingleton.insert_empty_eq _, ?_⟩
  rintro ⟨p, t, hCall, -⟩
  cases hCall

/-- No ready process is lost, as long as no two of them have the same run
time. -/
theorem inTree_of_ready {page : Word} {s : Sched} {events : List QueueEvent}
    {u : QueueState} (run : Run (Guarded QueueStep Apart) (queueStart page s) events u)
    {p : Word} (hp : p ∈ u.ready) : InTree u.sched p :=
  (queued_of_run run).inTree_iff.mpr hp

theorem inTree_of_ready_two : ∃ u : QueueState,
    u.ready = {0x80072000, 0x80071000} ∧ InTree u.sched 0x80071000 := by
  obtain ⟨t, run, -⟩ := exampleRun
  exact ⟨_, by simp, inTree_of_ready run (.inr (.inl rfl))⟩

/-- Both processes have not run yet, so that the second one takes the place of
the first one. -/
theorem not_inTree_of_ready : ∃ u : QueueState,
    Run QueueStep (queueStart 0x80060000 exampleSched)
      [.add 0x80061000 0x80071000, .add 0x80062000 0x80073000] u ∧
      0x80071000 ∈ u.ready ∧ ¬ InTree u.sched 0x80071000 := by
  obtain ⟨s, t, hFirst, hSecond, hTree⟩ : ∃ s t,
      scheduleAdd 0x80061000 0x80071000 (schedulingInit 0x80060000 exampleSched) = some s ∧
      scheduleAdd 0x80062000 0x80073000 s = some t ∧
      t.tree.root = node 0x80060000 0 0x80073000 .black null null :=
    ⟨_, _, rfl, rfl, rfl⟩
  refine ⟨⟨t, insert 0x80073000 (insert 0x80071000 ∅)⟩,
    .snoc (.snoc (.nil _) (.add (by decide) hFirst)) (.add (by decide) hSecond), by simp, ?_⟩
  rintro ⟨-, key, hEntry⟩
  simp [Sched.lookup, hTree, entries, get_cons] at hEntry

end Kernel.Scheduling
