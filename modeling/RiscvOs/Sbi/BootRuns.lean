import RiscvOs.Sbi.BootStatements
import Mathlib.Algebra.BigOperators.Fin
import Mathlib.Algebra.Order.BigOperators.Group.Finset

/-! The boot of the SBI over all interleavings of the harts. Hart 0 holds
`hart0lock` while it clears `.bss`; from then on every hart writes only what is
its own. -/
namespace Sbi.Boot

open Semantics Function Table

variable {l : Image} {hart other : Hart} {statement : Statement} {s : Shared}
  {t u : Threads Hart Statement Shared} {calls : OsCalls} {m : Memory}

/-! ## What `main` makes of a hart -/

/-- What belongs to a hart when it has left `main`. -/
def final (l : Image) (hart : Hart) : View where
  status := if hart = 0 then hsStarted else hsStopped
  priv := hpmMachine
  target := 0
  scratch := 0
  csr :=
    { mainCsrs l.park hart with
      mscratch := gpregsOf l hart
      mtvec := l.sbiTrapVector
      pmpaddr0 := 0xffffffff >>> 2
      pmpcfg0 := 0xf }
  place := some ((afterMain l.park).place hart)

/-- The part of `main` of hart 0 behind its `mutex_unlock`, and what the operating
system does then. -/
def setup (l : Image) (calls : OsCalls) : List Statement :=
  mainSetup l ++ osCalls calls

theorem foldl_osCalls (calls : OsCalls) (v : View) :
    (osCalls calls).foldl (fun v statement => effect hart statement v) v = v := by
  induction calls with
  | nil => rfl
  | cons call calls ih => exact ih

theorem foldl_mainOther (hOther : hart ≠ 0) (v : View) (hScratch : v.scratch = 0) :
    (mainOther l hart).foldl (fun v statement => effect hart statement v) v = final l hart := by
  ext1
  · simp [mainOther, pmpInit, effect, final, hOther]
  · rfl
  · rfl
  · exact hScratch
  · simp [mainOther, pmpInit, effect, final, mainCsrs, Control.write, hOther]
  · simp [mainOther, pmpInit, effect, final, mainCsrs, Control.write, hOther, afterMain]

theorem foldl_setup (calls : OsCalls) (v : View) (hScratch : v.scratch = 0) :
    (uartInit ++ .unlock :: setup l calls).foldl (fun v statement => effect 0 statement v) v =
      final l 0 := by
  rw [setup, ← List.cons_append, ← List.append_assoc, List.foldl_append, foldl_osCalls]
  ext1
  · rfl
  · rfl
  · rfl
  · exact hScratch
  · rfl
  · rfl

/-! ## From the end of `clear_bss` on -/

def isSetStatus : Statement → Bool
  | .setStatus _ => true
  | _ => false

/-- The table is zero but for what the harts have written of their own, and
nothing of `.bss` will be cleared any more. -/
structure Cleared (l : Image) (t : Threads Hart Statement Shared) : Prop where
  lock : ∀ hart, t.shared.mem.load32 ((Cell.lock hart).addr l) = 0
  msip : ∀ hart, t.shared.msip hart = false
  status : ∀ hart status, .setStatus status ∈ t.rest hart →
    t.shared.mem.load32 ((Cell.status hart).addr l) = 0
  once : ∀ hart, (t.rest hart).countP isSetStatus ≤ 1
  noClear : ∀ hart t0, .clear t0 ∉ t.rest hart
  outcome : ∀ hart, Threads.outcome (view l) effect t hart = final l hart

/-- A plain statement is finished after its step, or it is a wait. -/
theorem act_rest (hPlain : Plain statement) :
    (act l hart statement s).1 = [] ∨
      statement = .spinlock ∧ s.mem.load32 l.hart0lock = mutexLocked ∧
        (act l hart statement s).1 = [.spinlock] := by
  cases statement with
  | clear t0 => exact hPlain.elim
  | hartStart other target scratch => exact hPlain.elim
  | spinlock =>
      by_cases hLocked : s.mem.load32 l.hart0lock = mutexLocked
      · exact .inr ⟨rfl, hLocked, by simp [act, hLocked]⟩
      · exact .inl (by simp [act, hLocked])
  | _ => exact .inl rfl

theorem act_msip (hPlain : Plain statement) : (act l hart statement s).2.msip = s.msip := by
  cases statement with
  | clear t0 => exact hPlain.elim
  | hartStart other target scratch => exact hPlain.elim
  | spinlock => rw [act]; split <;> rfl
  | _ => rfl

/-- The next statement is plain, or a call that is refused. -/
theorem Cleared.next {tail : List Statement} (h : Cleared l t) (hEarly : Early t hart)
    (hNext : t.rest hart = statement :: tail) :
    Plain statement ∨ ∃ other target scratch, statement = .hartStart other target scratch ∧
      act l hart statement t.shared = ([], t.shared) := by
  cases statement with
  | clear t0 => exact absurd (hNext ▸ List.mem_cons_self) (h.noClear hart t0)
  | hartStart other target scratch =>
      obtain ⟨status, hMem⟩ := hEarly other target scratch tail hNext
      refine .inr ⟨other, target, scratch, rfl, hartStart_refused (h.lock other) ?_⟩
      rw [h.status other status hMem]
      decide
  | _ => exact .inl trivial

/-- A step takes the first statement away or leaves the list as it is. -/
theorem Cleared.rest {tail : List Statement} (h : Cleared l t) (hEarly : Early t hart)
    (hNext : t.rest hart = statement :: tail) :
    (act l hart statement t.shared).1 ++ tail = tail ∨
      statement = .spinlock ∧ t.shared.mem.load32 l.hart0lock = mutexLocked ∧
        (act l hart statement t.shared).1 ++ tail = statement :: tail := by
  rcases h.next hEarly hNext with hPlain | ⟨other, target, scratch, rfl, hAct⟩
  · rcases @act_rest l hart statement t.shared hPlain with hNil | ⟨rfl, hLock, hSpin⟩
    · exact .inl (by rw [hNil, List.nil_append])
    · exact .inr ⟨rfl, hLock, by rw [hSpin, List.singleton_append]⟩
  · exact .inl (by rw [hAct, List.nil_append])

theorem Cleared.suffix (h : Cleared l t) (hEarly : Early t hart)
    (hStep : Threads.Step (act l) t hart u) (hart' : Hart) : u.rest hart' <:+ t.rest hart' := by
  cases hStep with
  | @act statement tail hNext =>
      by_cases hSame : hart' = hart
      · subst hSame
        simp only [update_self, hNext]
        rcases h.rest hEarly hNext with hTail | ⟨-, -, hStay⟩
        · rw [hTail]
          exact List.suffix_cons _ _
        · rw [hStay]
      · simp only [update_of_ne hSame]
        exact List.suffix_refl _

theorem Cleared.step (h : Cleared l t) (hEarly : Early t hart)
    (hStep : Threads.Step (act l) t hart u) : Cleared l u := by
  have hSuffix := h.suffix hEarly hStep
  cases hStep with
  | @act statement tail hNext =>
      have hKind := h.next hEarly hNext
      have hKeep (c : Cell) (hSize : c.size = 4) (hNot : written hart statement ≠ some c) :
          (act l hart statement t.shared).2.mem.load32 (c.addr l) =
            t.shared.mem.load32 (c.addr l) := by
        rcases hKind with hPlain | ⟨other, target, scratch, -, hAct⟩
        · exact load32_keeps hPlain hNot hSize
        · rw [hAct]
      constructor
      · intro hart'
        refine (hKeep (.lock hart') rfl ?_).trans (h.lock hart')
        intro hWritten
        rcases written_owner hWritten with hIs | hIs | hIs | hIs <;> simp at hIs
      · intro hart'
        rcases hKind with hPlain | ⟨other, target, scratch, -, hAct⟩
        · change (act l hart statement t.shared).2.msip hart' = false
          rw [act_msip hPlain, h.msip]
        · change (act l hart statement t.shared).2.msip hart' = false
          rw [hAct, h.msip]
      · intro hart' status hMem
        have hBefore := h.status hart' status ((hSuffix hart').subset hMem)
        refine (hKeep (.status hart') rfl ?_).trans hBefore
        -- The status is stored once, and here it is still to be stored.
        intro hWritten
        obtain ⟨rfl, status', rfl⟩ : hart' = hart ∧ ∃ status', statement = .setStatus status' := by
          cases statement <;> simp_all [written]
        have hOnce := h.once hart'
        rw [hNext, List.countP_cons_of_pos rfl] at hOnce
        have hNone : tail.countP isSetStatus = 0 := by omega
        simp only [update_self] at hMem
        have hTail : (act l hart' (.setStatus status') t.shared).1 ++ tail = tail := rfl
        rw [hTail] at hMem
        exact absurd rfl (List.countP_eq_zero.mp hNone _ hMem)
      · intro hart'
        exact ((hSuffix hart').sublist.countP_le).trans (h.once hart')
      · intro hart' t0 hMem
        exact h.noClear hart' t0 ((hSuffix hart').subset hMem)
      · intro hart'
        refine (Threads.outcome_step hNext (sequential ?_) hart').trans (h.outcome hart')
        rcases hKind with hPlain | ⟨other, target, scratch, rfl, hAct⟩
        · exact .inl hPlain
        · exact .inr ⟨hAct, rfl⟩

/-! ## The phases of the boot -/

/-- How often `clear_bss` stores. -/
def words (l : Image) : Nat :=
  (l.bssEnd.toNat - l.bssStart.toNat + 7) / 8

/-- Hart 0 holds `hart0lock`, and the others wait for it. -/
structure Closed (l : Image) (t : Threads Hart Statement Shared) : Prop where
  locked : t.shared.mem.load32 (Cell.hart0lock.addr l) = mutexLocked
  waiting : ∀ hart, hart ≠ 0 → t.rest hart = main l hart

theorem main_other (hOther : hart ≠ 0) : main l hart = mainOther l hart :=
  if_pos hOther

/-- A hart that waits makes no progress, and its tries change nothing. -/
theorem Closed.wait (h : Closed l t) (hOther : hart ≠ 0)
    (hStep : Threads.Step (act l) t hart u) : u = t := by
  cases hStep with
  | @act statement tail hNext =>
      have hMain := h.waiting hart hOther
      rw [main_other hOther, hNext] at hMain
      obtain ⟨rfl, -⟩ := List.cons.inj hMain
      have hLocked : t.shared.mem.load32 l.hart0lock = mutexLocked := h.locked
      have hSame : t.shared.mem.store32 l.hart0lock mutexLocked = t.shared.mem :=
        Memory.store32_eq_self hLocked
      have hAct : act l hart .spinlock t.shared = ([.spinlock], t.shared) := by
        simp only [act, hLocked, ne_eq, not_true_eq_false, ↓reduceIte, hSame]
      rw [hAct, List.singleton_append, ← hNext, update_eq_self]

/-! ### `clear_bss` -/

theorem sle_iff {k : Nat} (hk : k ≤ words l) :
    l.bssEnd.sle (l.bssStart + BitVec.ofNat 64 (8 * k)) = true ↔
      l.bssEnd.toNat ≤ l.bssStart.toNat + 8 * k := by
  have hStart := l.start_le
  have hBehind := l.lock_behind
  have hTop := l.top
  have hSum : (l.bssStart + BitVec.ofNat 64 (8 * k)).toNat = l.bssStart.toNat + 8 * k := by
    rw [words] at hk
    rw [BitVec.toNat_add, BitVec.toNat_ofNat]
    omega
  rw [words] at hk
  rw [BitVec.sle_iff_toInt_le, BitVec.toInt_eq_toNat_of_lt (by omega),
    BitVec.toInt_eq_toNat_of_lt (by omega), hSum]
  omega

/-- A store of the loop is below `hart0lock`. -/
theorem clear_lock {k : Nat} (hk : k + 1 ≤ words l) :
    (m.store64 (l.bssStart + BitVec.ofNat 64 (8 * k)) 0).load32 (Cell.hart0lock.addr l) =
      m.load32 (Cell.hart0lock.addr l) := by
  have hBehind := l.lock_behind
  have hTop := l.top
  have hApart : Apart (l.bssStart + BitVec.ofNat 64 (8 * k)) 8 (Cell.hart0lock.addr l) 4 := by
    rw [words] at hk
    rw [Cell.addr_eq, Cell.offset]
    exact apart_of_offsets (by decide) (by decide) (by omega) (by omega) (by omega)
  exact Memory.load32_congr (m.agreeOn_store64 0 hApart)

theorem clear_zero {k : Nat} (hk : k + 1 ≤ words l)
    (hZero : ∀ i < 8 * k, m (l.bssStart + BitVec.ofNat 64 i) = 0) (i : Nat) (hi : i < 8 * (k + 1)) :
    m.store64 (l.bssStart + BitVec.ofNat 64 (8 * k)) 0 (l.bssStart + BitVec.ofNat 64 i) = 0 := by
  by_cases hBefore : i < 8 * k
  · have hOutside : ¬ InRange (l.bssStart + BitVec.ofNat 64 (8 * k)) 8
        (l.bssStart + BitVec.ofNat 64 i) := by
      have hBehind := l.lock_behind
      have hTop := l.top
      rw [words] at hk
      unfold InRange
      bv_omega
    rw [Memory.store64, if_neg hOutside]
    exact hZero i hBefore
  · have hSplit : l.bssStart + BitVec.ofNat 64 i =
        l.bssStart + BitVec.ofNat 64 (8 * k) + BitVec.ofNat 64 (i - 8 * k) := by
      rw [BitVec.add_assoc, ← BitVec.ofNat_add]
      congr 2
      omega
    rw [hSplit, Memory.byte_of_store64 m _ 0 (by omega)]
    simp

/-- The variables of the table are in what is cleared. -/
theorem Cell.in_bss (l : Image) {c : Cell} (h : c ≠ .hart0lock) :
    c.offset l + c.size ≤ l.bssEnd.toNat - l.bssStart.toNat := by
  have hData := l.data_in
  have hLock := l.lock_in
  cases c with
  | hart0lock => exact absurd rfl h
  | status hart | priv hart | target hart | scratch hart | lock hart =>
      simp only [offset, size]
      omega

theorem Cell.zero {c : Cell} (h : c ≠ .hart0lock)
    (hZero : ∀ i < l.bssEnd.toNat - l.bssStart.toNat, m (l.bssStart + BitVec.ofNat 64 i) = 0) :
    Memory.AgreeOn (fun _ => 0) m (c.addr l) c.size := by
  intro x hx
  have hIn := c.in_bss l h
  have hLt := c.offset_lt l
  rw [addr_eq] at hx
  have hDistance := hx.distance (by omega)
  rw [eq_add_distance l.bssStart x]
  exact hZero _ (by omega)

theorem countP_osCalls (calls : OsCalls) : (osCalls calls).countP isSetStatus = 0 := by
  rw [List.countP_eq_zero]
  intro statement hMem
  obtain ⟨call, -, rfl⟩ := List.mem_map.mp hMem
  exact Bool.false_ne_true

theorem clear_not_osCalls (calls : OsCalls) (t0 : Word) : .clear t0 ∉ osCalls calls := by
  intro hMem
  obtain ⟨call, -, hCall⟩ := List.mem_map.mp hMem
  exact Statement.noConfusion hCall

/-- When the loop is finished, all is as the harts want to find it. -/
theorem cleared_of_zero
    (hZero : ∀ i < l.bssEnd.toNat - l.bssStart.toNat,
      t.shared.mem (l.bssStart + BitVec.ofNat 64 i) = 0)
    (hMsip : ∀ hart, t.shared.msip hart = false)
    (hFirst : t.rest 0 = uartInit ++ .unlock :: setup l calls)
    (hOthers : ∀ hart, hart ≠ 0 → t.rest hart = main l hart) : Cleared l t := by
  have hZero32 (c : Cell) (h : c ≠ .hart0lock) (hSize : c.size = 4) :
      t.shared.mem.load32 (c.addr l) = 0 := by
    have hAgree := Cell.zero h hZero
    rw [hSize] at hAgree
    rw [Memory.load32_congr hAgree]
    simp only [Memory.load32]
    rfl
  have hScratch (hart : Hart) : (view l hart t.shared).scratch = 0 :=
    Memory.load64_zero (Cell.zero (c := .scratch hart) nofun hZero)
  constructor
  · exact fun hart => hZero32 (.lock hart) nofun rfl
  · exact hMsip
  · exact fun hart _ _ => hZero32 (.status hart) nofun rfl
  · intro hart
    by_cases hIs : hart = 0
    · rw [hIs, hFirst, setup, ← List.cons_append, ← List.append_assoc, List.countP_append,
        countP_osCalls]
      exact Nat.le_refl 1
    · rw [hOthers hart hIs, main_other hIs]
      exact Nat.le_refl 1
  · intro hart t0 hMem
    by_cases hIs : hart = 0
    · rw [hIs, hFirst, setup, ← List.cons_append, ← List.append_assoc, List.mem_append] at hMem
      rcases hMem with hMain | hCall
      · simp [uartInit, mainSetup, plicInit, Plic.sbiPlicInit, pmpInit] at hMain
      · exact clear_not_osCalls calls t0 hCall
    · rw [hOthers hart hIs, main_other hIs] at hMem
      simp [mainOther, pmpInit] at hMem
  · intro hart
    by_cases hIs : hart = 0
    · rw [Threads.outcome, hIs, hFirst]
      exact foldl_setup calls _ (hScratch 0)
    · rw [Threads.outcome, hOthers hart hIs, main_other hIs]
      exact foldl_mainOther hIs _ (hScratch hart)

/-! ### Steps -/

theorem step_zero {tail : List Statement} (hStep : Threads.Step (act l) t hart u)
    (hNext : t.rest hart = statement :: tail) :
    u.rest hart = (act l hart statement t.shared).1 ++ tail ∧
      (∀ other, other ≠ hart → u.rest other = t.rest other) ∧
      u.shared = (act l hart statement t.shared).2 := by
  cases hStep with
  | @act statement' tail' hNext' =>
      obtain ⟨rfl, rfl⟩ := List.cons.inj (hNext.symm.trans hNext')
      exact ⟨update_self .., fun other hOther => update_of_ne hOther .., rfl⟩

/-- Hart 0 is in the loop of `clear_bss`, with `k` words cleared. -/
structure Clearing (l : Image) (calls : OsCalls) (k : Nat) (t : Threads Hart Statement Shared) :
    Prop where
  le : k ≤ words l
  rest : t.rest 0 =
    .clear (l.bssStart + BitVec.ofNat 64 (8 * k)) :: (uartInit ++ .unlock :: setup l calls)
  closed : Closed l t
  zero : ∀ i < 8 * k, t.shared.mem (l.bssStart + BitVec.ofNat 64 i) = 0
  msip : ∀ hart, t.shared.msip hart = false

/-- Hart 0 is in `uart_init`, or before its `mutex_unlock`. -/
structure Holding (l : Image) (calls : OsCalls) (front : List Statement)
    (t : Threads Hart Statement Shared) : Prop where
  suffix : front <:+ uartInit
  rest : t.rest 0 = front ++ .unlock :: setup l calls
  closed : Closed l t
  cleared : Cleared l t

/-- Hart 0 has released `hart0lock`, and the others go through it one by one. -/
structure Released (l : Image) (calls : OsCalls) (t : Threads Hart Statement Shared) : Prop where
  first : t.rest 0 <:+ setup l calls
  others : ∀ hart, hart ≠ 0 → t.rest hart <:+ main l hart
  free : t.shared.mem.load32 (Cell.hart0lock.addr l) ≠ mutexLocked ∨
    ∃ hart tail, t.rest hart = .unlock :: tail
  cleared : Cleared l t

inductive Phase (l : Image) (calls : OsCalls) (t : Threads Hart Statement Shared) : Prop where
  | clearing (k : Nat) (h : Clearing l calls k t)
  | holding (front : List Statement) (h : Holding l calls front t)
  | released (h : Released l calls t)

/-- The loop ends, or it clears one more word. -/
theorem Clearing.step {k : Nat} (h : Clearing l calls k t) (hStep : Threads.Step (act l) t 0 u) :
    Holding l calls uartInit u ∨ Clearing l calls (k + 1) u := by
  obtain ⟨hFirst, hOthers, hShared⟩ := step_zero hStep h.rest
  have hWaiting : ∀ hart, hart ≠ 0 → u.rest hart = main l hart :=
    fun hart hOther => (hOthers hart hOther).trans (h.closed.waiting hart hOther)
  by_cases hEnd : l.bssEnd.sle (l.bssStart + BitVec.ofNat 64 (8 * k)) = true
  · have hAct : act l 0 (.clear (l.bssStart + BitVec.ofNat 64 (8 * k))) t.shared =
        ([], t.shared) := if_pos hEnd
    rw [hAct] at hFirst hShared
    have hDone := (sle_iff h.le).mp hEnd
    refine .inl ⟨List.suffix_refl _, hFirst, ⟨hShared ▸ h.closed.locked, hWaiting⟩, ?_⟩
    refine cleared_of_zero (fun i hi => ?_) (hShared ▸ h.msip) hFirst hWaiting
    rw [hShared]
    exact h.zero i (by omega)
  · have hAct : act l 0 (.clear (l.bssStart + BitVec.ofNat 64 (8 * k))) t.shared =
        ([.clear (l.bssStart + BitVec.ofNat 64 (8 * k) + 8)],
          { t.shared with
            mem := t.shared.mem.store64 (l.bssStart + BitVec.ofNat 64 (8 * k)) 0 }) :=
      if_neg hEnd
    rw [hAct] at hFirst hShared
    have hMore : k + 1 ≤ words l := by
      have hBefore := mt (sle_iff h.le).mpr hEnd
      rw [words]
      omega
    have hNext : l.bssStart + BitVec.ofNat 64 (8 * k) + 8 =
        l.bssStart + BitVec.ofNat 64 (8 * (k + 1)) := by
      rw [Nat.mul_add, BitVec.ofNat_add, BitVec.add_assoc]
      rfl
    rw [hNext] at hFirst
    refine .inr ⟨hMore, hFirst, ⟨?_, hWaiting⟩, ?_, ?_⟩
    · rw [hShared]
      exact (clear_lock hMore).trans h.closed.locked
    · rw [hShared]
      exact clear_zero hMore h.zero
    · rw [hShared]
      exact h.msip

/-- Behind `uart_init` hart 0 releases the lock. -/
theorem Holding.release (h : Holding l calls [] t) (hEarly : Early t 0)
    (hStep : Threads.Step (act l) t 0 u) : Released l calls u := by
  obtain ⟨hFirst, hOthers, hShared⟩ := step_zero hStep h.rest
  refine ⟨?_, fun hart hOther => ?_, .inl ?_, h.cleared.step hEarly hStep⟩
  · rw [hFirst]
    exact List.suffix_refl _
  · rw [hOthers hart hOther, h.closed.waiting hart hOther]
  · rw [hShared]
    change (t.shared.mem.store32 l.hart0lock 0).load32 l.hart0lock ≠ mutexLocked
    rw [Memory.load32_store32]
    decide

theorem Holding.uart {front : List Statement} (h : Holding l calls (statement :: front) t)
    (hEarly : Early t 0) (hStep : Threads.Step (act l) t 0 u) : Holding l calls front u := by
  obtain ⟨hFirst, hOthers, hShared⟩ := step_zero hStep h.rest
  have hUart : ∃ offset value, statement = .uart offset value := by
    have hMem := h.suffix.subset List.mem_cons_self
    simp only [uartInit, List.mem_cons, List.not_mem_nil, or_false] at hMem
    rcases hMem with rfl | rfl | rfl
    · exact ⟨_, _, rfl⟩
    · exact ⟨_, _, rfl⟩
    · exact ⟨_, _, rfl⟩
  obtain ⟨offset, value, rfl⟩ := hUart
  refine ⟨(List.suffix_cons _ _).trans h.suffix, hFirst, ⟨?_, ?_⟩, h.cleared.step hEarly hStep⟩
  · rw [hShared]
    exact h.closed.locked
  · intro hart hOther
    rw [hOthers hart hOther, h.closed.waiting hart hOther]

/-- A hart that enters is at its `mutex_unlock`. -/
theorem enters (hRest : t.rest hart <:+ main l hart) {tail : List Statement}
    (hOther : hart ≠ 0) (hNext : t.rest hart = .spinlock :: tail) :
    ∃ tail', tail = .unlock :: tail' := by
  rw [main_other hOther, mainOther, List.cons_append, List.cons_append, List.suffix_cons_iff,
    hNext] at hRest
  rcases hRest with hAll | hLater
  · exact ⟨_, (List.cons.inj hAll).2⟩
  · have hMem := hLater.subset List.mem_cons_self
    simp [pmpInit] at hMem

theorem spinlock_not_setup (l : Image) (calls : OsCalls) : .spinlock ∉ setup l calls := by
  intro hMem
  rcases List.mem_append.mp hMem with hMain | hCall
  · simp [mainSetup, plicInit, Plic.sbiPlicInit, pmpInit] at hMain
  · obtain ⟨call, -, hIs⟩ := List.mem_map.mp hCall
    exact Statement.noConfusion hIs

/-- A statement other than a try or a release leaves `hart0lock`. -/
theorem lock_keeps (h : Cleared l t) (hEarly : Early t hart) {tail : List Statement}
    (hNext : t.rest hart = statement :: tail) (hSpin : statement ≠ .spinlock)
    (hUnlock : statement ≠ .unlock) :
    (act l hart statement t.shared).2.mem.load32 (Cell.hart0lock.addr l) =
      t.shared.mem.load32 (Cell.hart0lock.addr l) := by
  rcases h.next hEarly hNext with hPlain | ⟨other, target, scratch, -, hAct⟩
  · refine load32_keeps hPlain (fun hWritten => ?_) rfl
    cases statement <;> simp_all [written]
  · rw [hAct]

theorem Released.step (h : Released l calls t) (hEarly : Early t hart)
    (hStep : Threads.Step (act l) t hart u) : Released l calls u := by
  have hSuffix := h.cleared.suffix hEarly hStep
  refine ⟨(hSuffix 0).trans h.first, fun hart hOther => (hSuffix hart).trans (h.others hart hOther),
    ?_, h.cleared.step hEarly hStep⟩
  cases hStep with
  | @act statement tail hNext =>
      by_cases hUnlock : statement = .unlock
      · subst hUnlock
        refine .inl ?_
        change (t.shared.mem.store32 l.hart0lock 0).load32 l.hart0lock ≠ mutexLocked
        rw [Memory.load32_store32]
        decide
      · by_cases hSpin : statement = .spinlock
        · subst hSpin
          by_cases hLocked : t.shared.mem.load32 l.hart0lock = mutexLocked
          · -- Another hart is at its `mutex_unlock`, and stays there.
            obtain ⟨holder, tail', hHolder⟩ := h.free.resolve_left (not_not.mpr hLocked)
            have hOther : holder ≠ hart := by
              rintro rfl
              rw [hHolder] at hNext
              exact Statement.noConfusion (List.cons.inj hNext).1
            exact .inr ⟨holder, tail', (update_of_ne hOther ..).trans hHolder⟩
          · have hHart : hart ≠ 0 := by
              rintro rfl
              exact spinlock_not_setup l calls (h.first.subset (hNext ▸ List.mem_cons_self))
            obtain ⟨tail', rfl⟩ := enters (h.others hart hHart) hHart hNext
            refine .inr ⟨hart, tail', ?_⟩
            simp only [update_self, act, hLocked, ne_eq, not_false_eq_true, ↓reduceIte,
              List.nil_append]
        · rcases h.free with hFree | ⟨holder, tail', hHolder⟩
          · refine .inl ?_
            rw [← lock_keeps h.cleared hEarly hNext hSpin hUnlock] at hFree
            exact hFree
          · have hOther : holder ≠ hart := by
              rintro rfl
              rw [hHolder] at hNext
              exact hUnlock (List.cons.inj hNext).1.symm
            exact .inr ⟨holder, tail', (update_of_ne hOther ..).trans hHolder⟩

theorem Phase.step (h : Phase l calls t) (hEarly : Early t hart)
    (hStep : Threads.Step (act l) t hart u) : Phase l calls u := by
  cases h with
  | clearing k h =>
      by_cases hIs : hart = 0
      · subst hIs
        rcases h.step hStep with hHolding | hClearing
        · exact .holding _ hHolding
        · exact .clearing _ hClearing
      · rw [h.closed.wait hIs hStep]
        exact .clearing k h
  | holding front h =>
      by_cases hIs : hart = 0
      · subst hIs
        cases front with
        | nil => exact .released (h.release hEarly hStep)
        | cons statement front => exact .holding front (h.uart hEarly hStep)
      · rw [h.closed.wait hIs hStep]
        exact .holding front h
  | released h => exact .released (h.step hEarly hStep)

theorem phase_start (hReset : Reset l s) : Phase l calls (start l calls s) := by
  refine .clearing 0 ⟨Nat.zero_le _, ?_, ⟨hReset.locked, fun hart hOther => if_neg hOther⟩, ?_,
    hReset.msip⟩
  · simp [start, main, setup]
  · intro i hi
    omega

theorem phase_run {events : List Hart} (hReset : Reset l s)
    (run : Run (Guarded (Threads.Step (act l)) Early) (start l calls s) events t) :
    Phase l calls t :=
  run.invariant (Phase l calls) (phase_start hReset) fun _ _ _ hPhase hStep =>
    hPhase.step hStep.1 hStep.2

/-! ## What the boot comes to -/

theorem Cleared.view_of_left (h : Cleared l t) (hLeft : t.rest hart = []) :
    view l hart t.shared = final l hart := by
  rw [← h.outcome hart, Threads.outcome_of_rest_nil hLeft]

theorem Cleared.shows (h : Cleared l t) (hDone : t.Done) :
    Shows l t.shared (afterMain l.park) := by
  have hView (hart : Hart) := h.view_of_left (hDone hart)
  constructor
  · intro hart
    refine (congrArg View.status (hView hart)).trans ?_
    by_cases hIs : hart = 0
    · simp [final, afterMain, mainData, hIs, HartStatus.number]
    · simp [final, afterMain, mainData, hIs, HartStatus.number]
  · intro hart
    have hPriv : t.shared.mem.load32 (l.dataAt (hartId hart) + 4) = hpmMachine :=
      congrArg View.priv (hView hart)
    rw [hPriv]
    rfl
  · exact fun hart => congrArg View.target (hView hart)
  · exact fun hart => congrArg View.scratch (hView hart)
  · exact fun hart => h.lock hart
  · exact fun hart => h.msip hart
  · exact fun hart => congrArg (fun v => v.csr.toCsrs) (hView hart)
  · exact fun hart => congrArg View.place (hView hart)

/-- A hart that has left `main` has its registers. -/
theorem Cleared.left (h : Cleared l t) (hLeft : t.rest hart = []) :
    (t.shared.csr hart).mscratch = gpregsOf l hart ∧
      (t.shared.csr hart).mtvec = l.sbiTrapVector ∧ (t.shared.csr hart).pmpcfg0 = 0xf := by
  have hView := h.view_of_left hLeft
  exact ⟨congrArg (fun v => v.csr.mscratch) hView, congrArg (fun v => v.csr.mtvec) hView,
    congrArg (fun v => v.csr.pmpcfg0) hView⟩

theorem Phase.booted (h : Phase l calls t) : Booted l calls t := by
  cases h with
  | clearing k h =>
      refine ⟨fun hart hOther hMoved => absurd (h.closed.waiting hart hOther) hMoved, ?_, ?_⟩
      · intro hart hLeft
        by_cases hIs : hart = 0
        · rw [hIs, h.rest] at hLeft
          exact absurd hLeft (List.cons_ne_nil _ _)
        · rw [h.closed.waiting hart hIs, main_other hIs] at hLeft
          exact absurd hLeft (List.cons_ne_nil _ _)
      · intro hDone
        have hRest := h.rest
        rw [hDone 0] at hRest
        exact absurd hRest.symm (List.cons_ne_nil _ _)
  | holding front h =>
      exact ⟨fun hart hOther hMoved => absurd (h.closed.waiting hart hOther) hMoved,
        fun _ => h.cleared.left, h.cleared.shows⟩
  | released h => exact ⟨fun _ _ _ => h.first, fun _ => h.cleared.left, h.cleared.shows⟩

/-- An image with its tables at the start of `.bss`, and a memory with no byte but
those of `hart0lock` cleared. -/
def firstImage : Image where
  data := 0x80004000
  lock := 0x80004100
  bssStart := 0x80004000
  bssEnd := 0x80004924
  hart0lock := 0x80006000
  gpregs := 0x80004120
  park := 0x80000100
  sbiTrapVector := 0x80000110
  start_le := by decide
  lock_behind := by decide
  top := by decide
  data_in := by decide
  lock_in := by decide
  apart := by decide

def firstShared : Shared where
  mem x := if InRange 0x80006000 4 x then (if x = 0x80006000 then 1 else 0) else 0xaa
  device _ := 0
  msip _ := false
  csr _ := ⟨⟨0, 0, 0, 0, 0, 0⟩, 0, 0, 0, 0⟩
  place _ := none

theorem reset_first : Reset firstImage firstShared :=
  ⟨by decide, fun _ => rfl⟩

/-! ## No deadlock -/

/-- The steps of the boot without calls of the operating system. -/
abbrev BootStep (l : Image) :=
  Guarded (Threads.Step (act l)) Early

theorem hartStart_not_setup {target scratch : Word} :
    .hartStart other target scratch ∉ setup l [] := by
  simp [setup, osCalls, mainSetup, plicInit, Plic.sbiPlicInit, pmpInit]

theorem hartStart_not_main {target scratch : Word} (hOther : hart ≠ 0) :
    .hartStart other target scratch ∉ main l hart := by
  rw [main_other hOther]
  simp [mainOther, pmpInit]

theorem Phase.early (h : Phase l [] t) (hart : Hart) : Early t hart := by
  intro other target scratch tail hNext
  have hMem : .hartStart other target scratch ∈ t.rest hart := hNext ▸ List.mem_cons_self
  cases h with
  | clearing k h =>
      by_cases hIs : hart = 0
      · rw [hIs, h.rest] at hMem
        simp [uartInit, hartStart_not_setup] at hMem
      · exact absurd (h.closed.waiting hart hIs ▸ hMem) (hartStart_not_main hIs)
  | holding front h =>
      by_cases hIs : hart = 0
      · rw [hIs, h.rest] at hMem
        rcases List.mem_append.mp hMem with hUart | hLater
        · have hIn := h.suffix.subset hUart
          simp [uartInit] at hIn
        · simp [hartStart_not_setup] at hLater
      · exact absurd (h.closed.waiting hart hIs ▸ hMem) (hartStart_not_main hIs)
  | released h =>
      by_cases hIs : hart = 0
      · exact absurd (h.first.subset (hIs ▸ hMem)) hartStart_not_setup
      · exact absurd ((h.others hart hIs).subset hMem) (hartStart_not_main hIs)

/-- The statements that are still to be executed. -/
def todo (t : Threads Hart Statement Shared) : Nat :=
  ∑ hart, (t.rest hart).length

theorem done_of_todo (h : todo t = 0) : t.Done := by
  intro hart
  rw [todo, Finset.sum_eq_zero_iff] at h
  exact List.eq_nil_of_length_eq_zero (h hart (Finset.mem_univ hart))

/-- With the lock free every hart can go on, and otherwise the hart that holds
it. -/
theorem exists_progress (h : Cleared l t) (hEarly : ∀ hart, Early t hart)
    (free : t.shared.mem.load32 (Cell.hart0lock.addr l) ≠ mutexLocked ∨
      ∃ hart tail, t.rest hart = .unlock :: tail) (hTodo : todo t ≠ 0) :
    ∃ hart u, Threads.Step (act l) t hart u ∧ todo u < todo t := by
  obtain ⟨hart, statement, tail, hNext, hTail⟩ : ∃ hart statement tail,
      t.rest hart = statement :: tail ∧ (act l hart statement t.shared).1 ++ tail = tail := by
    rcases free with hFree | ⟨hart, tail, hNext⟩
    · obtain ⟨hart, -, hSome⟩ := Finset.exists_ne_zero_of_sum_ne_zero hTodo
      obtain ⟨statement, tail, hNext⟩ :=
        List.exists_cons_of_ne_nil (List.ne_nil_of_length_pos (Nat.pos_of_ne_zero hSome))
      refine ⟨hart, statement, tail, hNext, ?_⟩
      rcases h.rest (hEarly hart) hNext with hTail | ⟨-, hLocked, -⟩
      · exact hTail
      · exact absurd hLocked hFree
    · exact ⟨hart, .unlock, tail, hNext, rfl⟩
  refine ⟨hart, _, .act hNext, ?_⟩
  refine Finset.sum_lt_sum (fun other _ => ?_) ⟨hart, Finset.mem_univ hart, ?_⟩
  · by_cases hSame : other = hart
    · subst hSame
      simp only [update_self, hTail, hNext, List.length_cons]
      omega
    · simp only [update_of_ne hSame]
      exact Nat.le_refl _
  · simp only [update_self, hTail, hNext, List.length_cons]
    omega

/-- A state from which the harts can run to the end. -/
def CanFinish (l : Image) (t : Threads Hart Statement Shared) : Prop :=
  ∃ events u, Run (BootStep l) t events u ∧ u.Done

theorem CanFinish.of_step (hEarly : Early t hart) (hStep : Threads.Step (act l) t hart u)
    (h : CanFinish l u) : CanFinish l t := by
  obtain ⟨events, v, run, hDone⟩ := h
  exact ⟨hart :: events, v, Run.cons ⟨hEarly, hStep⟩ run, hDone⟩

/-- A hart with a statement left can make a step. -/
theorem step_of_rest {tail : List Statement} (hNext : t.rest hart = statement :: tail) :
    ∃ u, Threads.Step (act l) t hart u :=
  ⟨_, .act hNext⟩

theorem Released.canFinish (n : Nat) (hTodo : todo t ≤ n) (h : Released l [] t) :
    CanFinish l t := by
  induction n generalizing t with
  | zero => exact ⟨[], t, Run.nil t, done_of_todo (Nat.le_zero.mp hTodo)⟩
  | succ n ih =>
      by_cases hNone : todo t = 0
      · exact ⟨[], t, Run.nil t, done_of_todo hNone⟩
      · have hEarly := (Phase.released h).early
        obtain ⟨hart, u, hStep, hLess⟩ := exists_progress h.cleared hEarly h.free hNone
        exact .of_step (hEarly hart) hStep (ih (by omega) (h.step (hEarly hart) hStep))

theorem Holding.canFinish {front : List Statement} (h : Holding l [] front t) : CanFinish l t := by
  have hEarly := (Phase.holding front h).early 0
  induction front generalizing t with
  | nil =>
      obtain ⟨u, hStep⟩ := step_of_rest h.rest
      exact .of_step hEarly hStep ((h.release hEarly hStep).canFinish _ le_rfl)
  | cons statement front ih =>
      obtain ⟨u, hStep⟩ := step_of_rest h.rest
      have hNext := h.uart hEarly hStep
      exact .of_step hEarly hStep (ih hNext ((Phase.holding front hNext).early 0))

theorem Clearing.canFinish (n : Nat) {k : Nat} (hLeft : words l - k ≤ n)
    (h : Clearing l [] k t) : CanFinish l t := by
  induction n generalizing t k with
  | zero =>
      have hEarly := (Phase.clearing k h).early 0
      obtain ⟨u, hStep⟩ := step_of_rest h.rest
      refine .of_step hEarly hStep ?_
      rcases h.step hStep with hHolding | hClearing
      · exact hHolding.canFinish
      · have hMore := hClearing.le
        omega
  | succ n ih =>
      have hEarly := (Phase.clearing k h).early 0
      obtain ⟨u, hStep⟩ := step_of_rest h.rest
      refine .of_step hEarly hStep ?_
      rcases h.step hStep with hHolding | hClearing
      · exact hHolding.canFinish
      · exact ih (by omega) hClearing

theorem Phase.canFinish (h : Phase l [] t) : CanFinish l t := by
  cases h with
  | clearing k h => exact h.canFinish _ le_rfl
  | holding front h => exact h.canFinish
  | released h => exact h.canFinish _ le_rfl

/-! ## Boots -/

/-- The boot is safe along every interleaving, and all that end, end alike. -/
theorem booted_of_run {events : List Hart} (hReset : Reset l s)
    (run : Run (Guarded (Threads.Step (act l)) Early) (start l calls s) events t) :
    Booted l calls t :=
  (phase_run hReset run).booted

/-- From every state of a boot the harts can all leave `main`. -/
theorem canFinish_of_run {events : List Hart} (hReset : Reset l s)
    (run : Run (BootStep l) (start l [] s) events t) : CanFinish l t :=
  (phase_run hReset run).canFinish

/-- A boot to its end. -/
example : ∃ events t, Run (BootStep firstImage) (start firstImage [] firstShared) events t ∧
    t.Done ∧ Booted firstImage [] t := by
  obtain ⟨events, t, run, hDone⟩ := canFinish_of_run reset_first (Run.nil _)
  exact ⟨events, t, run, hDone, booted_of_run reset_first run⟩

end Sbi.Boot
