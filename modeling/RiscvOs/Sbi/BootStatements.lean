import RiscvOs.Sbi.Boot

/-! What the statements of `main` read and write: the variables in memory do not
overlap, and a statement concerns what belongs to its hart, or `hart0lock`. -/
namespace Sbi.Boot

open Semantics Function Table

variable {l : Image} {hart other : Hart} {statement : Statement} {s : Shared}

/-! ## The variables in memory -/

/-- The fields of `sbi_hart_data`, the locks of the table, and `hart0lock`. -/
inductive Cell where
  | status (hart : Hart)
  | priv (hart : Hart)
  | target (hart : Hart)
  | scratch (hart : Hart)
  | lock (hart : Hart)
  | hart0lock
  deriving DecidableEq

namespace Cell

def size : Cell → Nat
  | status _ | priv _ | lock _ | hart0lock => 4
  | target _ | scratch _ => 8

def addr (l : Image) : Cell → Word
  | status hart => l.dataAt (hartId hart)
  | priv hart => l.dataAt (hartId hart) + 4
  | target hart => l.dataAt (hartId hart) + 8
  | scratch hart => l.dataAt (hartId hart) + 16
  | lock hart => l.lockAt (hartId hart)
  | hart0lock => l.hart0lock

/-- The distance from the start of `.bss`. -/
def offset (l : Image) : Cell → Nat
  | status hart => l.data.toNat - l.bssStart.toNat + 24 * hart
  | priv hart => l.data.toNat - l.bssStart.toNat + 24 * hart + 4
  | target hart => l.data.toNat - l.bssStart.toNat + 24 * hart + 8
  | scratch hart => l.data.toNat - l.bssStart.toNat + 24 * hart + 16
  | lock hart => l.lock.toNat - l.bssStart.toNat + 4 * hart
  | hart0lock => l.hart0lock.toNat - l.bssStart.toNat

theorem hartId_toNat (hart : Hart) : (hartId hart).toNat = hart := by
  rw [hartId, BitVec.toNat_ofNat]
  omega

theorem addr_eq (l : Image) (c : Cell) : c.addr l = l.bssStart + BitVec.ofNat 64 (c.offset l) := by
  have hStart := l.start_le
  have hBehind := l.lock_behind
  have hTop := l.top
  have hData := l.data_in
  have hLock := l.lock_in
  have h4 : (4 : Word).toNat = 4 := rfl
  have h8 : (8 : Word).toNat = 8 := rfl
  have h16 : (16 : Word).toNat = 16 := rfl
  apply BitVec.eq_of_toNat_eq
  cases c with
  | status hart | priv hart | target hart | scratch hart =>
      simp only [addr, offset, dataAt_eq, hartId_toNat, BitVec.toNat_add, BitVec.toNat_ofNat]
      omega
  | lock hart =>
      simp only [addr, offset, lockAt_eq, hartId_toNat, BitVec.toNat_add, BitVec.toNat_ofNat]
      omega
  | hart0lock =>
      simp only [addr, offset, BitVec.toNat_add, BitVec.toNat_ofNat]
      omega

theorem offset_lt (l : Image) (c : Cell) : c.offset l + c.size ≤ 2 ^ 63 := by
  have hStart := l.start_le
  have hBehind := l.lock_behind
  have hTop := l.top
  have hData := l.data_in
  have hLock := l.lock_in
  cases c <;> simp only [offset, size] <;> omega

theorem offset_apart (l : Image) {c c' : Cell} (h : c ≠ c') :
    c.offset l + c.size ≤ c'.offset l ∨ c'.offset l + c'.size ≤ c.offset l := by
  have hStart := l.start_le
  have hBehind := l.lock_behind
  have hData := l.data_in
  have hLock := l.lock_in
  have hApart := l.apart
  cases c with
  | status hart | priv hart | target hart | scratch hart =>
      cases c' with
      | status hart' | priv hart' | target hart' | scratch hart' =>
          simp only [offset, size, ne_eq, status.injEq, priv.injEq, target.injEq,
            scratch.injEq, Fin.ext_iff] at h ⊢
          omega
      | lock hart' | hart0lock => simp only [offset, size]; omega
  | lock hart =>
      cases c' with
      | status hart' | priv hart' | target hart' | scratch hart' =>
          simp only [offset, size]
          omega
      | lock hart' =>
          simp only [offset, size, ne_eq, lock.injEq, Fin.ext_iff] at h ⊢
          omega
      | hart0lock => simp only [offset, size]; omega
  | hart0lock =>
      cases c' with
      | hart0lock => exact absurd rfl h
      | status hart' | priv hart' | target hart' | scratch hart' | lock hart' =>
          simp only [offset, size]
          omega

theorem size_pos (c : Cell) : 0 < c.size := by
  cases c <;> simp only [size] <;> decide

theorem apart (l : Image) {c c' : Cell} (h : c ≠ c') :
    Apart (c.addr l) c.size (c'.addr l) c'.size := by
  have hLt := c.offset_lt l
  have hLt' := c'.offset_lt l
  rw [addr_eq, addr_eq]
  exact apart_of_offsets c.size_pos c'.size_pos (offset_apart l h) (by omega) (by omega)

theorem keep_store32 (l : Image) {c c' : Cell} (h : c ≠ c') (hSize : c.size = 4) (m : Memory)
    (value : BitVec 32) :
    Memory.AgreeOn m (m.store32 (c.addr l) value) (c'.addr l) c'.size := by
  have hApart := c.apart l h
  rw [hSize] at hApart
  exact m.agreeOn_store32 value hApart

theorem keep_store64 (l : Image) {c c' : Cell} (h : c ≠ c') (hSize : c.size = 8) (m : Memory)
    (value : Word) : Memory.AgreeOn m (m.store64 (c.addr l) value) (c'.addr l) c'.size := by
  have hApart := c.apart l h
  rw [hSize] at hApart
  exact m.agreeOn_store64 value hApart

end Cell

/-! ## Statements -/

/-- What belongs to a hart: its entry of the table and its registers. -/
@[ext] structure View where
  status : BitVec 32
  priv : BitVec 32
  target : Word
  scratch : Word
  csr : Control
  place : Option Place

def view (l : Image) (hart : Hart) (s : Shared) : View where
  status := s.mem.load32 ((Cell.status hart).addr l)
  priv := s.mem.load32 ((Cell.priv hart).addr l)
  target := s.mem.load64 ((Cell.target hart).addr l)
  scratch := s.mem.load64 ((Cell.scratch hart).addr l)
  csr := s.csr hart
  place := s.place hart

/-- What a statement does to what belongs to its hart. -/
def effect (_ : Hart) : Statement → View → View
  | .setStatus status, v => { v with status := status }
  | .setTarget target, v => { v with target := target }
  | .setPriv mode, v => { v with priv := mode }
  | .csrWrite r value, v => { v with csr := v.csr.write r value }
  | .mret, v => { v with place := some (.code v.csr.mepc (mpp v.csr.mstatus)) }
  | _, v => v

/-- The variable that a statement of a hart writes; the loop of `clear_bss` and
`hart_start` have none of their own. -/
def written (hart : Hart) : Statement → Option Cell
  | .spinlock | .unlock => some .hart0lock
  | .setStatus _ => some (.status hart)
  | .setTarget _ => some (.target hart)
  | .setPriv _ => some (.priv hart)
  | _ => none

/-- A statement that concerns its own hart and `hart0lock` only. -/
def Plain : Statement → Prop
  | .clear _ => False
  | .hartStart _ _ _ => False
  | _ => True

/-- Such a statement leaves the other variables. -/
theorem act_keeps (hPlain : Plain statement) {c : Cell} (hOther : written hart statement ≠ some c) :
    Memory.AgreeOn s.mem (act l hart statement s).2.mem (c.addr l) c.size := by
  have hSame : Memory.AgreeOn s.mem s.mem (c.addr l) c.size := fun _ _ => rfl
  cases statement with
  | clear t0 => exact hPlain.elim
  | hartStart other target scratch => exact hPlain.elim
  | uart offset value => exact hSame
  | plic call => exact hSame
  | csrWrite r value => exact hSame
  | mret => exact hSame
  | spinlock =>
      have hKeep := Cell.keep_store32 l (c := .hart0lock) (fun h => hOther (congrArg some h)) rfl
        s.mem mutexLocked
      rw [act]
      split <;> exact hKeep
  | unlock =>
      exact Cell.keep_store32 l (c := .hart0lock) (fun h => hOther (congrArg some h)) rfl s.mem 0
  | setStatus status =>
      exact Cell.keep_store32 l (c := .status hart) (fun h => hOther (congrArg some h)) rfl s.mem
        status
  | setTarget target =>
      exact Cell.keep_store64 l (c := .target hart) (fun h => hOther (congrArg some h)) rfl s.mem
        target
  | setPriv mode =>
      exact Cell.keep_store32 l (c := .priv hart) (fun h => hOther (congrArg some h)) rfl s.mem mode

theorem load32_keeps (hPlain : Plain statement) {c : Cell} (hOther : written hart statement ≠ some c)
    (hSize : c.size = 4) :
    (act l hart statement s).2.mem.load32 (c.addr l) = s.mem.load32 (c.addr l) :=
  Memory.load32_congr (hSize ▸ act_keeps hPlain hOther)

theorem load64_keeps (hPlain : Plain statement) {c : Cell} (hOther : written hart statement ≠ some c)
    (hSize : c.size = 8) :
    (act l hart statement s).2.mem.load64 (c.addr l) = s.mem.load64 (c.addr l) :=
  Memory.load64_congr (hSize ▸ act_keeps hPlain hOther)

/-- The registers of the other harts stay. -/
theorem act_csr (hOther : other ≠ hart) : (act l hart statement s).2.csr other = s.csr other := by
  cases statement with
  | clear t0 => rw [act]; split <;> rfl
  | spinlock => rw [act]; split <;> rfl
  | csrWrite r value => exact update_of_ne hOther _ _
  | _ => rfl

theorem act_place (hOther : other ≠ hart) :
    (act l hart statement s).2.place other = s.place other := by
  cases statement with
  | clear t0 => rw [act]; split <;> rfl
  | spinlock => rw [act]; split <;> rfl
  | mret => exact update_of_ne hOther _ _
  | _ => rfl

theorem written_owner {c : Cell} (h : written hart statement = some c) :
    c = .hart0lock ∨ c = .status hart ∨ c = .target hart ∨ c = .priv hart := by
  cases statement <;> simp_all [written]

/-- A plain statement does not concern the other harts. -/
theorem view_other (hPlain : Plain statement) (hOther : other ≠ hart) :
    view l other (act l hart statement s).2 = view l other s := by
  have hNot (c : Cell) (h0 : c ≠ .hart0lock) (h1 : c ≠ .status hart) (h2 : c ≠ .target hart)
      (h3 : c ≠ .priv hart) : written hart statement ≠ some c := by
    intro hWritten
    rcases written_owner hWritten with h | h | h | h
    · exact h0 h
    · exact h1 h
    · exact h2 h
    · exact h3 h
  have hStatus := hNot (.status other) nofun (by simpa using hOther) nofun nofun
  have hPriv := hNot (.priv other) nofun nofun nofun (by simpa using hOther)
  have hTarget := hNot (.target other) nofun nofun (by simpa using hOther) nofun
  have hScratch := hNot (.scratch other) nofun nofun nofun nofun
  ext1
  · exact load32_keeps hPlain hStatus rfl
  · exact load32_keeps hPlain hPriv rfl
  · exact load64_keeps hPlain hTarget rfl
  · exact load64_keeps hPlain hScratch rfl
  · exact act_csr hOther
  · exact act_place hOther

/-- A statement that writes no variable of its hart in memory leaves what the hart
has there. -/
theorem view_memory (hPlain : Plain statement)
    (hOwn : written hart statement = none ∨ written hart statement = some .hart0lock) :
    view l hart (act l hart statement s).2 =
      { view l hart s with
        csr := (act l hart statement s).2.csr hart
        place := (act l hart statement s).2.place hart } := by
  have hNot (c : Cell) (h : c ≠ .hart0lock) : written hart statement ≠ some c := by
    intro hWritten
    rcases hOwn with hNone | hLock
    · simp [hNone] at hWritten
    · rw [hLock] at hWritten
      exact h (Option.some.inj hWritten).symm
  ext1
  · exact load32_keeps hPlain (hNot (.status hart) nofun) rfl
  · exact load32_keeps hPlain (hNot (.priv hart) nofun) rfl
  · exact load64_keeps hPlain (hNot (.target hart) nofun) rfl
  · exact load64_keeps hPlain (hNot (.scratch hart) nofun) rfl
  · rfl
  · rfl

/-- A statement has its effect, whether or not it is finished. -/
theorem view_own (hPlain : Plain statement) :
    (act l hart statement s).1.foldl (fun v statement => effect hart statement v)
        (view l hart (act l hart statement s).2) = effect hart statement (view l hart s) := by
  cases statement with
  | clear t0 => exact hPlain.elim
  | hartStart other target scratch => exact hPlain.elim
  | uart offset value => exact view_memory hPlain (.inl rfl)
  | plic call => exact view_memory hPlain (.inl rfl)
  | unlock => exact view_memory hPlain (.inr rfl)
  | spinlock =>
      have hView := @view_memory l hart .spinlock s hPlain (.inr rfl)
      simp only [act] at hView ⊢
      split at hView
      next hFree =>
        rw [if_pos hFree]
        exact hView
      next hLocked =>
        rw [if_neg hLocked]
        exact hView
  | csrWrite r value =>
      refine (view_memory hPlain (.inl rfl)).trans ?_
      simp only [act, effect, update_self]
      rfl
  | mret =>
      refine (view_memory hPlain (.inl rfl)).trans ?_
      simp only [act, effect, update_self]
      rfl
  | setStatus status =>
      have hNot {c : Cell} (h : c ≠ .status hart) :
          written hart (.setStatus status) ≠ some c := fun hSome => h (Option.some.inj hSome).symm
      ext1
      · exact Memory.load32_store32 ..
      · exact load32_keeps hPlain (hNot (c := .priv hart) nofun) rfl
      · exact load64_keeps hPlain (hNot (c := .target hart) nofun) rfl
      · exact load64_keeps hPlain (hNot (c := .scratch hart) nofun) rfl
      · rfl
      · rfl
  | setTarget target =>
      have hNot {c : Cell} (h : c ≠ .target hart) :
          written hart (.setTarget target) ≠ some c := fun hSome => h (Option.some.inj hSome).symm
      ext1
      · exact load32_keeps hPlain (hNot (c := .status hart) nofun) rfl
      · exact load32_keeps hPlain (hNot (c := .priv hart) nofun) rfl
      · exact Memory.load64_store64 ..
      · exact load64_keeps hPlain (hNot (c := .scratch hart) nofun) rfl
      · rfl
      · rfl
  | setPriv mode =>
      have hNot {c : Cell} (h : c ≠ .priv hart) :
          written hart (.setPriv mode) ≠ some c := fun hSome => h (Option.some.inj hSome).symm
      ext1
      · exact load32_keeps hPlain (hNot (c := .status hart) nofun) rfl
      · exact Memory.load32_store32 ..
      · exact load64_keeps hPlain (hNot (c := .target hart) nofun) rfl
      · exact load64_keeps hPlain (hNot (c := .scratch hart) nofun) rfl
      · rfl
      · rfl

/-- A call of `hart_start` for a hart that is not stopped is refused, and changes
nothing. -/
theorem hartStart_refused {target scratch : Word}
    (hLock : s.mem.load32 ((Cell.lock other).addr l) = 0)
    (hStatus : s.mem.load32 ((Cell.status other).addr l) ≠ hsStopped) :
    act l hart (.hartStart other target scratch) s = ([], s) := by
  have hFree : s.mem.load32 (l.lockAt (hartId other)) ≠ mutexLocked := by
    rw [show s.mem.load32 (l.lockAt (hartId other)) = 0 from hLock]
    decide
  have hTaken : (taken l.toTables (hartId other) s.mem).load32 (l.dataAt (hartId other)) ≠
      hsStopped := by
    have hKeep := @Cell.keep_store32 l (.lock other) (.status other) nofun rfl s.mem
      mutexLocked
    rw [show (taken l.toTables (hartId other) s.mem).load32 (l.dataAt (hartId other)) =
      s.mem.load32 ((Cell.status other).addr l) from Memory.load32_congr hKeep]
    exact hStatus
  have hBack : (taken l.toTables (hartId other) s.mem).store32 (l.lockAt (hartId other)) 0 =
      s.mem := by
    have hOver : (taken l.toTables (hartId other) s.mem).store32 (l.lockAt (hartId other)) 0 =
        s.mem.store32 (l.lockAt (hartId other)) 0 := by
      funext x
      simp only [taken, Memory.store32]
      split <;> rfl
    rw [hOver]
    exact Memory.store32_eq_self hLock
  rw [taken] at hTaken hBack
  simp only [act, Table.hartStart, Table.mutexTrylock, Machine.amoswap, Machine.load32,
    Machine.store32, Machine.touch, Table.mutexUnlock, hFree, hTaken, ne_eq, not_false_eq_true,
    decide_true, Bool.not_true, Bool.false_eq_true, ↓reduceIte]
  exact congrArg (fun m => ([], { s with mem := m })) hBack

/-- A statement that is plain, or a call that is refused, is sequential. -/
theorem sequential (hPlain : Plain statement ∨ act l hart statement s = ([], s) ∧
    effect hart statement = id) :
    Threads.Sequential (view l) effect (act l) hart statement s := by
  rcases hPlain with hPlain | ⟨hAct, hEffect⟩
  · exact ⟨view_own hPlain, fun other hOther => view_other hPlain hOther⟩
  · constructor
    · rw [hAct, hEffect]
      rfl
    · intro other _
      rw [hAct]

end Sbi.Boot
