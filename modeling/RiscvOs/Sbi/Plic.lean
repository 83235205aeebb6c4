import RiscvOs.Semantics.Memory
import Mathlib.Logic.Function.Basic

/-! `plic.c`, which the SBI and the kernel each have for their own mode, over
the registers of the interrupt controller. What the registers hold is a table of
priorities, thresholds and enabled interrupts. -/
namespace Sbi.Plic

open Semantics Function

/-- `PLIC_MODE_MACHINE` and `PLIC_MODE_SUPERVISOR` -/
inductive Mode where
  | machine
  | supervisor
  deriving DecidableEq

def Mode.number : Mode → Nat
  | machine => 0
  | supervisor => 1

/-- `PLIC_BASE` -/
def plicBase : Nat := 0x0c000000

/-- `PLIC_PRIORITY` -/
def plicPriority (interrupt : Nat) : Word :=
  BitVec.ofNat 64 plicBase + BitVec.ofNat 64 (0x4 * interrupt)

/-- `PLIC_THRESHOLD` -/
def plicThreshold (hart : Nat) (mode : Mode) : Word :=
  BitVec.ofNat 64 plicBase + BitVec.ofNat 64 (0x200000 + 0x1000 * (2 * hart + mode.number))

/-- `PLIC_ENABLE`, and the word `interrupt_id / 32` behind it. -/
def plicEnableWord (hart : Nat) (mode : Mode) (word : Nat) : Word :=
  BitVec.ofNat 64 plicBase +
    BitVec.ofNat 64 (0x2000 + 0x80 * (2 * hart + mode.number) + 4 * word)

/-- `1UL << (interrupt_id % 32)` -/
def irqBit (interruptId : Nat) : BitVec 32 :=
  1#32 <<< (interruptId % 32)

def plicSetPriority (interruptId : Nat) (priority : Byte) (m : Memory) : Memory :=
  m.store32 (plicPriority interruptId) ((priority &&& 7).setWidth 32)

def plicSetThreshold (mode : Mode) (hart : Nat) (priority : Byte) (m : Memory) : Memory :=
  m.store32 (plicThreshold hart mode) ((priority &&& 7).setWidth 32)

def plicEnable (mode : Mode) (hart interruptId : Nat) (m : Memory) : Memory :=
  let word := plicEnableWord hart mode (interruptId / 32)
  m.store32 word (m.load32 word ||| irqBit interruptId)

def plicDisable (mode : Mode) (hart interruptId : Nat) (m : Memory) : Memory :=
  let word := plicEnableWord hart mode (interruptId / 32)
  m.store32 word (m.load32 word &&& ~~~irqBit interruptId)

/-- The calls of `plic.c` that configure the controller, for the eight harts and
the 1024 interrupts that the controller has. -/
inductive Call where
  | setPriority (interruptId : Fin 1024) (priority : Byte)
  | setThreshold (mode : Mode) (hart : Fin 8) (priority : Byte)
  | enable (mode : Mode) (hart : Fin 8) (interruptId : Fin 1024)
  | disable (mode : Mode) (hart : Fin 8) (interruptId : Fin 1024)

def call (m : Memory) : Call → Memory
  | .setPriority interruptId priority => plicSetPriority interruptId priority m
  | .setThreshold mode hart priority => plicSetThreshold mode hart priority m
  | .enable mode hart interruptId => plicEnable mode hart interruptId m
  | .disable mode hart interruptId => plicDisable mode hart interruptId m

/-- `plic_init` of `sbi/src/main.c` -/
def sbiPlicInit : List Call :=
  [.enable .machine 0 10, .setPriority 10 7, .setThreshold .machine 0 0]

/-- `plic_init` of `main.c` -/
def kernelPlicInit : List Call :=
  [.enable .supervisor 0 32, .enable .supervisor 0 33, .enable .supervisor 0 34,
    .enable .supervisor 0 35, .setPriority 32 7, .setPriority 33 7, .setPriority 34 7,
    .setPriority 35 7, .setThreshold .supervisor 0 0]

/-! ## What the registers stand for -/

/-- What decides which interrupts a hart hears. -/
@[ext] structure Interrupts where
  priority : Fin 1024 → BitVec 32
  threshold : Fin 8 × Mode → BitVec 32
  enabled : Fin 8 × Mode × Fin 1024 → Bool

/-- The interrupt reaches the hart when it is pending. -/
def Interrupts.Hears (i : Interrupts) (hart : Fin 8) (mode : Mode) (interruptId : Fin 1024) : Prop :=
  i.enabled (hart, mode, interruptId) = true ∧ i.threshold (hart, mode) < i.priority interruptId

/-- What a call asks for. -/
def ask (i : Interrupts) : Call → Interrupts
  | .setPriority interruptId priority =>
      { i with priority := update i.priority interruptId ((priority &&& 7).setWidth 32) }
  | .setThreshold mode hart priority =>
      { i with threshold := update i.threshold (hart, mode) ((priority &&& 7).setWidth 32) }
  | .enable mode hart interruptId =>
      { i with enabled := update i.enabled (hart, mode, interruptId) true }
  | .disable mode hart interruptId =>
      { i with enabled := update i.enabled (hart, mode, interruptId) false }

/-! ## The registers -/

/-- The registers of 32 bits that the calls use. -/
inductive Register where
  | priority (interruptId : Fin 1024)
  | threshold (hart : Fin 8) (mode : Mode)
  | enable (hart : Fin 8) (mode : Mode) (word : Fin 32)
  deriving DecidableEq

/-- The distance of a register from `PLIC_BASE`. -/
def Register.offset : Register → Nat
  | .priority interruptId => 0x4 * interruptId
  | .threshold hart mode => 0x200000 + 0x1000 * (2 * hart + mode.number)
  | .enable hart mode word => 0x2000 + 0x80 * (2 * hart + mode.number) + 4 * word

def Register.addr (r : Register) : Word :=
  BitVec.ofNat 64 plicBase + BitVec.ofNat 64 r.offset

/-- What a register holds. -/
def read (m : Memory) (r : Register) : BitVec 32 :=
  m.load32 r.addr

/-- The word of the enable bits that has the bit of an interrupt. -/
def wordOf (interruptId : Fin 1024) : Fin 32 :=
  ⟨interruptId / 32, by omega⟩

def view (m : Memory) : Interrupts where
  priority interruptId := read m (.priority interruptId)
  threshold := fun (hart, mode) => read m (.threshold hart mode)
  enabled := fun (hart, mode, interruptId) =>
    (read m (.enable hart mode (wordOf interruptId))).getLsbD (interruptId % 32)

variable {m : Memory} {r r' : Register}

theorem Mode.number_lt (mode : Mode) : mode.number < 2 := by
  cases mode
  · decide
  · decide

theorem Mode.number_injective {mode mode' : Mode} (h : mode.number = mode'.number) :
    mode = mode' := by
  cases mode <;> cases mode' <;> first | rfl | simp [number] at h

/-- No two registers have a byte in common. -/
theorem Register.offset_apart (h : r ≠ r') : r.offset + 4 ≤ r'.offset ∨ r'.offset + 4 ≤ r.offset := by
  cases r with
  | priority interruptId =>
      cases r' with
      | priority interruptId' =>
          have hNe : interruptId.val ≠ interruptId'.val := fun hEq => h (by rw [Fin.ext hEq])
          simp only [offset]
          omega
      | threshold hart' mode' => simp only [offset]; omega
      | enable hart' mode' word' => simp only [offset]; omega
  | threshold hart mode =>
      cases r' with
      | priority interruptId' => simp only [offset]; omega
      | threshold hart' mode' =>
          have hNe : ¬ (hart.val = hart'.val ∧ mode.number = mode'.number) :=
            fun hEq => h (by rw [Fin.ext hEq.1, Mode.number_injective hEq.2])
          have hMode := mode.number_lt
          have hMode' := mode'.number_lt
          simp only [offset]
          omega
      | enable hart' mode' word' =>
          have hMode' := mode'.number_lt
          simp only [offset]
          omega
  | enable hart mode word =>
      have hMode := mode.number_lt
      cases r' with
      | priority interruptId' => simp only [offset]; omega
      | threshold hart' mode' => simp only [offset]; omega
      | enable hart' mode' word' =>
          have hNe : ¬ (hart.val = hart'.val ∧ mode.number = mode'.number ∧ word.val = word'.val) :=
            fun hEq => h (by rw [Fin.ext hEq.1, Mode.number_injective hEq.2.1, Fin.ext hEq.2.2])
          have hMode' := mode'.number_lt
          simp only [offset]
          omega

theorem Register.offset_lt (r : Register) : r.offset < 0x400000 := by
  cases r with
  | priority interruptId => simp only [offset]; omega
  | threshold hart mode =>
      have hMode := mode.number_lt
      simp only [offset]
      omega
  | enable hart mode word =>
      have hMode := mode.number_lt
      simp only [offset]
      omega

theorem Register.apart (h : r ≠ r') : Apart r.addr 4 r'.addr 4 := by
  have hLt := r.offset_lt
  have hLt' := r'.offset_lt
  exact apart_of_offsets (by decide) (by decide) (offset_apart h) (by omega) (by omega)

/-- A register holds what was last written to it. -/
theorem read_store (m : Memory) (r r' : Register) (value : BitVec 32) :
    read (m.store32 r.addr value) r' = if r' = r then value else read m r' := by
  by_cases hSame : r' = r
  · rw [if_pos hSame, hSame]
    exact m.load32_store32 r.addr value
  · rw [if_neg hSame]
    exact Memory.load32_congr (m.agreeOn_store32 value (Register.apart (Ne.symm hSame)))

/-! ## The calls -/

theorem irqBit_getLsbD (interruptId : Nat) {k : Nat} (hk : k < 32) :
    (irqBit interruptId).getLsbD k = decide (k = interruptId % 32) := by
  have hBit : interruptId % 32 < 32 := Nat.mod_lt _ (by decide)
  rw [irqBit, BitVec.getLsbD_shiftLeft, BitVec.getLsbD_one]
  grind

/-- Interrupts with one bit in one word are one interrupt. -/
theorem eq_of_bit {interruptId interruptId' : Fin 1024} (hWord : wordOf interruptId = wordOf interruptId')
    (hBit : interruptId.val % 32 = interruptId'.val % 32) : interruptId = interruptId' := by
  have hDiv : interruptId.val / 32 = interruptId'.val / 32 := congrArg Fin.val hWord
  apply Fin.ext
  omega

/-- A call that writes the bit of an interrupt leaves the other bits. -/
theorem enabled_store {hart : Fin 8} {mode : Mode} {interruptId : Fin 1024} {value : BitVec 32}
    {bit : Bool}
    (hBits : ∀ k < 32, value.getLsbD k =
      if k = interruptId.val % 32 then bit
      else (read m (.enable hart mode (wordOf interruptId))).getLsbD k) :
    (view (m.store32 (Register.enable hart mode (wordOf interruptId)).addr value)).enabled =
      update (view m).enabled (hart, mode, interruptId) bit := by
  funext ⟨hart', mode', interruptId'⟩
  have hLt : interruptId'.val % 32 < 32 := Nat.mod_lt _ (by decide)
  simp only [view, read_store]
  by_cases hWord : Register.enable hart' mode' (wordOf interruptId') =
      .enable hart mode (wordOf interruptId)
  · rw [if_pos hWord, hBits _ hLt]
    obtain ⟨rfl, rfl, hSame⟩ := Register.enable.inj hWord
    by_cases hBit : interruptId'.val % 32 = interruptId.val % 32
    · rw [if_pos hBit, eq_of_bit hSame hBit, update_self]
    · have hNe : (hart', mode', interruptId') ≠ (hart', mode', interruptId) := by
        intro hEq
        exact hBit (by rw [(Prod.mk.inj (Prod.mk.inj hEq).2).2])
      rw [if_neg hBit, update_of_ne hNe, hSame]
  · have hNe : (hart', mode', interruptId') ≠ (hart, mode, interruptId) := by
      rintro ⟨⟩
      exact hWord rfl
    rw [if_neg hWord, update_of_ne hNe]

theorem view_setPriority (interruptId : Fin 1024) (priority : Byte) :
    view (plicSetPriority interruptId priority m) =
      ask (view m) (.setPriority interruptId priority) := by
  have hStore : plicSetPriority interruptId priority m =
      m.store32 (Register.priority interruptId).addr ((priority &&& 7).setWidth 32) := rfl
  rw [hStore]
  ext1
  · funext interruptId'
    simp only [view, read_store, ask, update_apply, Register.priority.injEq]
  · simp only [view, read_store, reduceCtorEq, ↓reduceIte, ask]
  · simp only [view, read_store, reduceCtorEq, ↓reduceIte, ask]

theorem view_setThreshold (mode : Mode) (hart : Fin 8) (priority : Byte) :
    view (plicSetThreshold mode hart priority m) =
      ask (view m) (.setThreshold mode hart priority) := by
  have hStore : plicSetThreshold mode hart priority m =
      m.store32 (Register.threshold hart mode).addr ((priority &&& 7).setWidth 32) := rfl
  rw [hStore]
  ext1
  · simp only [view, read_store, reduceCtorEq, ↓reduceIte, ask]
  · funext ⟨hart', mode'⟩
    simp only [view, read_store, ask, update_apply, Register.threshold.injEq, Prod.mk.injEq]
  · simp only [view, read_store, reduceCtorEq, ↓reduceIte, ask]

/-- A word of enable bits holds neither a priority nor a threshold. -/
theorem view_store_enable (hart : Fin 8) (mode : Mode) (word : Fin 32) (value : BitVec 32) :
    view (m.store32 (Register.enable hart mode word).addr value) =
      { view m with
        enabled := (view (m.store32 (Register.enable hart mode word).addr value)).enabled } := by
  ext1
  · simp only [view, read_store, reduceCtorEq, ↓reduceIte]
  · simp only [view, read_store, reduceCtorEq, ↓reduceIte]
  · rfl

theorem view_enable (mode : Mode) (hart : Fin 8) (interruptId : Fin 1024) :
    view (plicEnable mode hart interruptId m) = ask (view m) (.enable mode hart interruptId) := by
  have hStore : plicEnable mode hart interruptId m =
      m.store32 (Register.enable hart mode (wordOf interruptId)).addr
        (read m (.enable hart mode (wordOf interruptId)) ||| irqBit interruptId) := rfl
  have hBits : ∀ k < 32,
      (read m (.enable hart mode (wordOf interruptId)) ||| irqBit interruptId).getLsbD k =
        if k = interruptId.val % 32 then true
        else (read m (.enable hart mode (wordOf interruptId))).getLsbD k := by
    intro k hk
    rw [BitVec.getLsbD_or, irqBit_getLsbD _ hk]
    by_cases hBit : k = interruptId.val % 32
    · simp [hBit]
    · simp [hBit]
  rw [hStore, view_store_enable, ask, enabled_store hBits]

theorem view_disable (mode : Mode) (hart : Fin 8) (interruptId : Fin 1024) :
    view (plicDisable mode hart interruptId m) =
      ask (view m) (.disable mode hart interruptId) := by
  have hStore : plicDisable mode hart interruptId m =
      m.store32 (Register.enable hart mode (wordOf interruptId)).addr
        (read m (.enable hart mode (wordOf interruptId)) &&& ~~~irqBit interruptId) := rfl
  have hBits : ∀ k < 32,
      (read m (.enable hart mode (wordOf interruptId)) &&& ~~~irqBit interruptId).getLsbD k =
        if k = interruptId.val % 32 then false
        else (read m (.enable hart mode (wordOf interruptId))).getLsbD k := by
    intro k hk
    rw [BitVec.getLsbD_and, BitVec.getLsbD_not, irqBit_getLsbD _ hk]
    by_cases hBit : k = interruptId.val % 32
    · simp [hBit]
    · simp [hBit, hk]
  rw [hStore, view_store_enable, ask, enabled_store hBits]

theorem view_call (m : Memory) (c : Call) : view (call m c) = ask (view m) c := by
  cases c with
  | setPriority interruptId priority => exact view_setPriority interruptId priority
  | setThreshold mode hart priority => exact view_setThreshold mode hart priority
  | enable mode hart interruptId => exact view_enable mode hart interruptId
  | disable mode hart interruptId => exact view_disable mode hart interruptId

/-- Whatever the SBI and the kernel call, the controller does what the calls ask
for, one after the other. -/
theorem view_calls (m : Memory) (calls : List Call) :
    view (calls.foldl call m) = calls.foldl ask (view m) := by
  induction calls generalizing m with
  | nil => rfl
  | cons c calls ih => rw [List.foldl_cons, List.foldl_cons, ih, view_call]

/-- A call writes one register. -/
theorem call_eq_store (m : Memory) (c : Call) :
    ∃ r : Register, ∃ value, call m c = m.store32 r.addr value := by
  cases c with
  | setPriority interruptId priority => exact ⟨.priority interruptId, _, rfl⟩
  | setThreshold mode hart priority => exact ⟨.threshold hart mode, _, rfl⟩
  | enable mode hart interruptId => exact ⟨.enable hart mode (wordOf interruptId), _, rfl⟩
  | disable mode hart interruptId => exact ⟨.enable hart mode (wordOf interruptId), _, rfl⟩

/-- No call writes outside the registers. -/
theorem calls_outside {x : Word} (hOutside : ∀ r : Register, ¬ InRange r.addr 4 x) (m : Memory)
    (calls : List Call) : calls.foldl call m x = m x := by
  induction calls generalizing m with
  | nil => rfl
  | cons c calls ih =>
      obtain ⟨r, value, hCall⟩ := call_eq_store m c
      rw [List.foldl_cons, ih, hCall, Memory.store32, if_neg (hOutside r)]

/-- The controller is exact along every sequence of calls. -/
theorem calls_exact (m : Memory) (calls : List Call) :
    view (calls.foldl call m) = calls.foldl ask (view m) ∧
      ∀ x, (∀ r : Register, ¬ InRange r.addr 4 x) → calls.foldl call m x = m x :=
  ⟨view_calls m calls, fun _ hOutside => calls_outside hOutside m calls⟩

/-- From a controller with no interrupt enabled, the SBI hears the UART and the
kernel hears the PCI interrupts, on hart 0 and nowhere else. -/
theorem hears_init (hReset : ∀ i, (view m).enabled i = false) (hart : Fin 8) (mode : Mode)
    (interruptId : Fin 1024) :
    (view ((sbiPlicInit ++ kernelPlicInit).foldl call m)).Hears hart mode interruptId ↔
      hart = 0 ∧ (mode = .machine ∧ interruptId = 10 ∨
        mode = .supervisor ∧ 32 ≤ interruptId.val ∧ interruptId.val < 36) := by
  rw [view_calls]
  simp only [sbiPlicInit, kernelPlicInit, List.cons_append, List.nil_append, List.foldl_cons,
    List.foldl_nil, ask, Interrupts.Hears, update_apply, hReset, Prod.mk.injEq]
  constructor
  · rintro ⟨hEnabled, -⟩
    grind
  · rintro ⟨rfl, ⟨rfl, rfl⟩ | ⟨rfl, hFrom, hTo⟩⟩
    · simp
    · obtain rfl | rfl | rfl | rfl : interruptId = 32 ∨ interruptId = 33 ∨ interruptId = 34 ∨
          interruptId = 35 := by grind
      all_goals simp

end Sbi.Plic
