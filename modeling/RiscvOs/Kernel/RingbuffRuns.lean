import RiscvOs.Kernel.Ringbuff

/-! The ring between the input interrupts and the paint loop. An interrupt that
falls between the two stores of `ring_pop` sees `at` advanced and
`num_elements` not yet decreased. -/
namespace Kernel.Ringbuff

open Semantics Function

variable {buf : RingBuffer} {s t : Shared} {event : Event} {pending : List Word}
  {capacity : BitVec 32} {behavior : RingBufferBehavior} {events : List Event}

/-- The ring has room for one more element and its sums do not wrap around. -/
structure Fits (buf : RingBuffer) : Prop where
  capacity : buf.capacity.toNat ≤ ringSlots
  first : buf.first.toNat < buf.capacity.toNat
  room : buf.numElements.toNat < buf.capacity.toNat

theorem Fits.slot (h : Fits buf) : ((buf.first + buf.numElements) % buf.capacity).toNat =
    (buf.first.toNat + buf.numElements.toNat) % buf.capacity.toNat := by
  have hCapacity := h.capacity
  have hFirst := h.first
  have hRoom := h.room
  unfold ringSlots at hCapacity
  have hSum : buf.first.toNat + buf.numElements.toNat < 2 ^ 32 := by omega
  rw [BitVec.toNat_umod, BitVec.toNat_add, Nat.mod_eq_of_lt hSum]

theorem Fits.toNat_succ (h : Fits buf) :
    (buf.numElements + 1).toNat = buf.numElements.toNat + 1 := by
  have hCapacity := h.capacity
  have hRoom := h.room
  unfold ringSlots at hCapacity
  rw [BitVec.toNat_add]
  exact Nat.mod_eq_of_lt (by simp; omega)

/-- The slot after `at`, when the sum does not wrap around. -/
theorem toNat_next (hCapacity : buf.capacity.toNat ≤ ringSlots)
    (hFirst : buf.first.toNat < buf.capacity.toNat) :
    ((buf.first + 1) % buf.capacity).toNat = (buf.first.toNat + 1) % buf.capacity.toNat := by
  unfold ringSlots at hCapacity
  have hSum : buf.first.toNat + (1 : BitVec 32).toNat < 2 ^ 32 := by
    change buf.first.toNat + 1 < 2 ^ 32
    omega
  rw [BitVec.toNat_umod, BitVec.toNat_add, Nat.mod_eq_of_lt hSum]
  rfl

theorem Fits.next (h : Fits buf) : ((buf.first + 1) % buf.capacity).toNat =
    (buf.first.toNat + 1) % buf.capacity.toNat :=
  toNat_next h.capacity h.first

/-- A push into a ring with room appends to its contents. -/
theorem Fits.ringPush (h : Fits buf) (elem : Word) :
    ringPush buf elem = (true, ringStore buf elem) :=
  if_neg (by rw [BitVec.le_def]; exact Nat.not_le.mpr h.room)

theorem Fits.contents_ringStore (h : Fits buf) (elem : Word) :
    contents (ringStore buf elem) = contents buf ++ [elem] := by
  unfold contents ringStore
  simp only [h.slot, h.toNat_succ]
  exact window_push _ _ h.room elem

/-- What the ring holds while `ring_pop` is at a place, if `pending` are the
values that were pushed and are not yet returned. -/
def Holds (buf : RingBuffer) (pending : List Word) : PopPlace → Prop
  | .idle => contents buf = pending
  | .entered => contents buf = pending ∧ pending ≠ []
  | .indexed first => contents buf = pending ∧ pending ≠ [] ∧ first = buf.first
  | .taken elem => contents buf = pending ∧ ∃ rest, pending = elem :: rest
  | .advancing elem first =>
      contents buf = pending ∧ (∃ rest, pending = elem :: rest) ∧ first = buf.first
  | .advanced elem => ∃ rest, pending = elem :: rest ∧
      window buf.buffer buf.capacity.toNat buf.first.toNat rest.length = rest
  | .decreasing elem num => num = buf.numElements ∧ ∃ rest, pending = elem :: rest ∧
      window buf.buffer buf.capacity.toNat buf.first.toNat rest.length = rest

/-- The values that were pushed are those returned and those in the ring. -/
structure Sound (s : Shared) (pending : List Word) : Prop where
  fits : Fits s.buf
  pushed : s.pushed = s.popped ++ pending
  count : s.buf.numElements.toNat = pending.length
  holds : Holds s.buf pending s.place

theorem Sound.held (h : Sound s pending) : held s = pending := by
  unfold Ringbuff.held
  rw [h.pushed, List.drop_left]

theorem Holds.contents_eq {place : PopPlace} (h : Holds buf pending place) (hWhole : ¬ Torn place) :
    contents buf = pending := by
  cases place with
  | idle => exact h
  | entered | indexed | taken | advancing => exact h.1
  | advanced | decreasing => exact absurd trivial hWhole

/-- A push outside the two stores of `ring_pop`. -/
theorem Holds.push {place : PopPlace} (h : Holds buf pending place) (hWhole : ¬ Torn place)
    (hFits : Fits buf) (elem : Word) :
    Holds (ringStore buf elem) (pending ++ [elem]) place := by
  have hContents : contents (ringStore buf elem) = pending ++ [elem] := by
    rw [hFits.contents_ringStore, h.contents_eq hWhole]
  cases place with
  | idle => exact hContents
  | entered => exact ⟨hContents, by simp⟩
  | indexed first => exact ⟨hContents, by simp, h.2.2⟩
  | taken elem' =>
      obtain ⟨rest, hRest⟩ := h.2
      exact ⟨hContents, rest ++ [elem], by rw [hRest]; rfl⟩
  | advancing elem' first =>
      obtain ⟨rest, hRest⟩ := h.2.1
      exact ⟨hContents, ⟨rest ++ [elem], by rw [hRest]; rfl⟩, h.2.2⟩
  | advanced | decreasing => exact absurd trivial hWhole

theorem Sound.push (h : Sound s pending) (elem : Word) (hWhole : ¬ Torn s.place)
    (hRoom : NeverFull s (.push elem)) :
    Sound { s with buf := (ringPush s.buf elem).2, pushed := s.pushed ++ [elem] }
      (pending ++ [elem]) := by
  have hHeld : pending.length + 1 < s.buf.capacity.toNat := by
    rw [← h.held]
    exact hRoom
  rw [h.fits.ringPush]
  refine ⟨⟨h.fits.capacity, h.fits.first, ?_⟩, ?_, ?_, h.holds.push hWhole h.fits elem⟩
  · simp only [ringStore, h.fits.toNat_succ, h.count]
    exact hHeld
  · simp [h.pushed]
  · simp only [ringStore, h.fits.toNat_succ, h.count, List.length_append, List.length_singleton]

/-- The contents of a ring start with the slot at `at`. -/
theorem Fits.contents_cons (h : Fits buf) {elem : Word} {rest : List Word}
    (hContents : contents buf = elem :: rest) (hCount : buf.numElements.toNat = rest.length + 1) :
    buf.buffer buf.first.toNat = elem ∧
      window buf.buffer buf.capacity.toNat (buf.first.toNat + 1) rest.length = rest := by
  unfold contents at hContents
  rw [hCount, window_eq_cons, Nat.mod_eq_of_lt h.first] at hContents
  exact List.cons.inj hContents

/-- The next access of `ring_pop` keeps the invariant; the last one returns
the oldest value. -/
theorem Sound.pop (h : Sound s pending) : ∃ pending', Sound (popAccess s) pending' := by
  have hFits := h.fits
  have hCount := h.count
  have hHolds := h.holds
  unfold popAccess
  cases hPlace : s.place with
  | idle =>
      rw [hPlace] at hHolds
      by_cases hZero : s.buf.numElements = 0
      · refine ⟨pending, ?_⟩
        simp only [hZero, if_true]
        exact h
      · refine ⟨pending, ?_⟩
        simp only [hZero, if_false]
        refine ⟨hFits, h.pushed, hCount, hHolds, ?_⟩
        rintro rfl
        exact hZero (BitVec.eq_of_toNat_eq hCount)
  | entered =>
      rw [hPlace] at hHolds
      exact ⟨pending, hFits, h.pushed, hCount, hHolds.1, hHolds.2, rfl⟩
  | indexed first =>
      rw [hPlace] at hHolds
      obtain ⟨hContents, hSome, rfl⟩ := hHolds
      obtain ⟨elem, rest, rfl⟩ := List.exists_cons_of_ne_nil hSome
      have hElem := (hFits.contents_cons hContents hCount).1
      exact ⟨_, hFits, h.pushed, hCount, hContents, rest, by rw [hElem]⟩
  | taken elem =>
      rw [hPlace] at hHolds
      exact ⟨pending, hFits, h.pushed, hCount, hHolds.1, hHolds.2, rfl⟩
  | advancing elem first =>
      rw [hPlace] at hHolds
      obtain ⟨hContents, ⟨rest, rfl⟩, rfl⟩ := hHolds
      have hRest := (hFits.contents_cons hContents hCount).2
      have hFirst := hFits.first
      refine ⟨elem :: rest, ⟨hFits.capacity, ?_, hFits.room⟩, h.pushed, hCount, rest, rfl, ?_⟩
      · simpa only [hFits.next] using Nat.mod_lt _ (by omega)
      · simpa only [hFits.next, window_mod] using hRest
  | advanced elem =>
      rw [hPlace] at hHolds
      exact ⟨pending, hFits, h.pushed, hCount, rfl, hHolds⟩
  | decreasing elem num =>
      rw [hPlace] at hHolds
      obtain ⟨rfl, rest, rfl, hRest⟩ := hHolds
      have hLess : (s.buf.numElements - 1).toNat = rest.length := by
        have hLength : (elem :: rest).length = rest.length + 1 := rfl
        bv_omega
      have hRoom := hFits.room
      refine ⟨rest, ⟨hFits.capacity, hFits.first, ?_⟩, ?_, hLess, ?_⟩
      · simp only [hLess]
        simp at hCount
        omega
      · simp [h.pushed]
      · simpa only [Holds, contents, hLess] using hRest

theorem sound_initial (hCapacity : 0 < capacity.toNat) (hFits : capacity.toNat ≤ ringSlots) :
    Sound (initial capacity behavior) [] :=
  ⟨⟨hFits, hCapacity, hCapacity⟩, rfl, rfl, rfl⟩

/-- The ring never holds `capacity` elements, and no interrupt pushes between
the store of `at` and the store of `num_elements` in `ring_pop`. -/
def Undisturbed (s : Shared) (event : Event) : Prop :=
  NeverFull s event ∧ (event ≠ .pop → ¬ Torn s.place)

theorem Step.sound (hStep : Guarded Step Undisturbed s event t)
    (h : ∃ pending, Sound s pending) : ∃ pending, Sound t pending := by
  obtain ⟨⟨hRoom, hWhole⟩, hStep⟩ := hStep
  obtain ⟨pending, h⟩ := h
  cases hStep with
  | push elem => exact ⟨_, h.push elem (hWhole (by simp)) hRoom⟩
  | pop => exact h.pop

theorem sound_of_run (hCapacity : 0 < capacity.toNat) (hFits : capacity.toNat ≤ ringSlots)
    (run : Run (Guarded Step Undisturbed) (initial capacity behavior) events s) :
    ∃ pending, Sound s pending :=
  run.invariant (fun s => ∃ pending, Sound s pending) ⟨[], sound_initial hCapacity hFits⟩
    (fun _ _ _ h hStep => Step.sound hStep h)

/-- What is promised of the ring: the values returned are the first values
pushed, in order, and between two calls of `ring_pop` the ring counts and holds
the others. -/
def InOrder (s : Shared) : Prop :=
  s.popped <+: s.pushed ∧
    (s.place = .idle → s.buf.numElements.toNat + s.popped.length = s.pushed.length ∧
      contents s.buf = held s)

/-- The ring keeps its order when no interrupt falls between the two stores of
`ring_pop`. -/
theorem inOrder_of_undisturbed (hCapacity : 0 < capacity.toNat)
    (hFits : capacity.toNat ≤ ringSlots)
    (run : Run (Guarded Step Undisturbed) (initial capacity behavior) events s) : InOrder s := by
  obtain ⟨pending, h⟩ := sound_of_run hCapacity hFits run
  refine ⟨⟨pending, h.pushed.symm⟩, fun hIdle => ⟨?_, ?_⟩⟩
  · rw [h.count, h.pushed, List.length_append, Nat.add_comm]
  · have hHolds := h.holds
    rw [hIdle] at hHolds
    rw [h.held]
    exact hHolds

/-- One value goes through the ring of `pci_init`. -/
theorem inOrder_first : InOrder (popAccess (popAccess (popAccess (popAccess (popAccess (popAccess
    { initial 256 .discard with
      buf := (ringPush (initial 256 .discard).buf 7).2, pushed := [7] })))))) :=
  have hPush : Run (Guarded Step Undisturbed) (initial 256 .discard) ([] ++ [.push 7]) _ :=
    .snoc (.nil _) ⟨⟨by decide, fun _ => id⟩, .push _ _⟩
  have hPop : ∀ {events s}, Run (Guarded Step Undisturbed) (initial 256 .discard) events s →
      Run (Guarded Step Undisturbed) (initial 256 .discard) (events ++ [.pop]) (popAccess s) :=
    fun run => .snoc run ⟨⟨trivial, fun h => absurd rfl h⟩, .pop _⟩
  inOrder_of_undisturbed (by decide) (by decide)
    (hPop (hPop (hPop (hPop (hPop (hPop hPush))))))

/-- The values 1 and 2 are pushed, the second one after `ring_pop` has loaded
`num_elements`: its store takes both off the count. -/
theorem not_inOrder_torn : ¬ ∀ events s,
    Run (Guarded Step NeverFull) (initial 256 .discard) events s → InOrder s := by
  intro hClaim
  have hPush : ∀ {events s} (elem : Word), NeverFull s (.push elem) →
      Run (Guarded Step NeverFull) (initial 256 .discard) events s →
      Run (Guarded Step NeverFull) (initial 256 .discard) (events ++ [.push elem]) _ :=
    fun elem hRoom run => .snoc run ⟨hRoom, .push _ elem⟩
  have hPop : ∀ {events s}, Run (Guarded Step NeverFull) (initial 256 .discard) events s →
      Run (Guarded Step NeverFull) (initial 256 .discard) (events ++ [.pop]) (popAccess s) :=
    fun run => .snoc run ⟨trivial, .pop _⟩
  have hOne := hPush 1 (by decide) (Run.nil _)
  have hLoaded := hPop (hPop (hPop (hPop (hPop (hPop hOne)))))
  have hTwo := hPop (hPush 2 (by decide) hLoaded)
  have hCount := (hClaim _ _ hTwo).2 rfl
  revert hCount
  decide

end Kernel.Ringbuff
