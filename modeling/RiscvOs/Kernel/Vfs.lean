import RiscvOs.Kernel.Strhelp

/-! `vfs_parse_first` and `vfs_parse_last` of `vfs.c`: both agree with one notion
of the names in a path. -/
namespace Kernel.Vfs

open Semantics

def slash : Byte :=
  char '/'

def vfsParseFirst (fuel : Nat) (m : Memory) (path first : Word) : Option Memory := do
  let p := if m path = slash then path + 1 else path
  let m := if m path = slash ∧ m p = 0 then m.store first 0 else m
  let (_, m) ← strcpy fuel m first p
  let p2 ← strchr fuel m first slash
  some (if p2 ≠ 0 then m.store p2 0 else m)

/-- The loop `while(p2 != NULL)` of `vfs_parse_last`, as `p` behind it; each of
its rounds has the given fuel for `strchr`. -/
def lastLoop (fuel : Nat) (m : Memory) : Nat → Word → Word → Option Word
  | 0, _, _ => none
  | rounds + 1, p, p2 =>
      if p2 ≠ 0 then do
        let p := p2 + 1
        let p2 ← strchr fuel m p slash
        lastLoop fuel m rounds p p2
      else some p

def vfsParseLast (fuel : Nat) (m : Memory) (path last : Word) : Option Memory := do
  let p2 ← strchr fuel m path slash
  let m ← (if p2 = 0 then (strcpy fuel m last path).map Prod.snd else some m)
  let p ← lastLoop fuel m fuel path p2
  (strcpy fuel m last p).map Prod.snd

/-! ## Names -/

/-- A name in a path. -/
structure Name where
  text : List Byte
  nonempty : text ≠ []
  no_slash : slash ∉ text
  nonzero : 0 ∉ text

/-- `"/c1/…/cn"` -/
def rooted (names : List Name) : List Byte :=
  names.flatMap fun name => slash :: name.text

/-- The slash that a path may start with. -/
def lead (fromRoot : Bool) : List Byte :=
  if fromRoot then [slash] else []

/-- `"/c1/…/cn"` or `"c1/…/cn"` -/
def pathText (fromRoot : Bool) : List Name → List Byte
  | [] => []
  | name :: names => lead fromRoot ++ (name.text ++ rooted names)

/-- The address of an object that has the given size: it is not `NULL`, and the
object does not wrap around. -/
def ObjectAt (a : Word) (size : Nat) : Prop :=
  0 < a.toNat ∧ a.toNat + size ≤ 2 ^ 64

/-- A buffer for the output: large enough for the path, and apart from it. -/
structure Buffer (path : Word) (total : Nat) (buffer : Word) (size : Nat) : Prop where
  object : ObjectAt buffer size
  large : total < size
  apart : Apart path (total + 1) buffer size

/-- The first name, with the slash before it, is dropped from a path. -/
def dropFirst (m : Memory) (path : Word) (name : List Byte) : Word :=
  (if m path = slash then path + 1 else path) + BitVec.ofNat 64 name.length

/-- Taking the first name with `vfs_parse_first` and dropping it, until the path
is empty, comes to these names. -/
inductive Enumerates (fuel : Nat) (first : Word) : Memory → Word → List (List Byte) → Prop
  | done {m : Memory} {path : Word} : m path = 0 → Enumerates fuel first m path []
  | take {m m' : Memory} {path : Word} {name : List Byte} {names : List (List Byte)} :
      m path ≠ 0 → vfsParseFirst fuel m path first = some m' → StringAt m' first name →
      Enumerates fuel first m' (dropFirst m path name) names →
      Enumerates fuel first m path (name :: names)

/-! ## The functions on paths -/

variable {m : Memory} {path first last buffer p : Word} {fuel total size : Nat}
  {front : List Byte} {name : Name} {names : List Name} {fromRoot : Bool}

theorem slash_ne_zero : slash ≠ 0 := by
  decide

/-- A buffer for a path is one for the end of the path. -/
theorem Buffer.drop {offset rest : Nat} (h : Buffer path total buffer size)
    (hRest : offset + rest ≤ total) : Buffer (path + BitVec.ofNat 64 offset) rest buffer size := by
  have hLarge := h.large
  refine ⟨h.object, by omega, Apart.symm ?_⟩
  exact h.apart.symm.part_right (by omega) (by omega) (by omega)

/-- `strcpy` from a path to its buffer. -/
theorem Buffer.strcpy {text : List Byte} (h : Buffer path text.length buffer size)
    (hString : StringAt m path text) (hFuel : text.length < fuel) :
    ∃ m', strcpy fuel m buffer path = some (buffer, m') ∧ Wrote m m' buffer size text := by
  have hLarge := h.large
  obtain ⟨m', hCopy, hWrote⟩ := strcpy_spec hString (h.apart.symm.mono hLarge (le_refl _)) hFuel
  refine ⟨m', hCopy, hWrote.string, fun x hx => hWrote.outside x fun hIn => hx ?_⟩
  unfold InRange at hIn ⊢
  omega

/-- Writing to the buffer keeps the path. -/
theorem Buffer.keeps {m' : Memory} {text written : List Byte} (h : Buffer path text.length buffer size)
    (hWrote : Wrote m m' buffer size written) (hString : StringAt m path text) :
    StringAt m' path text := by
  have hLength : text.length < 2 ^ 64 := by
    have hApart := h.apart.1
    bv_omega
  refine hString.congr (fun x hx => hWrote.outside x ?_) hLength
  exact h.apart.symm.not_inRange hx

/-- The first slash behind a part without one. -/
theorem strchr_rooted (hString : StringAt m p (front ++ rooted names)) (hFront : slash ∉ front)
    (hFuel : (front ++ rooted names).length < fuel) :
    strchr fuel m p slash =
      some (if names = [] then 0 else p + BitVec.ofNat 64 front.length) := by
  cases names with
  | nil =>
      simp only [rooted, List.flatMap_nil, List.append_nil] at hString hFuel
      exact strchr_missing hString hFront slash_ne_zero hFuel
  | cons name names =>
      rw [List.length_append] at hFuel
      have hSlash : StringAt m p (front ++ slash :: (name.text ++ rooted names)) := hString
      exact strchr_found hSlash hFront (by omega)

theorem Name.exists_cons (name : Name) :
    ∃ c rest, name.text = c :: rest ∧ c ≠ slash ∧ c ≠ 0 := by
  cases hText : name.text with
  | nil => exact absurd hText name.nonempty
  | cons c rest =>
      have hMem : c ∈ name.text := by
        rw [hText]
        exact List.mem_cons_self
      exact ⟨c, rest, rfl, fun h => name.no_slash (h ▸ hMem), fun h => name.nonzero (h ▸ hMem)⟩

/-- A name is not empty. -/
theorem Name.first_ne_zero {a : Word} {text : List Byte} (name : Name)
    (hString : StringAt m a (name.text ++ text)) : m a ≠ 0 := by
  obtain ⟨c, rest, hText, -, hNonzero⟩ := name.exists_cons
  rw [hText] at hString
  rw [(StringAt.cons_iff.mp hString).1]
  exact hNonzero

/-- The functions step over a leading slash. -/
theorem skip_lead (hString : StringAt m path (pathText fromRoot (name :: names))) :
    (if m path = slash then path + 1 else path) =
      path + BitVec.ofNat 64 (lead fromRoot).length := by
  cases fromRoot with
  | true =>
      have hSlash : m path = slash := (StringAt.cons_iff.mp hString).1
      rw [if_pos hSlash]
      rfl
  | false =>
      obtain ⟨c, rest, hText, hOther, -⟩ := name.exists_cons
      rw [pathText, hText] at hString
      have hFirst : m path = c := (StringAt.cons_iff.mp hString).1
      rw [if_neg (hFirst ▸ hOther)]
      exact (BitVec.add_zero path).symm

/-- `vfs_parse_first` writes the first name. -/
theorem vfsParseFirst_spec (hString : StringAt m path (pathText fromRoot (name :: names)))
    (hBuffer : Buffer path (pathText fromRoot (name :: names)).length first size)
    (hFuel : (pathText fromRoot (name :: names)).length < fuel) :
    ∃ m', vfsParseFirst fuel m path first = some m' ∧ Wrote m m' first size name.text := by
  have hSkip := skip_lead hString
  have hLength : (lead fromRoot).length + (name.text ++ rooted names).length =
      (pathText fromRoot (name :: names)).length :=
    List.length_append.symm
  have hRest := StringAt.drop hString
  have hMore : m (path + BitVec.ofNat 64 (lead fromRoot).length) ≠ 0 := name.first_ne_zero hRest
  have hRounds : (name.text ++ rooted names).length < fuel := by omega
  obtain ⟨m', hCopy, hWrote⟩ := (hBuffer.drop hLength.le).strcpy hRest hRounds
  have hFind := strchr_rooted hWrote.string name.no_slash hRounds
  have hLarge := hBuffer.large
  obtain ⟨hNull, hEnd⟩ := hBuffer.object
  have hFit : name.text.length < size := by
    rw [List.length_append] at hLength
    omega
  simp only [vfsParseFirst, hSkip, hMore, and_false, ↓reduceIte, hCopy, Option.bind_eq_bind,
    Option.bind_some, hFind]
  cases names with
  | nil =>
      refine ⟨m', by simp, ?_, hWrote.outside⟩
      simpa only [rooted, List.flatMap_nil, List.append_nil] using hWrote.string
  | cons next names =>
      have hFound : first + BitVec.ofNat 64 name.text.length ≠ 0 := by bv_omega
      refine ⟨_, by rw [if_neg (List.cons_ne_nil _ _), if_pos hFound], ?_, fun x hx => ?_⟩
      · exact hWrote.string.cut (by omega)
      · rw [Memory.store_outside _ _ hx (by bv_omega), hWrote.outside x hx]

/-! ## The last name -/

/-- What stands behind the last slash. -/
def lastText (front : List Byte) : List Name → List Byte
  | [] => front
  | name :: names => lastText name.text names

theorem lastText_eq_getLast (name : Name) (names : List Name) :
    lastText name.text names = ((name :: names).getLast (List.cons_ne_nil _ _)).text := by
  induction names generalizing name with
  | nil => rfl
  | cons next names ih =>
      rw [lastText, ih, List.getLast_cons (List.cons_ne_nil _ _)]

theorem length_le_rooted (names : List Name) : names.length ≤ (rooted names).length := by
  induction names with
  | nil => exact Nat.zero_le _
  | cons name names ih =>
      simp only [rooted, List.flatMap_cons, List.length_append, List.length_cons] at ih ⊢
      omega

/-- A path as a part without a slash and the names behind it. -/
theorem pathText_split (fromRoot : Bool) (name : Name) (names : List Name) :
    ∃ front rest, slash ∉ front ∧ pathText fromRoot (name :: names) = front ++ rooted rest ∧
      lastText front rest = lastText name.text names := by
  cases fromRoot with
  | true => exact ⟨[], name :: names, List.not_mem_nil, rfl, rfl⟩
  | false => exact ⟨name.text, names, name.no_slash, rfl, rfl⟩

/-- The loop comes to what stands behind the last slash. -/
theorem lastLoop_spec {before : List Byte} {rounds : Nat}
    (hString : StringAt m path (before ++ (front ++ rooted names)))
    (hObject : ObjectAt path ((before ++ (front ++ rooted names)).length + 1))
    (hFuel : (before ++ (front ++ rooted names)).length < fuel) (hRounds : names.length < rounds) :
    ∃ before', before ++ (front ++ rooted names) = before' ++ lastText front names ∧
      lastLoop fuel m rounds (path + BitVec.ofNat 64 before.length)
        (if names = [] then 0
          else path + BitVec.ofNat 64 before.length + BitVec.ofNat 64 front.length) =
        some (path + BitVec.ofNat 64 before'.length) := by
  induction names generalizing before front rounds with
  | nil =>
      obtain ⟨rounds, rfl⟩ := Nat.exists_eq_succ_of_ne_zero (Nat.ne_zero_of_lt hRounds)
      refine ⟨before, ?_, rfl⟩
      simp only [rooted, List.flatMap_nil, List.append_nil, lastText]
  | cons name names ih =>
      obtain ⟨rounds, rfl⟩ := Nat.exists_eq_succ_of_ne_zero (Nat.ne_zero_of_lt hRounds)
      have hText : before ++ (front ++ rooted (name :: names)) =
          (before ++ front ++ [slash]) ++ (name.text ++ rooted names) := by
        simp only [rooted, List.flatMap_cons, List.append_assoc, List.cons_append, List.nil_append]
      rw [hText] at hString hObject hFuel ⊢
      have hNext : path + BitVec.ofNat 64 before.length + BitVec.ofNat 64 front.length + 1 =
          path + BitVec.ofNat 64 (before ++ front ++ [slash]).length := by
        simp only [List.length_append, List.length_singleton, BitVec.ofNat_add, BitVec.add_assoc]
        rfl
      have hFound :
          path + BitVec.ofNat 64 before.length + BitVec.ofNat 64 front.length ≠ 0 := by
        obtain ⟨hNull, hEnd⟩ := hObject
        simp only [List.length_append, List.length_singleton] at hEnd
        bv_omega
      have hLength := hFuel
      rw [List.length_append] at hLength
      have hLess : (name.text ++ rooted names).length < fuel := by omega
      have hFind := strchr_rooted hString.drop name.no_slash hLess
      obtain ⟨before', hSplit, hLoop⟩ := ih hString hObject hFuel (Nat.lt_of_succ_lt_succ hRounds)
      refine ⟨before', hSplit, ?_⟩
      rw [if_neg (List.cons_ne_nil _ _), lastLoop, if_pos hFound, hNext]
      simpa only [hFind, Option.bind_eq_bind, Option.bind_some] using hLoop

/-- Without a slash `vfs_parse_last` copies the path once more than it needs to. -/
theorem Buffer.strcpy_if {text : List Byte} (h : Buffer path text.length buffer size)
    (hString : StringAt m path text) (hFuel : text.length < fuel) (p2 : Word) :
    ∃ m', (if p2 = 0 then (Kernel.strcpy fuel m buffer path).map Prod.snd else some m) = some m' ∧
      (∀ x, ¬ InRange buffer size x → m' x = m x) ∧ StringAt m' path text := by
  split
  · obtain ⟨m', hCopy, hWrote⟩ := h.strcpy hString hFuel
    exact ⟨m', by rw [hCopy]; rfl, hWrote.outside, h.keeps hWrote hString⟩
  · exact ⟨m, rfl, fun _ _ => rfl, hString⟩

/-- `vfs_parse_last` writes the last name. -/
theorem vfsParseLast_spec (hString : StringAt m path (pathText fromRoot (name :: names)))
    (hObject : ObjectAt path ((pathText fromRoot (name :: names)).length + 1))
    (hBuffer : Buffer path (pathText fromRoot (name :: names)).length last size)
    (hFuel : (pathText fromRoot (name :: names)).length < fuel) :
    ∃ m', vfsParseLast fuel m path last = some m' ∧
      Wrote m m' last size ((name :: names).getLast (List.cons_ne_nil _ _)).text := by
  obtain ⟨front, rest, hFront, hText, hLast⟩ := pathText_split fromRoot name names
  rw [← lastText_eq_getLast, ← hLast]
  rw [hText] at hString hObject hBuffer hFuel
  have hFind := strchr_rooted hString hFront hFuel
  obtain ⟨m1, hCopy, hSame, hKept⟩ := hBuffer.strcpy_if hString hFuel
    (if rest = [] then 0 else path + BitVec.ofNat 64 front.length)
  have hRounds : rest.length < fuel := by
    have hCount := length_le_rooted rest
    rw [List.length_append] at hFuel
    omega
  have hWhole : StringAt m1 path ([] ++ (front ++ rooted rest)) := hKept
  obtain ⟨before, hSplit, hLoop⟩ := lastLoop_spec hWhole hObject hFuel hRounds
  simp only [List.nil_append, List.length_nil, BitVec.add_zero] at hSplit hLoop
  rw [hSplit] at hKept hBuffer hFuel
  rw [List.length_append] at hFuel hBuffer
  have hLess : (lastText front rest).length < fuel := by omega
  obtain ⟨m', hEnd, hWrote⟩ := (hBuffer.drop (le_refl _)).strcpy hKept.drop hLess
  refine ⟨m', ?_, hWrote.string, fun x hx => (hWrote.outside x hx).trans (hSame x hx)⟩
  simp only [vfsParseLast, hFind, hCopy, hLoop, hEnd, Option.bind_eq_bind, Option.bind_some,
    Option.map_some]

/-! ## The names one after the other -/

theorem pathText_drop (fromRoot : Bool) (name : Name) (names : List Name) :
    pathText fromRoot (name :: names) = (lead fromRoot ++ name.text) ++ pathText true names := by
  cases names with
  | nil => simp [pathText, rooted]
  | cons next names => simp [pathText, rooted, lead]

theorem length_pathText (fromRoot : Bool) (name : Name) (names : List Name) :
    (lead fromRoot ++ name.text).length + (pathText true names).length =
      (pathText fromRoot (name :: names)).length := by
  rw [pathText_drop]
  exact List.length_append.symm

theorem path_ne_zero (hString : StringAt m path (pathText fromRoot (name :: names))) :
    m path ≠ 0 := by
  cases fromRoot with
  | true => exact (StringAt.cons_iff.mp hString).1 ▸ slash_ne_zero
  | false => exact name.first_ne_zero hString

theorem dropFirst_eq (hString : StringAt m path (pathText fromRoot (name :: names))) :
    dropFirst m path name.text = path + BitVec.ofNat 64 (lead fromRoot ++ name.text).length := by
  rw [dropFirst, skip_lead hString, BitVec.add_assoc, ← BitVec.ofNat_add, List.length_append]

/-- Taking the first name and dropping it comes to the names of the path. -/
theorem enumerates_iff {found : List (List Byte)}
    (hString : StringAt m path (pathText fromRoot names))
    (hBuffer : Buffer path (pathText fromRoot names).length first size)
    (hFuel : (pathText fromRoot names).length < fuel) :
    Enumerates fuel first m path found ↔ found = names.map Name.text := by
  induction names generalizing m path fromRoot found with
  | nil =>
      have hEmpty := StringAt.nil_iff.mp hString
      constructor
      · intro h
        cases h with
        | done => rfl
        | take hMore => exact absurd hEmpty hMore
      · rintro rfl
        exact .done hEmpty
  | cons name names ih =>
      obtain ⟨m', hParse, hWrote⟩ := vfsParseFirst_spec hString hBuffer hFuel
      have hSplit := pathText_drop fromRoot name names
      have hDrop := dropFirst_eq hString
      have hLength := length_pathText fromRoot name names
      have hMore := path_ne_zero hString
      have hKept := hBuffer.keeps hWrote hString
      rw [hSplit] at hKept
      have hRest (found : List (List Byte)) :
          Enumerates fuel first m' _ found ↔ found = names.map Name.text :=
        ih hKept.drop (hBuffer.drop hLength.le) (by omega)
      constructor
      · intro h
        cases h with
        | done hEnd => exact absurd hEnd hMore
        | take _ hParse' hName hTail =>
            cases hParse.symm.trans hParse'
            rw [hName.unique hWrote.string, hDrop, hRest] at hTail
            rw [hName.unique hWrote.string, hTail, List.map_cons]
      · rintro rfl
        rw [← hDrop] at hRest
        exact .take hMore hParse hWrote.string ((hRest _).mpr rfl)

/-- `vfs_parse_first` writes the first name of a path and `vfs_parse_last` the last
one. The names that the first function comes to are those of the path, in order,
and the last of them is what the second function writes. -/
theorem vfs_parse_names (hNames : names ≠ []) (hString : StringAt m path (pathText fromRoot names))
    (hObject : ObjectAt path ((pathText fromRoot names).length + 1))
    (hFirst : Buffer path (pathText fromRoot names).length first size)
    (hLast : Buffer path (pathText fromRoot names).length last size)
    (hFuel : (pathText fromRoot names).length < fuel) :
    (∃ m', vfsParseFirst fuel m path first = some m' ∧
      Wrote m m' first size (names.head hNames).text) ∧
    (∃ m', vfsParseLast fuel m path last = some m' ∧
      Wrote m m' last size (names.getLast hNames).text) ∧
    (∀ found, Enumerates fuel first m path found ↔ found = names.map Name.text) ∧
    ∀ found, Enumerates fuel first m path found → ∃ m' name,
      vfsParseLast fuel m path last = some m' ∧ found.getLast? = some name ∧
        StringAt m' last name := by
  obtain ⟨name, rest, rfl⟩ := List.exists_cons_of_ne_nil hNames
  obtain ⟨m', hParse, hWrote⟩ := vfsParseLast_spec hString hObject hLast hFuel
  refine ⟨vfsParseFirst_spec hString hFirst hFuel, ⟨m', hParse, hWrote⟩,
    fun found => enumerates_iff hString hFirst hFuel, fun found hFound => ?_⟩
  rw [enumerates_iff hString hFirst hFuel] at hFound
  refine ⟨m', _, hParse, ?_, hWrote.string⟩
  rw [hFound, List.getLast?_map, List.getLast?_eq_some_getLast hNames, Option.map_some]

/-- The memory with the path `"/a/b"` at `0x1000`. -/
def sampleMemory (x : Word) : Byte :=
  literal "/a/b" (x - 0x1000).toNat

def sampleNames : List Name :=
  [⟨[char 'a'], by decide, by decide, by decide⟩, ⟨[char 'b'], by decide, by decide, by decide⟩]

theorem sampleMemory_path : StringAt sampleMemory 0x1000 (pathText true sampleNames) := by
  refine StringAt.cons_iff.mpr ⟨by decide, by decide, ?_⟩
  refine StringAt.cons_iff.mpr ⟨by decide, by decide, ?_⟩
  refine StringAt.cons_iff.mpr ⟨by decide, by decide, ?_⟩
  refine StringAt.cons_iff.mpr ⟨by decide, by decide, ?_⟩
  exact StringAt.nil_iff.mpr (by decide)

theorem vfs_parse_names_sample :
    (∃ m', vfsParseFirst 8 sampleMemory 0x1000 0x2000 = some m' ∧
      StringAt m' 0x2000 [char 'a']) ∧
    (∃ m', vfsParseLast 8 sampleMemory 0x1000 0x3000 = some m' ∧
      StringAt m' 0x3000 [char 'b']) ∧
    Enumerates 8 0x2000 sampleMemory 0x1000 [[char 'a'], [char 'b']] := by
  obtain ⟨⟨m', hFirst, hA⟩, ⟨m'', hLast, hB⟩, hNames, -⟩ :=
    vfs_parse_names (by decide) sampleMemory_path ⟨by decide, by decide⟩
      (⟨⟨by decide, by decide⟩, by decide, by decide, by decide⟩ :
        Buffer 0x1000 (pathText true sampleNames).length 0x2000 16)
      (⟨⟨by decide, by decide⟩, by decide, by decide, by decide⟩ :
        Buffer 0x1000 (pathText true sampleNames).length 0x3000 16)
      (by decide : (pathText true sampleNames).length < 8)
  exact ⟨⟨m', hFirst, hA.string⟩, ⟨m'', hLast, hB.string⟩, (hNames _).mpr rfl⟩

end Kernel.Vfs
