import RiscvOs.Semantics.Memory
import RiscvOs.Semantics.Transition

/-! `ncpage.c`, the allocator of single pages. The first word of every free page
is the address of the next free page. -/
namespace Kernel.Ncpage

open Semantics

/-- `sym_start(heap)` and `sym_end(heap)`, whole pages behind the stacks. -/
structure Heap where
  start : Word
  stop : Word
  pages : Nat
  nonEmpty : 1 ≤ pages
  whole : start.toNat + 4096 * pages = stop.toNat
  nonNull : start ≠ 0

namespace Heap

def pageAt (h : Heap) (i : Nat) : Word :=
  h.start + BitVec.ofNat 64 (4096 * i)

def pageList (h : Heap) : List Word :=
  (List.range h.pages).map h.pageAt

end Heap

/-- The memory and `page_head`. -/
structure Pages where
  mem : Memory
  pageHead : Word

/-- The loop of `ncpage_init` and the store behind it. It has no result when
the fuel runs out. -/
def initLoop (stop : Word) : Nat → Memory → Word → Word → Option Memory
  | 0, _, _, _ => none
  | fuel + 1, m, page, pageNext =>
      if pageNext < stop then
        initLoop stop fuel (m.store64 page pageNext) pageNext (pageNext + 4096)
      else some (m.store64 page 0)

def ncpageInit (fuel : Nat) (h : Heap) (m : Memory) : Option Pages := do
  let pageHead := h.start
  let m ← initLoop h.stop fuel m pageHead pageHead
  some { mem := m, pageHead := pageHead }

/-- The returned page, and the pages behind it. -/
def ncpageZalloc (s : Pages) : Word × Pages :=
  if s.pageHead = 0 then (0, s)
  else (s.pageHead, { s with pageHead := s.mem.load64 s.pageHead })

def ncpageFree (s : Pages) (page : Word) : Pages :=
  if page = 0 then s
  else { mem := s.mem.store64 page s.pageHead, pageHead := page }

/-- The allocator in use. `held` are the pages that calls of `ncpage_zalloc`
have returned and that were not given to `ncpage_free` since. -/
structure PagesUse where
  pages : Pages
  held : List Word

/-- A call of `ncpage_zalloc` with its answer, one of `ncpage_free`, or a write
into a page. -/
inductive Event where
  | zalloc (page : Word)
  | free (page : Word)
  | write (page : Word)

/-- Pages that are held are freed and written. The answers of the calls decide
what is held, not the state of the allocator. -/
inductive Step : PagesUse → Event → PagesUse → Prop where
  | zalloc {s : PagesUse} {page : Word} {pages : Pages}
      (hCall : ncpageZalloc s.pages = (page, pages)) :
      Step s (.zalloc page)
        { pages := pages, held := if page = 0 then s.held else page :: s.held }
  | free (s : PagesUse) (page : Word) (hHeld : page ∈ s.held) :
      Step s (.free page)
        { pages := ncpageFree s.pages page, held := s.held.erase page }
  | write (s : PagesUse) (page : Word) (m : Memory) (hHeld : page ∈ s.held)
      (hOutside : ∀ x, ¬ InRange page 4096 x → m x = s.pages.mem x) :
      Step s (.write page) { s with pages := { s.pages with mem := m } }

end Kernel.Ncpage
