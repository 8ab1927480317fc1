import Cboot.Mem
import Cboot.Paging.Entry

/-!
# The mapping functions

The functions of `paging.c` that build page tables, and the tables that `start.asm`
leaves to them. The tables are in low memory, which is mapped to itself: a pointer
to a table is its physical address.

* `setupAndEnablePaging`: the boot tables, mapping the first 2 MB to themselves;
* `newPageTable`: the watermark allocator, handing out zeroed pages from 0x20000 up;
* `map4kbPage` and `map2mbPage`, the descent of which is `nextTable`, one level at a
  time;
* `setupPhysicalMap`: all of physical memory, in pages of 1 GB;
* `Call`: a call of one of the two mapping functions, and what it asks for.
-/

namespace Cboot

open PageTableEntry

/-! ## The boot tables -/

/-- `.SetEntry`: the entries of the identity map, `n` of them stored so far, and the
    register `ebx`. -/
def setEntries (m : Memory) (edi : ℕ) : ℕ → Memory
  | 0 => m
  | n + 1 => (setEntries m edi n).write 4 (edi + 8 * n) (3 + 0x1000 * n)

/-- `setup_and_enable_paging`, of `start.asm`: the tables for the first 2 MB, at 0x1000
    to 0x4FFF. -/
def setupAndEnablePaging (m : Memory) : Memory :=
  let edi := 0x1000
  -- rep stosd
  let m := m.fill edi (4 * 4096) 0
  let m := m.write 4 edi 0x2003
  let edi := edi + 0x1000
  let m := m.write 4 edi 0x3003
  let edi := edi + 0x1000
  let m := m.write 4 edi 0x4003
  let edi := edi + 0x1000
  setEntries m edi 512

/-! ## Allocating tables -/

/-- The memory, and the static variable of `new_page_table`. -/
structure PagingState where
  mem : Memory
  it : ℕ

namespace PagingState

/-- Assigning the entry at the index `i` of the table at `t`. -/
def setEntry (st : PagingState) (t : ℕ) (i : Fin 512) (e : ℕ) : PagingState :=
  { st with mem := st.mem.write 8 (t + 8 * i) e }

@[simp] theorem setEntry_it (st : PagingState) (t : ℕ) (i : Fin 512) (e : ℕ) :
    (st.setEntry t i e).it = st.it := rfl

/-- The state in which `cboot_main` starts. -/
def boot (m : Memory) : PagingState := ⟨setupAndEnablePaging m, 0x20000⟩

end PagingState

/-- `new_page_table`: the table handed out, zeroed. -/
def newPageTable (st : PagingState) : ℕ × PagingState :=
  (st.it, { mem := memset st.mem st.it 0 (8 * 512), it := st.it + 8 * 512 })

/-- One level of the descent of the mapping functions: the table that the entry at the
    index `i` of the table at `t` links to, a new one if there is none. -/
def nextTable (st : PagingState) (t : ℕ) (i : Fin 512) : ℕ × PagingState :=
  if present (tableEntry st.mem t i) = 0 then
    let (table, st) := newPageTable st
    (table, st.setEntry t i (mapEntry (tableEntry st.mem t i) table))
  else (getPteAddress (tableEntry st.mem t i), st)

/-! ## Mapping pages -/

/-- The page of 4 KB at `addr` is mapped, with tables on the way to it. -/
def map4kbPage (st : PagingState) (addr physicalAddress : ℕ) : PagingState :=
  let p4table := 0x1000
  let (p3table, st) := nextTable st p4table (l4Index addr)
  let (p2table, st) := nextTable st p3table (l3Index addr)
  let (p1table, st) := nextTable st p2table (l2Index addr)
  st.setEntry p1table (l1Index addr) (mapEntry 0 physicalAddress)

/-- The page of 2 MB at `addr` is mapped, in a table of the level 2. -/
def map2mbPage (st : PagingState) (addr physicalAddress : ℕ) : PagingState :=
  let p4table := 0x1000
  let (p3table, st) := nextTable st p4table (l4Index addr)
  let (p2table, st) := nextTable st p3table (l3Index addr)
  st.setEntry p2table (l2Index addr) (setHugePage (mapEntry 0 physicalAddress) 1)

/-! ## The map of physical memory -/

/-- The size of physical memory in gigabytes, rounded up. -/
def numGigs (totalMemsize : ℕ) : ℕ := (totalMemsize + 0x3fffffff) % 2 ^ 64 / 0x40000000

/-- The loop of `setup_physical_map` after `i` rounds, with `virtaddr`. -/
def mapGigs (st : PagingState) (p3table : ℕ) : (i : ℕ) → PagingState × ℕ
  | 0 => (st, 0xFFFF800000000000)
  | i + 1 =>
    let (st, virtaddr) := mapGigs st p3table i
    (st.setEntry p3table (l3Index virtaddr) (setHugePage (mapEntry 0 (i * 0x40000000)) 1),
      (virtaddr + 0x40000000) % 2 ^ 64)

/-- The table of `num_gigs` gigabytes, linked from the level 4. -/
def mapPhysicalMemory (st : PagingState) (numGigs : ℕ) : PagingState :=
  let p4table := 0x1000
  let (p3table, st) := newPageTable st
  let st := { st with mem := memset st.mem p3table 0 (8 * 512) }
  let (st, virtaddr) := mapGigs st p3table numGigs
  st.setEntry p4table (l4Index virtaddr) (mapEntry 0 p3table)

/-- `setup_physical_map`, up to its test of the new map. -/
def setupPhysicalMap (st : PagingState) (totalMemsize : ℕ) : PagingState :=
  mapPhysicalMemory st (numGigs totalMemsize)

/-- `physical_to_virtual_address` -/
def physicalToVirtualAddress (addr : ℕ) : ℕ := addr ||| 0xFFFF800000000000

/-! ## Calls -/

/-- A call of one of the mapping functions. -/
inductive Call
  | map4kb (va pa : ℕ)
  | map2mb (va pa : ℕ)

/-- The virtual address asked for. -/
def Call.va : Call → ℕ
  | map4kb va _ => va
  | map2mb va _ => va

/-- The frame that it is to be mapped to. -/
def Call.pa : Call → ℕ
  | map4kb _ pa => pa
  | map2mb _ pa => pa

/-- The effect of the call. -/
def Call.run (st : PagingState) : Call → PagingState
  | map4kb va pa => map4kbPage st va pa
  | map2mb va pa => map2mbPage st va pa

/-- Some entry on the way down a path of indices is present and maps a large page. -/
def HugeOnPath (m : Memory) : List (Fin 512) → (t : ℕ) → Prop
  | [], _ => False
  | i :: p, t => present (tableEntry m t i) = 1 ∧
      (hugePage (tableEntry m t i) = 1 ∨ HugeOnPath m p (getPteAddress (tableEntry m t i)))

/-- The indices of the entries that the call descends through. -/
def Call.path : Call → List (Fin 512)
  | map4kb va _ => [l4Index va, l3Index va, l2Index va]
  | map2mb va _ => [l4Index va, l3Index va]

end Cboot
