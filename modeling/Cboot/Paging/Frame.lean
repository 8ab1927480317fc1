import Cboot.Paging.Refinement

/-!
# What the mapping functions write

The three functions of `paging.c` that change the page tables, called in any order from
the boot tables on.

* `PagingCall`: a call of one of them, with what its caller has to see to (`PagingCall.Ok`);
* `eachCall_onlyTables`: in a sequence of calls that meet no large page on their way down,
  every call only changes bytes of the boot tables and of pages taken from the pool.

The descent does not look at the bit for large pages, as `print_pagetable` does: a present
entry for a large page is followed as if it were a link, and the page is taken for a table
(`not_onlyTables_physicalMap`).
-/

namespace Cboot

open PageTableEntry

/-- A call of a function that changes the page tables. -/
inductive PagingCall
  | setup (totalMemsize : ℕ)
  | map (c : Call)

namespace PagingCall

/-- The effect of the call. -/
def run (st : PagingState) : PagingCall → PagingState
  | setup totalMemsize => setupPhysicalMap st totalMemsize
  | map c => c.run st

/-- What the caller sees to: an aligned frame in the physical address space, an address
    that the processor takes, not in the first 2 MB, and a pool below the boot stack. -/
def Ok (st : PagingState) : PagingCall → Prop
  | setup totalMemsize => totalMemsize < 2 ^ 64 ∧ (setupPhysicalMap st totalMemsize).it ≤ 0x6F000
  | map c => c.Aligned ∧ Canonical c.va ∧ 2 ^ 21 ≤ c.va ∧ (c.run st).it ≤ 0x6F000

/-- The call descends through the entry of a large page. -/
def MeetsHuge (st : PagingState) : PagingCall → Prop
  | setup _ => False
  | map c => HugeOnPath st.mem c.path 0x1000

/-- Every byte that the call changes is one of the boot tables or of a page that the pool
    has handed out. -/
def OnlyTables (st : PagingState) (c : PagingCall) : Prop :=
  ∀ x, (c.run st).mem x ≠ st.mem x →
    0x1000 ≤ x ∧ x < 0x5000 ∨ 0x20000 ≤ x ∧ x < (c.run st).it

end PagingCall

/-- The calls, one after the other. -/
def runPagingCalls (st : PagingState) (cs : List PagingCall) : PagingState :=
  cs.foldl PagingCall.run st

/-- The property `P` of every call, in the state in which it is made. -/
def EachCall (P : PagingState → PagingCall → Prop) : PagingState → List PagingCall → Prop
  | _, [] => True
  | st, c :: cs => P st c ∧ EachCall P (c.run st) cs

section step

variable {st : PagingState} {own : Owners} {c : PagingCall} {v : ℕ}

/-- A call that meets no large page keeps the tree of tables, and changes nothing else. -/
theorem PagingCall.run_tree (ht : PageTree st.mem st.it own) (hok : c.Ok st)
    (hh : ¬c.MeetsHuge st) :
    (∃ own', PageTree (c.run st).mem (c.run st).it own') ∧ TablesOnly st (c.run st) := by
  cases c with
  | setup totalMemsize =>
    obtain ⟨_, hit⟩ := hok
    rw [setupPhysicalMap, mapPhysicalMemory_it] at hit
    exact ⟨⟨_, pageTree_mapPhysicalMemory ht _ (by omega)⟩, tablesOnly_mapPhysicalMemory ht _⟩
  | map c =>
    obtain ⟨ha, _, _, hit⟩ := hok
    obtain ⟨own', ht', _, hf⟩ := Call.run_spec ht hh ha (hit.trans (by decide))
    exact ⟨⟨own', ht'⟩, hf⟩

theorem PagingCall.onlyTables_of_tablesOnly (h : TablesOnly st (c.run st)) : c.OnlyTables st := by
  intro x hx
  by_contra hout
  obtain ⟨h₁, h₂⟩ := not_or.1 hout
  exact hx (h.frame x ⟨h₁, h₂⟩)

end step

section run

variable {st : PagingState} {own : Owners} {cs : List PagingCall} {m : Memory}

theorem eachCall_onlyTables_of_tree (ht : PageTree st.mem st.it own)
    (hok : EachCall PagingCall.Ok st cs)
    (hh : EachCall (fun st c => ¬c.MeetsHuge st) st cs) :
    EachCall PagingCall.OnlyTables st cs := by
  induction cs generalizing st own with
  | nil => trivial
  | cons c cs ih =>
    obtain ⟨⟨own', ht'⟩, hf⟩ := PagingCall.run_tree ht hok.1 hh.1
    exact ⟨PagingCall.onlyTables_of_tablesOnly hf, ih ht' hok.2 hh.2⟩

/-- From the boot tables on, calls that meet no large page only write to the tables. -/
theorem eachCall_onlyTables (m : Memory) (hok : EachCall PagingCall.Ok (.boot m) cs)
    (hh : EachCall (fun st c => ¬c.MeetsHuge st) (.boot m) cs) :
    EachCall PagingCall.OnlyTables (.boot m) cs := by
  exact eachCall_onlyTables_of_tree (pageTree_start m) hok hh

/-- A page mapped for the kernel. -/
theorem eachCall_onlyTables_kernel :
    let cs := [PagingCall.setup (2 ^ 30), .map (.map4kb 0xFFFF900000000000 0x100000)]
    EachCall PagingCall.Ok (.boot fun _ => 0) cs ∧
      EachCall PagingCall.OnlyTables (.boot fun _ => 0) cs := by
  have hit : (setupPhysicalMap (.boot fun _ => 0) (2 ^ 30)).it = 0x21000 :=
    mapPhysicalMemory_it _ _
  have hok : EachCall PagingCall.Ok (.boot fun _ => 0)
      [.setup (2 ^ 30), .map (.map4kb 0xFFFF900000000000 0x100000)] := by
    exact ⟨⟨by decide, hit.trans_le (by decide)⟩,
      ⟨⟨by decide, by decide⟩, .inr (by decide), by decide, run_start_it_le _ _ _⟩, trivial⟩
  refine ⟨hok, eachCall_onlyTables _ hok ⟨id, ?_, trivial⟩⟩
  exact not_hugeOnPath_start (by decide) (by decide) (by decide) _

end run

/-! ## A large page on the way down -/

/-- The state after mapping one gigabyte, from a memory of zeros: the page entries of the
    map, as `map_4kb_page` finds them. -/
theorem tableEntry_oneGig :
    let st := setupPhysicalMap (.boot fun _ => 0) (2 ^ 30)
    st.it = 0x21000 ∧ tableEntry st.mem 0x1000 256 = 0x20003 ∧
      tableEntry st.mem 0x20000 0 = 0x83 ∧ ∀ x < 0x1000, st.mem x = 0 := by
  have ht : PageTree (PagingState.boot fun _ => 0).mem 0x20000 bootOwners := pageTree_boot _
  refine ⟨mapPhysicalMemory_it _ _, ?_, ?_, fun x hx => ?_⟩
  · exact (tableEntry_mapPhysicalMemory ht (by decide) ht.root 1 256).trans (if_pos ⟨rfl, rfl⟩)
  · exact (tableEntry_mapPhysicalMemory_new ht 1 0).trans (if_pos Nat.one_pos)
  · refine ((tablesOnly_mapPhysicalMemory ht 1).frame x ⟨by omega, by omega⟩).trans ?_
    exact setupAndEnablePaging_of_not_mem (.inl hx)

theorem oneGig_ok :
    EachCall PagingCall.Ok (.boot fun _ => 0)
      [.setup (2 ^ 30), .map (.map4kb 0xFFFF800000000000 0)] := by
  have hit := tableEntry_oneGig.1
  exact ⟨⟨by decide, hit.trans_le (by decide)⟩,
    ⟨⟨by decide, by decide⟩, .inr (by decide), by decide, run_start_it_le _ _ _⟩, trivial⟩

/-- There, a page of the map is taken for a table: the descent links a new table from the
    address 0. -/
theorem map4kbPage_oneGig {st : PagingState} (hit : st.it = 0x21000)
    (h₄ : tableEntry st.mem 0x1000 256 = 0x20003) (h₃ : tableEntry st.mem 0x20000 0 = 0x83)
    (hlow : ∀ x < 0x1000, st.mem x = 0) : (map4kbPage st 0xFFFF800000000000 0).mem 0 = 3 := by
  have h₂ : tableEntry st.mem 0 0 = 0 := Memory.read_eq_zero fun i hi => hlow _ (by omega)
  have e₄ : nextTable st 0x1000 (l4Index 0xFFFF800000000000) = (0x20000, st) := by
    rw [nextTable, show l4Index 0xFFFF800000000000 = 256 from rfl, h₄]
    rfl
  have e₃ : nextTable st 0x20000 (l3Index 0xFFFF800000000000) = (0, st) := by
    rw [nextTable, show l3Index 0xFFFF800000000000 = 0 from rfl, h₃]
    rfl
  have hzero : tableEntry (st.mem.fill 0x21000 0x1000 0) 0 0 = 0 := by
    rw [tableEntry_fill_of_ne (.inl (by decide)), h₂]
  have e₂ : nextTable st 0 (l2Index 0xFFFF800000000000) =
      (0x21000, ⟨(st.mem.fill 0x21000 0x1000 0).write 8 0 0x21003, 0x22000⟩) := by
    rw [nextTable, show l2Index 0xFFFF800000000000 = 0 from rfl, if_pos (by rw [h₂]; rfl)]
    simp only [newPageTable, memset_zero, Nat.reduceMul, PagingState.setEntry, hit, hzero,
      mapEntry_zero (n := 0x21000) (by decide) (by decide)]
    rfl
  simp only [map4kbPage, e₄, e₃, e₂, PagingState.setEntry]
  rw [Memory.write_of_not_mem (.inl (by omega))]
  rfl

/-- Mapping a page inside the map of physical memory stores an entry at the address 0. -/
theorem not_onlyTables_physicalMap :
    EachCall PagingCall.Ok (.boot fun _ => 0)
        [.setup (2 ^ 30), .map (.map4kb 0xFFFF800000000000 0)] ∧
      ¬EachCall PagingCall.OnlyTables (.boot fun _ => 0)
        [.setup (2 ^ 30), .map (.map4kb 0xFFFF800000000000 0)] := by
  refine ⟨oneGig_ok, ?_⟩
  rintro ⟨_, h, _⟩
  obtain ⟨hit, h₄, h₃, hlow⟩ := tableEntry_oneGig
  have hbyte := map4kbPage_oneGig hit h₄ h₃ hlow
  have hout := h 0 (by
    rw [PagingCall.run, PagingCall.run, Call.run, hbyte, hlow 0 (by decide)]
    decide)
  omega

end Cboot
