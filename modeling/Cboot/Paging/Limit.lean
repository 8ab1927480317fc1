import Cboot.Paging.Refinement

/-!
# The entries stay in the physical address space

The address field of an entry has one bit more than the processor reads. Nothing that the
boot loader stores in its tables uses it: all doublewords in the pages of the tables are
below 2 ^ 52 (`EntriesBelow`), from the boot tables on, after the map of physical memory
and after any calls of the mapping functions.

Nothing is said about which table an entry is in: it is enough that the tables start at a
doubleword.
-/

namespace Cboot

open Bitfield PageTableEntry

/-- All doublewords in the pages of the tables are below the end of the physical address
    space. -/
structure EntriesBelow (st : PagingState) : Prop where
  pool : st.it % 8 = 0
  lt : ∀ x, x % 8 = 0 → ¬OffTables st.it x → st.mem.read 8 x < 2 ^ 52

/-- A new entry for a page or a table in the physical address space is in it, too. -/
theorem mapEntry_lt {e n : ℕ} (he : e < 2 ^ 52) (hn : n < 2 ^ 52) : mapEntry e n < 2 ^ 52 := by
  simp only [mapEntry, setPteAddress, setAddr, setPresent, setWritable, setField]
  omega

namespace EntriesBelow

variable {st : PagingState} {t x it : ℕ} {i : Fin 512} {e : ℕ}

/-- Zeroing a page of which some may be added to those of the tables. -/
theorem fill_zero (h : EntriesBelow st) (hx : x % 8 = 0) (hpool : it % 8 = 0)
    (hit : ∀ y, y < it → y < st.it ∨ x ≤ y ∧ y < x + 0x1000) :
    EntriesBelow ⟨st.mem.fill x 0x1000 0, it⟩ := by
  refine ⟨hpool, fun y hy htab => ?_⟩
  by_cases hin : x ≤ y ∧ y < x + 0x1000
  · rw [Memory.read_eq_zero fun j hj => Memory.fill_of_mem (by omega) (by omega)]
    exact Nat.two_pow_pos 52
  · have hsame : (st.mem.fill x 0x1000 0).read 8 y = st.mem.read 8 y :=
      Memory.read_congr fun j hj => Memory.fill_of_not_mem (by omega)
    rw [hsame]
    refine h.lt y hy fun hoff => htab ⟨hoff.1, fun hlt => hoff.2 ⟨hlt.1, ?_⟩⟩
    exact (hit y hlt.2).resolve_right hin

theorem newPageTable (h : EntriesBelow st) : EntriesBelow (newPageTable st).2 := by
  have hpool := h.pool
  simp only [Cboot.newPageTable, memset_zero, Nat.reduceMul]
  exact h.fill_zero hpool (by omega) fun y hy => by omega

theorem setEntry (h : EntriesBelow st) (ht : t % 8 = 0)
    (he : ¬OffTables st.it (t + 8 * i) → e < 2 ^ 52) : EntriesBelow (st.setEntry t i e) := by
  refine ⟨h.pool, fun y hy htab => ?_⟩
  by_cases hyt : y = t + 8 * i
  · subst hyt
    rw [PagingState.setEntry, Memory.read_write]
    exact (Nat.mod_le _ _).trans_lt (he htab)
  · rw [PagingState.setEntry, Memory.read_write_of_disjoint (by omega)]
    exact h.lt y hy htab

/-- Going one level down. Where the table that an entry links to is, the address field does
    not say, but it starts at a doubleword. -/
theorem nextTable (h : EntriesBelow st) (ht : t % 8 = 0) (i : Fin 512) (hit : st.it < 2 ^ 52) :
    EntriesBelow (nextTable st t i).2 ∧ (nextTable st t i).1 % 8 = 0 := by
  rw [Cboot.nextTable]
  split
  · refine ⟨h.newPageTable.setEntry ht fun htab => mapEntry_lt ?_ hit, h.pool⟩
    exact h.newPageTable.lt _ (by omega) htab
  · refine ⟨h, ?_⟩
    rw [getPteAddress]
    omega

theorem descend (h : EntriesBelow st) (ht : t % 8 = 0) {q : List (Fin 512)}
    (hit : (descend st t q).2.it < 2 ^ 52) :
    EntriesBelow (descend st t q).2 ∧ (descend st t q).1 % 8 = 0 := by
  induction q generalizing st t with
  | nil => exact ⟨h, ht⟩
  | cons i q ih =>
    have hlt : st.it < 2 ^ 52 :=
      (it_le_nextTable st t i).trans_lt ((it_le_descend _ _ q).trans_lt hit)
    obtain ⟨h', ht'⟩ := h.nextTable ht i hlt
    exact ih h' ht' hit

theorem lt_of_aligned {c : Call} (ha : c.Aligned) : c.entry < 2 ^ 52 := by
  cases c with
  | map4kb va pa => exact mapEntry_lt (by decide) ha.2
  | map2mb va pa =>
    obtain ⟨ha, hpa⟩ := ha
    rw [Call.entry, setHugePage_mapEntry (by omega) hpa]
    omega

/-- A call for a page in the physical address space. -/
theorem run (h : EntriesBelow st) {c : Call} (ha : c.Aligned) (hit : (c.run st).it < 2 ^ 52) :
    EntriesBelow (c.run st) := by
  rw [Call.run_eq] at hit ⊢
  obtain ⟨h', ht'⟩ := h.descend (by decide) hit
  exact h'.setEntry ht' fun _ => lt_of_aligned ha

theorem runCalls (h : EntriesBelow st) {cs : List Call} (hcs : CallsOk st cs) :
    EntriesBelow (runCalls st cs) := by
  induction cs generalizing st with
  | nil => exact h
  | cons c cs ih =>
    exact ih (h.run hcs.1.aligned (hcs.1.it_le.trans_lt (by decide))) hcs.2

/-- The boot tables map the first 2 MB. -/
theorem boot (m : Memory) : EntriesBelow (.boot m) := by
  refine ⟨show 0x20000 % 8 = 0 by decide, fun x hx htab => ?_⟩
  have hpage : 0x1000 ≤ x ∧ x < 0x5000 := by
    by_contra hoff
    exact htab ⟨hoff, fun h => absurd h.2 (Nat.not_lt.2 h.1)⟩
  -- The entry that starts at this doubleword.
  let i : Fin 512 := ⟨x % 0x1000 / 8, by omega⟩
  have hentry : (setupAndEnablePaging m).read 8 x =
      tableEntry (setupAndEnablePaging m) (x / 0x1000 * 0x1000) i := by
    rw [tableEntry]
    congr 1
    change x = x / 0x1000 * 0x1000 + 8 * (x % 0x1000 / 8)
    omega
  have hi := i.isLt
  rw [PagingState.boot, hentry, tableEntry_boot m i (by omega)]
  split
  · omega
  · split <;> omega

theorem mapGigs (h : EntriesBelow st) (ht : t % 8 = 0) {n : ℕ} (hn : n ≤ 2 ^ 22) :
    EntriesBelow (mapGigs st t n).1 := by
  induction n with
  | zero => exact h
  | succ n ih =>
    refine (ih (Nat.le_of_succ_le hn)).setEntry ht fun _ => ?_
    change gigEntry n < 2 ^ 52
    rw [gigEntry_eq]
    omega

theorem mapPhysicalMemory (h : EntriesBelow st) (hit : st.it < 2 ^ 52) {n : ℕ}
    (hn : n ≤ 2 ^ 22) : EntriesBelow (mapPhysicalMemory st n) := by
  have hpool := h.pool
  have hzero := h.newPageTable.fill_zero (x := st.it) hpool h.newPageTable.pool fun _ => .inl
  rw [← memset_zero] at hzero
  exact (hzero.mapGigs hpool hn).setEntry (by decide) fun _ => mapEntry_lt (by decide) hit

/-- In every state reached from the boot tables. -/
theorem reachable {m : Memory} {total : ℕ} (htotal : total ≤ 511 * 2 ^ 30) {cs : List Call}
    (hcs : CallsOk (setupPhysicalMap (.boot m) total) cs) :
    EntriesBelow (Cboot.runCalls (setupPhysicalMap (.boot m) total) cs) := by
  have hn := numGigs_eq (show total < 2 ^ 63 by omega)
  exact ((boot m).mapPhysicalMemory (boot_it_lt m) (by omega)).runCalls hcs

/-- An entry of a table of the tree. -/
theorem tableEntry_lt (h : EntriesBelow st) {own : Owners} (ht : PageTree st.mem st.it own)
    {p : List (Fin 512)} (hown : own t = some p) (i : Fin 512) :
    tableEntry st.mem t i < 2 ^ 52 := by
  have hpage := ht.page hown
  have hi := i.isLt
  refine h.lt _ (by omega) fun hoff => ?_
  obtain ⟨h₁, h₂⟩ := hoff
  omega

end EntriesBelow

end Cboot
