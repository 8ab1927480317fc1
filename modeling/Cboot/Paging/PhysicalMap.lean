import Cboot.Paging.Map

/-!
# The map of physical memory

What the processor makes of the tables after `setup_physical_map`.

* `pageTree_boot`: the boot tables are a tree, of which the pool has given nothing yet;
* `tableEntry_mapPhysicalMemory`: the entries after the call. The gigabyte `i` is stored
  at the index `i % 512` of the new table, which is linked from the index that follows
  the address reached by the loop;
* `pageWalk_physical`: the walks of the 512 GiB from 0xFFFF800000000000 on;
* `mapsPhysical_iff`: an address there translates to its place in physical memory if and
  only if it is one of the gigabytes asked for and there are at most 511 of them.
-/

namespace Cboot

open Bitfield PageTableEntry Radix

/-! ## The boot tables -/

section boot

variable {m : Memory} {t t₀ edi n : ℕ} {i : Fin 512}

theorem tableEntry_setEntries_of_ne (ht : t % 0x1000 = 0) (he : edi % 0x1000 = 0) (hne : t ≠ edi)
    (hn : n ≤ 512) : tableEntry (setEntries m edi n) t i = tableEntry m t i := by
  induction n with
  | zero => rfl
  | succ n ih =>
    rw [setEntries, tableEntry_write_of_ne (j := ⟨n, hn⟩) (by decide) ht he fun h => hne h.1]
    exact ih (Nat.le_of_succ_le hn)

theorem tableEntry_setEntries (hz : ∀ i, tableEntry m edi i = 0) (he : edi % 0x1000 = 0)
    (hn : n ≤ 512) :
    tableEntry (setEntries m edi n) edi i = if i.val < n then 3 + 0x1000 * i.val else 0 := by
  induction n generalizing i with
  | zero => exact hz i
  | succ n ih =>
    have ih := @ih
    rw [setEntries]
    by_cases hi : i = ⟨n, hn⟩
    · subst hi
      rw [if_pos (Nat.lt_succ_self n)]
      refine tableEntry_write_four (i := ⟨n, hn⟩) (by omega) ?_
      rw [ih (Nat.le_of_succ_le hn), if_neg (Nat.lt_irrefl n)]
    · rw [tableEntry_write_of_ne (j := ⟨n, hn⟩) (by decide) he he fun h => hi h.2,
        ih (Nat.le_of_succ_le hn)]
      have : i.val ≠ n := fun h => hi (Fin.ext h)
      exact if_congr (by omega) rfl rfl

/-- Storing a doubleword at the beginning of a table whose first entry is zero. -/
theorem tableEntry_write_first {e : ℕ} (he : e < 2 ^ 32) (ht : t % 0x1000 = 0)
    (ht₀ : t₀ % 0x1000 = 0) (hz : tableEntry m t₀ 0 = 0) :
    tableEntry (m.write 4 t₀ e) t i = if t = t₀ ∧ i = 0 then e else tableEntry m t i := by
  have h₀ : t₀ = t₀ + 8 * (0 : Fin 512).val := by simp
  split
  · rename_i h
    obtain ⟨rfl, rfl⟩ := h
    have := tableEntry_write_four he hz
    rwa [← h₀] at this
  · rename_i h
    have := tableEntry_write_of_ne (m := m) (e := e) (n := 4) (by decide) ht ht₀ h
    rwa [← h₀] at this

/-- The paths to the boot tables. -/
def bootOwners : Owners := fun t =>
  if t = 0x1000 then some []
  else if t = 0x2000 then some [0]
  else if t = 0x3000 then some [0, 0]
  else if t = 0x4000 then some [0, 0, 0]
  else none

theorem bootOwners_cases {p : List (Fin 512)} (h : bootOwners t = some p) :
    t = 0x1000 ∧ p = [] ∨ t = 0x2000 ∧ p = [0] ∨ t = 0x3000 ∧ p = [0, 0] ∨
      t = 0x4000 ∧ p = [0, 0, 0] := by
  unfold bootOwners at h
  split_ifs at h with h₁ h₂ h₃ h₄ <;> obtain rfl := Option.some.inj h
  · exact .inl ⟨h₁, rfl⟩
  · exact .inr (.inl ⟨h₂, rfl⟩)
  · exact .inr (.inr (.inl ⟨h₃, rfl⟩))
  · exact .inr (.inr (.inr ⟨h₄, rfl⟩))

/-- The entries of the boot tables: each table is linked from the first entry of the one
    before it, and the last one maps the first 2 MB. -/
theorem tableEntry_boot (m : Memory) (i : Fin 512)
    (ht : t = 0x1000 ∨ t = 0x2000 ∨ t = 0x3000 ∨ t = 0x4000) :
    tableEntry (setupAndEnablePaging m) t i =
      if t = 0x4000 then 0x1000 * i.val + 3 else if i = 0 then t + 0x1003 else 0 := by
  have h₀ : ∀ t' (j : Fin 512), t' % 0x1000 = 0 ∧ 0x1000 ≤ t' ∧ t' ≤ 0x4000 →
      tableEntry (m.fill 0x1000 (4 * 4096) 0) t' j = 0 := fun t' j ht' => by
    have := j.isLt
    exact Memory.read_eq_zero fun k hk => Memory.fill_of_mem (by omega) (by omega)
  have h₁ : ∀ t' (j : Fin 512), t' % 0x1000 = 0 ∧ 0x1000 ≤ t' ∧ t' ≤ 0x4000 →
      tableEntry ((m.fill 0x1000 (4 * 4096) 0).write 4 0x1000 0x2003) t' j =
        if t' = 0x1000 ∧ j = 0 then 0x2003 else 0 := fun t' j ht' => by
    rw [tableEntry_write_first (by decide) ht'.1 (by decide) (h₀ _ 0 (by decide)), h₀ t' j ht']
  have h₂ : ∀ t' (j : Fin 512), t' % 0x1000 = 0 ∧ 0x1000 ≤ t' ∧ t' ≤ 0x4000 →
      tableEntry (((m.fill 0x1000 (4 * 4096) 0).write 4 0x1000 0x2003).write 4 0x2000 0x3003)
        t' j = if t' = 0x2000 ∧ j = 0 then 0x3003 else if t' = 0x1000 ∧ j = 0 then 0x2003 else 0 :=
    fun t' j ht' => by
    rw [tableEntry_write_first (by decide) ht'.1 (by decide) (h₁ _ 0 (by decide)), h₁ t' j ht']
  have h₃ : ∀ t' (j : Fin 512), t' % 0x1000 = 0 ∧ 0x1000 ≤ t' ∧ t' ≤ 0x4000 →
      tableEntry ((((m.fill 0x1000 (4 * 4096) 0).write 4 0x1000 0x2003).write 4 0x2000
        0x3003).write 4 0x3000 0x4003) t' j =
        if t' = 0x3000 ∧ j = 0 then 0x4003 else if t' = 0x2000 ∧ j = 0 then 0x3003
        else if t' = 0x1000 ∧ j = 0 then 0x2003 else 0 := fun t' j ht' => by
    rw [tableEntry_write_first (by decide) ht'.1 (by decide) (h₂ _ 0 (by decide)), h₂ t' j ht']
  simp only [setupAndEnablePaging, Nat.reduceAdd]
  by_cases h : t = 0x4000
  · subst h
    rw [if_pos rfl, tableEntry_setEntries (fun j => by rw [h₃ _ j (by decide)]; rfl) (by decide)
      le_rfl, if_pos i.isLt, Nat.add_comm]
  · rw [if_neg h, tableEntry_setEntries_of_ne (by omega) (by decide) h le_rfl, h₃ t i (by omega)]
    rcases ht with rfl | rfl | rfl | rfl
    · simp
    · simp
    · simp
    · exact absurd rfl h

theorem setEntries_of_not_mem {m : Memory} {edi n x : ℕ} (hx : x < edi ∨ edi + 8 * n ≤ x) :
    setEntries m edi n x = m x := by
  induction n with
  | zero => rfl
  | succ n ih => rw [setEntries, Memory.write_of_not_mem (by omega), ih (by omega)]

/-- The boot tables are only written to their own pages. -/
theorem setupAndEnablePaging_of_not_mem {m : Memory} {x : ℕ} (hx : x < 0x1000 ∨ 0x5000 ≤ x) :
    setupAndEnablePaging m x = m x := by
  simp only [setupAndEnablePaging]
  rw [setEntries_of_not_mem (by omega), Memory.write_of_not_mem (by omega),
    Memory.write_of_not_mem (by omega), Memory.write_of_not_mem (by omega),
    Memory.fill_of_not_mem (by omega)]

/-- The boot tables are a tree. -/
theorem pageTree_boot (m : Memory) :
    PageTree (setupAndEnablePaging m) 0x20000 bootOwners := by
  refine ⟨rfl, fun h => ?_, fun i h => ?_, by decide⟩
  · rcases bootOwners_cases h with ⟨rfl, rfl⟩ | ⟨rfl, rfl⟩ | ⟨rfl, rfl⟩ | ⟨rfl, rfl⟩ <;> decide
  · have := i.isLt
    have hlink : ∀ {t : ℕ} {p : List (Fin 512)}, p.length ≤ 2 →
        bootOwners (t + 0x1000) = some (p ++ [0]) →
        EntryOk bootOwners p i (if i = 0 then t + 0x1003 else 0) := fun hp ho => by
      split
      · rename_i hi
        exact hi ▸ .table hp ho
      · exact .absent
    rcases bootOwners_cases h with ⟨rfl, rfl⟩ | ⟨rfl, rfl⟩ | ⟨rfl, rfl⟩ | ⟨rfl, rfl⟩
    · rw [tableEntry_boot m i (by decide), if_neg (by decide)]
      exact hlink (by decide) rfl
    · rw [tableEntry_boot m i (by decide), if_neg (by decide)]
      exact hlink (by decide) rfl
    · rw [tableEntry_boot m i (by decide), if_neg (by decide)]
      exact hlink (by decide) rfl
    · rw [tableEntry_boot m i (by decide), if_pos rfl]
      exact .page rfl (by omega) (by omega)

/-- So they are in the state that `cboot_main` starts in. -/
theorem pageTree_start (m : Memory) :
    PageTree (PagingState.boot m).mem (PagingState.boot m).it bootOwners := pageTree_boot m

theorem boot_it_lt (m : Memory) : (PagingState.boot m).it < 2 ^ 52 :=
  show 0x20000 < 2 ^ 52 by decide

end boot

/-! ## The loop -/

/-- The gigabyte that ends up at the index `j` of the table, of the first `n`. -/
def gigAt (n j : ℕ) : ℕ := j + 512 * ((n - 1 - j) / 512)

/-- The entry for the gigabyte `i`. -/
def gigEntry (i : ℕ) : ℕ := setHugePage (mapEntry 0 (i * 0x40000000)) 1

theorem gigEntry_eq (i : ℕ) : gigEntry i = i * 2 ^ 30 % 2 ^ 53 + 0x83 := by
  simp only [gigEntry, mapEntry, setPteAddress, setAddr, setPresent, setWritable, setHugePage,
    setField]
  omega

/-- The processor ignores the bit 52, which the address field of the code includes. -/
theorem slot_gigEntry (i : ℕ) : slot 2 (gigEntry i) = .leaf true (i % 2 ^ 22 * 2 ^ 30) := by
  have h₁ : gigEntry i / 2 ^ 30 % 2 ^ 22 * 2 ^ 30 = i % 2 ^ 22 * 2 ^ 30 := by
    rw [gigEntry_eq]
    omega
  have h₂ : gigEntry i / 2 % 2 = 1 := by
    rw [gigEntry_eq]
    omega
  have h₃ : gigEntry i % 2 ≠ 0 ∧ gigEntry i / 2 ^ 7 % 2 ≠ 0 ∧ gigEntry i / 2 ^ 13 % 2 ^ 17 = 0 := by
    rw [gigEntry_eq]
    omega
  simp only [slot, h₂, Nat.reduceMul, Nat.reduceAdd, Nat.reduceSub, h₁]
  rw [if_neg h₃.1, if_neg (by decide), if_neg h₃.2.1, if_pos ⟨le_rfl, h₃.2.2⟩]
  rfl

section mapGigs

variable (st : PagingState) {t p₃ n : ℕ} {i j : Fin 512}

/-- The address reached by the loop. -/
theorem mapGigs_virtaddr (p₃ n : ℕ) :
    (mapGigs st p₃ n).2 = (0xFFFF800000000000 + n * 2 ^ 30) % 2 ^ 64 := by
  induction n with
  | zero => rfl
  | succ n ih =>
    simp only [mapGigs, ih]
    omega

theorem mapGigs_it (p₃ n : ℕ) : (mapGigs st p₃ n).1.it = st.it := by
  induction n with
  | zero => rfl
  | succ n ih => exact ih

theorem l3Index_mapGigs (p₃ n : ℕ) : (l3Index (mapGigs st p₃ n).2).val = n % 512 := by
  rw [mapGigs_virtaddr]
  simp only [l3Index, tableIndex, getField]
  omega

/-- The index in the level 4 follows the address: it moves on with every 512 gigabytes. -/
theorem l4Index_mapGigs (p₃ n : ℕ) : (l4Index (mapGigs st p₃ n).2).val = (256 + n / 512) % 512 := by
  rw [mapGigs_virtaddr]
  simp only [l4Index, tableIndex, getField]
  omega

/-- The other tables keep their entries. -/
theorem tableEntry_mapGigs_of_ne (ht : t % 0x1000 = 0) (hp : p₃ % 0x1000 = 0) (hne : t ≠ p₃) :
    tableEntry (mapGigs st p₃ n).1.mem t i = tableEntry st.mem t i := by
  induction n with
  | zero => rfl
  | succ n ih =>
    rw [← ih]
    exact tableEntry_write_of_ne le_rfl ht hp fun h => hne h.1

/-- The entries of the table: an index is used again after 512 rounds. -/
theorem tableEntry_mapGigs (hp : p₃ % 0x1000 = 0) :
    tableEntry (mapGigs st p₃ n).1.mem p₃ j =
      if j.val < n then gigEntry (gigAt n j) else tableEntry st.mem p₃ j := by
  induction n with
  | zero => rfl
  | succ n ih =>
    have hl := l3Index_mapGigs st p₃ n
    have hj := j.isLt
    simp only [mapGigs]
    by_cases h : j = l3Index (mapGigs st p₃ n).2
    · have hval : j.val = n % 512 := (congrArg Fin.val h).trans hl
      have hgig : gigAt (n + 1) j = n := by
        rw [gigAt]
        omega
      have hlt := gigEntry_eq n
      rw [PagingState.setEntry, ← h, tableEntry_write, if_pos (by omega), hgig]
      exact Nat.mod_eq_of_lt (show gigEntry n < 2 ^ 64 by omega)
    · have hval : j.val ≠ n % 512 := fun h' => h (Fin.ext (h'.trans hl.symm))
      have hgig : gigAt (n + 1) j = gigAt n j ∨ ¬j.val < n := by
        rw [gigAt, gigAt]
        omega
      rw [PagingState.setEntry, tableEntry_write_of_ne le_rfl hp hp fun h' => h h'.2, ih]
      by_cases hn : j.val < n
      · rw [if_pos hn, if_pos (by omega), hgig.resolve_right (not_not_intro hn)]
      · rw [if_neg hn, if_neg (by omega)]

/-- The loop only writes to its table. -/
theorem mapGigs_frame {x : ℕ} (hx : x < p₃ ∨ p₃ + 0x1000 ≤ x) :
    (mapGigs st p₃ n).1.mem x = st.mem x := by
  induction n with
  | zero => rfl
  | succ n ih =>
    rw [← ih]
    have := (l3Index (mapGigs st p₃ n).2).isLt
    exact Memory.write_of_not_mem (by omega)

end mapGigs

/-! ## The call -/

section mapPhysicalMemory

variable {st : PagingState} {own : Owners} {t : ℕ} {p : List (Fin 512)}

/-- The index from which the new table is linked. -/
def physicalSlot (n : ℕ) : Fin 512 := ⟨(256 + n / 512) % 512, Nat.mod_lt _ (by decide)⟩

theorem mapPhysicalMemory_it (st : PagingState) (n : ℕ) :
    (mapPhysicalMemory st n).it = st.it + 0x1000 := by
  simp only [mapPhysicalMemory, newPageTable, PagingState.setEntry_it, mapGigs_it, Nat.reduceMul]

/-- The memory after the call. -/
theorem mapPhysicalMemory_mem (st : PagingState) (n : ℕ) :
    (mapPhysicalMemory st n).mem =
      (mapGigs ⟨st.mem.fill st.it 0x1000 0, st.it + 0x1000⟩ st.it n).1.mem.write 8
        (0x1000 + 8 * physicalSlot n) (mapEntry 0 st.it) := by
  have hfill : (st.mem.fill st.it 0x1000 0).fill st.it 0x1000 0 = st.mem.fill st.it 0x1000 0 := by
    funext x
    simp only [Memory.fill]
    split <;> rfl
  have hslot : ∀ st' : PagingState,
      l4Index (mapGigs st' st.it n).2 = physicalSlot n :=
    fun st' => Fin.ext (l4Index_mapGigs st' _ _)
  simp only [mapPhysicalMemory, newPageTable, memset_zero, Nat.reduceMul, hfill,
    PagingState.setEntry, hslot]

/-- The call links its table in the level 4, and keeps all other entries of the tree. -/
theorem tableEntry_mapPhysicalMemory (ht : PageTree st.mem st.it own) (hit : st.it < 2 ^ 52)
    (h : own t = some p) (n : ℕ) (i : Fin 512) :
    tableEntry (mapPhysicalMemory st n).mem t i =
      if t = 0x1000 ∧ i = physicalSlot n then st.it + 3
      else tableEntry st.mem t i := by
  have hpool := ht.pool
  have hne := ht.tables.ne_pool h
  rw [mapPhysicalMemory_mem]
  split
  · rename_i hti
    obtain ⟨rfl, rfl⟩ := hti
    rw [tableEntry_write, mapEntry_zero hpool.1 hit, Nat.mod_eq_of_lt (by omega)]
  · rename_i hti
    rw [tableEntry_write_of_ne le_rfl (ht.page h).1 (by decide) hti,
      tableEntry_mapGigs_of_ne _ (ht.page h).1 hpool.1 (by omega),
      tableEntry_fill_of_ne (.inl hne)]

/-- The entries of the new table. -/
theorem tableEntry_mapPhysicalMemory_new (ht : PageTree st.mem st.it own) (n : ℕ) (j : Fin 512) :
    tableEntry (mapPhysicalMemory st n).mem st.it j =
      if j.val < n then gigEntry (gigAt n j) else 0 := by
  have hpool := ht.pool
  have hne : ¬(st.it = 0x1000 ∧ j = physicalSlot n) := by omega
  rw [mapPhysicalMemory_mem, tableEntry_write_of_ne le_rfl hpool.1 (by decide) hne,
    tableEntry_mapGigs _ hpool.1, tableEntry_fill_self]

/-- The owners after the call: the new table is linked from the index `i` of the level 4,
    and the tables that were reached through it no longer are. -/
def relink (own : Owners) (t₀ : ℕ) (i : Fin 512) : Owners := fun t =>
  if t = t₀ then some [i]
  else if t = 0x1000 then some []
  else (own t).filter fun p => p.head?.any (· ≠ i)

theorem relink_cons {t₀ : ℕ} {i j : Fin 512} (h₀ : t ≠ t₀) (h₁ : t ≠ 0x1000) (hj : j ≠ i)
    (h : own t = some (j :: p)) : relink own t₀ i t = some (j :: p) := by
  rw [relink, if_neg h₀, if_neg h₁, h, Option.filter_some, if_pos]
  exact decide_eq_true hj

theorem relink_cases {t₀ : ℕ} {i : Fin 512} (h : relink own t₀ i t = some p) :
    t = t₀ ∧ p = [i] ∨ t ≠ t₀ ∧ t = 0x1000 ∧ p = [] ∨
      t ≠ t₀ ∧ t ≠ 0x1000 ∧ own t = some p ∧ ∃ j q, j ≠ i ∧ p = j :: q := by
  rw [relink] at h
  split at h
  · exact .inl ⟨‹_›, (Option.some.inj h).symm⟩
  · split at h
    · exact .inr (.inl ⟨‹_›, ‹_›, (Option.some.inj h).symm⟩)
    · obtain ⟨h, hp⟩ := Option.filter_eq_some_iff.1 h
      cases p with
      | nil => exact absurd hp (by simp)
      | cons j q => exact .inr (.inr ⟨‹_›, ‹_›, h, j, q, of_decide_eq_true hp, rfl⟩)

/-- The tables remain a tree. -/
theorem pageTree_mapPhysicalMemory (ht : PageTree st.mem st.it own) (n : ℕ)
    (hit : st.it < 2 ^ 52) :
    PageTree (mapPhysicalMemory st n).mem (mapPhysicalMemory st n).it
      (relink own st.it (physicalSlot n)) := by
  have hpool := ht.pool
  have hroot : relink own st.it (physicalSlot n) 0x1000 = some [] := by
    rw [relink, if_neg (by omega), if_pos rfl]
  -- A link to a table that is not reached through the index remains right.
  have hkeep : ∀ {p : List (Fin 512)} {i j : Fin 512} {q : List (Fin 512)} {e : ℕ},
      j ≠ physicalSlot n → p ++ [i] = j :: q → EntryOk own p i e →
      EntryOk (relink own st.it (physicalSlot n)) p i e := fun hj hp he =>
    he.mono fun t' h' => by
      rw [hp] at h' ⊢
      refine relink_cons ?_ ?_ hj h'
      · rintro rfl
        rw [ht.tables.own_pool] at h'
        cases h'
      · rintro rfl
        rw [ht.root] at h'
        cases h'
  rw [mapPhysicalMemory_it]
  refine ⟨hroot, fun {t q} h => ?_, fun {t q} i h => ?_, by omega⟩
  · rcases relink_cases h with ⟨rfl, rfl⟩ | ⟨_, rfl, rfl⟩ | ⟨_, _, h, _⟩
    · exact ⟨hpool.1, by simp, by omega⟩
    · exact ⟨by decide, by simp, by omega⟩
    · have := ht.page h
      omega
  · rcases relink_cases h with ⟨rfl, rfl⟩ | ⟨_, rfl, rfl⟩ | ⟨_, hne, h, j, q, hj, rfl⟩
    · -- The new table: pages of 1 GB, then nothing.
      rw [tableEntry_mapPhysicalMemory_new ht]
      split
      · rw [gigEntry_eq]
        exact .page1gb rfl (by omega) (by omega)
      · exact .absent
    · -- The root: the new link, and those that have been there.
      rw [tableEntry_mapPhysicalMemory ht hit ht.root]
      split
      · rename_i hi
        rw [hi.2]
        exact .table (by simp) (if_pos rfl)
      · rename_i hi
        exact hkeep (fun h => hi ⟨rfl, h⟩) rfl (ht.entry i ht.root)
    · rw [tableEntry_mapPhysicalMemory ht hit h, if_neg fun h => hne h.1]
      exact hkeep hj rfl (ht.entry i h)

/-- After the call, made first of all, whatever the size of memory. -/
theorem pageTree_setupPhysicalMap (m : Memory) (total : ℕ) :
    ∃ own, PageTree (setupPhysicalMap (.boot m) total).mem (setupPhysicalMap (.boot m) total).it
      own :=
  ⟨_, pageTree_mapPhysicalMemory (pageTree_start m) _ (boot_it_lt m)⟩

/-- The call only writes to the tables. -/
theorem tablesOnly_mapPhysicalMemory (ht : PageTree st.mem st.it own) (n : ℕ) :
    TablesOnly st (mapPhysicalMemory st n) := by
  have hpool := ht.pool
  have hslot := (physicalSlot n).isLt
  refine ⟨by rw [mapPhysicalMemory_it]; omega, fun x hx => ?_⟩
  obtain ⟨hx₁, hx₂⟩ := hx
  rw [mapPhysicalMemory_it] at hx₂
  rw [mapPhysicalMemory_mem, Memory.write_of_not_mem (by omega), mapGigs_frame _ (by omega)]
  exact Memory.fill_of_not_mem (by omega)

/-- A path that begins with another index is walked as before. -/
theorem pageWalk_mapPhysicalMemory_of_ne (ht : PageTree st.mem st.it own)
    (hit : st.it < 2 ^ 52) (n : ℕ) {v : ℕ} (hv : l4Index v ≠ physicalSlot n) :
    pageWalk (mapPhysicalMemory st n).mem 0x1000 v = pageWalk st.mem 0x1000 v := by
  have hag : AgreeOff own 0x1000 (physicalSlot n) (entries st.mem)
      (entries (mapPhysicalMemory st n).mem) := fun t p i r h hne => by
    rw [entries, entries, tableEntry_mapPhysicalMemory ht hit h, if_neg hne]
  rw [pageWalk, pageWalk, ht.tables.owned.walk_of_not_prefix ht.root hag (length_indices v)]
  intro hpre
  exact hv (List.cons_prefix_cons.1 hpre).1.symm

/-- The walks through the new table. -/
theorem pageWalk_mapPhysicalMemory (ht : PageTree st.mem st.it own)
    (hit : st.it < 2 ^ 52) (n : ℕ) {v : ℕ} (hv : l4Index v = physicalSlot n) :
    pageWalk (mapPhysicalMemory st n).mem 0x1000 v =
      if (l3Index v).val < n then
        some ⟨gigAt n (l3Index v) % 2 ^ 22 * 2 ^ 30 + v % 2 ^ 30, true⟩
      else none := by
  have hpool := ht.pool
  have hlink : entries (mapPhysicalMemory st n).mem 3 0x1000 (l4Index v) = .link true st.it := by
    rw [entries, tableEntry_mapPhysicalMemory ht hit ht.root, if_pos ⟨rfl, hv⟩]
    exact slot_link (by decide) hpool.1 hit
  have hleaf : entries (mapPhysicalMemory st n).mem 2 st.it (l3Index v) =
      if (l3Index v).val < n then .leaf true (gigAt n (l3Index v) % 2 ^ 22 * 2 ^ 30)
      else .empty := by
    rw [entries, tableEntry_mapPhysicalMemory_new ht, apply_ite (slot 2), slot_gigEntry, slot_zero]
  simp only [pageWalk, indices, walk, List.length_cons, List.length_nil, Nat.zero_add,
    Nat.reduceAdd, hlink, hleaf]
  by_cases hlt : (l3Index v).val < n
  · rw [if_pos hlt, if_pos hlt]
    rfl
  · rw [if_neg hlt, if_neg hlt]
    rfl

end mapPhysicalMemory

/-! ## From the boot tables -/

section boot

variable {m : Memory} {n p v : ℕ}

theorem l4Index_physical (hp : p < 2 ^ 39) : l4Index (0xFFFF800000000000 + p) = 256 := by
  refine Fin.ext ?_
  change (0xFFFF800000000000 + p) / 2 ^ 39 % 2 ^ 9 = 256
  omega

theorem l3Index_physical (hp : p < 2 ^ 39) :
    (l3Index (0xFFFF800000000000 + p)).val = p / 2 ^ 30 := by
  simp only [l3Index, tableIndex, getField]
  omega

/-- The canonical addresses of the index 256. -/
theorem exists_physical (hv : Canonical v) (hl : l4Index v = 256) :
    ∃ p < 2 ^ 39, v = 0xFFFF800000000000 + p := by
  have hl : v / 2 ^ 39 % 2 ^ 9 = 256 := congrArg Fin.val hl
  refine ⟨v - 0xFFFF800000000000, ?_, ?_⟩ <;> rcases hv with hv | ⟨hv₁, hv₂⟩ <;> omega

/-- The boot tables map nothing but what is below the first entry of the level 4. -/
theorem pageWalk_boot_none (m : Memory) (hv : l4Index v ≠ 0) :
    pageWalk (setupAndEnablePaging m) 0x1000 v = none := by
  have hempty : entries (setupAndEnablePaging m) 3 0x1000 (l4Index v) = .empty := by
    rw [entries, tableEntry_boot m _ (.inl rfl), if_neg (by decide), if_neg hv]
    exact slot_zero 3
  simp only [pageWalk, indices, walk, List.length_cons, List.length_nil, Nat.zero_add,
    Nat.reduceAdd, hempty, Option.map_none]

/-- The index in the level 4 is the one of the physical map if and only if the loop has
    gone through all tables of the level 3 that there are. -/
theorem physicalSlot_eq_iff : physicalSlot n = 256 ↔ n / 512 % 512 = 0 := by
  rw [Fin.ext_iff]
  change (256 + n / 512) % 512 = 256 ↔ n / 512 % 512 = 0
  omega

/-- The walks of the 512 GiB from 0xFFFF800000000000 on. -/
theorem pageWalk_physical (m : Memory) (n : ℕ) (hp : p < 2 ^ 39) :
    pageWalk (mapPhysicalMemory (.boot m) n).mem 0x1000 (0xFFFF800000000000 + p) =
      if n / 512 % 512 = 0 ∧ p / 2 ^ 30 < n then
        some ⟨gigAt n (p / 2 ^ 30) % 2 ^ 22 * 2 ^ 30 + p % 2 ^ 30, true⟩
      else none := by
  have ht := pageTree_start m
  have hit := boot_it_lt m
  have hl := l4Index_physical hp
  by_cases hs : physicalSlot n = 256
  · have hmod : (0xFFFF800000000000 + p) % 2 ^ 30 = p % 2 ^ 30 := by omega
    rw [pageWalk_mapPhysicalMemory ht hit n (hl.trans hs.symm), l3Index_physical hp, hmod]
    exact if_congr (and_iff_right (physicalSlot_eq_iff.1 hs)).symm rfl rfl
  · rw [pageWalk_mapPhysicalMemory_of_ne ht hit n fun h => hs (h.symm.trans hl), PagingState.boot,
      pageWalk_boot_none m (hl ▸ by decide), if_neg fun h => hs (physicalSlot_eq_iff.2 h.1)]

/-- The gigabyte at an index is the one of this number if and only if the loop has ended
    in its first round through the indices (modulo the physical address space). -/
theorem gigAt_eq_iff {j : ℕ} (hs : n / 512 % 512 = 0) (hj : j < 512) (hn : j < n) :
    gigAt n j % 2 ^ 22 = j ↔ n % 2 ^ 22 ≤ 511 ∧ j < n % 2 ^ 22 := by
  rw [gigAt]
  by_cases h : j < n % 512
  · have : (n - 1 - j) / 512 = n / 512 := by omega
    omega
  · have : (n - 1 - j) / 512 = n / 512 - 1 := by omega
    omega

/-- An address there translates to its place in physical memory if and only if it is one
    of the gigabytes of the map, which are at most 511. -/
theorem mapsPhysical_iff (m : Memory) (n : ℕ) (hp : p < 2 ^ 39) :
    (pageWalk (mapPhysicalMemory (.boot m) n).mem 0x1000 (0xFFFF800000000000 + p)).map (·.paddr) =
      some p ↔ n % 2 ^ 22 ≤ 511 ∧ p < n % 2 ^ 22 * 2 ^ 30 := by
  rw [pageWalk_physical m n hp]
  split
  · rename_i h
    have hgig := gigAt_eq_iff h.1 (by omega) h.2
    rw [Option.map_some, Option.some_inj]
    simp only
    omega
  · rename_i h
    refine ⟨fun h' => absurd h' (by simp), fun h' => ?_⟩
    omega

/-- The pages of the map are writable. -/
theorem pageWalk_of_mapsPhysical (m : Memory) (hp : p < 2 ^ 39) (hn : n % 2 ^ 22 ≤ 511)
    (hlt : p < n % 2 ^ 22 * 2 ^ 30) :
    pageWalk (mapPhysicalMemory (.boot m) n).mem 0x1000 (0xFFFF800000000000 + p) =
      some ⟨p, true⟩ := by
  have h := (mapsPhysical_iff m n hp).2 ⟨hn, hlt⟩
  rw [pageWalk_physical m n hp] at h ⊢
  split at h
  · rename_i hc
    rw [if_pos hc]
    rw [Option.map_some, Option.some_inj] at h
    exact congrArg (fun x => some (Translation.mk x true)) h
  · exact absurd h (by simp)

/-- Up to 511 GiB, no address outside the map is affected. -/
theorem pageWalk_of_not_physical (hn : n ≤ 511) (hv : Canonical v)
    (h : ¬(0xFFFF800000000000 ≤ v ∧ v < 0xFFFF800000000000 + n * 2 ^ 30)) :
    pageWalk (mapPhysicalMemory (.boot m) n).mem 0x1000 v =
      pageWalk (setupAndEnablePaging m) 0x1000 v := by
  have ht := pageTree_start m
  have hit := boot_it_lt m
  have hs : physicalSlot n = 256 := physicalSlot_eq_iff.2 (by omega)
  by_cases hl : l4Index v = 256
  · obtain ⟨p, hp, rfl⟩ := exists_physical hv hl
    rw [pageWalk_mapPhysicalMemory ht hit n (hl.trans hs.symm), l3Index_physical hp,
      if_neg (by omega), pageWalk_boot_none m (hl ▸ by decide)]
  · exact pageWalk_mapPhysicalMemory_of_ne ht hit n fun h => hl (h.trans hs)

/-- What the map of physical memory is for: after the call, the memory of the given size
    is at 0xFFFF800000000000, present and writable, and all else is as it was. -/
def PhysicallyMapped (m : Memory) (total : ℕ) : Prop :=
  (∀ p < total, pageWalk (setupPhysicalMap (.boot m) total).mem 0x1000 (0xFFFF800000000000 + p) =
    some ⟨p, true⟩) ∧
  ∀ v, Canonical v →
    ¬(0xFFFF800000000000 ≤ v ∧ v < 0xFFFF800000000000 + (total + 0x3fffffff) / 2 ^ 30 * 2 ^ 30) →
    pageWalk (setupPhysicalMap (.boot m) total).mem 0x1000 v =
      pageWalk (setupAndEnablePaging m) 0x1000 v

theorem numGigs_eq {total : ℕ} (h : total < 2 ^ 63) :
    numGigs total = (total + 0x3fffffff) / 2 ^ 30 := by
  rw [numGigs]
  omega

/-- From 512 GiB on, the table is linked from an index after that of the map. -/
theorem not_physicallyMapped {total : ℕ} (h₁ : 511 * 2 ^ 30 < total) (h₂ : total ≤ 2 ^ 44) :
    ¬PhysicallyMapped m total := by
  rintro ⟨hmap, _⟩
  have hn := numGigs_eq (show total < 2 ^ 63 by omega)
  have hzero := congrArg (Option.map (·.paddr)) (hmap 0 (by omega))
  obtain ⟨hle, _⟩ := (mapsPhysical_iff m (numGigs total) (by decide)).1 hzero
  omega

theorem physicallyMapped_iff {total : ℕ} (h : total ≤ 2 ^ 44) :
    PhysicallyMapped m total ↔ total ≤ 511 * 2 ^ 30 := by
  constructor
  · intro hm
    by_contra hlt
    exact not_physicallyMapped (Nat.lt_of_not_le hlt) h hm
  · intro hle
    have hn := numGigs_eq (show total < 2 ^ 63 by omega)
    refine ⟨fun p hp => ?_, fun v hv hout => ?_⟩
    · exact pageWalk_of_mapsPhysical m (by omega) (by omega) (by omega)
    · exact pageWalk_of_not_physical (by omega) hv (hn ▸ hout)

theorem physicallyMapped_one_gib : PhysicallyMapped (fun _ => 0) (2 ^ 30) :=
  (physicallyMapped_iff (by decide)).2 (by decide)

/-- With 512 GiB, not even the first byte is mapped. -/
theorem not_physicallyMapped_512_gib : ¬PhysicallyMapped (fun _ => 0) (512 * 2 ^ 30) :=
  not_physicallyMapped (by decide) (by decide)

end boot

end Cboot
