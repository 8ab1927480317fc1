import Cboot.Paging.Print

/-!
# Memory above the tables

What is in memory above the tables has no part in them: with other memory there
(`PagingState.splice`), the same tables are built and printed.

* `setupPhysicalMap_splice`: so it is for the map of physical memory, so that a file might as well
  have been in memory before it (`setupPhysicalMap_of_above`);
* `runCalls_splice`: so it is for the calls after it, level by level of their descent;
* `pagetableLines_splice`: and for the lines of `print_pagetable`.
-/

namespace Cboot

open PageTableEntry Radix

variable {Leaf : List (Fin 512) → ℕ → Prop} {m above : Memory} {st : PagingState} {own : Owners}
  {p q : List (Fin 512)} {a b it n r t total : ℕ} {i : Fin 512} {c : Call} {cs : List Call}

/-- The state with other memory above its tables. -/
def PagingState.splice (st : PagingState) (a : ℕ) (above : Memory) : PagingState :=
  { st with mem := Memory.splice st.mem a above }

/-! ## The map of physical memory -/

theorem setEntries_splice (h : b + 8 * n ≤ a) :
    setEntries (Memory.splice m a above) b n = Memory.splice (setEntries m b n) a above := by
  induction n with
  | zero => rfl
  | succ n ih => rw [setEntries, setEntries, ih (by omega), Memory.splice_write (by omega)]

theorem boot_splice (h : 0x5000 ≤ a) :
    PagingState.boot (Memory.splice m a above) = (PagingState.boot m).splice a above := by
  have hmem : setupAndEnablePaging (Memory.splice m a above) =
      Memory.splice (setupAndEnablePaging m) a above := by
    simp only [setupAndEnablePaging]
    rw [Memory.splice_fill (by omega), Memory.splice_write (by omega),
      Memory.splice_write (by omega), Memory.splice_write (by omega), setEntries_splice (by omega)]
  rw [PagingState.boot, hmem]
  rfl

theorem setEntry_splice (h : t + 0x1000 ≤ a) (i : Fin 512) (e : ℕ) :
    (st.splice a above).setEntry t i e = (st.setEntry t i e).splice a above := by
  have hi := i.isLt
  simp only [PagingState.setEntry, PagingState.splice]
  rw [Memory.splice_write (by omega)]

theorem mapGigs_splice (h : t + 0x1000 ≤ a) :
    mapGigs (st.splice a above) t n = ((mapGigs st t n).1.splice a above, (mapGigs st t n).2) := by
  induction n with
  | zero => rfl
  | succ n ih => simp only [mapGigs, ih, setEntry_splice h]

theorem newPageTable_splice (h : st.it + 0x1000 ≤ a) :
    newPageTable (st.splice a above) = (st.it, (newPageTable st).2.splice a above) := by
  simp only [newPageTable, PagingState.splice, memset_zero]
  rw [Memory.splice_fill (by omega)]

theorem mapPhysicalMemory_splice (h : st.it + 0x1000 ≤ a) (h₀ : 0x2000 ≤ a) :
    mapPhysicalMemory (st.splice a above) n = (mapPhysicalMemory st n).splice a above := by
  have hclear : ({ (newPageTable st).2.splice a above with
        mem := memset ((newPageTable st).2.splice a above).mem st.it 0 (8 * 512) } : PagingState) =
      PagingState.splice { (newPageTable st).2 with
        mem := memset (newPageTable st).2.mem st.it 0 (8 * 512) } a above := by
    simp only [PagingState.splice, memset_zero]
    rw [Memory.splice_fill (by omega)]
  simp only [mapPhysicalMemory, newPageTable_splice h]
  rw [hclear, mapGigs_splice h]
  exact setEntry_splice (by omega) _ _

/-- The tables are the same, whatever there is above them. -/
theorem setupPhysicalMap_splice (h : 0x21000 ≤ a) (m above : Memory) (total : ℕ) :
    setupPhysicalMap (.boot (Memory.splice m a above)) total =
      (setupPhysicalMap (.boot m) total).splice a above := by
  rw [boot_splice (by omega)]
  exact mapPhysicalMemory_splice (show 0x20000 + 0x1000 ≤ a from h) (by omega)

/-- Memory might as well have been there before the tables. -/
theorem setupPhysicalMap_of_above (h : 0x21000 ≤ a) (m above : Memory) (total : ℕ)
    (hlow : ∀ x < a, above x = (setupPhysicalMap (.boot m) total).mem x) :
    ⟨above, (setupPhysicalMap (.boot m) total).it⟩ =
      setupPhysicalMap (.boot (Memory.splice m a above)) total := by
  have hmem : Memory.splice (setupPhysicalMap (.boot m) total).mem a above = above := by
    funext x
    rw [Memory.splice]
    split
    · rename_i hx
      exact (hlow x hx).symm
    · rfl
  rw [setupPhysicalMap_splice h, PagingState.splice, hmem]

/-! ## Calls -/

theorem tableEntry_splice (h : t + 0x1000 ≤ a) (i : Fin 512) :
    tableEntry (Memory.splice m a above) t i = tableEntry m t i := by
  have hi := i.isLt
  exact Memory.read_congr fun j hj => Memory.splice_of_lt (by omega)

/-- One level of the descent. -/
theorem nextTable_splice (ht : t + 0x1000 ≤ a) (hit : (nextTable st t i).2.it ≤ a) :
    nextTable (st.splice a above) t i =
      ((nextTable st t i).1, (nextTable st t i).2.splice a above) := by
  have hentry : tableEntry (st.splice a above).mem t i = tableEntry st.mem t i :=
    tableEntry_splice ht i
  rw [nextTable] at hit
  rw [nextTable, nextTable, hentry]
  split
  · rename_i hpres
    rw [if_pos hpres] at hit
    have hnew : tableEntry ((newPageTable st).2.splice a above).mem t i =
        tableEntry (newPageTable st).2.mem t i := tableEntry_splice ht i
    simp only [newPageTable_splice (show st.it + 0x1000 ≤ a from hit), hnew, setEntry_splice ht]
    rfl
  · rfl

/-- The descent, through the tables of a tree. -/
theorem descend_splice (ht : TableTree Leaf st.mem st.it own)
    (htab : table (entries st.mem) p (q.length + r) 0x1000 = some t)
    (hlen : p.length + (q.length + r) = 4) (hr : r ≠ 0) (hh : ¬HugeOnPath st.mem q t)
    (hit : (descend st t q).2.it ≤ a) (ha : a ≤ 2 ^ 52) :
    descend (st.splice a above) t q =
      ((descend st t q).1, (descend st t q).2.splice a above) := by
  induction q generalizing st own p t with
  | nil => rfl
  | cons i q ih =>
    rw [List.length_cons, Nat.add_right_comm] at htab hlen
    rcases e : nextTable st t i with ⟨t₁, s₁⟩
    simp only [descend, e] at hit ⊢
    have hle : s₁.it ≤ a := (it_le_descend _ _ _).trans hit
    have hmono := it_le_nextTable st t i
    rw [e] at hmono
    have hpage := ht.ne_pool (ht.owned.own_of_table hlen htab)
    obtain ⟨own₁, ht₁, htab₁, hh₁, _⟩ := nextTable_spec e ht htab hlen (by omega) hh
      (hle.trans ha)
    have hnext : nextTable (st.splice a above) t i = _ :=
      nextTable_splice (hpage.trans (hmono.trans hle)) (by rw [e]; exact hle)
    rw [hnext, e]
    exact ih ht₁ htab₁ (by simp; omega) hh₁ hit

/-- A call does what it does, whatever there is above the tables. -/
theorem Call.run_splice (ht : TableTree Leaf st.mem st.it own)
    (hh : ¬HugeOnPath st.mem c.path 0x1000) (hit : (c.run st).it ≤ a) (ha : a ≤ 2 ^ 52) :
    c.run (st.splice a above) = (c.run st).splice a above := by
  rw [run_eq] at hit
  have hlen : c.path.length + (4 - c.path.length) = 4 := by cases c <;> rfl
  have hr : 4 - c.path.length ≠ 0 := by cases c <;> simp [path]
  obtain ⟨own', ht', htab, _⟩ := descend_spec ht (p := []) rfl (by simpa using hlen) hr hh
    (hit.trans ha)
  have hpage := ht'.ne_pool (ht'.owned.own_of_table (p := c.path) hlen htab)
  rw [run_eq, run_eq, descend_splice ht (p := []) rfl (by simpa using hlen) hr hh hit ha]
  exact setEntry_splice (hpage.trans hit) _ _

/-- Calls find what they need, and do what they do, whatever there is above the tables. -/
theorem runCalls_splice (ht : PageTree st.mem st.it own) (hcs : CallsOk st cs)
    (ha : 0x6F000 ≤ a) (ha' : a ≤ 2 ^ 52) :
    CallsOk (st.splice a above) cs ∧
      runCalls (st.splice a above) cs = (runCalls st cs).splice a above := by
  induction cs generalizing st own with
  | nil => exact ⟨trivial, rfl⟩
  | cons c cs ih =>
    obtain ⟨hc, hcs⟩ := hcs
    have hit := hc.it_le
    obtain ⟨own', ht', _⟩ := Call.run_spec ht hc.not_huge hc.aligned (by omega)
    have hrun : c.run (st.splice a above) = _ :=
      Call.run_splice ht.tables hc.not_huge (hit.trans ha) ha'
    obtain ⟨hcs', heq⟩ := ih ht' hcs
    -- No other large page is met, as the call goes through tables only.
    have hhuge : HugeOnPath (st.splice a above).mem c.path 0x1000 ↔
        HugeOnPath st.mem c.path 0x1000 := by
      have hmono := c.it_le_run st
      refine ht.tables.hugeOnPath_congr (fun t p i hown _ => .inl ?_) ht.root ?_
      · exact tableEntry_splice ((ht.tables.ne_pool hown).trans (by omega)) i
      · cases c <;> simp [Call.path]
    rw [← hrun] at hcs' heq
    refine ⟨⟨⟨hc.aligned, hc.two_mb_le, hhuge.not.2 hc.not_huge, ?_⟩, hcs'⟩, heq⟩
    rw [hrun]
    exact hit

/-! ## The lines of the tables -/

/-- The lines for the tables are the same, whatever there is above them. -/
theorem pagetableLines_splice (ht : PageTree m it own) (hown : own t = some p) {level : ℕ}
    (hl : p.length + level = 4) (ha : it ≤ a) :
    pagetableLines (Memory.splice m a above) t level = pagetableLines m t level := by
  induction level generalizing t p with
  | zero =>
    have := (ht.page hown).2.1
    omega
  | succ r ih =>
    have hentry : ∀ i, tableEntry (Memory.splice m a above) t i = tableEntry m t i :=
      tableEntry_splice ((ht.tables.ne_pool hown).trans ha)
    rw [pagetableLines, pagetableLines]
    refine List.flatMap_congr fun i _ => ?_
    simp only [entryLine, hentry]
    rcases ht.printed_cases hown i hl with ⟨hp, _⟩ | ⟨hp, hd, hown', _⟩ | ⟨hp, hleaf, _⟩
    · rw [if_pos hp, if_pos hp]
    · rw [if_pos hd, if_pos hd, ih hown' (by simp; omega)]
    · have hd : ¬Descends (r + 1) (tableEntry m t i) := not_descends_of_isLeaf hleaf
      rw [if_neg hd, if_neg hd]

end Cboot
