import Cboot.Paging.Tree

/-!
# What a mapping call does

A call of a mapping function descends through the tables, one level at a time, and
stores an entry in the last one (`Call.run_eq`). Each level (`nextTable_spec`), and so
the descent (`descend_spec`), keeps the tree of tables, adds tables to it at most
(`TablesGrown`), and leads to the table of the next level; storing the entry changes
the walks of one page, or of one region of 2 MB.

* `Call.run_tables`: the call keeps the tree, whatever the frame that it asks for;
* `Call.run_spec`: after a call for an aligned frame, the addresses of the page (of the
  region) translate to the frame, and all others as before.
-/

namespace Cboot

open Bitfield PageTableEntry Radix

/-! ## Tables added -/

/-- A table of zeros leads nowhere. -/
theorem not_hugeOnPath_of_zero {m : Memory} {t : ℕ} (h : ∀ i, tableEntry m t i = 0)
    (p : List (Fin 512)) : ¬HugeOnPath m p t := by
  cases p with
  | nil => exact id
  | cons i p =>
    rintro ⟨hp, _⟩
    rw [h i] at hp
    exact absurd hp (by decide)

/-- The large pages on a path are the same in two memories, if the entries above the level 1
    are, but for some that lead to no large page in either. -/
theorem TableTree.hugeOnPath_congr {Leaf : List (Fin 512) → ℕ → Prop} {m m' : Memory} {it : ℕ}
    {own : Owners} (ht : TableTree Leaf m it own)
    (h : ∀ t p i, own t = some p → p.length ≤ 2 → tableEntry m' t i = tableEntry m t i ∨
      ∀ q, ¬HugeOnPath m (i :: q) t ∧ ¬HugeOnPath m' (i :: q) t) {q : List (Fin 512)} :
    ∀ {p : List (Fin 512)} {t : ℕ}, own t = some p → p.length + q.length ≤ 3 →
      (HugeOnPath m' q t ↔ HugeOnPath m q t) := by
  induction q with
  | nil => exact fun _ _ => .rfl
  | cons i q ih =>
    intro p t hown hlen
    rw [List.length_cons] at hlen
    rcases h t p i hown (by omega) with hsame | hnone
    · rw [HugeOnPath, HugeOnPath, hsame]
      refine and_congr_right fun hpres => ?_
      by_cases hhuge : hugePage (tableEntry m t i) = 1
      · exact iff_of_true (.inl hhuge) (.inl hhuge)
      · -- The entry is a link, and the tables it leads to are compared further down.
        have hleaf : ¬IsLeaf p (tableEntry m t i) := by
          rintro ⟨_, hl | hl⟩
          · omega
          · exact hhuge hl.2
        obtain ⟨_, t', hown', hentry⟩ :=
          ht.entry_eq_link hown (by rw [hpres]; decide) hleaf
        rw [hentry, ht.getPteAddress_table hown']
        exact or_congr_right (ih hown' (by simp; omega))
    · exact iff_of_false (hnone q).2 (hnone q).1

/-- Tables have been added, and linked: no walk has changed, and no path meets another
    large page. -/
structure TablesGrown (st st' : PagingState) : Prop where
  walk : ∀ path : List (Fin 512), path.length = 4 →
    walk (entries st'.mem) path 0x1000 = walk (entries st.mem) path 0x1000
  huge : ∀ path : List (Fin 512), path.length ≤ 3 →
    (HugeOnPath st'.mem path 0x1000 ↔ HugeOnPath st.mem path 0x1000)
  only : TablesOnly st st'

theorem TablesGrown.refl (st : PagingState) : TablesGrown st st :=
  ⟨fun _ _ => rfl, fun _ _ => .rfl, .refl st⟩

theorem TablesGrown.trans {st₁ st₂ st₃ : PagingState} (h₁ : TablesGrown st₁ st₂)
    (h₂ : TablesGrown st₂ st₃) : TablesGrown st₁ st₃ :=
  ⟨fun path hp => (h₂.walk path hp).trans (h₁.walk path hp),
    fun path hp => (h₂.huge path hp).trans (h₁.huge path hp), h₁.only.trans h₂.only⟩

/-! ## One level down -/

section nextTable

variable {Leaf : List (Fin 512) → ℕ → Prop} {st : PagingState} {own : Owners}
  {p : List (Fin 512)} {t r : ℕ} {i : Fin 512}

theorem it_le_nextTable (st : PagingState) (t : ℕ) (i : Fin 512) :
    st.it ≤ (nextTable st t i).2.it := by
  rw [nextTable]
  split
  · exact Nat.le_add_right _ _
  · exact le_rfl

/-- At most one page is taken from the pool. -/
theorem nextTable_it_le (st : PagingState) (t : ℕ) (i : Fin 512) :
    (nextTable st t i).2.it ≤ st.it + 0x1000 := by
  rw [nextTable]
  split
  · exact le_rfl
  · exact Nat.le_add_right _ _

/-- The next page of the pool, zeroed, linked from the entry `i` of the table at `t`. -/
def linkNew (st : PagingState) (t : ℕ) (i : Fin 512) : PagingState :=
  ⟨(st.mem.fill st.it 0x1000 0).write 8 (t + 8 * i) (st.it + 3), st.it + 0x1000⟩

/-- Going one level down either follows a link, or links an empty entry to the next page of
    the pool. -/
theorem nextTable_cases (ht : TableTree Leaf st.mem st.it own) (hown : own t = some p)
    (hlen : p.length ≤ 2) {q : List (Fin 512)} (hh : ¬HugeOnPath st.mem (i :: q) t)
    (hit : (nextTable st t i).2.it ≤ 2 ^ 52) :
    (∃ t', own t' = some (p ++ [i]) ∧ tableEntry st.mem t i = t' + 3 ∧
        nextTable st t i = (t', st) ∧ ¬HugeOnPath st.mem q t') ∨
      tableEntry st.mem t i = 0 ∧ st.it < 2 ^ 52 ∧
        nextTable st t i = (st.it, linkNew st t i) := by
  have hpool := ht.pool
  by_cases hpres : present (tableEntry st.mem t i) = 0
  · have hempty := ht.entry_eq_zero hown hpres
    have hzero : tableEntry (st.mem.fill st.it 0x1000 0) t i = 0 := by
      rw [tableEntry_fill_of_ne (.inl (ht.ne_pool hown)), hempty]
    have hlt : st.it < 2 ^ 52 := by
      rw [nextTable, if_pos hpres] at hit
      exact Nat.lt_of_lt_of_le (Nat.lt_add_of_pos_right (by decide)) hit
    refine .inr ⟨hempty, hlt, ?_⟩
    rw [nextTable, if_pos hpres]
    simp only [newPageTable, PagingState.setEntry, memset_zero, Nat.reduceMul, hzero,
      mapEntry_zero hpool.1 hlt, linkNew]
  · -- A present entry that is not for a large page is a link.
    have hpres' : present (tableEntry st.mem t i) = 1 := by
      have : present (tableEntry st.mem t i) < 2 := Nat.mod_lt _ (by decide)
      omega
    have hleaf : ¬IsLeaf p (tableEntry st.mem t i) := by
      rintro ⟨_, hl | hl⟩
      · omega
      · exact hh ⟨hpres', .inl hl.2⟩
    obtain ⟨_, t', hown', hentry⟩ := ht.entry_eq_link hown hpres hleaf
    have hget : getPteAddress (tableEntry st.mem t i) = t' := by
      rw [hentry, ht.getPteAddress_table hown']
    refine .inl ⟨t', hown', hentry, ?_, fun h => hh ⟨hpres', .inr (hget.symm ▸ h)⟩⟩
    rw [nextTable, if_neg hpres, hget]

section linkNew

variable (ht : TableTree Leaf st.mem st.it own) (hown : own t = some p) (hit : st.it < 2 ^ 52)

include ht hown hit

/-- The entry has changed, and those of the new table are empty. -/
theorem tableEntry_linkNew :
    (∀ t' p' i', own t' = some p' → ¬(t' = t ∧ i' = i) →
        tableEntry (linkNew st t i).mem t' i' = tableEntry st.mem t' i') ∧
      tableEntry (linkNew st t i).mem t i = st.it + 3 ∧
      ∀ j, tableEntry (linkNew st t i).mem st.it j = 0 := by
  have hpool := ht.pool
  have hne := ht.ne_pool hown
  simp only [linkNew]
  refine ⟨fun t' p' i' h' hoff => ?_, ?_, fun j => ?_⟩
  · rw [tableEntry_write_of_ne le_rfl (ht.page h').1 (ht.page hown).1 hoff,
      tableEntry_fill_of_ne (.inl (ht.ne_pool h'))]
  · rw [tableEntry_write, Nat.mod_eq_of_lt (by omega)]
  · rw [tableEntry_write_of_ne le_rfl hpool.1 (ht.page hown).1 (by omega), tableEntry_fill_self]

/-- How the processor reads them. -/
theorem entries_linkNew :
    AgreeOff own t i (entries st.mem) (entries (linkNew st t i).mem) ∧
      (∀ r, r ≠ 0 → entries (linkNew st t i).mem r t i = .link true st.it) ∧
      ∀ r j, entries (linkNew st t i).mem r st.it j = .empty := by
  obtain ⟨hother, hlink, hnew⟩ := tableEntry_linkNew (i := i) ht hown hit
  refine ⟨fun t' p' i' r h' hoff => ?_, fun r hr => ?_, fun r j => ?_⟩
  · rw [entries, entries, hother t' p' i' h' hoff]
  · rw [entries, hlink]
    exact slot_link hr ht.pool.1 hit
  · rw [entries, hnew, slot_zero]

/-- The new table belongs to the tree. -/
theorem TableTree.linkNew (hlen : p.length ≤ 2) (hit' : (linkNew st t i).it ≤ 2 ^ 52) :
    ∃ own', TableTree Leaf (linkNew st t i).mem (linkNew st t i).it own' := by
  have hne := ht.ne_pool hown
  have ht' := ht.alloc (p := p ++ [i]) (by simp; omega) hit'
  have hown' : Function.update own st.it (some (p ++ [i])) t = some p := by
    rw [Function.update_of_ne (by omega), hown]
  exact ⟨_, ht'.setEntry hown' (by omega) (.table hlen (Function.update_self ..))⟩

/-- If the entry has been empty, no walk and no large page is affected. -/
theorem tablesGrown_linkNew (hlen : p.length ≤ 2) (hzero : tableEntry st.mem t i = 0) :
    TablesGrown st (linkNew st t i) := by
  obtain ⟨hother, hentry, hnew⟩ := tableEntry_linkNew (i := i) ht hown hit
  obtain ⟨hag, hlink, hb⟩ := entries_linkNew (i := i) ht hown hit
  refine ⟨fun path hpath => ?_, fun path hpath => ?_, Nat.le_add_right _ _, fun x hx => ?_⟩
  · have hempty : entries st.mem (3 - p.length) t i = .empty := by
      rw [entries, hzero, slot_zero]
    exact ht.owned.walk_link hown hag (by omega) hempty (hlink _ (by omega)) hb hpath
  · refine ht.hugeOnPath_congr (fun t' p' i' h' _ => ?_) ht.root (by simpa using hpath)
    by_cases hti : t' = t ∧ i' = i
    · -- Neither the empty entry nor the empty table leads to a large page.
      obtain ⟨rfl, rfl⟩ := hti
      refine .inr fun q => ⟨?_, ?_⟩
      · rintro ⟨hp, _⟩
        rw [hzero] at hp
        exact absurd hp (by decide)
      · rintro ⟨_, hh⟩
        rw [hentry, (flags_add_three ht.pool.1).2, getPteAddress_add_three ht.pool.1 hit] at hh
        exact hh.elim (by decide) (not_hugeOnPath_of_zero hnew q)
    · exact .inl (hother t' p' i' h' hti)
  · have := ht.page hown
    have := ht.pool
    have := i.isLt
    obtain ⟨hx₁, hx₂⟩ := hx
    simp only [linkNew] at hx₂ ⊢
    rw [Memory.write_of_not_mem (by omega), Memory.fill_of_not_mem (by omega)]

end linkNew

/-- Going one level down keeps the tree, adds tables at most, and leads to the next table. -/
theorem nextTable_spec {t' : ℕ} {st' : PagingState} (he : nextTable st t i = (t', st'))
    (ht : TableTree Leaf st.mem st.it own)
    (htab : table (entries st.mem) p (r + 1) 0x1000 = some t) (hlen : p.length + (r + 1) = 4)
    (hr : r ≠ 0) {q : List (Fin 512)} (hh : ¬HugeOnPath st.mem (i :: q) t)
    (hit : st'.it ≤ 2 ^ 52) :
    ∃ own', TableTree Leaf st'.mem st'.it own' ∧
      table (entries st'.mem) (p ++ [i]) r 0x1000 = some t' ∧ ¬HugeOnPath st'.mem q t' ∧
      TablesGrown st st' := by
  have hown : own t = some p := ht.owned.own_of_table hlen htab
  have hp : p.length ≤ 2 := by omega
  rcases nextTable_cases ht hown hp hh (he ▸ hit) with
    ⟨t'', hown', hentry, heq, hh'⟩ | ⟨hzero, hit₀, heq⟩
  · -- The link is followed: nothing changes.
    obtain ⟨rfl, rfl⟩ := Prod.mk.inj (he.symm.trans heq)
    refine ⟨own, ht, table_concat htab (l := true) ?_, hh', .refl _⟩
    rw [entries, hentry]
    exact ht.slot_table hr hown'
  · -- The entry is linked to a page of the pool, an empty table.
    obtain ⟨rfl, rfl⟩ := Prod.mk.inj (he.symm.trans heq)
    obtain ⟨own', ht'⟩ := ht.linkNew hown hit₀ hp hit
    obtain ⟨hag, hlink, _⟩ := entries_linkNew (i := i) ht hown hit₀
    obtain ⟨_, _, hnew⟩ := tableEntry_linkNew (i := i) ht hown hit₀
    refine ⟨own', ht', table_concat ?_ (hlink r hr), not_hugeOnPath_of_zero hnew q,
      tablesGrown_linkNew ht hown hit₀ hp hzero⟩
    rw [ht.owned.table_of_not_prefix hown hag hlen (fun h => absurd h.length_le (by simp)), htab]

end nextTable

/-! ## The descent -/

/-- The descent of a mapping function along a path of indices: the table that it leads to. -/
def descend (st : PagingState) (t : ℕ) : (path : List (Fin 512)) → ℕ × PagingState
  | [] => (t, st)
  | i :: q => descend (nextTable st t i).2 (nextTable st t i).1 q

section descend

variable {Leaf : List (Fin 512) → ℕ → Prop} {st : PagingState} {own : Owners}
  {p q : List (Fin 512)} {t r : ℕ}

theorem it_le_descend (st : PagingState) (t : ℕ) (q : List (Fin 512)) :
    st.it ≤ (descend st t q).2.it := by
  induction q generalizing st t with
  | nil => exact le_rfl
  | cons i q ih => exact (it_le_nextTable st t i).trans (ih _ _)

/-- At most one page for each level is taken from the pool. -/
theorem descend_it_le (st : PagingState) (t : ℕ) (q : List (Fin 512)) :
    (descend st t q).2.it ≤ st.it + 0x1000 * q.length := by
  induction q generalizing st t with
  | nil => exact le_rfl
  | cons i q ih =>
    have h₁ := nextTable_it_le st t i
    have h₂ := ih (nextTable st t i).2 (nextTable st t i).1
    rw [descend, List.length_cons]
    omega

/-- The descent along a path that meets no large page keeps the tree, adds tables at most,
    and leads to the table of the path. -/
theorem descend_spec (ht : TableTree Leaf st.mem st.it own)
    (htab : table (entries st.mem) p (q.length + r) 0x1000 = some t)
    (hlen : p.length + (q.length + r) = 4) (hr : r ≠ 0) (hh : ¬HugeOnPath st.mem q t)
    (hit : (descend st t q).2.it ≤ 2 ^ 52) :
    ∃ own', TableTree Leaf (descend st t q).2.mem (descend st t q).2.it own' ∧
      table (entries (descend st t q).2.mem) (p ++ q) r 0x1000 = some (descend st t q).1 ∧
      TablesGrown st (descend st t q).2 := by
  induction q generalizing st own p t with
  | nil =>
    rw [List.length_nil, Nat.zero_add] at htab
    rw [List.append_nil]
    exact ⟨own, ht, htab, .refl st⟩
  | cons i q ih =>
    rw [List.length_cons, Nat.add_right_comm] at htab hlen
    rcases e : nextTable st t i with ⟨t₁, s₁⟩
    simp only [descend, e] at hit ⊢
    obtain ⟨own₁, ht₁, htab₁, hh₁, hg₁⟩ := nextTable_spec e ht htab hlen (by omega) hh
      ((it_le_descend _ _ _).trans hit)
    obtain ⟨own₂, ht₂, htab₂, hg₂⟩ := ih ht₁ htab₁ (by simp; omega) hh₁ hit
    rw [List.append_assoc, List.singleton_append] at htab₂
    exact ⟨own₂, ht₂, htab₂, hg₁.trans hg₂⟩

end descend

/-! ## Storing the last entry -/

section setEntry

variable {Leaf : List (Fin 512) → ℕ → Prop} {st : PagingState} {own : Owners}
  {p : List (Fin 512)} {t r : ℕ} {i : Fin 512}

/-- Storing an entry changes nothing but the table. -/
theorem TableTree.tablesOnly_setEntry (ht : TableTree Leaf st.mem st.it own) (h : own t = some p)
    (i : Fin 512) (e : ℕ) : TablesOnly st (st.setEntry t i e) := by
  refine ⟨le_rfl, fun x hx => Memory.write_of_not_mem ?_⟩
  have := ht.page h
  have := i.isLt
  obtain ⟨hx₁, hx₂⟩ := hx
  simp only [PagingState.setEntry_it] at hx₂
  omega

/-- Storing an entry for a page changes the walks through the entry, which find the
    page, and no others. -/
theorem walk_setEntry (ht : TableTree PageLeaf st.mem st.it own)
    (htab : table (entries st.mem) p (r + 1) 0x1000 = some t) (hlen : p.length + (r + 1) = 4)
    {e f : ℕ} (he : e < 2 ^ 64) (hok : NodeOk PageLeaf own p i e) (hs : slot r e = .leaf true f)
    {path : List (Fin 512)} (hpath : path.length = 4) :
    (∀ q, path = p ++ i :: q → ∃ ls, ls.all id = true ∧
      walk (entries (st.setEntry t i e).mem) path 0x1000 = some ⟨ls, f, q⟩) ∧
    (¬p ++ [i] <+: path →
      walk (entries (st.setEntry t i e).mem) path 0x1000 = walk (entries st.mem) path 0x1000) := by
  have hown : own t = some p := ht.owned.own_of_table hlen htab
  have hag := ht.agreeOff (j := i) hown e
  refine ⟨fun q hq => ?_, fun hnp => ht.owned.walk_of_not_prefix hown hag hpath hnp⟩
  have hlen' := congrArg List.length hq
  rw [List.length_append, List.length_cons] at hlen'
  obtain rfl : r = q.length := by omega
  have hleaf : entries (st.setEntry t i e).mem q.length t i = .leaf true f := by
    rw [entries, PagingState.setEntry, tableEntry_write, Nat.mod_eq_of_lt he, hs]
  obtain ⟨ls, hls⟩ := ht.owned.walk_leaf hag (by omega) htab hleaf
  rw [← hq] at hls
  exact ⟨ls, (ht.setEntry hown he hok).pages.writable hpath hls, hls⟩

end setEntry

/-! ## Calls -/

namespace Call

/-- The 4 KB page, or the 2 MB region, of the call contains the address `v`. -/
def Covers : Call → (v : ℕ) → Prop
  | map4kb va _, v => v % 2 ^ 48 / 2 ^ 12 = va % 2 ^ 48 / 2 ^ 12
  | map2mb va _, v => v % 2 ^ 48 / 2 ^ 21 = va % 2 ^ 48 / 2 ^ 21

instance (c : Call) (v : ℕ) : Decidable (c.Covers v) := by
  cases c <;> exact inferInstanceAs (Decidable (_ = _))

/-- What the call makes of an address that it covers. -/
def translation : Call → (v : ℕ) → Translation
  | map4kb _ pa, v => ⟨pa + v % 2 ^ 12, true⟩
  | map2mb _ pa, v => ⟨pa + v % 2 ^ 21, true⟩

/-- The frame of the call is a page of its size, in the physical address space. -/
def Aligned : Call → Prop
  | map4kb _ pa => pa % 2 ^ 12 = 0 ∧ pa < 2 ^ 52
  | map2mb _ pa => pa % 2 ^ 21 = 0 ∧ pa < 2 ^ 52

instance (c : Call) : Decidable c.Aligned := by
  cases c <;> exact inferInstanceAs (Decidable (_ ∧ _))

/-- The index of the entry that the call stores. -/
def index : Call → Fin 512
  | map4kb va _ => l1Index va
  | map2mb va _ => l2Index va

/-- The entry that it stores. -/
def entry : Call → ℕ
  | map4kb _ pa => mapEntry 0 pa
  | map2mb _ pa => setHugePage (mapEntry 0 pa) 1

/-- A call descends along its path, and stores its entry. -/
theorem run_eq (st : PagingState) (c : Call) :
    c.run st = (descend st 0x1000 c.path).2.setEntry (descend st 0x1000 c.path).1 c.index
      c.entry := by
  cases c <;> rfl

/-- A call takes at most three pages from the pool. -/
theorem run_it_le (st : PagingState) (c : Call) : (c.run st).it ≤ st.it + 0x3000 := by
  have hlen : c.path.length ≤ 3 := by cases c <;> simp [path]
  have hit := descend_it_le st 0x1000 c.path
  rw [run_eq, PagingState.setEntry_it]
  omega

theorem it_le_run (st : PagingState) (c : Call) : st.it ≤ (c.run st).it := by
  rw [run_eq]
  exact it_le_descend _ _ _

/-- The entry is for a page, whatever the frame. -/
theorem isLeaf_entry (c : Call) : IsLeaf c.path c.entry := by
  have hpres : ∀ pa, present (mapEntry 0 pa) = 1 := fun pa => by
    rw [present, mapEntry, setWritable,
      getField_setField_of_disjoint _ _ _ _ (.inl (by decide))]
    exact getField_setField ..
  cases c with
  | map4kb va pa => exact ⟨hpres pa, .inl rfl⟩
  | map2mb va pa =>
    refine ⟨?_, .inr ⟨Nat.succ_ne_zero _, getField_setField ..⟩⟩
    rw [entry, present, setHugePage, getField_setField_of_disjoint _ _ _ _ (.inl (by decide))]
    exact hpres pa

theorem entry_lt (c : Call) : c.entry < 2 ^ 64 := by
  have hlt : ∀ pa, mapEntry 0 pa < 2 ^ 64 := fun pa => by
    refine setField_lt _ _ _ _ (setField_lt _ _ _ _ ?_ (by decide)) (by decide)
    exact setField_lt _ _ _ _ (by decide) (by decide)
  cases c with
  | map4kb va pa => exact hlt pa
  | map2mb va pa => exact setField_lt _ _ _ _ (hlt pa) (by decide)

/-- The entry of an aligned frame is for a page of its size, which the processor reads. -/
theorem pageLeaf_entry {c : Call} (ha : c.Aligned) {r : ℕ} (hr : c.path.length + (r + 1) = 4) :
    PageLeaf c.path c.entry ∧ slot r c.entry = .leaf true c.pa := by
  cases c with
  | map4kb va pa =>
    change 3 + (r + 1) = 4 at hr
    obtain rfl : r = 0 := by omega
    rw [entry, mapEntry_zero ha.1 ha.2]
    exact ⟨fun _ _ => .page rfl ha.1 ha.2, slot_page ha.1 ha.2⟩
  | map2mb va pa =>
    change 2 + (r + 1) = 4 at hr
    obtain rfl : r = 1 := by omega
    obtain ⟨ha, hpa⟩ := ha
    rw [entry, setHugePage_mapEntry (by omega) hpa]
    exact ⟨fun _ _ => .page2mb rfl ha hpa, slot_huge_one ha hpa⟩

/-- The addresses covered are those whose indices lead to the entry. -/
theorem covers_iff {c : Call} {v : ℕ} : c.Covers v ↔ c.path ++ [c.index] <+: indices v := by
  cases c with
  | map4kb va pa =>
    change v % 2 ^ 48 / 2 ^ 12 = va % 2 ^ 48 / 2 ^ 12 ↔ indices va <+: indices v
    rw [← indices_eq_iff]
    exact ⟨fun h => h ▸ List.prefix_rfl, fun h => (h.eq_of_length rfl).symm⟩
  | map2mb va pa => exact eq_comm.trans indices_region_iff.symm

section run

variable {Leaf : List (Fin 512) → ℕ → Prop} {st : PagingState} {own : Owners} {c : Call}

/-- A call that meets no large page on its way down and finds room in the pool keeps the
    tree, whatever its frame, and changes nothing else. -/
theorem run_tables (ht : TableTree Leaf st.mem st.it own) (hl : Leaf c.path c.entry)
    (hh : ¬HugeOnPath st.mem c.path 0x1000) (hit : (c.run st).it ≤ 2 ^ 52) :
    ∃ own', TableTree Leaf (c.run st).mem (c.run st).it own' ∧ TablesOnly st (c.run st) := by
  rw [run_eq] at hit ⊢
  have hlen : c.path.length + (4 - c.path.length) = 4 := by cases c <;> rfl
  have hr : 4 - c.path.length ≠ 0 := by cases c <;> simp [path]
  obtain ⟨own', ht', htab, hg⟩ := descend_spec ht (p := []) rfl (by simpa using hlen) hr hh hit
  have hown := ht'.owned.own_of_table (p := c.path) hlen htab
  exact ⟨own', ht'.setEntry hown c.entry_lt (.leaf c.isLeaf_entry hl),
    hg.only.trans (ht'.tablesOnly_setEntry hown _ _)⟩

/-- After a call for an aligned frame, the paths through its entry lead to the frame, and
    all others where they led. -/
theorem run_walk (ht : PageTree st.mem st.it own) (ha : c.Aligned)
    (hh : ¬HugeOnPath st.mem c.path 0x1000) (hit : (c.run st).it ≤ 2 ^ 52)
    {path : List (Fin 512)} (hpath : path.length = 4) :
    (∀ q, path = c.path ++ c.index :: q → ∃ ls, ls.all id = true ∧
      walk (entries (c.run st).mem) path 0x1000 = some ⟨ls, c.pa, q⟩) ∧
    (¬c.path ++ [c.index] <+: path →
      walk (entries (c.run st).mem) path 0x1000 = walk (entries st.mem) path 0x1000) := by
  rw [run_eq] at hit ⊢
  have hlen : c.path.length + (3 - c.path.length + 1) = 4 := by cases c <;> rfl
  obtain ⟨hl, hs⟩ := pageLeaf_entry ha hlen
  obtain ⟨own', ht', htab, hg⟩ := descend_spec ht.tables (p := []) rfl (by simpa using hlen)
    (Nat.succ_ne_zero _) hh hit
  obtain ⟨hin, hout⟩ := walk_setEntry ht' (p := c.path) htab hlen c.entry_lt
    (.leaf c.isLeaf_entry hl) hs hpath
  exact ⟨hin, fun hnp => (hout hnp).trans (hg.walk path hpath)⟩

/-- A call that asks for an aligned frame, meets no large page on its way down and finds
    room in the pool changes the translations of the addresses it covers, and no others. -/
theorem run_spec (ht : PageTree st.mem st.it own) (hh : ¬HugeOnPath st.mem c.path 0x1000)
    (ha : c.Aligned) (hit : (c.run st).it ≤ 2 ^ 52) :
    ∃ own', PageTree (c.run st).mem (c.run st).it own' ∧
      (∀ v, pageWalk (c.run st).mem 0x1000 v =
        if c.Covers v then some (c.translation v) else pageWalk st.mem 0x1000 v) ∧
      TablesOnly st (c.run st) := by
  have hlen : c.path.length + (3 - c.path.length + 1) = 4 := by cases c <;> rfl
  obtain ⟨own', ht', hf⟩ := run_tables ht.tables (pageLeaf_entry ha hlen).1 hh hit
  refine ⟨own', ht'.pages, fun v => ?_, hf⟩
  obtain ⟨hin, hout⟩ := run_walk ht ha hh hit (length_indices v)
  split
  · rename_i hv
    obtain ⟨q, hq⟩ := covers_iff.1 hv
    rw [List.append_assoc, List.singleton_append] at hq
    obtain ⟨ls, hls, hw⟩ := hin q hq.symm
    have hlen' := congrArg List.length hq
    rw [List.length_append, List.length_cons, length_indices] at hlen'
    have hq' : q.length = 3 - c.path.length := by omega
    rw [pageWalk, hw, Option.map_some, hls]
    simp only [hq']
    cases c <;> rfl
  · rename_i hv
    rw [pageWalk, pageWalk, hout fun hpre => hv (covers_iff.2 hpre)]

end run

end Call

/-! ## Large pages -/

section large

variable {m : Memory} {it : ℕ} {own : Owners}

/-- A path that meets a large page leads to it. -/
theorem PageTree.exists_walk_of_huge (ht : PageTree m it own) {q : List (Fin 512)} :
    ∀ {p : List (Fin 512)} {t : ℕ}, own t = some p → p.length + q.length ≤ 3 →
      HugeOnPath m q t → ∀ d, p.length + q.length + d.length = 4 →
      ∃ hit, walk (entries m) (q ++ d) t = some hit ∧ hit.rest ≠ [] := by
  induction q with
  | nil => exact fun _ _ h => h.elim
  | cons i q ih =>
    intro p t hown hle hh d hd
    obtain ⟨hpres, hh⟩ := hh
    rw [List.length_cons] at hle hd
    have hr : (q ++ d).length = 3 - p.length := by
      rw [List.length_append]
      omega
    have hrest : q ++ d ≠ [] := fun h => by
      rw [h, List.length_nil] at hr
      omega
    rw [List.cons_append, walk, hr]
    by_cases hl : IsLeaf p (tableEntry m t i)
    · obtain ⟨f, hf⟩ := ht.slot_of_isLeaf hown (r := 3 - p.length) (by omega) hl
      rw [hf]
      exact ⟨_, rfl, hrest⟩
    · -- A link is not for a large page, so this comes further down.
      obtain ⟨_, t', hown', hentry⟩ := ht.tables.entry_eq_link hown (by rw [hpres]; decide) hl
      rw [hentry, (flags_add_three (ht.page hown').1).2,
        ht.tables.getPteAddress_table hown'] at hh
      obtain ⟨hit, hwalk, hne⟩ := ih hown' (by simp; omega) (hh.resolve_left (by decide)) d
        (by simp; omega)
      rw [entries, hentry, ht.tables.slot_table (by omega) hown']
      refine ⟨Hit.after [true] hit, ?_, hne⟩
      simp only [hwalk, Option.map_some]

end large

end Cboot
