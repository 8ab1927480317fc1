import Cboot.Paging.Shape
import Mathlib.Data.Finset.Card

/-!
# How many tables are needed

The pages that `map_4kb_page` takes from the pool are counted by the paths of indices: a
page is needed for every beginning of the path of an address that has no table yet.

* `TablesAdded`: tables have been added for a set of paths, and as many pages taken from
  the pool as there were paths without a table; two such steps make one (`trans`);
* `nextTable_tablesAdded`, `descend_tablesAdded`, `Call.run_tablesAdded`,
  `runCalls_tablesAdded`: one level of the descent, the descent, a call, and a sequence of
  calls;
* `SmallPages`: only pages of 4 KB are reached through an index of the level 4. Calls of
  `map_4kb_page` keep it so, and meet no large page there (`pathsOk_of_smallPages`).
-/

namespace Cboot

open Bitfield PageTableEntry Radix

/-! ## Tables added -/

/-- There is a table for the path of indices `p`. -/
def HasTable (m : Memory) (p : List (Fin 512)) : Prop :=
  (table (entries m) p (4 - p.length) 0x1000).isSome

instance (m : Memory) (p : List (Fin 512)) : Decidable (HasTable m p) :=
  inferInstanceAs (Decidable (_ = true))

/-- The tables for the paths of `P` have been added, with pages from the pool. -/
structure TablesAdded (st st' : PagingState) (P : Finset (List (Fin 512))) : Prop where
  le_three : ∀ p ∈ P, p.length ≤ 3
  hasTable_iff : ∀ p, p.length ≤ 3 → (HasTable st'.mem p ↔ HasTable st.mem p ∨ p ∈ P)
  it_eq : st'.it = st.it + 0x1000 * (P.filter fun p => ¬HasTable st.mem p).card

/-- What both sets have in common only counts for the first one. -/
theorem card_filter_union {α : Type*} [DecidableEq α] {P Q : Finset α} {H H' : α → Prop}
    [DecidablePred H] [DecidablePred H'] (h : ∀ q ∈ Q, H' q ↔ H q ∨ q ∈ P) :
    ((P ∪ Q).filter fun p => ¬H p).card =
      (P.filter fun p => ¬H p).card + (Q.filter fun p => ¬H' p).card := by
  have hQ : (Q.filter fun p => ¬H' p) = (Q.filter fun p => ¬H p) \ P.filter fun p => ¬H p := by
    ext p
    simp only [Finset.mem_filter, Finset.mem_sdiff]
    constructor
    · rintro ⟨hp, hn⟩
      rw [h p hp, not_or] at hn
      exact ⟨⟨hp, hn.1⟩, fun hP => hn.2 hP.1⟩
    · rintro ⟨⟨hp, hn⟩, hP⟩
      rw [h p hp, not_or]
      exact ⟨hp, hn, fun h => hP ⟨h, hn⟩⟩
  rw [Finset.filter_union, Finset.union_comm, ← Finset.card_sdiff_add_card, hQ, Nat.add_comm]

namespace TablesAdded

variable {st st₁ st₂ st₃ : PagingState} {P Q : Finset (List (Fin 512))}

theorem refl (st : PagingState) : TablesAdded st st ∅ where
  le_three := fun _ h => absurd h (Finset.notMem_empty _)
  hasTable_iff := fun _ _ => (or_iff_left (Finset.notMem_empty _)).symm
  it_eq := by simp

theorem trans (h₁ : TablesAdded st₁ st₂ P) (h₂ : TablesAdded st₂ st₃ Q) :
    TablesAdded st₁ st₃ (P ∪ Q) where
  le_three := fun p hp => (Finset.mem_union.1 hp).elim (h₁.le_three p) (h₂.le_three p)
  hasTable_iff := fun p hp => by
    rw [h₂.hasTable_iff p hp, h₁.hasTable_iff p hp, Finset.mem_union, or_assoc]
  it_eq := by
    rw [h₂.it_eq, h₁.it_eq, card_filter_union fun p hp => h₁.hasTable_iff p (h₂.le_three p hp),
      Nat.mul_add, Nat.add_assoc]

/-- A table that is there already. -/
theorem of_hasTable {q : List (Fin 512)} (hq : q.length ≤ 3) (h : HasTable st.mem q) :
    TablesAdded st st {q} where
  le_three := fun _ hp => Finset.mem_singleton.1 hp ▸ hq
  hasTable_iff := fun p _ => by
    rw [Finset.mem_singleton]
    exact ⟨Or.inl, fun hp => hp.elim id fun hp => hp ▸ h⟩
  it_eq := by
    rw [Finset.filter_singleton, if_neg (not_not_intro h), Finset.card_empty]
    rfl

/-- A table that has taken a page from the pool. -/
theorem of_new {st' : PagingState} {q : List (Fin 512)} (hq : q.length ≤ 3)
    (hnone : ¬HasTable st.mem q) (hnew : HasTable st'.mem q)
    (hother : ∀ p, p.length ≤ 3 → p ≠ q → (HasTable st'.mem p ↔ HasTable st.mem p))
    (hit : st'.it = st.it + 0x1000) : TablesAdded st st' {q} where
  le_three := fun _ hp => Finset.mem_singleton.1 hp ▸ hq
  hasTable_iff := fun p hp => by
    rw [Finset.mem_singleton]
    by_cases hpq : p = q
    · exact iff_of_true (hpq ▸ hnew) (.inr hpq)
    · rw [or_iff_left hpq, hother p hp hpq]
  it_eq := by rw [Finset.filter_singleton, if_pos hnone, Finset.card_singleton, hit]

end TablesAdded

/-! ## The mapping of a page -/

section map

variable {Leaf : List (Fin 512) → ℕ → Prop} {st : PagingState} {own : Owners}
  {p q : List (Fin 512)} {t r : ℕ} {i : Fin 512}

/-- One level of the descent adds the table of the next level, if there is none. -/
theorem nextTable_tablesAdded {t' : ℕ} {st' : PagingState} (he : nextTable st t i = (t', st'))
    (ht : TableTree Leaf st.mem st.it own)
    (htab : table (entries st.mem) p (r + 1) 0x1000 = some t) (hlen : p.length + (r + 1) = 4)
    (hr : r ≠ 0) (hh : ¬HugeOnPath st.mem (i :: q) t) (hit : st'.it ≤ 2 ^ 52) :
    TablesAdded st st' {p ++ [i]} := by
  have hown : own t = some p := ht.owned.own_of_table hlen htab
  have hr' : 4 - (p ++ [i]).length = r := by
    rw [List.length_append, List.length_singleton]
    omega
  have hq : (p ++ [i]).length ≤ 3 := by
    rw [List.length_append, List.length_singleton]
    omega
  rcases nextTable_cases ht hown (by omega) hh (he ▸ hit) with
    ⟨t'', hown', hentry, heq, _⟩ | ⟨hzero, hit₀, heq⟩
  · -- The table is there.
    obtain ⟨rfl, rfl⟩ := Prod.mk.inj (he.symm.trans heq)
    refine .of_hasTable hq ?_
    rw [HasTable, hr', table_concat htab (l := true)]
    · rfl
    · rw [entries, hentry]
      exact ht.slot_table hr hown'
  · -- A page is taken from the pool for it.
    obtain ⟨rfl, rfl⟩ := Prod.mk.inj (he.symm.trans heq)
    obtain ⟨hag, hlink, hb⟩ := entries_linkNew (i := i) ht hown hit₀
    have hempty : entries st.mem r t i = .empty := by rw [entries, hzero, slot_zero]
    refine .of_new hq ?_ ?_ (fun q hq hqp => ?_) rfl
    · rw [HasTable, hr', table_append, List.length_singleton, Nat.add_comm 1 r, htab]
      simp [table, hempty]
    · rw [HasTable, hr', table_concat ?_ (hlink r hr)]
      · rfl
      · rw [ht.owned.table_of_not_prefix hown hag hlen, htab]
        exact fun h => absurd h.length_le (by simp)
    · rw [HasTable, HasTable,
        ht.owned.table_link_of_ne hag (by omega) htab hempty (hlink r hr) hb (by omega) hqp]

/-- The descent adds the tables of the paths that it goes through. -/
theorem descend_tablesAdded (ht : TableTree Leaf st.mem st.it own)
    (htab : table (entries st.mem) p (q.length + r) 0x1000 = some t)
    (hlen : p.length + (q.length + r) = 4) (hr : r ≠ 0) (hh : ¬HugeOnPath st.mem q t)
    (hit : (descend st t q).2.it ≤ 2 ^ 52) :
    TablesAdded st (descend st t q).2 (q.inits.tail.map (p ++ ·)).toFinset := by
  induction q generalizing st own p t with
  | nil => exact .refl st
  | cons i q ih =>
    rw [List.length_cons, Nat.add_right_comm] at htab hlen
    rcases e : nextTable st t i with ⟨t₁, s₁⟩
    simp only [descend, e] at hit ⊢
    have hit₁ := (it_le_descend s₁ t₁ q).trans hit
    obtain ⟨own₁, ht₁, htab₁, hh₁, _⟩ := nextTable_spec e ht htab hlen (by omega) hh hit₁
    have hadd := (nextTable_tablesAdded e ht htab hlen (by omega) hh hit₁).trans
      (ih ht₁ htab₁ (by simp; omega) hh₁ hit)
    have hpaths : (i :: q).inits.tail.map (p ++ ·) =
        (p ++ [i]) :: q.inits.tail.map (p ++ [i] ++ ·) := by
      rw [List.inits_cons, List.tail_cons, List.map_map]
      cases q <;> simp
    rwa [hpaths, List.toFinset_cons, Finset.insert_eq]

/-- Storing an entry in a table of the level 1 adds no table. -/
theorem setEntry_tablesAdded (ht : TableTree Leaf st.mem st.it own) (hown : own t = some p)
    (hlen : p.length = 3) (e : ℕ) : TablesAdded st (st.setEntry t i e) ∅ := by
  have hag := ht.agreeOff (j := i) hown e
  refine ⟨fun _ h => absurd h (Finset.notMem_empty _), fun q hq => ?_, by simp⟩
  rw [or_iff_left (Finset.notMem_empty _), HasTable, HasTable, PagingState.setEntry,
    ht.owned.table_of_not_prefix hown hag (by omega)]
  intro h
  have := h.length_le
  rw [List.length_append, List.length_singleton] at this
  omega

/-- Nor does it change where large pages are met. -/
theorem setEntry_hugeOnPath (ht : TableTree Leaf st.mem st.it own) (hown : own t = some p)
    (hlen : p.length = 3) (e : ℕ) {path : List (Fin 512)} (hpath : path.length ≤ 3) :
    HugeOnPath (st.setEntry t i e).mem path 0x1000 ↔ HugeOnPath st.mem path 0x1000 := by
  refine ht.hugeOnPath_congr (fun t' p' i' hown' hlen' => .inl ?_) ht.root (by simpa using hpath)
  refine tableEntry_write_of_ne le_rfl (ht.page hown').1 (ht.page hown).1 fun h => ?_
  rw [h.1, hown] at hown'
  rw [← Option.some.inj hown'] at hlen'
  omega

end map

/-- The paths of the tables that the call goes through. -/
def Call.tablePaths (c : Call) : List (List (Fin 512)) := c.path.inits.tail

/-- The call maps a page of 4 KB. -/
def Call.Is4kb (c : Call) : Prop := ∃ va pa, c = .map4kb va pa

section calls

variable {Leaf : List (Fin 512) → ℕ → Prop} {st : PagingState} {own : Owners} {c : Call}

/-- A call for a page of 4 KB adds the tables that it goes through, and changes nothing
    about where large pages are met. -/
theorem Call.run_tablesAdded (ht : TableTree Leaf st.mem st.it own) (h₄ : c.Is4kb)
    (hh : ¬HugeOnPath st.mem c.path 0x1000) (hit : (c.run st).it ≤ 2 ^ 52) :
    TablesAdded st (c.run st) c.tablePaths.toFinset ∧
      ∀ path : List (Fin 512), path.length ≤ 3 →
        (HugeOnPath (c.run st).mem path 0x1000 ↔ HugeOnPath st.mem path 0x1000) := by
  obtain ⟨va, pa, rfl⟩ := h₄
  have hlen : ([] : List (Fin 512)).length + ((map4kb va pa).path.length + 1) = 4 := rfl
  rw [run_eq] at hit ⊢
  obtain ⟨own', ht', htab, hg⟩ := descend_spec ht rfl hlen one_ne_zero hh hit
  have hown := ht'.owned.own_of_table rfl htab
  have hadd := (descend_tablesAdded ht rfl hlen one_ne_zero hh hit).trans
    (setEntry_tablesAdded (i := (map4kb va pa).index) ht' hown rfl (map4kb va pa).entry)
  rw [Finset.union_empty] at hadd
  simp only [List.nil_append, List.map_id'] at hadd
  exact ⟨hadd, fun path hpath => (setEntry_hugeOnPath ht' hown rfl _ hpath).trans
    (hg.huge path hpath)⟩

end calls

/-! ## Pages of 4 KB only -/

/-- From the index `i` of the level 4 on, walks only find pages of 4 KB. -/
def SmallPages (m : Memory) (i : Fin 512) : Prop :=
  ∀ q hit, q.length = 3 → walk (entries m) (i :: q) 0x1000 = some hit → hit.rest = []

section small

variable {m : Memory} {it : ℕ} {own : Owners}

/-- Where there are only pages of 4 KB, no large page is met. -/
theorem SmallPages.not_huge (ht : PageTree m it own) {i j k : Fin 512} (h : SmallPages m i) :
    ¬HugeOnPath m [i, j, k] 0x1000 := by
  intro hh
  obtain ⟨hit, hwalk, hne⟩ := ht.exists_walk_of_huge ht.root le_rfl hh [0] rfl
  exact hne (h [j, k, 0] hit rfl hwalk)

end small

/-! ## Calls for pages of 4 KB -/

/-- Every call asks for an aligned frame and meets no large page, and the pool stays in the
    physical address space. -/
def PathsOk : PagingState → List Call → Prop
  | _, [] => True
  | st, c :: cs => (c.Aligned ∧ ¬HugeOnPath st.mem c.path 0x1000 ∧ (c.run st).it ≤ 2 ^ 52) ∧
      PathsOk (c.run st) cs

theorem PathsOk.noHugeMet {st : PagingState} {cs : List Call} (h : PathsOk st cs) :
    NoHugeMet st cs := by
  induction cs generalizing st with
  | nil => trivial
  | cons c cs ih => exact ⟨h.1.2.1, ih h.2⟩

theorem PathsOk.it_le {st : PagingState} {cs : List Call} (h : PathsOk st cs)
    (hit : st.it ≤ 2 ^ 52) : (runCalls st cs).it ≤ 2 ^ 52 := by
  induction cs generalizing st with
  | nil => exact hit
  | cons c cs ih => exact ih h.2 h.1.2.2

section run

variable {st : PagingState} {own : Owners} {c : Call} {cs : List Call}

/-- A sequence of calls takes a page from the pool for every path of its addresses that had
    no table. -/
theorem runCalls_tablesAdded (ht : TableTree AnyLeaf st.mem st.it own) (h₄ : ∀ c ∈ cs, c.Is4kb)
    (hh : NoHugeMet st cs) (hit : (runCalls st cs).it ≤ 2 ^ 52) :
    TablesAdded st (runCalls st cs) (cs.flatMap Call.tablePaths).toFinset := by
  induction cs generalizing st own with
  | nil => exact .refl st
  | cons c cs ih =>
    have hit₁ : (c.run st).it ≤ 2 ^ 52 := (it_le_runCalls _ cs).trans hit
    obtain ⟨own', ht', _⟩ := c.run_tables ht trivial hh.1 hit₁
    obtain ⟨hadd, _⟩ := c.run_tablesAdded ht (h₄ c List.mem_cons_self) hh.1 hit₁
    rw [List.flatMap_cons, List.toFinset_append]
    exact hadd.trans (ih ht' (fun c hc => h₄ c (List.mem_cons_of_mem _ hc)) hh.2 hit)

/-- A call for a page of 4 KB makes no large pages. -/
theorem SmallPages.run (ht : PageTree st.mem st.it own) (h₄ : c.Is4kb) (ha : c.Aligned)
    (hh : ¬HugeOnPath st.mem c.path 0x1000) (hit : (c.run st).it ≤ 2 ^ 52) {i : Fin 512}
    (hs : SmallPages st.mem i) : SmallPages (c.run st).mem i := by
  obtain ⟨va, pa, rfl⟩ := h₄
  intro q hit' hq hw
  obtain ⟨hin, hout⟩ := Call.run_walk ht ha hh hit
    (show (i :: q).length = 4 by rw [List.length_cons, hq])
  by_cases hp : i :: q = indices va
  · obtain ⟨ls, _, hwalk⟩ := hin [] hp
    rw [hwalk] at hw
    obtain rfl := Option.some.inj hw
    rfl
  · rw [hout fun hpre => hp (hpre.eq_of_length (by rw [List.length_cons, hq]; rfl)).symm] at hw
    exact hs q hit' hq hw

/-- Calls for pages of 4 KB, where there are only such pages, meet no large page. -/
theorem pathsOk_of_smallPages (ht : PageTree st.mem st.it own) (h₄ : ∀ c ∈ cs, c.Is4kb)
    (ha : ∀ c ∈ cs, c.Aligned) (hs : ∀ c ∈ cs, SmallPages st.mem (l4Index c.va))
    (hit : st.it + 0x3000 * cs.length ≤ 2 ^ 52) : PathsOk st cs := by
  induction cs generalizing st own with
  | nil => trivial
  | cons c cs ih =>
    rw [List.length_cons] at hit
    have hle := Call.run_it_le st c
    have hit' : (c.run st).it ≤ 2 ^ 52 := by omega
    have hac := ha c List.mem_cons_self
    have h₄c := h₄ c List.mem_cons_self
    have hh : ¬HugeOnPath st.mem c.path 0x1000 := by
      obtain ⟨va, pa, rfl⟩ := h₄c
      exact (hs _ List.mem_cons_self).not_huge ht
    obtain ⟨own', ht', _⟩ := Call.run_spec ht hh hac hit'
    refine ⟨⟨hac, hh, hit'⟩, ih ht' (fun c hc => h₄ c (List.mem_cons_of_mem _ hc))
      (fun c hc => ha c (List.mem_cons_of_mem _ hc)) (fun c' hc' => ?_) (by omega)⟩
    exact (hs c' (List.mem_cons_of_mem _ hc')).run ht h₄c hac hh hit'

end run

/-! ## After the map of physical memory -/

section start

variable {m : Memory} {total : ℕ} {i : Fin 512}

theorem entries_start (htotal : total ≤ 511 * 2 ^ 30) (h₀ : i ≠ 0) (h₁ : i ≠ 256) (r : ℕ) :
    entries (setupPhysicalMap (.boot m) total).mem r 0x1000 i = .empty := by
  rw [entries, tableEntry_start htotal h₀ h₁, slot_zero]

/-- Elsewhere than in the first 512 GiB and in the map, there are no pages yet. -/
theorem smallPages_start (htotal : total ≤ 511 * 2 ^ 30) (h₀ : i ≠ 0) (h₁ : i ≠ 256) :
    SmallPages (setupPhysicalMap (.boot m) total).mem i := by
  intro q hit _ hw
  rw [walk, entries_start htotal h₀ h₁] at hw
  cases hw

/-- Nor are there tables. -/
theorem not_hasTable_start (htotal : total ≤ 511 * 2 ^ 30) (h₀ : i ≠ 0) (h₁ : i ≠ 256)
    (p : List (Fin 512)) : ¬HasTable (setupPhysicalMap (.boot m) total).mem (i :: p) := by
  rw [HasTable, table, entries_start htotal h₀ h₁]
  simp

end start

end Cboot
