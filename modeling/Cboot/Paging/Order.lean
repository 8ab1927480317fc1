import Cboot.Paging.Count

/-!
# The order of the calls

In which order calls for pages of 4 KB are made does not matter for the pages that they
take from the pool.

* They change nothing about where large pages are met: a call meets one in the middle of
  a sequence if and only if it would have met one before (`NoHugeMet.forall`,
  `noHugeMet_of_forall`);
* of the pages set aside for the paths of a sequence (`budget`), every call uses those for
  its own paths that are still missing (`TablesAdded.budget_eq`);
* `consumesExactly`: the pages taken are counted by the paths that had no table, and any
  other sequence for the same addresses takes as many.
-/

namespace Cboot

section budget

variable {st st' : PagingState} {P Q : Finset (List (Fin 512))}

/-- Where the pool ends when all paths of `P` have tables. -/
def budget (st : PagingState) (P : Finset (List (Fin 512))) : ℕ :=
  st.it + 0x1000 * (P.filter fun p => ¬HasTable st.mem p).card

theorem it_le_budget (st : PagingState) (P : Finset (List (Fin 512))) : st.it ≤ budget st P :=
  Nat.le_add_right _ _

/-- Adding tables for some of the paths uses up the pages set aside for them. -/
theorem TablesAdded.budget_eq (h : TablesAdded st st' Q) (hQ : Q ⊆ P)
    (hP : ∀ p ∈ P, p.length ≤ 3) : budget st' P = budget st P := by
  have hcard := card_filter_union (P := Q) (Q := P) fun p hp => h.hasTable_iff p (hP p hp)
  rw [Finset.union_eq_right.2 hQ] at hcard
  rw [budget, budget, h.it_eq, hcard, Nat.mul_add, Nat.add_assoc]

end budget

section order

variable {st : PagingState} {own : Owners} {cs cs' : List Call}

/-- The paths of the calls that have no table. -/
def newTables (st : PagingState) (cs : List Call) : Finset (List (Fin 512)) :=
  (cs.flatMap Call.tablePaths).toFinset.filter fun p => ¬HasTable st.mem p

/-- The paths of a call only depend on its address. -/
theorem tablePaths_subset_of_va (h₄ : ∀ c ∈ cs, c.Is4kb) (h₄' : ∀ c ∈ cs', c.Is4kb)
    (hva : ∀ va ∈ cs.map Call.va, va ∈ cs'.map Call.va) :
    (cs.flatMap Call.tablePaths).toFinset ⊆ (cs'.flatMap Call.tablePaths).toFinset := by
  intro p hp
  rw [List.mem_toFinset, List.mem_flatMap] at hp ⊢
  obtain ⟨c, hc, hp⟩ := hp
  obtain ⟨c', hc', heq⟩ := List.mem_map.1 (hva c.va (List.mem_map_of_mem hc))
  obtain ⟨va, pa, rfl⟩ := h₄ c hc
  obtain ⟨va', pa', rfl⟩ := h₄' c' hc'
  obtain rfl : va' = va := heq
  exact ⟨_, hc', hp⟩

/-- Calls that meet no large page would not have met one before the others. -/
theorem NoHugeMet.forall (hh : NoHugeMet st cs) (ht : TableTree AnyLeaf st.mem st.it own)
    (h₄ : ∀ c ∈ cs, c.Is4kb) (hit : (runCalls st cs).it ≤ 2 ^ 52) :
    ∀ c ∈ cs, ¬HugeOnPath st.mem c.path 0x1000 := by
  induction cs generalizing st own with
  | nil => exact fun c hc => absurd hc List.not_mem_nil
  | cons c cs ih =>
    have hit₁ : (c.run st).it ≤ 2 ^ 52 := (it_le_runCalls _ cs).trans hit
    obtain ⟨own', ht', _⟩ := c.run_tables ht trivial hh.1 hit₁
    obtain ⟨_, hhuge⟩ := c.run_tablesAdded ht (h₄ c List.mem_cons_self) hh.1 hit₁
    have ih := ih hh.2 ht' (fun c hc => h₄ c (List.mem_cons_of_mem _ hc)) hit
    intro c' hc'
    rcases List.mem_cons.1 hc' with rfl | hc'
    · exact hh.1
    · rw [← hhuge c'.path (by cases c' <;> simp [Call.path])]
      exact ih c' hc'

/-- Calls that would meet no large page before the others do not meet one after them, and
    keep to what has been set aside for their paths. -/
theorem noHugeMet_of_forall (ht : TableTree AnyLeaf st.mem st.it own) (h₄ : ∀ c ∈ cs, c.Is4kb)
    (hh : ∀ c ∈ cs, ¬HugeOnPath st.mem c.path 0x1000) {P : Finset (List (Fin 512))}
    (hP : ∀ p ∈ P, p.length ≤ 3) (hcs : (cs.flatMap Call.tablePaths).toFinset ⊆ P)
    (hbudget : budget st P + 0x3000 ≤ 2 ^ 52) :
    NoHugeMet st cs ∧ (runCalls st cs).it ≤ budget st P := by
  induction cs generalizing st own with
  | nil => exact ⟨trivial, it_le_budget st P⟩
  | cons c cs ih =>
    rw [List.flatMap_cons, List.toFinset_append] at hcs
    have hc := hh c List.mem_cons_self
    have hit : (c.run st).it ≤ 2 ^ 52 :=
      (c.run_it_le st).trans ((Nat.add_le_add_right (it_le_budget st P) _).trans hbudget)
    obtain ⟨own', ht', _⟩ := c.run_tables ht trivial hc hit
    obtain ⟨hadd, hhuge⟩ := c.run_tablesAdded ht (h₄ c List.mem_cons_self) hc hit
    -- The call uses its part of the pages set aside.
    have heq := hadd.budget_eq (Finset.union_subset_left hcs) hP
    obtain ⟨hmet, hle⟩ := ih ht' (fun c hc => h₄ c (List.mem_cons_of_mem _ hc))
      (fun c' hc' => by
        rw [hhuge c'.path (by cases c' <;> simp [Call.path])]
        exact hh c' (List.mem_cons_of_mem _ hc'))
      (Finset.union_subset_right hcs) (heq.symm ▸ hbudget)
    exact ⟨⟨hc, hmet⟩, heq ▸ hle⟩

/-- The calls take a page for every path of theirs that has no table, and so do all
    sequences of calls for the same addresses. -/
structure ConsumesExactly (st : PagingState) (cs : List Call) : Prop where
  it_eq : (runCalls st cs).it = st.it + 0x1000 * (newTables st cs).card
  reorder : ∀ cs' : List Call, (∀ c ∈ cs', c.Is4kb) →
    (∀ va, va ∈ cs'.map Call.va ↔ va ∈ cs.map Call.va) →
    NoHugeMet st cs' ∧ (runCalls st cs').it = (runCalls st cs).it

theorem consumesExactly_of_tables (ht : TableTree AnyLeaf st.mem st.it own)
    (h₄ : ∀ c ∈ cs, c.Is4kb) (hh : NoHugeMet st cs) (hit : (runCalls st cs).it ≤ 0x6F000) :
    ConsumesExactly st cs where
  it_eq := (runCalls_tablesAdded ht h₄ hh (hit.trans (by decide))).it_eq
  reorder := fun cs' h₄' hva => by
    have hit₅₂ : (runCalls st cs).it ≤ 2 ^ 52 := hit.trans (by decide)
    have hadd := runCalls_tablesAdded ht h₄ hh hit₅₂
    have hpaths : (cs'.flatMap Call.tablePaths).toFinset = (cs.flatMap Call.tablePaths).toFinset :=
      (tablePaths_subset_of_va h₄' h₄ fun va => (hva va).1).antisymm
        (tablePaths_subset_of_va h₄ h₄' fun va => (hva va).2)
    -- The end of the pool is what has been set aside for the paths of the calls.
    have hbudget : budget st (cs.flatMap Call.tablePaths).toFinset = (runCalls st cs).it :=
      hadd.it_eq.symm
    have hforall : ∀ c ∈ cs', ¬HugeOnPath st.mem c.path 0x1000 := fun c hc => by
      obtain ⟨c', hc', heq⟩ := List.mem_map.1 ((hva c.va).1 (List.mem_map_of_mem hc))
      have hhuge := hh.forall ht h₄ hit₅₂ c' hc'
      obtain ⟨va, pa, rfl⟩ := h₄' c hc
      obtain ⟨va', pa', rfl⟩ := h₄ c' hc'
      obtain rfl : va' = va := heq
      exact hhuge
    obtain ⟨hmet, hle⟩ := noHugeMet_of_forall ht h₄' hforall hadd.le_three hpaths.le (by omega)
    have hadd' := runCalls_tablesAdded ht h₄' hmet (hle.trans (hbudget.le.trans hit₅₂))
    refine ⟨hmet, ?_⟩
    rw [hadd'.it_eq, hadd.it_eq, hpaths]

/-- After the map of physical memory, of any size, and any calls that meet no large page. -/
theorem consumesExactly (m : Memory) (total : ℕ) {before : List Call}
    (hb : NoHugeMet (setupPhysicalMap (.boot m) total) before) (h₄ : ∀ c ∈ cs, c.Is4kb)
    (hh : NoHugeMet (runCalls (setupPhysicalMap (.boot m) total) before) cs)
    (hit : (runCalls (runCalls (setupPhysicalMap (.boot m) total) before) cs).it ≤ 0x6F000) :
    ConsumesExactly (runCalls (setupPhysicalMap (.boot m) total) before) cs := by
  obtain ⟨own₀, ht₀⟩ := pageTree_setupPhysicalMap m total
  have hit₀ : (runCalls (setupPhysicalMap (.boot m) total) before).it ≤ 2 ^ 52 :=
    (it_le_runCalls _ cs).trans (hit.trans (by decide))
  obtain ⟨own, ht⟩ := runCalls_tables ht₀.anyLeaf hb hit₀
  exact consumesExactly_of_tables ht h₄ hh hit

/-- Calls after several others: for two pages of a new region of 2 MB, for one of a new gigabyte,
    and for one page once more, of a frame that is not aligned. -/
theorem consumesExactly_several :
    ConsumesExactly (runCalls (setupPhysicalMap (.boot fun _ => 0) (2 ^ 30)) severalCalls)
      [.map4kb 0xFFFF900000400000 0x103000, .map4kb 0xFFFF900000401000 0x104000,
        .map4kb 0xFFFF900040000000 0x105000, .map4kb 0xFFFF900000400000 0x106800] := by
  have hcs : CallsOk (setupPhysicalMap (.boot fun _ => 0) (2 ^ 30)) (severalCalls ++
      [.map4kb 0xFFFF900000400000 0x103000, .map4kb 0xFFFF900000401000 0x104000,
        .map4kb 0xFFFF900040000000 0x105000]) :=
    callsOk_start _ (by decide) (by decide) (by decide) (by decide)
  obtain ⟨own, ht⟩ := pageTree_setupPhysicalMap (fun _ => 0) (2 ^ 30)
  obtain ⟨own', ht'⟩ := ((refines_setupPhysicalMap (fun _ => 0) (2 ^ 30)).runCalls hcs).tree
  have hv := (noLargeAt_start (m := fun _ => 0) (v := 0xFFFF900000400000)
    (show 2 ^ 30 ≤ 511 * 2 ^ 30 by decide) (by decide) (by decide)).runCalls ht hcs (by decide)
  have hh := noHugeMet_concat hcs.noHugeMet
    (NoLargeAt.not_huge (c := .map4kb 0xFFFF900000400000 0x106800) ht' hv)
  rw [List.append_assoc, noHugeMet_append] at hh
  refine consumesExactly (fun _ => 0) (2 ^ 30) hh.1 ?_ hh.2 ?_
  · exact List.forall_mem_cons.2 ⟨⟨_, _, rfl⟩, List.forall_mem_cons.2 ⟨⟨_, _, rfl⟩,
      List.forall_mem_cons.2 ⟨⟨_, _, rfl⟩, List.forall_mem_singleton.2 ⟨_, _, rfl⟩⟩⟩⟩
  · rw [← runCalls_append]
    exact (runCalls_start_it_le _ _ _).trans (by decide)

end order

end Cboot
