import Cboot.Paging.PhysicalMap

/-!
# The page tables refine a map

What the page tables are for, whatever their shape: a map from virtual addresses to
translations (`PageMap`), of which a call of a mapping function updates one page or one
region of 2 MB (`PageMap.call`). The tables refine such a map if they are a tree and
walking them gives its translations (`Refines`):

* `Refines.run`, `Refines.runCalls`: every call, and every sequence of calls, keeps the
  refinement;
* `call_lastCall`: after a sequence of calls, the map gives the translation of the last
  one that covers the address;
* `pageWalk_runCalls`: so does walking the tables, once physical memory is mapped.

The tables are in the first 2 MB, which the code reaches through the boot tables:
`pageWalk_low` shows that this remains so.
-/

namespace Cboot

/-- Of updates that override one another, the last one that covers a place counts there. -/
theorem foldl_override {ι α β : Type*} (C : ι → α → Prop) [∀ x v, Decidable (C x v)]
    (T : ι → α → β) (xs : List ι) (f : α → Option β) (v : α) :
    xs.foldl (fun f x v => if C x v then some (T x v) else f v) f v =
      ((xs.reverse.find? fun x => C x v).map fun x => T x v).or (f v) := by
  induction xs generalizing f with
  | nil => rfl
  | cons x xs ih =>
    rw [List.foldl_cons, ih, List.reverse_cons, List.find?_append]
    cases xs.reverse.find? fun x => C x v with
    | some y => rfl
    | none =>
      rw [Option.none_or, Option.map_none, Option.none_or, List.find?_singleton]
      by_cases h : C x v <;> simp [h]

/-- A map of virtual addresses. -/
abbrev PageMap := ℕ → Option Translation

namespace PageMap

/-- The map after a call. -/
def call (f : PageMap) (c : Call) : PageMap := fun v =>
  if c.Covers v then some (c.translation v) else f v

/-- The last of the calls that covers the address `v`. -/
def lastCall (cs : List Call) (v : ℕ) : Option Call := cs.reverse.find? fun c => c.Covers v

theorem call_lastCall (f : PageMap) (cs : List Call) (v : ℕ) :
    cs.foldl call f v = ((lastCall cs v).map fun c => c.translation v).or (f v) :=
  foldl_override Call.Covers Call.translation cs f v

end PageMap

/-- The tables in memory are a tree, walking which gives the translations of the map. -/
structure Refines (st : PagingState) (f : PageMap) : Prop where
  tree : ∃ own, PageTree st.mem st.it own
  walk : ∀ v, pageWalk st.mem 0x1000 v = f v

/-- What a call needs: its frame is aligned, its address is not in the first 2 MB, it
    meets no large page on its way down, and the pool stays below the boot stack. -/
structure Call.Ok (st : PagingState) (c : Call) : Prop where
  aligned : c.Aligned
  two_mb_le : 2 ^ 21 ≤ c.va % 2 ^ 48
  not_huge : ¬HugeOnPath st.mem c.path 0x1000
  it_le : (c.run st).it ≤ 0x6F000

/-- The calls, one after the other. -/
def runCalls (st : PagingState) (cs : List Call) : PagingState := cs.foldl Call.run st

theorem runCalls_append (st : PagingState) (cs cs' : List Call) :
    runCalls st (cs ++ cs') = runCalls (runCalls st cs) cs' := List.foldl_append

theorem runCalls_it_le (st : PagingState) (cs : List Call) :
    (runCalls st cs).it ≤ st.it + 0x3000 * cs.length := by
  induction cs generalizing st with
  | nil => exact le_rfl
  | cons c cs ih =>
    have h₁ := c.run_it_le st
    have h₂ := ih (c.run st)
    rw [List.length_cons]
    exact h₂.trans (by omega)

/-- Every call finds what it needs. -/
def CallsOk : PagingState → List Call → Prop
  | _, [] => True
  | st, c :: cs => c.Ok st ∧ CallsOk (c.run st) cs

section Refines

variable {st : PagingState} {f : PageMap} {c : Call} {cs : List Call} {v : ℕ}

theorem Refines.run (h : Refines st f) (hc : c.Ok st) : Refines (c.run st) (f.call c) := by
  obtain ⟨own, ht⟩ := h.tree
  have hit : (c.run st).it ≤ 2 ^ 52 := hc.it_le.trans (by decide)
  obtain ⟨own', ht', hw, _⟩ := Call.run_spec ht hc.not_huge hc.aligned hit
  refine ⟨⟨own', ht'⟩, fun v => ?_⟩
  rw [hw v, h.walk v]
  rfl

theorem Refines.runCalls (h : Refines st f) (hcs : CallsOk st cs) :
    Refines (runCalls st cs) (cs.foldl PageMap.call f) := by
  induction cs generalizing st f with
  | nil => exact h
  | cons c cs ih => exact ih (h.run hcs.1) hcs.2

/-- Calls not in the first 2 MB keep its translations. -/
theorem runCalls_low (h : Refines st f) (hcs : CallsOk st cs) (hv : v < 2 ^ 21) :
    pageWalk (Cboot.runCalls st cs).mem 0x1000 v = f v := by
  rw [(h.runCalls hcs).walk]
  clear h
  induction cs generalizing st f with
  | nil => rfl
  | cons c cs ih =>
    rw [List.foldl_cons, ih hcs.2, PageMap.call, if_neg]
    have hc := hcs.1.two_mb_le
    cases c with
    | map4kb va pa => simp only [Call.Covers, Call.va] at hc ⊢; omega
    | map2mb va pa => simp only [Call.Covers, Call.va] at hc ⊢; omega

end Refines

/-! ## Calls that meet no large page -/

section large

open Radix

variable {m : Memory} {it : ℕ} {st : PagingState} {own : Owners} {c : Call} {cs : List Call}
  {v : ℕ}

/-- The walk for the address finds no large page. -/
def NoLargeAt (m : Memory) (v : ℕ) : Prop :=
  ∀ hit, walk (entries m) (indices v) 0x1000 = some hit → hit.rest = []

theorem Call.path_prefix (c : Call) : c.path <+: indices c.va := by
  cases c with
  | map4kb va pa => exact ⟨[l1Index va], rfl⟩
  | map2mb va pa => exact ⟨[l2Index va, l1Index va], rfl⟩

theorem Call.length_path_le (c : Call) : c.path.length ≤ 3 := by
  cases c <;> simp [path]

/-- A call for such an address meets none either. -/
theorem NoLargeAt.not_huge (ht : PageTree m it own) (h : NoLargeAt m c.va) :
    ¬HugeOnPath m c.path 0x1000 := by
  intro hh
  obtain ⟨d, hd⟩ := c.path_prefix
  have hlen := congrArg List.length hd
  rw [List.length_append, length_indices] at hlen
  obtain ⟨hit, hwalk, hne⟩ := ht.exists_walk_of_huge ht.root (by simpa using c.length_path_le) hh d
    (by simpa using hlen)
  rw [hd] at hwalk
  exact hne (h hit hwalk)

/-- A call for a page of 4 KB, or for another address, puts no large page there. -/
theorem NoLargeAt.run (ht : PageTree st.mem st.it own) (h : NoLargeAt st.mem v) (hc : c.Ok st)
    (hs : c.path.length = 3 ∨ ¬c.Covers v) : NoLargeAt (c.run st).mem v := by
  obtain ⟨hin, hout⟩ := Call.run_walk ht hc.aligned hc.not_huge (hc.it_le.trans (by decide))
    (length_indices v)
  intro hit hwalk
  by_cases hv : c.Covers v
  · obtain ⟨q, hq⟩ := Call.covers_iff.1 hv
    have hlen := congrArg List.length hq
    rw [List.length_append, List.length_append, List.length_singleton, length_indices] at hlen
    have hthree := hs.resolve_right (not_not_intro hv)
    obtain rfl : q = [] := List.eq_nil_of_length_eq_zero (by omega)
    rw [List.append_nil] at hq
    obtain ⟨ls, _, hwalk'⟩ := hin [] hq.symm
    rw [hwalk'] at hwalk
    exact Option.some.inj hwalk ▸ rfl
  · exact h hit ((hout fun hpre => hv (Call.covers_iff.2 hpre)).symm.trans hwalk)

theorem NoLargeAt.runCalls (ht : PageTree st.mem st.it own) (h : NoLargeAt st.mem v)
    (hcs : CallsOk st cs) (hs : ∀ c ∈ cs, c.path.length = 3 ∨ ¬c.Covers v) :
    NoLargeAt (Cboot.runCalls st cs).mem v := by
  induction cs generalizing st own with
  | nil => exact h
  | cons c cs ih =>
    obtain ⟨hc, hcs⟩ := hcs
    obtain ⟨own', ht', _⟩ := Call.run_spec ht hc.not_huge hc.aligned (hc.it_le.trans (by decide))
    exact ih ht' (h.run ht hc (hs c List.mem_cons_self)) hcs fun c hc =>
      hs c (List.mem_cons_of_mem _ hc)

/-- Calls where there are no large pages find what they need, if none of them puts a large page in
    the way of one after it. -/
theorem callsOk_of_noLargeAt (ht : PageTree st.mem st.it own)
    (ha : ∀ c ∈ cs, c.Aligned ∧ 2 ^ 21 ≤ c.va % 2 ^ 48) (h : ∀ c ∈ cs, NoLargeAt st.mem c.va)
    (hp : cs.Pairwise fun c c' => c.path.length = 3 ∨ ¬c.Covers c'.va)
    (hit : st.it + 0x3000 * cs.length ≤ 0x6F000) : CallsOk st cs := by
  induction cs generalizing st own with
  | nil => trivial
  | cons c cs ih =>
    rw [List.length_cons] at hit
    obtain ⟨hfirst, hp⟩ := List.pairwise_cons.1 hp
    obtain ⟨haligned, hva⟩ := ha c List.mem_cons_self
    have hle := Call.run_it_le st c
    have hok : c.Ok st := ⟨haligned, hva, (h c List.mem_cons_self).not_huge ht, by omega⟩
    obtain ⟨own', ht', _⟩ := Call.run_spec ht hok.not_huge hok.aligned
      (hok.it_le.trans (by decide))
    exact ⟨hok, ih ht' (fun c hc => ha c (List.mem_cons_of_mem _ hc))
      (fun c' hc' => (h c' (List.mem_cons_of_mem _ hc')).run ht hok (hfirst c' hc')) hp (by omega)⟩

end large

/-! ## After the map of physical memory -/

section physicalMap

variable {m : Memory} {total : ℕ} {cs : List Call} {v : ℕ}

theorem refines_setupPhysicalMap (m : Memory) (total : ℕ) :
    Refines (setupPhysicalMap (.boot m) total)
      (pageWalk (setupPhysicalMap (.boot m) total).mem 0x1000) :=
  ⟨pageTree_setupPhysicalMap m total, fun _ => rfl⟩

/-- The boot tables map the first 2 MB to themselves. -/
theorem pageWalk_boot_low (m : Memory) (hv : v < 2 ^ 21) :
    pageWalk (setupAndEnablePaging m) 0x1000 v = some ⟨v, true⟩ := by
  have h₄ : l4Index v = 0 := Fin.ext (show v / 2 ^ 39 % 2 ^ 9 = 0 by omega)
  have h₃ : l3Index v = 0 := Fin.ext (show v / 2 ^ 30 % 2 ^ 9 = 0 by omega)
  have h₂ : l2Index v = 0 := Fin.ext (show v / 2 ^ 21 % 2 ^ 9 = 0 by omega)
  have h₁ : (l1Index v).val = v / 2 ^ 12 := show v / 2 ^ 12 % 2 ^ 9 = v / 2 ^ 12 by omega
  have hp : entries (setupAndEnablePaging m) 0 0x4000 (l1Index v) =
      .leaf true (0x1000 * (v / 2 ^ 12)) := by
    rw [entries, tableEntry_boot m _ (by decide), if_pos rfl, h₁]
    exact slot_page (by omega) (by omega)
  have hl : ∀ r t, r ≠ 0 → t = 0x1000 ∨ t = 0x2000 ∨ t = 0x3000 →
      entries (setupAndEnablePaging m) r t 0 = .link true (t + 0x1000) := by
    intro r t hr ht
    rw [entries, tableEntry_boot m _ (by omega), if_neg (by omega), if_pos rfl]
    exact slot_link hr (by omega) (by omega)
  have e₃ := hl 3 0x1000 (by decide) (by decide)
  have e₂ := hl 2 0x2000 (by decide) (by decide)
  have e₁ := hl 1 0x3000 (by decide) (by decide)
  have hv' : 0x1000 * (v / 2 ^ 12) + v % 2 ^ 12 = v := by omega
  rw [pageWalk, indices, h₄, h₃, h₂, walk_of_links e₃ e₂ e₁ hp, Option.map_some]
  simp only [List.length_nil, Nat.mul_zero, Nat.add_zero, hv']
  rfl

/-- The first 2 MB, with the tables, remain mapped to themselves. -/
theorem pageWalk_low (htotal : total ≤ 511 * 2 ^ 30)
    (hcs : CallsOk (setupPhysicalMap (.boot m) total) cs) (hv : v < 2 ^ 21) :
    pageWalk (runCalls (setupPhysicalMap (.boot m) total) cs).mem 0x1000 v = some ⟨v, true⟩ := by
  have hn := numGigs_eq (show total < 2 ^ 63 by omega)
  rw [runCalls_low (refines_setupPhysicalMap m total) hcs hv, ← pageWalk_boot_low m hv]
  exact pageWalk_of_not_physical (by omega) (.inl (by omega)) (by omega)

/-- At first, only the first index of the level 4 and that of the map are used. -/
theorem tableEntry_start (htotal : total ≤ 511 * 2 ^ 30) {i : Fin 512} (h₀ : i ≠ 0)
    (h₁ : i ≠ 256) : tableEntry (setupPhysicalMap (.boot m) total).mem 0x1000 i = 0 := by
  have hn := numGigs_eq (show total < 2 ^ 63 by omega)
  have ht := pageTree_start m
  have hit := boot_it_lt m
  have hs : physicalSlot (numGigs total) = 256 := physicalSlot_eq_iff.2 (by omega)
  rw [setupPhysicalMap, tableEntry_mapPhysicalMemory ht hit ht.root, hs,
    if_neg fun h => h₁ h.2, PagingState.boot, tableEntry_boot m i (.inl rfl), if_neg (by decide),
    if_neg h₀]

theorem not_hugeOnPath_start (htotal : total ≤ 511 * 2 ^ 30) {i : Fin 512} (h₀ : i ≠ 0)
    (h₁ : i ≠ 256) (q : List (Fin 512)) :
    ¬HugeOnPath (setupPhysicalMap (.boot m) total).mem (i :: q) 0x1000 := by
  rintro ⟨hp, _⟩
  rw [tableEntry_start htotal h₀ h₁] at hp
  exact absurd hp (by decide)

/-- After any calls, an address has the translation of the last call that covers it, and
    its translation before the calls if there is none. -/
theorem pageWalk_runCalls (hcs : CallsOk (setupPhysicalMap (.boot m) total) cs) (v : ℕ) :
    pageWalk (runCalls (setupPhysicalMap (.boot m) total) cs).mem 0x1000 v =
      ((PageMap.lastCall cs v).map fun c => c.translation v).or
        (pageWalk (setupPhysicalMap (.boot m) total).mem 0x1000 v) := by
  rw [((refines_setupPhysicalMap m total).runCalls hcs).walk, PageMap.call_lastCall]

/-- A few calls leave most of the pool. -/
theorem runCalls_start_it_le (m : Memory) (total : ℕ) (cs : List Call) :
    (runCalls (setupPhysicalMap (.boot m) total) cs).it ≤ 0x21000 + 0x3000 * cs.length := by
  have hit : (setupPhysicalMap (.boot m) total).it = 0x21000 := mapPhysicalMemory_it _ _
  exact hit ▸ runCalls_it_le _ cs

theorem run_start_it_le (m : Memory) (total : ℕ) (c : Call) :
    (c.run (setupPhysicalMap (.boot m) total)).it ≤ 0x6F000 :=
  (runCalls_start_it_le m total [c]).trans (show 0x21000 + 0x3000 * 1 ≤ 0x6F000 by decide)

/-- Nor are there large pages. -/
theorem noLargeAt_start (htotal : total ≤ 511 * 2 ^ 30) (h₀ : l4Index v ≠ 0)
    (h₁ : l4Index v ≠ 256) : NoLargeAt (setupPhysicalMap (.boot m) total).mem v := by
  have hempty : entries (setupPhysicalMap (.boot m) total).mem 3 0x1000 (l4Index v) = .empty := by
    rw [entries, tableEntry_start htotal h₀ h₁, slot_zero]
  have hnone : ∀ q : List (Fin 512), q.length = 3 →
      Radix.walk (entries (setupPhysicalMap (.boot m) total).mem) (l4Index v :: q) 0x1000 =
        none := fun q hq => by rw [Radix.walk, hq, hempty]
  intro hit hwalk
  rw [indices, hnone _ rfl] at hwalk
  cases hwalk

/-- Calls for pages of the kernel. -/
theorem callsOk_start (m : Memory) (htotal : total ≤ 511 * 2 ^ 30)
    (ha : ∀ c ∈ cs, (c.Aligned ∧ 2 ^ 21 ≤ c.va % 2 ^ 48) ∧ l4Index c.va ≠ 0 ∧ l4Index c.va ≠ 256)
    (hp : cs.Pairwise fun c c' => c.path.length = 3 ∨ ¬c.Covers c'.va) (hlen : cs.length ≤ 26) :
    CallsOk (setupPhysicalMap (.boot m) total) cs := by
  obtain ⟨own, ht⟩ := pageTree_setupPhysicalMap m total
  have hit : (setupPhysicalMap (.boot m) total).it = 0x21000 := mapPhysicalMemory_it _ _
  exact callsOk_of_noLargeAt ht (fun c hc => (ha c hc).1)
    (fun c hc => noLargeAt_start htotal (ha c hc).2.1 (ha c hc).2.2) hp (by omega)

/-- Calls that share their tables: two pages, a large one, and the first page once more. -/
def severalCalls : List Call :=
  [.map4kb 0xFFFF900000000000 0x100000, .map4kb 0xFFFF900000001000 0x101000,
    .map2mb 0xFFFF900000200000 0x400000, .map4kb 0xFFFF900000000000 0x102000]

theorem callsOk_several (m : Memory) (htotal : total ≤ 511 * 2 ^ 30) :
    CallsOk (setupPhysicalMap (.boot m) total) severalCalls :=
  callsOk_start m htotal (by decide) (by decide) (by decide)

theorem pageWalk_runCalls_several :
    let m := (runCalls (setupPhysicalMap (.boot fun _ => 0) (2 ^ 30)) severalCalls).mem
    pageWalk m 0x1000 0xFFFF900000000042 = some ⟨0x102042, true⟩ ∧
      pageWalk m 0x1000 0xFFFF900000001042 = some ⟨0x101042, true⟩ ∧
      pageWalk m 0x1000 0xFFFF900000200042 = some ⟨0x400042, true⟩ := by
  have hcs := callsOk_several (fun _ => 0) (show 2 ^ 30 ≤ 511 * 2 ^ 30 by decide)
  refine ⟨?_, ?_, ?_⟩
  · rw [pageWalk_runCalls hcs]
    rfl
  · rw [pageWalk_runCalls hcs]
    rfl
  · rw [pageWalk_runCalls hcs]
    rfl

end physicalMap

end Cboot
