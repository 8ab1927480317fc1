import Cboot.Paging.Refinement

/-!
# The shape of the page tables

Whatever the frames that the mapping functions are asked for, aligned or not, the tables
keep their shape, as long as no call meets a large page on its way down (`NoHugeMet`):
`runCalls_tables`.

The shape is told in the terms of the code, by the tables that following links from the
level 4 reaches (`Reaches`): `runCalls_tablesFormTree` says that they form a tree of boot
tables and of pages from the pool, in which what is not present is zero.
-/

namespace Cboot

open PageTableEntry

/-- No call meets a large page on its way down. -/
def NoHugeMet : PagingState → List Call → Prop
  | _, [] => True
  | st, c :: cs => ¬HugeOnPath st.mem c.path 0x1000 ∧ NoHugeMet (c.run st) cs

/-- Any entry for a page, whatever its frame. -/
def AnyLeaf (_ : List (Fin 512)) (_ : ℕ) : Prop := True

theorem PageTree.anyLeaf {m : Memory} {it : ℕ} {own : Owners} (ht : PageTree m it own) :
    TableTree AnyLeaf m it own := ht.tables.mono fun _ _ _ => trivial

section runCalls

variable {st : PagingState} {own : Owners} {c : Call} {cs : List Call}

theorem CallsOk.noHugeMet (h : CallsOk st cs) : NoHugeMet st cs := by
  induction cs generalizing st with
  | nil => trivial
  | cons c cs ih => exact ⟨h.1.not_huge, ih h.2⟩

theorem noHugeMet_append {cs' : List Call} :
    NoHugeMet st (cs ++ cs') ↔ NoHugeMet st cs ∧ NoHugeMet (runCalls st cs) cs' := by
  induction cs generalizing st with
  | nil => exact (iff_of_eq (true_and _)).symm
  | cons c cs ih => exact (and_congr_right fun _ => ih).trans and_assoc.symm

theorem noHugeMet_concat (h : NoHugeMet st cs)
    (hc : ¬HugeOnPath (runCalls st cs).mem c.path 0x1000) : NoHugeMet st (cs ++ [c]) :=
  noHugeMet_append.2 ⟨h, hc, trivial⟩

theorem it_le_runCalls (st : PagingState) (cs : List Call) : st.it ≤ (runCalls st cs).it := by
  induction cs generalizing st with
  | nil => exact le_rfl
  | cons c cs ih => exact (c.it_le_run st).trans (ih _)

theorem runCalls_tables (ht : TableTree AnyLeaf st.mem st.it own) (hh : NoHugeMet st cs)
    (hit : (runCalls st cs).it ≤ 2 ^ 52) :
    ∃ own', TableTree AnyLeaf (runCalls st cs).mem (runCalls st cs).it own' := by
  induction cs generalizing st own with
  | nil => exact ⟨own, ht⟩
  | cons c cs ih =>
    obtain ⟨own', ht', _⟩ := c.run_tables ht trivial hh.1 ((it_le_runCalls _ cs).trans hit)
    exact ih ht' hh.2 hit

end runCalls

/-! ## The tables reached -/

/-- The entry `e` of a table at the path `p` leads to another table. -/
def IsLink (p : List (Fin 512)) (e : ℕ) : Prop := present e = 1 ∧ ¬IsLeaf p e

/-- Following links from the table of the level 4, the path `p` reaches the table at `t`. -/
inductive Reaches (m : Memory) : List (Fin 512) → (t : ℕ) → Prop
  | root : Reaches m [] 0x1000
  | link {p : List (Fin 512)} {t : ℕ} {i : Fin 512} : Reaches m p t →
      IsLink p (tableEntry m t i) → Reaches m (p ++ [i]) (getPteAddress (tableEntry m t i))

/-- A page that may be linked to as a table: another boot table than the first one, or a
    page that the pool has handed out. -/
def LinkedPage (it t : ℕ) : Prop :=
  t % 0x1000 = 0 ∧ (0x2000 ≤ t ∧ t ≤ 0x4000 ∨ 0x20000 ≤ t ∧ t + 0x1000 ≤ it)

/-- The tables that are reached form a tree of boot tables and pages from the pool: no
    table is linked to from two entries, and what is not present is zero. -/
structure TablesFormTree (st : PagingState) : Prop where
  link : ∀ {p t} i, Reaches st.mem p t → IsLink p (tableEntry st.mem t i) →
    LinkedPage st.it (getPteAddress (tableEntry st.mem t i))
  unique : ∀ {p p' t t'} i i', Reaches st.mem p t → Reaches st.mem p' t' →
    IsLink p (tableEntry st.mem t i) → IsLink p' (tableEntry st.mem t' i') →
    getPteAddress (tableEntry st.mem t i) = getPteAddress (tableEntry st.mem t' i') →
    t = t' ∧ i = i'
  zero : ∀ {p t} i, Reaches st.mem p t → present (tableEntry st.mem t i) = 0 →
    tableEntry st.mem t i = 0

/-- A path reaches one table at most. -/
theorem Reaches.unique {m : Memory} {p : List (Fin 512)} {t t' : ℕ} (h : Reaches m p t)
    (h' : Reaches m p t') : t = t' := by
  induction h generalizing t' with
  | root =>
    generalize hp : ([] : List (Fin 512)) = p at h'
    cases h' with
    | root => rfl
    | link _ _ => exact absurd hp (by simp)
  | @link p t i h _ ih =>
    generalize hp : p ++ [i] = p' at h'
    cases h' with
    | root => exact absurd hp (by simp)
    | @link q s j hs _ =>
      obtain ⟨rfl, hi⟩ := List.append_inj' hp rfl
      obtain rfl := List.singleton_inj.1 hi
      rw [ih hs]

namespace TableTree

variable {Leaf : List (Fin 512) → ℕ → Prop} {st : PagingState} {own : Owners}
  {p : List (Fin 512)} {t : ℕ} {i : Fin 512}

/-- What a link of the tree leads to is owned by its path. -/
theorem own_of_isLink (ht : TableTree Leaf st.mem st.it own) (h : own t = some p)
    (hl : IsLink p (tableEntry st.mem t i)) :
    own (getPteAddress (tableEntry st.mem t i)) = some (p ++ [i]) := by
  obtain ⟨hpres, hleaf⟩ := hl
  obtain ⟨_, t', hown', hentry⟩ := ht.entry_eq_link h (by rw [hpres]; decide) hleaf
  rw [hentry, ht.getPteAddress_table hown']
  exact hown'

/-- The tables that are reached are owned by the paths that reach them. -/
theorem own_of_reaches (ht : TableTree Leaf st.mem st.it own) (h : Reaches st.mem p t) :
    own t = some p := by
  induction h with
  | root => exact ht.root
  | link _ hl ih => exact ht.own_of_isLink ih hl

theorem formTree (ht : TableTree Leaf st.mem st.it own) : TablesFormTree st where
  link := fun {p t} i h hl => by
    have hown := ht.own_of_isLink (ht.own_of_reaches h) hl
    obtain ⟨ha, _, hpage⟩ := ht.page hown
    refine ⟨ha, hpage.imp_left fun hboot => ⟨?_, by omega⟩⟩
    -- The first boot table is the root, to which no entry links.
    have hne : getPteAddress (tableEntry st.mem t i) ≠ 0x1000 := by
      intro heq
      rw [heq, ht.root] at hown
      exact absurd (Option.some.inj hown) (by simp)
    omega
  unique := fun {p p' t t'} i i' h h' hl hl' heq => by
    have hown := ht.own_of_isLink (ht.own_of_reaches h) hl
    rw [heq, ht.own_of_isLink (ht.own_of_reaches h') hl'] at hown
    obtain ⟨rfl, hi⟩ := List.append_inj' (Option.some.inj hown) rfl
    exact ⟨h.unique h', (List.singleton_inj.1 hi).symm⟩
  zero := fun _ h hp => ht.entry_eq_zero (ht.own_of_reaches h) hp

end TableTree

/-! ## After any calls -/

/-- From the boot tables on, after the map of physical memory, of any size, and any calls that
    meet no large page. -/
theorem runCalls_tablesFormTree (m : Memory) (total : ℕ) {cs : List Call}
    (hh : NoHugeMet (setupPhysicalMap (.boot m) total) cs)
    (hit : (runCalls (setupPhysicalMap (.boot m) total) cs).it ≤ 0x6F000) :
    TablesFormTree (runCalls (setupPhysicalMap (.boot m) total) cs) := by
  obtain ⟨own, ht⟩ := pageTree_setupPhysicalMap m total
  obtain ⟨_, ht'⟩ := runCalls_tables ht.anyLeaf hh (hit.trans (by decide))
  exact ht'.formTree

/-- After several calls, one for a frame that is not aligned. -/
theorem runCalls_tablesFormTree_several :
    TablesFormTree (runCalls (setupPhysicalMap (.boot fun _ => 0) (2 ^ 30))
      (severalCalls ++ [.map4kb 0xFFFF900000002000 0x103800])) := by
  obtain ⟨own, ht⟩ := pageTree_setupPhysicalMap (fun _ => 0) (2 ^ 30)
  have hcs := callsOk_several (fun _ => 0) (show 2 ^ 30 ≤ 511 * 2 ^ 30 by decide)
  have hv := (noLargeAt_start (m := fun _ => 0) (v := 0xFFFF900000002000)
    (show 2 ^ 30 ≤ 511 * 2 ^ 30 by decide) (by decide) (by decide)).runCalls ht hcs (by decide)
  obtain ⟨own', ht'⟩ := ((refines_setupPhysicalMap (fun _ => 0) (2 ^ 30)).runCalls hcs).tree
  refine runCalls_tablesFormTree _ _ (noHugeMet_concat hcs.noHugeMet ?_) ?_
  · exact NoLargeAt.not_huge (c := .map4kb 0xFFFF900000002000 0x103800) ht' hv
  · exact (runCalls_start_it_le _ _ _).trans (by decide)

end Cboot
