import Cboot.Paging.Tables
import Mathlib.Logic.Function.Basic

/-!
# The page tables form a tree

What the mapping functions keep true of the tables in memory (`TableTree`): every
table is a page of the boot tables or of the pool, owned by the one path of indices
that leads to it, and all its entries are zero, a link to a table owned by the path
of the entry, or for a page. Which entries for pages there may be is a parameter: any
at all, or only pages of the size of their level (`PageTree`), which is what the
processor needs.

Each of the two ways of changing the tables keeps the tree, and says what becomes of
the page walks: a page taken from the pool (`TableTree.alloc`), and an entry stored
(`TableTree.setEntry`). The mapping functions put them together.
-/

namespace Cboot

open Bitfield PageTableEntry Radix

/-! ## Entries in memory -/

section tableEntry

variable {m : Memory} {t t₀ x : ℕ} {i j : Fin 512}

theorem tableEntry_write (m : Memory) (t : ℕ) (i : Fin 512) (e : ℕ) :
    tableEntry (m.write 8 (t + 8 * i) e) t i = e % 2 ^ 64 := Memory.read_write m 8 _ e

/-- Storing an entry keeps the others. -/
theorem tableEntry_write_of_ne {n e : ℕ} (hn : n ≤ 8) (ht : t % 0x1000 = 0)
    (ht₀ : t₀ % 0x1000 = 0) (h : ¬(t = t₀ ∧ i = j)) :
    tableEntry (m.write n (t₀ + 8 * j) e) t i = tableEntry m t i := by
  refine Memory.read_write_of_disjoint ?_
  have := i.isLt
  have := j.isLt
  have hne : t + 8 * i.val ≠ t₀ + 8 * j.val := by
    intro heq
    exact h ⟨by omega, Fin.ext (by omega)⟩
  omega

/-- Storing a doubleword into an entry of zeros. -/
theorem tableEntry_write_four {e : ℕ} (he : e < 2 ^ 32) (h : tableEntry m t i = 0) :
    tableEntry (m.write 4 (t + 8 * i) e) t i = e := by
  have hm : m.read 8 (t + 8 * i) = _ := m.read_add 4 4 (t + 8 * i)
  have hw : (m.write 4 (t + 8 * i) e).read 8 (t + 8 * i) = _ :=
    (m.write 4 (t + 8 * i) e).read_add 4 4 (t + 8 * i)
  rw [Memory.read_write_of_lt m 4 _ he, Memory.read_write_of_disjoint (.inr le_rfl)] at hw
  rw [tableEntry] at h ⊢
  rw [h] at hm
  rw [hw]
  omega

/-- Filling a page keeps the entries of the others. -/
theorem tableEntry_fill_of_ne {b : UInt8} (h : t + 0x1000 ≤ x ∨ x + 0x1000 ≤ t) :
    tableEntry (m.fill x 0x1000 b) t i = tableEntry m t i := by
  have := i.isLt
  exact Memory.read_congr fun j hj => Memory.fill_of_not_mem (by omega)

/-- The entries of a page of zeros. -/
theorem tableEntry_fill_self (m : Memory) (t : ℕ) (i : Fin 512) :
    tableEntry (m.fill t 0x1000 0) t i = 0 := by
  have := i.isLt
  exact Memory.read_eq_zero fun j hj => Memory.fill_of_mem (by omega) (by omega)

end tableEntry

/-! ## The tree -/

/-- Which path of indices leads to a table. -/
abbrev Owners := ℕ → Option (List (Fin 512))

/-- The entry `e` of a table owned by `p` is for a page: it is present, and it is in a
    table of the level 1 or, below the level 4, for a large page. -/
def IsLeaf (p : List (Fin 512)) (e : ℕ) : Prop :=
  present e = 1 ∧ (p.length = 3 ∨ p.length ≠ 0 ∧ hugePage e = 1)

/-- The values of the entry `i` of a table owned by `p`, those for pages being in `Leaf`. -/
inductive NodeOk (Leaf : List (Fin 512) → ℕ → Prop) (own : Owners) (p : List (Fin 512))
    (i : Fin 512) : ℕ → Prop
  | absent : NodeOk Leaf own p i 0
  | table {t : ℕ} : p.length ≤ 2 → own t = some (p ++ [i]) → NodeOk Leaf own p i (t + 3)
  | leaf {e : ℕ} : IsLeaf p e → Leaf p e → NodeOk Leaf own p i e

/-- An entry remains right while the table that it may link to has the same owner. -/
theorem NodeOk.mono {Leaf : List (Fin 512) → ℕ → Prop} {own own' : Owners}
    {p : List (Fin 512)} {i : Fin 512} {e : ℕ} (h : NodeOk Leaf own p i e)
    (hle : ∀ t, own t = some (p ++ [i]) → own' t = some (p ++ [i])) : NodeOk Leaf own' p i e := by
  cases h with
  | absent => exact .absent
  | table hp ht => exact .table hp (hle _ ht)
  | leaf hl he => exact .leaf hl he

/-- The processor reads no link in an entry for a page, whatever the frame in it. -/
theorem IsLeaf.slot_ne_link {p : List (Fin 512)} {e r t : ℕ} {l : Bool} (h : IsLeaf p e)
    (hr : p.length + r + 1 = 4) : slot r e ≠ .link l t := by
  obtain ⟨hp, hl⟩ := h
  simp only [present, hugePage, getField] at hp hl
  intro hs
  rw [slot, if_neg (by omega)] at hs
  split at hs
  · cases hs
  · rw [if_neg (by omega)] at hs
    split at hs <;> cases hs

/-- The tables in `m`, the pool having handed out the pages below `it`, with the entries of
    `Leaf` for pages. -/
structure TableTree (Leaf : List (Fin 512) → ℕ → Prop) (m : Memory) (it : ℕ) (own : Owners) :
    Prop where
  root : own 0x1000 = some []
  page : ∀ {t p}, own t = some p → t % 0x1000 = 0 ∧ p.length ≤ 3 ∧
    (0x1000 ≤ t ∧ t < 0x5000 ∨ 0x20000 ≤ t ∧ t + 0x1000 ≤ it)
  entry : ∀ {t p} (i : Fin 512), own t = some p → NodeOk Leaf own p i (tableEntry m t i)
  pool : it % 0x1000 = 0 ∧ 0x20000 ≤ it ∧ it ≤ 2 ^ 52

namespace TableTree

variable {Leaf : List (Fin 512) → ℕ → Prop} {m : Memory} {it t t₀ r : ℕ} {own : Owners}
  {p p₀ : List (Fin 512)} {i j : Fin 512}

/-- The entries for pages may be in a larger set. -/
theorem mono {Leaf' : List (Fin 512) → ℕ → Prop} (ht : TableTree Leaf m it own)
    (hle : ∀ p e, Leaf p e → Leaf' p e) : TableTree Leaf' m it own := by
  refine ⟨ht.root, ht.page, fun i h => ?_, ht.pool⟩
  have he := ht.entry i h
  generalize tableEntry m _ i = e at he ⊢
  cases he with
  | absent => exact .absent
  | table hp ht' => exact .table hp ht'
  | leaf hl he => exact .leaf hl (hle _ _ he)

theorem lt_of_own (ht : TableTree Leaf m it own) (h : own t = some p) : t < 2 ^ 52 := by
  have := ht.page h
  have := ht.pool
  omega

/-- How the processor reads a link between two tables of the tree. -/
theorem slot_table (ht : TableTree Leaf m it own) (hr : r ≠ 0) (h : own t = some p) :
    slot r (t + 3) = .link true t :=
  slot_link hr (ht.page h).1 (ht.lt_of_own h)

/-- How the code reads it. -/
theorem getPteAddress_table (ht : TableTree Leaf m it own) (h : own t = some p) :
    getPteAddress (t + 3) = t :=
  getPteAddress_add_three (ht.page h).1 (ht.lt_of_own h)

/-- The owners keep the tables apart. -/
theorem owned (ht : TableTree Leaf m it own) : Owned (entries m) 4 0x1000 own where
  root := ht.root
  link := by
    intro t p i r l t' h hr hs
    rw [entries] at hs
    have he := ht.entry i h
    generalize tableEntry m t i = e at he hs
    cases he with
    | absent =>
      rw [slot_zero] at hs
      cases hs
    | table hp ht' =>
      rw [ht.slot_table (by omega) ht'] at hs
      cases hs
      exact ht'
    | leaf hl _ => exact absurd hs (hl.slot_ne_link hr)

/-- An entry that is not present is zero. -/
theorem entry_eq_zero (ht : TableTree Leaf m it own) (h : own t = some p)
    (hp : present (tableEntry m t i) = 0) : tableEntry m t i = 0 := by
  have he := ht.entry i h
  generalize tableEntry m t i = e at he hp ⊢
  cases he with
  | absent => rfl
  | table _ ht' => exact absurd (hp.symm.trans (flags_add_three (ht.page ht').1).1) (by decide)
  | leaf hl _ => exact absurd (hp.symm.trans hl.1) (by decide)

/-- A present entry that is not for a page is a link. -/
theorem entry_eq_link (ht : TableTree Leaf m it own) (h : own t = some p)
    (hp : present (tableEntry m t i) ≠ 0) (hl : ¬IsLeaf p (tableEntry m t i)) :
    p.length ≤ 2 ∧ ∃ t', own t' = some (p ++ [i]) ∧ tableEntry m t i = t' + 3 := by
  have he := ht.entry i h
  generalize tableEntry m t i = e at he hp hl ⊢
  cases he with
  | absent => exact absurd rfl hp
  | table hlen ht' => exact ⟨hlen, _, ht', rfl⟩
  | leaf hl' _ => exact absurd hl' hl

/-! ## Elsewhere in memory -/

/-- The tree only depends on the bytes of its tables. -/
theorem tableEntry_congr (ht : TableTree Leaf m it own) {m' : Memory}
    (h : ∀ x, 0x1000 ≤ x ∧ x < 0x5000 ∨ 0x20000 ≤ x ∧ x < it → m' x = m x)
    (hown : own t = some p) (i : Fin 512) : tableEntry m' t i = tableEntry m t i := by
  have := ht.page hown
  have := i.isLt
  exact Memory.read_congr fun j hj => h _ (by omega)

theorem walk_congr (ht : TableTree Leaf m it own) {m' : Memory}
    (h : ∀ x, 0x1000 ≤ x ∧ x < 0x5000 ∨ 0x20000 ≤ x ∧ x < it → m' x = m x)
    {path : List (Fin 512)} (hpath : path.length = 4) :
    walk (entries m') path 0x1000 = walk (entries m) path 0x1000 :=
  ht.owned.walk_congr hpath fun t p i q hown _ => .inl <| by
    rw [entries, entries, ht.tableEntry_congr h hown]

/-! ## Taking a page from the pool -/

/-- A table of the tree does not meet the next page of the pool. -/
theorem ne_pool (ht : TableTree Leaf m it own) (h : own t = some p) : t + 0x1000 ≤ it := by
  have := ht.page h
  have := ht.pool
  omega

theorem own_pool (ht : TableTree Leaf m it own) : own it = none := by
  refine Option.eq_none_iff_forall_ne_some.2 fun p hp => ?_
  have := ht.ne_pool hp
  omega

/-- The next page of the pool, zeroed, may be given to any owner. -/
theorem alloc (ht : TableTree Leaf m it own) (hp : p.length ≤ 3) (hit : it + 0x1000 ≤ 2 ^ 52) :
    TableTree Leaf (m.fill it 0x1000 0) (it + 0x1000) (Function.update own it (some p)) := by
  have hmono : ∀ {t q}, own t = some q → Function.update own it (some p) t = some q := by
    intro t q h
    rw [Function.update_of_ne, h]
    rintro rfl
    rw [ht.own_pool] at h
    cases h
  have hpool := ht.pool
  refine ⟨hmono ht.root, fun {t q} h => ?_, fun {t q} i h => ?_, by omega⟩
  · by_cases hti : t = it
    · subst hti
      rw [Function.update_self] at h
      cases h
      omega
    · rw [Function.update_of_ne hti] at h
      have := ht.page h
      omega
  · by_cases hti : t = it
    · subst hti
      rw [tableEntry_fill_self]
      exact .absent
    · rw [Function.update_of_ne hti] at h
      rw [tableEntry_fill_of_ne (.inl (ht.ne_pool h))]
      exact (ht.entry i h).mono fun _ => hmono

/-! ## Storing an entry -/

theorem agreeOff (ht : TableTree Leaf m it own) (h₀ : own t₀ = some p₀) (e : ℕ) :
    AgreeOff own t₀ j (entries m) (entries (m.write 8 (t₀ + 8 * j) e)) := by
  intro t p i r h hne
  rw [entries, entries, tableEntry_write_of_ne le_rfl (ht.page h).1 (ht.page h₀).1 hne]

theorem setEntry (ht : TableTree Leaf m it own) (h₀ : own t₀ = some p₀) {e : ℕ} (he : e < 2 ^ 64)
    (hok : NodeOk Leaf own p₀ j e) : TableTree Leaf (m.write 8 (t₀ + 8 * j) e) it own := by
  refine ⟨ht.root, ht.page, fun {t p} i h => ?_, ht.pool⟩
  by_cases hti : t = t₀ ∧ i = j
  · obtain ⟨rfl, rfl⟩ := hti
    obtain rfl := Option.some.inj (h₀.symm.trans h)
    rwa [tableEntry_write, Nat.mod_eq_of_lt he]
  · rw [tableEntry_write_of_ne le_rfl (ht.page h).1 (ht.page h₀).1 hti]
    exact ht.entry i h

end TableTree

/-! ## Pages of the size of their level -/

/-- The values of the entry `i` of a table owned by `p`. -/
inductive EntryOk (own : Owners) (p : List (Fin 512)) (i : Fin 512) : ℕ → Prop
  | absent : EntryOk own p i 0
  | table {t : ℕ} : p.length ≤ 2 → own t = some (p ++ [i]) → EntryOk own p i (t + 3)
  | page {f : ℕ} : p.length = 3 → f % 2 ^ 12 = 0 → f < 2 ^ 52 → EntryOk own p i (f + 3)
  | page2mb {f : ℕ} : p.length = 2 → f % 2 ^ 21 = 0 → f < 2 ^ 52 → EntryOk own p i (f + 0x83)
  | page1gb {f : ℕ} : p.length = 1 → f % 2 ^ 30 = 0 → f < 2 ^ 53 → EntryOk own p i (f + 0x83)

/-- An entry for a page of the size of its level is right whoever owns the tables. -/
def PageLeaf (p : List (Fin 512)) (e : ℕ) : Prop := ∀ own i, EntryOk own p i e

theorem nodeOk_pageLeaf_iff {own : Owners} {p : List (Fin 512)} {i : Fin 512} {e : ℕ} :
    NodeOk PageLeaf own p i e ↔ EntryOk own p i e := by
  constructor
  · rintro (_ | ⟨hp, ht⟩ | ⟨_, he⟩)
    · exact .absent
    · exact .table hp ht
    · exact he own i
  · intro h
    cases h with
    | absent => exact .absent
    | table hp ht => exact .table hp ht
    | page hp ha hf =>
      exact .leaf ⟨(flags_add_three ha).1, .inl hp⟩ fun _ _ => .page hp ha hf
    | @page2mb f hp ha hf =>
      have hflags := flags_huge (n := f) (by omega)
      exact .leaf ⟨hflags.1, .inr ⟨by omega, hflags.2⟩⟩ fun _ _ => .page2mb hp ha hf
    | @page1gb f hp ha hf =>
      have hflags := flags_huge (n := f) (by omega)
      exact .leaf ⟨hflags.1, .inr ⟨by omega, hflags.2⟩⟩ fun _ _ => .page1gb hp ha hf

theorem EntryOk.mono {own own' : Owners} {p : List (Fin 512)} {i : Fin 512} {e : ℕ}
    (h : EntryOk own p i e) (hle : ∀ t, own t = some (p ++ [i]) → own' t = some (p ++ [i])) :
    EntryOk own' p i e :=
  nodeOk_pageLeaf_iff.1 ((nodeOk_pageLeaf_iff.2 h).mono hle)

/-- The tables in `m`, the pool having handed out the pages below `it`. -/
structure PageTree (m : Memory) (it : ℕ) (own : Owners) : Prop where
  root : own 0x1000 = some []
  page : ∀ {t p}, own t = some p → t % 0x1000 = 0 ∧ p.length ≤ 3 ∧
    (0x1000 ≤ t ∧ t < 0x5000 ∨ 0x20000 ≤ t ∧ t + 0x1000 ≤ it)
  entry : ∀ {t p} (i : Fin 512), own t = some p → EntryOk own p i (tableEntry m t i)
  pool : it % 0x1000 = 0 ∧ 0x20000 ≤ it ∧ it ≤ 2 ^ 52

theorem TableTree.pages {m : Memory} {it : ℕ} {own : Owners} (ht : TableTree PageLeaf m it own) :
    PageTree m it own :=
  ⟨ht.root, ht.page, fun i h => nodeOk_pageLeaf_iff.1 (ht.entry i h), ht.pool⟩

namespace PageTree

variable {m : Memory} {it t₀ : ℕ} {own : Owners} {p₀ : List (Fin 512)} {j : Fin 512}

theorem tables (ht : PageTree m it own) : TableTree PageLeaf m it own :=
  ⟨ht.root, ht.page, fun i h => nodeOk_pageLeaf_iff.2 (ht.entry i h), ht.pool⟩

/-- How the processor reads an entry for a page. -/
theorem slot_of_isLeaf (ht : PageTree m it own) {t r : ℕ} {p : List (Fin 512)} {i : Fin 512}
    (h : own t = some p) (hr : p.length + r + 1 = 4) (hl : IsLeaf p (tableEntry m t i)) :
    ∃ f, entries m r t i = .leaf true f := by
  rw [entries]
  have he := ht.entry i h
  generalize tableEntry m t i = e at he hl ⊢
  obtain ⟨hpres, hl⟩ := hl
  cases he with
  | absent => exact absurd hpres (by decide)
  | table hp ht' =>
    have hflags := flags_add_three (ht.page ht').1
    omega
  | page hp hf hlt =>
    obtain rfl : r = 0 := by omega
    exact ⟨_, slot_page hf hlt⟩
  | page2mb hp hf hlt =>
    obtain rfl : r = 1 := by omega
    exact ⟨_, slot_huge_one hf hlt⟩
  | page1gb hp hf _ =>
    obtain rfl : r = 2 := by omega
    exact ⟨_, slot_huge_two hf⟩

/-- How the processor reads the entries of the tree. -/
theorem slot_cases (ht : PageTree m it own) {t r : ℕ} {p : List (Fin 512)} (i : Fin 512)
    (h : own t = some p) (hr : p.length + r + 1 = 4) :
    entries m r t i = .empty ∨ (∃ t', own t' = some (p ++ [i]) ∧ entries m r t i = .link true t') ∨
      ∃ f, entries m r t i = .leaf true f := by
  by_cases hpres : present (tableEntry m t i) = 0
  · refine .inl ?_
    rw [entries, ht.tables.entry_eq_zero h hpres, slot_zero]
  · by_cases hl : IsLeaf p (tableEntry m t i)
    · exact .inr (.inr (ht.slot_of_isLeaf h hr hl))
    · obtain ⟨hp, t', ht', hentry⟩ := ht.tables.entry_eq_link h hpres hl
      refine .inr (.inl ⟨t', ht', ?_⟩)
      rw [entries, hentry]
      exact ht.tables.slot_table (by omega) ht'

/-- Whatever the tree maps is writable. -/
theorem writable (ht : PageTree m it own) {path : List (Fin 512)} (hp : path.length = 4)
    {hit : Hit (Fin 512) Bool ℕ} (h : walk (entries m) path 0x1000 = some hit) :
    hit.labels.all id = true := by
  refine List.all_eq_true.2 (ht.tables.owned.labels (P := (· = true)) ?_ ?_ hp h)
  · intro t p i r l t' h hr hs
    rcases ht.slot_cases i h hr with h' | ⟨t'', _, h'⟩ | ⟨f, h'⟩
    · rw [hs] at h'; cases h'
    · rw [hs] at h'; cases h'; rfl
    · rw [hs] at h'; cases h'
  · intro t p i r l f h hr hs
    rcases ht.slot_cases i h hr with h' | ⟨t'', _, h'⟩ | ⟨f, h'⟩
    · rw [hs] at h'; cases h'
    · rw [hs] at h'; cases h'
    · rw [hs] at h'; cases h'; rfl

theorem congr (ht : PageTree m it own) {m' : Memory}
    (h : ∀ x, 0x1000 ≤ x ∧ x < 0x5000 ∨ 0x20000 ≤ x ∧ x < it → m' x = m x) :
    PageTree m' it own := by
  refine ⟨ht.root, ht.page, fun i hown => ?_, ht.pool⟩
  rw [ht.tables.tableEntry_congr h hown]
  exact ht.entry i hown

end PageTree

/-! ## What the mapping functions change -/

/-- The address is in no page of the tables: neither of the boot tables nor of the pool,
    which has handed out the pages below `it`. -/
def OffTables (it x : ℕ) : Prop := ¬(0x1000 ≤ x ∧ x < 0x5000) ∧ ¬(0x20000 ≤ x ∧ x < it)

/-- Tables are taken from the pool and changed, but nothing else. -/
structure TablesOnly (st st' : PagingState) : Prop where
  it_le : st.it ≤ st'.it
  frame : ∀ x, OffTables st'.it x → st'.mem x = st.mem x

theorem TablesOnly.refl (st : PagingState) : TablesOnly st st := ⟨le_rfl, fun _ _ => rfl⟩

theorem TablesOnly.trans {st₁ st₂ st₃ : PagingState} (h₁ : TablesOnly st₁ st₂)
    (h₂ : TablesOnly st₂ st₃) : TablesOnly st₁ st₃ := by
  have := h₂.it_le
  refine ⟨h₁.it_le.trans this, fun x hx => (h₂.frame x hx).trans (h₁.frame x ⟨hx.1, ?_⟩)⟩
  have := hx.2
  omega

end Cboot
