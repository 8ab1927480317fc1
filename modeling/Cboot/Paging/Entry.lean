import Cboot.Lib.Bitfield
import Cboot.Lib.Memory
import Cboot.Lib.Radix
import Mathlib.Data.Fintype.Basic

/-!
# Page-table entries and the hardware page walk

The entries and addresses of `paging.h`, as the packed unions of the source lay
them out: a bit-field is a range of bits of the raw 64-bit value. The address
field starts at bit 11 and has 42 bits, one more at each end than the hardware's.

The hardware side is the 4-level page walk of x86-64 (`pageWalk`): a lookup in the
radix tree that the entries in memory make (`entries`), read the way the processor
reads them — the frame in the bits 12 to 51, pages of 2 MB and 1 GB at the levels 2
and 3, a fault where an entry is not present or has a reserved bit set. The four
indices are those of the low 48 bits of the virtual address, of which the code and
the processor read the same ones.
-/

namespace Cboot

open Bitfield

/-! ## Entries -/

namespace PageTableEntry

/-! An entry is its raw value. -/

variable (pte : ℕ)

/-- The bit 0. -/
def present : ℕ := getField pte 0 1

/-- The bit 1. -/
def writable : ℕ := getField pte 1 1

/-- The bit 7. -/
def hugePage : ℕ := getField pte 7 1

/-- The field of the address: 42 bits, from the bit 11 on. -/
def addr : ℕ := getField pte 11 42

/-- The bit 0 is assigned. -/
def setPresent (v : ℕ) : ℕ := setField pte 0 1 v

/-- The bit 1 is assigned. -/
def setWritable (v : ℕ) : ℕ := setField pte 1 1 v

/-- The bit 7 is assigned. -/
def setHugePage (v : ℕ) : ℕ := setField pte 7 1 v

/-- The field of the address is assigned. -/
def setAddr (v : ℕ) : ℕ := setField pte 11 42 v

end PageTableEntry

open PageTableEntry

/-- `SET_PTE_ADDRESS` -/
def setPteAddress (pte n : ℕ) : ℕ := setAddr pte (n / 2 ^ 11)

/-- `GET_PTE_ADDRESS` -/
def getPteAddress (pte : ℕ) : ℕ := addr pte * 2 ^ 11

/-- The entry for the frame or the table at `n`, present and writable. -/
def mapEntry (pte n : ℕ) : ℕ :=
  setWritable (setPresent (setPteAddress pte n) 1) 1

theorem mapEntry_zero {n : ℕ} (ha : n % 2 ^ 12 = 0) (hn : n < 2 ^ 52) : mapEntry 0 n = n + 3 := by
  simp only [mapEntry, setPteAddress, setAddr, setPresent, setWritable, setField]
  omega

theorem setHugePage_mapEntry {n : ℕ} (ha : n % 2 ^ 12 = 0) (hn : n < 2 ^ 52) :
    setHugePage (mapEntry 0 n) 1 = n + 0x83 := by
  rw [mapEntry_zero ha hn]
  simp only [setHugePage, setField]
  omega

theorem getPteAddress_add_three {n : ℕ} (ha : n % 2 ^ 12 = 0) (hn : n < 2 ^ 52) :
    getPteAddress (n + 3) = n := by
  simp only [getPteAddress, addr, getField]
  omega

theorem getPteAddress_huge {n : ℕ} (ha : n % 2 ^ 12 = 0) (hn : n < 2 ^ 53) :
    getPteAddress (n + 0x83) = n := by
  simp only [getPteAddress, addr, getField]
  omega

/-- The flags of a link, and of a page of 4 KB. -/
theorem flags_add_three {n : ℕ} (ha : n % 2 ^ 12 = 0) :
    present (n + 3) = 1 ∧ hugePage (n + 3) = 0 := by
  simp only [present, hugePage, getField]
  omega

/-- The flags of a large page. -/
theorem flags_huge {n : ℕ} (ha : n % 2 ^ 12 = 0) :
    present (n + 0x83) = 1 ∧ hugePage (n + 0x83) = 1 := by
  simp only [present, hugePage, getField]
  omega

/-! ## Virtual addresses -/

/-- The index of `w` bits of a table, as a bit-field of an address. -/
def tableIndex (va lo : ℕ) : Fin 512 := ⟨getField va lo 9, Nat.mod_lt _ (by decide)⟩

/-- The index of a table of pages. -/
def l1Index (va : ℕ) : Fin 512 := tableIndex va 12

/-- The index of a table of the level 2. -/
def l2Index (va : ℕ) : Fin 512 := tableIndex va 21

/-- The index of a table of the level 3. -/
def l3Index (va : ℕ) : Fin 512 := tableIndex va 30

/-- The index of the root. -/
def l4Index (va : ℕ) : Fin 512 := tableIndex va 39

/-- The indices of the page of an address, from the level 4 down. -/
def indices (va : ℕ) : List (Fin 512) := [l4Index va, l3Index va, l2Index va, l1Index va]

@[simp] theorem length_indices (va : ℕ) : (indices va).length = 4 := rfl

/-- The addresses the processor takes: the bits 47 to 63 are all the same. -/
def Canonical (va : ℕ) : Prop := va < 2 ^ 47 ∨ 2 ^ 64 - 2 ^ 47 ≤ va ∧ va < 2 ^ 64

instance (va : ℕ) : Decidable (Canonical va) := inferInstanceAs (Decidable (_ ∨ _ ∧ _))

theorem tableIndex_eq_iff {v w lo : ℕ} :
    tableIndex v lo = tableIndex w lo ↔ v / 2 ^ lo % 2 ^ 9 = w / 2 ^ lo % 2 ^ 9 := by
  simp only [tableIndex, getField, Fin.mk.injEq]

/-- Two addresses have the same indices if and only if they are in the same page. -/
theorem indices_eq_iff {v w : ℕ} :
    indices v = indices w ↔ v % 2 ^ 48 / 2 ^ 12 = w % 2 ^ 48 / 2 ^ 12 := by
  simp only [indices, l4Index, l3Index, l2Index, l1Index, List.cons.injEq, tableIndex_eq_iff,
    and_true]
  omega

/-- Two addresses have the same first three indices if and only if they are in the
    same region of 2 MB. -/
theorem indices_region_iff {v w : ℕ} :
    [l4Index v, l3Index v, l2Index v] <+: indices w ↔
      v % 2 ^ 48 / 2 ^ 21 = w % 2 ^ 48 / 2 ^ 21 := by
  simp only [indices, l4Index, l3Index, l2Index, l1Index, List.cons_prefix_cons,
    List.nil_prefix, tableIndex_eq_iff, and_true]
  omega

/-! ## The page walk -/

/-- How the processor reads an entry of a table with `r` levels below it. The label
    is the right to write. -/
def slot (r : ℕ) (e : ℕ) : Slot ℕ Bool ℕ :=
  let writable := e / 2 % 2 == 1
  if e % 2 = 0 then .empty
  else if r = 0 then .leaf writable (e / 2 ^ 12 % 2 ^ 40 * 2 ^ 12)
  else if e / 2 ^ 7 % 2 = 0 then .link writable (e / 2 ^ 12 % 2 ^ 40 * 2 ^ 12)
  else if r ≤ 2 ∧ e / 2 ^ 13 % 2 ^ (9 * r - 1) = 0 then
    .leaf writable (e / 2 ^ (12 + 9 * r) % 2 ^ (40 - 9 * r) * 2 ^ (12 + 9 * r))
  -- a reserved bit is set: the large page is not aligned, or at the level 4
  else .empty

/-- The entry at the index `i` of the table at `t`. -/
def tableEntry (m : Memory) (t : ℕ) (i : Fin 512) : ℕ := m.read 8 (t + 8 * i)

/-- The tables in the memory `m`. -/
def entries (m : Memory) : Radix.Store ℕ (Fin 512) Bool ℕ := fun r t i => slot r (tableEntry m t i)

/-- What the processor makes of a virtual address. -/
structure Translation where
  paddr : ℕ
  writable : Bool
  deriving DecidableEq, Repr

/-- The 4-level page walk from the table at `cr3`: the translation of `va`, or none
    if it faults. -/
def pageWalk (m : Memory) (cr3 va : ℕ) : Option Translation :=
  (Radix.walk (entries m) (indices va) cr3).map fun hit =>
    ⟨hit.leaf + va % 2 ^ (12 + 9 * hit.rest.length), hit.labels.all id⟩

/-- A walk down all four levels. -/
theorem walk_of_links {m : Memory} {t₄ t₃ t₂ t₁ f : ℕ} {l₄ l₃ l₂ l₁ : Bool}
    {i₄ i₃ i₂ i₁ : Fin 512} (h₄ : entries m 3 t₄ i₄ = .link l₄ t₃)
    (h₃ : entries m 2 t₃ i₃ = .link l₃ t₂) (h₂ : entries m 1 t₂ i₂ = .link l₂ t₁)
    (h₁ : entries m 0 t₁ i₁ = .leaf l₁ f) :
    Radix.walk (entries m) [i₄, i₃, i₂, i₁] t₄ = some ⟨[l₄, l₃, l₂, l₁], f, []⟩ := by
  simp [Radix.walk, h₄, h₃, h₂, h₁, Radix.Hit.after]

section slot

variable {r n : ℕ}

@[simp] theorem slot_zero (r : ℕ) : slot r 0 = .empty := by
  rw [slot, if_pos (Nat.zero_mod 2)]

/-- A table linked to. -/
theorem slot_link (hr : r ≠ 0) (ha : n % 2 ^ 12 = 0) (hn : n < 2 ^ 52) :
    slot r (n + 3) = .link true n := by
  have h₁ : (n + 3) / 2 ^ 12 % 2 ^ 40 * 2 ^ 12 = n := by omega
  have h₂ : (n + 3) / 2 % 2 = 1 := by omega
  simp only [slot, h₁, h₂]
  rw [if_neg (by omega), if_neg hr, if_pos (by omega)]
  rfl

/-- A page of 4 KB. -/
theorem slot_page (ha : n % 2 ^ 12 = 0) (hn : n < 2 ^ 52) : slot 0 (n + 3) = .leaf true n := by
  have h₁ : (n + 3) / 2 ^ 12 % 2 ^ 40 * 2 ^ 12 = n := by omega
  have h₂ : (n + 3) / 2 % 2 = 1 := by omega
  simp only [slot, h₁, h₂]
  rw [if_neg (by omega)]
  rfl

/-- A page of 2 MB. -/
theorem slot_huge_one (ha : n % 2 ^ 21 = 0) (hn : n < 2 ^ 52) :
    slot 1 (n + 0x83) = .leaf true n := by
  have h₁ : (n + 0x83) / 2 ^ 21 % 2 ^ 31 * 2 ^ 21 = n := by omega
  have h₂ : (n + 0x83) / 2 % 2 = 1 := by omega
  simp only [slot, h₂, Nat.mul_one, Nat.reduceAdd, Nat.reduceSub, h₁]
  rw [if_neg (by omega), if_neg (by omega), if_neg (by omega), if_pos (by omega)]
  rfl

/-- A page of 1 GB. The address field of the code has one bit more than the processor's. -/
theorem slot_huge_two (ha : n % 2 ^ 30 = 0) :
    slot 2 (n + 0x83) = .leaf true (n % 2 ^ 52) := by
  have h₁ : (n + 0x83) / 2 ^ 30 % 2 ^ 22 * 2 ^ 30 = n % 2 ^ 52 := by omega
  have h₂ : (n + 0x83) / 2 % 2 = 1 := by omega
  simp only [slot, h₂, Nat.reduceMul, Nat.reduceAdd, Nat.reduceSub, h₁]
  rw [if_neg (by omega), if_neg (by omega), if_neg (by omega), if_pos (by omega)]
  rfl

end slot

end Cboot
