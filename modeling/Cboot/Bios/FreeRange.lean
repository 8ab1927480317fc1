import Cboot.Bios.KernelSpace
import Mathlib.Order.Interval.Set.LinearOrder

/-!
# Free memory

What `allocate_space_for_kernel` is for: memory above 1 MB that the BIOS gives as free, and
only as free (`FreeRange`). The regions of the map may overlap, and the function looks at
one region at a time.

* `AllocatesFree`: it should return free memory, if there is any. It does not if a region
  is given as free and as reserved, nor if the free memory is in a region that begins
  below 1 MB (`not_allocatesFree`);
* `allocateSpaceForKernel_spec`: what it returns in any case.
-/

namespace Cboot

namespace BiosMemoryRegion

/-- The addresses of the region. -/
def range (r : BiosMemoryRegion) : Set ℕ :=
  Set.Ico r.baseAddress.toNat (r.baseAddress.toNat + r.mapSize.toNat)

/-- The region is given as free. -/
def IsFree (r : BiosMemoryRegion) : Prop := r.type = biosMapFreeMemory

instance (r : BiosMemoryRegion) : Decidable r.IsFree := inferInstanceAs (Decidable (_ = _))

end BiosMemoryRegion

/-- The range of `n` bytes at `b` is above 1 MB, in a free region and in no other region. -/
structure FreeRange (rs : List BiosMemoryRegion) (b n : ℕ) : Prop where
  above : 0x100000 ≤ b
  free : ∃ r ∈ rs, r.IsFree ∧ Set.Ico b (b + n) ⊆ r.range
  other : ∀ r ∈ rs, ¬r.IsFree → ∀ x ∈ Set.Ico b (b + n), x ∉ r.range

/-- The memory allocated is free, and some is allocated if there is any. -/
def AllocatesFree (map : Memory) (rs : List BiosMemoryRegion) (memSize : ℕ) : Prop :=
  ∀ p, (allocateSpaceForKernel map memSize).Returns p →
    (p ≠ 0 → ∃ b, p = 0xFFFF800000000000 + b ∧ FreeRange rs b memSize) ∧
      (p = 0 → ∀ b, ¬FreeRange rs b memSize)

section allocate

variable {map : Memory} {rs : List BiosMemoryRegion} {r : BiosMemoryRegion} {memSize : ℕ}

/-- The range at the beginning of the region found is in the region. -/
theorem firstFit_isFree (h : firstFit rs memSize = some r) :
    r ∈ rs ∧ r.IsFree ∧ 0x100000 ≤ r.baseAddress.toNat ∧
      Set.Ico r.baseAddress.toNat (r.baseAddress.toNat + memSize) ⊆ r.range := by
  obtain ⟨hmem, hbase, hsize, hfree⟩ := firstFit_spec h
  exact ⟨hmem, hfree, UInt64.le_iff_toNat_le.1 hbase,
    Set.Ico_subset_Ico_right (Nat.add_le_add_left hsize _)⟩

/-- If none is found, no free region that begins above 1 MB has room for the range. -/
theorem not_subset_of_firstFit_eq_none (hmem : 0 < memSize) (h : firstFit rs memSize = none)
    (hr : r ∈ rs) (hfree : r.IsFree) (hbase : 0x100000 ≤ r.baseAddress.toNat) (b : ℕ) :
    ¬Set.Ico b (b + memSize) ⊆ r.range := by
  intro hsub
  have hfit := List.find?_eq_none.1 h r hr
  rw [decide_eq_true_eq] at hfit
  rw [BiosMemoryRegion.range, Set.Ico_subset_Ico_iff (by omega)] at hsub
  exact hfit ⟨UInt64.le_iff_toNat_le.2 hbase, by omega, hfree⟩

/-- What is returned for a region is the address of its beginning in the map of physical
    memory. -/
theorem allocated_some (hr : r.baseAddress.toNat < 2 ^ 47) :
    allocated (some r) = 0xFFFF800000000000 + r.baseAddress.toNat :=
  physicalToVirtualAddress_eq hr

/-- The range at the beginning of the region found is free unless another region overlaps it. -/
theorem freeRange_firstFit_iff (h : firstFit rs memSize = some r) :
    FreeRange rs r.baseAddress.toNat memSize ↔ ∀ t ∈ rs, ¬t.IsFree →
      ∀ x ∈ Set.Ico r.baseAddress.toNat (r.baseAddress.toNat + memSize), x ∉ t.range := by
  obtain ⟨hr, hfree, hbase, hsub⟩ := firstFit_isFree h
  constructor
  · intro hrange t ht hnot
    exact hrange.other t ht hnot
  · intro hdisj
    exact ⟨hbase, ⟨r, hr, hfree, hsub⟩, hdisj⟩

/-- The pointer returned is that of the beginning of the first free region that begins above 1 MB
    and has room for the range, which is free memory if and only if no other region overlaps this
    range; and null is returned if and only if there is no such region. -/
theorem allocateSpaceForKernel_spec (hrs : RegionsAt map biosMemoryMapLocation rs)
    (hle : ∀ r ∈ rs, r.baseAddress.toNat + r.mapSize.toNat < 2 ^ 47) (hmem : 0 < memSize) :
    ∃ p, (allocateSpaceForKernel map memSize).Returns p ∧
      (p ≠ 0 → ∃ r, firstFit rs memSize = some r ∧
        p = 0xFFFF800000000000 + r.baseAddress.toNat ∧ 0x100000 ≤ r.baseAddress.toNat ∧
        (r ∈ rs ∧ r.IsFree ∧
          Set.Ico r.baseAddress.toNat (r.baseAddress.toNat + memSize) ⊆ r.range) ∧
        (FreeRange rs r.baseAddress.toNat memSize ↔ ∀ t ∈ rs, ¬t.IsFree →
          ∀ x ∈ Set.Ico r.baseAddress.toNat (r.baseAddress.toNat + memSize), x ∉ t.range)) ∧
      (p = 0 ↔ ∀ r ∈ rs, r.IsFree → 0x100000 ≤ r.baseAddress.toNat →
        ∀ b, ¬Set.Ico b (b + memSize) ⊆ r.range) := by
  refine ⟨_, allocateSpaceForKernel_returns memSize hrs, ?_⟩
  cases hfirst : firstFit rs memSize with
  | none =>
    refine ⟨fun hp => absurd rfl hp, iff_of_true rfl fun r hr hfree hbase b => ?_⟩
    exact not_subset_of_firstFit_eq_none hmem hfirst hr hfree hbase b
  | some r =>
    obtain ⟨hr, hfree, hbase, hsub⟩ := firstFit_isFree hfirst
    have hlt := hle r hr
    rw [allocated_some (by omega)]
    refine ⟨fun _ => ⟨r, rfl, rfl, hbase, ⟨hr, hfree, hsub⟩, freeRange_firstFit_iff hfirst⟩,
      iff_of_false (by omega) fun hnone => ?_⟩
    exact hnone r hr hfree hbase _ hsub

/-- The map that the BIOS enumerates into a memory of zeros ends after its last region. -/
theorem regionsAt_biosMemMap (htype : ∀ r ∈ rs, r.type ≠ 0) (hlen : 24 * rs.length ≤ 30 * 1024) :
    RegionsAt (biosMemMap (fun _ => 0) rs) biosMemoryMapLocation rs := by
  rw [regionsAt_iff, biosMemoryMapLocation]
  refine ⟨fun k r hr => ⟨?_, htype r (List.mem_of_getElem? hr)⟩, ?_⟩
  · exact readRegion_biosMemMapLoop (by omega) hr
  · refine congrArg UInt32.ofNat (Memory.read_eq_zero fun i hi => ?_)
    exact biosMemMapLoop_of_not_mem (by omega) (.inr (by omega))

/-- One gigabyte above 1 MB, and less below, of which the last kilobyte is also reserved. -/
def pcRegions : List BiosMemoryRegion :=
  [⟨0, 0x9F000, 1, 0⟩, ⟨0x9EC00, 0x61400, 2, 0⟩, ⟨0x100000, 0x40000000, 1, 0⟩]

/-- The free regions there overlap another one, but not in the range that is found. -/
theorem allocateSpaceForKernel_spec_pc :
    ∃ p, (allocateSpaceForKernel (biosMemMap (fun _ => 0) pcRegions) 0x10000000).Returns p ∧
      (p ≠ 0 → ∃ r, firstFit pcRegions 0x10000000 = some r ∧
        p = 0xFFFF800000000000 + r.baseAddress.toNat ∧ 0x100000 ≤ r.baseAddress.toNat ∧
        (r ∈ pcRegions ∧ r.IsFree ∧
          Set.Ico r.baseAddress.toNat (r.baseAddress.toNat + 0x10000000) ⊆ r.range) ∧
        (FreeRange pcRegions r.baseAddress.toNat 0x10000000 ↔ ∀ t ∈ pcRegions, ¬t.IsFree →
          ∀ x ∈ Set.Ico r.baseAddress.toNat (r.baseAddress.toNat + 0x10000000), x ∉ t.range)) ∧
      (p = 0 ↔ ∀ r ∈ pcRegions, r.IsFree → 0x100000 ≤ r.baseAddress.toNat →
        ∀ b, ¬Set.Ico b (b + 0x10000000) ⊆ r.range) :=
  allocateSpaceForKernel_spec (regionsAt_biosMemMap (by decide) (by decide)) (by decide) (by decide)

/-- One gigabyte above 1 MB, whose first megabyte is also given as reserved. -/
def overlappingRegions : List BiosMemoryRegion :=
  [⟨0x100000, 0x40000000, 1, 0⟩, ⟨0x100000, 0x100000, 2, 0⟩]

/-- One gigabyte, from the first byte on. -/
def lowRegions : List BiosMemoryRegion := [⟨0, 0x40000000, 1, 0⟩]

/-- The reserved memory is allocated, and the free memory above 1 MB is not. -/
theorem not_allocatesFree :
    ¬AllocatesFree (biosMemMap (fun _ => 0) overlappingRegions) overlappingRegions 0x10000000 ∧
      ¬AllocatesFree (biosMemMap (fun _ => 0) lowRegions) lowRegions 0x10000000 := by
  constructor
  · intro h
    obtain ⟨hp, _⟩ := h _ (allocateSpaceForKernel_returns _
      (regionsAt_biosMemMap (by decide) (by decide)))
    obtain ⟨b, hb, hfree⟩ := hp (by decide)
    -- The first byte of the range is reserved.
    have hb : 0xFFFF800000100000 = 0xFFFF800000000000 + b := hb
    obtain rfl : b = 0x100000 := by omega
    exact hfree.other ⟨0x100000, 0x100000, 2, 0⟩ (by decide) (by decide) 0x100000
      ⟨by decide, by decide⟩ ⟨by decide, by decide⟩
  · intro h
    obtain ⟨_, hp⟩ := h _ (allocateSpaceForKernel_returns _
      (regionsAt_biosMemMap (by decide) (by decide)))
    refine hp rfl 0x100000 ⟨le_rfl, ⟨_, List.mem_cons_self, rfl, ?_⟩, fun t ht hnot => ?_⟩
    · exact Set.Ico_subset_Ico (by decide) (by decide)
    · rw [List.mem_singleton.1 ht] at hnot
      exact absurd rfl hnot

end allocate

end Cboot
