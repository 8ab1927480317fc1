import Cboot.Bios.MemoryMap

/-!
# The memory chosen for the kernel

Three functions have to agree on where the kernel is put: `scan_bios_memmap` adds up
the sizes of the free regions, `setup_physical_map` maps that many bytes from the
physical address 0 on, and `allocate_space_for_kernel` chooses a region by its base
address. Where a hole in physical memory comes before the region, its address is larger
than all the memory before it.

* `KernelReachable`: what the three should give together;
* `kernelReachable_iff`: they do if and only if the region chosen ends before the sum of
  the sizes of the free regions, rounded up to gigabytes.
-/

namespace Cboot

/-- The memory chosen for the kernel, by the map in the memory `map`, is reachable through
    the map of physical memory, built from the boot tables in the memory `m`. -/
def KernelReachable (map m : Memory) (memSize : ℕ) : Prop :=
  ∀ total printed p, (scanBiosMemmap map).Returns (total, printed) →
    (allocateSpaceForKernel map memSize).Returns p → p ≠ 0 →
    ∀ r ∈ printed, physicalToVirtualAddress r.baseAddress.toNat = p → ∀ k < memSize,
      (pageWalk (setupPhysicalMap (.boot m) total.toNat).mem 0x1000 (p + k)).map (·.paddr) =
        some (r.baseAddress.toNat + k)

/-- The number of gigabytes that are mapped for the regions, modulo the physical address
    space. -/
def gigsMapped (rs : List BiosMemoryRegion) : ℕ := numGigs (freeMemory rs).toNat % 2 ^ 22

section KernelReachable

variable {map m : Memory} {memSize : ℕ} {rs : List BiosMemoryRegion}

theorem physicalToVirtualAddress_eq {b : ℕ} (h : b < 2 ^ 47) :
    physicalToVirtualAddress b = 0xFFFF800000000000 + b := by
  have := Nat.two_pow_add_eq_or_of_lt h 0x1FFFF
  rw [physicalToVirtualAddress, Nat.or_comm]
  exact this.symm

/-- The region found is one of the regions, and fits. -/
theorem firstFit_spec {r : BiosMemoryRegion} (h : firstFit rs memSize = some r) :
    r ∈ rs ∧ r.Fits memSize :=
  ⟨List.mem_of_find?_eq_some h, by simpa using List.find?_some h⟩

/-- The walks of the addresses of a region through the map of physical memory. -/
theorem reachable_iff {r : BiosMemoryRegion} (hmem : memSize ≠ 0) (total : ℕ)
    (hr : r.baseAddress.toNat + memSize ≤ 511 * 2 ^ 30) :
    (∀ k < memSize, (pageWalk (setupPhysicalMap (.boot m) total).mem 0x1000
      (physicalToVirtualAddress r.baseAddress.toNat + k)).map (·.paddr) =
        some (r.baseAddress.toNat + k)) ↔
    numGigs total % 2 ^ 22 ≤ 511 ∧
      r.baseAddress.toNat + memSize ≤ numGigs total % 2 ^ 22 * 2 ^ 30 := by
  rw [physicalToVirtualAddress_eq (by omega), setupPhysicalMap]
  have hiff := fun k (hk : k < memSize) =>
    mapsPhysical_iff m (numGigs total) (show r.baseAddress.toNat + k < 2 ^ 39 by omega)
  simp only [← Nat.add_assoc] at hiff
  constructor
  · intro h
    have := (hiff (memSize - 1) (by omega)).1 (h (memSize - 1) (by omega))
    omega
  · intro h k hk
    refine (hiff k hk).2 ?_
    omega

/-- The kernel is reachable if and only if the region chosen for it ends within the
    gigabytes that are mapped. -/
theorem kernelReachable_iff (m : Memory) (hrs : RegionsAt map biosMemoryMapLocation rs)
    (hle : ∀ r ∈ rs, r.baseAddress.toNat + r.mapSize.toNat ≤ 511 * 2 ^ 30) (memSize : ℕ) :
    KernelReachable map m memSize ↔ ∀ r, firstFit rs memSize = some r →
      memSize = 0 ∨ gigsMapped rs ≤ 511 ∧
        r.baseAddress.toNat + memSize ≤ gigsMapped rs * 2 ^ 30 := by
  have hscan := scanBiosMemmap_returns hrs
  have halloc := allocateSpaceForKernel_returns memSize hrs
  constructor
  · intro h r hr
    obtain ⟨hmem, hfit⟩ := firstFit_spec hr
    have hend := hle r hmem
    have hsize := hfit.2.1
    rw [hr] at halloc
    have hp : allocated (some r) ≠ 0 := by
      have := physicalToVirtualAddress_eq (b := r.baseAddress.toNat) (by omega)
      simp only [allocated, Option.map_some, Option.getD_some, this]
      omega
    by_cases h₀ : memSize = 0
    · exact .inl h₀
    · exact .inr ((reachable_iff h₀ _ (by omega)).1 (h _ _ _ hscan halloc hp r hmem rfl))
  · intro h total printed p hscan' halloc' hp r hr hrp k hk
    obtain ⟨rfl, rfl⟩ := Prod.mk.inj (hscan'.unique hscan)
    obtain rfl := halloc'.unique halloc
    cases hfirst : firstFit printed memSize with
    | none => exact absurd (congrArg allocated hfirst) hp
    | some r' =>
      obtain ⟨hmem', hfit'⟩ := firstFit_spec hfirst
      have hend' := hle r' hmem'
      have hend := hle r hr
      have hsize' := hfit'.2.1
      -- The pointer determines the base address.
      have hbase : r.baseAddress.toNat = r'.baseAddress.toNat := by
        rw [hfirst, allocated, Option.map_some, Option.getD_some,
          physicalToVirtualAddress_eq (by omega), physicalToVirtualAddress_eq (by omega)] at hrp
        omega
      have hgigs := (h r' hfirst).resolve_left (by omega)
      rw [hbase]
      exact (reachable_iff (by omega) _ (by omega)).2 hgigs k hk

/-- A memory holding the map of one region. -/
def oneRegion (r : BiosMemoryRegion) : Memory := writeRegion (fun _ => 0) biosMemoryMapLocation r

theorem regionsAt_oneRegion {r : BiosMemoryRegion} (h : r.type ≠ 0) :
    RegionsAt (oneRegion r) biosMemoryMapLocation [r] := by
  refine ⟨readRegion_writeRegion _ _ r, h, congrArg UInt32.ofNat (Memory.read_eq_zero ?_)⟩
  intro i hi
  exact writeRegion_of_not_mem (.inr (by omega))

/-- With one gigabyte of memory from 1 MB on, the kernel is reachable. -/
theorem kernelReachable_one_gib :
    KernelReachable (oneRegion ⟨0x100000, 0x40000000, 1, 0⟩) (fun _ => 0) 0x10000000 := by
  refine (kernelReachable_iff _ (regionsAt_oneRegion (by decide)) (by decide) _).2 fun r hr => ?_
  obtain rfl := Option.some.inj hr
  exact .inr (by decide)

/-- With one gigabyte of memory above a hole of 4 GiB, it is not. -/
theorem not_kernelReachable_hole :
    ¬KernelReachable (oneRegion ⟨0x100000000, 0x40000000, 1, 0⟩) (fun _ => 0) 0x10000000 := by
  intro h
  have hrs := regionsAt_oneRegion (r := ⟨0x100000000, 0x40000000, 1, 0⟩) (by decide)
  have hall := h _ _ _ (scanBiosMemmap_returns hrs)
    (allocateSpaceForKernel_returns 0x10000000 hrs) (by decide) _ List.mem_cons_self rfl
  have := (reachable_iff (by decide) _ (by decide)).1 hall
  exact absurd this (by decide)

end KernelReachable

end Cboot
