import Cboot.Lib.Fueled
import Cboot.Paging.PhysicalMap

/-!
# The BIOS memory map

The map goes through three hands: the MBR stores the regions that the BIOS enumerates
from 0x500 up (`biosMemMap`), `start.asm` builds the page tables from 0x1000 up
(`setupAndEnablePaging`), and the functions of `main.c` read the regions back until
one of type 0 (`scanBiosMemmap`, `allocateSpaceForKernel`).

* `RegionsAt m a rs`: what the readers meet from the address `a` on. The specifications
  of the readers (`scanBiosMemmap_returns_iff`, `allocateSpaceForKernel_returns`) are
  given in terms of it;
* `handedOver_iff`: the regions are handed over if and only if they are fewer than 117
  and there happens to be a zero after the last one, or exactly 117: the regions from
  the 118th on are overwritten by the page tables, and what ends the map is not written.
-/

namespace Cboot

/-! ## Regions -/

/-- An entry of the map that the BIOS gives, of 24 bytes. -/
structure BiosMemoryRegion where
  baseAddress : UInt64
  mapSize : UInt64
  type : UInt32
  acpi3 : UInt32
  deriving DecidableEq, Repr

/-- `BIOS_MAP_FREE_MEMORY` -/
def biosMapFreeMemory : UInt32 := 1

/-- `BIOS_MEMORY_MAP_LOCATION` -/
def biosMemoryMapLocation : ℕ := 0x500

/-- The region stored at the address `a`. -/
def readRegion (m : Memory) (a : ℕ) : BiosMemoryRegion where
  baseAddress := .ofNat (m.read 8 a)
  mapSize := .ofNat (m.read 8 (a + 8))
  type := .ofNat (m.read 4 (a + 16))
  acpi3 := .ofNat (m.read 4 (a + 20))

/-- What the BIOS writes for a region. -/
def writeRegion (m : Memory) (a : ℕ) (r : BiosMemoryRegion) : Memory :=
  (((m.write 8 a r.baseAddress.toNat).write 8 (a + 8) r.mapSize.toNat).write 4 (a + 16)
    r.type.toNat).write 4 (a + 20) r.acpi3.toNat

section region

variable {m m' : Memory} {a x : ℕ} {r : BiosMemoryRegion}

theorem writeRegion_of_not_mem (h : x < a ∨ a + 24 ≤ x) : writeRegion m a r x = m x := by
  rw [writeRegion, Memory.write_of_not_mem (by omega), Memory.write_of_not_mem (by omega),
    Memory.write_of_not_mem (by omega), Memory.write_of_not_mem (by omega)]

theorem readRegion_writeRegion (m : Memory) (a : ℕ) (r : BiosMemoryRegion) :
    readRegion (writeRegion m a r) a = r := by
  rw [readRegion, writeRegion]
  rw [Memory.read_write_of_disjoint (by omega), Memory.read_write_of_disjoint (by omega),
    Memory.read_write_of_disjoint (by omega), Memory.read_write_of_lt _ 8 _ r.baseAddress.toNat_lt,
    Memory.read_write_of_disjoint (by omega), Memory.read_write_of_disjoint (by omega),
    Memory.read_write_of_lt _ 8 _ r.mapSize.toNat_lt, Memory.read_write_of_disjoint (by omega),
    Memory.read_write_of_lt _ 4 _ r.type.toNat_lt, Memory.read_write_of_lt _ 4 _ r.acpi3.toNat_lt,
    UInt64.ofNat_toNat, UInt64.ofNat_toNat, UInt32.ofNat_toNat, UInt32.ofNat_toNat]

/-- A region only depends on its bytes. -/
theorem readRegion_congr (h : ∀ i < 24, m (a + i) = m' (a + i)) :
    readRegion m a = readRegion m' a := by
  have hread : ∀ n k, k + n ≤ 24 → m.read n (a + k) = m'.read n (a + k) := fun n k hk =>
    Memory.read_congr fun i hi => by
      rw [Nat.add_assoc]
      exact h (k + i) (by omega)
  rw [readRegion, readRegion, ← Nat.add_zero a, hread 8 0 (by decide), Nat.add_zero,
    hread 8 8 (by decide), hread 4 16 (by decide), hread 4 20 (by decide)]

end region

/-! ## The producer -/

/-- The loop of `bios_mem_map` of the MBR, for the regions that the BIOS enumerates:
    the last of them is the one for which the BIOS clears `ebx`. -/
def biosMemMapLoop (m : Memory) (di : ℕ) : List BiosMemoryRegion → Memory
  | [] => m
  | [r] => writeRegion m di r
  | r :: rs =>
    let m := writeRegion m di r
    let di := (di + 24) % 2 ^ 16
    biosMemMapLoop (m.write 4 (di + 16) 1) di rs

/-- `bios_mem_map`. The segment registers are zero. -/
def biosMemMap (m : Memory) (rs : List BiosMemoryRegion) : Memory := biosMemMapLoop m 0x500 rs

/-! ## The consumers -/

/-- A round of `scan_bios_memmap`, from the pointer `memmap`, the sum so far and the regions
    printed so far. -/
def scanRound (m : Memory) : ℕ × UInt64 × List BiosMemoryRegion →
    Fueled (ℕ × UInt64 × List BiosMemoryRegion ⊕ UInt64 × List BiosMemoryRegion)
  | (memmap, totalMemory, printed) =>
    let r := readRegion m memmap
    if r.type = 0 then pure (.inr (totalMemory, printed))
    else if r.type = biosMapFreeMemory then
      pure (.inl (memmap + 24, totalMemory + r.mapSize, printed ++ [r]))
    else pure (.inl (memmap + 24, totalMemory, printed ++ [r]))

/-- `scan_bios_memmap`, with the regions that it prints. -/
def scanBiosMemmap (m : Memory) : Fueled (UInt64 × List BiosMemoryRegion) :=
  .loop (scanRound m) (biosMemoryMapLocation, 0, [])

/-- A round of `allocate_space_for_kernel`, from the pointer `memmap`. -/
def allocateRound (m : Memory) (memSize memmap : ℕ) : Fueled (ℕ ⊕ ℕ) :=
  let minbase := 0x100000
  let r := readRegion m memmap
  if r.type = 0 then pure (.inr 0)
  else if r.baseAddress < minbase then pure (.inl (memmap + 24))
  else if r.mapSize.toNat < memSize then pure (.inl (memmap + 24))
  else if r.type = biosMapFreeMemory then
    pure (.inr (physicalToVirtualAddress r.baseAddress.toNat))
  else pure (.inl (memmap + 24))

/-- `allocate_space_for_kernel` -/
def allocateSpaceForKernel (m : Memory) (memSize : ℕ) : Fueled ℕ :=
  .loop (allocateRound m memSize) biosMemoryMapLocation

/-! ## What the consumers read -/

/-- The regions stored one after the other from the address `a` on, up to one of type 0. -/
def RegionsAt (m : Memory) (a : ℕ) : List BiosMemoryRegion → Prop
  | [] => (readRegion m a).type = 0
  | r :: rs => readRegion m a = r ∧ r.type ≠ 0 ∧ RegionsAt m (a + 24) rs

/-- The sum of the sizes of the free regions. -/
def freeMemory : List BiosMemoryRegion → UInt64
  | [] => 0
  | r :: rs => (if r.type = biosMapFreeMemory then r.mapSize else 0) + freeMemory rs

/-- The kernel may be put there: it is free, above 1 MB and large enough. -/
def BiosMemoryRegion.Fits (r : BiosMemoryRegion) (memSize : ℕ) : Prop :=
  0x100000 ≤ r.baseAddress ∧ memSize ≤ r.mapSize.toNat ∧ r.type = biosMapFreeMemory

instance (r : BiosMemoryRegion) (memSize : ℕ) : Decidable (r.Fits memSize) :=
  inferInstanceAs (Decidable (_ ∧ _ ∧ _))

/-- The first region where the kernel may be put. -/
def firstFit (rs : List BiosMemoryRegion) (memSize : ℕ) : Option BiosMemoryRegion :=
  rs.find? fun r => r.Fits memSize

section consumers

open Fueled

variable {m : Memory} {a memSize : ℕ} {rs : List BiosMemoryRegion}

/-- The regions read are determined by the memory. -/
theorem RegionsAt.unique {rs' : List BiosMemoryRegion} (h : RegionsAt m a rs)
    (h' : RegionsAt m a rs') : rs = rs' := by
  induction rs generalizing a rs' with
  | nil =>
    cases rs' with
    | nil => rfl
    | cons r' rs' =>
      obtain ⟨rfl, hne, _⟩ := h'
      exact absurd h hne
  | cons r rs ih =>
    obtain ⟨rfl, hne, h⟩ := h
    cases rs' with
    | nil => exact absurd h' hne
    | cons r' rs' => rw [← h'.1, ih h h'.2.2]

/-- The regions are those at their addresses. -/
theorem regionsAt_iff : RegionsAt m a rs ↔
    (∀ k r, rs[k]? = some r → readRegion m (a + 24 * k) = r ∧ r.type ≠ 0) ∧
      (readRegion m (a + 24 * rs.length)).type = 0 := by
  induction rs generalizing a with
  | nil => simp [RegionsAt]
  | cons r rs ih =>
    have hlen : a + 24 + 24 * rs.length = a + 24 * (r :: rs).length := by
      rw [List.length_cons]
      omega
    have hk : ∀ k, a + 24 + 24 * k = a + 24 * (k + 1) := fun k => by omega
    rw [RegionsAt, ih, hlen]
    constructor
    · rintro ⟨h₁, h₂, h₃, h₄⟩
      refine ⟨fun k r' hr' => ?_, h₄⟩
      cases k with
      | zero =>
        obtain rfl := Option.some.inj hr'
        exact ⟨h₁, h₂⟩
      | succ k => exact hk k ▸ h₃ k r' hr'
    · rintro ⟨h₁, h₂⟩
      obtain ⟨h₃, h₄⟩ := h₁ 0 r rfl
      exact ⟨h₃, h₄, fun k r' hr' => hk k ▸ h₁ (k + 1) r' hr', h₂⟩

/-- The regions only depend on their bytes. -/
theorem RegionsAt.congr {m' : Memory} (h : RegionsAt m a rs)
    (heq : ∀ x, a ≤ x → x < a + 24 * (rs.length + 1) → m' x = m x) : RegionsAt m' a rs := by
  have hregion : ∀ k ≤ rs.length, readRegion m' (a + 24 * k) = readRegion m (a + 24 * k) :=
    fun k hk => readRegion_congr fun i hi => heq _ (by omega) (by omega)
  obtain ⟨h₁, h₂⟩ := regionsAt_iff.1 h
  refine regionsAt_iff.2 ⟨fun k r hr => ?_, ?_⟩
  · obtain ⟨hk, _⟩ := List.getElem?_eq_some_iff.1 hr
    rw [hregion k (Nat.le_of_lt hk)]
    exact h₁ k r hr
  · rw [hregion _ le_rfl]
    exact h₂

/-- Scanning from any region on. -/
theorem loop_scanRound_returns (total : UInt64) (printed : List BiosMemoryRegion)
    (h : RegionsAt m a rs) :
    (loop (scanRound m) (a, total, printed)).Returns (total + freeMemory rs, printed ++ rs) := by
  induction rs generalizing a total printed with
  | nil =>
    refine Returns.loop_done ?_
    have h : (readRegion m a).type = 0 := h
    rw [scanRound, if_pos h, returns_pure_iff, List.append_nil]
    exact congrArg (fun t => Sum.inr (t, printed)) (UInt64.add_zero total)
  | cons r rs ih =>
    obtain ⟨rfl, hne, h⟩ := h
    have hround : (scanRound m (a, total, printed)).Returns (.inl (a + 24,
        total + (if (readRegion m a).type = biosMapFreeMemory then (readRegion m a).mapSize else 0),
        printed ++ [readRegion m a])) := by
      rw [scanRound, if_neg hne]
      split
      · rw [returns_pure_iff]
      · rw [returns_pure_iff, UInt64.add_zero]
    have hrest := ih (total + (if (readRegion m a).type = biosMapFreeMemory
      then (readRegion m a).mapSize else 0)) (printed ++ [readRegion m a]) h
    rw [List.append_assoc] at hrest
    rw [Returns.loop_iff hround, freeMemory, ← UInt64.add_assoc]
    exact hrest

theorem scanBiosMemmap_returns (h : RegionsAt m biosMemoryMapLocation rs) :
    (scanBiosMemmap m).Returns (freeMemory rs, rs) := by
  have := loop_scanRound_returns 0 [] h
  rwa [UInt64.zero_add, List.nil_append] at this

/-- The regions printed are those in the memory. -/
theorem scanBiosMemmap_returns_iff {total : UInt64} :
    (scanBiosMemmap m).Returns (total, rs) ↔
      RegionsAt m biosMemoryMapLocation rs ∧ total = freeMemory rs := by
  constructor
  · intro hr
    -- Regions met from the pointer on follow those printed.
    obtain ⟨⟨memmap, total', printed⟩, hI, hlast⟩ := Returns.loop_inv
      (I := fun s => ∀ rest, RegionsAt m s.1 rest →
        RegionsAt m biosMemoryMapLocation (s.2.2 ++ rest)) hr (fun rest h => h) (by
        rintro ⟨memmap, total', printed⟩ s' hI hs rest hrest
        rw [scanRound] at hs
        have hnext : ∀ t, (readRegion m memmap).type ≠ 0 →
            s' = (memmap + 24, t, printed ++ [readRegion m memmap]) →
            RegionsAt m biosMemoryMapLocation (s'.2.2 ++ rest) := by
          rintro t hne rfl
          rw [List.append_assoc]
          exact hI _ ⟨rfl, hne, hrest⟩
        split_ifs at hs with h₁ h₂
        · exact absurd (returns_pure_iff.1 hs) (by simp)
        · exact hnext _ h₁ (Sum.inl.inj (returns_pure_iff.1 hs))
        · exact hnext _ h₁ (Sum.inl.inj (returns_pure_iff.1 hs)))
    rw [scanRound] at hlast
    have hrs : RegionsAt m biosMemoryMapLocation rs := by
      split_ifs at hlast with h₁ h₂
      · have heq := Sum.inr.inj (returns_pure_iff.1 hlast)
        have := hI [] h₁
        rw [List.append_nil] at this
        exact (Prod.mk.inj heq).2 ▸ this
      · exact absurd (returns_pure_iff.1 hlast) (by simp)
      · exact absurd (returns_pure_iff.1 hlast) (by simp)
    exact ⟨hrs, (Prod.mk.inj (hr.unique (scanBiosMemmap_returns hrs))).1⟩
  · rintro ⟨h, rfl⟩
    exact scanBiosMemmap_returns h

/-- What the search returns for the region found. -/
def allocated (r : Option BiosMemoryRegion) : ℕ :=
  (r.map fun r => physicalToVirtualAddress r.baseAddress.toNat).getD 0

/-- Searching from any region on. -/
theorem loop_allocateRound_returns (h : RegionsAt m a rs) :
    (loop (allocateRound m memSize) a).Returns (allocated (firstFit rs memSize)) := by
  induction rs generalizing a with
  | nil =>
    refine Returns.loop_done ?_
    have h : (readRegion m a).type = 0 := h
    rw [allocateRound, if_pos h, returns_pure_iff]
    rfl
  | cons r rs ih =>
    obtain ⟨rfl, hne, h⟩ := h
    by_cases hfit : (readRegion m a).Fits memSize
    · obtain ⟨h₁, h₂, h₃⟩ := id hfit
      refine Returns.loop_done ?_
      rw [allocateRound, if_neg hne, if_neg (UInt64.not_lt.2 h₁), if_neg (Nat.not_lt.2 h₂),
        if_pos h₃, returns_pure_iff, firstFit, List.find?_cons_of_pos (by simpa using hfit)]
      rfl
    · have hround : (allocateRound m memSize a).Returns (.inl (a + 24)) := by
        rw [allocateRound, if_neg hne]
        split_ifs with h₁ h₂ h₃
        · exact returns_pure_iff.2 rfl
        · exact returns_pure_iff.2 rfl
        · exact absurd ⟨UInt64.not_lt.1 h₁, Nat.not_lt.1 h₂, h₃⟩ hfit
        · exact returns_pure_iff.2 rfl
      rw [Returns.loop_iff hround, firstFit, List.find?_cons_of_neg (by simpa using hfit)]
      exact ih h

/-- The kernel is put in the first region that fits, as seen through the map of physical
    memory. -/
theorem allocateSpaceForKernel_returns (memSize : ℕ) (h : RegionsAt m biosMemoryMapLocation rs) :
    (allocateSpaceForKernel m memSize).Returns (allocated (firstFit rs memSize)) :=
  loop_allocateRound_returns h

end consumers

/-! ## What the producer writes -/

section producer

variable {m : Memory} {di x : ℕ} {rs : List BiosMemoryRegion}

/-- Nothing is written outside the regions: the doubleword after the last but one is
    overwritten by the last. -/
theorem biosMemMapLoop_of_not_mem (hdi : di + 24 * rs.length < 2 ^ 16)
    (hx : x < di ∨ di + 24 * rs.length ≤ x) : biosMemMapLoop m di rs x = m x := by
  induction rs generalizing m di with
  | nil => rfl
  | cons r rs ih =>
    cases rs with
    | nil => exact writeRegion_of_not_mem (by simpa using hx)
    | cons r' rs =>
      rw [List.length_cons] at hdi hx
      have hmod : (di + 24) % 2 ^ 16 = di + 24 := Nat.mod_eq_of_lt (by omega)
      simp only [biosMemMapLoop, hmod]
      rw [ih (by omega) (by omega), Memory.write_of_not_mem, writeRegion_of_not_mem]
      · omega
      · rw [List.length_cons] at hx
        omega

/-- The regions are stored one after the other. -/
theorem readRegion_biosMemMapLoop (hdi : di + 24 * rs.length < 2 ^ 16) {k : ℕ}
    {r : BiosMemoryRegion} (hr : rs[k]? = some r) :
    readRegion (biosMemMapLoop m di rs) (di + 24 * k) = r := by
  induction rs generalizing m di k with
  | nil => cases hr
  | cons r₀ rs ih =>
    cases rs with
    | nil =>
      cases k with
      | zero =>
        obtain rfl := Option.some.inj hr
        exact readRegion_writeRegion m di r₀
      | succ k => cases hr
    | cons r₁ rs =>
      rw [List.length_cons] at hdi
      have hmod : (di + 24) % 2 ^ 16 = di + 24 := Nat.mod_eq_of_lt (by omega)
      simp only [biosMemMapLoop, hmod]
      cases k with
      | zero =>
        obtain rfl := Option.some.inj hr
        refine (readRegion_congr fun i hi => ?_).trans (readRegion_writeRegion m di r₀)
        rw [Nat.mul_zero, Nat.add_zero, biosMemMapLoop_of_not_mem (by omega) (by omega),
          Memory.write_of_not_mem (by omega)]
      | succ k =>
        have hk : di + 24 * (k + 1) = di + 24 + 24 * k := by omega
        rw [hk]
        exact ih (by omega) hr

/-! ## Handing over -/

/-- The consumers find the regions that the BIOS enumerated, and no others. -/
structure HandedOver (m : Memory) (rs : List BiosMemoryRegion) : Prop where
  scanned : ∃ total, (scanBiosMemmap (setupAndEnablePaging (biosMemMap m rs))).Returns (total, rs)
  searched : ∀ memSize, (allocateSpaceForKernel (setupAndEnablePaging (biosMemMap m rs))
    memSize).Returns (allocated (firstFit rs memSize))

theorem handedOver_iff_regionsAt : HandedOver m rs ↔
    RegionsAt (setupAndEnablePaging (biosMemMap m rs)) biosMemoryMapLocation rs := by
  constructor
  · rintro ⟨⟨total, h⟩, _⟩
    exact (scanBiosMemmap_returns_iff.1 h).1
  · intro h
    exact ⟨⟨_, scanBiosMemmap_returns h⟩, fun memSize => allocateSpaceForKernel_returns memSize h⟩

/-- The second entry of the level 4, and so the type of the 118th region, is zero. -/
theorem type_setupAndEnablePaging (m : Memory) :
    (readRegion (setupAndEnablePaging m) (0x500 + 24 * 117)).type = 0 := by
  have he : (setupAndEnablePaging m).read 8 0x1008 = 0 := tableEntry_boot m 1 (.inl rfl)
  have h : (setupAndEnablePaging m).read 8 0x1008 = _ :=
    (setupAndEnablePaging m).read_add 4 4 0x1008
  have h₀ : (setupAndEnablePaging m).read 4 0x1008 = 0 := by omega
  exact congrArg UInt32.ofNat h₀

/-- Below the tables, the regions remain as they were stored. -/
theorem readRegion_handedOver (hlen : 24 * rs.length ≤ 30 * 1024) {k : ℕ} (hk : k < 117)
    {r : BiosMemoryRegion} (hr : rs[k]? = some r) :
    readRegion (setupAndEnablePaging (biosMemMap m rs)) (0x500 + 24 * k) = r := by
  have hdi : 0x500 + 24 * rs.length < 2 ^ 16 := by omega
  refine (readRegion_congr fun i hi => ?_).trans (readRegion_biosMemMapLoop (m := m) hdi hr)
  exact setupAndEnablePaging_of_not_mem (by omega)

/-- What follows the regions is what was there before. -/
theorem type_handedOver (hlen : rs.length ≤ 116) :
    (readRegion (setupAndEnablePaging (biosMemMap m rs)) (0x500 + 24 * rs.length)).type = 0 ↔
      m.read 4 (0x500 + 24 * rs.length + 16) = 0 := by
  have hread : (setupAndEnablePaging (biosMemMap m rs)).read 4 (0x500 + 24 * rs.length + 16) =
      m.read 4 (0x500 + 24 * rs.length + 16) := Memory.read_congr fun i hi => by
    rw [setupAndEnablePaging_of_not_mem (by omega), biosMemMap,
      biosMemMapLoop_of_not_mem (by omega) (by omega)]
  have hlt : m.read 4 (0x500 + 24 * rs.length + 16) < 2 ^ 32 := m.read_lt 4 _
  rw [readRegion, hread]
  constructor
  · intro h
    have := congrArg UInt32.toNat h
    rwa [UInt32.toNat_ofNat', Nat.mod_eq_of_lt hlt] at this
  · exact fun h => congrArg UInt32.ofNat h

/-- The regions are handed over if and only if there is room for them below the page
    tables and something ends them: for 117 regions it is an entry of the tables, for less
    it is what happened to be in the memory. -/
theorem handedOver_iff (m : Memory) (htype : ∀ r ∈ rs, r.type ≠ 0)
    (hlen : 24 * rs.length ≤ 30 * 1024) : HandedOver m rs ↔
      rs.length = 117 ∨ rs.length ≤ 116 ∧ m.read 4 (0x500 + 24 * rs.length + 16) = 0 := by
  rw [handedOver_iff_regionsAt, regionsAt_iff, biosMemoryMapLocation]
  constructor
  · rintro ⟨hread, hlast⟩
    rcases Nat.lt_trichotomy rs.length 117 with h | h | h
    · have h := Nat.le_of_lt_succ h
      exact .inr ⟨h, (type_handedOver h).1 hlast⟩
    · exact .inl h
    · -- The 118th region is overwritten by the tables.
      have ⟨hr, ht⟩ := hread 117 rs[117] (List.getElem?_eq_getElem h)
      rw [← hr] at ht
      exact absurd (type_setupAndEnablePaging _) ht
  · intro h
    refine ⟨fun k r hr => ?_, ?_⟩
    · obtain ⟨hk, _⟩ := List.getElem?_eq_some_iff.1 hr
      exact ⟨readRegion_handedOver hlen (by omega) hr, htype r (List.mem_of_getElem? hr)⟩
    · rcases h with h | ⟨h, hzero⟩
      · rw [h]
        exact type_setupAndEnablePaging _
      · exact (type_handedOver h).2 hzero

/-- One region in a memory of zeros. -/
theorem handedOver_zeros : HandedOver (fun _ => 0) [⟨0, 0x100000, 1, 0⟩] :=
  (handedOver_iff (fun _ => 0) (by decide) (by decide)).2 (.inr (by decide))

/-- One region in a memory of ones: the consumers read on after it. -/
theorem not_handedOver_ones : ¬HandedOver (fun _ => 1) [⟨0, 0x100000, 1, 0⟩] := by
  rw [handedOver_iff_regionsAt, regionsAt_iff]
  rintro ⟨_, hlast⟩
  exact absurd ((type_handedOver (by decide)).1 hlast) (by decide)

end producer

end Cboot
