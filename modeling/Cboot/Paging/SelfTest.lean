import Cboot.Console.Text
import Cboot.Paging.Refinement

/-!
# The test of the physical map

What `setup_physical_map` does after it has loaded the tables: it compares the first megabyte of
memory with what is seen of it in the map, and reads both through the tables.

* `memcmpLoads`: comparing with loads that may fault. Where none of them does, it is `memcmp`
  (`memcmpLoads_ok`);
* `physicalMapTest_iff`: the test passes if and only if there is some memory and all of it is
  mapped, and faults at the beginning of the map otherwise. It never finds a difference.
-/

namespace Cboot

open Fueled

/-! ## The test -/

/-- A load through the page tables, or the address that it faults at. -/
def loadByte (m : Memory) (v : ℕ) : Except ℕ UInt8 :=
  match pageWalk m 0x1000 v with
  | some t => .ok (m t.paddr)
  | none => .error v

/-- `memcmp`, with loads that may fault. -/
def memcmpLoads (load : ℕ → Except ℕ UInt8) (s₁ s₂ : ℕ) : (size : ℕ) → Except ℕ ℕ
  | 0 => .ok 0
  | size + 1 => do
    let b₁ ← load s₁
    let b₂ ← load s₂
    if b₁ ≠ b₂ then pure 1 else memcmpLoads load (s₁ + 1) (s₂ + 1) size

/-- How the test ends: with a page fault, by halting, or by going on. -/
inductive MapTest
  | faulted (v : ℕ)
  | halted (out : List UInt8)
  | passed (out : List UInt8)

/-- The end of `setup_physical_map`. -/
def testPhysicalMap (m : Memory) (out : List UInt8) : Fueled MapTest :=
  match memcmpLoads (loadByte m) 0 0xFFFF800000000000 1048576 with
  | .error v => pure (.faulted v)
  | .ok neq =>
    if neq ≠ 0 then do
      let out ← puts (literal (ascii "Page Table mapping is suspiciously incorrect!\n")) 0 out
      pure (.halted out)
    else do
      let out ← puts (literal (ascii "Physical Page Table mapping is correct\n")) 0 out
      pure (.passed out)

/-! ## Comparing -/

section compare

variable {load : ℕ → Except ℕ UInt8} {m m₁ m₂ : Memory} {s₁ s₂ size v : ℕ} {b : UInt8}
  {out : List UInt8}

/-- Where no load faults, the loads compare what is loaded. -/
theorem memcmpLoads_ok (h₁ : ∀ i < size, load (s₁ + i) = .ok (m₁ (s₁ + i)))
    (h₂ : ∀ i < size, load (s₂ + i) = .ok (m₂ (s₂ + i))) :
    memcmpLoads load s₁ s₂ size = .ok (memcmp m₁ s₁ m₂ s₂ size) := by
  induction size generalizing s₁ s₂ with
  | zero => rfl
  | succ size ih =>
    have hb₁ := h₁ 0 (Nat.succ_pos _)
    have hb₂ := h₂ 0 (Nat.succ_pos _)
    have hnext : ∀ {s : ℕ} {m : Memory}, (∀ i < size + 1, load (s + i) = .ok (m (s + i))) →
        ∀ i < size, load (s + 1 + i) = .ok (m (s + 1 + i)) := fun h i hi => by
      rw [Nat.add_assoc, Nat.add_comm 1]
      exact h (i + 1) (Nat.succ_lt_succ hi)
    rw [Nat.add_zero] at hb₁ hb₂
    rw [memcmpLoads, memcmp, hb₁, hb₂]
    change (if m₁ s₁ ≠ m₂ s₂ then pure 1 else memcmpLoads load (s₁ + 1) (s₂ + 1) size) = _
    rw [ih (hnext h₁) (hnext h₂)]
    split_ifs <;> rfl

/-- The first load of the second block faults. -/
theorem memcmpLoads_error (hsize : 0 < size) (h₁ : load s₁ = .ok b) (h₂ : load s₂ = .error v) :
    memcmpLoads load s₁ s₂ size = .error v := by
  obtain ⟨size, rfl⟩ := Nat.exists_eq_succ_of_ne_zero (Nat.ne_of_gt hsize)
  rw [memcmpLoads, h₁, h₂]
  rfl

theorem loadByte_of_walk {t : Translation} (h : pageWalk m 0x1000 v = some t) :
    loadByte m v = .ok (m t.paddr) := by
  rw [loadByte, h]

/-- A map that shows the first megabyte passes the test. -/
theorem testPhysicalMap_passes (hlow : ∀ v < 2 ^ 21, pageWalk m 0x1000 v = some ⟨v, true⟩)
    (hmap : ∀ p < 2 ^ 30, pageWalk m 0x1000 (0xFFFF800000000000 + p) = some ⟨p, true⟩)
    (out : List UInt8) : (testPhysicalMap m out).Returns
      (.passed (out ++ ascii "Physical Page Table mapping is correct\n")) := by
  have hload : memcmpLoads (loadByte m) 0 0xFFFF800000000000 1048576 =
      .ok (memcmp m 0 (fun v => m (v - 0xFFFF800000000000)) 0xFFFF800000000000 1048576) := by
    refine memcmpLoads_ok (fun i hi => ?_) fun i hi => ?_
    · rw [Nat.zero_add]
      exact loadByte_of_walk (hlow i (by omega))
    · rw [Nat.add_sub_cancel_left]
      exact loadByte_of_walk (hmap i (by omega))
  have heq : memcmp m 0 (fun v => m (v - 0xFFFF800000000000)) 0xFFFF800000000000 1048576 = 0 :=
    memcmp_eq_zero_iff.2 fun i _ => by rw [Nat.zero_add, Nat.add_sub_cancel_left]
  rw [heq] at hload
  rw [testPhysicalMap, hload]
  simp only
  rw [if_neg (not_not_intro rfl), (puts_ascii (by decide) out).bind_iff, returns_pure_iff]

/-- A map that does not show the first byte does not. -/
theorem testPhysicalMap_faults {t : Translation} (hlow : pageWalk m 0x1000 0 = some t)
    (hmap : pageWalk m 0x1000 0xFFFF800000000000 = none) (out : List UInt8) :
    (testPhysicalMap m out).Returns (.faulted 0xFFFF800000000000) := by
  have herror : loadByte m 0xFFFF800000000000 = .error 0xFFFF800000000000 := by
    rw [loadByte, hmap]
  rw [testPhysicalMap, memcmpLoads_error (by decide) (loadByte_of_walk hlow) herror]
  exact returns_pure_iff.2 rfl

end compare

/-! ## The map -/

section map

variable {m mem : Memory} {total v : ℕ} {out : List UInt8}

/-- Low memory is seen at its own addresses. -/
theorem pageWalk_setupPhysicalMap_low (m : Memory) (htotal : total ≤ 2 ^ 46) (hv : v < 2 ^ 21) :
    pageWalk (setupPhysicalMap (.boot m) total).mem 0x1000 v = some ⟨v, true⟩ := by
  have hn := numGigs_eq (show total < 2 ^ 63 by omega)
  have hne : l4Index v ≠ physicalSlot (numGigs total) := fun h => by
    have h : v / 2 ^ 39 % 2 ^ 9 = (256 + numGigs total / 512) % 512 := congrArg Fin.val h
    omega
  rw [setupPhysicalMap, pageWalk_mapPhysicalMemory_of_ne (pageTree_start m) (boot_it_lt m) _ hne]
  exact pageWalk_boot_low m hv

/-- Up to 511 GiB, the map is complete. -/
theorem physicallyMapped_of_le (m : Memory) (htotal : total ≤ 511 * 2 ^ 30) :
    PhysicallyMapped m total := by
  have hn := numGigs_eq (show total < 2 ^ 63 by omega)
  refine ⟨fun p hp => ?_, fun v hv hout => ?_⟩
  · exact pageWalk_of_mapsPhysical m (by omega) (by omega) (by omega)
  · exact pageWalk_of_not_physical (by omega) hv (hn ▸ hout)

/-- The map shows the first gigabyte, or it does not show the first byte. -/
theorem setupPhysicalMap_cases (m : Memory) (htotal : total ≤ 2 ^ 46) :
    (0 < total ∧ total ≤ 511 * 2 ^ 30) ∧ (∀ p < 2 ^ 30,
        pageWalk (setupPhysicalMap (.boot m) total).mem 0x1000 (0xFFFF800000000000 + p) =
          some ⟨p, true⟩) ∨
      ¬(0 < total ∧ total ≤ 511 * 2 ^ 30) ∧
        pageWalk (setupPhysicalMap (.boot m) total).mem 0x1000 0xFFFF800000000000 = none := by
  have hn := numGigs_eq (show total < 2 ^ 63 by omega)
  by_cases h : 0 < total ∧ total ≤ 511 * 2 ^ 30
  · refine .inl ⟨h, fun p hp => ?_⟩
    exact pageWalk_of_mapsPhysical m (by omega) (by omega) (by omega)
  · have hwalk := pageWalk_physical m (numGigs total) (p := 0) (by decide)
    rw [if_neg (by omega)] at hwalk
    exact .inr ⟨h, hwalk⟩

/-- There is memory and all of it is mapped up to 511 GiB. -/
theorem pos_physicallyMapped_iff (m : Memory) (htotal : total ≤ 2 ^ 46) :
    0 < total ∧ PhysicallyMapped m total ↔ 0 < total ∧ total ≤ 511 * 2 ^ 30 := by
  refine and_congr_right fun hpos => ⟨fun hmapped => ?_, fun hle => physicallyMapped_of_le m hle⟩
  rcases setupPhysicalMap_cases m htotal with ⟨h, _⟩ | ⟨_, hnone⟩
  · exact h.2
  · exact absurd ((hmapped.1 0 hpos).symm.trans hnone) (by simp)

/-- With at most 511 GiB of memory, and some, the test passes. Otherwise it faults. -/
theorem testPhysicalMap_cases (m : Memory) (htotal : total ≤ 2 ^ 46) (out : List UInt8) :
    (0 < total ∧ total ≤ 511 * 2 ^ 30) ∧
        (testPhysicalMap (setupPhysicalMap (.boot m) total).mem out).Returns
          (.passed (out ++ ascii "Physical Page Table mapping is correct\n")) ∨
      ¬(0 < total ∧ total ≤ 511 * 2 ^ 30) ∧
        (testPhysicalMap (setupPhysicalMap (.boot m) total).mem out).Returns
          (.faulted 0xFFFF800000000000) := by
  have hlow : ∀ v < 2 ^ 21, pageWalk (setupPhysicalMap (.boot m) total).mem 0x1000 v =
      some ⟨v, true⟩ := fun v hv => pageWalk_setupPhysicalMap_low m htotal hv
  rcases setupPhysicalMap_cases m htotal with ⟨h, hmap⟩ | ⟨h, hmap⟩
  · exact .inl ⟨h, testPhysicalMap_passes hlow hmap out⟩
  · exact .inr ⟨h, testPhysicalMap_faults (hlow 0 (by decide)) hmap out⟩

/-- The test passes if and only if there is memory and the map shows all of it, and nothing else
    has changed. Otherwise it faults at the first address of the map: it never halts. -/
theorem physicalMapTest_iff (m : Memory) (htotal : total ≤ 2 ^ 46) (out : List UInt8) :
    ((testPhysicalMap (setupPhysicalMap (.boot m) total).mem out).Returns
        (.passed (out ++ ascii "Physical Page Table mapping is correct\n")) ↔
      0 < total ∧ PhysicallyMapped m total) ∧
    ((testPhysicalMap (setupPhysicalMap (.boot m) total).mem out).Returns
        (.faulted 0xFFFF800000000000) ↔ ¬(0 < total ∧ PhysicallyMapped m total)) := by
  rw [pos_physicallyMapped_iff m htotal]
  rcases testPhysicalMap_cases m htotal out with ⟨h, hpasses⟩ | ⟨h, hfaults⟩
  · refine ⟨iff_of_true hpasses h, iff_of_false (fun hfaults => ?_) (not_not_intro h)⟩
    exact absurd (hpasses.unique hfaults) (by simp)
  · refine ⟨iff_of_false (fun hpasses => ?_) h, iff_of_true hfaults h⟩
    exact absurd (hpasses.unique hfaults) (by simp)

/-- A gigabyte, all of which is mapped. -/
theorem physicalMapTest_iff_one_gib :
    ((testPhysicalMap (setupPhysicalMap (.boot fun _ => 0) (2 ^ 30)).mem []).Returns
        (.passed ([] ++ ascii "Physical Page Table mapping is correct\n")) ↔
      0 < 2 ^ 30 ∧ PhysicallyMapped (fun _ => 0) (2 ^ 30)) ∧
    ((testPhysicalMap (setupPhysicalMap (.boot fun _ => 0) (2 ^ 30)).mem []).Returns
        (.faulted 0xFFFF800000000000) ↔ ¬(0 < 2 ^ 30 ∧ PhysicallyMapped (fun _ => 0) (2 ^ 30))) :=
  physicalMapTest_iff (fun _ => 0) (by decide) []

end map

end Cboot
