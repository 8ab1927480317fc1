import Cboot.Disk.Partition
import Mathlib.Data.List.Find

/-!
# The partition found

What the search finds on a disk with entries of 128 bytes: the first partition of the name
among the entries in front of the first unused one (`findPartitionByName_finds`). A
partition after an unused entry is not found (`not_findsNamed_slotDisk`).
-/

namespace Cboot

open AtaDevice Fueled

/-! ## Names -/

namespace GPTEntry

/-- The entry is of a partition. -/
def Used (e : GPTEntry) : Prop := ∃ i, e.partitionTypeGuid i ≠ 0

instance (e : GPTEntry) : Decidable e.Used := inferInstanceAs (Decidable (∃ _, _))

/-- The units of the name up to the first zero. -/
def name (e : GPTEntry) : List UInt16 := (List.ofFn e.partitionName).takeWhile (· ≠ 0)

/-- The name is one of ASCII characters, with a zero after it. -/
def HasAsciiName (e : GPTEntry) : Prop := e.name.length < 32 ∧ ∀ u ∈ e.name, u < 128

end GPTEntry

section names

variable {buf m : Memory} {a p : ℕ} {s : List UInt8}

theorem nullEntryAt_iff : NullEntryAt buf a ↔ ¬(readGPTEntry buf a).Used := by
  rw [GPTEntry.Used, not_exists]
  exact ⟨fun h i => not_not_intro (h i i.isLt), fun h i hi => not_not.1 (h ⟨i, hi⟩)⟩

/-- An entry only depends on its bytes. -/
theorem readGPTEntry_congr {buf' : Memory} (h : ∀ i < 120, buf (a + i) = buf' (a + i)) :
    readGPTEntry buf a = readGPTEntry buf' a := by
  have hread : ∀ n k, k + n ≤ 120 → buf.read n (a + k) = buf'.read n (a + k) := fun n k hk =>
    Memory.read_congr fun i hi => by
      rw [Nat.add_assoc]
      exact h (k + i) (by omega)
  rw [readGPTEntry, readGPTEntry, hread 8 32 (by decide), hread 8 40 (by decide),
    hread 8 48 (by decide)]
  have h₁ : (fun i : Fin 16 => buf (a + i)) = fun i : Fin 16 => buf' (a + i) :=
    funext fun i => h i (by omega)
  have h₂ : (fun i : Fin 16 => buf (a + 16 + i)) = fun i : Fin 16 => buf' (a + 16 + i) :=
    funext fun i => by rw [Nat.add_assoc]; exact h (16 + i) (by omega)
  have h₃ : (fun i : Fin 32 => UInt16.ofNat (buf.read 2 (a + 56 + 2 * i))) =
      fun i : Fin 32 => UInt16.ofNat (buf'.read 2 (a + 56 + 2 * i)) :=
    funext fun i => by rw [Nat.add_assoc a, hread 2 (56 + 2 * i) (by omega)]
  rw [h₁, h₂, h₃]

/-- The characters of the array `part_name`. -/
theorem partName_eq (buf : Memory) (a x : ℕ) : partName buf a x =
    if x < 32 then (UInt16.ofNat (buf.read 2 (a + 56 + 2 * x))).toUInt8 else 0 := by
  have key : ∀ k, copyPartName buf a (memset (fun _ => 0) 0 0 33) k x =
      if x < k then (UInt16.ofNat (buf.read 2 (a + 56 + 2 * x))).toUInt8 else 0 := by
    intro k
    induction k with
    | zero =>
      rw [copyPartName, memset_zero, if_neg (Nat.not_lt_zero x), Memory.fill]
      exact ite_self _
    | succ k ih =>
      rw [copyPartName]
      by_cases hx : x = k
      · rw [hx, Memory.set_self, if_pos (Nat.lt_succ_self k)]
      · rw [Memory.set_of_ne _ _ hx, ih]
        exact if_congr (by omega) rfl rfl
  exact key 32

/-- Units narrowed to bytes, one after the other, hold the string of the units up to the
    first zero. -/
theorem cString_units {units : List UInt16} (hm : ∀ i u, units[i]? = some u → m (p + i) = u.toUInt8)
    (hlen : (units.takeWhile (· ≠ 0)).length < units.length)
    (hascii : ∀ u ∈ units.takeWhile (· ≠ 0), u < 128) :
    CString m p ((units.takeWhile (· ≠ 0)).map (·.toUInt8)) := by
  induction units generalizing p with
  | nil => exact absurd hlen (Nat.not_lt_zero _)
  | cons u units ih =>
    have h₀ : m p = u.toUInt8 := hm 0 u rfl
    by_cases hu : u = 0
    · rw [List.takeWhile_cons_of_neg (by simpa using hu), List.map_nil, CString, h₀, hu]
      rfl
    · rw [List.takeWhile_cons_of_pos (by simpa using hu)] at hlen hascii ⊢
      have hlt : u.toNat < 128 := UInt16.lt_iff_toNat_lt.1 (hascii u List.mem_cons_self)
      have hne : u.toUInt8 ≠ 0 := by
        intro h
        have hnat := congrArg UInt8.toNat h
        rw [UInt16.toNat_toUInt8, UInt8.toNat_zero] at hnat
        exact hu (UInt16.toNat_inj.1 ((Nat.mod_eq_of_lt (by omega)).symm.trans hnat))
      refine ⟨h₀, hne, ih (fun i v hv => ?_) (Nat.lt_of_succ_lt_succ hlen) fun v hv =>
        hascii v (List.mem_cons_of_mem _ hv)⟩
      have := hm (i + 1) v hv
      rwa [Nat.add_comm i, ← Nat.add_assoc] at this

/-- Narrowing characters loses nothing. -/
theorem eq_map_toUInt8_iff {units : List UInt16} (hascii : ∀ u ∈ units, u < 128) :
    s = units.map (·.toUInt8) ↔ units = s.map (·.toUInt16) := by
  constructor
  · rintro rfl
    rw [List.map_map]
    refine (List.map_id' units).symm.trans (List.map_congr_left fun u hu => UInt16.toNat_inj.1 ?_)
    have hlt : u.toNat < 128 := UInt16.lt_iff_toNat_lt.1 (hascii u hu)
    simp only [Function.comp_apply, UInt8.toNat_toUInt16, UInt16.toNat_toUInt8]
    omega
  · rintro rfl
    rw [List.map_map]
    refine (List.map_id' s).symm.trans (List.map_congr_left fun u _ => UInt8.toNat_inj.1 ?_)
    have := u.toNat_lt
    simp only [Function.comp_apply, UInt8.toNat_toUInt16, UInt16.toNat_toUInt8]
    omega

/-- The entry returned when nothing is found is unused. -/
theorem nullEntry_partitionTypeGuid (i : Fin 16) : nullEntry.partitionTypeGuid i = 0 := by
  have hi : 0 + i.val < 0 + 120 := by omega
  rw [nullEntry, memset_zero]
  change Memory.fill (fun _ => 0) 0 120 0 (0 + i.val) = 0
  exact Memory.fill_of_mem (Nat.zero_le _) hi

/-- The comparison finds out whether the entry has the name. -/
theorem nameMatches_iff (h : (readGPTEntry buf a).HasAsciiName) (hp : CString m p s)
    (hs : s.length < 32) :
    nameMatches buf m p a = true ↔ (readGPTEntry buf a).name = s.map (·.toUInt16) := by
  obtain ⟨hlen, hascii⟩ := h
  have hstring : CString (partName buf a) 0 ((readGPTEntry buf a).name.map (·.toUInt8)) := by
    refine cString_units (fun i u hu => ?_) (by rwa [List.length_ofFn]) hascii
    obtain ⟨hi, rfl⟩ := List.getElem?_eq_some_iff.1 hu
    rw [List.length_ofFn] at hi
    rw [Nat.zero_add, partName_eq, if_pos hi, List.getElem_ofFn]
    rfl
  rw [nameMatches, beq_iff_eq, strncmp_eq_zero_iff hp hstring, List.take_of_length_le (by omega),
    List.take_of_length_le (by rw [List.length_map]; omega), eq_map_toUInt8_iff hascii]

end names

/-! ## The partition found -/

/-- The first `n` entries on the disk, of 128 bytes each. -/
def slots (disk : ℕ → Memory) (n : ℕ) : List GPTEntry :=
  (List.range n).map fun k => readGPTEntry (entryArray disk) (128 * k)

/-- The first partition of the name among the entries, if any. -/
def firstNamed (es : List GPTEntry) (s : List UInt8) : Option GPTEntry :=
  es.find? fun e => e.Used ∧ e.name = s.map (·.toUInt16)

/-- The search returns the first partition of the name, or an entry of zeros. -/
def FindsNamed (d : AtaDevice) (stack m : Memory) (name : ℕ) (es : List GPTEntry)
    (s : List UInt8) : Prop :=
  ∃ d' inspected, (findPartitionByName ports d stack m name).Returns
    (d', (firstNamed es s).getD nullEntry, inspected)

section found

variable {d : AtaDevice} {stack m : Memory} {name n : ℕ} {s : List UInt8}

theorem readGPTEntry_partitionBuffer {disk : ℕ → Memory} {a : ℕ} (h : a + 120 ≤ 4096) :
    readGPTEntry (partitionBuffer stack disk) a = readGPTEntry (entryArray disk) a :=
  readGPTEntry_congr fun i hi => partitionBuffer_of_lt (by omega)

/-- The entries in front of the first unused one. -/
theorem takeWhile_slots {disk : ℕ → Memory} {k : ℕ} (hk : k < n)
    (hunused : ¬(readGPTEntry (entryArray disk) (128 * k)).Used)
    (hused : ∀ i < k, (readGPTEntry (entryArray disk) (128 * i)).Used) :
    (slots disk n).takeWhile (·.Used) = slots disk k := by
  obtain ⟨j, rfl⟩ := Nat.exists_eq_add_of_lt hk
  rw [slots, Nat.add_assoc, List.range_add, List.map_append, List.takeWhile_append_of_pos,
    List.range_succ_eq_map, List.map_cons, List.map_cons, List.takeWhile_cons_of_neg,
    List.append_nil]
  · rfl
  · simpa using hunused
  · intro e he
    obtain ⟨i, hi, rfl⟩ := List.mem_map.1 he
    exact decide_eq_true (hused i (List.mem_range.1 hi))

theorem exists_first_unused {disk : ℕ → Memory} (h : ∃ e ∈ slots disk n, ¬e.Used) : ∃ k < n,
    ¬(readGPTEntry (entryArray disk) (128 * k)).Used ∧
    ∀ i < k, (readGPTEntry (entryArray disk) (128 * i)).Used := by
  classical
  have hex : ∃ k, k < n ∧ ¬(readGPTEntry (entryArray disk) (128 * k)).Used := by
    obtain ⟨e, he, hu⟩ := h
    obtain ⟨k, hk, rfl⟩ := List.mem_map.1 he
    exact ⟨k, List.mem_range.1 hk, hu⟩
  obtain ⟨hk, hu⟩ := Nat.find_spec hex
  exact ⟨_, hk, hu, fun i hi => not_not.1 fun h =>
    Nat.find_min hex hi ⟨Nat.lt_trans hi hk, h⟩⟩

/-- What the loop finds among entries in use is the first partition of the name. -/
theorem firstNamed_slots {disk : ℕ → Memory} {k : ℕ} (hk : k ≤ 32)
    (hused : ∀ i < k, (readGPTEntry (entryArray disk) (128 * i)).Used)
    (hnames : ∀ i < k, (readGPTEntry (entryArray disk) (128 * i)).HasAsciiName)
    (hname : CString m name s) (hs : s.length < 32) : firstNamed (slots disk k) s =
      ((entryAddrs 0 128 k).find? (nameMatches (partitionBuffer stack disk) m name)).map
        (readGPTEntry (partitionBuffer stack disk)) := by
  have hread : ∀ i < k, readGPTEntry (partitionBuffer stack disk) (0 + 128 * i) =
      readGPTEntry (entryArray disk) (128 * i) := fun i hi => by
    rw [Nat.zero_add, readGPTEntry_partitionBuffer (by omega)]
  have hfind : (List.range k).find? ((fun e : GPTEntry => decide (e.Used ∧ e.name =
      s.map (·.toUInt16))) ∘ fun i => readGPTEntry (entryArray disk) (128 * i)) =
      (List.range k).find? (nameMatches (partitionBuffer stack disk) m name ∘ fun i =>
        0 + 128 * i) := by
    refine List.find?_congr fun i hi => Bool.eq_iff_iff.2 ?_
    have hi := List.mem_range.1 hi
    have hascii : (readGPTEntry (partitionBuffer stack disk) (0 + 128 * i)).HasAsciiName :=
      hread i hi ▸ hnames i hi
    rw [Function.comp_apply, Function.comp_apply, nameMatches_iff hascii hname hs, hread i hi,
      decide_eq_true_iff]
    exact and_iff_right (hused i hi)
  rw [firstNamed, slots, entryAddrs, List.find?_map, List.find?_map, hfind]
  cases hi : (List.range k).find? _ with
  | none => rfl
  | some i =>
    have := List.mem_range.1 (List.mem_of_find?_eq_some hi)
    exact congrArg some (hread i this).symm

/-- A name of one character. -/
theorem hasAsciiName_of_name {e : GPTEntry} {u : UInt16} (h : e.name = [u]) (hu : u < 128) :
    e.HasAsciiName := by
  refine ⟨?_, fun v hv => ?_⟩
  · rw [h]
    exact show 1 < 32 by decide
  · rw [h, List.mem_singleton] at hv
    rwa [hv]

/-- The partition returned is the first one of the name among the entries in front of the
    first unused one. -/
theorem findPartitionByName_finds (hl : d.Live) (stack : Memory) (hsize : entrySize d.disk = 128)
    (hn : n ≤ 32) (hunused : ∃ e ∈ slots d.disk n, ¬e.Used)
    (hnames : ∀ e ∈ slots d.disk n, e.Used → e.HasAsciiName) (hname : CString m name s)
    (hs : s.length < 32) :
    FindsNamed d stack m name ((slots d.disk n).takeWhile (·.Used)) s := by
  obtain ⟨k, hk, hnull, hused⟩ := exists_first_unused hunused
  have hnames' : ∀ i < k, (readGPTEntry (entryArray d.disk) (128 * i)).HasAsciiName := fun i hi =>
    hnames _ (List.mem_map.2 ⟨i, List.mem_range.2 (Nat.lt_trans hi hk), rfl⟩) (hused i hi)
  have hret := findPartitionByName_returns hl stack m name (k := k)
  rw [hsize] at hret
  obtain ⟨d', _, h⟩ := hret (by omega) (nullEntryAt_iff.2 hnull) fun i hi =>
    nullEntryAt_iff.not.2 (not_not_intro (hused i hi))
  rw [← firstNamed_slots (by omega) hused hnames' hname hs, ← takeWhile_slots hk hnull hused] at h
  exact ⟨d', _, h⟩

/-- A disk with three partitions, of which the second and the third one have the name `a`, and an
    unused entry after them. -/
def namedDisk : ℕ → Memory := fun lba =>
  if lba = 1 then Memory.write (fun _ => 0) 4 84 128
  else if lba = 2 then fun x =>
    if x ∈ [0, 128, 256] then 1
    else if x = 56 then 0x62
    else if x ∈ [184, 312] then 0x61
    else 0
  else fun _ => 0

/-- The first one of the name is found. -/
theorem findPartitionByName_finds_namedDisk : ∃ d' inspected,
    (findPartitionByName ports (driveOf namedDisk) (fun _ => 1) nameA 0).Returns
      (d', readGPTEntry (entryArray namedDisk) 128, inspected) := by
  have hnames : ∀ i < 3, (readGPTEntry (entryArray namedDisk) (128 * i)).HasAsciiName := by
    intro i hi
    obtain rfl | rfl | rfl : i = 0 ∨ i = 1 ∨ i = 2 := by omega
    · exact hasAsciiName_of_name (u := 0x62) (by decide) (by decide)
    · exact hasAsciiName_of_name (u := 0x61) (by decide) (by decide)
    · exact hasAsciiName_of_name (u := 0x61) (by decide) (by decide)
  have hfinds : FindsNamed (driveOf namedDisk) (fun _ => 1) nameA 0
      ((slots namedDisk 4).takeWhile (·.Used)) [0x61] := by
    refine findPartitionByName_finds (live_driveOf _) _ (by decide) (by decide) ?_ ?_ cString_nameA
      (by decide)
    · exact ⟨_, List.mem_map.2 ⟨3, by decide, rfl⟩, by decide⟩
    · intro e he hused
      obtain ⟨i, hi, rfl⟩ := List.mem_map.1 he
      by_cases h₃ : i = 3
      · exact absurd hused (by rw [h₃]; decide)
      · exact hnames i (by have := List.mem_range.1 hi; omega)
  have htake : (slots namedDisk 4).takeWhile (·.Used) = slots namedDisk 3 :=
    takeWhile_slots (by decide) (by decide) (by decide)
  have hfirst : firstNamed (slots namedDisk 3) [0x61] =
      some (readGPTEntry (entryArray namedDisk) 128) := by
    have h₀ : ¬((readGPTEntry (entryArray namedDisk) 0).Used ∧
      (readGPTEntry (entryArray namedDisk) 0).name = [0x61]) := by decide
    have h₁ : (readGPTEntry (entryArray namedDisk) 128).Used ∧
      (readGPTEntry (entryArray namedDisk) 128).name = [0x61] := by decide
    change List.find? _ [_, _, _] = _
    rw [List.find?_cons_of_neg (by simpa using h₀), List.find?_cons_of_pos (by simpa using h₁)]
  rw [htake, FindsNamed, hfirst] at hfinds
  exact hfinds

/-- A partition after an unused entry is not found. -/
theorem not_findsNamed_slotDisk :
    ¬FindsNamed (driveOf (slotDisk 1)) (fun _ => 1) nameA 0 (slots (slotDisk 1) 2) [0x61] := by
  rintro ⟨d', inspected, h⟩
  obtain ⟨d'', _, hret⟩ := findPartitionByName_returns (live_driveOf (slotDisk 1)) (fun _ => 1)
    nameA 0 (k := 0) (by decide) (by decide) fun i hi => absurd hi (Nat.not_lt_zero i)
  have hentry := (Prod.mk.inj (Prod.mk.inj (h.unique hret)).2).1
  have hguid := congrArg (fun e : GPTEntry => e.partitionTypeGuid 0) hentry
  change (1 : UInt8) = nullEntry.partitionTypeGuid 0 at hguid
  rw [nullEntry_partitionTypeGuid] at hguid
  exact absurd hguid (by decide)

end found

end Cboot
