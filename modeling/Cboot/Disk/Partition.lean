import Cboot.Disk.Gpt
import Cboot.Mem
import Mathlib.Data.Nat.Find

/-!
# Looking for a partition

`find_partition_by_name` of `main.c` reads the header and the first eight sectors of the
partition entries into one buffer, and goes through the entries up to the first one of type
zero. What is above the buffer on the stack is whatever it is.

* `loop_entryRound_returns`: the loop, if there is an entry of type zero;
* `scanSafe_iff`: the loop stays inside the buffer, and ends, if and only if one of the
  entries in the buffer is unused.
-/

namespace Cboot

open AtaDevice Fueled

/-! ## Entries -/

/-- The field `sizeof_partition_entry` of the header. -/
def sizeofPartitionEntry (gpt : Memory) : ℕ := gpt.read 4 84

/-- The loop that narrows the name of the entry at `gptePtr` to characters, after `i` rounds. -/
def copyPartName (buf : Memory) (gptePtr : ℕ) (partName : Memory) : (i : ℕ) → Memory
  | 0 => partName
  | i + 1 => (copyPartName buf gptePtr partName i).set i
      (UInt16.ofNat (buf.read 2 (gptePtr + 56 + 2 * i))).toUInt8

/-- The array `part_name`. -/
def partName (buf : Memory) (gptePtr : ℕ) : Memory :=
  copyPartName buf gptePtr (memset (fun _ => 0) 0 0 33) 32

/-- The array `gpte_found` before anything is found. -/
def nullEntry : GPTEntry := readGPTEntry (memset (fun _ => 0) 0 0 120) 0

/-- A round of the loop, with the pointer, `found`, `gpte_found` and the entries inspected
    so far. The entry for which the loop ends is inspected, too. -/
def entryRound (buf m : Memory) (name gpteSize : ℕ) : ℕ × ℕ × GPTEntry × List ℕ →
    Fueled (ℕ × ℕ × GPTEntry × List ℕ ⊕ GPTEntry × List ℕ)
  | (gptePtr, found, gpteFound, inspected) =>
    let nullbuf := memset (fun _ => 0) 0 0 16
    if memcmp nullbuf 0 buf gptePtr 16 ≠ 0 then
      let result := strncmp m name (partName buf gptePtr) 0 32
      let (found, gpteFound) :=
        if result = 0 ∧ found = 0 then (1, readGPTEntry buf gptePtr) else (found, gpteFound)
      pure (.inl ((gptePtr + gpteSize) % 2 ^ 64, found, gpteFound, inspected ++ [gptePtr]))
    else pure (.inr (gpteFound, inspected ++ [gptePtr]))

section find

variable {δ : Type} (io : Ports δ)

/-- The sectors that the search reads: the buffer, and the size of an entry. The buffer is at
    the beginning of `stack`. -/
def readPartitionTable (d : δ) (stack : Memory) : Fueled (δ × Memory × ℕ) := do
  let (d, buf) ← ataPioReadSectors io (d, stack) 0 1 1
  let gpteSize := sizeofPartitionEntry buf
  let (d, buf) ← ataPioReadSectors io (d, buf) 0 2 8
  pure (d, buf, gpteSize)

/-- `find_partition_by_name`, with the entries inspected, given by their distance from the
    buffer. The name is in `m`. -/
def findPartitionByName (d : δ) (stack m : Memory) (name : ℕ) :
    Fueled (δ × GPTEntry × List ℕ) := do
  let (d, buf, gpteSize) ← readPartitionTable io d stack
  let (gpteFound, inspected) ← .loop (entryRound buf m name gpteSize) (0, 0, nullEntry, [])
  pure (d, gpteFound, inspected)

end find

/-! ## The loop -/

/-- The entry at `a` is of type zero. -/
def NullEntryAt (buf : Memory) (a : ℕ) : Prop := ∀ i < 16, buf (a + i) = 0

instance (buf : Memory) (a : ℕ) : Decidable (NullEntryAt buf a) :=
  inferInstanceAs (Decidable (∀ i < 16, _))

/-- What the loop compares: the name of the entry at `a` is the one in `m`. -/
def nameMatches (buf m : Memory) (name a : ℕ) : Bool := strncmp m name (partName buf a) 0 32 == 0

section loop

variable {buf m : Memory} {name gpteSize gptePtr found k : ℕ} {gpteFound : GPTEntry}
  {inspected : List ℕ}

theorem memcmp_null_iff : memcmp (memset (fun _ => 0) 0 0 16) 0 buf gptePtr 16 = 0 ↔
    NullEntryAt buf gptePtr := by
  rw [memcmp_eq_zero_iff, memset_zero]
  refine forall₂_congr fun i hi => ?_
  rw [Nat.zero_add, Memory.fill_of_mem (Nat.zero_le i) (by omega)]
  exact eq_comm

/-- The round that ends the loop. -/
theorem entryRound_null (h : NullEntryAt buf gptePtr) :
    (entryRound buf m name gpteSize (gptePtr, found, gpteFound, inspected)).Returns
      (.inr (gpteFound, inspected ++ [gptePtr])) := by
  rw [entryRound, if_neg (not_not_intro (memcmp_null_iff.2 h)), returns_pure_iff]

/-- A round that goes on. -/
theorem entryRound_used (h : ¬NullEntryAt buf gptePtr) :
    (entryRound buf m name gpteSize (gptePtr, found, gpteFound, inspected)).Returns
      (.inl ((gptePtr + gpteSize) % 2 ^ 64,
        (if nameMatches buf m name gptePtr = true ∧ found = 0 then 1 else found),
        (if nameMatches buf m name gptePtr = true ∧ found = 0 then readGPTEntry buf gptePtr
          else gpteFound), inspected ++ [gptePtr])) := by
  rw [entryRound, if_pos (memcmp_null_iff.not.2 h), returns_pure_iff]
  simp only [nameMatches, beq_iff_eq]
  split <;> rfl

/-- The addresses of the first `k` entries. -/
def entryAddrs (gptePtr gpteSize k : ℕ) : List ℕ :=
  (List.range k).map fun i => gptePtr + gpteSize * i

theorem entryAddrs_succ (gptePtr gpteSize k : ℕ) :
    entryAddrs gptePtr gpteSize (k + 1) =
      gptePtr :: entryAddrs (gptePtr + gpteSize) gpteSize k := by
  rw [entryAddrs, entryAddrs, List.range_succ_eq_map, List.map_cons, List.map_map]
  refine congrArg₂ List.cons rfl (List.map_congr_left fun i _ => ?_)
  change gptePtr + gpteSize * (i + 1) = gptePtr + gpteSize + gpteSize * i
  rw [Nat.mul_succ]
  omega

/-- If the first entry of type zero is the one after `k` others, the first of these with the
    name is found, unless one has been found before. -/
theorem loop_entryRound_returns (hused : ∀ i < k, ¬NullEntryAt buf (gptePtr + gpteSize * i))
    (hnull : NullEntryAt buf (gptePtr + gpteSize * k)) (hlt : gptePtr + gpteSize * k < 2 ^ 64) :
    (loop (entryRound buf m name gpteSize) (gptePtr, found, gpteFound, inspected)).Returns
      (if found = 0 then
        (((entryAddrs gptePtr gpteSize k).find? (nameMatches buf m name)).map
          (readGPTEntry buf)).getD gpteFound else gpteFound,
        inspected ++ entryAddrs gptePtr gpteSize (k + 1)) := by
  induction k generalizing gptePtr found gpteFound inspected with
  | zero =>
    have hnull : NullEntryAt buf gptePtr := by simpa using hnull
    refine Returns.loop_done ?_
    rw [show entryAddrs gptePtr gpteSize 0 = [] from rfl, List.find?_nil, Option.map_none,
      Option.getD_none, ite_self, entryAddrs_succ]
    exact entryRound_null hnull
  | succ k ih =>
    have hnext : ∀ i, gptePtr + gpteSize + gpteSize * i = gptePtr + gpteSize * (i + 1) := by
      intro i
      rw [Nat.mul_succ]
      omega
    have hle : gptePtr + gpteSize ≤ gptePtr + gpteSize * (k + 1) := by
      rw [← hnext]
      omega
    have hused₀ : ¬NullEntryAt buf gptePtr := by simpa using hused 0 (Nat.succ_pos k)
    rw [Returns.loop_iff (entryRound_used hused₀), Nat.mod_eq_of_lt (by omega)]
    have hrest := @ih (gptePtr + gpteSize)
      (if nameMatches buf m name gptePtr = true ∧ found = 0 then 1 else found)
      (if nameMatches buf m name gptePtr = true ∧ found = 0 then readGPTEntry buf gptePtr
        else gpteFound) (inspected ++ [gptePtr])
      (fun i hi => hnext i ▸ hused (i + 1) (Nat.succ_lt_succ hi)) (hnext k ▸ hnull) (hnext k ▸ hlt)
    rw [List.append_assoc, List.singleton_append, ← entryAddrs_succ] at hrest
    rw [entryAddrs_succ gptePtr gpteSize k]
    by_cases hsel : nameMatches buf m name gptePtr = true ∧ found = 0
    · -- The entry is the one found.
      rw [if_pos hsel, if_neg Nat.one_ne_zero, if_pos hsel] at hrest
      rw [if_pos hsel, if_pos hsel, if_pos hsel.2, List.find?_cons_of_pos hsel.1]
      exact hrest
    · rw [if_neg hsel, if_neg hsel] at hrest
      rw [if_neg hsel, if_neg hsel]
      by_cases hfound : found = 0
      · rw [if_pos hfound] at hrest ⊢
        rw [List.find?_cons_of_neg fun h => hsel ⟨h, hfound⟩]
        exact hrest
      · rw [if_neg hfound] at hrest ⊢
        exact hrest

/-- The entries inspected are one entry size apart, as long as they are in the buffer. -/
theorem inspected_of_returns {r : GPTEntry × List ℕ} (hsize : gpteSize < 2 ^ 32)
    (h : (loop (entryRound buf m name gpteSize) (0, 0, nullEntry, [])).Returns r)
    (hin : ∀ a ∈ r.2, a + 120 ≤ 4096) :
    ∃ k, gpteSize * k ∈ r.2 ∧ NullEntryAt buf (gpteSize * k) := by
  obtain ⟨⟨gptePtr, found, gpteFound, inspected⟩, hptr, hlast⟩ := h.loop_inv
    (I := fun s => (∀ a ∈ s.2.2.2, a + 120 ≤ 4096) → s.1 = gpteSize * s.2.2.2.length)
    (fun _ => rfl) (by
      rintro ⟨gptePtr, found, gpteFound, inspected⟩ s' hptr hs hin
      by_cases hnull : NullEntryAt buf gptePtr
      · exact absurd (hs.unique (entryRound_null hnull)) (by simp)
      · obtain rfl := Sum.inl.inj (hs.unique (entryRound_used hnull))
        have hlt := hin gptePtr (List.mem_append_right _ List.mem_cons_self)
        have hptr := hptr fun a ha => hin a (List.mem_append_left _ ha)
        simp only at hptr ⊢
        rw [List.length_append, List.length_singleton, Nat.mul_succ, ← hptr,
          Nat.mod_eq_of_lt (by omega)])
  by_cases hnull : NullEntryAt buf gptePtr
  · obtain rfl := Sum.inr.inj (hlast.unique (entryRound_null hnull))
    have hptr : gptePtr = gpteSize * inspected.length :=
      hptr fun a ha => hin a (List.mem_append_left _ ha)
    exact ⟨_, hptr ▸ List.mem_append_right _ List.mem_cons_self, hptr ▸ hnull⟩
  · exact absurd (hlast.unique (entryRound_used hnull)) (by simp)

end loop

/-! ## The search -/

/-- The buffer when the loop begins: the sectors of the entries, and what is above it. -/
def partitionBuffer (stack : Memory) (disk : ℕ → Memory) : Memory :=
  storeSectors (storeSectors stack 0 disk 1 1) 0 disk 2 8

/-- The size of an entry that the header gives. -/
def entrySize (disk : ℕ → Memory) : ℕ := (disk 1).read 4 84

/-- The sectors of the partition entries, one after the other. -/
def entryArray (disk : ℕ → Memory) : Memory := fun x => disk (2 + x / 512) (x % 512)

section search

variable {d : AtaDevice} {stack m : Memory} {name : ℕ}

theorem partitionBuffer_of_lt {disk : ℕ → Memory} {x : ℕ} (h : x < 4096) :
    partitionBuffer stack disk x = entryArray disk x := by
  have hx : storeSectors (storeSectors stack 0 disk 1 1) 0 disk 2 8 (0 + x) = entryArray disk x :=
    storeSectors_of_lt h
  rwa [Nat.zero_add] at hx

theorem readPartitionTable_returns (hl : d.Live) (stack : Memory) :
    ∃ d', After d d' [(1, 1), (2, 8)] ∧ (readPartitionTable ports d stack).Returns
      (d', partitionBuffer stack d.disk, entrySize d.disk) := by
  obtain ⟨d₁, h₁, ha₁⟩ : ∃ d₁, (ataPioReadSectors ports (d, stack) 0 1 1).Returns
      (d₁, storeSectors stack 0 d.disk 1 1) ∧ After d d₁ [(1, 1)] :=
    ataPioReadSectors_returns hl stack 0 1 1
  obtain ⟨d₂, h₂, ha₂⟩ : ∃ d₂, (ataPioReadSectors ports (d₁, storeSectors stack 0 d.disk 1 1) 0 2
      8).Returns (d₂, storeSectors (storeSectors stack 0 d.disk 1 1) 0 d₁.disk 2 8) ∧
        After d₁ d₂ [(2, 8)] :=
    ataPioReadSectors_returns (ha₁.live hl) _ 0 2 8
  rw [ha₁.disk] at h₂
  have hsize : sizeofPartitionEntry (storeSectors stack 0 d.disk 1 1) = entrySize d.disk := by
    refine Memory.read_congr fun i hi => ?_
    have hx : storeSectors stack 0 d.disk 1 1 (0 + (84 + i)) = _ := storeSectors_of_lt (by omega)
    rwa [Nat.zero_add, Nat.div_eq_of_lt (by omega), Nat.mod_eq_of_lt (by omega)] at hx
  refine ⟨d₂, ha₁.trans ha₂, ?_⟩
  rw [readPartitionTable, h₁.bind_iff]
  simp only [hsize]
  rw [h₂.bind_iff, returns_pure_iff]
  rfl

/-- The search is the loop, on the sectors read. -/
theorem findPartitionByName_returns_iff (hl : d.Live) (stack m : Memory) (name : ℕ) :
    ∃ d', After d d' [(1, 1), (2, 8)] ∧ ∀ r, (findPartitionByName ports d stack m name).Returns r ↔
      r.1 = d' ∧ (loop (entryRound (partitionBuffer stack d.disk) m name (entrySize d.disk))
        (0, 0, nullEntry, [])).Returns r.2 := by
  obtain ⟨d', ha, h⟩ := readPartitionTable_returns hl stack
  refine ⟨d', ha, fun r => ?_⟩
  rw [findPartitionByName, h.bind_iff, returns_bind_iff]
  constructor
  · rintro ⟨⟨gpteFound, inspected⟩, h, hr⟩
    obtain rfl := returns_pure_iff.1 hr
    exact ⟨rfl, h⟩
  · rintro ⟨hr, h⟩
    exact ⟨r.2, h, returns_pure_iff.2 (Prod.ext hr rfl)⟩

/-- The entry at `a` of the sectors is of type zero. -/
theorem nullEntryAt_partitionBuffer {disk : ℕ → Memory} {a : ℕ} (h : a + 120 ≤ 4096) :
    NullEntryAt (partitionBuffer stack disk) a ↔ NullEntryAt (entryArray disk) a :=
  forall₂_congr fun i hi => by rw [partitionBuffer_of_lt (by omega)]

/-- The search ends, and all entries inspected, of 120 bytes each, are in the buffer. -/
def ScanSafe (d : AtaDevice) (stack m : Memory) (name : ℕ) : Prop :=
  ∃ d' gpte inspected, (findPartitionByName ports d stack m name).Returns (d', gpte, inspected) ∧
    ∀ a ∈ inspected, a + 120 ≤ 4096

/-- A safe search inspects an entry of type zero. -/
theorem exists_nullEntryAt (hl : d.Live) (h : ScanSafe d stack m name) :
    ∃ k, entrySize d.disk * k + 120 ≤ 4096 ∧
      NullEntryAt (entryArray d.disk) (entrySize d.disk * k) := by
  obtain ⟨d', _, hiff⟩ := findPartitionByName_returns_iff hl stack m name
  obtain ⟨d'', gpte, inspected, h, hin⟩ := h
  obtain ⟨k, hmem, hnull⟩ := inspected_of_returns ((d.disk 1).read_lt 4 84) ((hiff _).1 h).2 hin
  have hk := hin _ hmem
  exact ⟨k, hk, (nullEntryAt_partitionBuffer hk).1 hnull⟩

/-- If the first entry of type zero is in the buffer, the search ends there, with the first
    entry in front of it that has the name. -/
theorem findPartitionByName_returns (hl : d.Live) (stack m : Memory) (name : ℕ) {k : ℕ}
    (hk : entrySize d.disk * k + 120 ≤ 4096)
    (hnull : NullEntryAt (entryArray d.disk) (entrySize d.disk * k))
    (hused : ∀ i < k, ¬NullEntryAt (entryArray d.disk) (entrySize d.disk * i)) :
    ∃ d', After d d' [(1, 1), (2, 8)] ∧ (findPartitionByName ports d stack m name).Returns
      (d', (((entryAddrs 0 (entrySize d.disk) k).find?
        (nameMatches (partitionBuffer stack d.disk) m name)).map
          (readGPTEntry (partitionBuffer stack d.disk))).getD nullEntry,
        entryAddrs 0 (entrySize d.disk) (k + 1)) := by
  obtain ⟨d', ha, hiff⟩ := findPartitionByName_returns_iff hl stack m name
  refine ⟨d', ha, (hiff _).2 ⟨rfl, loop_entryRound_returns (fun i hi => ?_) ?_ (by omega)⟩⟩
  · have := Nat.mul_le_mul_left (entrySize d.disk) (Nat.le_of_lt hi)
    rw [Nat.zero_add, nullEntryAt_partitionBuffer (by omega)]
    exact hused i hi
  · rw [Nat.zero_add, nullEntryAt_partitionBuffer hk]
    exact hnull

theorem scanSafe_of_nullEntryAt (hl : d.Live) (stack m : Memory) (name : ℕ)
    (hex : ∃ k, entrySize d.disk * k + 120 ≤ 4096 ∧
      NullEntryAt (entryArray d.disk) (entrySize d.disk * k)) : ScanSafe d stack m name := by
  classical
  obtain ⟨hk, hnull⟩ := Nat.find_spec hex
  -- The entries in front of the first of type zero are in the buffer, too.
  have hin : ∀ i ≤ Nat.find hex, entrySize d.disk * i + 120 ≤ 4096 := fun i hi => by
    have := Nat.mul_le_mul_left (entrySize d.disk) hi
    omega
  obtain ⟨d', _, h⟩ := findPartitionByName_returns hl stack m name hk hnull fun i hi hi' =>
    Nat.find_min hex hi ⟨hin i (Nat.le_of_lt hi), hi'⟩
  refine ⟨d', _, _, h, fun a ha => ?_⟩
  obtain ⟨i, hi, rfl⟩ := List.mem_map.1 ha
  rw [Nat.zero_add]
  exact hin i (Nat.le_of_lt_succ (List.mem_range.1 hi))

/-- Whatever is looked for, and whatever is on the stack: the search is safe if and only if
    there is an entry of type zero in the buffer. -/
theorem scanSafe_iff (hl : d.Live) (stack m : Memory) (name : ℕ) : ScanSafe d stack m name ↔
    ∃ k, entrySize d.disk * k + 120 ≤ 4096 ∧
      NullEntryAt (entryArray d.disk) (entrySize d.disk * k) :=
  ⟨exists_nullEntryAt hl, scanSafe_of_nullEntryAt hl stack m name⟩

/-- A disk with one partition, of the name `a`, in the slot `k` of the first sector. -/
def slotDisk (k : ℕ) : ℕ → Memory := fun lba =>
  if lba = 1 then Memory.write (fun _ => 0) 4 84 128
  else if lba = 2 then (Memory.set (fun _ => 0) (128 * k) 1).set (128 * k + 56) 0x61
  else fun _ => 0

/-- The name `a`, stored at 0. -/
def nameA : Memory := Memory.store (fun _ => 0) 0 [0x61]

theorem cString_nameA : CString nameA 0 [0x61] := ⟨rfl, by decide, rfl⟩

theorem scanSafe_slotDisk : ScanSafe (driveOf (slotDisk 0)) (fun _ => 1) nameA 0 :=
  (scanSafe_iff (live_driveOf _) _ _ _).2 ⟨1, by decide, by decide⟩

/-- Entries of size zero: the first one is looked at for ever. -/
theorem not_scanSafe_size_zero :
    ¬ScanSafe (driveOf fun lba => if lba = 1 then fun _ => 0 else fun _ => 1) (fun _ => 0) nameA
      0 := by
  intro h
  obtain ⟨k, _, hnull⟩ := exists_nullEntryAt (live_driveOf _) h
  have hbyte := hnull 0 (by decide)
  have hsize : entrySize (driveOf fun lba => if lba = 1 then fun _ => 0 else fun _ => 1).disk = 0 :=
    rfl
  rw [hsize, Nat.zero_mul] at hbyte
  exact absurd hbyte (by decide)

end search

end Cboot
