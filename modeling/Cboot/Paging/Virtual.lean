import Cboot.Paging.Refinement

/-!
# Memory through the page tables

`memset`, `memcpy` and `map_4kb_page` with every load and every store translated by the tables
that are in memory at that moment. An access that they do not translate faults: there is no
result then, only the address. Nothing is protected from being written.

* `Virtual.memset_cases`: a block is cleared if all of it is mapped, and otherwise clearing it
  faults;
* `Virtual.memcpy_ok`: a block is copied if both places are mapped, whatever has been copied;
* `Virtual.map4kbPage_low`: where low memory is mapped to itself, so are the tables that are in
  it, and a page is mapped as it is without tables in between;
* `translate_physical`: what is mapped after `setup_physical_map`, by pointers to the map of
  physical memory.

A block does not reach the end of the address space.
-/

namespace Cboot

open Radix

/-! ## Accesses -/

section bind

variable {ε α β : Type}

/-- After what does not fault, the rest decides. -/
theorem ok_bind (a : α) (f : α → Except ε β) : (Except.ok a >>= f) = f a := rfl

theorem error_bind (e : ε) (f : α → Except ε β) : (Except.error e >>= f) = .error e := rfl

end bind

/-- The physical address of `v`, or `v` as the address of a fault. -/
def translate (m : Memory) (v : ℕ) : Except ℕ ℕ :=
  if Canonical v then
    match pageWalk m 0x1000 v with
    | some t => .ok t.paddr
    | none => .error v
  else .error v

namespace Virtual

/-- The word of `n` bytes at `v`. -/
def load (m : Memory) : (n v : ℕ) → Except ℕ ℕ
  | 0, _ => .ok 0
  | n + 1, v => do
    let p ← translate m v
    let rest ← load m n ((v + 1) % 2 ^ 64)
    pure ((m p).toNat + 256 * rest)

/-- Storing a byte. -/
def storeByte (m : Memory) (v : ℕ) (b : UInt8) : Except ℕ Memory := do
  let p ← translate m v
  pure (m.set p b)

/-- Storing a quadword, which is aligned and so in one page. -/
def storeWord (m : Memory) (v w : ℕ) : Except ℕ Memory := do
  let p ← translate m v
  pure (m.write 8 p w)

/-! ## Filling -/

/-- The bytes up to an aligned address, with the pointer reached. -/
def memsetHead (m : Memory) (dst8 stop : ℕ) (val : UInt8) : Except ℕ (Memory × ℕ) :=
  if dst8 % 8 ≠ 0 ∧ dst8 < stop then do
    let m ← storeByte m dst8 val
    memsetHead m (dst8 + 1) stop val
  else pure (m, dst8)
termination_by stop - dst8

/-- The quadwords. -/
def memsetWords (m : Memory) (dst64 stop : ℕ) (val : UInt8) : Except ℕ (Memory × ℕ) :=
  if dst64 + 8 < stop then do
    let m ← storeWord m dst64 val.toNat
    memsetWords m (dst64 + 8) stop val
  else pure (m, dst64)
termination_by stop - dst64

/-- The final bytes. -/
def memsetTail (m : Memory) (dst8 stop : ℕ) (val : UInt8) : Except ℕ Memory :=
  if dst8 < stop then do
    let m ← storeByte m dst8 val
    memsetTail m (dst8 + 1) stop val
  else pure m
termination_by stop - dst8

/-- `memset`, every access of which is translated. -/
def memset (m : Memory) (dst : ℕ) (val : UInt8) (size : ℕ) : Except ℕ Memory := do
  let stop := (dst + size) % 2 ^ 64
  let (m, dst8) ← memsetHead m dst stop val
  let (m, dst64) ← memsetWords m dst8 stop val
  memsetTail m dst64 stop val

/-! ## Copying -/

/-- The bytes up to an aligned destination, with the pointers reached. -/
def memcpyHead (m : Memory) (dst8 src8 stop : ℕ) : Except ℕ (Memory × ℕ × ℕ) :=
  if dst8 % 8 ≠ 0 ∧ dst8 < stop then do
    let b ← load m 1 src8
    let m ← storeByte m dst8 (.ofNat b)
    memcpyHead m (dst8 + 1) ((src8 + 1) % 2 ^ 64) stop
  else pure (m, dst8, src8)
termination_by stop - dst8

/-- The quadwords. -/
def memcpyWords (m : Memory) (dst64 src64 stop : ℕ) : Except ℕ (Memory × ℕ × ℕ) :=
  if dst64 + 8 < stop then do
    let w ← load m 8 src64
    let m ← storeWord m dst64 w
    memcpyWords m (dst64 + 8) ((src64 + 8) % 2 ^ 64) stop
  else pure (m, dst64, src64)
termination_by stop - dst64

/-- The final bytes. -/
def memcpyTail (m : Memory) (dst8 src8 stop : ℕ) : Except ℕ Memory :=
  if dst8 < stop then do
    let b ← load m 1 src8
    let m ← storeByte m dst8 (.ofNat b)
    memcpyTail m (dst8 + 1) ((src8 + 1) % 2 ^ 64) stop
  else pure m
termination_by stop - dst8

/-- `memcpy`, every access of which is translated. -/
def memcpy (m : Memory) (dst src size : ℕ) : Except ℕ Memory := do
  let stop := (dst + size) % 2 ^ 64
  let (m, dst8, src8) ← memcpyHead m dst src stop
  let (m, dst64, src64) ← memcpyWords m dst8 src8 stop
  memcpyTail m dst64 src64 stop

/-! ## Mapping -/

/-- `new_page_table` -/
def newPageTable (st : PagingState) : Except ℕ (ℕ × PagingState) := do
  let mem ← memset st.mem st.it 0 (8 * 512)
  pure (st.it, { mem := mem, it := st.it + 8 * 512 })

/-- Assigning the entry at the index `i` of the table at `t`. -/
def setEntry (st : PagingState) (t : ℕ) (i : Fin 512) (e : ℕ) : Except ℕ PagingState := do
  let mem ← storeWord st.mem (t + 8 * i) e
  pure { st with mem := mem }

/-- One level of the descent. -/
def nextTable (st : PagingState) (t : ℕ) (i : Fin 512) : Except ℕ (ℕ × PagingState) := do
  let e ← load st.mem 8 (t + 8 * i)
  if PageTableEntry.present e = 0 then
    let (table, st) ← newPageTable st
    let e ← load st.mem 8 (t + 8 * i)
    let st ← setEntry st t i (mapEntry e table)
    pure (table, st)
  else pure (getPteAddress e, st)

/-- `map_4kb_page`, every access of which is translated. -/
def map4kbPage (st : PagingState) (addr physicalAddress : ℕ) : Except ℕ PagingState := do
  let p4table := 0x1000
  let (p3table, st) ← nextTable st p4table (l4Index addr)
  let (p2table, st) ← nextTable st p3table (l3Index addr)
  let (p1table, st) ← nextTable st p2table (l2Index addr)
  setEntry st p1table (l1Index addr) (mapEntry 0 physicalAddress)

end Virtual

/-! ## Loading -/

/-- A word of which all bytes are mapped, in order. -/
theorem Virtual.load_ok {m : Memory} {n v p : ℕ} (h : ∀ i < n, translate m (v + i) = .ok (p + i))
    (hlt : v + n ≤ 2 ^ 64) : load m n v = .ok (m.read n p) := by
  induction n generalizing v p with
  | zero => rfl
  | succ n ih =>
    have h₀ := h 0 (Nat.succ_pos n)
    rw [Nat.add_zero, Nat.add_zero] at h₀
    rw [load, h₀, ok_bind, Memory.read]
    cases n with
    | zero => rfl
    | succ n =>
      rw [Nat.mod_eq_of_lt (by omega), ih (v := v + 1) (p := p + 1) (fun i hi => ?_) (by omega)]
      · rfl
      · rw [Nat.add_assoc, Nat.add_assoc, Nat.add_comm 1]
        exact h (i + 1) (by omega)

/-! ## Clearing a block -/

section clear

variable {m : Memory} {p v n k size : ℕ}

/-- The first `n` bytes of the block at `v` are mapped to those at `p`, and the others are not
    mapped, however much of it has been cleared. -/
def MapsFirst (m : Memory) (v p n size : ℕ) : Prop :=
  ∀ k ≤ n, ∀ i < size, translate (m.fill p k 0) (v + i) =
    if i < n then .ok (p + i) else .error (v + i)

namespace Virtual

/-- Storing the next byte. -/
theorem storeByte_cases (h : MapsFirst m v p n size) (hk : k ≤ n) (hlt : k < size) :
    (k < n ∧ storeByte (m.fill p k 0) (v + k) 0 = .ok (m.fill p (k + 1) 0)) ∨
      n ≤ k ∧ storeByte (m.fill p k 0) (v + k) 0 = .error (v + k) := by
  have ht := h k hk k hlt
  by_cases hkn : k < n
  · rw [if_pos hkn] at ht
    refine .inl ⟨hkn, ?_⟩
    rw [storeByte, ht, ← fill_set]
    rfl
  · rw [if_neg hkn] at ht
    refine .inr ⟨Nat.le_of_not_lt hkn, ?_⟩
    rw [storeByte, ht]
    rfl

/-- Storing the next quadword. -/
theorem storeWord_cases (h : MapsFirst m v p n size) (hk : k ≤ n) (hlt : k < size) :
    (k < n ∧ storeWord (m.fill p k 0) (v + k) (0 : UInt8).toNat = .ok (m.fill p (k + 8) 0)) ∨
      n ≤ k ∧ storeWord (m.fill p k 0) (v + k) (0 : UInt8).toNat = .error (v + k) := by
  have ht := h k hk k hlt
  by_cases hkn : k < n
  · rw [if_pos hkn] at ht
    refine .inl ⟨hkn, ?_⟩
    rw [storeWord, ht, UInt8.toNat_zero, ← fill_write_zero]
    rfl
  · rw [if_neg hkn] at ht
    refine .inr ⟨Nat.le_of_not_lt hkn, ?_⟩
    rw [storeWord, ht]
    rfl

/-- The first loop stops at an aligned address, or at the end, or faults. -/
theorem memsetHead_cases (h : MapsFirst m v p n size) (hn : n ≤ size) (hk : k ≤ n) :
    (∃ k' ≤ n, memsetHead (m.fill p k 0) (v + k) (v + size) 0 = .ok (m.fill p k' 0, v + k') ∧
        ((v + k') % 8 = 0 ∨ k' = size)) ∨
      n < size ∧ ∃ a, memsetHead (m.fill p k 0) (v + k) (v + size) 0 = .error a := by
  induction hs : size - k generalizing k with
  | zero =>
    rw [memsetHead, if_neg (by omega)]
    exact .inl ⟨k, hk, rfl, by omega⟩
  | succ s ih =>
    rw [memsetHead]
    split
    · rcases storeByte_cases h hk (by omega) with ⟨hkn, heq⟩ | ⟨hnk, heq⟩
      · rw [heq]
        exact ih (by omega) (by omega)
      · rw [heq]
        exact .inr ⟨by omega, _, rfl⟩
    · exact .inl ⟨k, hk, rfl, by omega⟩

/-- The second loop goes on to the last quadword, or faults. -/
theorem memsetWords_cases (h : MapsFirst m v p n size) (hn : n ≤ size)
    (hal : n = 0 ∨ n = size ∨ (v + n) % 8 = 0) (hk : k ≤ n) (hk' : (v + k) % 8 = 0 ∨ k = size) :
    (∃ k' ≤ n, memsetWords (m.fill p k 0) (v + k) (v + size) 0 = .ok (m.fill p k' 0, v + k')) ∨
      n < size ∧ ∃ a, memsetWords (m.fill p k 0) (v + k) (v + size) 0 = .error a := by
  induction hs : size - k using Nat.strongRecOn generalizing k with
  | ind s ih =>
    rw [memsetWords]
    split
    · rcases storeWord_cases h hk (by omega) with ⟨hkn, heq⟩ | ⟨hnk, heq⟩
      · -- The quadword ends before the part that is not mapped, which is aligned.
        rw [heq]
        exact ih (size - (k + 8)) (by omega) (by omega) (by omega) rfl
      · rw [heq]
        exact .inr ⟨by omega, _, rfl⟩
    · exact .inl ⟨k, hk, rfl⟩

/-- The last loop stores the last byte, or faults. -/
theorem memsetTail_cases (h : MapsFirst m v p n size) (hn : n ≤ size) (hk : k ≤ n) :
    n = size ∧ memsetTail (m.fill p k 0) (v + k) (v + size) 0 = .ok (m.fill p size 0) ∨
      n < size ∧ ∃ a, memsetTail (m.fill p k 0) (v + k) (v + size) 0 = .error a := by
  induction hs : size - k generalizing k with
  | zero =>
    obtain rfl : k = size := by omega
    rw [memsetTail, if_neg (Nat.lt_irrefl _)]
    exact .inl ⟨by omega, rfl⟩
  | succ s ih =>
    rw [memsetTail, if_pos (by omega)]
    rcases storeByte_cases h hk (by omega) with ⟨hkn, heq⟩ | ⟨hnk, heq⟩
    · rw [heq]
      exact ih (by omega) (by omega)
    · rw [heq]
      exact .inr ⟨by omega, _, rfl⟩

/-- A block is cleared if all of it is mapped, and otherwise clearing it faults. -/
theorem memset_cases (h : MapsFirst m v p n size) (hn : n ≤ size)
    (hal : n = 0 ∨ n = size ∨ (v + n) % 8 = 0) (hend : v + size < 2 ^ 64) :
    n = size ∧ memset m v 0 size = .ok (m.fill p size 0) ∨
      n < size ∧ ∃ a, memset m v 0 size = .error a := by
  rw [memset, Nat.mod_eq_of_lt hend]
  have hhead := memsetHead_cases h hn (Nat.zero_le n)
  rw [fill_zero, Nat.add_zero] at hhead
  rcases hhead with ⟨k₁, hk₁, heq₁, hal₁⟩ | ⟨hlt, a, heq₁⟩
  · rcases memsetWords_cases h hn hal hk₁ hal₁ with ⟨k₂, hk₂, heq₂⟩ | ⟨hlt, a, heq₂⟩
    · simp only [heq₁, heq₂, ok_bind]
      exact memsetTail_cases h hn hk₂
    · simp only [heq₁, heq₂, ok_bind, error_bind]
      exact .inr ⟨hlt, a, rfl⟩
  · simp only [heq₁, error_bind]
    exact .inr ⟨hlt, a, rfl⟩

end Virtual

end clear

/-! ## Copying a block -/

section copy

variable {m : Memory} {p q dst src k size : ℕ}

/-- The blocks are mapped to those at `p` and at `q`, however much has been copied. -/
structure MapsBlocks (m : Memory) (dst src p q size : ℕ) : Prop where
  stores : ∀ k ≤ size, ∀ i < size, translate (m.copy p q k) (dst + i) = .ok (p + i)
  loads : ∀ k ≤ size, ∀ i < size, translate (m.copy p q k) (src + i) = .ok (q + i)
  apart : p ≤ q ∨ q + size ≤ p
  dst_lt : dst + size < 2 ^ 64
  src_lt : src + size < 2 ^ 64

namespace Virtual

/-- Copying the next byte. -/
theorem copyByte (h : MapsBlocks m dst src p q size) (hk : k < size) :
    (do
      let b ← load (m.copy p q k) 1 (src + k)
      storeByte (m.copy p q k) (dst + k) (.ofNat b)) = .ok (m.copy p q (k + 1)) := by
  have hlt := h.src_lt
  have hload : load (m.copy p q k) 1 (src + k) = .ok ((m.copy p q k).read 1 (q + k)) := by
    refine load_ok (fun i hi => ?_) (by omega)
    obtain rfl : i = 0 := by omega
    exact h.loads k (Nat.le_of_lt hk) k hk
  have hbyte := Memory.byte_of_read (m := m.copy p q k) (a := q + k) Nat.one_pos
  rw [Nat.add_zero, Nat.pow_zero, Nat.div_one] at hbyte
  rw [hload, ok_bind, ← hbyte, storeByte, h.stores k (Nat.le_of_lt hk) k hk, ok_bind,
    ← copy_set h.apart hk]
  rfl

/-- Copying the next quadword. -/
theorem copyWord (h : MapsBlocks m dst src p q size) (hk : k + 8 ≤ size) :
    (do
      let w ← load (m.copy p q k) 8 (src + k)
      storeWord (m.copy p q k) (dst + k) w) = .ok (m.copy p q (k + 8)) := by
  have hlt := h.src_lt
  have hload : load (m.copy p q k) 8 (src + k) = .ok ((m.copy p q k).read 8 (q + k)) := by
    refine load_ok (fun i hi => ?_) (by omega)
    rw [Nat.add_assoc, Nat.add_assoc]
    exact h.loads k (by omega) (k + i) (by omega)
  rw [hload, ok_bind, storeWord, h.stores k (by omega) k (by omega), ok_bind,
    ← copy_write h.apart hk]
  rfl

theorem memcpyHead_ok (h : MapsBlocks m dst src p q size) (hk : k ≤ size) :
    ∃ k' ≤ size, memcpyHead (m.copy p q k) (dst + k) (src + k) (dst + size) =
      .ok (m.copy p q k', dst + k', src + k') := by
  have hlt := h.src_lt
  induction hs : size - k generalizing k with
  | zero =>
    rw [memcpyHead, if_neg (by omega)]
    exact ⟨k, hk, rfl⟩
  | succ s ih =>
    rw [memcpyHead]
    split
    · rw [← bind_assoc, copyByte h (by omega), Nat.mod_eq_of_lt (by omega)]
      exact ih (by omega) (by omega)
    · exact ⟨k, hk, rfl⟩

theorem memcpyWords_ok (h : MapsBlocks m dst src p q size) (hk : k ≤ size) :
    ∃ k' ≤ size, memcpyWords (m.copy p q k) (dst + k) (src + k) (dst + size) =
      .ok (m.copy p q k', dst + k', src + k') := by
  have hlt := h.src_lt
  induction hs : size - k using Nat.strongRecOn generalizing k with
  | ind s ih =>
    rw [memcpyWords]
    split
    · rw [← bind_assoc, copyWord h (by omega), Nat.mod_eq_of_lt (by omega)]
      exact ih (size - (k + 8)) (by omega) (by omega) rfl
    · exact ⟨k, hk, rfl⟩

theorem memcpyTail_ok (h : MapsBlocks m dst src p q size) (hk : k ≤ size) :
    memcpyTail (m.copy p q k) (dst + k) (src + k) (dst + size) = .ok (m.copy p q size) := by
  have hlt := h.src_lt
  induction hs : size - k generalizing k with
  | zero =>
    obtain rfl : k = size := by omega
    rw [memcpyTail, if_neg (Nat.lt_irrefl _)]
    rfl
  | succ s ih =>
    rw [memcpyTail, if_pos (by omega), ← bind_assoc, copyByte h (by omega),
      Nat.mod_eq_of_lt (by omega)]
    exact ih (by omega) (by omega)

/-- Copying between blocks that are mapped. -/
theorem memcpy_ok (h : MapsBlocks m dst src p q size) :
    memcpy m dst src size = .ok (m.copy p q size) := by
  have h₀ : m = m.copy p q 0 := by
    funext x
    exact (Memory.copy_of_not_mem (by omega)).symm
  obtain ⟨k₁, hk₁, h₁⟩ := memcpyHead_ok h (Nat.zero_le size)
  obtain ⟨k₂, hk₂, h₂⟩ := memcpyWords_ok h hk₁
  rw [Nat.add_zero, Nat.add_zero, ← h₀] at h₁
  rw [memcpy, Nat.mod_eq_of_lt h.dst_lt]
  simp only [h₁, h₂, ok_bind]
  exact memcpyTail_ok h hk₂

end Virtual

end copy

/-! ## After the map of physical memory -/

section physical

variable {m m' : Memory} {total base n size v q : ℕ}

theorem translate_of_walk {t : Translation} (hv : Canonical v)
    (h : pageWalk m 0x1000 v = some t) : translate m v = .ok t.paddr := by
  rw [translate, if_pos hv, h]

theorem translate_of_none (hv : Canonical v) (h : pageWalk m 0x1000 v = none) :
    translate m v = .error v := by
  rw [translate, if_pos hv, h]

/-- What is stored above the tables does not matter. -/
theorem pageWalk_above (hkeep : ∀ x < 0x21000, m' x = (setupPhysicalMap (.boot m) total).mem x)
    (v : ℕ) : pageWalk m' 0x1000 v = pageWalk (setupPhysicalMap (.boot m) total).mem 0x1000 v := by
  obtain ⟨own, ht⟩ := pageTree_setupPhysicalMap m total
  have hit : (setupPhysicalMap (.boot m) total).it = 0x21000 := mapPhysicalMemory_it _ _
  rw [pageWalk, pageWalk, ht.tables.walk_congr (fun x hx => hkeep x (by omega)) (length_indices v)]

/-- Pointers to the map of physical memory are translated as far as it goes. -/
theorem translate_physical (htotal : total ≤ 511 * 2 ^ 30)
    (hkeep : ∀ x < 0x21000, m' x = (setupPhysicalMap (.boot m) total).mem x) (hq : q < 2 ^ 47) :
    translate m' (0xFFFF800000000000 + q) =
      if q < numGigs total * 2 ^ 30 then .ok q else .error (0xFFFF800000000000 + q) := by
  have hgigs : numGigs total ≤ 511 := by
    have hn := numGigs_eq (show total < 2 ^ 63 by omega)
    omega
  have hv : Canonical (0xFFFF800000000000 + q) := .inr (by omega)
  have hwalk := pageWalk_above hkeep (0xFFFF800000000000 + q)
  split
  · rename_i hq
    have hmod : numGigs total % 2 ^ 22 = numGigs total := Nat.mod_eq_of_lt (by omega)
    have hmap := pageWalk_of_mapsPhysical m (n := numGigs total) (show q < 2 ^ 39 by omega)
      (hmod.trans_le hgigs) (hmod.symm ▸ hq)
    rw [setupPhysicalMap, hmap] at hwalk
    exact translate_of_walk hv hwalk
  · have hl : l4Index (0xFFFF800000000000 + q) ≠ 0 := fun h => by
      have h : (0xFFFF800000000000 + q) / 2 ^ 39 % 2 ^ 9 = 0 := congrArg Fin.val h
      omega
    rw [setupPhysicalMap, pageWalk_of_not_physical (by omega) hv (by omega),
      pageWalk_boot_none m hl] at hwalk
    exact translate_of_none hv hwalk

/-- The boot tables map low memory to itself. -/
theorem translate_boot (m : Memory) (hv : v < 2 ^ 21) :
    translate (PagingState.boot m).mem v = .ok v :=
  translate_of_walk (.inl (by omega)) (pageWalk_boot_low m hv)

/-- Behind low memory, they map nothing. -/
theorem translate_boot_of_le (m : Memory) (hle : 2 ^ 21 ≤ v) (hv : v < 2 ^ 39) :
    translate (PagingState.boot m).mem v = .error v := by
  have h₄ : l4Index v = 0 := Fin.ext (show v / 2 ^ 39 % 2 ^ 9 = 0 by omega)
  have hlink : ∀ r t, r ≠ 0 → t = 0x1000 ∨ t = 0x2000 →
      entries (setupAndEnablePaging m) r t 0 = .link true (t + 0x1000) := by
    intro r t hr ht
    rw [entries, tableEntry_boot m _ (by omega), if_neg (by omega), if_pos rfl]
    exact slot_link hr (by omega) (by omega)
  have hempty : ∀ r t i, i ≠ 0 → t = 0x2000 ∨ t = 0x3000 →
      entries (setupAndEnablePaging m) r t i = .empty := by
    intro r t i hi ht
    rw [entries, tableEntry_boot m _ (by omega), if_neg (by omega), if_neg hi]
    exact slot_zero r
  have hroot := hlink 3 0x1000 (by decide) (.inl rfl)
  refine translate_of_none (.inl (by omega)) ?_
  simp only [PagingState.boot, pageWalk, indices, walk, List.length_cons, List.length_nil,
    Nat.zero_add, Nat.reduceAdd, h₄, hroot]
  -- One of the indices of the levels 3 and 2 is not the first.
  by_cases h₃ : l3Index v = 0
  · have h₂ : l2Index v ≠ 0 := fun h => by
      have h₃ : v / 2 ^ 30 % 2 ^ 9 = 0 := congrArg Fin.val h₃
      have h₂ : v / 2 ^ 21 % 2 ^ 9 = 0 := congrArg Fin.val h
      omega
    have hnext := hlink 2 0x2000 (by decide) (.inr rfl)
    have hlast := hempty 1 0x3000 _ h₂ (.inr rfl)
    simp only [Nat.reduceAdd, h₃, hnext, hlast, Option.map_none]
  · have hlast := hempty 2 0x2000 _ h₃ (.inl rfl)
    simp only [hlast, Option.map_none]

/-- A word in low memory. -/
theorem Virtual.load_boot (m : Memory) (hend : v + n ≤ 2 ^ 21) :
    load (PagingState.boot m).mem n v = .ok ((PagingState.boot m).mem.read n v) :=
  load_ok (fun _ _ => translate_boot m (by omega)) (by omega)

/-- A word behind it. -/
theorem Virtual.load_boot_of_le (m : Memory) (hn : 0 < n) (hle : 2 ^ 21 ≤ v) (hv : v < 2 ^ 39) :
    load (PagingState.boot m).mem n v = .error v := by
  obtain ⟨n, rfl⟩ := Nat.exists_eq_succ_of_ne_zero (Nat.ne_of_gt hn)
  rw [load, translate_boot_of_le m hle hv, error_bind]

/-- The memory at `base`, as far as it is mapped. -/
theorem mapsFirst_physical (htotal : total ≤ 511 * 2 ^ 30) (hbase : 0x21000 ≤ base)
    (hend : base + size ≤ 2 ^ 47) : MapsFirst (setupPhysicalMap (.boot m) total).mem
      (0xFFFF800000000000 + base) base (min size (numGigs total * 2 ^ 30 - base)) size := by
  intro k _ i hi
  rw [Nat.add_assoc, translate_physical (m := m) htotal (fun x hx => ?_) (by omega)]
  · exact if_congr (by omega) rfl rfl
  · exact Memory.fill_of_not_mem (.inl (by omega))

/-- Clearing memory above the tables, through the map. -/
theorem memset_physical_cases (m : Memory) (htotal : total ≤ 511 * 2 ^ 30) (hbase : 0x21000 ≤ base)
    (hsize : 0 < size) (hend : base + size < 2 ^ 47) :
    base + size ≤ numGigs total * 2 ^ 30 ∧
        Virtual.memset (setupPhysicalMap (.boot m) total).mem (0xFFFF800000000000 + base) 0 size =
          .ok ((setupPhysicalMap (.boot m) total).mem.fill base size 0) ∨
      ¬base + size ≤ numGigs total * 2 ^ 30 ∧ ∃ a,
        Virtual.memset (setupPhysicalMap (.boot m) total).mem (0xFFFF800000000000 + base) 0 size =
          .error a := by
  have hmaps := mapsFirst_physical (m := m) htotal hbase (Nat.le_of_lt hend)
  rcases Virtual.memset_cases hmaps (Nat.min_le_left ..) (by omega) (by omega) with
    ⟨hn, heq⟩ | ⟨hn, heq⟩
  · exact .inl ⟨by omega, heq⟩
  · exact .inr ⟨by omega, heq⟩

end physical

/-! ## Mapping a page -/

/-- Low memory, in which the tables are, is mapped to itself. -/
def LowMapped (m : Memory) : Prop := ∀ v < 2 ^ 21, translate m v = .ok v

theorem LowMapped.congr {m m' : Memory} (h : LowMapped m)
    (hwalk : ∀ v, pageWalk m' 0x1000 v = pageWalk m 0x1000 v) : LowMapped m' := fun v hv => by
  rw [translate, hwalk v]
  exact h v hv

section mapping

variable {Leaf : List (Fin 512) → ℕ → Prop} {st st' : PagingState} {own : Owners}
  {p q : List (Fin 512)} {t t' r : ℕ} {i : Fin 512}

/-- Where only tables have been added, low memory is mapped as before. -/
theorem TablesGrown.lowMapped (hg : TablesGrown st st') (h : LowMapped st.mem) :
    LowMapped st'.mem :=
  h.congr fun v => by rw [pageWalk, pageWalk, hg.walk _ (length_indices v)]

/-- The next page of the pool is not one of the tables. -/
theorem TableTree.lowMapped_fill (ht : TableTree Leaf st.mem st.it own) (h : LowMapped st.mem)
    (k : ℕ) : LowMapped (st.mem.fill st.it k 0) := by
  have hpool := ht.pool
  refine h.congr fun v => ?_
  rw [pageWalk, pageWalk, ht.walk_congr (fun x hx => ?_) (length_indices v)]
  exact Memory.fill_of_not_mem (by omega)

namespace Virtual

theorem load_low {m : Memory} (h : LowMapped m) (ht : t + 0x1000 ≤ 2 ^ 21) (i : Fin 512) :
    load m 8 (t + 8 * i) = .ok (tableEntry m t i) := by
  have hi := i.isLt
  exact load_ok (fun j hj => h _ (by omega)) (by omega)

theorem setEntry_low (h : LowMapped st.mem) (ht : t + 0x1000 ≤ 2 ^ 21) (i : Fin 512) (e : ℕ) :
    setEntry st t i e = .ok (st.setEntry t i e) := by
  have hi := i.isLt
  rw [setEntry, storeWord, h _ (by omega)]
  rfl

theorem newPageTable_low (ht : TableTree Leaf st.mem st.it own) (h : LowMapped st.mem)
    (hit : st.it + 0x1000 ≤ 2 ^ 21) : newPageTable st = .ok (Cboot.newPageTable st) := by
  have hmaps : MapsFirst st.mem st.it st.it (8 * 512) (8 * 512) := fun k _ i hi => by
    rw [if_pos hi]
    exact ht.lowMapped_fill h k _ (by omega)
  obtain ⟨_, hset⟩ := (memset_cases hmaps le_rfl (.inr (.inl rfl)) (by omega)).resolve_right
    fun h => absurd h.1 (Nat.lt_irrefl _)
  rw [newPageTable, hset, Cboot.newPageTable, memset_zero]
  rfl

/-- One level of the descent. -/
theorem nextTable_low (ht : TableTree Leaf st.mem st.it own) (h : LowMapped st.mem)
    (ht₁ : t + 0x1000 ≤ 2 ^ 21) (hit : (Cboot.nextTable st t i).2.it ≤ 2 ^ 21) :
    nextTable st t i = .ok (Cboot.nextTable st t i) := by
  rw [nextTable, load_low h ht₁ i, ok_bind]
  rw [Cboot.nextTable] at hit ⊢
  split
  · rename_i hpres
    rw [if_pos hpres] at hit
    have hnew := newPageTable_low ht h hit
    have hlow : LowMapped (Cboot.newPageTable st).2.mem := by
      simp only [Cboot.newPageTable, memset_zero]
      exact ht.lowMapped_fill h _
    rw [hnew, ok_bind]
    dsimp only
    rw [load_low hlow ht₁ i, ok_bind, setEntry_low hlow ht₁]
    rfl
  · rfl

/-- The descent along a path of indices, as `Cboot.descend` is for `Cboot.nextTable`. -/
def descend (st : PagingState) (t : ℕ) : (path : List (Fin 512)) → Except ℕ (ℕ × PagingState)
  | [] => .ok (t, st)
  | i :: q => do
    let (t, st) ← nextTable st t i
    descend st t q

theorem map4kbPage_eq (st : PagingState) (addr physicalAddress : ℕ) :
    map4kbPage st addr physicalAddress =
      (do
        let (t, st) ← descend st 0x1000 [l4Index addr, l3Index addr, l2Index addr]
        setEntry st t (l1Index addr) (mapEntry 0 physicalAddress)) := by
  simp only [map4kbPage, descend, bind_assoc]
  rfl

/-- The descent through tables that map low memory to itself is the one without. -/
theorem descend_low (ht : TableTree Leaf st.mem st.it own) (h : LowMapped st.mem)
    (htab : table (entries st.mem) p (q.length + r) 0x1000 = some t)
    (hlen : p.length + (q.length + r) = 4) (hr : r ≠ 0) (hh : ¬HugeOnPath st.mem q t)
    (hit : (Cboot.descend st t q).2.it ≤ 2 ^ 21) :
    descend st t q = .ok (Cboot.descend st t q) ∧ LowMapped (Cboot.descend st t q).2.mem := by
  induction q generalizing st own p t with
  | nil => exact ⟨rfl, h⟩
  | cons i q ih =>
    rw [List.length_cons, Nat.add_right_comm] at htab hlen
    rcases e : Cboot.nextTable st t i with ⟨t₁, s₁⟩
    simp only [Cboot.descend, e] at hit ⊢
    have hle : s₁.it ≤ 2 ^ 21 := (it_le_descend _ _ _).trans hit
    have hown : own t = some p := ht.owned.own_of_table hlen htab
    have hpage := ht.ne_pool hown
    have hmono : st.it ≤ s₁.it := by
      have := it_le_nextTable st t i
      rwa [e] at this
    obtain ⟨own₁, ht₁, htab₁, hh₁, hg₁⟩ := nextTable_spec e ht htab hlen (by omega) hh
      (hle.trans (by decide))
    have hnext := nextTable_low ht h (i := i) (t := t) (by omega) (by rw [e]; exact hle)
    rw [descend, hnext, e]
    exact ih ht₁ (hg₁.lowMapped h) htab₁ (by simp; omega) hh₁ hit

/-- Through tables that map low memory to itself, a page is mapped as without. -/
theorem map4kbPage_low {addr physicalAddress : ℕ} (ht : TableTree Leaf st.mem st.it own)
    (h : LowMapped st.mem)
    (hh : ¬HugeOnPath st.mem [l4Index addr, l3Index addr, l2Index addr] 0x1000)
    (hit : (Cboot.map4kbPage st addr physicalAddress).it ≤ 2 ^ 21) :
    map4kbPage st addr physicalAddress = .ok (Cboot.map4kbPage st addr physicalAddress) := by
  have heq := Call.run_eq st (.map4kb addr physicalAddress)
  have hit' : (Cboot.descend st 0x1000 (Call.map4kb addr physicalAddress).path).2.it ≤ 2 ^ 21 := by
    rw [← PagingState.setEntry_it, ← heq]
    exact hit
  obtain ⟨hdescend, hlow⟩ := descend_low ht h (p := []) (r := 1) rfl rfl (by decide) hh hit'
  obtain ⟨own', ht', htab, _⟩ := descend_spec ht (p := []) (r := 1) rfl rfl (by decide) hh
    (hit'.trans (by decide))
  have hpage := (ht'.ne_pool (ht'.owned.own_of_table rfl htab)).trans hit'
  rw [map4kbPage_eq, hdescend]
  exact (setEntry_low hlow hpage _ _).trans (congrArg Except.ok heq.symm)

end Virtual

end mapping

end Cboot
