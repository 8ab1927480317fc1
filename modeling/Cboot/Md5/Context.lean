import Cboot.Md5.Body

/-!
# Digesting in parts

`MD5_Init`, `MD5_Update` and `MD5_Final` of `md5.c`, on a context in memory.

* `Absorbed m ctx message`: the context has been given the bytes of the message so far, in
  parts of any sizes. `MD5_Init` begins with the empty message, and `md5Update_absorbed` shows
  that `MD5_Update` appends to it;
* `md5Final_digest`: `MD5_Final` stores the digest of the message, and clears the context.

The counters of the context are for the length of the message up to `2 ^ 61` bytes, from where
on they are truncated as the specification has it.
-/

namespace Cboot.Md5

open Chaining Fueled

/-! ## The functions -/

/-- `MD5_Init`. The counters `lo` and `hi` are at the offsets 0 and 4 of the context. -/
def md5Init (m : Memory) (ctx : ℕ) : Memory :=
  let m := m.write 4 (ctx + 8) 0x67452301
  let m := m.write 4 (ctx + 12) 0xefcdab89
  let m := m.write 4 (ctx + 16) 0x98badcfe
  let m := m.write 4 (ctx + 20) 0x10325476
  let m := m.write 4 ctx 0
  m.write 4 (ctx + 4) 0

/-- The first statements of `MD5_Update`: the size is added to the counters. -/
def countBytes (m : Memory) (ctx : ℕ) (size : UInt64) : Memory :=
  let savedLo := wordAt m ctx
  let lo := ((savedLo.toUInt64 + size) &&& 0x1fffffff).toUInt32
  let m := m.write 4 ctx lo.toNat
  let m := if lo < savedLo then m.write 4 (ctx + 4) (wordAt m (ctx + 4) + 1).toNat else m
  m.write 4 (ctx + 4) ((wordAt m (ctx + 4)).toUInt64 + (size >>> 29)).toUInt32.toNat

/-- The last statements of `MD5_Update`, with nothing in the buffer, which is at the offset 24
    of the context. -/
def updateRest (m : Memory) (ctx data : ℕ) (size : UInt64) : Fueled Memory := do
  if size ≥ 64 then
    let (m, data) ← body m ctx data (size &&& ~~~0x3f)
    let size := size &&& 0x3f
    pure (memcpy m (ctx + 24) data size.toNat)
  else pure (memcpy m (ctx + 24) data size.toNat)

/-- `MD5_Update` -/
def md5Update (m : Memory) (ctx data : ℕ) (size : UInt64) : Fueled Memory := do
  let used := (wordAt m ctx &&& 0x3f).toUInt64
  let m := countBytes m ctx size
  if used ≠ 0 then
    let available := 64 - used
    if size < available then pure (memcpy m (ctx + 24 + used.toNat) data size.toNat)
    else
      let m := memcpy m (ctx + 24 + used.toNat) data available.toNat
      let data := data + available.toNat
      let size := size - available
      let (m, _) ← body m ctx (ctx + 24) 64
      updateRest m ctx data size
  else updateRest m ctx data size

/-- `OUT` -/
def out (m : Memory) (dst : ℕ) (src : UInt32) : Memory :=
  let m := m.set dst src.toUInt8
  let m := m.set (dst + 1) (src >>> 8).toUInt8
  let m := m.set (dst + 2) (src >>> 16).toUInt8
  m.set (dst + 3) (src >>> 24).toUInt8

/-- The first statements of `MD5_Final`: the buffer is filled up to where the counters go. -/
def padBuffer (m : Memory) (ctx : ℕ) : Fueled Memory := do
  let used := (wordAt m ctx &&& 0x3f).toNat
  let m := m.set (ctx + 24 + used) 0x80
  let used := used + 1
  let available := 64 - used
  let (m, used, available) ←
    if available < 8 then do
      let m := memset m (ctx + 24 + used) 0 available
      let (m, _) ← body m ctx (ctx + 24) 64
      pure (m, 0, 64)
    else pure (m, used, available)
  pure (memset m (ctx + 24 + used) 0 (available - 8))

/-- The next ones: the counters are put at the end of the buffer, which is compressed. -/
def lastBlock (m : Memory) (ctx : ℕ) : Fueled Memory := do
  let m := m.write 4 ctx (wordAt m ctx <<< 3).toNat
  let m := out m (ctx + 24 + 56) (wordAt m ctx)
  let m := out m (ctx + 24 + 60) (wordAt m (ctx + 4))
  let (m, _) ← body m ctx (ctx + 24) 64
  pure m

/-- `MD5_Final`. The context has a size of 152 bytes. -/
def md5Final (m : Memory) (result ctx : ℕ) : Fueled Memory := do
  let m ← padBuffer m ctx
  let m ← lastBlock m ctx
  let m := out m result (wordAt m (ctx + 8))
  let m := out m (result + 4) (wordAt m (ctx + 12))
  let m := out m (result + 8) (wordAt m (ctx + 16))
  let m := out m (result + 12) (wordAt m (ctx + 20))
  pure (memset m ctx 0 152)

/-! ## Words and bytes in memory -/

section memory

variable {m m' : Memory} {ctx p q n x : ℕ} {v : UInt32} {w : Words}

theorem wordAt_write_self (m : Memory) (p : ℕ) (v : UInt32) :
    wordAt (m.write 4 p v.toNat) p = v := by
  rw [wordAt, Memory.read_write_of_lt _ 4 _ v.toNat_lt, UInt32.ofNat_toNat]

theorem wordAt_congr (h : ∀ i < 4, m' (p + i) = m (p + i)) : wordAt m' p = wordAt m p := by
  rw [wordAt, wordAt, Memory.read_congr h]

theorem wordAt_write_of_disjoint (h : q + 4 ≤ p ∨ p + n ≤ q) (v : ℕ) :
    wordAt (m.write n p v) q = wordAt m q := by
  rw [wordAt, wordAt, Memory.read_write_of_disjoint h]

theorem storeWords_of_not_mem (h : x < ctx + 8 ∨ ctx + 24 ≤ x) : storeWords m ctx w x = m x := by
  rw [storeWords, Memory.write_of_not_mem (by omega), Memory.write_of_not_mem (by omega),
    Memory.write_of_not_mem (by omega), Memory.write_of_not_mem (by omega)]

theorem loadWords_storeWords (m : Memory) (ctx : ℕ) (w : Words) :
    loadWords (storeWords m ctx w) ctx = w := by
  refine Words.ext ?_ ?_ ?_ ?_ <;> simp only [loadWords, storeWords]
  · rw [wordAt_write_of_disjoint (by omega), wordAt_write_of_disjoint (by omega),
      wordAt_write_of_disjoint (by omega), wordAt_write_self]
  · rw [wordAt_write_of_disjoint (by omega), wordAt_write_of_disjoint (by omega), wordAt_write_self]
  · rw [wordAt_write_of_disjoint (by omega), wordAt_write_self]
  · rw [wordAt_write_self]

theorem loadWords_congr (h : ∀ x, ctx + 8 ≤ x → x < ctx + 24 → m' x = m x) :
    loadWords m' ctx = loadWords m ctx := by
  rw [loadWords, loadWords, wordAt_congr fun i hi => h _ (by omega) (by omega),
    wordAt_congr fun i hi => h _ (by omega) (by omega),
    wordAt_congr fun i hi => h _ (by omega) (by omega),
    wordAt_congr fun i hi => h _ (by omega) (by omega)]

/-- `OUT` stores the bytes of a word one by one. -/
theorem out_eq_write (m : Memory) (dst : ℕ) (src : UInt32) :
    out m dst src = m.write 4 dst src.toNat := by
  have hbyte : ∀ s : UInt32, s.toNat < 32 →
      (src >>> s).toUInt8 = .ofNat (src.toNat / 2 ^ s.toNat) := fun s hs => by
    refine UInt8.toNat_inj.1 ?_
    rw [UInt32.toNat_toUInt8, UInt32.toNat_shiftRight, Nat.mod_eq_of_lt hs,
      Nat.shiftRight_eq_div_pow, UInt8.toNat_ofNat']
  have h₀ : src.toUInt8 = .ofNat (src.toNat / 256 ^ 0) :=
    UInt8.toNat_inj.1 (by rw [UInt32.toNat_toUInt8, UInt8.toNat_ofNat', Nat.pow_zero, Nat.div_one])
  have h₁ := hbyte 8 (by decide)
  have h₂ := hbyte 16 (by decide)
  have h₃ := hbyte 24 (by decide)
  funext x
  simp only [out, Memory.set, Memory.write, h₀, h₁, h₂, h₃]
  rcases Nat.lt_or_ge x dst with hx | hx
  · rw [if_neg (by omega), if_neg (by omega), if_neg (by omega), if_neg (by omega),
      if_neg (by omega)]
  obtain ⟨i, rfl⟩ := Nat.exists_eq_add_of_le hx
  rw [Nat.add_sub_cancel_left]
  rcases i with _ | _ | _ | _ | i
  · simp
  · simp
  · simp
  · simp
  · rw [if_neg (by omega), if_neg (by omega), if_neg (by omega), if_neg (by omega),
      if_neg (by omega)]

theorem arrayBytes_write (m : Memory) (p n v : ℕ) : arrayBytes (m.write n p v) p n = toBytes n v :=
  List.map_congr_left fun _ hi => Memory.write_of_mem (List.mem_range.1 hi)

theorem arrayBytes_copy (m : Memory) (dst src n : ℕ) :
    arrayBytes (m.copy dst src n) dst n = arrayBytes m src n :=
  arrayBytes_congr fun i hi => by
    rw [Memory.copy_of_mem (Nat.le_add_right dst i) (Nat.add_lt_add_left hi dst),
      Nat.add_sub_cancel_left]

theorem arrayBytes_fill (m : Memory) (p n : ℕ) (b : UInt8) :
    arrayBytes (m.fill p n b) p n = List.replicate n b := by
  refine List.eq_replicate_iff.2 ⟨arrayBytes_length _ _ _, fun c hc => ?_⟩
  obtain ⟨i, hi, rfl⟩ := List.mem_map.1 hc
  exact Memory.fill_of_mem (Nat.le_add_right p i) (Nat.add_lt_add_left (List.mem_range.1 hi) p)

end memory

/-! ## Absorbing -/

/-- The context at `ctx` has been given the message: its words are those after the whole blocks,
    its counters are the length, and what is left after the blocks is in its buffer. -/
structure Absorbed (m : Memory) (ctx : ℕ) (message : List UInt8) : Prop where
  words : loadWords m ctx = absorb 64 compress initialWords message
  lo : (wordAt m ctx).toNat = message.length % 2 ^ 29
  hi : (wordAt m (ctx + 4)).toNat = message.length / 2 ^ 29 % 2 ^ 32
  buffer : arrayBytes m (ctx + 24) (message.length % 64) = remainder 64 message

/-- An array that the context does not overlap. -/
def OffContext (ctx p size : ℕ) : Prop := p + size ≤ ctx ∨ ctx + 152 ≤ p

section absorbed

variable {m m' : Memory} {ctx data x : ℕ} {size : UInt64} {message : List UInt8}

/-- The context only has to be kept up to the end of the buffer. -/
theorem Absorbed.congr (h : Absorbed m ctx message)
    (heq : ∀ x, ctx ≤ x → x < ctx + 88 → m' x = m x) : Absorbed m' ctx message where
  words := (loadWords_congr fun x h₁ h₂ => heq x (by omega) (by omega)).trans h.words
  lo := by rw [wordAt_congr fun i hi => heq _ (by omega) (by omega), h.lo]
  hi := by rw [wordAt_congr fun i hi => heq _ (by omega) (by omega), h.hi]
  buffer := by
    have hlt : message.length % 64 < 64 := Nat.mod_lt _ (by decide)
    rw [arrayBytes_congr fun i hi => heq _ (by omega) (by omega), h.buffer]

theorem md5Init_absorbed (m : Memory) (ctx : ℕ) : Absorbed (md5Init m ctx) ctx [] := by
  have hwords : loadWords (md5Init m ctx) ctx = initialWords := by
    refine (loadWords_congr fun x h₁ h₂ => ?_).trans (loadWords_storeWords m ctx initialWords)
    rw [md5Init, Memory.write_of_not_mem (by omega), Memory.write_of_not_mem (by omega)]
    rfl
  refine ⟨hwords, ?_, ?_, rfl⟩
  · have h := fun m => wordAt_write_self m ctx 0
    rw [md5Init, wordAt_write_of_disjoint (by omega)]
    exact congrArg UInt32.toNat (h _)
  · have h := fun m => wordAt_write_self m (ctx + 4) 0
    exact congrArg UInt32.toNat (h _)

theorem md5Init_of_not_mem (m : Memory) (hx : x < ctx ∨ ctx + 24 ≤ x) : md5Init m ctx x = m x := by
  rw [md5Init, Memory.write_of_not_mem (by omega), Memory.write_of_not_mem (by omega),
    Memory.write_of_not_mem (by omega), Memory.write_of_not_mem (by omega),
    Memory.write_of_not_mem (by omega), Memory.write_of_not_mem (by omega)]

/-- The low-order counter. -/
theorem lo_toNat {savedLo : UInt32} {n : ℕ} (h : savedLo.toNat = n % 2 ^ 29) (size : UInt64) :
    ((savedLo.toUInt64 + size) &&& 0x1fffffff).toUInt32.toNat = (n + size.toNat) % 2 ^ 29 := by
  have hmod : (savedLo.toUInt64 + size).toNat &&& 0x1fffffff =
      (savedLo.toUInt64 + size).toNat % 2 ^ 29 := Nat.and_two_pow_sub_one_eq_mod _ 29
  rw [UInt64.toNat_toUInt32, UInt64.toNat_and]
  change ((savedLo.toUInt64 + size).toNat &&& 0x1fffffff) % 2 ^ 32 = _
  rw [hmod, UInt64.toNat_add, UInt32.toNat_toUInt64, h]
  omega

/-- The high-order counter, which is given a carry where the low-order one has become smaller. -/
theorem hi_toNat {hi : UInt32} {n c : ℕ} (size : UInt64) (h : hi.toNat = (n / 2 ^ 29 + c) % 2 ^ 32)
    (hc : n % 2 ^ 29 + size.toNat % 2 ^ 29 = (n + size.toNat) % 2 ^ 29 + c * 2 ^ 29) :
    (hi.toUInt64 + (size >>> 29)).toUInt32.toNat = (n + size.toNat) / 2 ^ 29 % 2 ^ 32 := by
  have hshift : (size >>> 29).toNat = size.toNat / 2 ^ 29 := by
    rw [UInt64.toNat_shiftRight, Nat.shiftRight_eq_div_pow]
    rfl
  rw [UInt64.toNat_toUInt32, UInt64.toNat_add, UInt32.toNat_toUInt64, hshift, h]
  omega

/-- The counters are those of the longer message, and nothing else is changed. -/
theorem countBytes_spec (m : Memory) (ctx : ℕ) (size : UInt64) {n : ℕ}
    (hlo : (wordAt m ctx).toNat = n % 2 ^ 29)
    (hhi : (wordAt m (ctx + 4)).toNat = n / 2 ^ 29 % 2 ^ 32) :
    (wordAt (countBytes m ctx size) ctx).toNat = (n + size.toNat) % 2 ^ 29 ∧
      (wordAt (countBytes m ctx size) (ctx + 4)).toNat = (n + size.toNat) / 2 ^ 29 % 2 ^ 32 ∧
      ∀ x, x < ctx ∨ ctx + 8 ≤ x → countBytes m ctx size x = m x := by
  have hlo' := lo_toNat hlo size
  simp only [countBytes]
  generalize ((wordAt m ctx).toUInt64 + size &&& 0x1fffffff).toUInt32 = lo at hlo'
  have hkept : wordAt (m.write 4 ctx lo.toNat) (ctx + 4) = wordAt m (ctx + 4) :=
    wordAt_write_of_disjoint (by omega) _
  rw [wordAt_write_self]
  split
  · -- The sum of the low-order counter has passed `2 ^ 29`.
    rename_i hcarry
    have hcarry := UInt32.lt_iff_toNat_lt.1 hcarry
    rw [wordAt_write_self, hkept, wordAt_write_of_disjoint (by omega),
      wordAt_write_of_disjoint (by omega), wordAt_write_self]
    refine ⟨hlo', hi_toNat (c := 1) size ?_ (by omega), fun x hx => ?_⟩
    · rw [UInt32.toNat_add, hhi]
      change (n / 2 ^ 29 % 2 ^ 32 + 1) % 2 ^ 32 = _
      omega
    · rw [Memory.write_of_not_mem (by omega), Memory.write_of_not_mem (by omega),
        Memory.write_of_not_mem (by omega)]
  · rename_i hcarry
    have hcarry := UInt32.lt_iff_toNat_lt.not.1 hcarry
    rw [hkept, wordAt_write_of_disjoint (by omega), wordAt_write_self]
    refine ⟨hlo', hi_toNat (c := 0) size (by rw [hhi]; omega) (by omega), fun x hx => ?_⟩
    rw [Memory.write_of_not_mem (by omega), Memory.write_of_not_mem (by omega)]

/-- The size of the whole blocks. -/
theorem and_not_63 (size : UInt64) : (size &&& ~~~0x3f).toNat = 64 * (size.toNat / 64) := by
  have hmask : (~~~0x3f : UInt64).toNat = 2 ^ 6 * (2 ^ 58 - 1) := rfl
  rw [UInt64.toNat_and, hmask]
  refine Nat.eq_of_testBit_eq fun i => ?_
  rw [Nat.testBit_and, show 64 = 2 ^ 6 from rfl, Nat.testBit_two_pow_mul, Nat.testBit_two_pow_mul,
    Nat.testBit_two_pow_sub_one, Nat.testBit_div_two_pow]
  by_cases hi : 6 ≤ i
  · rw [decide_eq_true hi, Bool.true_and, Bool.true_and, Nat.sub_add_cancel hi]
    by_cases h₆₄ : i - 6 < 58
    · rw [decide_eq_true h₆₄, Bool.and_true]
    · rw [Nat.testBit_lt_two_pow (size.toNat_lt.trans_le (Nat.pow_le_pow_right (by decide)
        (show 64 ≤ i by omega))), Bool.false_and]
  · rw [decide_eq_false hi, Bool.false_and, Bool.and_false, Bool.false_and]

theorem and_63 (size : UInt64) : (size &&& 0x3f).toNat = size.toNat % 64 := by
  rw [UInt64.toNat_and]
  exact Nat.and_two_pow_sub_one_eq_mod _ 6

theorem and_63_32 (v : UInt32) : (v &&& 0x3f).toNat = v.toNat % 64 := by
  rw [UInt32.toNat_and]
  exact Nat.and_two_pow_sub_one_eq_mod _ 6

/-- Copying to the buffer of the context from outside. -/
theorem memcpy_buffer (m : Memory) {i n : ℕ} (hi : i + n ≤ 64) (hoff : OffContext ctx data n) :
    memcpy m (ctx + 24 + i) data n = m.copy (ctx + 24 + i) data n := by
  rw [OffContext] at hoff
  exact memcpy_eq_copy m (by omega)

/-- Copying what is left to the buffer, after the words of the context have been stored. -/
theorem memcpy_left (m : Memory) {m₁ : Memory} {ctx p n : ℕ} (hn : n < 64) (hoff : OffContext ctx p n)
    (h₁ : ∀ x, x < ctx + 8 ∨ ctx + 24 ≤ x → m₁ x = m x) :
    loadWords (memcpy m₁ (ctx + 24) p n) ctx = loadWords m₁ ctx ∧
      arrayBytes (memcpy m₁ (ctx + 24) p n) (ctx + 24) n = arrayBytes m p n ∧
      ∀ x, x < ctx + 8 ∨ ctx + 88 ≤ x → memcpy m₁ (ctx + 24) p n x = m x := by
  have hcopy := memcpy_buffer m₁ (i := 0) (by omega) hoff
  rw [OffContext] at hoff
  rw [Nat.add_zero] at hcopy
  rw [hcopy, arrayBytes_copy]
  refine ⟨loadWords_congr fun x _ hx => Memory.copy_of_not_mem (by omega),
    arrayBytes_congr fun i hi => h₁ _ (by omega), fun x hx => ?_⟩
  rw [Memory.copy_of_not_mem (by omega), h₁ x (by omega)]

/-- The rest of the data is absorbed after whole blocks, and what is left put in the buffer. -/
theorem updateRest_returns (hoff : OffContext ctx data size.toNat)
    (hwords : loadWords m ctx = absorb 64 compress initialWords message)
    (hdvd : 64 ∣ message.length) : ∃ m', (updateRest m ctx data size).Returns m' ∧
      loadWords m' ctx =
        absorb 64 compress initialWords (message ++ arrayBytes m data size.toNat) ∧
      arrayBytes m' (ctx + 24) (size.toNat % 64) =
        remainder 64 (message ++ arrayBytes m data size.toNat) ∧
      ∀ x, x < ctx + 8 ∨ ctx + 88 ≤ x → m' x = m x := by
  rw [absorb_append_of_dvd (by decide) hdvd, remainder_append_of_dvd (by decide) hdvd, ← hwords]
  rw [OffContext] at hoff
  have hlen := arrayBytes_length m data size.toNat
  by_cases hsize : size ≥ 64
  · -- There are whole blocks, which are compressed where they are.
    have hle : 64 ≤ size.toNat := UInt64.le_iff_toNat_le.1 hsize
    have hdvd' : 64 ∣ (size &&& ~~~0x3f).toNat := ⟨_, and_not_63 size⟩
    have hne : size &&& ~~~0x3f ≠ 0 := fun h => by
      have h := congrArg UInt64.toNat h
      rw [and_not_63, UInt64.toNat_zero] at h
      omega
    have hbody := body_returns m ctx data hdvd' hne
    rw [and_not_63] at hbody
    have hleft : OffContext ctx (data + 64 * (size.toNat / 64)) (size.toNat % 64) := by
      rw [OffContext]
      omega
    obtain ⟨hload, hbuffer, hframe⟩ := memcpy_left m (Nat.mod_lt size.toNat (by decide)) hleft
      fun x hx => storeWords_of_not_mem (m := m)
        (w := absorb 64 compress (loadWords m ctx) (arrayBytes m data (64 * (size.toNat / 64)))) hx
    refine ⟨_, ?_, ?_, ?_, hframe⟩
    · rw [updateRest, if_pos hsize, hbody.bind_iff, returns_pure_iff, and_63]
    · rw [hload, loadWords_storeWords, ← take_arrayBytes m data (Nat.mul_div_le size.toNat 64)]
      have htake : absorb 64 compress (loadWords m ctx) _ = _ :=
        absorb_take (by decide) _ (arrayBytes m data size.toNat)
      rwa [hlen] at htake
    · rw [hbuffer, remainder, hlen, drop_arrayBytes m data (Nat.mul_div_le size.toNat 64)]
      congr 1
      omega
  · have hlt : size.toNat < 64 := Nat.lt_of_not_le fun h => hsize (UInt64.le_iff_toNat_le.2 h)
    obtain ⟨hload, hbuffer, hframe⟩ := memcpy_left m hlt hoff fun _ _ => rfl
    refine ⟨_, ?_, ?_, ?_, hframe⟩
    · rw [updateRest, if_neg hsize, returns_pure_iff]
    · rw [hload, absorb_of_lt (by rwa [hlen])]
    · rw [Nat.mod_eq_of_lt hlt, hbuffer, remainder_of_lt (by rwa [hlen])]

/-- Appending to what is in the buffer. -/
theorem memcpy_append {i n : ℕ} (hi : i + n ≤ 64) (hoff : OffContext ctx data n) :
    arrayBytes (memcpy m (ctx + 24 + i) data n) (ctx + 24) (i + n) =
        arrayBytes m (ctx + 24) i ++ arrayBytes m data n ∧
      ∀ x, x < ctx + 24 ∨ ctx + 88 ≤ x → memcpy m (ctx + 24 + i) data n x = m x := by
  rw [memcpy_buffer m hi hoff, arrayBytes_add, arrayBytes_copy]
  refine ⟨?_, fun x hx => Memory.copy_of_not_mem (by omega)⟩
  congr 1
  exact arrayBytes_congr fun j hj => Memory.copy_of_not_mem (by omega)

/-- The counters are not changed after they have been counted up. -/
theorem absorbed_of_count {m₁ : Memory}
    (hlo : (wordAt m₁ ctx).toNat = (message.length + size.toNat) % 2 ^ 29)
    (hhi : (wordAt m₁ (ctx + 4)).toNat = (message.length + size.toNat) / 2 ^ 29 % 2 ^ 32)
    (hframe : ∀ x, x < ctx + 8 ∨ ctx + 88 ≤ x → m' x = m₁ x) {bytes : List UInt8}
    (hlen : bytes.length = size.toNat)
    (hwords : loadWords m' ctx = absorb 64 compress initialWords (message ++ bytes))
    (hbuffer : arrayBytes m' (ctx + 24) ((message.length + size.toNat) % 64) =
      remainder 64 (message ++ bytes)) : Absorbed m' ctx (message ++ bytes) where
  words := hwords
  lo := by
    rw [wordAt_congr fun i hi => hframe _ (by omega), hlo, List.length_append, hlen]
  hi := by
    rw [wordAt_congr fun i hi => hframe _ (by omega), hhi, List.length_append, hlen]
  buffer := by
    rw [List.length_append, hlen, hbuffer]

/-- A buffer that is full is compressed. -/
theorem fullBuffer_returns {i n : ℕ} (hi : i + n = 64) (hoff : OffContext ctx data n)
    (hwords : loadWords m ctx = absorb 64 compress initialWords message)
    (hbuffer : arrayBytes m (ctx + 24) i = remainder 64 message) :
    ∃ m', (body (memcpy m (ctx + 24 + i) data n) ctx (ctx + 24) 64).Returns (m', ctx + 24 + 64) ∧
      loadWords m' ctx = absorb 64 compress initialWords (message ++ arrayBytes m data n) ∧
      ∀ x, x < ctx + 8 ∨ ctx + 88 ≤ x → m' x = m x := by
  obtain ⟨hfull, hframe⟩ := memcpy_append (m := m) hi.le hoff
  have hbody := body_block (memcpy m (ctx + 24 + i) data n) ctx (ctx + 24)
  rw [← hi, hfull, hbuffer, hi, loadWords_congr fun x _ hx => hframe x (by omega), hwords] at hbody
  refine ⟨_, hbody, ?_, fun x hx => ?_⟩
  · rw [loadWords_storeWords]
    exact (absorb_append (by decide) _ _ _).symm
  · rw [storeWords_of_not_mem (by omega), hframe x (by omega)]

/-- `MD5_Update` appends the bytes of the array to the message. -/
theorem md5Update_absorbed (h : Absorbed m ctx message) (hoff : OffContext ctx data size.toNat) :
    ∃ m', (md5Update m ctx data size).Returns m' ∧
      Absorbed m' ctx (message ++ arrayBytes m data size.toNat) ∧
      ∀ x, x < ctx ∨ ctx + 88 ≤ x → m' x = m x := by
  obtain ⟨hlo, hhi, hcount⟩ := countBytes_spec m ctx size h.lo h.hi
  have hused : (wordAt m ctx &&& 0x3f).toUInt64.toNat = message.length % 64 := by
    rw [UInt32.toNat_toUInt64, and_63_32, h.lo]
    omega
  have hlt : message.length % 64 < 64 := Nat.mod_lt _ (by decide)
  have hwords₁ : loadWords (countBytes m ctx size) ctx =
      absorb 64 compress initialWords message := by
    rw [← h.words]
    exact loadWords_congr fun x h₁ _ => hcount x (by omega)
  have hbuffer₁ : arrayBytes (countBytes m ctx size) (ctx + 24) (message.length % 64) =
      remainder 64 message := by
    rw [← h.buffer]
    exact arrayBytes_congr fun i _ => hcount _ (by omega)
  simp only [md5Update]
  generalize (wordAt m ctx &&& 0x3f).toUInt64 = used at hused
  generalize countBytes m ctx size = m₁ at *
  have hoff' := hoff
  rw [OffContext] at hoff'
  -- The array is not in the context, so that its bytes are always those of before.
  have hbytes : arrayBytes m data size.toNat = arrayBytes m₁ data size.toNat :=
    arrayBytes_congr fun i _ => (hcount _ (by omega)).symm
  have hlen := arrayBytes_length m₁ data size.toNat
  rw [hbytes]
  by_cases hz : used = 0
  · -- Nothing is in the buffer.
    rw [hz, UInt64.toNat_zero] at hused
    obtain ⟨m', hret, hwords, hbuffer, hframe⟩ :=
      updateRest_returns hoff hwords₁ (Nat.dvd_of_mod_eq_zero hused.symm)
    have hmod : (message.length + size.toNat) % 64 = size.toNat % 64 := by omega
    rw [if_neg (not_not_intro hz)]
    refine ⟨m', hret, absorbed_of_count hlo hhi hframe hlen hwords (hmod ▸ hbuffer), fun x hx => ?_⟩
    rw [hframe x (by omega), hcount x (by omega)]
  rw [if_pos hz]
  have hpos : used.toNat ≠ 0 := fun h => hz (UInt64.toNat_inj.1 h)
  have havailable : (64 - used).toNat = 64 - used.toNat :=
    UInt64.toNat_sub_of_le _ _ (UInt64.le_iff_toNat_le.2 (by change used.toNat ≤ 64; omega))
  by_cases hsmall : size < 64 - used
  · -- The buffer has room for the data.
    have hsmall' := UInt64.lt_iff_toNat_lt.1 hsmall
    rw [havailable] at hsmall'
    obtain ⟨happend, hframe⟩ := memcpy_append (m := m₁) (i := used.toNat) (by omega) hoff
    have hrest : (remainder 64 message ++ arrayBytes m₁ data size.toNat).length < 64 := by
      rw [List.length_append, length_remainder, hlen]
      omega
    have hmod : (message.length + size.toNat) % 64 = used.toNat + size.toNat := by omega
    rw [if_pos hsmall]
    refine ⟨_, returns_pure_iff.2 rfl, absorbed_of_count hlo hhi (fun x hx => hframe x (by omega))
      hlen ?_ ?_, fun x hx => ?_⟩
    · rw [loadWords_congr fun x _ hx => hframe x (by omega), hwords₁, absorb_append (by decide),
        absorb_of_lt hrest]
    · rw [hmod, happend, hused, hbuffer₁, remainder_append (by decide), remainder_of_lt hrest]
    · rw [hframe x (by omega), hcount x (by omega)]
  · -- The buffer is filled up and compressed, and the rest of the data goes on without it.
    have hlarge : 64 - used.toNat ≤ size.toNat := by
      rw [← havailable]
      exact Nat.le_of_not_lt fun h => hsmall (UInt64.lt_iff_toNat_lt.2 h)
    have hleft : (size - (64 - used)).toNat = size.toNat - (64 - used.toNat) := by
      rw [UInt64.toNat_sub_of_le _ _ (UInt64.le_iff_toNat_le.2 (havailable ▸ hlarge)), havailable]
    have hoff₁ : OffContext ctx data (64 - used.toNat) := by
      rw [OffContext]
      omega
    have hoff₂ : OffContext ctx (data + (64 - used.toNat)) (size - (64 - used)).toNat := by
      rw [OffContext, hleft]
      omega
    have hdvd : 64 ∣ (message ++ arrayBytes m₁ data (64 - used.toNat)).length := by
      rw [List.length_append, arrayBytes_length]
      omega
    obtain ⟨m₂, hbody, hwords₂, hframe₂⟩ :=
      fullBuffer_returns (by omega) hoff₁ hwords₁ (hused ▸ hbuffer₁)
    obtain ⟨m', hret, hwords, hbuffer, hframe⟩ := updateRest_returns hoff₂ hwords₂ hdvd
    have hrest : arrayBytes m₁ data (64 - used.toNat) ++
        arrayBytes m₂ (data + (64 - used.toNat)) (size - (64 - used)).toNat =
          arrayBytes m₁ data size.toNat := by
      rw [arrayBytes_congr fun i hi => hframe₂ _ (by omega), ← arrayBytes_add, hleft]
      congr 1
      omega
    have hmod : (message.length + size.toNat) % 64 = (size - (64 - used)).toNat % 64 := by omega
    rw [List.append_assoc, hrest] at hwords hbuffer
    rw [if_neg hsmall, havailable]
    refine ⟨m', hbody.bind_iff.2 hret, absorbed_of_count hlo hhi (fun x hx => ?_) hlen hwords
      (hmod ▸ hbuffer), fun x hx => ?_⟩
    · rw [hframe x (by omega), hframe₂ x (by omega)]
    · rw [hframe x (by omega), hframe₂ x (by omega), hcount x (by omega)]

end absorbed

/-! ## Digests -/

section final

variable {m m' : Memory} {ctx result x : ℕ} {message : List UInt8} {n : ℕ}

/-- What is in front of the counters in the last block, with the message. -/
def zeroPadded (message : List UInt8) : List UInt8 :=
  message ++ 0x80 :: List.replicate ((119 - message.length % 64) % 64) 0

theorem zeroPadded_append (message : List UInt8) :
    zeroPadded message ++ toBytes 8 (8 * message.length) =
      message ++ padding message.length := by
  rw [zeroPadded, padding, List.append_assoc]

/-- Behind what is in the buffer, there are the byte with the bit one and zeros. -/
theorem pad_spec (m : Memory) (ctx : ℕ) {u z : ℕ} (h : u + (1 + z) ≤ 64) :
    loadWords (memset (m.set (ctx + 24 + u) 0x80) (ctx + 24 + (u + 1)) 0 z) ctx =
        loadWords m ctx ∧
      arrayBytes (memset (m.set (ctx + 24 + u) 0x80) (ctx + 24 + (u + 1)) 0 z) (ctx + 24)
        (u + (1 + z)) = arrayBytes m (ctx + 24) u ++ 0x80 :: List.replicate z 0 ∧
      ∀ x, x < ctx + 24 ∨ ctx + 88 ≤ x →
        memset (m.set (ctx + 24 + u) 0x80) (ctx + 24 + (u + 1)) 0 z x = m x := by
  rw [memset_zero]
  have hframe : ∀ x, x < ctx + 24 ∨ ctx + 88 ≤ x →
      (m.set (ctx + 24 + u) 0x80).fill (ctx + 24 + (u + 1)) z 0 x = m x := fun x hx => by
    rw [Memory.fill_of_not_mem (by omega), Memory.set_of_ne _ _ (by omega)]
  refine ⟨loadWords_congr fun x _ hx => hframe x (by omega), ?_, hframe⟩
  rw [arrayBytes_add, arrayBytes_add, Nat.add_assoc (ctx + 24), arrayBytes_fill]
  congr 1
  · refine arrayBytes_congr fun i hi => ?_
    rw [Memory.fill_of_not_mem (by omega), Memory.set_of_ne _ _ (by omega)]
  · rw [arrayBytes_succ, Memory.fill_of_not_mem (by omega), Memory.set_self]
    rfl

/-- The buffer is filled up to the counters, if need be in another block. -/
theorem padBuffer_returns (h : Absorbed m ctx message) : ∃ m', (padBuffer m ctx).Returns m' ∧
    loadWords m' ctx = absorb 64 compress initialWords (zeroPadded message) ∧
    arrayBytes m' (ctx + 24) 56 = remainder 64 (zeroPadded message) ∧
    ∀ x, x < ctx + 8 ∨ ctx + 88 ≤ x → m' x = m x := by
  have hused : (wordAt m ctx &&& 0x3f).toNat = message.length % 64 := by
    rw [and_63_32, h.lo]
    omega
  have hlt : message.length % 64 < 64 := Nat.mod_lt _ (by decide)
  have hlen := length_remainder 64 message
  have hbuffer := h.buffer
  simp only [padBuffer, hused]
  rw [zeroPadded, absorb_append (by decide), remainder_append (by decide), ← h.words]
  generalize message.length % 64 = u at *
  by_cases havail : 64 - (u + 1) < 8
  · -- The counters go to a block of their own, after one that ends with zeros.
    have hz : (119 - u) % 64 = 64 - (u + 1) + 56 := by omega
    have hblock : (remainder 64 message ++ 0x80 :: List.replicate (64 - (u + 1)) 0).length = 64 := by
      rw [List.length_append, hlen, List.length_cons, List.length_replicate]
      omega
    have hzeros : (List.replicate 56 (0 : UInt8)).length < 64 := by
      rw [List.length_replicate]
      decide
    obtain ⟨hwords, hbytes, hframe⟩ := pad_spec m ctx (u := u) (z := 64 - (u + 1)) (by omega)
    have hbody := body_block (memset (m.set (ctx + 24 + u) 0x80) (ctx + 24 + (u + 1)) 0
      (64 - (u + 1))) ctx (ctx + 24)
    have hfull : u + (1 + (64 - (u + 1))) = 64 := by omega
    rw [hfull, hbuffer] at hbytes
    rw [hwords, hbytes] at hbody
    rw [if_pos havail, hz, List.replicate_add, ← List.cons_append, ← List.append_assoc,
      absorb_append_of_dvd (by decide) (by rw [hblock]), absorb_of_lt hzeros,
      remainder_append_of_dvd (by decide) (by rw [hblock]), remainder_of_lt hzeros]
    have hbuf : ∀ m : Memory, memset m (ctx + 24 + 0) 0 (64 - 8) = m.fill (ctx + 24) 56 0 :=
      fun m => memset_zero m (ctx + 24) 56
    refine ⟨_, hbody.bind_iff.2 (returns_pure_iff.2 rfl), ?_, ?_, fun x hx => ?_⟩
    · rw [hbuf, loadWords_congr fun x _ hx => Memory.fill_of_not_mem (by omega),
        loadWords_storeWords]
    · rw [hbuf, arrayBytes_fill]
    · rw [hbuf, Memory.fill_of_not_mem (by omega)]
      exact (storeWords_of_not_mem (by omega)).trans (hframe x (by omega))
  · -- There is room for the counters.
    have hz : (119 - u) % 64 = 64 - (u + 1) - 8 := by omega
    obtain ⟨hwords, hbytes, hframe⟩ := pad_spec m ctx (u := u) (z := 64 - (u + 1) - 8) (by omega)
    have hblock : u + (1 + (64 - (u + 1) - 8)) = 56 := by omega
    rw [hblock, hbuffer] at hbytes
    have hshort : (remainder 64 message ++ 0x80 :: List.replicate (64 - (u + 1) - 8) 0).length <
        64 := by
      rw [← hbytes, arrayBytes_length]
      decide
    rw [if_neg havail, hz, absorb_of_lt hshort, remainder_of_lt hshort]
    exact ⟨_, returns_pure_iff.2 rfl, hwords, hbytes, fun x hx => hframe x (by omega)⟩

/-- The counters, of which the low-order one is shifted to bits, are the length in bits. -/
theorem counters_toBytes {lo hi : UInt32} {n : ℕ} (hlo : lo.toNat = n % 2 ^ 29)
    (hhi : hi.toNat = n / 2 ^ 29 % 2 ^ 32) :
    toBytes 4 (lo <<< 3).toNat ++ toBytes 4 hi.toNat = toBytes 8 (8 * n) := by
  have hlow : (lo <<< 3).toNat = 8 * n % 256 ^ 4 := by
    rw [UInt32.toNat_shiftLeft, hlo, Nat.shiftLeft_eq]
    change n % 2 ^ 29 * 2 ^ 3 % 2 ^ 32 = _
    omega
  have hhigh : hi.toNat = 8 * n / 256 ^ 4 % 256 ^ 4 := by
    rw [hhi]
    omega
  rw [hlow, hhigh, toBytes_mod, toBytes_mod, ← toBytes_add]

/-- The last block is compressed with the length at its end. -/
theorem lastBlock_returns {padded : List UInt8}
    (hwords : loadWords m ctx = absorb 64 compress initialWords padded)
    (hbuffer : arrayBytes m (ctx + 24) 56 = remainder 64 padded)
    (hlo : (wordAt m ctx).toNat = n % 2 ^ 29)
    (hhi : (wordAt m (ctx + 4)).toNat = n / 2 ^ 29 % 2 ^ 32) :
    ∃ m', (lastBlock m ctx).Returns m' ∧
      loadWords m' ctx = absorb 64 compress initialWords (padded ++ toBytes 8 (8 * n)) ∧
      ∀ x, x < ctx ∨ ctx + 88 ≤ x → m' x = m x := by
  simp only [lastBlock, out_eq_write, wordAt_write_self]
  rw [wordAt_write_of_disjoint (by omega), wordAt_write_of_disjoint (by omega)]
  generalize hm₁ : ((m.write 4 ctx (wordAt m ctx <<< 3).toNat).write 4 (ctx + 24 + 56)
    (wordAt m ctx <<< 3).toNat).write 4 (ctx + 24 + 60) (wordAt m (ctx + 4)).toNat = m₁
  have hframe : ∀ x, x < ctx ∨ ctx + 4 ≤ x ∧ x < ctx + 24 + 56 ∨ ctx + 24 + 64 ≤ x →
      m₁ x = m x := fun x hx => by
    rw [← hm₁, Memory.write_of_not_mem (by omega), Memory.write_of_not_mem (by omega),
      Memory.write_of_not_mem (by omega)]
  have hlength : arrayBytes m₁ (ctx + 24 + 56) (4 + 4) = toBytes 8 (8 * n) := by
    rw [← counters_toBytes hlo hhi, arrayBytes_add, ← hm₁, Nat.add_assoc (ctx + 24) 56,
      arrayBytes_write]
    congr 1
    rw [arrayBytes_congr fun i hi => Memory.write_of_not_mem (by omega), arrayBytes_write]
  have hblock : arrayBytes m₁ (ctx + 24) 64 = remainder 64 padded ++ toBytes 8 (8 * n) := by
    rw [← hlength, ← hbuffer, show 64 = 56 + (4 + 4) from rfl, arrayBytes_add]
    congr 1
    exact arrayBytes_congr fun i hi => hframe _ (by omega)
  have hbody := body_block m₁ ctx (ctx + 24)
  rw [hblock, loadWords_congr fun x _ hx => hframe x (by omega), hwords,
    ← absorb_append (by decide)] at hbody
  refine ⟨_, hbody.bind_iff.2 (returns_pure_iff.2 rfl), loadWords_storeWords _ _ _, fun x hx => ?_⟩
  exact (storeWords_of_not_mem (by omega)).trans (hframe x (by omega))

/-- The words stored one after the other are the bytes of the digest. -/
theorem arrayBytes_words (m : Memory) (p : ℕ) (w : Words) :
    arrayBytes ((((m.write 4 p w.a.toNat).write 4 (p + 4) w.b.toNat).write 4 (p + 8)
      w.c.toNat).write 4 (p + 12) w.d.toNat) p 16 = w.bytes := by
  have hsplit : 16 = 4 + 4 + 4 + 4 := rfl
  rw [hsplit, arrayBytes_add, arrayBytes_add, arrayBytes_add, Words.bytes]
  congr 1
  · congr 1
    · congr 1
      · rw [arrayBytes_congr fun i hi => Memory.write_of_not_mem (by omega),
          arrayBytes_congr fun i hi => Memory.write_of_not_mem (by omega),
          arrayBytes_congr fun i hi => Memory.write_of_not_mem (by omega), arrayBytes_write]
      · rw [arrayBytes_congr fun i hi => Memory.write_of_not_mem (by omega),
          arrayBytes_congr fun i hi => Memory.write_of_not_mem (by omega), arrayBytes_write]
    · rw [arrayBytes_congr fun i hi => Memory.write_of_not_mem (by omega), arrayBytes_write]
  · rw [arrayBytes_write]

/-- `MD5_Final` stores the digest of the message, clears the context, and changes nothing else. -/
theorem md5Final_digest (h : Absorbed m ctx message) (hoff : OffContext ctx result 16) :
    ∃ m', (md5Final m result ctx).Returns m' ∧ arrayBytes m' result 16 = md5 message ∧
      (∀ x, ctx ≤ x → x < ctx + 152 → m' x = 0) ∧
      ∀ x, (x < ctx ∨ ctx + 152 ≤ x) → (x < result ∨ result + 16 ≤ x) → m' x = m x := by
  obtain ⟨m₁, hpad, hwords₁, hbuffer₁, hframe₁⟩ := padBuffer_returns h
  obtain ⟨m₂, hlast, hwords₂, hframe₂⟩ := lastBlock_returns (n := message.length) hwords₁ hbuffer₁
    (by rw [wordAt_congr fun i hi => hframe₁ _ (by omega), h.lo])
    (by rw [wordAt_congr fun i hi => hframe₁ _ (by omega), h.hi])
  rw [OffContext] at hoff
  rw [zeroPadded_append] at hwords₂
  -- Storing the result does not change the words of the context.
  have hkept : ∀ (m : Memory) v p j, result ≤ p → p ≤ result + 12 → 8 ≤ j → j ≤ 20 →
      wordAt (m.write 4 p v) (ctx + j) = wordAt m (ctx + j) :=
    fun m v p j hp₁ hp₂ hj₁ hj₂ => wordAt_write_of_disjoint (by omega) v
  have hfinal : (md5Final m result ctx).Returns
      (((((m₂.write 4 result (loadWords m₂ ctx).a.toNat).write 4 (result + 4)
        (loadWords m₂ ctx).b.toNat).write 4 (result + 8) (loadWords m₂ ctx).c.toNat).write 4
        (result + 12) (loadWords m₂ ctx).d.toNat).fill ctx 152 0) := by
    rw [md5Final, hpad.bind_iff, hlast.bind_iff, returns_pure_iff]
    simp only [out_eq_write, memset_zero, loadWords]
    rw [hkept _ _ _ 20 (by omega) (by omega) (by omega) (by omega),
      hkept _ _ _ 20 (by omega) (by omega) (by omega) (by omega),
      hkept _ _ _ 20 (by omega) (by omega) (by omega) (by omega),
      hkept _ _ _ 16 (by omega) (by omega) (by omega) (by omega),
      hkept _ _ _ 16 (by omega) (by omega) (by omega) (by omega),
      hkept _ _ _ 12 (by omega) (by omega) (by omega) (by omega)]
  refine ⟨_, hfinal, ?_, fun x h₁ h₂ => Memory.fill_of_mem h₁ h₂, fun x hx hr => ?_⟩
  · rw [arrayBytes_congr fun i hi => Memory.fill_of_not_mem (by omega), arrayBytes_words, hwords₂,
      md5]
  · rw [Memory.fill_of_not_mem (by omega), Memory.write_of_not_mem (by omega),
      Memory.write_of_not_mem (by omega), Memory.write_of_not_mem (by omega),
      Memory.write_of_not_mem (by omega), hframe₂ x (by omega), hframe₁ x (by omega)]

end final

end Cboot.Md5
