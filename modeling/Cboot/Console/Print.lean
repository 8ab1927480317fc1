import Cboot.Lib.Fueled
import Cboot.Mem
import Mathlib.Data.Nat.Digits.Lemmas

/-!
# Printing

The functions of `print.c`. What they print is the list of the characters given to `putc`
so far (`out`), which go to the screen and to the serial port.

* `puts` prints a string (`puts_returns`);
* the functions `putx8` to `putx64` print a number with two hexadecimal digits for every
  byte of its type (`putx_returns`);
* `putd` prints the decimal numeral of a number, from the last digit back in a buffer that
  is long enough for it (`putd_exact`);
* `hexdump` prints bytes so that they can be read back (`hexdump_readable`).
-/

namespace Cboot

open Fueled

/-! ## Strings -/

/-- A character is sent to the end of the output. -/
def putc (out : List UInt8) (c : UInt8) : List UInt8 := out ++ [c]

/-- A round of the loop of `puts`. -/
def putsRound (m : Memory) : ℕ × List UInt8 → Fueled (ℕ × List UInt8 ⊕ List UInt8)
  | (s, out) => if m s ≠ 0 then pure (.inl (s + 1, putc out (m s))) else pure (.inr out)

/-- The characters from the address `s` on, up to the first that is zero. -/
def puts (m : Memory) (s : ℕ) (out : List UInt8) : Fueled (List UInt8) :=
  .loop (putsRound m) (s, out)

theorem puts_returns {m : Memory} {s : ℕ} {str : List UInt8} (h : CString m s str)
    (out : List UInt8) : (puts m s out).Returns (out ++ str) := by
  induction str generalizing s out with
  | nil =>
    refine Returns.loop_done ?_
    have h : m s = 0 := h
    rw [putsRound, if_neg (not_not_intro h), List.append_nil]
    exact returns_pure_iff.2 rfl
  | cons c str ih =>
    have hround : (putsRound m (s, out)).Returns (.inl (s + 1, out ++ [c])) := by
      rw [putsRound, h.1, if_pos h.2.1]
      exact returns_pure_iff.2 rfl
    have hrest := ih h.2.2 (out ++ [c])
    rw [List.append_assoc] at hrest
    exact hround.loop_iff.2 hrest

/-! ## Hexadecimal numbers -/

/-- The digits, as characters. -/
def hexdigits : List UInt8 :=
  [0x30, 0x31, 0x32, 0x33, 0x34, 0x35, 0x36, 0x37, 0x38, 0x39, 0x41, 0x42, 0x43, 0x44, 0x45, 0x46]

/-- The loop of the functions `putx8` to `putx64`, for a type of `size` bytes, after `i` rounds. -/
def putxLoop (size val : ℕ) (buf : Memory) : (i : ℕ) → Memory
  | 0 => buf
  | i + 1 => (putxLoop size val buf i).set (size * 2 - 1 - i)
      (hexdigits.getD ((val >>> (i * 4)) &&& 0xF) 0)

/-- What these functions share. -/
def putx (size val : ℕ) (out : List UInt8) : Fueled (List UInt8) :=
  puts (putxLoop size val (memset (fun _ => 0) 0 0 20) (size * 2)) 0 out

/-- The two digits of a byte. -/
def putx8 (val : UInt8) : List UInt8 → Fueled (List UInt8) := putx 1 val.toNat

/-- The sixteen digits of a quadword. -/
def putx64 (val : UInt64) : List UInt8 → Fueled (List UInt8) := putx 8 val.toNat

/-- The digit of a number below 16. -/
def hexDigit (d : ℕ) : UInt8 := hexdigits.getD d 0

/-- The last `n` hexadecimal digits of a number. -/
def hexNumeral (n val : ℕ) : List UInt8 :=
  (List.range n).map fun i => hexDigit (val / 16 ^ (n - 1 - i) % 16)

theorem hexNumeral_length (n val : ℕ) : (hexNumeral n val).length = n := by
  rw [hexNumeral, List.length_map, List.length_range]

theorem hexDigit_ne_zero : ∀ d < 16, hexDigit d ≠ 0 := by decide

theorem putxLoop_apply {size val i : ℕ} (buf : Memory) (hi : i ≤ size * 2) (x : ℕ) :
    putxLoop size val buf i x =
      if size * 2 - i ≤ x ∧ x < size * 2 then hexDigit (val / 16 ^ (size * 2 - 1 - x) % 16)
      else buf x := by
  induction i with
  | zero => rw [putxLoop, if_neg (by omega)]
  | succ i ih =>
    rw [putxLoop]
    by_cases hx : x = size * 2 - 1 - i
    · have hpow : (2 : ℕ) ^ (i * 4) = 16 ^ i := by rw [Nat.mul_comm, Nat.pow_mul]
      have hsub : size * 2 - 1 - (size * 2 - 1 - i) = i := by omega
      have hmod : val / 16 ^ i &&& 0xF = val / 16 ^ i % 16 := Nat.and_two_pow_sub_one_eq_mod _ 4
      rw [hx, Memory.set_self, if_pos (by omega), hsub, Nat.shiftRight_eq_div_pow, hpow, hmod]
      rfl
    · rw [Memory.set_of_ne _ _ hx, ih (Nat.le_of_succ_le hi)]
      exact if_congr (by omega) rfl rfl

/-- A number is printed with all the digits of its type. -/
theorem putx_returns {size : ℕ} (val : ℕ) (hsize : size * 2 < 20) (out : List UInt8) :
    (putx size val out).Returns (out ++ hexNumeral (size * 2) val) := by
  refine puts_returns (cString_of_getD ?_ fun i hi => ?_) out
  · intro c hc
    obtain ⟨i, _, rfl⟩ := List.mem_map.1 hc
    exact hexDigit_ne_zero _ (Nat.mod_lt _ (by decide))
  · rw [hexNumeral_length] at hi
    rw [Nat.zero_add, putxLoop_apply _ le_rfl, Nat.sub_self, List.getD_eq_getElem?_getD, hexNumeral,
      List.getElem?_map]
    by_cases hlt : i < size * 2
    · rw [if_pos ⟨Nat.zero_le i, hlt⟩, List.getElem?_range hlt]
      rfl
    · rw [if_neg fun h => hlt h.2, List.getElem?_eq_none (by rwa [List.length_range, ← Nat.not_lt]),
        memset_zero]
      exact Memory.fill_of_mem (Nat.zero_le i) (by omega)

theorem putx64_returns (val : UInt64) (out : List UInt8) :
    (putx64 val out).Returns (out ++ hexNumeral 16 val.toNat) :=
  putx_returns val.toNat (by decide) out

/-! ## Decimal numbers -/

/-- The memory of `putd`, with the pointer into its buffer and a record of the addresses that
    have been stored to through it. -/
structure DigitBuffer where
  m : Memory
  s : ℕ
  stores : List ℕ

/-- The buffer `buf` on the stack, cleared, with the pointer to its last byte. -/
def DigitBuffer.init (stack : Memory) (buf : ℕ) : DigitBuffer where
  m := memset stack buf 0 32
  s := buf + 31
  stores := []

/-- The store `*--s = c`. -/
def DigitBuffer.push (b : DigitBuffer) (c : UInt8) : DigitBuffer where
  m := b.m.set (b.s - 1) c
  s := b.s - 1
  stores := b.stores ++ [b.s - 1]

/-- A round of the loop that stores the digits. -/
def digitRound : DigitBuffer × UInt64 → Fueled (DigitBuffer × UInt64 ⊕ DigitBuffer)
  | (b, val) =>
    if val ≠ 0 then pure (.inl (b.push (0x30 + val % 10).toUInt8, val / 10)) else pure (.inr b)

/-- The text, and what has become of the buffer. -/
def putd (stack : Memory) (buf : ℕ) (val : UInt64) (out : List UInt8) :
    Fueled (DigitBuffer × List UInt8) := do
  let b := (DigitBuffer.init stack buf).push 0
  let b := if val = 0 then b.push 0x30 else b
  let b ← .loop digitRound (b, val)
  let out ← puts b.m b.s out
  pure (b, out)

/-- The character of a decimal digit. -/
def decimalDigit (d : ℕ) : UInt8 := .ofNat (48 + d)

/-- The decimal numeral of a number, the most significant digit first. -/
def decimal (n : ℕ) : List UInt8 :=
  if n = 0 then [0x30] else (Nat.digits 10 n).reverse.map decimalDigit

/-- The number that a text reads as in decimal. -/
def readDecimal (text : List UInt8) : ℕ := Nat.ofDigits 10 (text.reverse.map (·.toNat - 48))

/-- The text is a numeral of the number: digits, without a zero in front unless it is the only
    one, that read as the number. -/
structure IsNumeral (text : List UInt8) (n : ℕ) : Prop where
  ne_nil : text ≠ []
  digits : ∀ c ∈ text, 0x30 ≤ c ∧ c ≤ 0x39
  canonical : text.head? = some 0x30 → text = [0x30]
  value : readDecimal text = n

section decimal

theorem decimalDigit_toNat {d : ℕ} (h : d < 10) : (decimalDigit d).toNat = 48 + d := by
  rw [decimalDigit, UInt8.toNat_ofNat']
  omega

theorem decimal_isNumeral (n : ℕ) : IsNumeral (decimal n) n := by
  by_cases hn : n = 0
  · subst hn
    exact ⟨by decide, by simp [decimal], fun _ => rfl, rfl⟩
  have hlt : ∀ d ∈ Nat.digits 10 n, d < 10 := fun d hd => Nat.digits_lt_base (by decide) hd
  have hne : Nat.digits 10 n ≠ [] := Nat.digits_ne_nil_iff_ne_zero.2 hn
  rw [decimal, if_neg hn]
  constructor
  · simpa using hne
  · intro c hc
    obtain ⟨d, hd, rfl⟩ := List.mem_map.1 hc
    have hd := hlt d (List.mem_reverse.1 hd)
    rw [UInt8.le_iff_toNat_le, UInt8.le_iff_toNat_le, decimalDigit_toNat hd]
    exact ⟨Nat.le_add_right 48 d, by change 48 + d ≤ 57; omega⟩
  · intro hhead
    -- The last of the digits, which are the least significant first, is not zero.
    rw [List.head?_map, List.head?_reverse, List.getLast?_eq_some_getLast hne, Option.map_some,
      Option.some_inj] at hhead
    have hlast := Nat.getLast_digit_ne_zero 10 hn
    have hnat := congrArg UInt8.toNat hhead
    rw [decimalDigit_toNat (hlt _ (List.getLast_mem hne))] at hnat
    exact absurd (Nat.add_left_cancel (hnat.trans (Nat.add_zero 48).symm)) hlast
  · have hmap : (Nat.digits 10 n).map ((fun c : UInt8 => c.toNat - 48) ∘ decimalDigit) =
        Nat.digits 10 n := by
      refine (List.map_congr_left fun d hd => ?_).trans (List.map_id _)
      rw [Function.comp_apply, decimalDigit_toNat (hlt d hd), Nat.add_sub_cancel_left, id_eq]
    rw [readDecimal, ← List.map_reverse, List.reverse_reverse, List.map_map, hmap,
      Nat.ofDigits_digits]

/-- The pointer is in the buffer, and so is everything that has been stored. -/
structure InBuffer (stack : Memory) (buf : ℕ) (b : DigitBuffer) : Prop where
  le : b.s ≤ buf + 31
  stores : ∀ a ∈ b.stores, buf ≤ a ∧ a < buf + 32
  frame : ∀ x, x < buf ∨ buf + 32 ≤ x → b.m x = stack x

variable {stack : Memory} {buf k : ℕ} {b : DigitBuffer} {c : UInt8} {str : List UInt8}

theorem InBuffer.push (h : InBuffer stack buf b) (hs : buf < b.s) (c : UInt8) :
    InBuffer stack buf (b.push c) where
  le := Nat.le_trans (Nat.sub_le _ _) h.le
  stores a ha := by
    have hle := h.le
    rcases List.mem_append.1 ha with ha | ha
    · exact h.stores a ha
    · rw [List.mem_singleton.1 ha]
      omega
  frame x hx := by
    have hle := h.le
    exact (Memory.set_of_ne _ _ (by omega)).trans (h.frame x hx)

/-- A string is in front of the one that was pushed on. -/
theorem cString_push (h : CString b.m b.s str) (hc : c ≠ 0) (hs : 0 < b.s) :
    CString (b.push c).m (b.push c).s (c :: str) := by
  refine ⟨Memory.set_self _ _ _, hc, ?_⟩
  have hsucc : (b.push c).s + 1 = b.s := Nat.sub_add_cancel hs
  rw [hsucc]
  exact h.congr fun x hx _ => Memory.set_of_ne _ _ (by omega)

theorem lastDigit (val : UInt64) :
    (0x30 + val % 10).toUInt8 = decimalDigit (val.toNat % 10) := by
  have hlt := Nat.mod_lt val.toNat (show 0 < 10 by decide)
  refine UInt8.toNat_inj.1 ?_
  rw [decimalDigit_toNat hlt, UInt64.toNat_toUInt8, UInt64.toNat_add, UInt64.toNat_mod]
  change (48 + val.toNat % 10) % 2 ^ 64 % 2 ^ 8 = _
  omega

/-- The digits of what is left are put in front of those stored before. -/
theorem digitLoop_returns {val : UInt64} (hb : InBuffer stack buf b) (hstr : CString b.m b.s str)
    (hval : val.toNat < 10 ^ k) (hs : buf + k < b.s) :
    ∃ b', (loop digitRound (b, val)).Returns b' ∧ InBuffer stack buf b' ∧
      CString b'.m b'.s ((Nat.digits 10 val.toNat).reverse.map decimalDigit ++ str) := by
  induction k generalizing b val str with
  | zero =>
    obtain rfl : val = 0 := UInt64.toNat_inj.1 (Nat.lt_one_iff.1 hval)
    exact ⟨b, Returns.loop_done (returns_pure_iff.2 rfl), hb, hstr⟩
  | succ k ih =>
    by_cases hz : val = 0
    · subst hz
      exact ⟨b, Returns.loop_done (returns_pure_iff.2 rfl), hb, hstr⟩
    · have hpos : 0 < val.toNat := Nat.pos_of_ne_zero fun h => hz (UInt64.toNat_inj.1 h)
      have hdiv : (val / 10).toNat = val.toNat / 10 := UInt64.toNat_div val 10
      have hlt := Nat.mod_lt val.toNat (show 0 < 10 by decide)
      have hne : decimalDigit (val.toNat % 10) ≠ 0 := by
        intro h
        have := congrArg UInt8.toNat h
        rw [decimalDigit_toNat hlt, UInt8.toNat_zero] at this
        omega
      have hround : (digitRound (b, val)).Returns
          (.inl (b.push (decimalDigit (val.toNat % 10)), val / 10)) := by
        rw [digitRound, if_pos hz, lastDigit]
        exact returns_pure_iff.2 rfl
      have hval' : (val / 10).toNat < 10 ^ k := by
        rw [hdiv]
        exact Nat.div_lt_of_lt_mul (by rwa [Nat.pow_succ'] at hval)
      obtain ⟨b', hret, hb', hstr'⟩ := ih (hb.push (by omega) _)
        (cString_push hstr hne (by omega)) hval' (by change buf + k < b.s - 1; omega)
      refine ⟨b', hround.loop_iff.2 hret, hb', ?_⟩
      rw [hdiv] at hstr'
      rw [Nat.digits_def' (by decide) hpos, List.reverse_cons, List.map_append, List.append_assoc]
      exact hstr'

theorem inBuffer_init (stack : Memory) (buf : ℕ) :
    InBuffer stack buf ((DigitBuffer.init stack buf).push 0) := by
  refine InBuffer.push ⟨le_rfl, fun a ha => absurd ha List.not_mem_nil, fun x hx => ?_⟩
    (Nat.lt_add_of_pos_right (by decide)) 0
  rw [DigitBuffer.init, memset_zero]
  exact Memory.fill_of_not_mem hx

theorem cString_init (stack : Memory) (buf : ℕ) :
    CString ((DigitBuffer.init stack buf).push 0).m (buf + 30) [] :=
  Memory.set_self _ _ _

/-- There is room for the 20 digits that a number of 64 bits may have. -/
theorem digits_returns (stack : Memory) (buf : ℕ) (val : UInt64) :
    ∃ b, (loop digitRound (if val = 0 then ((DigitBuffer.init stack buf).push 0).push 0x30
        else (DigitBuffer.init stack buf).push 0, val)).Returns b ∧
      InBuffer stack buf b ∧ CString b.m b.s (decimal val.toNat) := by
  by_cases hz : val = 0
  · subst hz
    rw [if_pos rfl]
    exact ⟨_, Returns.loop_done (returns_pure_iff.2 rfl),
      (inBuffer_init stack buf).push (Nat.lt_add_of_pos_right (by decide)) _,
      cString_push (cString_init stack buf) (by decide) (Nat.succ_pos _)⟩
  · have hval : val.toNat < 10 ^ 20 := Nat.lt_trans val.toNat_lt (by decide)
    obtain ⟨b, hret, hb, hstr⟩ := digitLoop_returns (inBuffer_init stack buf)
      (cString_init stack buf) hval (by change buf + 20 < buf + 30; omega)
    have hnat : val.toNat ≠ 0 := fun h => hz (UInt64.toNat_inj.1 h)
    rw [List.append_nil] at hstr
    rw [if_neg hz, decimal, if_neg hnat]
    exact ⟨b, hret, hb, hstr⟩

/-- `putd` prints the numeral of the number, from its buffer. -/
theorem putd_returns (stack : Memory) (buf : ℕ) (val : UInt64) (out : List UInt8) :
    ∃ b, (putd stack buf val out).Returns (b, out ++ decimal val.toNat) ∧
      InBuffer stack buf b := by
  obtain ⟨b, hret, hb, hstr⟩ := digits_returns stack buf val
  refine ⟨b, ?_, hb⟩
  rw [putd, hret.bind_iff, (puts_returns hstr out).bind_iff]
  exact returns_pure_iff.2 rfl

/-- What `putd` prints is the numeral of the number, and it stores nothing outside its buffer. -/
theorem putd_exact (stack : Memory) (buf : ℕ) (val : UInt64) (out : List UInt8) :
    ∃ b, (putd stack buf val out).Returns (b, out ++ decimal val.toNat) ∧
      IsNumeral (decimal val.toNat) val.toNat ∧ (∀ a ∈ b.stores, buf ≤ a ∧ a < buf + 32) ∧
      ∀ x, x < buf ∨ buf + 32 ≤ x → b.m x = stack x := by
  obtain ⟨b, hret, hb⟩ := putd_returns stack buf val out
  exact ⟨b, hret, decimal_isNumeral _, hb.stores, hb.frame⟩

end decimal

/-! ## Dumps -/

/-- The first `i` rounds of the loop of `hexdump`. The counter of the program starts at 1, and
    is far from wrapping: no array is as long as the address space. -/
def hexdump (m : Memory) (buf : ℕ) : (size : ℕ) → List UInt8 → Fueled (List UInt8)
  | 0, out => pure out
  | i + 1, out => do
    let out ← hexdump m buf i out
    let out ← putx8 (m (buf + i)) out
    if (i + 1) % 32 = 0 then pure (putc out 0x0A)
    else if (i + 1) % 2 = 0 then pure (putc out 0x20)
    else pure out

/-- The bytes of an array. -/
def arrayBytes (m : Memory) (buf size : ℕ) : List UInt8 :=
  (List.range size).map fun i => m (buf + i)

/-- What a dump has after the `i`-th byte, counted from one. -/
def separator (i : ℕ) : List UInt8 := if 32 ∣ i then [0x0A] else if 2 ∣ i then [0x20] else []

/-- An uppercase hexadecimal digit. -/
def IsHexDigit (c : UInt8) : Prop := (0x30 ≤ c ∧ c ≤ 0x39) ∨ (0x41 ≤ c ∧ c ≤ 0x46)

instance (c : UInt8) : Decidable (IsHexDigit c) := inferInstanceAs (Decidable (_ ∨ _))

/-- The value of a hexadecimal digit. -/
def hexValue (c : UInt8) : ℕ := if c ≤ 0x39 then c.toNat - 0x30 else c.toNat - 0x41 + 10

/-- The bytes that digits decode to, in pairs. -/
def decodePairs : List UInt8 → List UInt8
  | c₁ :: c₂ :: text => .ofNat (16 * hexValue c₁ + hexValue c₂) :: decodePairs text
  | _ => []

/-- The text without spaces and newlines. -/
def withoutSeparators (text : List UInt8) : List UInt8 := text.filter fun c => c ≠ 0x20 ∧ c ≠ 0x0A

/-- The text can be read back: without its separators it consists of two digits for every
    byte, which decode to the bytes, and these pairs have the separators after them. -/
structure IsDump (text bytes : List UInt8) : Prop where
  length : (withoutSeparators text).length = 2 * bytes.length
  digits : ∀ c ∈ withoutSeparators text, IsHexDigit c
  decodes : decodePairs (withoutSeparators text) = bytes
  separators : text = (List.range bytes.length).flatMap fun i =>
    ((withoutSeparators text).drop (2 * i)).take 2 ++ separator (i + 1)

section dump

/-- The two digits of a byte. -/
def hexPair (b : UInt8) : List UInt8 := hexNumeral 2 b.toNat

/-- The dump of bytes. -/
def dumpText (bytes : List UInt8) : List UInt8 :=
  (List.range bytes.length).flatMap fun i => hexPair (bytes.getD i 0) ++ separator (i + 1)

variable {m : Memory} {buf : ℕ}

theorem putx8_returns (val : UInt8) (out : List UInt8) :
    (putx8 val out).Returns (out ++ hexPair val) :=
  putx_returns val.toNat (by decide) out

theorem arrayBytes_length (m : Memory) (buf size : ℕ) : (arrayBytes m buf size).length = size := by
  rw [arrayBytes, List.length_map, List.length_range]

theorem arrayBytes_getD (m : Memory) (buf : ℕ) {size i : ℕ} (h : i < size) :
    (arrayBytes m buf size).getD i 0 = m (buf + i) := by
  rw [arrayBytes, List.getD_eq_getElem?_getD, List.getElem?_map, List.getElem?_range h]
  rfl

theorem dumpText_succ (m : Memory) (buf size : ℕ) :
    dumpText (arrayBytes m buf (size + 1)) =
      dumpText (arrayBytes m buf size) ++ (hexPair (m (buf + size)) ++ separator (size + 1)) := by
  rw [dumpText, dumpText, arrayBytes_length, arrayBytes_length, List.range_succ,
    List.flatMap_append, List.flatMap_singleton, arrayBytes_getD m buf (Nat.lt_succ_self size)]
  congr 1
  refine List.flatMap_congr fun i hi => ?_
  have hi := List.mem_range.1 hi
  rw [arrayBytes_getD m buf hi, arrayBytes_getD m buf (Nat.lt_succ_of_lt hi)]

theorem hexdump_returns (size : ℕ) (out : List UInt8) :
    (hexdump m buf size out).Returns (out ++ dumpText (arrayBytes m buf size)) := by
  induction size with
  | zero =>
    rw [hexdump]
    exact returns_pure_iff.2 (List.append_nil out)
  | succ i ih =>
    rw [hexdump, ih.bind_iff, (putx8_returns _ _).bind_iff, dumpText_succ, separator]
    simp only [Nat.dvd_iff_mod_eq_zero]
    split
    · rw [returns_pure_iff, putc, List.append_assoc, List.append_assoc]
    · split
      · rw [returns_pure_iff, putc, List.append_assoc, List.append_assoc]
      · rw [returns_pure_iff, List.append_nil, List.append_assoc]

theorem hexPair_eq (b : UInt8) :
    hexPair b = [hexDigit (b.toNat / 16), hexDigit (b.toNat % 16)] := by
  have hlt := b.toNat_lt
  have hdiv : b.toNat / 16 % 16 = b.toNat / 16 := Nat.mod_eq_of_lt (by omega)
  simp [hexPair, hexNumeral, List.range_succ, hdiv]

theorem hexDigit_spec : ∀ d < 16, IsHexDigit (hexDigit d) ∧ hexValue (hexDigit d) = d ∧
    hexDigit d ≠ 0x20 ∧ hexDigit d ≠ 0x0A := by decide

theorem withoutSeparators_append (s t : List UInt8) :
    withoutSeparators (s ++ t) = withoutSeparators s ++ withoutSeparators t :=
  List.filter_append s t

theorem hexPair_length (b : UInt8) : (hexPair b).length = 2 := hexNumeral_length 2 _

theorem mem_hexPair {b c : UInt8} (h : c ∈ hexPair b) : ∃ d < 16, c = hexDigit d := by
  obtain ⟨i, _, rfl⟩ := List.mem_map.1 h
  exact ⟨_, Nat.mod_lt _ (by decide), rfl⟩

theorem withoutSeparators_hexPair (b : UInt8) : withoutSeparators (hexPair b) = hexPair b := by
  refine List.filter_eq_self.2 fun c hc => ?_
  obtain ⟨d, hd, rfl⟩ := mem_hexPair hc
  exact decide_eq_true (hexDigit_spec d hd).2.2

theorem withoutSeparators_separator (i : ℕ) : withoutSeparators (separator i) = [] := by
  rw [separator]
  split
  · rfl
  · split <;> rfl

theorem flatMap_eq_range (f : UInt8 → List UInt8) (bytes : List UInt8) :
    bytes.flatMap f = (List.range bytes.length).flatMap fun i => f (bytes.getD i 0) := by
  induction bytes with
  | nil => rfl
  | cons b bytes ih =>
    rw [List.flatMap_cons, ih, List.length_cons, List.range_succ_eq_map, List.flatMap_cons,
      List.flatMap_map]
    rfl

/-- Without separators, a dump is the digits of its bytes. -/
theorem withoutSeparators_dumpText (bytes : List UInt8) :
    withoutSeparators (dumpText bytes) = bytes.flatMap hexPair := by
  rw [withoutSeparators, dumpText, List.filter_flatMap, flatMap_eq_range]
  refine List.flatMap_congr fun i _ => ?_
  rw [← withoutSeparators, withoutSeparators_append, withoutSeparators_hexPair,
    withoutSeparators_separator, List.append_nil]

theorem length_flatMap_hexPair (bytes : List UInt8) :
    (bytes.flatMap hexPair).length = 2 * bytes.length := by
  induction bytes with
  | nil => rfl
  | cons b bytes ih =>
    rw [List.flatMap_cons, List.length_append, ih, hexPair_length, List.length_cons]
    omega

theorem decodePairs_flatMap_hexPair (bytes : List UInt8) :
    decodePairs (bytes.flatMap hexPair) = bytes := by
  induction bytes with
  | nil => rfl
  | cons b bytes ih =>
    have hlt := b.toNat_lt
    have hhigh := (hexDigit_spec (b.toNat / 16) (by omega)).2.1
    have hlow := (hexDigit_spec (b.toNat % 16) (by omega)).2.1
    rw [List.flatMap_cons, hexPair_eq, List.cons_append, List.cons_append, List.nil_append,
      decodePairs, ih, hhigh, hlow, Nat.div_add_mod, UInt8.ofNat_toNat]

/-- The digits of a byte are found at its place. -/
theorem drop_flatMap_hexPair (bytes : List UInt8) {i : ℕ} (hi : i < bytes.length) :
    ((bytes.flatMap hexPair).drop (2 * i)).take 2 = hexPair (bytes.getD i 0) := by
  induction bytes generalizing i with
  | nil => exact absurd hi (Nat.not_lt_zero i)
  | cons b bytes ih =>
    cases i with
    | zero =>
      rw [List.flatMap_cons, Nat.mul_zero, List.drop_zero, List.take_left' (hexPair_length b)]
      rfl
    | succ i =>
      have hmul : 2 * (i + 1) = (hexPair b).length + 2 * i := by
        rw [hexPair_length]
        omega
      rw [List.flatMap_cons, hmul, List.drop_length_add_append, ih (Nat.lt_of_succ_lt_succ hi),
        List.getD_cons_succ]

theorem isDump_dumpText (bytes : List UInt8) : IsDump (dumpText bytes) bytes := by
  have hdigits := withoutSeparators_dumpText bytes
  constructor
  · rw [hdigits, length_flatMap_hexPair]
  · intro c hc
    rw [hdigits] at hc
    obtain ⟨b, _, hc⟩ := List.mem_flatMap.1 hc
    obtain ⟨d, hd, rfl⟩ := mem_hexPair hc
    exact (hexDigit_spec d hd).1
  · rw [hdigits, decodePairs_flatMap_hexPair]
  · rw [hdigits, dumpText]
    refine List.flatMap_congr fun i hi => ?_
    rw [drop_flatMap_hexPair bytes (List.mem_range.1 hi)]

/-- The dump of an array can be read back. -/
theorem hexdump_readable (m : Memory) (buf size : ℕ) (out : List UInt8) :
    ∃ text, (hexdump m buf size out).Returns (out ++ text) ∧
      IsDump text (arrayBytes m buf size) :=
  ⟨_, hexdump_returns size out, isDump_dumpText _⟩

end dump

end Cboot
