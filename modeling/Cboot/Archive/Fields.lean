import Cboot.Archive.Build
import Mathlib.Data.Nat.Digits.Lemmas
import Mathlib.Tactic.IntervalCases

/-!
# The fields of a header

What the format puts into two fields of a header, and what the walkers make of them:

* the *path*: one that is too long for its field is cut at a slash, which neither part
  keeps. The walkers put the parts together without it, so that a path is only found
  when it has not been cut (`pathSurvives_iff`);
* the *size*: octal digits, with terminators up to the end of the field. The walkers
  take every one of eleven bytes for a digit, and a terminator is none: the size is
  right when there are eleven digits, and only then (`sizeDecoded_iff`).
-/

namespace Cboot

/-- A field of `n` bytes holding a list: padded with zeros, or filled. -/
def HoldsField (sector : Memory) (pos n : ℕ) (s : List UInt8) : Prop :=
  s.length ≤ n ∧ ∀ i < n, sector (pos + i) = s.getD i 0

theorem HoldsField.eq {sector : Memory} {pos n i : ℕ} {s : List UInt8} {c : UInt8}
    (h : HoldsField sector pos n s) (hc : s[i]? = some c) : sector (pos + i) = c := by
  have hi : i < s.length := (List.getElem?_eq_some_iff.1 hc).1
  rw [h.2 i (Nat.lt_of_lt_of_le hi h.1), List.getD_eq_getElem?_getD, hc]
  rfl

/-! ## The path -/

/-- The parts of a path. -/
inductive IsSplit : (p namePrefix name : List UInt8) → Prop
  | short {name} (hname : name.length ≤ 100) : IsSplit name [] name
  | cut {namePrefix name} (hfront : 1 ≤ namePrefix.length ∧ namePrefix.length ≤ 155)
      (hname : 1 ≤ name.length ∧ name.length ≤ 100) :
      IsSplit (namePrefix ++ 0x2F :: name) namePrefix name

/-- The sector has the parts of the path in its fields. -/
structure HasPath (sector : Memory) (p namePrefix name : List UInt8) : Prop where
  ne_zero : ∀ c ∈ p, c ≠ 0
  split : IsSplit p namePrefix name
  prefixField : HoldsField sector 345 155 namePrefix
  nameField : HoldsField sector 0 100 name

/-- The name put together from the fields is the path after a slash, it fits its buffer, and
    looking up that path matches the header. -/
def PathSurvives (sector : Memory) (p : List UInt8) : Prop :=
  CString (rebuildFilename sector) 0 (0x2F :: p) ∧ (0x2F :: p).length + 1 ≤ 257 ∧
    ∀ m path, CString m path (0x2F :: p) → matchesPath m path sector = true

section path

variable {sector : Memory} {p namePrefix name : List UInt8}

theorem IsSplit.subset (h : IsSplit p namePrefix name) : ∀ c ∈ namePrefix ++ name, c ∈ p := by
  intro c hc
  cases h with
  | short => exact hc
  | cut => grind

/-- What the fields hold is put together without the slash between them. -/
theorem HasPath.headerPath_eq (h : HasPath sector p namePrefix name) :
    headerPath sector = 0x2F :: (namePrefix ++ name) := by
  have hne : ∀ c ∈ namePrefix ++ name, c ≠ 0 := fun c hc => h.ne_zero c (h.split.subset c hc)
  rw [headerPath, fieldString_eq (fun c hc => hne c (List.mem_append_left _ hc))
    h.prefixField.1 h.prefixField.2, fieldString_eq (fun c hc => hne c (List.mem_append_right _ hc))
    h.nameField.1 h.nameField.2]

/-- A path survives if and only if it has not been cut. -/
theorem pathSurvives_iff (h : HasPath sector p namePrefix name) :
    PathSurvives sector p ↔ namePrefix = [] := by
  have hstring := cString_rebuildFilename sector
  have hlen := headerPath_length_le sector
  rw [h.headerPath_eq] at hstring hlen
  constructor
  · rintro ⟨hp, _⟩
    have heq := List.cons.inj (hp.unique hstring)
    cases h.split with
    | short => rfl
    | cut =>
      -- The slash is missing in one of the two.
      have := congrArg List.length heq.2
      rw [List.length_append, List.length_append, List.length_cons] at this
      omega
  · rintro rfl
    cases h.split with
    | short =>
      refine ⟨hstring, Nat.succ_le_succ hlen, fun m path hpath => ?_⟩
      rw [matchesPath_iff_headerPath hpath, h.headerPath_eq]
      rfl
    | cut hfront => exact absurd hfront.1 (by decide)

/-- A sector with the parts of a path in its fields. -/
def pathSector (namePrefix name : List UInt8) : Memory := fun x =>
  if x < 100 then name.getD x 0 else if 345 ≤ x then namePrefix.getD (x - 345) 0 else 0

theorem holdsField_pathSector (hfront : namePrefix.length ≤ 155) (hname : name.length ≤ 100) :
    HoldsField (pathSector namePrefix name) 345 155 namePrefix ∧
      HoldsField (pathSector namePrefix name) 0 100 name := by
  refine ⟨⟨hfront, fun i hi => ?_⟩, hname, fun i hi => ?_⟩
  · rw [pathSector, if_neg (by omega), if_pos (by omega), Nat.add_sub_cancel_left]
  · rw [Nat.zero_add, pathSector, if_pos hi]

/-- The path `a`. -/
theorem pathSurvives_short : PathSurvives (pathSector [] [0x61]) [0x61] :=
  (pathSurvives_iff ⟨by simp, .short (by decide), (holdsField_pathSector (by decide)
    (by decide)).1, (holdsField_pathSector (by decide) (by decide)).2⟩).2 rfl

/-- The path `a/b`, cut at its slash. -/
theorem not_pathSurvives_cut :
    HasPath (pathSector [0x61] [0x62]) [0x61, 0x2F, 0x62] [0x61] [0x62] ∧
      ¬PathSurvives (pathSector [0x61] [0x62]) [0x61, 0x2F, 0x62] := by
  have hfields := @holdsField_pathSector [0x61] [0x62] (by decide) (by decide)
  refine ⟨⟨by simp, @IsSplit.cut [0x61] [0x62] (by decide) (by decide), hfields.1,
    hfields.2⟩, ?_⟩
  rintro ⟨hp, _⟩
  have hb : rebuildFilename (pathSector [0x61] [0x62]) 2 = 0x2F := hp.2.2.2.2.1
  rw [rebuildFilename_eq] at hb
  have hpath : headerPath (pathSector [0x61] [0x62]) = [0x2F, 0x61, 0x62] := by decide
  rw [hpath] at hb
  exact absurd hb (by decide)

end path

/-! ## The size -/

/-- The number that octal digits denote, the most significant one first. -/
def octalValue (digits : List ℕ) : ℕ := Nat.ofDigits 8 digits.reverse

/-- The characters of a size field: digits, and spaces or zeros after them. -/
structure SizeField where
  digits : List ℕ
  terminators : List UInt8
  digit_lt : ∀ d ∈ digits, d < 8
  terminator : ∀ c ∈ terminators, c = 0x20 ∨ c = 0
  length_pos : 1 ≤ digits.length
  length_le : digits.length ≤ 11
  length_eq : digits.length + terminators.length = 12

namespace SizeField

/-- The characters, one after the other. -/
def chars (f : SizeField) : List UInt8 := f.digits.map (fun d => .ofNat (48 + d)) ++ f.terminators

end SizeField

/-- The size that the walkers decode is the one that the digits denote. -/
def SizeDecoded (sector : Memory) (f : SizeField) : Prop :=
  (headerFilesize sector).toNat = octalValue f.digits

section size

variable {m sector : Memory} {str : ℕ}

theorem octalValue_append (ds : List ℕ) (d : ℕ) :
    octalValue (ds ++ [d]) = octalValue ds * 8 + d := by
  rw [octalValue, octalValue, List.reverse_append, List.reverse_singleton, List.singleton_append,
    Nat.ofDigits_cons, Nat.add_comm, Nat.mul_comm]

theorem octalValue_lt {ds : List ℕ} (h : ∀ d ∈ ds, d < 8) : octalValue ds < 8 ^ ds.length := by
  rw [octalValue, ← List.length_reverse]
  exact Nat.ofDigits_lt_base_pow_length (by decide) fun d hd => h d (List.mem_reverse.1 hd)

/-- Digits are decoded to their number. -/
theorem oct2bin_digits {ds : List ℕ} (hds : ∀ d ∈ ds, d < 8)
    (h : ∀ i d, ds[i]? = some d → m (str + i) = .ofNat (48 + d)) :
    oct2bin m str ds.length = .ofNat (octalValue ds) := by
  have hdigit : ∀ d < 8, (UInt8.ofNat (48 + d)).toUInt64 - 48 = UInt64.ofNat d := by decide
  induction ds using List.reverseRecOn with
  | nil => rfl
  | append_singleton ds d ih =>
    have hlast := h ds.length d (by rw [List.getElem?_append_right le_rfl, Nat.sub_self]; rfl)
    rw [List.length_append, List.length_singleton, oct2bin, hlast, octalValue_append,
      hdigit d (hds d (by simp)),
      ih (fun d hd => hds d (List.mem_append_left _ hd)) fun i d hi => ?_]
    · change UInt64.ofNat _ * UInt64.ofNat 8 + _ = _
      rw [← UInt64.ofNat_mul, ← UInt64.ofNat_add]
    · refine h i d ?_
      rwa [List.getElem?_append_left (List.getElem?_eq_some_iff.1 hi).1]

/-- Every terminator taken for a digit subtracts 16 or 48 from what the digits before it come
    to: `16 * e` in all, where `e` is a number of digits 1 and 3, the last of which is odd. -/
theorem oct2bin_terminators {n k : ℕ} (h : oct2bin m str k = .ofNat n) (j : ℕ)
    (hterm : ∀ i < j, m (str + (k + i)) = 0x20 ∨ m (str + (k + i)) = 0) :
    ∃ e, oct2bin m str (k + j) + .ofNat (16 * e) = .ofNat (n * 8 ^ j) ∧
      8 ^ j ≤ 7 * e + 1 ∧ 7 * e + 3 ≤ 3 * 8 ^ j ∧ (0 < j → e % 2 = 1) := by
  induction j with
  | zero => exact ⟨0, by simpa using h, by decide, by decide, fun h => absurd h (by decide)⟩
  | succ j ih =>
    obtain ⟨e, heq, h₁, h₂, _⟩ := ih fun i hi => hterm i (Nat.lt_succ_of_lt hi)
    have key : ∀ c, (oct2bin m str (k + j) * 8 + (0 - UInt64.ofNat (16 * c))) +
        .ofNat (16 * (8 * e + c)) = UInt64.ofNat (n * 8 ^ (j + 1)) := by
      intro c
      have hpow : UInt64.ofNat (n * 8 ^ (j + 1)) = .ofNat (n * 8 ^ j) * 8 := by
        rw [Nat.pow_succ, ← Nat.mul_assoc, UInt64.ofNat_mul]
        rfl
      have hsum : UInt64.ofNat (16 * (8 * e + c)) = .ofNat (16 * e) * 8 + .ofNat (16 * c) := by
        rw [Nat.mul_add, UInt64.ofNat_add, Nat.mul_left_comm, Nat.mul_comm 8, UInt64.ofNat_mul]
        rfl
      rw [hpow, hsum, ← heq]
      grind
    rw [← Nat.add_assoc, oct2bin, Nat.pow_succ]
    rcases hterm j (Nat.lt_succ_self j) with hc | hc
    · refine ⟨8 * e + 1, ?_, by omega, by omega, by omega⟩
      rw [hc]
      exact key 1
    · refine ⟨8 * e + 3, ?_, by omega, by omega, by omega⟩
      rw [hc]
      exact key 3

/-- Terminators taken for digits never leave the number as it is, nor its last 32 bits. -/
theorem oct2bin_terminators_ne {n k j : ℕ} (h : oct2bin m str k = .ofNat n)
    (hterm : ∀ i < j, m (str + (k + i)) = 0x20 ∨ m (str + (k + i)) = 0) (hj : 0 < j)
    (hj' : j ≤ 10) (hn : n * 8 ^ j < 8 ^ 11) : (oct2bin m str (k + j)).toNat % 2 ^ 32 ≠ n := by
  intro heq
  obtain ⟨e, he, h₁, h₂, hodd⟩ := oct2bin_terminators h j hterm
  have hodd := hodd hj
  have he := congrArg UInt64.toNat he
  rw [UInt64.toNat_add, UInt64.toNat_ofNat', UInt64.toNat_ofNat'] at he
  have hpow : 8 ^ j ≤ 8 ^ 10 := Nat.pow_le_pow_right (by decide) hj'
  have hle : n ≤ n * 8 ^ j := Nat.le_mul_of_pos_right n (Nat.pow_pos (by decide))
  have hmod : (n + 16 * e) % 2 ^ 32 = n * 8 ^ j % 2 ^ 32 := by omega
  -- The numbers are so small that they differ by one wrap-around at most.
  have hcases : n + 16 * e = n * 8 ^ j ∨ n + 16 * e + 2 ^ 32 = n * 8 ^ j ∨
      n + 16 * e = n * 8 ^ j + 2 ^ 32 := by omega
  clear hmod he heq
  -- For no number of terminators has this a solution with an odd number of digits 1 and 3.
  rcases hcases with h | h | h
  · interval_cases j <;> omega
  · interval_cases j <;> omega
  · interval_cases j <;> omega

namespace SizeField

theorem length_chars (f : SizeField) : f.chars.length = 12 := by
  rw [chars, List.length_append, List.length_map, f.length_eq]

theorem getElem?_chars_digit (f : SizeField) {i d : ℕ} (h : f.digits[i]? = some d) :
    f.chars[i]? = some (.ofNat (48 + d)) := by
  have hi : i < f.digits.length := (List.getElem?_eq_some_iff.1 h).1
  rw [chars, List.getElem?_append_left (by rwa [List.length_map]), List.getElem?_map, h]
  rfl

theorem getElem?_chars_terminator (f : SizeField) {i : ℕ} (h : f.digits.length + i < 12) :
    f.chars[f.digits.length + i]? = some 0x20 ∨ f.chars[f.digits.length + i]? = some 0 := by
  have hi : i < f.terminators.length := by have := f.length_eq; omega
  rw [chars, List.getElem?_append_right (by rw [List.length_map]; omega), List.length_map,
    Nat.add_sub_cancel_left, List.getElem?_eq_getElem hi, Option.some_inj, Option.some_inj]
  exact f.terminator _ (List.getElem_mem hi)

end SizeField

/-- The digits of the field are decoded to their number. -/
theorem SizeField.oct2bin_eq (f : SizeField) (h : HoldsField sector 0x7c 12 f.chars) :
    oct2bin sector 0x7c f.digits.length = .ofNat (octalValue f.digits) :=
  oct2bin_digits f.digit_lt fun _ _ hd => h.eq (f.getElem?_chars_digit hd)

/-- Eleven digits are all that is decoded. -/
theorem SizeField.headerFilesize_eq (f : SizeField) (h : HoldsField sector 0x7c 12 f.chars)
    (h11 : f.digits.length = 11) : headerFilesize sector = .ofNat (octalValue f.digits) := by
  rw [headerFilesize, ← f.oct2bin_eq h, h11]

/-- With less than eleven digits, what is decoded is not the number, even in 32 bits. -/
theorem SizeField.headerFilesize_ne (f : SizeField) (h : HoldsField sector 0x7c 12 f.chars)
    (h11 : f.digits.length ≠ 11) :
    (headerFilesize sector).toNat % 2 ^ 32 ≠ octalValue f.digits := by
  have hle := f.length_le
  have hpos := f.length_pos
  have hpow : octalValue f.digits * 8 ^ (11 - f.digits.length) < 8 ^ 11 := by
    calc octalValue f.digits * 8 ^ (11 - f.digits.length)
        < 8 ^ f.digits.length * 8 ^ (11 - f.digits.length) :=
          Nat.mul_lt_mul_of_pos_right (octalValue_lt f.digit_lt) (Nat.pow_pos (by decide))
      _ = 8 ^ 11 := by rw [← Nat.pow_add, Nat.add_sub_cancel' hle]
  have hne := oct2bin_terminators_ne (j := 11 - f.digits.length) (f.oct2bin_eq h) (fun i hi => ?_)
    (by omega) (by omega) hpow
  · rwa [Nat.add_sub_cancel' hle] at hne
  · rcases f.getElem?_chars_terminator (i := i) (by omega) with hc | hc
    · exact .inl (h.eq hc)
    · exact .inr (h.eq hc)

/-- The size is decoded as written if and only if it is written with eleven digits. -/
theorem sizeDecoded_iff (f : SizeField) (h : HoldsField sector 0x7c 12 f.chars) :
    SizeDecoded sector f ↔ f.digits.length = 11 := by
  have hlt := octalValue_lt f.digit_lt
  rw [SizeDecoded]
  constructor
  · intro hdec
    by_contra hne
    have hle : 8 ^ f.digits.length ≤ 8 ^ 10 :=
      Nat.pow_le_pow_right (by decide) (by have := f.length_le; omega)
    refine f.headerFilesize_ne h hne ?_
    rw [hdec]
    exact Nat.mod_eq_of_lt (by omega)
  · intro h11
    rw [h11] at hlt
    rw [f.headerFilesize_eq h h11]
    exact UInt64.toNat_ofNat_of_lt' (Nat.lt_trans hlt (by decide))

/-- The number 1, written with eleven digits. -/
def paddedOne : SizeField where
  digits := [0, 0, 0, 0, 0, 0, 0, 0, 0, 0, 1]
  terminators := [0]
  digit_lt := by decide
  terminator := by simp
  length_pos := by decide
  length_le := by decide
  length_eq := rfl

/-- The number 1, written with one digit. -/
def shortOne : SizeField where
  digits := [1]
  terminators := [0, 0, 0, 0, 0, 0, 0, 0, 0, 0, 0]
  digit_lt := by decide
  terminator := by simp
  length_pos := by decide
  length_le := by decide
  length_eq := rfl

/-- A sector with the characters in its size field. -/
def sizeSector (f : SizeField) : Memory := fun x => f.chars.getD (x - 0x7c) 0

theorem holdsField_sizeSector (f : SizeField) : HoldsField (sizeSector f) 0x7c 12 f.chars := by
  refine ⟨f.length_chars.le, fun i _ => ?_⟩
  rw [sizeSector, Nat.add_sub_cancel_left]

theorem sizeDecoded_paddedOne : SizeDecoded (sizeSector paddedOne) paddedOne :=
  (sizeDecoded_iff paddedOne (holdsField_sizeSector paddedOne)).2 rfl

/-- Ten terminators after the digit 1: it is decoded to another number. -/
theorem not_sizeDecoded_shortOne : HoldsField (sizeSector shortOne) 0x7c 12 shortOne.chars ∧
    ¬SizeDecoded (sizeSector shortOne) shortOne := by
  refine ⟨holdsField_sizeSector shortOne, ?_⟩
  rw [SizeDecoded]
  decide

end size

end Cboot
