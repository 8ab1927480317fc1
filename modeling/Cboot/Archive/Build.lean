import Cboot.Archive.Format
import Mathlib.Logic.Function.Basic

/-!
# Building archives

Every list of entries is stored on some disk (`stored_archive`), and what the sectors of
the data hold is free: changing one of them keeps the archive (`Stored.update_data`).
-/

namespace Cboot

/-! ## Headers -/

/-- A field holding a string. -/
theorem fieldString_eq {m : Memory} {p n : ℕ} {s : List UInt8} (hs : ∀ c ∈ s, c ≠ 0)
    (hlen : s.length ≤ n) (h : ∀ i < n, m (p + i) = s.getD i 0) : fieldString m p n = s := by
  induction n generalizing p s with
  | zero => exact (List.length_eq_zero_iff.1 (Nat.le_zero.1 hlen)).symm
  | succ n ih =>
    have h₀ := h 0 (Nat.succ_pos n)
    rw [Nat.add_zero] at h₀
    cases s with
    | nil => rw [fieldString, h₀, if_neg (by simp)]
    | cons c s =>
      have hc : m p = c := h₀
      rw [fieldString, hc, if_pos (hs c List.mem_cons_self),
        ih (fun b hb => hs b (List.mem_cons_of_mem _ hb)) (Nat.le_of_succ_le_succ hlen)
          fun i hi => ?_]
      rw [Nat.add_assoc, Nat.add_comm 1, h (i + 1) (Nat.succ_lt_succ hi), List.getD_cons_succ]

/-- A sector with the header of an entry. -/
def headerSector (e : Entry) : Memory := fun x =>
  if x < 100 then e.name.getD x 0
  else if 0x7c ≤ x ∧ x < 0x7c + 11 then octalDigit e.size (x - 0x7c)
  else if x = 156 then e.type
  else if 257 ≤ x ∧ x < 345 then literal ustarSignature (x - 257)
  else if 345 ≤ x then e.namePrefix.getD (x - 345) 0
  else 0

theorem isHeader_headerSector (e : Entry) : IsHeader (headerSector e) e where
  signature i hi := by
    simp only [headerSector]
    rw [if_neg (by omega), if_neg (by omega), if_neg (by omega), if_pos (by omega),
      Nat.add_sub_cancel_left]
  size i hi := by
    simp only [headerSector]
    rw [if_neg (by omega), if_pos (by omega), Nat.add_sub_cancel_left]
  type := rfl
  namePrefix := by
    refine fieldString_eq (fun c hc => e.ne_zero c (List.mem_append_left _ hc))
      e.namePrefix_length fun i hi => ?_
    simp only [headerSector]
    rw [if_neg (by omega), if_neg (by omega), if_neg (by omega), if_neg (by omega),
      if_pos (by omega), Nat.add_sub_cancel_left]
  name := by
    refine fieldString_eq (fun c hc => e.ne_zero c (List.mem_append_right _ hc))
      e.name_length fun i hi => ?_
    simp only [headerSector]
    rw [if_pos (by omega), Nat.zero_add]

/-! ## Disks -/

section disk

variable {disk : ℕ → Memory} {lba s : ℕ} {es : List Entry}

theorem le_of_mem_headers (h : s ∈ headers lba es) : lba ≤ s ∧ s < lba + sectors es := by
  induction es generalizing lba with
  | nil => exact absurd h List.not_mem_nil
  | cons e es ih =>
    rw [sectors_cons]
    rcases List.mem_cons.1 h with rfl | h
    · omega
    · have := ih h
      omega

theorem headers_append (lba : ℕ) (es es' : List Entry) :
    headers lba (es ++ es') = headers lba es ++ headers (lba + sectors es) es' := by
  induction es generalizing lba with
  | nil => rfl
  | cons e es ih =>
    rw [List.cons_append, headers, ih, headers, List.cons_append, sectors_cons, Nat.add_assoc lba 1,
      Nat.add_assoc lba]

/-- An archive is told by the sectors of its headers and the one that ends it. -/
theorem Stored.congr {disk' : ℕ → Memory} (h : Stored disk lba es)
    (hd : ∀ s, s ∈ headers lba es ∨ s = lba + sectors es → disk' s = disk s) :
    Stored disk' lba es := by
  induction es generalizing lba with
  | nil =>
    rw [Stored, hd lba (.inr rfl)]
    exact h
  | cons e es ih =>
    refine ⟨hd lba (.inl List.mem_cons_self) ▸ h.1, ih h.2 fun s hs => hd s ?_⟩
    rcases hs with hs | hs
    · exact .inl (List.mem_cons_of_mem _ hs)
    · rw [sectors_cons]
      omega

/-- A disk with the archive from the sector `lba` on, and zeros otherwise. -/
def archive : (lba : ℕ) → List Entry → ℕ → Memory
  | _, [] => fun _ _ => 0
  | lba, e :: es => Function.update (archive (lba + 1 + e.dataSectors) es) lba (headerSector e)

theorem stored_archive (lba : ℕ) (es : List Entry) : Stored (archive lba es) lba es := by
  induction es generalizing lba with
  | nil =>
    intro h
    have h₀ : (0 : UInt8) = 0x75 := h 0 (by decide)
    exact absurd h₀ (by decide)
  | cons e es ih =>
    refine ⟨?_, (ih (lba + 1 + e.dataSectors)).congr fun s hs => ?_⟩
    · rw [archive, Function.update_self]
      exact isHeader_headerSector e
    · refine Function.update_of_ne ?_ _ _
      rcases hs with hs | hs
      · have := le_of_mem_headers hs
        omega
      · omega

/-- The sectors of the data of an entry are no sectors of headers, nor the one after all of
    them. -/
theorem not_mem_headers_of_data {es' : List Entry} {e : Entry} (hs₁ : lba + sectors es < s)
    (hs₂ : s ≤ lba + sectors es + e.dataSectors) :
    s ∉ headers lba (es ++ e :: es') ∧ s ≠ lba + sectors (es ++ e :: es') := by
  rw [headers_append, List.mem_append, headers, List.mem_cons, sectors_append, sectors_cons]
  refine ⟨?_, by omega⟩
  rintro (h | rfl | h)
  · have := le_of_mem_headers h
    omega
  · omega
  · have := le_of_mem_headers h
    omega

/-- The data of an entry may be anything. -/
theorem Stored.update_data {es' : List Entry} {e : Entry} (h : Stored disk lba (es ++ e :: es'))
    (hs₁ : lba + sectors es < s) (hs₂ : s ≤ lba + sectors es + e.dataSectors) (sector : Memory) :
    Stored (Function.update disk s sector) lba (es ++ e :: es') := by
  obtain ⟨h₁, h₂⟩ := @not_mem_headers_of_data lba s es es' e hs₁ hs₂
  refine h.congr fun s' hs' => Function.update_of_ne ?_ _ _
  rintro rfl
  exact hs'.elim h₁ h₂

end disk

end Cboot
