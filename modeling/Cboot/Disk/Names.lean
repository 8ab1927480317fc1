import Cboot.Disk.Slots

/-!
# Names of any units

The search narrows the units of a name to bytes before it compares them. A unit of which
only the low byte is the character searched is taken for the character, and one whose low
byte is zero for the end of the name: a name that is not the one searched may be taken for
it. The comparison is exact if and only if this does not happen (`matchedExactly_iff`).
-/

namespace Cboot

/-- The comparison finds out whether the entry has the name. -/
def MatchedExactly (buf m : Memory) (name gptePtr : ℕ) (s : List UInt8) : Prop :=
  nameMatches buf m name gptePtr = true ↔ (readGPTEntry buf gptePtr).name = s.map (·.toUInt16)

/-- The low bytes of the units spell the string, and end it. -/
def LowBytesSpell (units : Fin 32 → UInt16) (s : List UInt8) : Prop :=
  ∀ i : Fin 32, i ≤ s.length → (units i).toUInt8 = s.getD i 0

/-- The units that spell the string, and the one that ends it, are bytes. -/
def SpellInBytes (units : Fin 32 → UInt16) (s : List UInt8) : Prop :=
  ∀ i : Fin 32, i ≤ s.length → units i < 256

section names

variable {buf m : Memory} {gptePtr name : ℕ} {s : List UInt8}

theorem nameMatches_iff_lowBytesSpell (hname : CString m name s) :
    nameMatches buf m name gptePtr = true ↔
      LowBytesSpell (readGPTEntry buf gptePtr).partitionName s := by
  rw [nameMatches, beq_iff_eq, strncmp_eq_zero_iff_forall hname]
  constructor
  · intro h i hi
    have := h i hi i.isLt
    rwa [Nat.zero_add, partName_eq, if_pos i.isLt] at this
  · intro h i hi hlt
    rw [Nat.zero_add, partName_eq, if_pos hlt]
    exact h ⟨i, hlt⟩ hi

/-- The units up to the first zero, told one by one. -/
theorem takeWhile_ne_zero_eq_iff {units t : List UInt16} (ht : ∀ u ∈ t, u ≠ 0) :
    units.takeWhile (· ≠ 0) = t ↔ t.length ≤ units.length ∧
      ∀ i ≤ t.length, ∀ u, units[i]? = some u → u = t.getD i 0 := by
  induction units generalizing t with
  | nil =>
    rw [List.takeWhile_nil]
    constructor
    · rintro rfl
      exact ⟨le_rfl, by simp⟩
    · exact fun h => (List.length_eq_zero_iff.1 (Nat.le_zero.1 h.1)).symm
  | cons v units ih =>
    cases t with
    | nil =>
      by_cases hv : v = 0
      · rw [List.takeWhile_cons_of_neg (by simpa using hv)]
        refine iff_of_true rfl ⟨Nat.zero_le _, fun i hi u hu => ?_⟩
        obtain rfl : i = 0 := Nat.le_zero.1 hi
        exact (Option.some.inj hu).symm.trans hv
      · rw [List.takeWhile_cons_of_pos (by simpa using hv)]
        exact iff_of_false (List.cons_ne_nil _ _) fun h => hv (h.2 0 le_rfl v rfl)
    | cons w t =>
      have hw : w ≠ 0 := ht w List.mem_cons_self
      by_cases hv : v = w
      · rw [hv, List.takeWhile_cons_of_pos (by simpa using hw), List.cons_inj_right,
          ih fun u hu => ht u (List.mem_cons_of_mem _ hu)]
        constructor
        · rintro ⟨hlen, hall⟩
          refine ⟨Nat.succ_le_succ hlen, ?_⟩
          rintro (_ | i) hi u hu
          · exact (Option.some.inj hu).symm
          · exact hall i (Nat.le_of_succ_le_succ hi) u hu
        · rintro ⟨hlen, hall⟩
          exact ⟨Nat.le_of_succ_le_succ hlen, fun i hi u hu =>
            hall (i + 1) (Nat.succ_le_succ hi) u hu⟩
      · refine iff_of_false (fun h => ?_) fun h => hv (h.2 0 (Nat.zero_le _) v rfl)
        by_cases hz : v = 0
        · rw [List.takeWhile_cons_of_neg (by simpa using hz)] at h
          exact List.cons_ne_nil _ _ h.symm
        · rw [List.takeWhile_cons_of_pos (by simpa using hz)] at h
          exact hv (List.cons.inj h).1

/-- The name of an entry, told unit by unit. -/
theorem name_eq_iff {e : GPTEntry} (hs : ∀ c ∈ s, c ≠ 0) (hlen : s.length ≤ 32) :
    e.name = s.map (·.toUInt16) ↔
      ∀ i : Fin 32, i ≤ s.length → e.partitionName i = (s.getD i 0).toUInt16 := by
  have hne : ∀ u ∈ s.map (·.toUInt16), u ≠ 0 := by
    intro u hu
    obtain ⟨c, hc, rfl⟩ := List.mem_map.1 hu
    exact fun hz => hs c hc (UInt8.toUInt16_inj.1 hz)
  have hget : ∀ i, (s.map (·.toUInt16)).getD i 0 = (s.getD i 0).toUInt16 := by
    intro i
    rw [List.getD_eq_getElem?_getD, List.getD_eq_getElem?_getD, List.getElem?_map]
    cases s[i]? <;> rfl
  rw [GPTEntry.name, takeWhile_ne_zero_eq_iff hne, List.length_map, List.length_ofFn,
    and_iff_right hlen]
  constructor
  · intro h i hi
    have := h i hi (e.partitionName i) (by rw [List.getElem?_ofFn]; simp)
    rwa [hget] at this
  · intro h i hi u hu
    obtain ⟨hlt, rfl⟩ := List.getElem?_eq_some_iff.1 hu
    rw [List.length_ofFn] at hlt
    rw [hget, List.getElem_ofFn]
    exact h ⟨i, hlt⟩ hi

/-- A unit is a character if it is a byte, and this byte is the character. -/
theorem eq_toUInt16_iff {u : UInt16} {c : UInt8} : u = c.toUInt16 ↔ u.toUInt8 = c ∧ u < 256 := by
  constructor
  · rintro rfl
    have hc : c.toUInt16.toNat < 256 := c.toNat_lt
    refine ⟨UInt8.toNat_inj.1 ?_, UInt16.lt_iff_toNat_lt.2 hc⟩
    rw [UInt16.toNat_toUInt8, Nat.mod_eq_of_lt hc, UInt8.toNat_toUInt16]
  · rintro ⟨rfl, h⟩
    have h : u.toNat < 256 := UInt16.lt_iff_toNat_lt.1 h
    refine UInt16.toNat_inj.1 ?_
    rw [UInt8.toNat_toUInt16, UInt16.toNat_toUInt8, Nat.mod_eq_of_lt h]

/-- The comparison is exact if and only if it does not take larger units for characters. -/
theorem matchedExactly_iff (hname : CString m name s) (hlen : s.length ≤ 32) :
    MatchedExactly buf m name gptePtr s ↔
      (LowBytesSpell (readGPTEntry buf gptePtr).partitionName s →
        SpellInBytes (readGPTEntry buf gptePtr).partitionName s) := by
  rw [MatchedExactly, nameMatches_iff_lowBytesSpell hname, name_eq_iff hname.ne_zero hlen]
  simp only [eq_toUInt16_iff]
  constructor
  · intro h hspell i hi
    exact (h.1 hspell i hi).2
  · intro h
    exact ⟨fun hspell i hi => ⟨hspell i hi, h hspell i hi⟩, fun hall i hi => (hall i hi).1⟩

/-- An entry with the name `a`, and one with the name of the unit `0x161`. -/
def plainName : Memory := fun x => if x = 56 then 0x61 else 0
def wideName : Memory := fun x => if x = 56 then 0x61 else if x = 57 then 1 else 0

theorem matchedExactly_plainName :
    (readGPTEntry plainName 0).name = [0x61] ∧ MatchedExactly plainName nameA 0 0 [0x61] := by
  refine ⟨by decide, (matchedExactly_iff cString_nameA (by decide)).2 fun _ => ?_⟩
  rw [SpellInBytes]
  decide

/-- The unit `0x161` is taken for the character `a`. -/
theorem not_matchedExactly_wideName : ¬MatchedExactly wideName nameA 0 0 [0x61] := by
  rw [MatchedExactly, nameMatches_iff_lowBytesSpell cString_nameA]
  intro h
  have hspell : LowBytesSpell (readGPTEntry wideName 0).partitionName [0x61] := by
    rw [LowBytesSpell]
    decide
  have hname : (readGPTEntry wideName 0).name = [0x161] := by decide
  exact absurd (hname.symm.trans (h.1 hspell)) (by decide)

end names

end Cboot
