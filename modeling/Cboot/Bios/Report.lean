import Cboot.Bios.MemoryMap
import Cboot.Console.Text
import Cboot.Lib.Delimited

/-!
# The printed memory map

What `scan_bios_memmap` prints: a line for every region, with its two ends and the name of its
type, and the size of the free memory.

* `scanBiosMemmapPrints_returns_iff`: it ends if and only if there is a region of type 0, and
  prints the regions up to that one;
* `mapText_eq_iff`: the text tells the regions, but for the types that have no name;
* `freeMemory_eq_of_shown`: and so do the lines of the regions alone, without the sum.
-/

namespace Cboot

open Fueled

/-! ## The printer -/

/-- The names of the types, which `scan_bios_memmap` prints. -/
def typeName (type : UInt32) : Option (List UInt8) :=
  if type = 1 then some (ascii " - FREE MEMORY (1)")
  else if type = 2 then some (ascii " - RESERVED (2)")
  else if type = 3 then some (ascii " - ACPI RECLAIM (3)")
  else if type = 4 then some (ascii " - ACPI NVS (4)")
  else if type = 5 then some (ascii " - BAD MEMORY (5)")
  else none

/-- The line for a region. -/
def printRegion (r : BiosMemoryRegion) (out : List UInt8) : Fueled (List UInt8) := do
  let out ← puts (literal (ascii "0x")) 0 out
  let out ← putx64 r.baseAddress out
  let out ← puts (literal (ascii " - 0x")) 0 out
  let out ← putx64 (r.baseAddress + r.mapSize) out
  let out ← match typeName r.type with
    | some name => puts (literal name) 0 out
    | none => pure out
  pure (putc out 0x0A)

/-- A round of the loop, from the pointer `memmap`, the sum and the text so far. -/
def scanPrintRound (m : Memory) : ℕ × UInt64 × List UInt8 →
    Fueled (ℕ × UInt64 × List UInt8 ⊕ UInt64 × List UInt8)
  | (memmap, totalMemory, out) =>
    let r := readRegion m memmap
    if r.type = 0 then pure (.inr (totalMemory, out))
    else do
      let out ← printRegion r out
      let totalMemory := if r.type = biosMapFreeMemory then totalMemory + r.mapSize else totalMemory
      pure (.inl (memmap + 24, totalMemory, out))

/-- `scan_bios_memmap`, with the text that it prints. The buffer of `putd` is on the stack. -/
def scanBiosMemmapPrints (m stack : Memory) (buf : ℕ) (out : List UInt8) :
    Fueled (UInt64 × List UInt8) := do
  let (totalMemory, out) ← .loop (scanPrintRound m) (biosMemoryMapLocation, 0, out)
  let out ← puts (literal (ascii "Total Size of Usable Memory: ")) 0 out
  let (_, out) ← putd stack buf totalMemory out
  let out := putc out 0x0A
  pure (totalMemory, out)

/-! ## The text -/

/-- The line of a region, without its newline. -/
def BiosMemoryRegion.body (r : BiosMemoryRegion) : List UInt8 :=
  ascii "0x" ++ hexNumeral 16 r.baseAddress.toNat ++ ascii " - 0x" ++
    hexNumeral 16 (r.baseAddress + r.mapSize).toNat ++ (typeName r.type).getD []

/-- The last line. -/
def totalText (total : UInt64) : List UInt8 :=
  ascii "Total Size of Usable Memory: " ++ decimal total.toNat ++ [0x0A]

/-- The text for regions. -/
def mapText (rs : List BiosMemoryRegion) : List UInt8 :=
  (rs.flatMap fun r => r.body ++ [0x0A]) ++ totalText (freeMemory rs)

section text

variable {m stack : Memory} {buf a : ℕ} {rs : List BiosMemoryRegion} {out out' : List UInt8}
  {total : UInt64}

theorem typeName_ne_zero (type : UInt32) :
    ∀ name, typeName type = some name → ∀ c ∈ name, c ≠ 0 := by
  intro name h
  rw [typeName] at h
  split_ifs at h
  all_goals
    obtain rfl := Option.some_inj.1 h
    exact ascii_ne_zero (by decide)

theorem printRegion_returns (r : BiosMemoryRegion) (out : List UInt8) :
    (printRegion r out).Returns (out ++ (r.body ++ [0x0A])) := by
  rw [printRegion, (puts_ascii (by decide) _).bind_iff, (putx64_returns _ _).bind_iff,
    (puts_ascii (by decide) _).bind_iff, (putx64_returns _ _).bind_iff, BiosMemoryRegion.body]
  cases h : typeName r.type with
  | none =>
    refine returns_bind_iff.2 ⟨_, returns_pure_iff.2 rfl, returns_pure_iff.2 ?_⟩
    simp only [putc, Option.getD_none, List.append_nil, List.append_assoc]
  | some name =>
    refine returns_bind_iff.2
      ⟨_, puts_returns (cString_literal (typeName_ne_zero _ _ h)) _, returns_pure_iff.2 ?_⟩
    simp only [putc, Option.getD_some, List.append_assoc]

/-- Printing from any region on. -/
theorem loop_scanPrintRound_returns (total : UInt64) (out : List UInt8) (h : RegionsAt m a rs) :
    (loop (scanPrintRound m) (a, total, out)).Returns
      (total + freeMemory rs, out ++ rs.flatMap fun r => r.body ++ [0x0A]) := by
  induction rs generalizing a total out with
  | nil =>
    refine Returns.loop_done ?_
    have h : (readRegion m a).type = 0 := h
    rw [scanPrintRound, if_pos h, returns_pure_iff, List.flatMap_nil, List.append_nil]
    exact congrArg (fun t => Sum.inr (t, out)) (UInt64.add_zero total)
  | cons r rs ih =>
    obtain ⟨rfl, hne, h⟩ := h
    have hround : (scanPrintRound m (a, total, out)).Returns (.inl (a + 24,
        total + (if (readRegion m a).type = biosMapFreeMemory then (readRegion m a).mapSize else 0),
        out ++ ((readRegion m a).body ++ [0x0A]))) := by
      rw [scanPrintRound, if_neg hne, (printRegion_returns _ out).bind_iff, returns_pure_iff]
      split
      · rfl
      · rw [UInt64.add_zero]
    have hrest := ih (total + (if (readRegion m a).type = biosMapFreeMemory
      then (readRegion m a).mapSize else 0)) (out ++ ((readRegion m a).body ++ [0x0A])) h
    rw [List.append_assoc] at hrest
    rw [hround.loop_iff, freeMemory, ← UInt64.add_assoc, List.flatMap_cons]
    exact hrest

theorem scanBiosMemmapPrints_returns (stack : Memory) (buf : ℕ) (out : List UInt8)
    (h : RegionsAt m biosMemoryMapLocation rs) :
    (scanBiosMemmapPrints m stack buf out).Returns (freeMemory rs, out ++ mapText rs) := by
  have hloop := loop_scanPrintRound_returns 0 out h
  rw [UInt64.zero_add] at hloop
  obtain ⟨_, hd, -⟩ := putd_returns stack buf (freeMemory rs)
    (out ++ (rs.flatMap fun r => r.body ++ [0x0A]) ++ ascii "Total Size of Usable Memory: ")
  rw [scanBiosMemmapPrints, hloop.bind_iff, (puts_ascii (by decide) _).bind_iff, hd.bind_iff,
    returns_pure_iff]
  simp only [putc, mapText, totalText, List.append_assoc]

/-- It ends if and only if there is a region of type 0 at some time, and prints the regions up to
    that one. -/
theorem scanBiosMemmapPrints_returns_iff :
    (scanBiosMemmapPrints m stack buf out).Returns (total, out') ↔
      ∃ rs, RegionsAt m biosMemoryMapLocation rs ∧ total = freeMemory rs ∧
        out' = out ++ mapText rs := by
  constructor
  · intro hr
    obtain ⟨r, hloop, -⟩ := returns_bind_iff.1 hr
    obtain ⟨rs, hrs⟩ : ∃ rs, RegionsAt m biosMemoryMapLocation rs := by
      refine hloop.loop_rec (P := fun s => ∃ rs, RegionsAt m s.1 rs) ?_ ?_
      · rintro ⟨a, total, out⟩ hs
        by_cases hz : (readRegion m a).type = 0
        · exact ⟨[], hz⟩
        · rw [scanPrintRound, if_neg hz, (printRegion_returns _ out).bind_iff] at hs
          exact absurd (returns_pure_iff.1 hs) (by simp)
      · rintro ⟨a, total, out⟩ s' hs ⟨rs, hrs⟩
        by_cases hz : (readRegion m a).type = 0
        · exact ⟨[], hz⟩
        · rw [scanPrintRound, if_neg hz, (printRegion_returns _ out).bind_iff] at hs
          obtain rfl := Sum.inl.inj (returns_pure_iff.1 hs)
          exact ⟨readRegion m a :: rs, rfl, hz, hrs⟩
    obtain ⟨htotal, hout⟩ := Prod.mk.inj
      (hr.unique (scanBiosMemmapPrints_returns stack buf out hrs))
    exact ⟨rs, hrs, htotal, hout⟩
  · rintro ⟨rs, hrs, rfl, rfl⟩
    exact scanBiosMemmapPrints_returns stack buf out hrs

/-! ## Reading the text -/

/-- The type that a name is for, or 0: its fourth and its ninth character tell. -/
def readType (name : List UInt8) : UInt32 :=
  match (name.getD 3 0).toNat, (name.getD 8 0).toNat with
  | 0x46, _ => 1
  | 0x52, _ => 2
  | 0x41, 0x52 => 3
  | 0x41, _ => 4
  | 0x42, _ => 5
  | _, _ => 0

/-- The type of a region, if it has a name. -/
def namedType (type : UInt32) : UInt32 := if 1 ≤ type ∧ type ≤ 5 then type else 0

/-- What is printed of a region. -/
def BiosMemoryRegion.shown (r : BiosMemoryRegion) : UInt64 × UInt64 × UInt32 :=
  (r.baseAddress, r.mapSize, namedType r.type)

theorem typeName_of_not {type : UInt32} (h : ¬(1 ≤ type ∧ type ≤ 5)) : typeName type = none := by
  rw [typeName]
  split_ifs with h₁ h₂ h₃ h₄ h₅
  all_goals first | rfl | exact absurd (by subst type; decide) h

/-- The types without a name are printed as 0 would be. -/
theorem typeName_namedType (type : UInt32) : typeName (namedType type) = typeName type := by
  by_cases h : 1 ≤ type ∧ type ≤ 5
  · rw [namedType, if_pos h]
  · rw [namedType, if_neg h, typeName_of_not h]
    rfl

theorem readType_typeName (type : UInt32) :
    readType ((typeName type).getD []) = namedType type := by
  by_cases h : 1 ≤ type ∧ type ≤ 5
  · have hcases : type = 1 ∨ type = 2 ∨ type = 3 ∨ type = 4 ∨ type = 5 := by
      simp only [UInt32.le_iff_toNat_le, ← UInt32.toNat_inj] at h ⊢
      change 1 ≤ type.toNat ∧ type.toNat ≤ 5 at h
      change type.toNat = 1 ∨ type.toNat = 2 ∨ type.toNat = 3 ∨ type.toNat = 4 ∨ type.toNat = 5
      omega
    rcases hcases with rfl | rfl | rfl | rfl | rfl <;> rfl
  · rw [typeName_of_not h, namedType, if_neg h]
    rfl

theorem BiosMemoryRegion.newline_not_mem_body (r : BiosMemoryRegion) : 0x0A ∉ r.body := by
  have hname : ∀ type : UInt32, 0x0A ∉ (typeName type).getD [] := by
    intro type
    rw [typeName]
    split_ifs <;> decide
  simp only [body, List.mem_append, not_or]
  exact ⟨⟨⟨⟨by decide, not_mem_hexNumeral (by decide) _ _⟩, by decide⟩,
    not_mem_hexNumeral (by decide) _ _⟩, hname _⟩

/-- A line tells what is shown of a region: its size is the difference of the two ends. -/
theorem BiosMemoryRegion.body_eq_iff {r r' : BiosMemoryRegion} :
    r.body = r'.body ↔ r.shown = r'.shown := by
  have hlen : ∀ n : UInt64, (hexNumeral 16 n.toNat).length = 16 := fun n => hexNumeral_length 16 _
  have h16 : ∀ {a b : UInt64}, hexNumeral 16 a.toNat = hexNumeral 16 b.toNat → a = b := fun h =>
    UInt64.toNat_inj.1 (hexNumeral_16_inj (UInt64.toNat_lt _) (UInt64.toNat_lt _) h)
  constructor
  · intro h
    simp only [body, List.append_assoc] at h
    obtain ⟨-, h⟩ := List.append_inj h rfl
    obtain ⟨hbase, h⟩ := List.append_inj h (by rw [hlen, hlen])
    obtain ⟨-, h⟩ := List.append_inj h rfl
    obtain ⟨hend, hname⟩ := List.append_inj h (by rw [hlen, hlen])
    have hsize := h16 hend
    rw [h16 hbase] at hsize
    rw [shown, shown, h16 hbase, (UInt64.add_right_inj _).1 hsize, ← readType_typeName,
      ← readType_typeName, hname]
  · intro h
    obtain ⟨hbase, hrest⟩ := Prod.mk.inj h
    obtain ⟨hsize, htype⟩ := Prod.mk.inj hrest
    rw [body, body, hbase, hsize, ← typeName_namedType r.type, htype, typeName_namedType]

/-- The total is the sum of what the lines show. -/
theorem freeMemory_eq_of_shown {rs rs' : List BiosMemoryRegion}
    (h : rs.map BiosMemoryRegion.shown = rs'.map BiosMemoryRegion.shown) :
    freeMemory rs = freeMemory rs' := by
  have hfree : ∀ type : UInt32, namedType type = biosMapFreeMemory ↔ type = biosMapFreeMemory := by
    intro type
    by_cases h : 1 ≤ type ∧ type ≤ 5
    · rw [namedType, if_pos h]
    · rw [namedType, if_neg h]
      refine iff_of_false (by decide) ?_
      rintro rfl
      exact h (by decide)
  have hsum : ∀ rs : List BiosMemoryRegion, freeMemory rs =
      (rs.map BiosMemoryRegion.shown).foldr
        (fun r total => (if r.2.2 = biosMapFreeMemory then r.2.1 else 0) + total) 0 := by
    intro rs
    induction rs with
    | nil => rfl
    | cons r rs ih =>
      rw [freeMemory, ih, List.map_cons, List.foldr_cons]
      exact congrArg (· + _) (if_congr (hfree r.type).symm rfl rfl)
  rw [hsum, hsum, h]

/-- The text tells what is shown of the regions. -/
theorem mapText_eq_iff {rs rs' : List BiosMemoryRegion} :
    mapText rs = mapText rs' ↔
      rs.map BiosMemoryRegion.shown = rs'.map BiosMemoryRegion.shown := by
  -- The parts of the text are the bodies of the lines.
  have hparts : ∀ rs, mapText rs = (rs.map BiosMemoryRegion.body ++
      [ascii "Total Size of Usable Memory: " ++ decimal (freeMemory rs).toNat]).flatMap
        (fun part => part ++ [0x0A]) := by
    intro rs
    rw [mapText, totalText, List.flatMap_append, List.flatMap_map, List.flatMap_singleton]
  have hdelimited : ∀ rs, ∀ part ∈ rs.map BiosMemoryRegion.body ++
      [ascii "Total Size of Usable Memory: " ++ decimal (freeMemory rs).toNat], 0x0A ∉ part := by
    intro rs part hpart
    rcases List.mem_append.1 hpart with hpart | hpart
    · obtain ⟨r, -, rfl⟩ := List.mem_map.1 hpart
      exact r.newline_not_mem_body
    · rw [List.mem_singleton.1 hpart, List.mem_append, not_or]
      exact ⟨by decide, not_mem_decimal (by decide) _⟩
  have hbodies : rs.map BiosMemoryRegion.body = rs'.map BiosMemoryRegion.body ↔
      rs.map BiosMemoryRegion.shown = rs'.map BiosMemoryRegion.shown :=
    Delimited.map_eq_map_iff_of_iff fun _ _ => BiosMemoryRegion.body_eq_iff
  constructor
  · intro h
    rw [hparts, hparts] at h
    have hlists := Delimited.flatMap_inj (P := fun part => 0x0A ∉ part) (fun _ h => h)
      (fun _ _ _ _ h => h) (hdelimited rs) (hdelimited rs') h
    exact hbodies.1 (List.append_inj' hlists rfl).1
  · intro h
    rw [hparts, hparts, hbodies.2 h, freeMemory_eq_of_shown h]

/-- Whatever is in two memories, the texts that are printed of their maps are the same if and only
    if the maps have the same regions, but for the types without a name. -/
theorem scan_tells {m' stack' : Memory} {buf' : ℕ} {out₁ out₂ text text' : List UInt8}
    {total' : UInt64} (h : (scanBiosMemmapPrints m stack buf out₁).Returns (total, out₁ ++ text))
    (h' : (scanBiosMemmapPrints m' stack' buf' out₂).Returns (total', out₂ ++ text')) :
    ∃ rs rs', RegionsAt m biosMemoryMapLocation rs ∧ total = freeMemory rs ∧
      RegionsAt m' biosMemoryMapLocation rs' ∧ total' = freeMemory rs' ∧
      (text = text' ↔ rs.map BiosMemoryRegion.shown = rs'.map BiosMemoryRegion.shown) := by
  obtain ⟨rs, hrs, htotal, htext⟩ := scanBiosMemmapPrints_returns_iff.1 h
  obtain ⟨rs', hrs', htotal', htext'⟩ := scanBiosMemmapPrints_returns_iff.1 h'
  refine ⟨rs, rs', hrs, htotal, hrs', htotal', ?_⟩
  rw [List.append_cancel_left htext, List.append_cancel_left htext', mapText_eq_iff]

/-- A map of a region without a name, and one of a region that is reserved. -/
theorem scan_tells_one :
    let m := writeRegion (fun _ => 0) 0x500 ⟨0x100000, 0x1000, 6, 0⟩
    let m' := writeRegion (fun _ => 0) 0x500 ⟨0x100000, 0x1000, 2, 0⟩
    ∃ total total' text text', (scanBiosMemmapPrints m (fun _ => 0) 0x6FF00 []).Returns
        (total, [] ++ text) ∧
      (scanBiosMemmapPrints m' (fun _ => 0) 0x6FF00 []).Returns (total', [] ++ text') ∧
      ∃ rs rs', RegionsAt m biosMemoryMapLocation rs ∧ total = freeMemory rs ∧
        RegionsAt m' biosMemoryMapLocation rs' ∧ total' = freeMemory rs' ∧
        (text = text' ↔ rs.map BiosMemoryRegion.shown = rs'.map BiosMemoryRegion.shown) := by
  have hmap : ∀ r : BiosMemoryRegion, r.type ≠ 0 →
      RegionsAt (writeRegion (fun _ => 0) 0x500 r) biosMemoryMapLocation [r] := by
    intro r hr
    refine ⟨readRegion_writeRegion _ _ _, hr, ?_⟩
    change (readRegion _ _).type = 0
    have hafter : readRegion (writeRegion (fun _ => 0) 0x500 r) 0x518 =
        readRegion (fun _ => 0) 0x518 :=
      readRegion_congr fun i _ => writeRegion_of_not_mem (.inr (by omega))
    exact congrArg BiosMemoryRegion.type hafter
  have h := scanBiosMemmapPrints_returns (fun _ => 0) 0x6FF00 []
    (hmap ⟨0x100000, 0x1000, 6, 0⟩ (by decide))
  have h' := scanBiosMemmapPrints_returns (fun _ => 0) 0x6FF00 []
    (hmap ⟨0x100000, 0x1000, 2, 0⟩ (by decide))
  exact ⟨_, _, _, _, h, h', scan_tells h h'⟩

end text

end Cboot
