import Cboot.Archive.Build
import Cboot.Archive.Walk

/-!
# Looking up a path

Where the sizes survive the integers that the walkers keep them in, both readers of
files find the first entry of the path asked for, whatever the data of the entries look
like (`lookup_exact`).
-/

namespace Cboot

open AtaDevice Fueled

/-- The first entry of the path. -/
def lookup (es : List Entry) (p : List UInt8) : Option Entry := es.find? fun e => e.path = p

/-- The entries before it, or all of them. -/
def entriesBefore (es : List Entry) (p : List UInt8) : List Entry :=
  es.takeWhile fun e => e.path ≠ p

/-- The reads of a walk that stops there. -/
def lookupReads (lba : ℕ) (es : List Entry) (p : List UInt8) : List (ℕ × ℕ) :=
  headerReads lba (entriesBefore es p) ++ [(lba + sectors (entriesBefore es p), 1)]

section lookup

variable {es : List Entry} {p : List UInt8}

theorem path_ne_of_mem_entriesBefore {e : Entry} (h : e ∈ entriesBefore es p) : e.path ≠ p := by
  simpa using List.all_eq_true.1 List.all_takeWhile e h

theorem mem_of_mem_entriesBefore {e : Entry} (h : e ∈ entriesBefore es p) : e ∈ es :=
  (List.takeWhile_prefix _).subset h

/-- The path is that of an entry, or of none. -/
theorem lookup_cases (es : List Entry) (p : List UInt8) :
    (∃ e rest, lookup es p = some e ∧ e.path = p ∧ es = entriesBefore es p ++ e :: rest) ∨
      lookup es p = none ∧ entriesBefore es p = es := by
  induction es with
  | nil => exact .inr ⟨rfl, rfl⟩
  | cons e es ih =>
    rw [lookup, entriesBefore]
    by_cases h : e.path = p
    · rw [List.find?_cons_of_pos (by simpa using h), List.takeWhile_cons_of_neg (by simpa using h)]
      exact .inl ⟨e, es, rfl, h, rfl⟩
    · rw [List.find?_cons_of_neg (by simpa using h), List.takeWhile_cons_of_pos (by simpa using h)]
      rcases ih with ⟨e', rest, h₁, h₂, h₃⟩ | ⟨h₁, h₂⟩
      · exact .inl ⟨e', rest, h₁, h₂, congrArg (List.cons e) h₃⟩
      · exact .inr ⟨h₁, congrArg (List.cons e) h₂⟩

theorem sectors_entriesBefore_le (es : List Entry) (p : List UInt8) :
    sectors (entriesBefore es p) ≤ sectors es := by
  rcases lookup_cases es p with ⟨e, rest, _, _, h⟩ | ⟨_, h⟩
  · have := congrArg sectors h
    rw [sectors_append] at this
    omega
  · rw [h]

/-- The entry found takes a sector at least. -/
theorem sectors_lookup_lt {e : Entry} (h : lookup es p = some e) :
    sectors (entriesBefore es p) < sectors es := by
  rcases lookup_cases es p with ⟨e', rest, _, _, hsplit⟩ | ⟨hnone, _⟩
  · have := congrArg sectors hsplit
    rw [sectors_append, sectors_cons] at this
    omega
  · rw [h] at hnone
    cases hnone

end lookup

section walk

variable {d : AtaDevice} {m : Memory} {gpte : GPTEntry} {numSectors : UInt64 → UInt32}
  {path : ℕ} {es : List Entry} {p : List UInt8}

/-- What a walk for a path comes to behind the entries before it. -/
def LookupEnd (disk : ℕ → Memory) (lba : ℕ) (es : List Entry) (p : List UInt8) : Prop :=
  match lookup es p with
  | some e => IsEntry (disk (lba + sectors (entriesBefore es p))) e
  | none => ¬HasSignature (disk (lba + sectors (entriesBefore es p)))

/-- A walk for a path that steps over the entries before it. -/
theorem walkHeaders_of_walked (hl : d.Live)
    (hst : Walked numSectors d.disk gpte.startingLba.toNat (entriesBefore es p))
    (hend : LookupEnd d.disk gpte.startingLba.toNat es p)
    (hfit : gpte.startingLba.toNat + sectors es < 2 ^ 28) (hp : CString m path p) :
    ∃ d', After d d' (lookupReads gpte.startingLba.toNat es p) ∧
      match lookup es p with
      | some _ => ∃ seeker buf, seeker.toNat = sectors (entriesBefore es p) ∧
          (∀ x < 512, buf x =
            d.disk (gpte.startingLba.toNat + sectors (entriesBefore es p)) x) ∧
          (walkHeaders ports gpte numSectors (matchesPath m path) d).Returns
            (d', some (seeker, buf))
      | none => (walkHeaders ports gpte numSectors (matchesPath m path) d).Returns (d', none) := by
  have hne : ∀ e ∈ entriesBefore es p, ¬e.path = p := fun e he => path_ne_of_mem_entriesBefore he
  have hle := sectors_entriesBefore_le es p
  rw [LookupEnd] at hend
  rcases lookup_cases es p with ⟨e, rest, h₁, h₂, _⟩ | ⟨h₁, _⟩
  · rw [h₁] at hend ⊢
    obtain ⟨d', seeker, buf, ha, hs, hbuf, h⟩ := walkHeaders_found hl (selects_path hp) hst hend hne
      h₂ (by omega)
    exact ⟨d', ha, seeker, buf, hs, hbuf, h⟩
  · rw [h₁] at hend ⊢
    obtain ⟨d', ha, h⟩ := walkHeaders_none hl (selects_path hp) hst hend hne (by omega)
    exact ⟨d', ha, h⟩

/-- The header found in an archive. -/
theorem Stored.isHeader_lookup {disk : ℕ → Memory} {lba : ℕ} {e : Entry} (hst : Stored disk lba es)
    (hlook : lookup es p = some e) : IsHeader (disk (lba + sectors (entriesBefore es p))) e := by
  rcases lookup_cases es p with ⟨e', rest, h₁, _, h₃⟩ | ⟨h₁, _⟩
  · obtain rfl := Option.some.inj (hlook.symm.trans h₁)
    rw [h₃] at hst
    exact hst.append.1
  · rw [hlook] at h₁
    cases h₁

theorem Stored.walked_entriesBefore {disk : ℕ → Memory} {lba : ℕ} (hst : Stored disk lba es)
    (hpass : ∀ e ∈ entriesBefore es p, Passes numSectors e) :
    Walked numSectors disk lba (entriesBefore es p) := by
  obtain ⟨rest, hrest⟩ : entriesBefore es p <+: es := List.takeWhile_prefix _
  rw [← hrest] at hst
  exact hst.walked hpass

theorem HeadersAt.lookupEnd {disk : ℕ → Memory} {lba : ℕ} (hst : HeadersAt disk lba es)
    (p : List UInt8) : LookupEnd disk lba es p := by
  rw [LookupEnd]
  rcases lookup_cases es p with ⟨e, rest, h₁, _, h₃⟩ | ⟨h₁, h₂⟩
  · rw [h₁]
    rw [h₃] at hst
    exact hst.append.1
  · rw [h₁]
    rw [← h₂, ← List.append_nil (entriesBefore es p)] at hst
    exact hst.append

/-- A walk for a path that passes the entries before it. -/
theorem walkHeaders_lookup (hl : d.Live) (hst : Stored d.disk gpte.startingLba.toNat es)
    (hfit : gpte.startingLba.toNat + sectors es < 2 ^ 28) (hp : CString m path p)
    (hpass : ∀ e ∈ entriesBefore es p, Passes numSectors e) :
    ∃ d', After d d' (lookupReads gpte.startingLba.toNat es p) ∧
      match lookup es p with
      | some e => ∃ seeker buf, seeker.toNat = sectors (entriesBefore es p) ∧ IsHeader buf e ∧
          (walkHeaders ports gpte numSectors (matchesPath m path) d).Returns
            (d', some (seeker, buf))
      | none => (walkHeaders ports gpte numSectors (matchesPath m path) d).Returns (d', none) := by
  obtain ⟨d', ha, h⟩ := walkHeaders_of_walked hl (hst.walked_entriesBefore hpass)
    (hst.headersAt.lookupEnd p) hfit hp
  refine ⟨d', ha, ?_⟩
  cases hlook : lookup es p with
  | some e =>
    rw [hlook] at h
    obtain ⟨seeker, buf, hs, hbuf, h⟩ := h
    exact ⟨seeker, buf, hs, (hst.isHeader_lookup hlook).congr hbuf, h⟩
  | none =>
    rw [hlook] at h
    exact h

/-- The path is looked up exactly: both readers read the headers up to the first entry of the
    path, or all of them and the end. The loader then reads the sectors behind that header, and
    nothing if there is none. -/
structure LookupExact (d : AtaDevice) (m : Memory) (gpte : GPTEntry) (path : ℕ)
    (es : List Entry) (p : List UInt8) : Prop where
  getFilesize : ∃ d', After d d' (lookupReads gpte.startingLba.toNat es p) ∧
    (ustarGetFilesize ports d m gpte path).Returns (match lookup es p with
      | some e => (d', 0, some (.ofNat e.size))
      | none => (d', -1, none))
  loadSearch : ∃ d', After d d' (lookupReads gpte.startingLba.toNat es p) ∧
    match lookup es p with
    | some e => ∃ seeker buf, seeker.toNat = sectors (entriesBefore es p) ∧ IsHeader buf e ∧
        (walkHeaders ports gpte numSectorsU32 (matchesPath m path) d).Returns
          (d', some (seeker, buf))
    | none => (walkHeaders ports gpte numSectorsU32 (matchesPath m path) d).Returns (d', none)
  loadFound : ∀ e, lookup es p = some e → ∀ dstBuf, ∃ d',
    After d d' (lookupReads gpte.startingLba.toNat es p ++
      [(gpte.startingLba.toNat + sectors (entriesBefore es p) + 1, (e.size + 511) / 512 % 256)]) ∧
    (ustarLoadFile ports d m gpte path dstBuf).Returns
      ((d', storeSectors m dstBuf d.disk
        (gpte.startingLba.toNat + sectors (entriesBefore es p) + 1) ((e.size + 511) / 512 % 256)),
        .ofNat e.size)
  loadNone : lookup es p = none → ∀ dstBuf, ∃ d',
    After d d' (lookupReads gpte.startingLba.toNat es p) ∧
    (ustarLoadFile ports d m gpte path dstBuf).Returns ((d', m), 0)

/-- The size of the entry found is stored. -/
theorem ustarGetFilesize_lookup (hl : d.Live) (hst : Stored d.disk gpte.startingLba.toNat es)
    (hfit : gpte.startingLba.toNat + sectors es < 2 ^ 28) (hp : CString m path p)
    (htype : ∀ e ∈ es, e.IsDirectory ∨ e.IsRegular) :
    ∃ d', After d d' (lookupReads gpte.startingLba.toNat es p) ∧
      (ustarGetFilesize ports d m gpte path).Returns (match lookup es p with
        | some e => (d', 0, some (.ofNat e.size))
        | none => (d', -1, none)) := by
  obtain ⟨d', ha, h⟩ := walkHeaders_lookup hl hst hfit hp
    fun e he => passes_u64 (htype e (mem_of_mem_entriesBefore he))
  refine ⟨d', ha, ?_⟩
  rw [ustarGetFilesize]
  cases hlook : lookup es p with
  | some e =>
    rw [hlook] at h
    obtain ⟨seeker, buf, _, hbuf, h⟩ := h
    rw [h.bind_iff, returns_pure_iff, headerFilesize_eq hbuf]
  | none =>
    rw [hlook] at h
    rw [h.bind_iff, returns_pure_iff]

/-- The loader at a header of the path: it reads the sectors behind it, as many as it makes out
    from the size and passes in 8 bits, and returns the size in 32 bits. -/
theorem ustarLoadFile_of_walked {before : List Entry} {e : Entry} (hl : d.Live)
    (hst : Walked numSectorsU32 d.disk gpte.startingLba.toNat before)
    (he : IsEntry (d.disk (gpte.startingLba.toNat + sectors before)) e)
    (hfit : gpte.startingLba.toNat + sectors before + 1 < 2 ^ 28) (hp : CString m path p)
    (hne : ∀ e ∈ before, ¬e.path = p) (hpath : e.path = p) {filesize : UInt64}
    (hsize : headerFilesize (d.disk (gpte.startingLba.toNat + sectors before)) = filesize)
    (dstBuf : ℕ) : ∃ d', After d d' ((headerReads gpte.startingLba.toNat before ++
        [(gpte.startingLba.toNat + sectors before, 1)]) ++
        [(gpte.startingLba.toNat + sectors before + 1,
          (numSectorsU32 filesize).toNat % 256)]) ∧
      (ustarLoadFile ports d m gpte path dstBuf).Returns
        ((d', storeSectors m dstBuf d.disk (gpte.startingLba.toNat + sectors before + 1)
          ((numSectorsU32 filesize).toNat % 256)), filesize.toUInt32.toUInt64) := by
  obtain ⟨d₁, seeker, buf, ha₁, hs, hbuf, h⟩ := walkHeaders_found hl (selects_path hp) hst he hne
    hpath (Nat.lt_of_succ_lt hfit)
  rw [← headerFilesize_congr hbuf] at hsize
  obtain ⟨d₂, h₂, ha₂⟩ := ataPioReadSectors_returns (ha₁.live hl) m dstBuf
    (seeker + 1 + gpte.startingLba).toUInt32 (numSectorsU32 (headerFilesize buf)).toUInt8
  have hone : (1 : UInt64).toNat = 1 := rfl
  have hlba : (seeker + 1).toNat + gpte.startingLba.toNat =
      gpte.startingLba.toNat + sectors before + 1 := by
    rw [UInt64.toNat_add, hone]
    omega
  rw [seeker_add_startingLba hlba hfit, UInt32.toNat_toUInt8, hsize] at h₂ ha₂
  rw [ha₁.disk] at h₂
  refine ⟨d₂, ha₁.trans ha₂, ?_⟩
  rw [ustarLoadFile, h.bind_iff]
  simp only [hsize]
  rw [h₂.bind_iff, returns_pure_iff]

/-- The file found is loaded, as far as the driver is asked for it: the number of its
    sectors is passed in 8 bits. -/
theorem ustarLoadFile_lookup {e : Entry} (hl : d.Live)
    (hst : Stored d.disk gpte.startingLba.toNat es)
    (hfit : gpte.startingLba.toNat + sectors es < 2 ^ 28) (hp : CString m path p)
    (hpass : ∀ e ∈ entriesBefore es p, Passes numSectorsU32 e) (hlook : lookup es p = some e)
    (dstBuf : ℕ) : ∃ d', After d d' (lookupReads gpte.startingLba.toNat es p ++
        [(gpte.startingLba.toNat + sectors (entriesBefore es p) + 1,
          (e.size + 511) % 2 ^ 32 / 512 % 256)]) ∧
      (ustarLoadFile ports d m gpte path dstBuf).Returns
        ((d', storeSectors m dstBuf d.disk
          (gpte.startingLba.toNat + sectors (entriesBefore es p) + 1)
          ((e.size + 511) % 2 ^ 32 / 512 % 256)), .ofNat (e.size % 2 ^ 32)) := by
  have hheader := hst.isHeader_lookup hlook
  have hpath : e.path = p := by simpa using List.find?_some hlook
  obtain ⟨d', ha, h⟩ := ustarLoadFile_of_walked hl (hst.walked_entriesBefore hpass)
    hheader.isEntry (Nat.lt_of_le_of_lt (Nat.add_le_add_left (sectors_lookup_lt hlook) _) hfit) hp
    (fun e he => path_ne_of_mem_entriesBefore he) hpath (headerFilesize_eq hheader) dstBuf
  have hsize : (UInt64.ofNat e.size).toUInt32.toUInt64 = .ofNat (e.size % 2 ^ 32) := by
    refine UInt64.toNat_inj.1 ?_
    simp only [UInt32.toNat_toUInt64, UInt64.toNat_toUInt32, UInt64.toNat_ofNat']
    omega
  rw [numSectorsU32_toNat] at ha h
  rw [hsize] at h
  exact ⟨d', ha, h⟩

theorem lookup_exact (hl : d.Live) (hst : Stored d.disk gpte.startingLba.toNat es)
    (hfit : gpte.startingLba.toNat + sectors es < 2 ^ 28) (hp : CString m path p)
    (htype : ∀ e ∈ es, e.IsDirectory ∨ e.IsRegular) (hsize : ∀ e ∈ es, e.size ≤ 2 ^ 32 - 512) :
    LookupExact d m gpte path es p := by
  have hpass : ∀ e ∈ entriesBefore es p, Passes numSectorsU32 e := fun e he =>
    have he := mem_of_mem_entriesBefore he
    passes_u32 ((htype e he).imp_right fun h => ⟨h, hsize e he⟩)
  obtain ⟨d', ha, h⟩ := walkHeaders_lookup hl hst hfit hp hpass
  refine ⟨ustarGetFilesize_lookup hl hst hfit hp htype, ⟨d', ha, h⟩, fun e hlook dstBuf => ?_,
    fun hnone dstBuf => ?_⟩
  · have hle := hsize e (List.mem_of_find?_eq_some hlook)
    have hload := ustarLoadFile_lookup hl hst hfit hp hpass hlook dstBuf
    rw [Nat.mod_eq_of_lt (show e.size + 511 < 2 ^ 32 by omega),
      Nat.mod_eq_of_lt (show e.size < 2 ^ 32 by omega)] at hload
    exact hload
  · rw [hnone] at h
    refine ⟨d', ha, ?_⟩
    rw [ustarLoadFile, h.bind_iff, returns_pure_iff]

end walk

/-! ## An archive -/

/-- The file `/a`, of one byte. -/
def oneFile : Entry where
  namePrefix := []
  name := [0x61]
  type := 0x30
  size := 1
  namePrefix_length := by decide
  name_length := by decide
  ne_zero := List.forall_mem_singleton.2 (by decide)
  size_lt := by decide

/-- A partition from the sector 2048 on. -/
def onePartition : GPTEntry := ⟨fun _ => 1, fun _ => 0, 2048, 4096, 0, fun _ => 0⟩

/-- The path `/a`, stored at 0. -/
def onePath : Memory := literal [0x2F, 0x61]

/-- A memory with the path at 0. -/
theorem cString_zeros {p : List UInt8} (hne : ∀ c ∈ p, c ≠ 0) :
    CString (Memory.store (fun _ => 0) 0 p) 0 p :=
  cString_store hne rfl

/-- The directory `/d`. -/
def oneDirectory : Entry := { oneFile with
  name := [0x64]
  type := 0x35
  name_length := by decide
  ne_zero := List.forall_mem_singleton.2 (by decide) }

/-- The file `/b`, of two sectors. -/
def twoSectorFile : Entry := { oneFile with
  name := [0x62]
  size := 600
  name_length := by decide
  ne_zero := List.forall_mem_singleton.2 (by decide)
  size_lt := by decide }

/-- A directory, a file of two sectors and one of one byte. -/
def someEntries : List Entry := [oneDirectory, twoSectorFile, oneFile]

/-- The path of the third entry is looked up. -/
theorem lookup_exact_someEntries :
    LookupExact (driveOf (archive 2048 someEntries)) onePath onePartition 0 someEntries
      oneFile.path :=
  lookup_exact (live_driveOf _) (stored_archive 2048 someEntries) (by decide)
    ⟨rfl, by decide, rfl, by decide, rfl⟩ (by decide) (by decide)

end Cboot
