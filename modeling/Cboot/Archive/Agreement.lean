import Cboot.Archive.Stray

/-!
# The readers agree

`ustar_get_filesize` keeps the sizes of files in 64 bits and `ustar_load_file` in 32
bits. `readersAgree_iff` says for which archives and paths they find the same header and
the same size: the files before the one found have to be of less than 4 GiB, rounded up
to sectors, and the one found of less than 4 GiB.
-/

namespace Cboot

open AtaDevice Fueled

/-- `ustar_get_filesize` stops at the header in the sector `lba`, and stores the size. -/
def GetSelects (d : AtaDevice) (m : Memory) (gpte : GPTEntry) (path lba : ℕ) (size : UInt64) :
    Prop :=
  ∃ d' seeker buf, (walkHeaders ports gpte numSectorsU64 (matchesPath m path) d).Returns
      (d', some (seeker, buf)) ∧
    seeker.toNat + gpte.startingLba.toNat = lba ∧
    (ustarGetFilesize ports d m gpte path).Returns (d', 0, some size)

/-- `ustar_load_file` stops at the header in the sector `lba`, and returns the size. -/
def LoadSelects (d : AtaDevice) (m : Memory) (gpte : GPTEntry) (path dstBuf lba : ℕ)
    (size : UInt64) : Prop :=
  ∃ d' seeker buf, (walkHeaders ports gpte numSectorsU32 (matchesPath m path) d).Returns
      (d', some (seeker, buf)) ∧
    seeker.toNat + gpte.startingLba.toNat = lba ∧
    ∃ s, (ustarLoadFile ports d m gpte path dstBuf).Returns (s, size)

/-- The readers find the same header and the same size. -/
def ReadersAgree (d : AtaDevice) (m : Memory) (gpte : GPTEntry) (path dstBuf : ℕ) : Prop :=
  ∀ lba size, LoadSelects d m gpte path dstBuf lba size ↔ GetSelects d m gpte path lba size

/-- A file that the loader's walk passes. -/
def Entry.Small (e : Entry) : Prop := e.IsRegular → e.size ≤ 2 ^ 32 - 512

instance (e : Entry) : Decidable e.Small := inferInstanceAs (Decidable (_ → _))

/-- The path of some entry that could be. -/
def IsPath (p : List UInt8) : Prop := ∃ s, p = 0x2F :: s ∧ s.length ≤ 255

section agree

variable {d : AtaDevice} {m : Memory} {gpte : GPTEntry} {path dstBuf lba : ℕ} {es : List Entry}
  {p : List UInt8} {size : UInt64}

/-- What `ustar_get_filesize` selects. -/
theorem getSelects_iff (hl : d.Live) (hst : Stored d.disk gpte.startingLba.toNat es)
    (hfit : gpte.startingLba.toNat + sectors es < 2 ^ 28) (hp : CString m path p)
    (htype : ∀ e ∈ es, e.IsDirectory ∨ e.IsRegular) :
    GetSelects d m gpte path lba size ↔ ∃ e, lookup es p = some e ∧
      gpte.startingLba.toNat + sectors (entriesBefore es p) = lba ∧ .ofNat e.size = size := by
  obtain ⟨d', _, hw⟩ := walkHeaders_lookup hl hst hfit hp
    fun e he => passes_u64 (htype e (mem_of_mem_entriesBefore he))
  obtain ⟨d'', _, hg⟩ := ustarGetFilesize_lookup hl hst hfit hp htype
  cases hlook : lookup es p with
  | some e =>
    rw [hlook] at hw hg
    obtain ⟨seeker, buf, hs, hbuf, hw⟩ := hw
    constructor
    · -- The walk has one result, so this is the entry looked up.
      rintro ⟨d₁, seeker₁, buf₁, hw₁, rfl, hg₁⟩
      obtain ⟨rfl, hfound⟩ := Prod.mk.inj (hw₁.unique hw)
      obtain ⟨rfl, rfl⟩ := Prod.mk.inj (Option.some.inj hfound)
      refine ⟨e, rfl, by omega, ?_⟩
      have := hg.unique hg₁
      simp only [Prod.mk.injEq, Option.some.injEq] at this
      exact this.2.2
    · rintro ⟨e', he', rfl, rfl⟩
      obtain rfl := Option.some.inj he'
      refine ⟨d', seeker, buf, hw, by omega, ?_⟩
      rw [ustarGetFilesize, hw.bind_iff, returns_pure_iff, headerFilesize_eq hbuf]
  | none =>
    rw [hlook] at hw
    constructor
    · rintro ⟨_, _, _, hw₁, _⟩
      exact absurd (hw.unique hw₁) (by simp)
    · rintro ⟨_, h, _⟩
      cases h

/-- What `ustar_load_file` selects, passing the entries before. -/
theorem loadSelects_iff (hl : d.Live) (hst : Stored d.disk gpte.startingLba.toNat es)
    (hfit : gpte.startingLba.toNat + sectors es < 2 ^ 28) (hp : CString m path p)
    (hpass : ∀ e ∈ entriesBefore es p, Passes numSectorsU32 e) :
    LoadSelects d m gpte path dstBuf lba size ↔ ∃ e, lookup es p = some e ∧
      gpte.startingLba.toNat + sectors (entriesBefore es p) = lba ∧
      .ofNat (e.size % 2 ^ 32) = size := by
  obtain ⟨d', _, hw⟩ := walkHeaders_lookup hl hst hfit hp hpass
  cases hlook : lookup es p with
  | some e =>
    rw [hlook] at hw
    obtain ⟨seeker, buf, hs, _, hw⟩ := hw
    obtain ⟨d'', _, hload⟩ := ustarLoadFile_lookup hl hst hfit hp hpass hlook dstBuf
    constructor
    · rintro ⟨d₁, seeker₁, buf₁, hw₁, rfl, s₁, hload₁⟩
      obtain ⟨rfl, hfound⟩ := Prod.mk.inj (hw₁.unique hw)
      obtain ⟨rfl, rfl⟩ := Prod.mk.inj (Option.some.inj hfound)
      exact ⟨e, rfl, by omega, (Prod.mk.inj (hload.unique hload₁)).2⟩
    · rintro ⟨e', he', rfl, rfl⟩
      obtain rfl := Option.some.inj he'
      exact ⟨d', seeker, buf, hw, by omega, _, hload⟩
  | none =>
    rw [hlook] at hw
    constructor
    · rintro ⟨_, _, _, hw₁, _⟩
      exact absurd (hw.unique hw₁) (by simp)
    · rintro ⟨_, h, _⟩
      cases h

/-- Entries of the two types, in front of the one found, are passed if they are small. -/
theorem passes_of_small (htype : ∀ e ∈ es, e.IsDirectory ∨ e.IsRegular)
    (hsmall : ∀ e ∈ es, e.Small) : ∀ e ∈ es, Passes numSectorsU32 e := fun e he =>
  passes_u32 ((htype e he).imp_right fun h => ⟨h, hsmall e he h⟩)

/-- The first entry that is not small. -/
theorem exists_first_oversized (htype : ∀ e ∈ es, e.IsDirectory ∨ e.IsRegular)
    (h : ¬∀ e ∈ es, e.Small) : ∃ es₁ e rest, es = es₁ ++ e :: rest ∧
      (∀ e ∈ es₁, Passes numSectorsU32 e) ∧ e.Oversized := by
  obtain ⟨es₁, e, rest, rfl, hsmall, hbad⟩ := exists_first_not h
  have htype₁ := (List.forall_mem_append.1 htype).1
  obtain ⟨hr, hsize⟩ := Classical.not_imp.1 hbad
  exact ⟨es₁, e, rest, rfl, passes_of_small htype₁ hsmall, hr, Nat.lt_of_not_le hsize⟩

/-- Every path is that of some entry. -/
theorem exists_entry_path {p : List UInt8} (h : IsPath p) (hne : ∀ c ∈ p, c ≠ 0) :
    ∃ e : Entry, e.path = p := by
  obtain ⟨s, rfl, hs⟩ := h
  have hlen₁ : (s.take 155).length ≤ 155 := List.length_take_le _ _
  have hlen₂ : (s.drop 155).length ≤ 100 := by
    rw [List.length_drop]
    omega
  have hne' : ∀ c ∈ s.take 155 ++ s.drop 155, c ≠ 0 := by
    rw [List.take_append_drop]
    exact fun c hc => hne c (List.mem_cons_of_mem _ hc)
  -- The path is a slash, the prefix and the name, with nothing in between.
  refine ⟨⟨s.take 155, s.drop 155, 0x30, 0, hlen₁, hlen₂, hne', by decide⟩, ?_⟩
  rw [Entry.path, List.take_append_drop]

/-- A disk where the loader, looking for the path, goes astray before it finds an entry. -/
theorem exists_loadSelects_fails {es₁ rest : List Entry} {e : Entry}
    (hes : ∀ e ∈ es₁, Passes numSectorsU32 e ∧ e.path ≠ p) (ho : e.Oversized) (hn : e.path ≠ p)
    (hfit : gpte.startingLba.toNat + sectors (es₁ ++ e :: rest) < 2 ^ 28) :
    ∃ disk, Stored disk gpte.startingLba.toNat (es₁ ++ e :: rest) ∧ ∀ m path, CString m path p →
      ∀ r, ¬(walkHeaders ports gpte numSectorsU32 (matchesPath m path)
        (driveOf disk)).Returns r := by
  obtain ⟨e', hu, hn'⟩ := exists_unstepped_path_ne p
  have hst := stored_strayDisk gpte ho es₁ rest e'
  rw [sectors_append, sectors_cons] at hfit
  exact ⟨_, hst, fun m path hp r => walkHeaders_strayed (live_driveOf _) (selects_path hp)
    (hst.walked fun e he => (hes e he).1) hst.append.1.isEntry (headerFilesize_eq hst.append.1)
    (isHeader_strayDisk gpte es₁ rest e e').isEntry (fun e he => (hes e he).2) ho hn hu hn'
    (by omega) r⟩

/-- So does a loader that has to pass an entry that is not small. -/
theorem exists_lookup_fails (hfit : gpte.startingLba.toNat + sectors es < 2 ^ 28)
    (htype : ∀ e ∈ entriesBefore es p, e.IsDirectory ∨ e.IsRegular)
    (hbad : ¬∀ e ∈ entriesBefore es p, e.Small) :
    ∃ disk, Stored disk gpte.startingLba.toNat es ∧ ∀ m path, CString m path p →
      ∀ r, ¬(walkHeaders ports gpte numSectorsU32 (matchesPath m path)
        (driveOf disk)).Returns r := by
  obtain ⟨es₁, e₀, rest₀, hsplit, hpass, ho⟩ := exists_first_oversized htype hbad
  -- The oversized entry is in front of the one found, too.
  obtain ⟨rest, hrest⟩ : entriesBefore es p <+: es := List.takeWhile_prefix _
  have hne : ∀ e ∈ es₁ ++ e₀ :: rest₀, e.path ≠ p := fun e he =>
    path_ne_of_mem_entriesBefore (hsplit ▸ he)
  have hes : ∀ e ∈ es₁, Passes numSectorsU32 e ∧ e.path ≠ p := fun e he =>
    ⟨hpass e he, hne e (List.mem_append_left _ he)⟩
  have hn : e₀.path ≠ p := hne e₀ (List.mem_append_right _ List.mem_cons_self)
  rw [hsplit, List.append_assoc, List.cons_append] at hrest
  rw [← hrest] at hfit ⊢
  exact exists_loadSelects_fails hes ho hn hfit

/-- A disk where the loader, looking for the path of no entry, finds a header in the data
    of a file. -/
theorem exists_loadSelects {es₁ rest : List Entry} {e : Entry} (hpath : IsPath p)
    (hne : ∀ c ∈ p, c ≠ 0) (hes : ∀ e ∈ es₁, Passes numSectorsU32 e ∧ e.path ≠ p)
    (ho : e.Oversized) (hn : e.path ≠ p)
    (hfit : gpte.startingLba.toNat + sectors (es₁ ++ e :: rest) < 2 ^ 28) :
    ∃ disk, Stored disk gpte.startingLba.toNat (es₁ ++ e :: rest) ∧ ∀ m path, CString m path p →
      ∃ lba size, LoadSelects (driveOf disk) m gpte path 0 lba size := by
  obtain ⟨e', he'⟩ := exists_entry_path hpath hne
  have hst := stored_strayDisk gpte ho es₁ rest e'
  refine ⟨_, hst, fun m path hp => ?_⟩
  have hlt' := ho.wrappedSectors_lt
  rw [sectors_append, sectors_cons] at hfit
  obtain ⟨d₁, buf₁, seeker₁, hl₁, hd₁, hs₁, h₁⟩ := loop_lands (live_driveOf _) (selects_path hp)
    (d := driveOf (strayDisk gpte es₁ e rest e')) (hst.walked fun e he => (hes e he).1)
    hst.append.1.isEntry (headerFilesize_eq hst.append.1) (fun e he => (hes e he).2) ho hn
    (by omega)
  have hd₁ : d₁.disk = strayDisk gpte es₁ e rest e' := hd₁
  have hheader := isHeader_strayDisk gpte es₁ rest e e'
  rw [← hd₁] at hheader
  -- It lands at the header of `e'`, and selects it.
  obtain ⟨d₂, buf₂, ha₂, _, h₂⟩ := headerRound_selects hl₁ hs₁ (by omega) (selects_path hp)
    hheader.isEntry he' buf₁
  have hw := (h₁ _).2 (Returns.loop_done h₂)
  obtain ⟨d₃, h₃, _⟩ := ataPioReadSectors_returns (ha₂.live hl₁) m 0
    (seeker₁ + 1 + gpte.startingLba).toUInt32 (numSectorsU32 (headerFilesize buf₂)).toUInt8
  exact ⟨_, _, d₂, seeker₁, buf₂, hw, rfl, _,
    hw.bind_iff.2 (h₃.bind_iff.2 (returns_pure_iff.2 rfl))⟩

/-- What the entries and the path have to be like for the readers to agree. -/
def AgreeCondition (es : List Entry) (p : List UInt8) : Prop :=
  match lookup es p with
  | some e => (∀ e' ∈ entriesBefore es p, e'.Small) ∧ e.size < 2 ^ 32
  | none => (∀ e ∈ es, e.Small) ∨ ¬IsPath p

/-- The readers agree on every disk with the entries in the partition, whatever their data. -/
def AgreeAlways (gpte : GPTEntry) (es : List Entry) (p : List UInt8) : Prop :=
  ∀ d m path dstBuf, d.Live → Stored d.disk gpte.startingLba.toNat es → CString m path p →
    ReadersAgree d m gpte path dstBuf

section always

variable (hfit : gpte.startingLba.toNat + sectors es < 2 ^ 28)
  (htype : ∀ e ∈ es, e.IsDirectory ∨ e.IsRegular)

include hfit htype

/-- If they agree on a file, there is no file of 4 GiB in front of it: the data of that file
    could hold something that `ustar_load_file` gets stuck at. -/
theorem AgreeAlways.small {e : Entry} (h : AgreeAlways gpte es p) (hne : ∀ c ∈ p, c ≠ 0)
    (hlook : lookup es p = some e) : ∀ e' ∈ entriesBefore es p, e'.Small := by
  by_contra hbad
  obtain ⟨disk, hst, hfail⟩ := exists_lookup_fails hfit
    (fun e he => htype e (mem_of_mem_entriesBefore he)) hbad
  have hp := cString_zeros hne
  have hl := live_driveOf disk
  have hget := (getSelects_iff hl hst hfit hp htype).2 ⟨e, hlook, rfl, rfl⟩
  obtain ⟨_, _, _, hw, _⟩ := (h _ _ _ 0 hl hst hp _ _).2 hget
  exact hfail _ _ hp _ hw

/-- And the file itself is not of 4 GiB: the size returned has only 32 bits. -/
theorem AgreeAlways.size_lt {e : Entry} (h : AgreeAlways gpte es p) (hne : ∀ c ∈ p, c ≠ 0)
    (hlook : lookup es p = some e) (hsmall : ∀ e' ∈ entriesBefore es p, e'.Small) :
    e.size < 2 ^ 32 := by
  have hst := stored_archive gpte.startingLba.toNat es
  have hp := cString_zeros hne
  have hl := live_driveOf (archive gpte.startingLba.toNat es)
  have hpass := passes_of_small (fun e he => htype e (mem_of_mem_entriesBefore he)) hsmall
  have hget := (getSelects_iff hl hst hfit hp htype).2 ⟨e, hlook, rfl, rfl⟩
  obtain ⟨e', he', _, hsize⟩ :=
    (loadSelects_iff hl hst hfit hp hpass).1 ((h _ _ _ 0 hl hst hp _ _).2 hget)
  obtain rfl := Option.some.inj (hlook.symm.trans he')
  have hsize := congrArg UInt64.toNat hsize
  have := e.size_lt
  rw [UInt64.toNat_ofNat', UInt64.toNat_ofNat'] at hsize
  omega

/-- If they agree on a path that no entry has, either no file is of 4 GiB or it is no path that
    a header can hold: otherwise the data of such a file could hold a header of the path, that
    only `ustar_load_file` comes by. -/
theorem AgreeAlways.small_or_not_isPath (h : AgreeAlways gpte es p) (hne : ∀ c ∈ p, c ≠ 0)
    (hlook : lookup es p = none) (hall : entriesBefore es p = es) :
    (∀ e ∈ es, e.Small) ∨ ¬IsPath p := by
  by_contra hbad
  obtain ⟨hbad, hpath⟩ := not_or.1 hbad
  obtain ⟨es₁, e₀, rest₀, rfl, hpass, ho⟩ := exists_first_oversized htype hbad
  have hnpath : ∀ e ∈ es₁ ++ e₀ :: rest₀, e.path ≠ p := fun e he =>
    path_ne_of_mem_entriesBefore (hall.symm ▸ he)
  have hes : ∀ e ∈ es₁, Passes numSectorsU32 e ∧ e.path ≠ p := fun e he =>
    ⟨hpass e he, hnpath e (List.mem_append_left _ he)⟩
  obtain ⟨disk, hst, hsel⟩ := exists_loadSelects (not_not.1 hpath) hne hes ho
    (hnpath e₀ (List.mem_append_right _ List.mem_cons_self)) hfit
  have hp := cString_zeros hne
  have hl := live_driveOf disk
  obtain ⟨lba, size, hload⟩ := hsel _ _ hp
  obtain ⟨e, he, _⟩ := (getSelects_iff hl hst hfit hp htype).1
    ((h _ _ _ 0 hl hst hp _ _).1 hload)
  rw [hlook] at he
  cases he

theorem agreeAlways_of_some {e : Entry} (hlook : lookup es p = some e)
    (hsmall : ∀ e' ∈ entriesBefore es p, e'.Small) (hsize : e.size < 2 ^ 32) :
    AgreeAlways gpte es p := by
  intro d m path dstBuf hl hst hp lba size
  have hpass := passes_of_small (fun e he => htype e (mem_of_mem_entriesBefore he)) hsmall
  rw [loadSelects_iff hl hst hfit hp hpass, getSelects_iff hl hst hfit hp htype, hlook]
  simp only [Option.some.injEq, exists_eq_left', Nat.mod_eq_of_lt hsize]

theorem agreeAlways_of_none (hlook : lookup es p = none)
    (hcond : (∀ e ∈ es, e.Small) ∨ ¬IsPath p) : AgreeAlways gpte es p := by
  intro d m path dstBuf hl hst hp lba size
  rw [getSelects_iff hl hst hfit hp htype, hlook]
  refine iff_of_false (fun hload => ?_) (by simp)
  rcases hcond with hsmall | hpath
  · have hpass : ∀ e ∈ entriesBefore es p, Passes numSectorsU32 e :=
      passes_of_small (fun e he => htype e (mem_of_mem_entriesBefore he)) fun e he =>
        hsmall e (mem_of_mem_entriesBefore he)
    rw [loadSelects_iff hl hst hfit hp hpass, hlook] at hload
    simp at hload
  · -- Whatever the walk meets, it has no path that is matched.
    obtain ⟨_, _, buf, hw, _⟩ := hload
    have hmatch := (matchesPath_iff_headerPath hp).1 (select_of_walkHeaders hw)
    have hlen := headerPath_length_le buf
    refine hpath ⟨_, hmatch.symm.trans rfl, ?_⟩
    rw [headerPath, List.length_cons] at hlen
    omega

end always

/-- The readers agree on an archive of files and directories, whatever its data, if and only
    if the files before the one found are of less than 4 GiB, rounded up to sectors, and
    the one found is of less than 4 GiB. -/
theorem readersAgree_iff (hfit : gpte.startingLba.toNat + sectors es < 2 ^ 28)
    (htype : ∀ e ∈ es, e.IsDirectory ∨ e.IsRegular) (hne : ∀ c ∈ p, c ≠ 0) :
    (∀ d m path dstBuf, d.Live → Stored d.disk gpte.startingLba.toNat es → CString m path p →
      ReadersAgree d m gpte path dstBuf) ↔ AgreeCondition es p := by
  change AgreeAlways gpte es p ↔ _
  rw [AgreeCondition]
  rcases lookup_cases es p with ⟨e, _, hlook, _⟩ | ⟨hlook, hall⟩
  · rw [hlook]
    constructor
    · intro h
      have hsmall := h.small hfit htype hne hlook
      exact ⟨hsmall, h.size_lt hfit htype hne hlook hsmall⟩
    · rintro ⟨hsmall, hsize⟩
      exact agreeAlways_of_some hfit htype hlook hsmall hsize
  · rw [hlook]
    exact ⟨fun h => h.small_or_not_isPath hfit htype hne hlook hall,
      agreeAlways_of_none hfit htype hlook⟩

/-- They agree on the third entry of an archive. -/
theorem readersAgree_someEntries :
    ReadersAgree (driveOf (archive 2048 someEntries)) onePath onePartition 0 0x100000 := by
  have hcond : AgreeCondition someEntries oneFile.path :=
    show (∀ e' ∈ entriesBefore someEntries oneFile.path, e'.Small) ∧ 1 < 2 ^ 32 from
      ⟨by decide, by decide⟩
  exact (readersAgree_iff (by decide) (by decide) oneFile.path_ne_zero).2 hcond _ _ _ _
    (live_driveOf _) (stored_archive 2048 someEntries) ⟨rfl, by decide, rfl, by decide, rfl⟩

/-- The file `/a`, of 4 GiB. -/
def largeFile : Entry := { oneFile with size := 2 ^ 32, size_lt := by decide }

/-- The readers find the file of 4 GiB, but not the same size: one of them returns 0. -/
theorem not_readersAgree_largeFile :
    ¬ReadersAgree (driveOf (archive 2048 [largeFile])) onePath onePartition 0 0x100000 := by
  have hst : Stored (driveOf (archive 2048 [largeFile])).disk onePartition.startingLba.toNat
      [largeFile] := stored_archive 2048 [largeFile]
  have hfit : onePartition.startingLba.toNat + sectors [largeFile] < 2 ^ 28 := by decide
  have hp : CString onePath 0 largeFile.path := ⟨rfl, by decide, rfl, by decide, rfl⟩
  have hl := live_driveOf (archive 2048 [largeFile])
  intro h
  have hget := (getSelects_iff hl hst hfit hp (by decide)).2 ⟨largeFile, rfl, rfl, rfl⟩
  obtain ⟨e, he, _, hsize⟩ := (loadSelects_iff hl hst hfit hp
    fun e he => absurd he List.not_mem_nil).1 ((h _ _).2 hget)
  obtain rfl := Option.some.inj he
  exact absurd hsize (by decide)

end agree

end Cboot
