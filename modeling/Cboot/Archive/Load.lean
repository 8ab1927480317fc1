import Cboot.Archive.Written

/-!
# Loading a whole file

A file that `ustar_load_file` finds is not loaded whole when it is too large: the number
of its sectors is passed to the driver in 8 bits. The function still returns the size of
the file. Nor is it when its size is not made out, and it is not found when the walker does
not step over the files in front of it. `loadsWhole_iff` gives the files that are loaded
whole wherever they are loaded to.
-/

namespace Cboot

open AtaDevice Fueled

/-- The file of the given size, with its header in the sector `lba`, is loaded whole: its
    size is returned, its bytes are stored, and nothing is changed outside its sectors. -/
def LoadsWhole (d : AtaDevice) (m : Memory) (gpte : GPTEntry) (path dstBuf lba size : ℕ) : Prop :=
  ∃ d' m', (ustarLoadFile ports d m gpte path dstBuf).Returns ((d', m'), .ofNat size) ∧
    (∀ i < size, m' (dstBuf + i) = d.disk (lba + 1 + i / 512) (i % 512)) ∧
    ∀ x, x < dstBuf ∨ dstBuf + 512 * ((size + 511) / 512) ≤ x → m' x = m x

/-- The file behind the entries `before` is loaded whole from every disk with the entries in the
    partition, whatever their data, and wherever it is loaded to. -/
def LoadsAlways (gpte : GPTEntry) (before : List WrittenEntry) (w : WrittenEntry)
    (rest : List WrittenEntry) : Prop :=
  ∀ d m path dstBuf, d.Live → StoredWritten d.disk gpte.startingLba.toNat (before ++ w :: rest) →
    CString m path w.path →
    LoadsWhole d m gpte path dstBuf (gpte.startingLba.toNat + sectors (writtenEntries before))
      w.size

/-- What the file and the entries before it have to be like. -/
def LoadCondition (before : List WrittenEntry) (w : WrittenEntry) : Prop :=
  (w.size + 511) / 512 ≤ 255 ∧ w.Padded ∧ ∀ w' ∈ before, w'.SteppedOver

section load

variable {d : AtaDevice} {m : Memory} {gpte : GPTEntry} {path dstBuf : ℕ}
  {before rest : List WrittenEntry} {w : WrittenEntry}

theorem header_lt
    (hfit : gpte.startingLba.toNat + sectors (writtenEntries (before ++ w :: rest)) < 2 ^ 28) :
    gpte.startingLba.toNat + sectors (writtenEntries before) + 1 < 2 ^ 28 := by
  rw [writtenEntries_append, writtenEntries_cons, sectors_append, sectors_cons] at hfit
  omega

/-- What `ustar_load_file` does when it steps over the entries before the file. -/
theorem ustarLoadFile_written (hl : d.Live)
    (hst : StoredWritten d.disk gpte.startingLba.toNat (before ++ w :: rest))
    (hfit : gpte.startingLba.toNat + sectors (writtenEntries before) + 1 < 2 ^ 28)
    (hp : CString m path w.path) (hne : ∀ w' ∈ before, w'.path ≠ w.path)
    (hbefore : ∀ w' ∈ before, w'.SteppedOver) {filesize : UInt64}
    (hsize : headerFilesize (d.disk (gpte.startingLba.toNat + sectors (writtenEntries before))) =
      filesize) (dstBuf : ℕ) :
    ∃ d', (ustarLoadFile ports d m gpte path dstBuf).Returns
      ((d', storeSectors m dstBuf d.disk
        (gpte.startingLba.toNat + sectors (writtenEntries before) + 1)
        ((numSectorsU32 filesize).toNat % 256)), filesize.toUInt32.toUInt64) := by
  obtain ⟨d', _, h⟩ := ustarLoadFile_of_walked hl
    (hst.walked fun w' hw' => (hbefore w' hw').passes_u32) hst.append.1.isEntry hfit hp
    (forall_mem_writtenEntries.2 hne) rfl hsize dstBuf
  exact ⟨d', h⟩

/-- For a file whose predecessors are stepped over and whose size is made out: the bytes that are
    not loaded have to be in the memory already. -/
theorem loadsWhole_iff_bytes (hl : d.Live)
    (hst : StoredWritten d.disk gpte.startingLba.toNat (before ++ w :: rest))
    (hfit : gpte.startingLba.toNat + sectors (writtenEntries before) + 1 < 2 ^ 28)
    (hp : CString m path w.path) (hne : ∀ w' ∈ before, w'.path ≠ w.path)
    (hbefore : ∀ w' ∈ before, w'.SteppedOver) (hpad : w.Padded) (hsize : w.size ≤ 96 * 2 ^ 20) :
    LoadsWhole d m gpte path dstBuf (gpte.startingLba.toNat + sectors (writtenEntries before))
        w.size ↔
      ∀ i < w.size, 512 * ((w.size + 511) / 512 % 256) ≤ i → m (dstBuf + i) =
        d.disk (gpte.startingLba.toNat + sectors (writtenEntries before) + 1 + i / 512)
          (i % 512) := by
  obtain ⟨d', h⟩ := ustarLoadFile_written hl hst hfit hp hne hbefore
    (hst.append.1.headerFilesize_eq hpad) dstBuf
  have h₁ : (w.size + 511) % 2 ^ 32 = w.size + 511 := Nat.mod_eq_of_lt (by omega)
  have h₂ : (UInt64.ofNat w.size).toUInt32.toUInt64 = .ofNat w.size := by
    refine UInt64.toNat_inj.1 ?_
    simp only [UInt32.toNat_toUInt64, UInt64.toNat_toUInt32, UInt64.toNat_ofNat']
    omega
  rw [numSectorsU32_toNat, h₁, h₂] at h
  constructor
  · rintro ⟨d₁, m₁, hr, hbytes, _⟩ i hi hle
    -- What is behind the sectors loaded is in memory already.
    obtain ⟨_, rfl⟩ := Prod.mk.inj (Prod.mk.inj (hr.unique h)).1
    rw [← hbytes i hi, storeSectors_of_not_mem (.inr (by omega))]
  · intro hbytes
    refine ⟨_, _, h, fun i hi => ?_, fun x hx => storeSectors_of_not_mem (by omega)⟩
    by_cases hlt : i < 512 * ((w.size + 511) / 512 % 256)
    · exact storeSectors_of_lt hlt
    · rw [storeSectors_of_not_mem (.inr (by omega))]
      exact hbytes i hi (Nat.le_of_not_lt hlt)

section always

variable (hfit : gpte.startingLba.toNat + sectors (writtenEntries (before ++ w :: rest)) < 2 ^ 28)
  (hne : ∀ w' ∈ before, w'.path ≠ w.path)

include hfit hne

/-- If the file is always loaded, the entries before it are stepped over: the data of a file that
    is too large could hold something that the loader gets stuck at. -/
theorem LoadsAlways.steppedOver (h : LoadsAlways gpte before w rest)
    (htype : ∀ w' ∈ before, w'.IsDirectory ∨ w'.IsRegular)
    (hpad : ∀ w' ∈ before, w'.IsRegular → w'.Padded) : ∀ w' ∈ before, w'.SteppedOver := by
  by_contra hbad
  obtain ⟨ws₁, b, ws₂, rfl, hws, hb⟩ := exists_first_not hbad
  have hmem : b ∈ ws₁ ++ b :: ws₂ := List.mem_append_right _ List.mem_cons_self
  have ho : b.Oversized := by
    rcases b.unstepped_or_oversized (hpad b hmem) hb with hu | ho
    · exact absurd (htype b hmem) (not_or.2 hu)
    · exact ho
  obtain ⟨e', hu, hn'⟩ := exists_unstepped_path_ne w.path
  rw [List.append_assoc, List.cons_append] at hfit
  obtain ⟨disk, hst, hstrayed⟩ := exists_strayed hws ho (hpad b hmem ho.1) hu hfit
  rw [← List.cons_append, ← List.append_assoc] at hst
  have hp := cString_zeros w.path_ne_zero
  obtain ⟨_, _, hr, _⟩ := h (driveOf disk) _ 0 0 (live_driveOf _) hst hp
  obtain ⟨r, hr, _⟩ := returns_bind_iff.1 hr
  exact hstrayed (selects_path hp)
    (forall_mem_writtenEntries.2 fun w' hw' => hne w' (List.mem_append_left _ hw')) (hne b hmem)
    hn' r hr

/-- Its size is made out: otherwise the size returned is another one. -/
theorem LoadsAlways.padded (h : LoadsAlways gpte before w rest)
    (hbefore : ∀ w' ∈ before, w'.SteppedOver) (hsize : w.size ≤ 96 * 2 ^ 20) : w.Padded := by
  by_contra hpad
  obtain ⟨disk, hst⟩ : ∃ disk, StoredWritten disk gpte.startingLba.toNat (before ++ w :: rest) :=
    ⟨_, @storedWritten_writtenArchive (fun _ _ => 0) _ _ not_hasSignature_zeros⟩
  have hp := cString_zeros w.path_ne_zero
  obtain ⟨_, hload⟩ := ustarLoadFile_written (d := driveOf disk) (live_driveOf _) hst
    (header_lt hfit) hp hne hbefore rfl 0
  obtain ⟨_, _, hr, _⟩ := h (driveOf disk) _ 0 0 (live_driveOf _) hst hp
  have hsize' := congrArg UInt64.toNat (Prod.mk.inj (hr.unique hload)).2
  rw [UInt32.toNat_toUInt64, UInt64.toNat_toUInt32, UInt64.toNat_ofNat'] at hsize'
  refine w.field.headerFilesize_ne hst.append.1.size hpad ?_
  rw [w.value]
  exact hsize'.symm.trans (Nat.mod_eq_of_lt (by omega))

/-- It has at most 255 sectors: the first sector that is not loaded could hold ones, and the memory
    zeros. -/
theorem LoadsAlways.sectors_le (h : LoadsAlways gpte before w rest) (hreg : w.IsRegular)
    (hbefore : ∀ w' ∈ before, w'.SteppedOver) (hpad : w.Padded) (hsize : w.size ≤ 96 * 2 ^ 20) :
    (w.size + 511) / 512 ≤ 255 := by
  by_contra hn
  obtain ⟨s, hs⟩ : ∃ s, s = gpte.startingLba.toNat + sectors (writtenEntries before) + 1 +
    (w.size + 511) / 512 % 256 := ⟨_, rfl⟩
  obtain ⟨disk, hst, hone⟩ := @exists_storedWritten gpte.startingLba.toNat s before rest w
    (by omega) (by rw [w.dataSectors_of_isRegular hreg]; omega) fun _ => 1
  have hp := cString_zeros w.path_ne_zero
  have hbyte := (loadsWhole_iff_bytes (d := driveOf disk) (live_driveOf _) hst (header_lt hfit) hp
    hne hbefore hpad hsize).1 (h _ _ 0 w.path.length (live_driveOf _) hst hp)
    (512 * ((w.size + 511) / 512 % 256)) (by omega) le_rfl
  have hone : (driveOf disk).disk s = fun _ => 1 := hone
  rw [Memory.store_of_le (by omega), Nat.mul_div_cancel_left _ (by decide), ← hs, hone] at hbyte
  cases hbyte

end always

/-- A file of at most 96 MB is loaded whole, whatever the data and wherever it is loaded to, if it
    has at most 255 sectors, its size is written with eleven digits and the entries before it are
    stepped over. This is needed where the sizes of the files before it are written with eleven
    digits. -/
theorem loadsWhole_iff
    (hfit : gpte.startingLba.toNat + sectors (writtenEntries (before ++ w :: rest)) < 2 ^ 28)
    (htype : ∀ w' ∈ before, w'.IsDirectory ∨ w'.IsRegular)
    (hne : ∀ w' ∈ before, w'.path ≠ w.path) (hreg : w.IsRegular) (hsize : w.size ≤ 96 * 2 ^ 20) :
    (LoadCondition before w → LoadsAlways gpte before w rest) ∧
    ((∀ w' ∈ before, w'.IsRegular → w'.Padded) → LoadsAlways gpte before w rest →
      LoadCondition before w) := by
  constructor
  · -- All sectors are loaded, none is left.
    rintro ⟨hn, hpad, hbefore⟩ d m path dstBuf hl hst hp
    refine (loadsWhole_iff_bytes hl hst (header_lt hfit) hp hne hbefore hpad hsize).2
      fun i hi hle => ?_
    omega
  · intro hpad h
    have hbefore := h.steppedOver hfit hne htype hpad
    have hpad' := h.padded hfit hne hbefore hsize
    exact ⟨h.sectors_le hfit hne hreg hbefore hpad' hsize, hpad', hbefore⟩

/-- The file `/a` is loaded from behind a directory and a file of two sectors. -/
theorem loadsWhole_someWritten :
    LoadsWhole (driveOf (writtenArchive (fun _ _ => 0) 2048 (someWritten ++ [writtenFile])))
      onePath onePartition 0 0x100000 2052 1 :=
  (@loadsWhole_iff onePartition someWritten [] writtenFile (by decide) (by decide) (by decide)
    (by decide) (by decide)).1 ⟨by decide, rfl, by decide⟩ _ _ _ _ (live_driveOf _)
    (storedWritten_writtenArchive not_hasSignature_zeros) ⟨rfl, by decide, rfl, by decide, rfl⟩

/-- The file `/a`, of 128 KiB. -/
def file128k : WrittenEntry where
  toEntry := { oneFile with size := 0x20000, size_lt := by decide }
  field := { paddedOne with
    digits := [0, 0, 0, 0, 0, 4, 0, 0, 0, 0, 0]
    digit_lt := by decide
    length_pos := by decide
    length_le := by decide
    length_eq := rfl }
  value := rfl

/-- A disk with the file, the first sector of which holds ones. -/
def disk128k : ℕ → Memory :=
  writtenArchive (Function.update (fun _ _ => 0) 2049 fun _ => 1) 2048 [file128k]

/-- Nothing is loaded of the file of 256 sectors. -/
theorem not_loadsWhole_128k : StoredWritten (driveOf disk128k).disk 2048 [file128k] ∧
    ¬LoadsWhole (driveOf disk128k) onePath onePartition 0 0x100000 2048 0x20000 := by
  have hst : StoredWritten disk128k 2048 [file128k] := by
    refine storedWritten_writtenArchive ?_
    rw [Function.update_of_ne (by decide)]
    exact not_hasSignature_zeros
  refine ⟨hst, fun h => ?_⟩
  have hp : CString onePath 0 file128k.path := ⟨rfl, by decide, rfl, by decide, rfl⟩
  have hbyte := (@loadsWhole_iff_bytes (driveOf disk128k) onePath onePartition 0 0x100000 [] []
    file128k (live_driveOf _) hst (by decide) hp (fun e he => absurd he List.not_mem_nil)
    (fun e he => absurd he List.not_mem_nil) rfl (by decide)).1 h 0 (by decide) (by decide)
  exact absurd hbyte (by decide)

end load

end Cboot
