import Cboot.Archive.Fields
import Cboot.Archive.Stray

/-!
# Archives as they are written

The format leaves it to the writer how many digits a size has: one to eleven, with
terminators up to the end of the field. An entry together with the digits of its size is a
`WrittenEntry`, and an archive of them is a `StoredWritten` one.

* The walkers step over directories, and over the files whose sizes they make out
  (`SteppedOver`, `StoredWritten.walked`);
* every list of entries is stored on some disk, whatever the sectors hold that are not those
  of headers (`storedWritten_writtenArchive`);
* among these is one where a walk does not get over a file that is too large (`exists_strayed`).
-/

namespace Cboot

/-! ## Entries -/

/-- An entry, with its size as it is written. -/
structure WrittenEntry extends Entry where
  field : SizeField
  value : octalValue field.digits = size

namespace WrittenEntry

variable (w : WrittenEntry)

/-- The size is written with eleven digits. -/
def Padded : Prop := w.field.digits.length = 11

/-- The walkers step over the entry: a directory, or a file whose size they make out. -/
def SteppedOver : Prop := w.IsDirectory ∨ w.IsRegular ∧ w.size ≤ 2 ^ 32 - 512 ∧ w.Padded

instance : Decidable w.Padded := inferInstanceAs (Decidable (_ = _))

instance : Decidable w.SteppedOver := inferInstanceAs (Decidable (_ ∨ _))

end WrittenEntry

/-- The entries, whatever their sizes are written like. -/
def writtenEntries (ws : List WrittenEntry) : List Entry := ws.map WrittenEntry.toEntry

@[simp] theorem writtenEntries_cons (w : WrittenEntry) (ws : List WrittenEntry) :
    writtenEntries (w :: ws) = w.toEntry :: writtenEntries ws := rfl

@[simp] theorem writtenEntries_append (ws ws' : List WrittenEntry) :
    writtenEntries (ws ++ ws') = writtenEntries ws ++ writtenEntries ws' := List.map_append

theorem forall_mem_writtenEntries {ws : List WrittenEntry} {P : Entry → Prop} :
    (∀ e ∈ writtenEntries ws, P e) ↔ ∀ w ∈ ws, P w.toEntry := List.forall_mem_map

/-- The sector is a header of the entry, with its size as it is written. -/
structure IsWritten (sector : Memory) (w : WrittenEntry) : Prop where
  isEntry : IsEntry sector w.toEntry
  size : HoldsField sector 0x7c 12 w.field.chars

/-- The archive is stored from the sector `lba` on. -/
def StoredWritten (disk : ℕ → Memory) : (lba : ℕ) → List WrittenEntry → Prop
  | lba, [] => ¬HasSignature (disk lba)
  | lba, w :: ws => IsWritten (disk lba) w ∧ StoredWritten disk (lba + 1 + w.dataSectors) ws

section stored

variable {disk : ℕ → Memory} {lba : ℕ} {w : WrittenEntry} {ws ws' : List WrittenEntry}
  {numSectors : UInt64 → UInt32}

theorem StoredWritten.headersAt (h : StoredWritten disk lba ws) :
    HeadersAt disk lba (writtenEntries ws) := by
  induction ws generalizing lba with
  | nil => exact h
  | cons w ws ih => exact ⟨h.1.isEntry, ih h.2⟩

theorem StoredWritten.append (h : StoredWritten disk lba (ws ++ ws')) :
    StoredWritten disk (lba + sectors (writtenEntries ws)) ws' := by
  induction ws generalizing lba with
  | nil => exact h
  | cons w ws ih =>
    have := ih h.2
    rwa [writtenEntries_cons, sectors_cons, ← Nat.add_assoc, ← Nat.add_assoc]

/-- Sizes of eleven digits are made out. -/
theorem IsWritten.headerFilesize_eq {sector : Memory} (h : IsWritten sector w) (hw : w.Padded) :
    headerFilesize sector = .ofNat w.size := by
  rw [w.field.headerFilesize_eq h.size hw, w.value]

/-- An archive is walked as far as its files are passed and their sizes made out. -/
theorem StoredWritten.walked (h : StoredWritten disk lba (ws ++ ws'))
    (hws : ∀ w ∈ ws, Passes numSectors w.toEntry ∧ (w.IsRegular → w.Padded)) :
    Walked numSectors disk lba (writtenEntries ws) := by
  induction ws generalizing lba with
  | nil => trivial
  | cons w ws ih =>
    obtain ⟨⟨hpass, hpad⟩, hws⟩ := List.forall_mem_cons.1 hws
    refine ⟨h.1.isEntry, hpass.imp_right fun hw => ⟨hw.1, ?_⟩, ih h.2 hws⟩
    rw [h.1.headerFilesize_eq (hpad hw.1)]
    exact hw.2

/-- So are the entries before one of a path. -/
theorem StoredWritten.walked_entriesBefore (h : StoredWritten disk lba ws) (p : List UInt8)
    (hws : ∀ w ∈ ws, Passes numSectors w.toEntry ∧ (w.IsRegular → w.Padded)) :
    Walked numSectors disk lba (entriesBefore (writtenEntries ws) p) := by
  obtain ⟨rest, hrest⟩ : entriesBefore (writtenEntries ws) p <+: writtenEntries ws :=
    List.takeWhile_prefix _
  rw [← List.append_nil ws] at h
  have hw := h.walked hws
  rw [← hrest] at hw
  exact hw.left

theorem WrittenEntry.SteppedOver.padded (h : w.SteppedOver) (hr : w.IsRegular) : w.Padded :=
  (h.resolve_left (w.not_isDirectory_of_isRegular hr)).2.2

theorem WrittenEntry.SteppedOver.passes_u32 (h : w.SteppedOver) :
    Passes numSectorsU32 w.toEntry ∧ (w.IsRegular → w.Padded) :=
  ⟨Cboot.passes_u32 (h.imp_right fun h => ⟨h.1, h.2.1⟩), h.padded⟩

theorem WrittenEntry.SteppedOver.passes_u64 (h : w.SteppedOver) :
    Passes numSectorsU64 w.toEntry ∧ (w.IsRegular → w.Padded) :=
  ⟨Cboot.passes_u64 (h.imp_right And.left), h.padded⟩

/-- Where all files are written with eleven digits, an entry that is not stepped over is of a
    type that has no step, or too large. -/
theorem WrittenEntry.unstepped_or_oversized (hpad : w.IsRegular → w.Padded)
    (h : ¬w.SteppedOver) : w.Unstepped ∨ w.Oversized :=
  Cboot.unstepped_or_oversized fun h' => h (h'.imp_right fun hr => ⟨hr.1, hr.2, hpad hr.1⟩)

end stored

/-! ## Disks -/

/-- A sector with the header of an entry. -/
def writtenSector (w : WrittenEntry) : Memory := fun x =>
  if 0x7c ≤ x ∧ x < 0x7c + 12 then w.field.chars.getD (x - 0x7c) 0 else headerSector w.toEntry x

theorem isWritten_writtenSector (w : WrittenEntry) : IsWritten (writtenSector w) w := by
  have hother : ∀ x, x < 0x7c ∨ 0x7c + 12 ≤ x → writtenSector w x = headerSector w.toEntry x :=
    fun x hx => if_neg (by omega)
  have h := (isHeader_headerSector w.toEntry).isEntry
  refine ⟨⟨fun i hi => ?_, ?_, ?_, ?_⟩, w.field.length_chars.le, fun i hi => ?_⟩
  · rw [hother _ (by omega), h.signature i hi]
  · rw [hother _ (by decide), h.type]
  · rw [← h.namePrefix]
    exact fieldString_congr fun x h₁ _ => hother x (by omega)
  · rw [← h.name]
    exact fieldString_congr fun x _ h₂ => hother x (by omega)
  · rw [writtenSector, if_pos (by omega), Nat.add_sub_cancel_left]

/-- The disk with the headers of the entries, the first one in the sector `lba`. -/
def writtenArchive (disk : ℕ → Memory) : (lba : ℕ) → List WrittenEntry → ℕ → Memory
  | _, [] => disk
  | lba, w :: ws =>
    Function.update (writtenArchive disk (lba + 1 + w.dataSectors) ws) lba (writtenSector w)

section disk

variable {disk : ℕ → Memory} {lba s : ℕ} {ws : List WrittenEntry}

theorem writtenArchive_of_not_mem (h : s ∉ headers lba (writtenEntries ws)) :
    writtenArchive disk lba ws s = disk s := by
  induction ws generalizing lba with
  | nil => rfl
  | cons w ws ih =>
    obtain ⟨hne, h⟩ := not_or.1 (mt List.mem_cons.2 h)
    rw [writtenArchive, Function.update_of_ne hne, ih h]

/-- An archive is told by the sectors of its headers and the one that ends it. -/
theorem StoredWritten.congr {disk' : ℕ → Memory} (h : StoredWritten disk lba ws)
    (hd : ∀ s, s ∈ headers lba (writtenEntries ws) ∨ s = lba + sectors (writtenEntries ws) →
      disk' s = disk s) : StoredWritten disk' lba ws := by
  induction ws generalizing lba with
  | nil =>
    rw [StoredWritten, hd lba (.inr rfl)]
    exact h
  | cons w ws ih =>
    refine ⟨hd lba (.inl List.mem_cons_self) ▸ h.1, ih h.2 fun s hs => hd s ?_⟩
    rcases hs with hs | hs
    · exact .inl (List.mem_cons_of_mem _ hs)
    · rw [writtenEntries_cons, sectors_cons]
      omega

theorem storedWritten_writtenArchive
    (hend : ¬HasSignature (disk (lba + sectors (writtenEntries ws)))) :
    StoredWritten (writtenArchive disk lba ws) lba ws := by
  induction ws generalizing lba with
  | nil => exact hend
  | cons w ws ih =>
    rw [writtenEntries_cons, sectors_cons, ← Nat.add_assoc, ← Nat.add_assoc] at hend
    refine ⟨?_, (ih hend).congr fun s hs => ?_⟩
    · rw [writtenArchive, Function.update_self]
      exact isWritten_writtenSector w
    · refine Function.update_of_ne ?_ _ _
      rcases hs with hs | hs
      · have := le_of_mem_headers hs
        omega
      · omega

theorem not_hasSignature_zeros : ¬HasSignature fun _ => 0 := fun h =>
  absurd (show (0 : UInt8) = 0x75 from h 0 (by decide)) (by decide)

/-- One sector of data may be chosen. -/
theorem exists_storedWritten {ws₁ ws₂ : List WrittenEntry} {w : WrittenEntry}
    (hs₁ : lba + sectors (writtenEntries ws₁) < s)
    (hs₂ : s ≤ lba + sectors (writtenEntries ws₁) + w.dataSectors) (sector : Memory) :
    ∃ disk, StoredWritten disk lba (ws₁ ++ w :: ws₂) ∧ disk s = sector := by
  obtain ⟨h₁, h₂⟩ :=
    @not_mem_headers_of_data lba s (writtenEntries ws₁) (writtenEntries ws₂) w.toEntry hs₁ hs₂
  rw [← writtenEntries_cons, ← writtenEntries_append] at h₁ h₂
  refine ⟨writtenArchive (Function.update (fun _ _ => 0) s sector) lba (ws₁ ++ w :: ws₂),
    storedWritten_writtenArchive ?_, ?_⟩
  · rw [Function.update_of_ne h₂.symm]
    exact not_hasSignature_zeros
  · rw [writtenArchive_of_not_mem h₁, Function.update_self]

/-- There is a disk where no walk gets over a file that is too large: in its data is a header that
    the walk is stuck at. -/
theorem exists_strayed {gpte : GPTEntry} {ws₁ ws₂ : List WrittenEntry} {w : WrittenEntry}
    {e' : Entry} (hws : ∀ w ∈ ws₁, w.SteppedOver) (ho : w.Oversized) (hpad : w.Padded)
    (hu : e'.Unstepped)
    (hfit : gpte.startingLba.toNat + sectors (writtenEntries (ws₁ ++ w :: ws₂)) < 2 ^ 28) :
    ∃ disk, StoredWritten disk gpte.startingLba.toNat (ws₁ ++ w :: ws₂) ∧
      ∀ {select P}, Selects select P → (∀ e ∈ writtenEntries ws₁, ¬P e) → ¬P w.toEntry → ¬P e' →
        ∀ r, ¬(walkHeaders AtaDevice.ports gpte numSectorsU32 select (driveOf disk)).Returns r := by
  have hland := ho.wrappedSectors_lt
  obtain ⟨s, hs⟩ : ∃ s, s = gpte.startingLba.toNat + sectors (writtenEntries ws₁) + 1 +
    w.wrappedSectors := ⟨_, rfl⟩
  obtain ⟨disk, hst, hsector⟩ := @exists_storedWritten gpte.startingLba.toNat s ws₁ ws₂ w (by omega)
    (by omega) (headerSector e')
  have hheader := (isHeader_headerSector e').isEntry
  rw [← hsector, hs] at hheader
  have hw := hst.append.1
  rw [writtenEntries_append, writtenEntries_cons, sectors_append, sectors_cons] at hfit
  have hlt : gpte.startingLba.toNat + sectors (writtenEntries ws₁) + w.dataSectors < 2 ^ 28 := by
    omega
  exact ⟨disk, hst, fun hsel hes hn hn' r => walkHeaders_strayed
    (live_driveOf disk) hsel (hst.walked fun w hw => (hws w hw).passes_u32) hw.isEntry
    (hw.headerFilesize_eq hpad) hheader hes ho hn hu hn' hlt r⟩

end disk

/-! ## An archive -/

/-- The file `/a`, of one byte. -/
def writtenFile : WrittenEntry := ⟨oneFile, paddedOne, rfl⟩

/-- The size of the file of two sectors. -/
def sixHundred : SizeField where
  digits := [0, 0, 0, 0, 0, 0, 0, 1, 1, 3, 0]
  terminators := [0x20]
  digit_lt := by decide
  terminator := by simp
  length_pos := by decide
  length_le := by decide
  length_eq := rfl

/-- A directory, its size written with one digit, and a file of two sectors. -/
def someWritten : List WrittenEntry :=
  [⟨oneDirectory, shortOne, rfl⟩, ⟨twoSectorFile, sixHundred, rfl⟩]

end Cboot
