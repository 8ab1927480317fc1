import Cboot.Archive.Lookup

/-!
# Walkers that leave the headers

What becomes of a walker at an entry that it does not pass.

* An entry of a type that the walkers have no step for is read again and again
  (`diverges_stuck`);
* a file whose size does not survive 32 bits makes a walker land in the data of the file
  (`Entry.Oversized.wrappedSectors_lt`), where it takes for a header whatever it finds
  (`loop_lands`). The data may be a header of its own, for an entry that it is stuck at
  (`walkHeaders_strayed`) or for the path that it is looking for.
-/

namespace Cboot

open AtaDevice Fueled

/-- The entry is of a type for which the walkers do not step. -/
def Entry.Unstepped (e : Entry) : Prop := ¬e.IsDirectory ∧ ¬e.IsRegular

/-- The size of a file is too large for the walkers that keep it in 32 bits. -/
def Entry.Oversized (e : Entry) : Prop := e.IsRegular ∧ 2 ^ 32 - 512 < e.size

/-- An entry that is never stepped over. -/
def linkEntry : Entry := { oneFile with
  name := []
  type := 0x31
  name_length := Nat.zero_le _
  ne_zero := fun _ hc => absurd hc List.not_mem_nil }

instance (e : Entry) : Decidable e.Unstepped := inferInstanceAs (Decidable (_ ∧ _))

instance (e : Entry) : Decidable e.Oversized := inferInstanceAs (Decidable (_ ∧ _))

/-- The sectors that these walkers take the file to have. -/
def Entry.wrappedSectors (e : Entry) : ℕ := (e.size + 511) % 2 ^ 32 / 512

/-- They land in the data of the file. -/
theorem Entry.Oversized.wrappedSectors_lt {e : Entry} (h : e.Oversized) :
    e.wrappedSectors < e.dataSectors := by
  have h₁ := h.2
  have h₂ := e.size_lt
  rw [wrappedSectors, e.dataSectors_of_isRegular h.1]
  omega

theorem seekerAfter_unstepped {e : Entry} (h : e.Unstepped) (seeker : UInt64) (n : UInt32) :
    seekerAfter e.type seeker n = seeker := by
  have h₁ : ¬(e.type = 0 ∨ e.type = 0x30) := h.2
  have h₂ : ¬e.type = 0x35 := h.1
  rw [seekerAfter, if_neg h₁, if_neg h₂]

theorem seekerAfter_oversized {e : Entry} (h : e.Oversized) {seeker : UInt64}
    (hs : seeker.toNat < 2 ^ 28) :
    (seekerAfter e.type seeker (numSectorsU32 (.ofNat e.size))).toNat =
      seeker.toNat + 1 + e.wrappedSectors := by
  have hone : (1 : UInt64).toNat = 1 := rfl
  have htype : e.type = 0 ∨ e.type = 0x30 := h.1
  have hlt := h.wrappedSectors_lt
  have hlt' := e.dataSectors_lt
  rw [seekerAfter, if_pos htype, UInt64.toNat_add, UInt64.toNat_add, hone, UInt32.toNat_toUInt64,
    numSectorsU32_toNat]
  rw [Entry.wrappedSectors] at *
  omega

/-- Some entry that is not stepped over has another path. -/
theorem exists_unstepped_path_ne (p : List UInt8) : ∃ e : Entry, e.Unstepped ∧ e.path ≠ p := by
  by_cases h : linkEntry.path = p
  · refine ⟨{ oneFile with type := 0x31 }, by decide, ?_⟩
    rw [← h]
    decide
  · exact ⟨linkEntry, by decide, h⟩

section stray

variable {d : AtaDevice} {gpte : GPTEntry} {numSectors : UInt64 → UInt32} {select : Memory → Bool}
  {P : Entry → Prop} {es rest : List Entry} {e e' : Entry}

/-- A walker stays at the header of an entry that it neither selects nor steps over. -/
theorem diverges_stuck (numSectors : UInt64 → UInt32) {seeker : UInt64} {lba : ℕ} (hl : d.Live)
    (hs : seeker.toNat + gpte.startingLba.toNat = lba) (hlba : lba < 2 ^ 28)
    (hsel : Selects select P) (he : IsEntry (d.disk lba) e) (hu : e.Unstepped) (hn : ¬P e)
    (buf : Memory) :
    (loop (headerRound ports gpte numSectors select) (d, buf, seeker)).Diverges := by
  -- The disk does not change, nor does the seeker.
  refine diverges_loop (I := fun s => s.1.Live ∧ s.1.disk = d.disk ∧ s.2.2 = seeker)
    ⟨hl, rfl, rfl⟩ ?_
  rintro ⟨d₁, buf₁, seeker₁⟩ ⟨hl₁, hd₁, rfl⟩
  have hd₁ : d₁.disk = d.disk := hd₁
  obtain ⟨d₂, buf₂, ha₂, h₂⟩ :=
    headerRound_steps numSectors hl₁ hs hlba hsel (hd₁ ▸ he) hn buf₁
  rw [seekerAfter_unstepped hu] at h₂
  exact ⟨_, h₂, ha₂.live hl₁, ha₂.disk.trans hd₁, rfl⟩

/-- A walk that comes to such a header does not end. -/
theorem walkHeaders_stuck (hl : d.Live) (hsel : Selects select P)
    (hst : Walked numSectors d.disk gpte.startingLba.toNat es)
    (he : IsEntry (d.disk (gpte.startingLba.toNat + sectors es)) e) (hes : ∀ e ∈ es, ¬P e)
    (hu : e.Unstepped) (hn : ¬P e) (hlt : gpte.startingLba.toNat + sectors es < 2 ^ 28)
    (r : AtaDevice × Option (UInt64 × Memory)) :
    ¬(walkHeaders ports gpte numSectors select d).Returns r := by
  -- The walk passes the entries in front, and comes to the header.
  obtain ⟨d₁, buf₁, seeker₁, ha₁, hs₁, h₁⟩ := loop_passes hl (zero_add_startingLba gpte) hsel
    hst hes hlt (memset (fun _ => 0) 0 0 512)
  have hd := diverges_stuck numSectors (ha₁.live hl) hs₁ hlt hsel (ha₁.disk ▸ he) hu hn buf₁
  exact fun hr => diverges_iff.1 hd r ((h₁ r).1 hr)

/-- A walk that passes entries and comes to an oversized file lands in the data of the file. -/
theorem loop_lands (hl : d.Live) (hsel : Selects select P)
    (hst : Walked numSectorsU32 d.disk gpte.startingLba.toNat es)
    (he : IsEntry (d.disk (gpte.startingLba.toNat + sectors es)) e)
    (hsize : headerFilesize (d.disk (gpte.startingLba.toNat + sectors es)) = .ofNat e.size)
    (hes : ∀ e ∈ es, ¬P e) (ho : e.Oversized) (hn : ¬P e)
    (hlt : gpte.startingLba.toNat + sectors es + e.dataSectors < 2 ^ 28) :
    ∃ d' buf seeker, d'.Live ∧ d'.disk = d.disk ∧
      seeker.toNat + gpte.startingLba.toNat =
        gpte.startingLba.toNat + sectors es + 1 + e.wrappedSectors ∧
      ∀ r, (walkHeaders ports gpte numSectorsU32 select d).Returns r ↔
        (loop (headerRound ports gpte numSectorsU32 select) (d', buf, seeker)).Returns r := by
  have hlt' := ho.wrappedSectors_lt
  obtain ⟨d₁, buf₁, seeker₁, ha₁, hs₁, h₁⟩ := loop_passes hl (zero_add_startingLba gpte) hsel
    hst hes (by omega) (memset (fun _ => 0) 0 0 512)
  obtain ⟨d₂, buf₂, ha₂, h₂⟩ := headerRound_steps numSectorsU32 (ha₁.live hl) hs₁ (by omega) hsel
    (ha₁.disk ▸ he) hn buf₁
  rw [ha₁.disk, hsize] at h₂
  -- The number of sectors is computed in 32 bits: the step is too short.
  have hs₂ := seekerAfter_oversized ho (show seeker₁.toNat < 2 ^ 28 by omega)
  refine ⟨d₂, buf₂, _, (ha₁.trans ha₂).live hl, (ha₁.trans ha₂).disk, ?_,
    fun r => (h₁ r).trans (Returns.loop_iff h₂)⟩
  omega

/-- A walk that strays to a header where it is stuck does not end. -/
theorem walkHeaders_strayed (hl : d.Live) (hsel : Selects select P)
    (hst : Walked numSectorsU32 d.disk gpte.startingLba.toNat es)
    (he : IsEntry (d.disk (gpte.startingLba.toNat + sectors es)) e)
    (hsize : headerFilesize (d.disk (gpte.startingLba.toNat + sectors es)) = .ofNat e.size)
    (hheader : IsEntry (d.disk (gpte.startingLba.toNat + sectors es + 1 + e.wrappedSectors)) e')
    (hes : ∀ e ∈ es, ¬P e) (ho : e.Oversized) (hn : ¬P e) (hu : e'.Unstepped) (hn' : ¬P e')
    (hlt : gpte.startingLba.toNat + sectors es + e.dataSectors < 2 ^ 28)
    (r : AtaDevice × Option (UInt64 × Memory)) :
    ¬(walkHeaders ports gpte numSectorsU32 select d).Returns r := by
  obtain ⟨d₁, buf₁, seeker₁, hl₁, hd₁, hs₁, h₁⟩ := loop_lands hl hsel hst he hsize hes ho hn
    hlt
  have hlt' := ho.wrappedSectors_lt
  rw [← hd₁] at hheader
  have hd := diverges_stuck numSectorsU32 hl₁ hs₁ (by omega) hsel hheader hu hn' buf₁
  exact fun hr => diverges_iff.1 hd r ((h₁ r).1 hr)

/-- The disk with the header of the entry `e'` where such a walk lands. -/
def strayDisk (gpte : GPTEntry) (es : List Entry) (e : Entry) (rest : List Entry) (e' : Entry) :
    ℕ → Memory :=
  Function.update (archive gpte.startingLba.toNat (es ++ e :: rest))
    (gpte.startingLba.toNat + sectors es + 1 + e.wrappedSectors) (headerSector e')

theorem stored_strayDisk (gpte : GPTEntry) (ho : e.Oversized) (es rest : List Entry) (e' : Entry) :
    Stored (strayDisk gpte es e rest e') gpte.startingLba.toNat (es ++ e :: rest) := by
  have := ho.wrappedSectors_lt
  exact (stored_archive _ _).update_data (by omega) (by omega) _

/-- The header found there. -/
theorem isHeader_strayDisk (gpte : GPTEntry) (es rest : List Entry) (e e' : Entry) :
    IsHeader (strayDisk gpte es e rest e'
      (gpte.startingLba.toNat + sectors es + 1 + e.wrappedSectors)) e' := by
  rw [strayDisk, Function.update_self]
  exact isHeader_headerSector e'

/-- A list not all of which is as it should be has a first element that is not. -/
theorem exists_first_not {α : Type} {p : α → Prop} {l : List α} (h : ¬∀ a ∈ l, p a) :
    ∃ l₁ a l₂, l = l₁ ++ a :: l₂ ∧ (∀ b ∈ l₁, p b) ∧ ¬p a := by
  induction l with
  | nil => exact absurd (fun a ha => absurd ha List.not_mem_nil) h
  | cons a l ih =>
    by_cases ha : p a
    · obtain ⟨l₁, b, l₂, rfl, h₁, h₂⟩ := ih fun hl => h (List.forall_mem_cons.2 ⟨ha, hl⟩)
      exact ⟨a :: l₁, b, l₂, rfl, List.forall_mem_cons.2 ⟨ha, h₁⟩, h₂⟩
    · exact ⟨[], a, l, rfl, fun b hb => absurd hb List.not_mem_nil, ha⟩

/-- What a 32-bit walker does not pass is of a type that has no step, or too large. -/
theorem unstepped_or_oversized (h : ¬(e.IsDirectory ∨ e.IsRegular ∧ e.size ≤ 2 ^ 32 - 512)) :
    e.Unstepped ∨ e.Oversized := by
  obtain ⟨hd, hr⟩ := not_or.1 h
  by_cases hreg : e.IsRegular
  · exact .inr ⟨hreg, Nat.lt_of_not_le fun hle => hr ⟨hreg, hle⟩⟩
  · exact .inl ⟨hd, hreg⟩

end stray

end Cboot
