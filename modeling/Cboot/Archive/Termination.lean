import Cboot.Archive.Written
import Mathlib.Data.List.Nodup

/-!
# The walkers end

Whether the walkers end is a matter of what they do at each entry of an archive: they end
if they step over all of them. Where the sizes of all files are written with eleven digits,
there is always data that keeps `ustar_list_files` going forever if there is an entry that
they do not step over (`walksEnd_iff`). A size of less digits is taken for another one, and
takes the walkers to another sector, of which nothing is said here.
-/

namespace Cboot

open AtaDevice Fueled

/-- The computation ends, and no read command is given twice for one sector. -/
def ReadsOnce {α : Type} (d : AtaDevice) (c : Fueled α) (device : α → AtaDevice) : Prop :=
  ∃ a cmds, c.Returns a ∧ After d (device a) cmds ∧ (cmds.map Prod.fst).Nodup

/-- All walkers end, visiting every header at most once. -/
structure WalksEnd (d : AtaDevice) (m : Memory) (gpte : GPTEntry) (path dstBuf : ℕ) : Prop where
  listFiles : ReadsOnce d (ustarListFiles ports d gpte) id
  getFilesize : ReadsOnce d (ustarGetFilesize ports d m gpte path) (·.1)
  loadFile : ReadsOnce d (ustarLoadFile ports d m gpte path dstBuf) (·.1.1)

section reads

variable {lba : ℕ} {es : List Entry}

theorem nodup_headers (lba : ℕ) (es : List Entry) : (headers lba es).Nodup := by
  induction es generalizing lba with
  | nil => exact List.nodup_nil
  | cons e es ih =>
    refine List.nodup_cons.2 ⟨fun h => ?_, ih _⟩
    have := le_of_mem_headers h
    omega

/-- The sectors read by a walk, and those that follow them. -/
theorem nodup_headerReads {l : List (ℕ × ℕ)} (hl : (l.map Prod.fst).Nodup)
    (hle : ∀ s ∈ l.map Prod.fst, lba + sectors es ≤ s) :
    ((headerReads lba es ++ l).map Prod.fst).Nodup := by
  have hfst : (headerReads lba es).map Prod.fst = headers lba es := by
    rw [headerReads, List.map_map]
    exact List.map_id _
  rw [List.map_append, hfst]
  refine List.Nodup.append (nodup_headers lba es) hl fun s hs hs' => ?_
  have h₁ := le_of_mem_headers hs
  have h₂ := hle s hs'
  omega

end reads

section walksEnd

variable {d : AtaDevice} {m : Memory} {gpte : GPTEntry} {path dstBuf : ℕ} {es : List Entry}
  {ws : List WrittenEntry} {p : List UInt8}

/-- A walk for a path reads every sector once. -/
theorem nodup_lookupReads (lba : ℕ) (es : List Entry) (p : List UInt8) :
    ((lookupReads lba es p).map Prod.fst).Nodup :=
  nodup_headerReads (List.nodup_singleton _) fun s hs => by
    rw [List.map_singleton, List.mem_singleton] at hs
    exact hs.ge

section steppedOver

variable (hl : d.Live) (hst : StoredWritten d.disk gpte.startingLba.toNat ws)
  (hfit : gpte.startingLba.toNat + sectors (writtenEntries ws) < 2 ^ 28) (hp : CString m path p)
  (hws : ∀ w ∈ ws, w.SteppedOver)

include hl hst hfit hws

theorem readsOnce_ustarListFiles : ReadsOnce d (ustarListFiles ports d gpte) id := by
  rw [← List.append_nil ws] at hst
  obtain ⟨d', ha, h⟩ := walkHeaders_none hl selects_never
    (hst.walked fun w hw => (hws w hw).passes_u32) hst.append (fun _ _ => not_false) hfit
  refine ⟨d', _, h.bind_iff.2 (returns_pure_iff.2 rfl), ha,
    nodup_headerReads (List.nodup_singleton _) fun s hs => ?_⟩
  rw [List.map_singleton, List.mem_singleton] at hs
  exact hs.ge

include hp

theorem readsOnce_ustarGetFilesize :
    ReadsOnce d (ustarGetFilesize ports d m gpte path) (·.1) := by
  have hw := hst.walked_entriesBefore p fun w hw => (hws w hw).passes_u64
  obtain ⟨d', ha, h⟩ := walkHeaders_of_walked hl hw (hst.headersAt.lookupEnd p) hfit hp
  cases hlook : lookup (writtenEntries ws) p with
  | some e =>
    rw [hlook] at h
    obtain ⟨seeker, buf, _, _, h⟩ := h
    exact ⟨_, _, h.bind_iff.2 (returns_pure_iff.2 rfl), ha, nodup_lookupReads _ _ _⟩
  | none =>
    rw [hlook] at h
    exact ⟨_, _, h.bind_iff.2 (returns_pure_iff.2 rfl), ha, nodup_lookupReads _ _ _⟩

/-- The data of the file that is loaded follow its header. -/
theorem readsOnce_ustarLoadFile :
    ReadsOnce d (ustarLoadFile ports d m gpte path dstBuf) (·.1.1) := by
  have hw := hst.walked_entriesBefore p fun w hw => (hws w hw).passes_u32
  have hend := hst.headersAt.lookupEnd p
  rcases lookup_cases (writtenEntries ws) p with ⟨e, rest, hlook, hpath, _⟩ | ⟨hlook, _⟩
  · rw [LookupEnd, hlook] at hend
    have hlt := sectors_lookup_lt hlook
    obtain ⟨d', ha, h⟩ := ustarLoadFile_of_walked hl hw hend (by omega) hp
      (fun e he => path_ne_of_mem_entriesBefore he) hpath rfl dstBuf
    refine ⟨_, _, h, ha, ?_⟩
    rw [List.append_assoc]
    -- The last two reads are those of the header found and of the sectors after it.
    refine nodup_headerReads (by simp) fun s hs => ?_
    simp only [List.cons_append, List.nil_append, List.map_cons, List.map_nil, List.mem_cons,
      List.not_mem_nil, or_false] at hs
    omega
  · obtain ⟨d', ha, h⟩ := walkHeaders_of_walked hl hw hend hfit hp
    rw [hlook] at h
    exact ⟨_, _, h.bind_iff.2 (returns_pure_iff.2 rfl), ha, nodup_lookupReads _ _ _⟩

/-- Walkers that step over all entries end. -/
theorem walksEnd_of_steppedOver : WalksEnd d m gpte path dstBuf :=
  ⟨readsOnce_ustarListFiles hl hst hfit hws, readsOnce_ustarGetFilesize hl hst hfit hp hws,
    readsOnce_ustarLoadFile hl hst hfit hp hws⟩

end steppedOver

/-- The walkers end on every disk with the entries in the partition, whatever their data. -/
def EndAlways (gpte : GPTEntry) (ws : List WrittenEntry) : Prop :=
  ∀ d m path p dstBuf, d.Live → StoredWritten d.disk gpte.startingLba.toNat ws → CString m path p →
    WalksEnd d m gpte path dstBuf

/-- At an entry that is not stepped over, `ustar_list_files` does not end. -/
theorem not_walksEnd_of_unstepped {ws₁ ws₂ : List WrittenEntry} {w : WrittenEntry} (hl : d.Live)
    (hst : StoredWritten d.disk gpte.startingLba.toNat (ws₁ ++ w :: ws₂))
    (hws : ∀ w ∈ ws₁, w.SteppedOver) (hu : w.Unstepped)
    (hlt : gpte.startingLba.toNat + sectors (writtenEntries ws₁) < 2 ^ 28) :
    ¬WalksEnd d m gpte path dstBuf := by
  rintro ⟨⟨_, _, h, _⟩, _, _⟩
  obtain ⟨r, hr, _⟩ := returns_bind_iff.1 h
  exact walkHeaders_stuck hl selects_never (hst.walked fun w hw => (hws w hw).passes_u32)
    hst.append.1.isEntry (fun _ _ => not_false) hu not_false hlt r hr

/-- Nor does it end at a file that is too large, when the data of the file hold the header of an
    entry that is not stepped over. -/
theorem not_endAlways_of_oversized {ws₁ ws₂ : List WrittenEntry} {w : WrittenEntry}
    (hfit : gpte.startingLba.toNat + sectors (writtenEntries (ws₁ ++ w :: ws₂)) < 2 ^ 28)
    (hws : ∀ w ∈ ws₁, w.SteppedOver) (ho : w.Oversized) (hpad : w.Padded) :
    ¬EndAlways gpte (ws₁ ++ w :: ws₂) := by
  intro h
  have hu : linkEntry.Unstepped := by decide
  obtain ⟨disk, hst, hstrayed⟩ := exists_strayed hws ho hpad hu hfit
  obtain ⟨⟨_, _, hr, _⟩, _, _⟩ := h (driveOf disk) (fun _ => 0) 0 [] 0 (live_driveOf _) hst rfl
  obtain ⟨r, hr, _⟩ := returns_bind_iff.1 hr
  exact hstrayed selects_never (fun _ _ => not_false) not_false not_false r hr

/-- The walkers end on an archive, whatever its data, if they step over all of its entries: it
    has no links, devices, pipes or entries of an unknown type, and no file whose size, rounded
    up to sectors, is not less than 4 GiB, or written with less than eleven digits. This is
    needed where all sizes of files are written with eleven digits. -/
theorem walksEnd_iff (hfit : gpte.startingLba.toNat + sectors (writtenEntries ws) < 2 ^ 28) :
    ((∀ w ∈ ws, w.SteppedOver) → EndAlways gpte ws) ∧
    ((∀ w ∈ ws, w.IsRegular → w.Padded) → EndAlways gpte ws → ∀ w ∈ ws, w.SteppedOver) := by
  refine ⟨fun hws d m path p dstBuf hl hst hp => walksEnd_of_steppedOver hl hst hfit hp hws,
    fun hpad h => ?_⟩
  by_contra hbad
  obtain ⟨ws₁, w, ws₂, rfl, hws, hw⟩ := exists_first_not hbad
  have hpad := hpad w (List.mem_append_right _ List.mem_cons_self)
  rcases w.unstepped_or_oversized hpad hw with hu | ho
  · obtain ⟨disk, hst⟩ : ∃ disk, StoredWritten disk gpte.startingLba.toNat (ws₁ ++ w :: ws₂) :=
      ⟨_, @storedWritten_writtenArchive (fun _ _ => 0) _ _ not_hasSignature_zeros⟩
    rw [writtenEntries_append, sectors_append] at hfit
    exact not_walksEnd_of_unstepped (live_driveOf disk) hst hws hu (by omega)
      (h (driveOf disk) (fun _ => 0) 0 [] 0 (live_driveOf disk) hst rfl)
  · exact not_endAlways_of_oversized hfit hws ho (hpad ho.1) h

/-- A directory, a file of two sectors and the file `/a`. -/
theorem walksEnd_someWritten :
    WalksEnd (driveOf (writtenArchive (fun _ _ => 0) 2048 (someWritten ++ [writtenFile]))) onePath
      onePartition 0 0x100000 :=
  (@walksEnd_iff onePartition (someWritten ++ [writtenFile]) (by decide)).1 (by decide) _ _ _
    writtenFile.path _ (live_driveOf _) (storedWritten_writtenArchive not_hasSignature_zeros)
    ⟨rfl, by decide, rfl, by decide, rfl⟩

/-- A link, its size written with eleven digits. -/
def writtenLink : WrittenEntry := ⟨linkEntry, paddedOne, writtenFile.value⟩

/-- On an archive of one link, they do not end. -/
theorem not_walksEnd_link :
    StoredWritten (writtenArchive (fun _ _ => 0) 2048 [writtenLink]) 2048 [writtenLink] ∧
    ¬WalksEnd (driveOf (writtenArchive (fun _ _ => 0) 2048 [writtenLink])) onePath onePartition 0
      0x100000 := by
  have hst : StoredWritten (writtenArchive (fun _ _ => 0) 2048 [writtenLink]) 2048 [writtenLink] :=
    storedWritten_writtenArchive not_hasSignature_zeros
  refine ⟨hst, ?_⟩
  exact @not_walksEnd_of_unstepped (driveOf (writtenArchive (fun _ _ => 0) 2048 [writtenLink]))
    onePath onePartition 0 0x100000 [] [] writtenLink (live_driveOf _) hst
    (fun w hw => absurd hw List.not_mem_nil) (by decide) (by decide)

end walksEnd

end Cboot
