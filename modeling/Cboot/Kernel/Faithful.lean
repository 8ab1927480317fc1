import Cboot.Kernel.Image

/-!
# What is found in the pages of the kernel

The image that the loader makes, address by address, and whether it is that of the file:
every byte of a segment where its header says, and zeros after the data (`LoadedFaithfully`).

* `kernelState_walk`: an address is translated as the last segment says the pages of which
  contain it, to the frame of this segment: there is one frame for all of its pages;
* `kernelState_byte`: there, at the place of a byte of the file, is this byte if a segment
  has it, and zero if none has;
* `loadedFaithfully_iff`: so the kernel is loaded faithfully if and only if, page for page,
  what a segment is to have is what the first page of its last segment has.
-/

namespace Cboot

/-- The pages mapped for the segment contain the address `v`. -/
def SegmentCovers (h : ELF64ProgramHeader) (v : ℕ) : Prop :=
  h.vaddr / 0x1000 ≤ v / 0x1000 ∧ v / 0x1000 ≤ h.vaddr / 0x1000 + h.memsz / 0x1000

instance (h : ELF64ProgramHeader) (v : ℕ) : Decidable (SegmentCovers h v) :=
  inferInstanceAs (Decidable (_ ∧ _))

/-- The last segment whose pages contain the address `v`. -/
def lastSegment (m : Memory) (e v : ℕ) : Option ELF64ProgramHeader :=
  (imageSegments m e).reverse.find? fun h => SegmentCovers h v

/-- The data of some segment have the byte of the file at the offset `y`. -/
def HasData (m : Memory) (e y : ℕ) : Prop :=
  ∃ h ∈ imageSegments m e, h.offset ≤ y ∧ y < h.offset + h.filesz

instance (m : Memory) (e y : ℕ) : Decidable (HasData m e y) :=
  inferInstanceAs (Decidable (∃ h ∈ _, _))

/-- The byte at the offset `y` of the file, if a segment has it. -/
def imageByte (m : Memory) (e y : ℕ) : UInt8 := if HasData m e y then m (e + y) else 0

/-- The byte `k` of the segment in memory, as the file says. -/
def segmentByte (m : Memory) (e : ℕ) (h : ELF64ProgramHeader) (k : ℕ) : UInt8 :=
  if k < h.filesz then m (e + h.offset + k) else 0

/-- In the state `st`, every byte of the segments is where the file says. -/
def LoadedFaithfully (m : Memory) (e : ℕ) (st : PagingState) : Prop :=
  ∀ h ∈ imageSegments m e, ∀ k < h.memsz, ∃ t,
    pageWalk st.mem 0x1000 (h.vaddr + k) = some t ∧ st.mem t.paddr = segmentByte m e h k

/-! ## The map of the image -/

section map

variable {codeBuffer : ℕ} {h : ELF64ProgramHeader} {v : ℕ}

/-- Mapping the pages of a segment makes the calls for them. -/
theorem foldl_mapSegmentPage (codeBuffer : ℕ) (h : ELF64ProgramHeader) (is : List ℕ)
    (k : KernelImage) :
    is.foldl (mapSegmentPage imageMachine codeBuffer h) k =
      { k with map := (is.map fun i =>
        Call.map4kb (pageVaddr h i) (segmentFrame codeBuffer h)).foldl PageMap.call k.map } := by
  induction is generalizing k with
  | nil => rfl
  | cons i is ih => exact ih _

/-- The pages of a segment all lead to its one frame. -/
theorem foldl_segmentCalls (hz : h.Sized) (hw : InWindow h) (hv : 0xFFFF900000000000 ≤ v)
    (hv' : v < 2 ^ 64) (f : PageMap) :
    (segmentCalls codeBuffer h).foldl PageMap.call f v =
      if SegmentCovers h v then some ⟨segmentFrame codeBuffer h + v % 2 ^ 12, true⟩ else f v := by
  obtain ⟨hw₁, hw₂⟩ := hw
  have hn : numPages h = h.memsz / 0x1000 + 1 := by rw [numPages_eq hz, if_pos (by omega)]
  -- The page `i` contains the address if this is its distance from the first one.
  have hcover : ∀ i < numPages h,
      (Call.map4kb (pageVaddr h i) (segmentFrame codeBuffer h)).Covers v ↔
        v / 0x1000 = h.vaddr / 0x1000 + i := fun i hi => by
    simp only [Call.Covers, pageVaddr]
    omega
  rw [PageMap.call_lastCall, PageMap.lastCall]
  cases hlast : (segmentCalls codeBuffer h).reverse.find? fun call => call.Covers v with
  | none =>
    rw [List.find?_eq_none] at hlast
    rw [if_neg, Option.map_none, Option.none_or]
    rintro ⟨h₁, h₂⟩
    obtain ⟨i, hi⟩ := Nat.exists_eq_add_of_le h₁
    have hin : i < numPages h := by omega
    refine hlast _ (List.mem_reverse.2 (List.mem_map.2 ⟨i, List.mem_range.2 hin, rfl⟩)) ?_
    exact decide_eq_true ((hcover i hin).2 hi)
  | some call =>
    have hmem := List.mem_reverse.1 (List.mem_of_find?_eq_some hlast)
    have hc := List.find?_some hlast
    rw [decide_eq_true_eq] at hc
    obtain ⟨i, hi, rfl⟩ := List.mem_map.1 hmem
    have hi := List.mem_range.1 hi
    have hpage := (hcover i hi).1 hc
    rw [if_pos ⟨by omega, by omega⟩]
    rfl

end map

section image

variable {m : Memory} {total c size e len v y : ℕ}

/-- The map of the image: the last segment counts. -/
theorem foldl_loadSegment_map {hs : List ELF64ProgramHeader}
    (hhs : ∀ h ∈ hs, h ∈ imageSegments m e ∧ Loadable size len h)
    (hv : 0xFFFF900000000000 ≤ v) (hv' : v < 2 ^ 64) (k : KernelImage) :
    (hs.foldl (loadSegment imageMachine (0xFFFF800000000000 + e) (0xFFFF800000000000 + c))
        k).map v =
      ((hs.reverse.find? fun h => SegmentCovers h v).map fun h =>
        ⟨segmentFrame (0xFFFF800000000000 + c) h + v % 2 ^ 12, true⟩).or (k.map v) := by
  rw [← foldl_override SegmentCovers fun h v =>
    Translation.mk (segmentFrame (0xFFFF800000000000 + c) h + v % 2 ^ 12) true]
  have key : ∀ (f : PageMap) (k : KernelImage), k.map v = f v →
      (hs.foldl (loadSegment imageMachine (0xFFFF800000000000 + e) (0xFFFF800000000000 + c))
          k).map v =
        hs.foldl (fun f h v => if SegmentCovers h v then
          some (Translation.mk (segmentFrame (0xFFFF800000000000 + c) h + v % 2 ^ 12) true)
          else f v) f v := by
    induction hs with
    | nil => exact fun f k hk => hk
    | cons h hs ih =>
      intro f k hk
      obtain ⟨hmem, hh⟩ := hhs h List.mem_cons_self
      refine ih (fun h hh => hhs h (List.mem_cons_of_mem _ hh)) _ _ ?_
      rw [loadSegment, foldl_mapSegmentPage]
      refine (foldl_segmentCalls (sized_of_mem_segments hmem) hh.window hv hv' _).trans ?_
      exact if_congr Iff.rfl rfl hk
  exact key _ _ rfl

/-- The memory of the image: at the place of a byte of the file is this byte if a segment has
    it. -/
theorem foldl_loadSegment_mem (hl : ImageLayout m total c size e len)
    {hs : List ELF64ProgramHeader} (hhs : ∀ h ∈ hs, Loadable size len h) (hy : 0x1000 ≤ y)
    {k : KernelImage} (hk : ∀ x, e ≤ x → x < e + len → k.mem x = m x) :
    (hs.foldl (loadSegment imageMachine (0xFFFF800000000000 + e) (0xFFFF800000000000 + c)) k).mem
        (c + (y - 0x1000)) =
      if ∃ h ∈ hs, h.offset ≤ y ∧ y < h.offset + h.filesz then m (e + y)
      else k.mem (c + (y - 0x1000)) := by
  induction hs generalizing k with
  | nil => exact (if_neg fun ⟨_, h, _⟩ => List.not_mem_nil h).symm
  | cons h hs ih =>
    have hh := hhs h List.mem_cons_self
    have hdata := hh.data
    have hoffset := hh.offset
    -- Mapping the pages does not change the memory of the image.
    have hmem : (loadSegment imageMachine (0xFFFF800000000000 + e) (0xFFFF800000000000 + c)
          k h).mem =
        k.mem.copy (c + (h.offset - 0x1000)) (e + h.offset) h.filesz := by
      rw [loadSegment, foldl_mapSegmentPage, copySegment]
      simp only [imageMachine, segmentData_physical hl hh, fileData_physical hl hh]
    have hcopy : k.mem.copy (c + (h.offset - 0x1000)) (e + h.offset) h.filesz (c + (y - 0x1000)) =
        if h.offset ≤ y ∧ y < h.offset + h.filesz then m (e + y) else k.mem (c + (y - 0x1000)) := by
      split
      · rename_i hin
        have haddr : e + h.offset + (c + (y - 0x1000) - (c + (h.offset - 0x1000))) = e + y := by
          omega
        rw [Memory.copy_of_mem (by omega) (by omega), haddr, hk _ (by omega) (by omega)]
      · exact Memory.copy_of_not_mem (by omega)
    have hfile : ∀ x, e ≤ x → x < e + len →
        (loadSegment imageMachine (0xFFFF800000000000 + e) (0xFFFF800000000000 + c) k h).mem x =
          m x := fun x h₁ h₂ => by
      rw [loadSegment, foldl_mapSegmentPage]
      exact (copySegment_file hl hh k h₁ h₂).trans (hk x h₁ h₂)
    rw [List.foldl_cons, ih (fun h hh => hhs h (List.mem_cons_of_mem _ hh)) hfile, hmem, hcopy]
    by_cases hin : h.offset ≤ y ∧ y < h.offset + h.filesz
    · have hex : ∃ h' ∈ h :: hs, h'.offset ≤ y ∧ y < h'.offset + h'.filesz :=
        ⟨h, List.mem_cons_self, hin⟩
      rw [if_pos hin, if_pos hex, ite_self]
    · rw [if_neg hin]
      refine if_congr ?_ rfl rfl
      rw [List.exists_mem_cons_iff, or_iff_right hin]

end image

/-! ## After the loader -/

section faithful

variable {m : Memory} {total c size e len v k : ℕ} {h t : ELF64ProgramHeader}

/-- The window of the kernel is empty at first. -/
theorem pageWalk_window (m : Memory) (htotal : total ≤ 511 * 2 ^ 30)
    (hv : 0xFFFF900000000000 ≤ v) (hv' : v < 2 ^ 64) :
    pageWalk (setupPhysicalMap (.boot m) total).mem 0x1000 v = none := by
  have h₀ : l4Index v ≠ 0 := fun h => by
    have : v / 2 ^ 39 % 2 ^ 9 = 0 := congrArg Fin.val h
    omega
  have h₁ : l4Index v ≠ 256 := fun h => by
    have : v / 2 ^ 39 % 2 ^ 9 = 256 := congrArg Fin.val h
    omega
  rw [pageWalk, indices, Radix.walk, entries_start htotal h₀ h₁]
  rfl

/-- Every address of the window is translated to the frame of the last segment that covers
    it, if there is one. -/
theorem kernelState_walk (hl : ImageLayout m total c size e len)
    (hs : ∀ h ∈ imageSegments m e, Loadable size len h) (hpaths : (imagePaths m e).card ≤ 78)
    (hv : 0xFFFF900000000000 ≤ v) (hv' : v < 2 ^ 64) :
    pageWalk (kernelState (setupPhysicalMap (.boot m) total) e c).mem 0x1000 v =
      (lastSegment m e v).map fun t =>
        ⟨c + (t.offset / 0x1000 * 0x1000 + v % 0x1000 - 0x1000), true⟩ := by
  rw [(mapKernel_shows hl hs hpaths).refines.walk, kernelImage,
    foldl_loadSegment_map (fun h hh => ⟨hh, hs h hh⟩) hv hv', startImage_map,
    pageWalk_window m hl.total_le hv hv', Option.or_none, lastSegment]
  refine Option.map_congr fun t ht => ?_
  have hh := hs t (List.mem_reverse.1 (List.mem_of_find?_eq_some ht))
  have hoffset := hh.offset
  have haddr : c + (t.offset / 0x1000 * 0x1000 - 0x1000) + v % 2 ^ 12 =
      c + (t.offset / 0x1000 * 0x1000 + v % 0x1000 - 0x1000) := by omega
  rw [segmentFrame_physical hl hh, haddr]

/-- What is found in the page of a segment. -/
theorem kernelState_byte (hl : ImageLayout m total c size e len)
    (hs : ∀ h ∈ imageSegments m e, Loadable size len h) (hpaths : (imagePaths m e).card ≤ 78)
    (ht : t ∈ imageSegments m e) :
    (kernelState (setupPhysicalMap (.boot m) total) e c).mem
        (c + (t.offset / 0x1000 * 0x1000 + v % 0x1000 - 0x1000)) =
      imageByte m e (t.offset / 0x1000 * 0x1000 + v % 0x1000) := by
  have hoffset := (hs t ht).offset
  have hbuffer := hl.buffer
  rw [(mapKernel_shows hl hs hpaths).mem _ ⟨by omega, by omega⟩, kernelImage,
    foldl_loadSegment_mem hl hs (by omega) fun _ _ _ => by rw [startImage_mem], startImage_mem,
    imageByte]
  -- In the rest of the code buffer there are zeros.
  exact if_congr Iff.rfl rfl (hl.zero _ (by omega) (by omega))

/-- A byte of a segment is right if and only if the last segment has it in its first page. -/
theorem faithful_byte_iff (hl : ImageLayout m total c size e len)
    (hs : ∀ h ∈ imageSegments m e, Loadable size len h) (hpaths : (imagePaths m e).card ≤ 78)
    {st : PagingState} (hst : kernelState (setupPhysicalMap (.boot m) total) e c = st)
    (hh : h ∈ imageSegments m e) (hk : k < h.memsz) (b : UInt8) :
    (∃ t, pageWalk st.mem 0x1000 (h.vaddr + k) = some t ∧ st.mem t.paddr = b) ↔
      ∃ t, lastSegment m e (h.vaddr + k) = some t ∧
        imageByte m e (t.offset / 0x1000 * 0x1000 + (h.vaddr + k) % 0x1000) = b := by
  obtain ⟨hw₁, hw₂⟩ := (hs h hh).window
  have hwalk := kernelState_walk (v := h.vaddr + k) hl hs hpaths (by omega) (by omega)
  have hbyte : ∀ t, lastSegment m e (h.vaddr + k) = some t → _ := fun t ht =>
    kernelState_byte (v := h.vaddr + k) hl hs hpaths
      (List.mem_reverse.1 (List.mem_of_find?_eq_some ht))
  rw [hst] at hwalk hbyte
  rw [hwalk]
  constructor
  · rintro ⟨t, ht, hb⟩
    obtain ⟨t', ht', rfl⟩ := Option.map_eq_some_iff.1 ht
    exact ⟨t', ht', (hbyte t' ht').symm.trans hb⟩
  · rintro ⟨t, ht, hb⟩
    rw [ht]
    exact ⟨_, rfl, (hbyte t ht).trans hb⟩

/-- The kernel is loaded faithfully if and only if what every segment is to have at an address
    is what the file has at the same place of the first page of the last segment that covers
    the address. -/
theorem loadedFaithfully_iff (hl : ImageLayout m total c size e len)
    (hs : ∀ h ∈ imageSegments m e, Loadable size len h) (hpaths : (imagePaths m e).card ≤ 78) :
    LoadedFaithfully m e (kernelState (setupPhysicalMap (.boot m) total) e c) ↔
      ∀ h ∈ imageSegments m e, ∀ k < h.memsz, ∃ t, lastSegment m e (h.vaddr + k) = some t ∧
        imageByte m e (t.offset / 0x1000 * 0x1000 + (h.vaddr + k) % 0x1000) =
          segmentByte m e h k :=
  forall₂_congr fun _ hh => forall₂_congr fun _ hk => faithful_byte_iff hl hs hpaths rfl hh hk _

end faithful

/-! ## Two kernels -/

/-- A memory with a file of one segment, as `cboot_main` lays it out above a buffer at 1 MB. The
    first page of the file is followed by the byte `b`. -/
def oneSegmentMemory (h : ELF64ProgramHeader) (b : UInt8) : Memory :=
  Memory.set (fun x => oneSegment 0xFFFF80000A100000 h (0xFFFF800000000000 + x)) 0xA101000 b

section oneSegment

variable {h : ELF64ProgramHeader} {b : UInt8}

theorem oneSegmentMemory_of_not_mem {x : ℕ} (hx : x < 0xA100000 ∨ 0xA100078 ≤ x)
    (hb : x ≠ 0xA101000) : oneSegmentMemory h b x = 0 := by
  simp (disch := omega) only [oneSegmentMemory, Memory.set_of_ne, oneSegment,
    Memory.write_of_not_mem]

theorem headersKept_oneSegment (h : ELF64ProgramHeader) (b : UInt8) :
    HeadersKept (oneSegment 0xFFFF80000A100000 h) 0xFFFF80000A100000
      (physicalView (oneSegmentMemory h b)) := by
  refine (elfFile_oneSegment h (le_refl 120) (by decide)).headersKept fun a h₁ h₂ => ?_
  obtain ⟨y, rfl⟩ := Nat.exists_eq_add_of_le h₁
  have hy : (0xFFFF80000A100000 + y) % 2 ^ 47 = 0xA100000 + y := by omega
  rw [physicalView, hy, oneSegmentMemory, Memory.set_of_ne _ _ (by omega), ← Nat.add_assoc]

theorem imageLayout_oneSegment (h : ELF64ProgramHeader) (b : UInt8) :
    ImageLayout (oneSegmentMemory h b) (2 ^ 30) 0x100000 0xA000000 0xA100000 0x3000 where
  total_le := by decide
  aligned := rfl
  buffer := by decide
  file := by decide
  disjoint := .inl le_rfl
  zero := fun x _ hx => oneSegmentMemory_of_not_mem (.inl hx) (by omega)
  len_le := by decide
  elf := (elfFile_oneSegment h le_rfl (by decide)).of_headersKept (headersKept_oneSegment h b)
    (by decide) (by decide)

theorem imageSegments_oneSegment (hz : h.Sized) (ht : h.type = 1) :
    imageSegments (oneSegmentMemory h b) 0xA100000 = [h] :=
  (headersKept_oneSegment h b).segments_eq.trans (segments_oneSegment (by decide) hz ht)

/-- The only segment is the last one. -/
theorem lastSegment_singleton {m : Memory} {e v : ℕ} (hs : imageSegments m e = [h])
    (hv : SegmentCovers h v) : lastSegment m e v = some h := by
  rw [lastSegment, hs, List.reverse_singleton, List.find?_singleton, if_pos (decide_eq_true hv)]

theorem imageByte_singleton {m : Memory} {e : ℕ} (hs : imageSegments m e = [h]) (y : ℕ) :
    imageByte m e y = if h.offset ≤ y ∧ y < h.offset + h.filesz then m (e + y) else 0 := by
  refine if_congr ?_ rfl rfl
  rw [HasData, hs]
  simp only [List.mem_singleton, exists_eq_left]

theorem card_imagePaths {m : Memory} {e : ℕ} (hs : imageSegments m e = [h]) :
    (imagePaths m e).card = ((List.range (numPages h)).flatMap fun i =>
      (Call.map4kb (pageVaddr h i) 0).tablePaths).toFinset.card := by
  rw [imageSegments] at hs
  rw [imagePaths, kernelTablePaths, hs, List.flatMap_cons, List.flatMap_nil, List.append_nil]

/-- A kernel of one byte and zeros. -/
theorem loadedFaithfully_page :
    let m := oneSegmentMemory ⟨1, 0x1000, 0xFFFF900000000000, 1, 0x10, 0x1000⟩ 1
    LoadedFaithfully m 0xA100000
      (kernelState (setupPhysicalMap (.boot m) (2 ^ 30)) 0xA100000 0x100000) := by
  intro m
  have hs : imageSegments m 0xA100000 = [⟨1, 0x1000, 0xFFFF900000000000, 1, 0x10, 0x1000⟩] :=
    imageSegments_oneSegment (by decide) rfl
  have hpaths : (imagePaths m 0xA100000).card ≤ 78 := by
    rw [card_imagePaths hs]
    decide
  refine (loadedFaithfully_iff (imageLayout_oneSegment _ _) (fun h hh => ?_) hpaths).2
    fun h hh k hk => ?_
  · rw [hs, List.mem_singleton] at hh
    subst hh
    exact ⟨rfl, ⟨by decide, by decide⟩, .inr (by decide), by decide, by decide⟩
  · rw [hs, List.mem_singleton] at hh
    subst hh
    have hk : k < 0x10 := hk
    refine ⟨_, lastSegment_singleton hs ⟨?_, ?_⟩, ?_⟩
    · change 0xFFFF900000000000 / 0x1000 ≤ (0xFFFF900000000000 + k) / 0x1000
      omega
    · change (0xFFFF900000000000 + k) / 0x1000 ≤ 0xFFFF900000000000 / 0x1000 + 0x10 / 0x1000
      omega
    · -- All of the segment is in its first page.
      have hy : 0x1000 / 0x1000 * 0x1000 + (0xFFFF900000000000 + k) % 0x1000 = 0x1000 + k := by
        omega
      rw [imageByte_singleton hs, segmentByte]
      simp only [hy, ← Nat.add_assoc]
      exact if_congr (by omega) rfl rfl

/-- The second page of a kernel of one byte more than a page is that of the first one again:
    the last byte is zero in the file, and one in memory. -/
theorem not_loadedFaithfully_second_page :
    let h : ELF64ProgramHeader := ⟨1, 0x1000, 0xFFFF900000000000, 0x1001, 0x1001, 0x1000⟩
    let m := oneSegmentMemory h 1
    ImageLayout m (2 ^ 30) 0x100000 0xA000000 0xA100000 0x3000 ∧
      imageSegments m 0xA100000 = [h] ∧ Loadable 0xA000000 0x3000 h ∧
      ¬LoadedFaithfully m 0xA100000
        (kernelState (setupPhysicalMap (.boot m) (2 ^ 30)) 0xA100000 0x100000) := by
  intro h m
  have hl := imageLayout_oneSegment h 1
  have hs : imageSegments m 0xA100000 = [h] := imageSegments_oneSegment (by decide) rfl
  have hh : Loadable 0xA000000 0x3000 h :=
    ⟨rfl, ⟨by decide, by decide⟩, .inr (by decide), by decide, by decide⟩
  have hmem : h ∈ imageSegments m 0xA100000 := hs.symm ▸ List.mem_singleton_self h
  have hload : ∀ h ∈ imageSegments m 0xA100000, Loadable 0xA000000 0x3000 h := fun h' hh' => by
    rw [hs, List.mem_singleton] at hh'
    exact hh' ▸ hh
  have hpaths : (imagePaths m 0xA100000).card ≤ 78 := by
    rw [card_imagePaths hs]
    decide
  refine ⟨hl, hs, hh, fun hf => ?_⟩
  obtain ⟨t, ht, hb⟩ := (faithful_byte_iff (k := 0x1000) hl hload hpaths rfl hmem (by decide) _).1
    (hf h hmem 0x1000 (by decide))
  obtain rfl : h = t := Option.some.inj
    ((lastSegment_singleton hs ⟨by decide, by decide⟩).symm.trans ht)
  have hfirst : m (0xA100000 + 0x1000) = 1 := Memory.set_self _ _ _
  have hlast : m (0xA100000 + 0x1000 + 0x1000) = 0 :=
    oneSegmentMemory_of_not_mem (.inr (by decide)) (by decide)
  have hbyte : imageByte m 0xA100000 0x1000 = 1 := by
    rw [imageByte_singleton hs, if_pos (by decide), hfirst]
  have hwanted : segmentByte m 0xA100000 h 0x1000 = 0 := by
    rw [segmentByte, if_pos (by decide)]
    exact hlast
  have haddr : h.offset / 0x1000 * 0x1000 + (h.vaddr + 0x1000) % 0x1000 = 0x1000 := by decide
  rw [haddr, hwanted, hbyte] at hb
  exact absurd hb (by decide)

end oneSegment

end Cboot
