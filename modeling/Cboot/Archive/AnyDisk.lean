import Cboot.Archive.Walk

/-!
# Walking any disk

What the readers of files do on a disk of which nothing is known: its sectors may hold
headers of an archive, or anything else.

* `StopsAt`: where the walk for a path stops, told by the sectors that it comes by;
* `walkHeaders_of_stopsAt`, `stopsAt_of_walkHeaders`: the loop of the walkers stops there,
  and does not end if there is no such sector;
* `ustarLoadFile_found`: what is loaded from there.
-/

namespace Cboot

open AtaDevice Fueled

/-! ## Sectors in a buffer -/

section congr

variable {buf sector : Memory}

theorem hasSignature_congr (h : ∀ x < 512, buf x = sector x) :
    hasSignature buf = true ↔ HasSignature sector := by
  rw [hasSignature_iff]
  exact forall₂_congr fun i hi => by rw [h _ (by omega)]

theorem headerPath_congr (h : ∀ x < 512, buf x = sector x) :
    headerPath buf = headerPath sector := by
  rw [headerPath, headerPath, fieldString_congr fun x _ hx => h x (by omega),
    fieldString_congr fun x _ hx => h x (by omega)]

end congr

/-! ## Where a walk stops -/

/-- Where a walk for the path `p` that has come to `seeker` stops: at a header of the path,
    or at a sector that is not a header. -/
inductive StopsAt (disk : ℕ → Memory) (gpte : GPTEntry) (numSectors : UInt64 → UInt32)
    (p : List UInt8) : UInt64 → Option UInt64 → Prop
  | last {seeker : UInt64} (h : ¬HasSignature (disk (sectorAt gpte seeker))) :
      StopsAt disk gpte numSectors p seeker none
  | found {seeker : UInt64} (h : HasSignature (disk (sectorAt gpte seeker)))
      (hp : headerPath (disk (sectorAt gpte seeker)) = p) :
      StopsAt disk gpte numSectors p seeker (some seeker)
  | next {seeker : UInt64} {r : Option UInt64}
      (h : HasSignature (disk (sectorAt gpte seeker)))
      (hp : headerPath (disk (sectorAt gpte seeker)) ≠ p)
      (hr : StopsAt disk gpte numSectors p (seekerAfter (headerType (disk (sectorAt gpte seeker)))
        seeker (numSectors (headerFilesize (disk (sectorAt gpte seeker))))) r) :
      StopsAt disk gpte numSectors p seeker r

theorem StopsAt.unique {disk : ℕ → Memory} {gpte : GPTEntry} {numSectors : UInt64 → UInt32}
    {p : List UInt8} {seeker : UInt64} {r r' : Option UInt64}
    (h : StopsAt disk gpte numSectors p seeker r) (h' : StopsAt disk gpte numSectors p seeker r') :
    r = r' := by
  induction h with
  | last hsig =>
    cases h' with
    | last => rfl
    | found h => exact absurd h hsig
    | next h => exact absurd h hsig
  | found hsig hpath =>
    cases h' with
    | last h => exact absurd hsig h
    | found => rfl
    | next _ hp => exact absurd hpath hp
  | next hsig hpath _ ih =>
    cases h' with
    | last h => exact absurd hsig h
    | found _ hp => exact absurd hp hpath
    | next _ _ hr => exact ih hr

section walk

variable {d : AtaDevice} {m : Memory} {gpte : GPTEntry} {numSectors : UInt64 → UInt32}
  {path : ℕ} {p : List UInt8} {seeker : UInt64} {r : Option UInt64}

/-- A round, told by the sector that it reads. -/
theorem headerRound_sector (numSectors : UInt64 → UInt32) (gpte : GPTEntry) (seeker : UInt64)
    (hl : d.Live) (hp : CString m path p) (buf : Memory) :
    ∃ d' buf', After d d' [(sectorAt gpte seeker, 1)] ∧
      (∀ x < 512, buf' x = d.disk (sectorAt gpte seeker) x) ∧
      (¬HasSignature (d.disk (sectorAt gpte seeker)) →
        (headerRound ports gpte numSectors (matchesPath m path) (d, buf, seeker)).Returns
          (.inr (d', none))) ∧
      (HasSignature (d.disk (sectorAt gpte seeker)) →
        headerPath (d.disk (sectorAt gpte seeker)) = p →
        (headerRound ports gpte numSectors (matchesPath m path) (d, buf, seeker)).Returns
          (.inr (d', some (seeker, buf')))) ∧
      (HasSignature (d.disk (sectorAt gpte seeker)) →
        headerPath (d.disk (sectorAt gpte seeker)) ≠ p →
        (headerRound ports gpte numSectors (matchesPath m path) (d, buf, seeker)).Returns
          (.inl (d', buf', seekerAfter (headerType (d.disk (sectorAt gpte seeker))) seeker
            (numSectors (headerFilesize (d.disk (sectorAt gpte seeker))))))) := by
  obtain ⟨d', buf', ha, hbuf, h₁, h₂, h₃⟩ := headerRound_reads numSectors (matchesPath m path) gpte
    seeker hl buf
  have hsig := hasSignature_congr hbuf
  have hsel : matchesPath m path buf' = true ↔ headerPath buf' = p := matchesPath_iff_headerPath hp
  rw [headerPath_congr hbuf] at hsel
  rw [headerType_congr hbuf, headerFilesize_congr hbuf] at h₃
  exact ⟨d', buf', ha, hbuf, fun h => h₁ (Bool.eq_false_iff.2 fun h' => h (hsig.1 h')),
    fun h h' => h₂ (hsig.2 h) (hsel.2 h'),
    fun h h' => h₃ (hsig.2 h) (Bool.eq_false_iff.2 fun h'' => h' (hsel.1 h''))⟩

/-- The loop stops where the sectors say. -/
theorem loop_of_stopsAt (hp : CString m path p) {disk : ℕ → Memory}
    (h : StopsAt disk gpte numSectors p seeker r) (buf : Memory) (hl : d.Live)
    (hd : d.disk = disk) :
    ∃ d' cmds found, After d d' cmds ∧ found.map Prod.fst = r ∧
      (∀ s b, found = some (s, b) → ∀ x < 512, b x = disk (sectorAt gpte s) x) ∧
      (loop (headerRound ports gpte numSectors (matchesPath m path)) (d, buf, seeker)).Returns
        (d', found) := by
  induction h generalizing d buf with
  | last hsig =>
    obtain ⟨d', buf', ha, _, h, _, _⟩ := headerRound_sector numSectors gpte _ hl hp buf
    exact ⟨d', _, none, ha, rfl, fun _ _ h => absurd h (by simp), Returns.loop_done (h (hd ▸ hsig))⟩
  | found hsig hpath =>
    obtain ⟨d', buf', ha, hbuf, _, h, _⟩ := headerRound_sector numSectors gpte _ hl hp buf
    refine ⟨d', _, some (_, buf'), ha, rfl, fun s b hs => ?_,
      Returns.loop_done (h (hd ▸ hsig) (hd ▸ hpath))⟩
    obtain ⟨rfl, rfl⟩ := Prod.mk.inj (Option.some.inj hs)
    exact hd ▸ hbuf
  | next hsig hpath _ ih =>
    obtain ⟨d₁, buf₁, ha₁, _, _, _, h⟩ := headerRound_sector numSectors gpte _ hl hp buf
    have h := h (hd ▸ hsig) (hd ▸ hpath)
    rw [hd] at h
    obtain ⟨d', cmds, found, ha, hfound, hbytes, hr⟩ := ih buf₁ (ha₁.live hl) (ha₁.disk.trans hd)
    exact ⟨d', _, found, ha₁.trans ha, hfound, hbytes, (Returns.loop_iff h).2 hr⟩

/-- Where the loop stops, so do the sectors say. -/
theorem stopsAt_of_loop (hp : CString m path p) {d' : AtaDevice}
    {found : Option (UInt64 × Memory)} {buf : Memory} (hl : d.Live)
    (h : (loop (headerRound ports gpte numSectors (matchesPath m path)) (d, buf, seeker)).Returns
      (d', found)) : StopsAt d.disk gpte numSectors p seeker (found.map Prod.fst) := by
  have key := h.loop_rec (P := fun s => ∀ disk, s.1.Live → s.1.disk = disk →
    StopsAt disk gpte numSectors p s.2.2 (found.map Prod.fst)) ?_ ?_
  · exact key _ hl rfl
  · rintro ⟨d, buf, seeker⟩ hr disk hl rfl
    obtain ⟨d₁, buf₁, _, _, h₁, h₂, h₃⟩ := headerRound_sector numSectors gpte _ hl hp buf
    by_cases hsig : HasSignature (d.disk (sectorAt gpte seeker))
    · by_cases hpath : headerPath (d.disk (sectorAt gpte seeker)) = p
      · obtain ⟨_, rfl⟩ := Prod.mk.inj (Sum.inr.inj (hr.unique (h₂ hsig hpath)))
        exact .found hsig hpath
      · exact absurd (hr.unique (h₃ hsig hpath)) (by simp)
    · obtain ⟨_, rfl⟩ := Prod.mk.inj (Sum.inr.inj (hr.unique (h₁ hsig)))
      exact .last hsig
  · rintro ⟨d, buf, seeker⟩ s' hr ih disk hl rfl
    obtain ⟨d₁, buf₁, ha, _, h₁, h₂, h₃⟩ := headerRound_sector numSectors gpte _ hl hp buf
    by_cases hsig : HasSignature (d.disk (sectorAt gpte seeker))
    · by_cases hpath : headerPath (d.disk (sectorAt gpte seeker)) = p
      · exact absurd (hr.unique (h₂ hsig hpath)) (by simp)
      · obtain rfl := Sum.inl.inj (hr.unique (h₃ hsig hpath))
        exact .next hsig hpath (ih _ (ha.live hl) ha.disk)
    · exact absurd (hr.unique (h₁ hsig)) (by simp)

theorem walkHeaders_of_stopsAt (hl : d.Live) (hp : CString m path p)
    (h : StopsAt d.disk gpte numSectors p 0 r) :
    ∃ d' cmds found, After d d' cmds ∧ found.map Prod.fst = r ∧
      (∀ s b, found = some (s, b) → ∀ x < 512, b x = d.disk (sectorAt gpte s) x) ∧
      (walkHeaders ports gpte numSectors (matchesPath m path) d).Returns (d', found) :=
  loop_of_stopsAt hp h _ hl rfl

theorem stopsAt_of_walkHeaders (hl : d.Live) (hp : CString m path p) {d' : AtaDevice}
    {found : Option (UInt64 × Memory)}
    (h : (walkHeaders ports gpte numSectors (matchesPath m path) d).Returns (d', found)) :
    StopsAt d.disk gpte numSectors p 0 (found.map Prod.fst) := stopsAt_of_loop hp hl h

end walk

/-! ## The readers -/

/-- The number of sectors that are loaded for a header: what it says, in 8 bits. -/
def loadedSectors (sector : Memory) : ℕ := (numSectorsU32 (headerFilesize sector)).toUInt8.toNat

/-- What is returned for it. -/
def loadedBytes (sector : Memory) : UInt64 := (headerFilesize sector).toUInt32.toUInt64

section readers

variable {d : AtaDevice} {m : Memory} {gpte : GPTEntry} {path : ℕ} {p : List UInt8}

/-- Asking for the number of sectors ends if and only if the walk stops. -/
theorem exists_ustarGetNumSectors_iff (hl : d.Live) (hp : CString m path p) :
    (∃ a, (ustarGetNumSectors ports d m gpte path).Returns a) ↔
      ∃ r, StopsAt d.disk gpte numSectorsU64 p 0 r := by
  constructor
  · rintro ⟨a, h⟩
    rw [ustarGetNumSectors, returns_bind_iff] at h
    obtain ⟨_, h, _⟩ := h
    rw [ustarGetFilesize, returns_bind_iff] at h
    obtain ⟨_, h, _⟩ := h
    exact ⟨_, stopsAt_of_walkHeaders hl hp h⟩
  · rintro ⟨r, h⟩
    obtain ⟨d', cmds, found, _, _, _, h⟩ := walkHeaders_of_stopsAt hl hp h
    cases found with
    | none =>
      have hsize : (ustarGetFilesize ports d m gpte path).Returns (d', -1, none) := by
        rw [ustarGetFilesize, h.bind_iff, returns_pure_iff]
      exact ⟨_, hsize.bind_iff.2 (returns_pure_iff.2 rfl)⟩
    | some found =>
      have hsize : (ustarGetFilesize ports d m gpte path).Returns
          (d', 0, some (headerFilesize found.2)) := by
        rw [ustarGetFilesize, h.bind_iff, returns_pure_iff]
      exact ⟨_, hsize.bind_iff.2 (returns_pure_iff.2 rfl)⟩

/-- It only reads. -/
theorem after_ustarGetNumSectors (hl : d.Live) (hp : CString m path p)
    {a : AtaDevice × UInt64 × Option UInt64}
    (h : (ustarGetNumSectors ports d m gpte path).Returns a) : ∃ cmds, After d a.1 cmds := by
  rw [ustarGetNumSectors, returns_bind_iff] at h
  obtain ⟨⟨d', result, filesize⟩, h, hr⟩ := h
  obtain rfl := returns_pure_iff.1 hr
  rw [ustarGetFilesize, returns_bind_iff] at h
  obtain ⟨⟨d'', found⟩, h, hr⟩ := h
  obtain ⟨d₁, cmds, found₁, ha, _, _, h₁⟩ :=
    walkHeaders_of_stopsAt hl hp (stopsAt_of_walkHeaders hl hp h)
  obtain ⟨rfl, rfl⟩ := Prod.mk.inj (h.unique h₁)
  refine ⟨cmds, ?_⟩
  cases found with
  | none =>
    have hr := returns_pure_iff.1 hr
    exact (Prod.mk.inj hr).1 ▸ ha
  | some found =>
    have hr := returns_pure_iff.1 hr
    exact (Prod.mk.inj hr).1 ▸ ha

/-- A file is loaded from the sectors after the header that the walk stops at. -/
theorem ustarLoadFile_found (hl : d.Live) (hp : CString m path p) {seeker : UInt64}
    (h : StopsAt d.disk gpte numSectorsU32 p 0 (some seeker)) (dstBuf : ℕ) :
    ∃ d', (ustarLoadFile ports d m gpte path dstBuf).Returns
      ((d', storeSectors m dstBuf d.disk (sectorAt gpte (seeker + 1))
        (loadedSectors (d.disk (sectorAt gpte seeker)))),
        loadedBytes (d.disk (sectorAt gpte seeker))) := by
  obtain ⟨d₁, cmds, found, ha, hfound, hbytes, h₁⟩ := walkHeaders_of_stopsAt hl hp h
  obtain ⟨⟨s, buf⟩, rfl, rfl⟩ := Option.map_eq_some_iff.1 hfound
  have hsize := headerFilesize_congr (hbytes s buf rfl)
  obtain ⟨d₂, h₂, _⟩ := ataPioReadSectors_returns (ha.live hl) m dstBuf
    (s + 1 + gpte.startingLba).toUInt32 (numSectorsU32 (headerFilesize buf)).toUInt8
  refine ⟨d₂, ?_⟩
  rw [ustarLoadFile, h₁.bind_iff]
  simp only
  rw [h₂.bind_iff, returns_pure_iff, ha.disk, hsize]
  rfl

/-- Nothing is loaded if the walk stops at no header. -/
theorem ustarLoadFile_none (hl : d.Live) (hp : CString m path p)
    (h : StopsAt d.disk gpte numSectorsU32 p 0 none) (dstBuf : ℕ) :
    ∃ d', (ustarLoadFile ports d m gpte path dstBuf).Returns ((d', m), 0) := by
  obtain ⟨d₁, cmds, found, _, hfound, _, h₁⟩ := walkHeaders_of_stopsAt hl hp h
  obtain rfl := Option.map_eq_none_iff.1 hfound
  refine ⟨d₁, ?_⟩
  rw [ustarLoadFile, h₁.bind_iff, returns_pure_iff]

/-- Loading ends where the walk stops. -/
theorem stopsAt_of_ustarLoadFile (hl : d.Live) (hp : CString m path p) {dstBuf : ℕ}
    {a : (AtaDevice × Memory) × UInt64} (h : (ustarLoadFile ports d m gpte path dstBuf).Returns a) :
    ∃ r, StopsAt d.disk gpte numSectorsU32 p 0 r := by
  rw [ustarLoadFile, returns_bind_iff] at h
  obtain ⟨_, h, _⟩ := h
  exact ⟨_, stopsAt_of_walkHeaders hl hp h⟩

end readers

end Cboot
