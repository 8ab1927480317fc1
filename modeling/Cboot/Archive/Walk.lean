import Cboot.Archive.Format

/-!
# Walking an archive

What the loop of the walkers does on a stored archive.

* A walker passes an entry (`Passes`) if it steps from its header over its data. `passes_u64`
  and `passes_u32` say when: the size of a file, rounded to sectors, has to survive the
  integers that the walker keeps it in. What it steps over on a disk are the entries whose
  sizes it makes out (`Walked`);
* `walkHeaders_found`, `walkHeaders_none`: stepping over the entries before, a walker stops at
  the first one that it selects, or at the end, and reads the headers on the way, each once.
-/

namespace Cboot

open AtaDevice Fueled

/-! ## Rounding sizes -/

theorem numSectorsU64_toNat {size : ℕ} (h : size < 8 ^ 11) :
    (numSectorsU64 (.ofNat size)).toNat = (size + 511) / 512 := by
  have h₁ : (UInt64.ofNat size).toNat = size :=
    UInt64.toNat_ofNat_of_lt' (show size < 2 ^ 64 by omega)
  simp only [numSectorsU64, UInt64.toNat_toUInt32, UInt64.toNat_div, UInt64.toNat_add, h₁,
    UInt64.reduceToNat]
  omega

/-- In 32 bits, both the size and the sum before the division wrap around. -/
theorem numSectorsU32_toNat (size : ℕ) :
    (numSectorsU32 (.ofNat size)).toNat = (size + 511) % 2 ^ 32 / 512 := by
  simp only [numSectorsU32, UInt32.toNat_div, UInt32.toNat_add, UInt64.toNat_toUInt32,
    UInt64.toNat_ofNat', UInt32.reduceToNat]
  omega

/-! ## Passing entries -/

/-- A walker rounding sizes by `numSectors` steps over the entry. -/
def Passes (numSectors : UInt64 → UInt32) (e : Entry) : Prop :=
  (e.IsDirectory ∨ e.IsRegular ∧ (numSectors (.ofNat e.size)).toNat = (e.size + 511) / 512)

theorem passes_u64 {e : Entry} (h : e.IsDirectory ∨ e.IsRegular) : Passes numSectorsU64 e :=
  h.imp_right fun h => ⟨h, numSectorsU64_toNat e.size_lt⟩

theorem passes_u32 {e : Entry} (h : e.IsDirectory ∨ e.IsRegular ∧ e.size ≤ 2 ^ 32 - 512) :
    Passes numSectorsU32 e := by
  refine h.imp_right fun h => ⟨h.1, ?_⟩
  have := h.2
  rw [numSectorsU32_toNat]
  omega

/-- The sector of the next header. -/
theorem seekerAfter_toNat {n : UInt32} {e : Entry}
    (h : e.IsDirectory ∨ e.IsRegular ∧ n.toNat = (e.size + 511) / 512) {seeker : UInt64}
    (hs : seeker.toNat < 2 ^ 28) :
    (seekerAfter e.type seeker n).toNat = seeker.toNat + 1 + e.dataSectors := by
  have hone : (1 : UInt64).toNat = 1 := rfl
  rcases h with h | ⟨h, hn⟩
  · have htype : e.type = 0x35 := h
    rw [seekerAfter, if_neg (by rw [htype]; decide), if_pos htype, e.dataSectors_of_isDirectory h,
      UInt64.toNat_add, hone]
    omega
  · have htype : e.type = 0 ∨ e.type = 0x30 := h
    have hlt := e.size_lt
    rw [seekerAfter, if_pos htype, e.dataSectors_of_isRegular h, UInt64.toNat_add,
      UInt64.toNat_add, hone, UInt32.toNat_toUInt64, hn]
    omega

/-! ## One round -/

section round

variable {d : AtaDevice} {gpte : GPTEntry} {numSectors : UInt64 → UInt32} {select : Memory → Bool}
  {seeker : UInt64} {lba : ℕ}

/-- The sector that a walker reads when it has come to `seeker`. -/
def sectorAt (gpte : GPTEntry) (seeker : UInt64) : ℕ :=
  (seeker + gpte.startingLba).toUInt32.toNat % 2 ^ 28

theorem seeker_add_startingLba (hs : seeker.toNat + gpte.startingLba.toNat = lba)
    (hlba : lba < 2 ^ 28) : (seeker + gpte.startingLba).toUInt32.toNat % 2 ^ 28 = lba := by
  rw [UInt64.toNat_toUInt32, UInt64.toNat_add]
  omega

theorem sectorAt_eq (hs : seeker.toNat + gpte.startingLba.toNat = lba) (hlba : lba < 2 ^ 28) :
    sectorAt gpte seeker = lba := seeker_add_startingLba hs hlba

/-- A round reads one sector to the buffer, and goes by what it finds there. -/
theorem headerRound_reads (numSectors : UInt64 → UInt32) (select : Memory → Bool) (gpte : GPTEntry)
    (seeker : UInt64) (hl : d.Live) (buf : Memory) :
    ∃ d' buf', After d d' [(sectorAt gpte seeker, 1)] ∧
      (∀ x < 512, buf' x = d.disk (sectorAt gpte seeker) x) ∧
      (hasSignature buf' = false →
        (headerRound ports gpte numSectors select (d, buf, seeker)).Returns (.inr (d', none))) ∧
      (hasSignature buf' = true → select buf' = true →
        (headerRound ports gpte numSectors select (d, buf, seeker)).Returns
          (.inr (d', some (seeker, buf')))) ∧
      (hasSignature buf' = true → select buf' = false →
        (headerRound ports gpte numSectors select (d, buf, seeker)).Returns (.inl (d', buf',
          seekerAfter (headerType buf') seeker (numSectors (headerFilesize buf'))))) := by
  obtain ⟨d', h, ha⟩ := ataPioReadSectors_returns hl buf 0 (seeker + gpte.startingLba).toUInt32 1
  have hone : (1 : UInt8).toNat = 1 := rfl
  rw [← sectorAt, hone] at h ha
  refine ⟨d', storeSectors buf 0 d.disk (sectorAt gpte seeker) 1, ha, fun x hx => ?_, fun h₁ => ?_,
    fun h₁ h₂ => ?_, fun h₁ h₂ => ?_⟩
  · have hbyte : storeSectors buf 0 d.disk (sectorAt gpte seeker) 1 (0 + x) = _ :=
      storeSectors_of_lt (by omega)
    rwa [Nat.zero_add, Nat.div_eq_of_lt hx, Nat.mod_eq_of_lt hx] at hbyte
  · rw [headerRound, h.bind_iff]
    simp only [h₁, if_true, returns_pure_iff]
  · rw [headerRound, h.bind_iff]
    simp only [h₁, h₂, Bool.true_eq_false, if_true, if_false, returns_pure_iff]
  · rw [headerRound, h.bind_iff]
    simp only [h₁, h₂, Bool.true_eq_false, Bool.false_eq_true, if_false, returns_pure_iff]

/-- What a walker selects, in terms of the entries. -/
def Selects (select : Memory → Bool) (P : Entry → Prop) : Prop :=
  ∀ {buf e}, IsEntry buf e → (select buf = true ↔ P e)

theorem selects_path {m : Memory} {path : ℕ} {p : List UInt8} (hp : CString m path p) :
    Selects (matchesPath m path) (·.path = p) := fun h => matchesPath_iff h hp

theorem selects_never : Selects (fun _ => false) fun _ => False := fun _ => by simp

variable {P : Entry → Prop} {e : Entry}

/-- A header that is not selected: the walker goes on as its type says. -/
theorem headerRound_steps (numSectors : UInt64 → UInt32) (hl : d.Live)
    (hs : seeker.toNat + gpte.startingLba.toNat = lba) (hlba : lba < 2 ^ 28)
    (hsel : Selects select P) (he : IsEntry (d.disk lba) e) (hn : ¬P e) (buf : Memory) :
    ∃ d' buf', After d d' [(lba, 1)] ∧
      (headerRound ports gpte numSectors select (d, buf, seeker)).Returns
        (.inl (d', buf', seekerAfter e.type seeker (numSectors (headerFilesize (d.disk lba))))) := by
  obtain ⟨d', buf', ha, hbuf, _, _, h⟩ := headerRound_reads _ _ _ _ hl buf
  rw [sectorAt_eq hs hlba] at ha hbuf
  have he' := he.congr hbuf
  have hr := h (hasSignature_of_isEntry he') (Bool.eq_false_iff.2 fun h => hn ((hsel he').1 h))
  rw [headerType_eq he', headerFilesize_congr hbuf] at hr
  exact ⟨d', buf', ha, hr⟩

/-- A header that is selected. -/
theorem headerRound_selects (hl : d.Live) (hs : seeker.toNat + gpte.startingLba.toNat = lba)
    (hlba : lba < 2 ^ 28) (hsel : Selects select P) (he : IsEntry (d.disk lba) e) (hP : P e)
    (buf : Memory) : ∃ d' buf', After d d' [(lba, 1)] ∧ (∀ x < 512, buf' x = d.disk lba x) ∧
      (headerRound ports gpte numSectors select (d, buf, seeker)).Returns
        (.inr (d', some (seeker, buf'))) := by
  obtain ⟨d', buf', ha, hbuf, _, h, _⟩ := headerRound_reads _ _ _ _ hl buf
  rw [sectorAt_eq hs hlba] at ha hbuf
  have he' := he.congr hbuf
  exact ⟨d', buf', ha, hbuf, h (hasSignature_of_isEntry he') ((hsel he').2 hP)⟩

/-- The end of the archive. -/
theorem headerRound_ends (hl : d.Live) (hs : seeker.toNat + gpte.startingLba.toNat = lba)
    (hlba : lba < 2 ^ 28) (he : ¬HasSignature (d.disk lba)) (buf : Memory) :
    ∃ d', After d d' [(lba, 1)] ∧
      (headerRound ports gpte numSectors select (d, buf, seeker)).Returns (.inr (d', none)) := by
  obtain ⟨d', buf', ha, hbuf, h, _, _⟩ := headerRound_reads _ _ _ _ hl buf
  rw [sectorAt_eq hs hlba] at ha hbuf
  refine ⟨d', ha, h (Bool.eq_false_iff.2 fun h => he fun i hi => ?_)⟩
  rw [← hbuf _ (by omega)]
  exact hasSignature_iff.1 h i hi

end round

/-! ## Along the entries -/

section walk

variable {d : AtaDevice} {gpte : GPTEntry} {numSectors : UInt64 → UInt32} {select : Memory → Bool}
  {P : Entry → Prop} {es rest : List Entry} {e : Entry}

/-- The commands reading headers. -/
def headerReads (lba : ℕ) (es : List Entry) : List (ℕ × ℕ) := (headers lba es).map (·, 1)

/-- The headers of the entries are stored from the sector `lba` on, and a walker rounding sizes by
    `numSectors` steps over the entries, whatever their sizes are written like. -/
def Walked (numSectors : UInt64 → UInt32) (disk : ℕ → Memory) : (lba : ℕ) → List Entry → Prop
  | _, [] => True
  | lba, e :: es => IsEntry (disk lba) e ∧
      (e.IsDirectory ∨ e.IsRegular ∧
        (numSectors (headerFilesize (disk lba))).toNat = (e.size + 511) / 512) ∧
      Walked numSectors disk (lba + 1 + e.dataSectors) es

/-- An archive is walked as far as its entries are passed. -/
theorem Stored.walked {disk : ℕ → Memory} {lba : ℕ} (h : Stored disk lba (es ++ rest))
    (hes : ∀ e ∈ es, Passes numSectors e) : Walked numSectors disk lba es := by
  induction es generalizing lba with
  | nil => trivial
  | cons e es ih =>
    refine ⟨h.1.isEntry, ?_, ih h.2 fun e he => hes e (List.mem_cons_of_mem _ he)⟩
    rw [headerFilesize_eq h.1]
    exact hes e List.mem_cons_self

/-- What is walked over begins with what is walked over before. -/
theorem Walked.left {disk : ℕ → Memory} {lba : ℕ} (h : Walked numSectors disk lba (es ++ rest)) :
    Walked numSectors disk lba es := by
  induction es generalizing lba with
  | nil => trivial
  | cons e es ih => exact ⟨h.1, h.2.1, ih h.2.2⟩

/-- The loop goes on after the entries that it walks over. -/
theorem loop_passes {seeker : UInt64} {lba : ℕ} (hl : d.Live)
    (hs : seeker.toNat + gpte.startingLba.toNat = lba) (hsel : Selects select P)
    (hst : Walked numSectors d.disk lba es) (hes : ∀ e ∈ es, ¬P e)
    (hlt : lba + sectors es < 2 ^ 28) (buf : Memory) :
    ∃ d' buf' seeker', After d d' (headerReads lba es) ∧
      seeker'.toNat + gpte.startingLba.toNat = lba + sectors es ∧
      ∀ r, (loop (headerRound ports gpte numSectors select) (d, buf, seeker)).Returns r ↔
        (loop (headerRound ports gpte numSectors select) (d', buf', seeker')).Returns r := by
  induction es generalizing d seeker lba buf with
  | nil => exact ⟨d, buf, seeker, ⟨rfl, rfl, (List.append_nil _).symm⟩, hs, fun r => Iff.rfl⟩
  | cons e es ih =>
    rw [sectors_cons] at hlt
    obtain ⟨hheader, hpass, hst⟩ := hst
    obtain ⟨d₁, buf₁, ha₁, h₁⟩ := headerRound_steps numSectors hl hs (by omega) hsel hheader
      (hes e List.mem_cons_self) buf
    have hnext := seekerAfter_toNat hpass (show seeker.toNat < 2 ^ 28 by omega)
    have hs₁ : (seekerAfter e.type seeker (numSectors (headerFilesize (d.disk lba)))).toNat +
        gpte.startingLba.toNat = lba + 1 + e.dataSectors := by omega
    obtain ⟨d₂, buf₂, seeker₂, ha₂, hs₂, h₂⟩ := ih (ha₁.live hl) hs₁ (ha₁.disk ▸ hst)
      (fun e he => hes e (List.mem_cons_of_mem _ he)) (by omega) buf₁
    refine ⟨d₂, buf₂, seeker₂, ha₁.trans ha₂, ?_, fun r => (Returns.loop_iff h₁).trans (h₂ r)⟩
    rw [hs₂, sectors_cons]
    omega

/-- A walk stops at a header that is selected. -/
theorem select_of_walkHeaders {d' : AtaDevice} {seeker : UInt64} {buf : Memory}
    (h : (walkHeaders ports gpte numSectors select d).Returns (d', some (seeker, buf))) :
    select buf = true := by
  obtain ⟨⟨d₁, buf₁, seeker₁⟩, _, hr⟩ := Returns.loop_inv (I := fun _ => True) h trivial
    fun _ _ _ _ => trivial
  rw [headerRound, returns_bind_iff] at hr
  obtain ⟨⟨d₂, buf₂⟩, _, hr⟩ := hr
  simp only at hr
  split_ifs at hr with h₁ h₂
  · simpa using returns_pure_iff.1 hr
  · have := returns_pure_iff.1 hr
    simp only [Sum.inr.injEq, Prod.mk.injEq, Option.some.injEq] at this
    rw [this.2.2, h₂]
  · simpa using returns_pure_iff.1 hr

theorem zero_add_startingLba (gpte : GPTEntry) :
    (0 : UInt64).toNat + gpte.startingLba.toNat = gpte.startingLba.toNat := Nat.zero_add _

/-- A walk over the entries `es` that selects the next one. -/
theorem walkHeaders_found (hl : d.Live) (hsel : Selects select P)
    (hst : Walked numSectors d.disk gpte.startingLba.toNat es)
    (he : IsEntry (d.disk (gpte.startingLba.toNat + sectors es)) e) (hes : ∀ e ∈ es, ¬P e)
    (hP : P e) (hlt : gpte.startingLba.toNat + sectors es < 2 ^ 28) :
    ∃ d' seeker buf, After d d' (headerReads gpte.startingLba.toNat es ++
        [(gpte.startingLba.toNat + sectors es, 1)]) ∧
      seeker.toNat = sectors es ∧
      (∀ x < 512, buf x = d.disk (gpte.startingLba.toNat + sectors es) x) ∧
      (walkHeaders ports gpte numSectors select d).Returns (d', some (seeker, buf)) := by
  obtain ⟨d₁, buf₁, seeker₁, ha₁, hs₁, h₁⟩ := loop_passes hl (zero_add_startingLba gpte) hsel
    hst hes hlt (memset (fun _ => 0) 0 0 512)
  obtain ⟨d₂, buf₂, ha₂, hbuf₂, h₂⟩ := headerRound_selects (ha₁.live hl) hs₁ hlt hsel
    (ha₁.disk ▸ he) hP buf₁
  rw [ha₁.disk] at hbuf₂
  exact ⟨d₂, seeker₁, buf₂, ha₁.trans ha₂, by omega, hbuf₂, (h₁ _).2 (Returns.loop_done h₂)⟩

/-- A walk over all entries. -/
theorem walkHeaders_none (hl : d.Live) (hsel : Selects select P)
    (hst : Walked numSectors d.disk gpte.startingLba.toNat es)
    (hend : ¬HasSignature (d.disk (gpte.startingLba.toNat + sectors es))) (hes : ∀ e ∈ es, ¬P e)
    (hlt : gpte.startingLba.toNat + sectors es < 2 ^ 28) :
    ∃ d', After d d' (headerReads gpte.startingLba.toNat es ++
        [(gpte.startingLba.toNat + sectors es, 1)]) ∧
      (walkHeaders ports gpte numSectors select d).Returns (d', none) := by
  obtain ⟨d₁, buf₁, seeker₁, ha₁, hs₁, h₁⟩ := loop_passes hl (zero_add_startingLba gpte) hsel
    hst hes hlt (memset (fun _ => 0) 0 0 512)
  obtain ⟨d₂, ha₂, h₂⟩ := headerRound_ends (ha₁.live hl) hs₁ hlt (ha₁.disk ▸ hend) buf₁
  exact ⟨d₂, ha₁.trans ha₂, (h₁ _).2 (Returns.loop_done h₂)⟩

end walk

end Cboot
