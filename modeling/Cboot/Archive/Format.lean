import Cboot.Archive.Ustar
import Mathlib.Data.List.Infix

/-!
# Archives

What a ustar archive is, whatever reads it: a list of entries (`Entry`), each with a
header in a sector (`IsHeader`) that is followed by the sectors of its data, up to a
sector without the signature (`Stored`). The data of the entries may be anything.

What the walkers make of a header is what it says: `hasSignature_of_isEntry`,
`headerFilesize_eq`, `headerType_eq`, `matchesPath_iff`.
-/

namespace Cboot

/-! ## Entries -/

/-- An entry of an archive. -/
structure Entry where
  namePrefix : List UInt8
  name : List UInt8
  type : UInt8
  size : ℕ
  namePrefix_length : namePrefix.length ≤ 155
  name_length : name.length ≤ 100
  ne_zero : ∀ c ∈ namePrefix ++ name, c ≠ 0
  size_lt : size < 8 ^ 11

namespace Entry

variable (e : Entry)

/-- The types of regular files. -/
def IsRegular : Prop := e.type = 0 ∨ e.type = 0x30

/-- The type of directories. -/
def IsDirectory : Prop := e.type = 0x35

instance : Decidable e.IsRegular := inferInstanceAs (Decidable (_ ∨ _))

instance : Decidable e.IsDirectory := inferInstanceAs (Decidable (_ = _))

/-- The sectors of the data. Links, devices, directories and pipes have no data; what is
    of an unknown type is stored like a file. -/
def dataSectors : ℕ := if 0x31 ≤ e.type ∧ e.type ≤ 0x36 then 0 else (e.size + 511) / 512

/-- The path that the walkers know the entry by. -/
def path : List UInt8 := 0x2F :: (e.namePrefix ++ e.name)

theorem not_isDirectory_of_isRegular (h : e.IsRegular) : ¬e.IsDirectory := by
  rw [IsDirectory]
  rcases h with h | h <;> rw [h] <;> decide

/-- No character of a path is zero. -/
theorem path_ne_zero : ∀ c ∈ e.path, c ≠ 0 := by
  intro c hc
  rcases List.mem_cons.1 hc with rfl | hc
  · decide
  · exact e.ne_zero c hc

theorem dataSectors_of_isRegular (h : e.IsRegular) : e.dataSectors = (e.size + 511) / 512 := by
  refine if_neg ?_
  rcases h with h | h <;> rw [h] <;> decide

theorem dataSectors_of_isDirectory (h : e.IsDirectory) : e.dataSectors = 0 := by
  refine if_pos ?_
  rw [h]
  decide

theorem dataSectors_lt : e.dataSectors < 2 ^ 25 := by
  have h := e.size_lt
  rw [dataSectors]
  split
  · decide
  · omega

end Entry

/-! ## Headers -/

/-- The character of the `i`-th of the eleven octal digits of a size. -/
def octalDigit (size i : ℕ) : UInt8 := .ofNat (48 + size / 8 ^ (10 - i) % 8)

/-- The sector is a header of the entry, but for its size. -/
structure IsEntry (sector : Memory) (e : Entry) : Prop where
  signature : ∀ i < 5, sector (257 + i) = literal ustarSignature i
  type : sector 156 = e.type
  namePrefix : fieldString sector 345 155 = e.namePrefix
  name : fieldString sector 0 100 = e.name

/-- The sector is a header of the entry, with all digits of its size. -/
structure IsHeader (sector : Memory) (e : Entry) : Prop where
  signature : ∀ i < 5, sector (257 + i) = literal ustarSignature i
  size : ∀ i < 11, sector (0x7c + i) = octalDigit e.size i
  type : sector 156 = e.type
  namePrefix : fieldString sector 345 155 = e.namePrefix
  name : fieldString sector 0 100 = e.name

/-- The sector has the signature. -/
def HasSignature (sector : Memory) : Prop := ∀ i < 5, sector (257 + i) = literal ustarSignature i

theorem fieldString_congr {m m' : Memory} {p n : ℕ} (h : ∀ x, p ≤ x → x < p + n → m x = m' x) :
    fieldString m p n = fieldString m' p n := by
  induction n generalizing p with
  | zero => rfl
  | succ n ih =>
    rw [fieldString, fieldString, h p le_rfl (by omega),
      ih fun x h₁ h₂ => h x (by omega) (by omega)]

theorem IsHeader.isEntry {sector : Memory} {e : Entry} (h : IsHeader sector e) : IsEntry sector e :=
  ⟨h.signature, h.type, h.namePrefix, h.name⟩

/-- Headers are told by the 512 bytes of a sector. -/
theorem IsEntry.congr {sector buf : Memory} {e : Entry} (h : IsEntry sector e)
    (hbuf : ∀ x < 512, buf x = sector x) : IsEntry buf e where
  signature i hi := (hbuf _ (by omega)).trans (h.signature i hi)
  type := (hbuf _ (by decide)).trans h.type
  namePrefix := (fieldString_congr fun x _ hx => hbuf x (by omega)).trans h.namePrefix
  name := (fieldString_congr fun x _ hx => hbuf x (by omega)).trans h.name

theorem IsHeader.congr {sector buf : Memory} {e : Entry} (h : IsHeader sector e)
    (hbuf : ∀ x < 512, buf x = sector x) : IsHeader buf e where
  signature := (h.isEntry.congr hbuf).signature
  size i hi := (hbuf _ (by omega)).trans (h.size i hi)
  type := (h.isEntry.congr hbuf).type
  namePrefix := (h.isEntry.congr hbuf).namePrefix
  name := (h.isEntry.congr hbuf).name

section header

variable {sector : Memory} {e : Entry}

theorem hasSignature_iff : hasSignature sector = true ↔ HasSignature sector := by
  rw [hasSignature, beq_iff_eq, memcmp_eq_zero_iff]
  simp only [Nat.zero_add]
  rfl

theorem hasSignature_of_isEntry (h : IsEntry sector e) : hasSignature sector = true :=
  hasSignature_iff.2 h.signature

theorem headerFilesize_congr {buf : Memory} (h : ∀ x < 512, buf x = sector x) :
    headerFilesize buf = headerFilesize sector := by
  have key : ∀ i ≤ 11, oct2bin buf 0x7c i = oct2bin sector 0x7c i := by
    intro i hi
    induction i with
    | zero => rfl
    | succ i ih => rw [oct2bin, oct2bin, ih (Nat.le_of_succ_le hi), h _ (by omega)]
  exact key 11 le_rfl

theorem headerType_congr {buf : Memory} (h : ∀ x < 512, buf x = sector x) :
    headerType buf = headerType sector :=
  h _ (by decide)

/-- The first digits decoded. -/
theorem oct2bin_eq {size i : ℕ} (h : ∀ i < 11, sector (0x7c + i) = octalDigit size i)
    (hi : i ≤ 11) (hsize : size < 8 ^ 11) :
    oct2bin sector 0x7c i = .ofNat (size / 8 ^ (11 - i)) := by
  have hdigit : ∀ d < 8, (UInt8.ofNat (48 + d)).toUInt64 - 48 = UInt64.ofNat d := by decide
  induction i with
  | zero =>
    rw [Nat.sub_zero, Nat.div_eq_of_lt hsize]
    rfl
  | succ i ih =>
    have hdiv : size / 8 ^ (11 - i) = size / 8 ^ (10 - i) / 8 := by
      rw [Nat.div_div_eq_div_mul, ← Nat.pow_succ]
      congr 2
      omega
    have hsub : 11 - (i + 1) = 10 - i := by omega
    rw [oct2bin, ih (Nat.le_of_succ_le hi), h i hi, octalDigit,
      hdigit _ (Nat.mod_lt _ (by decide)), hdiv, hsub]
    change UInt64.ofNat _ * UInt64.ofNat 8 + _ = _
    rw [← UInt64.ofNat_mul, ← UInt64.ofNat_add, Nat.div_add_mod']

theorem headerFilesize_eq (h : IsHeader sector e) : headerFilesize sector = .ofNat e.size := by
  rw [headerFilesize, oct2bin_eq h.size le_rfl e.size_lt, Nat.sub_self, Nat.pow_zero, Nat.div_one]

theorem headerType_eq (h : IsEntry sector e) : headerType sector = e.type := h.type

/-- The name that is put together from the fields of a sector. -/
def headerPath (sector : Memory) : List UInt8 :=
  0x2F :: (fieldString sector 345 155 ++ fieldString sector 0 100)

theorem headerPath_eq (h : IsEntry sector e) : headerPath sector = e.path := by
  rw [headerPath, h.namePrefix, h.name, Entry.path]

theorem headerPath_length_le (sector : Memory) : (headerPath sector).length ≤ 256 := by
  have h₁ := fieldString_length_le sector 345 155
  have h₂ := fieldString_length_le sector 0 100
  rw [headerPath, List.length_cons, List.length_append]
  omega

/-- It is stored in a buffer of zeros. -/
theorem rebuildFilename_eq (sector : Memory) :
    rebuildFilename sector = (memset (fun _ => 0) 0 0 257).store 0 (headerPath sector) := by
  simp only [rebuildFilename, strncpy_eq]
  rw [headerPath, Memory.store, Memory.store_append, Nat.zero_add]

theorem cString_rebuildFilename (sector : Memory) :
    CString (rebuildFilename sector) 0 (headerPath sector) := by
  rw [rebuildFilename_eq]
  refine cString_store (fun c hc => ?_) ?_
  · rcases List.mem_cons.1 hc with rfl | hc
    · decide
    · rcases List.mem_append.1 hc with hc | hc
      · exact ne_zero_of_mem_fieldString hc
      · exact ne_zero_of_mem_fieldString hc
  · rw [memset_zero]
    exact Memory.fill_of_mem (Nat.zero_le _) (by have := headerPath_length_le sector; omega)

/-- The comparison is exact: no name is longer than the buffer. -/
theorem matchesPath_iff_headerPath {m : Memory} {path : ℕ} {p : List UInt8}
    (hp : CString m path p) : matchesPath m path sector = true ↔ headerPath sector = p := by
  have hlen := headerPath_length_le sector
  rw [matchesPath, beq_iff_eq, strncmp_eq_zero_iff (cString_rebuildFilename sector) hp,
    List.take_of_length_le (by omega)]
  constructor
  · intro heq
    rw [heq, List.take_eq_self_iff]
    have := congrArg List.length heq
    rw [List.length_take] at this
    omega
  · rintro rfl
    exact (List.take_of_length_le (by omega)).symm

/-- A header is matched by the path of its entry. -/
theorem matchesPath_iff (h : IsEntry sector e) {m : Memory} {path : ℕ} {p : List UInt8}
    (hp : CString m path p) : matchesPath m path sector = true ↔ e.path = p := by
  rw [matchesPath_iff_headerPath hp, headerPath_eq h]

end header

/-! ## Archives on a disk -/

/-- The archive is stored from the sector `lba` on. -/
def Stored (disk : ℕ → Memory) : (lba : ℕ) → List Entry → Prop
  | lba, [] => ¬HasSignature (disk lba)
  | lba, e :: es => IsHeader (disk lba) e ∧ Stored disk (lba + 1 + e.dataSectors) es

/-- So are the headers of the entries, whatever their sizes are written like. -/
def HeadersAt (disk : ℕ → Memory) : (lba : ℕ) → List Entry → Prop
  | lba, [] => ¬HasSignature (disk lba)
  | lba, e :: es => IsEntry (disk lba) e ∧ HeadersAt disk (lba + 1 + e.dataSectors) es

/-- The sectors of the entries, headers and data. -/
def sectors (es : List Entry) : ℕ := (es.map fun e => 1 + e.dataSectors).sum

@[simp] theorem sectors_nil : sectors [] = 0 := rfl

@[simp] theorem sectors_cons (e : Entry) (es : List Entry) :
    sectors (e :: es) = 1 + e.dataSectors + sectors es := List.sum_cons

theorem sectors_append (es es' : List Entry) : sectors (es ++ es') = sectors es + sectors es' := by
  rw [sectors, List.map_append, List.sum_append]
  rfl

/-- The sectors of the headers. -/
def headers : (lba : ℕ) → List Entry → List ℕ
  | _, [] => []
  | lba, e :: es => lba :: headers (lba + 1 + e.dataSectors) es

/-- The end of an archive is stored after its beginning. -/
theorem Stored.append {disk : ℕ → Memory} {lba : ℕ} {es es' : List Entry}
    (h : Stored disk lba (es ++ es')) : Stored disk (lba + sectors es) es' := by
  induction es generalizing lba with
  | nil => exact h
  | cons e es ih =>
    have := ih h.2
    rwa [sectors_cons, ← Nat.add_assoc, ← Nat.add_assoc]

theorem Stored.headersAt {disk : ℕ → Memory} {lba : ℕ} {es : List Entry} (h : Stored disk lba es) :
    HeadersAt disk lba es := by
  induction es generalizing lba with
  | nil => exact h
  | cons e es ih => exact ⟨h.1.isEntry, ih h.2⟩

theorem HeadersAt.append {disk : ℕ → Memory} {lba : ℕ} {es es' : List Entry}
    (h : HeadersAt disk lba (es ++ es')) : HeadersAt disk (lba + sectors es) es' := by
  induction es generalizing lba with
  | nil => exact h
  | cons e es ih =>
    have := ih h.2
    rwa [sectors_cons, ← Nat.add_assoc, ← Nat.add_assoc]

end Cboot
