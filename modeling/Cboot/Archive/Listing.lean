import Cboot.Archive.AnyDisk
import Cboot.Archive.Lookup
import Cboot.Console.Text
import Cboot.Lib.Delimited

/-!
# The printed archive

What `ustar_list_files` prints: a line for every header that it comes by, with the name field of
the header.

* `listing_ends_iff`: on any disk, the listing ends if and only if the headers do, and prints a
  line for each of them;
* `listed_of_stored`: on a disk with an archive, these are the lines of the entries;
* `listing_eq_iff`: the lines tell the names, the sizes of the files, and which entries are
  directories. They do not tell the prefixes.
-/

namespace Cboot

open AtaDevice Fueled

/-! ## The printer -/

/-- The output for a header, by its type. The buffer of `putd` is in a frame below. -/
def printHeader (below : Memory) (digits : ℕ) (buf : Memory) (out : List UInt8) :
    Fueled (List UInt8) := do
  let out := putc out 0x2F
  let out ← puts buf 0 out
  let type := headerType buf
  if type = 0 ∨ type = 0x30 then
    let out ← puts (literal (ascii " :file size=")) 0 out
    let (_, out) ← putd below digits (headerFilesize buf).toUInt32.toUInt64 out
    pure (putc out 0x0A)
  else if type = 0x35 then puts (literal (ascii " :directory\n")) 0 out
  else pure out

section printer

variable {δ : Type} (io : Ports δ)

/-- A round of the loop, from the buffer, the sector and the text it has come to. -/
def listRound (gpte : GPTEntry) (below : Memory) (digits : ℕ) :
    δ × Memory × UInt64 × List UInt8 → Fueled (δ × Memory × UInt64 × List UInt8 ⊕ δ × List UInt8)
  | (d, buf, seeker, out) => do
    let (d, buf) ← ataPioReadSectors io (d, buf) 0 (seeker + gpte.startingLba).toUInt32 1
    if hasSignature buf = false then pure (.inr (d, out))
    else
      let out ← printHeader below digits buf out
      pure (.inl (d, buf,
        seekerAfter (headerType buf) seeker (numSectorsU32 (headerFilesize buf)), out))

/-- `ustar_list_files`, with the text. The buffer is at the beginning of `stack`. -/
def ustarListFilesPrints (d : δ) (gpte : GPTEntry) (stack below : Memory) (digits : ℕ)
    (out : List UInt8) : Fueled (δ × List UInt8) :=
  .loop (listRound io gpte below digits) (d, memset stack 0 0 512, 0, out)

end printer

/-! ## Any disk -/

/-- The line for a header with the name. -/
def headerText (sector : Memory) (name : List UInt8) : List UInt8 :=
  0x2F :: name ++
    if headerType sector = 0 ∨ headerType sector = 0x30 then
      ascii " :file size=" ++ decimal (headerFilesize sector).toUInt32.toNat ++ [0x0A]
    else if headerType sector = 0x35 then ascii " :directory\n"
    else []

/-- The text of a listing that has come to `seeker`. A name that fills its field goes on in the
    next ones, and behind the sector on the stack. -/
inductive Listed (disk : ℕ → Memory) (gpte : GPTEntry) (stack : Memory) :
    UInt64 → List UInt8 → Prop
  | last {seeker : UInt64} (h : ¬HasSignature (disk (sectorAt gpte seeker))) :
      Listed disk gpte stack seeker []
  | next {seeker : UInt64} {name text : List UInt8}
      (h : HasSignature (disk (sectorAt gpte seeker)))
      (hname : CString ((disk (sectorAt gpte seeker)).splice 512 stack) 0 name)
      (hrest : Listed disk gpte stack (seekerAfter (headerType (disk (sectorAt gpte seeker)))
        seeker (numSectorsU32 (headerFilesize (disk (sectorAt gpte seeker))))) text) :
      Listed disk gpte stack seeker (headerText (disk (sectorAt gpte seeker)) name ++ text)

section any

variable {d d' : AtaDevice} {gpte : GPTEntry} {stack below buf : Memory} {digits : ℕ}
  {seeker : UInt64} {out out' name text : List UInt8}

theorem printHeader_returns (below : Memory) (digits : ℕ) (h : CString buf 0 name)
    (out : List UInt8) :
    (printHeader below digits buf out).Returns (out ++ headerText buf name) := by
  rw [printHeader, (puts_returns h _).bind_iff, headerText]
  dsimp only
  split_ifs with h₁ h₂
  · obtain ⟨_, hd, -⟩ := putd_returns below digits (headerFilesize buf).toUInt32.toUInt64
      (putc out 0x2F ++ name ++ ascii " :file size=")
    rw [(puts_ascii (by decide) _).bind_iff, hd.bind_iff, returns_pure_iff]
    simp only [putc, UInt32.toNat_toUInt64, List.append_assoc, List.cons_append, List.nil_append]
  · have hline := puts_ascii (s := " :directory\n") (by decide) (putc out 0x2F ++ name)
    simpa only [putc, List.append_assoc, List.cons_append, List.nil_append] using hline
  · rw [returns_pure_iff]
    simp only [putc, List.append_assoc, List.singleton_append, List.append_nil]

/-- The line of a header ends if and only if its name does. -/
theorem printHeader_returns_iff : (printHeader below digits buf out).Returns out' ↔
    ∃ name, CString buf 0 name ∧ out' = out ++ headerText buf name := by
  constructor
  · intro h
    obtain ⟨_, hputs, -⟩ := returns_bind_iff.1 h
    obtain ⟨name, hname, -⟩ := puts_returns_iff.1 hputs
    exact ⟨name, hname, h.unique (printHeader_returns below digits hname out)⟩
  · rintro ⟨name, hname, rfl⟩
    exact printHeader_returns below digits hname out

/-- The sector in the buffer, with what is behind it. -/
theorem storeSectors_stack (hbuf : ∀ x, 512 ≤ x → buf x = stack x) (disk : ℕ → Memory) (lba : ℕ) :
    storeSectors buf 0 disk lba 1 = (disk lba).splice 512 stack := by
  funext x
  by_cases hx : x < 512
  · have hbyte : storeSectors buf 0 disk lba 1 (0 + x) = _ := storeSectors_of_lt (by omega)
    rw [Nat.zero_add, Nat.div_eq_of_lt hx, Nat.mod_eq_of_lt hx, Nat.add_zero] at hbyte
    rw [hbyte, Memory.splice_of_lt hx]
  · rw [storeSectors_of_not_mem (by omega), Memory.splice_of_le (by omega), hbuf x (by omega)]

/-- A round, told by the sector that it reads. -/
theorem listRound_sector (gpte : GPTEntry) (below : Memory) (digits : ℕ) (seeker : UInt64)
    (out : List UInt8) (hl : d.Live) (hbuf : ∀ x, 512 ≤ x → buf x = stack x) :
    ∃ d', After d d' [(sectorAt gpte seeker, 1)] ∧
      (¬HasSignature (d.disk (sectorAt gpte seeker)) →
        (listRound ports gpte below digits (d, buf, seeker, out)).Returns (.inr (d', out))) ∧
      (HasSignature (d.disk (sectorAt gpte seeker)) → ∀ r,
        (listRound ports gpte below digits (d, buf, seeker, out)).Returns r ↔
          ∃ name, CString ((d.disk (sectorAt gpte seeker)).splice 512 stack) 0 name ∧
            r = .inl (d', (d.disk (sectorAt gpte seeker)).splice 512 stack,
              seekerAfter (headerType (d.disk (sectorAt gpte seeker))) seeker
                (numSectorsU32 (headerFilesize (d.disk (sectorAt gpte seeker)))),
              out ++ headerText (d.disk (sectorAt gpte seeker)) name)) := by
  obtain ⟨d', hread, ha⟩ := ataPioReadSectors_returns hl buf 0
    (seeker + gpte.startingLba).toUInt32 1
  have hone : (1 : UInt8).toNat = 1 := rfl
  rw [← sectorAt, hone] at hread ha
  rw [storeSectors_stack hbuf] at hread
  generalize d.disk (sectorAt gpte seeker) = sector at hread ⊢
  have hsector : ∀ x < 512, sector.splice 512 stack x = sector x := fun x hx =>
    Memory.splice_of_lt hx
  have hsig := hasSignature_congr hsector
  have htext : ∀ name, headerText (sector.splice 512 stack) name = headerText sector name := by
    intro name
    rw [headerText, headerText, headerType_congr hsector, headerFilesize_congr hsector]
  refine ⟨d', ha, fun h => ?_, fun h r => ?_⟩
  · have hnone : hasSignature (sector.splice 512 stack) = false :=
      Bool.eq_false_iff.2 fun h' => h (hsig.1 h')
    rw [listRound, hread.bind_iff]
    simp only [hnone, if_true, returns_pure_iff]
  · rw [listRound, hread.bind_iff]
    simp only [hsig.2 h, Bool.true_eq_false, if_false, returns_bind_iff, printHeader_returns_iff,
      returns_pure_iff, headerType_congr hsector, headerFilesize_congr hsector, htext]
    constructor
    · rintro ⟨_, ⟨name, hname, rfl⟩, rfl⟩
      exact ⟨name, hname, rfl⟩
    · rintro ⟨name, hname, rfl⟩
      exact ⟨_, ⟨name, hname, rfl⟩, rfl⟩

/-- The loop prints what the sectors say. -/
theorem loop_of_listed {disk : ℕ → Memory} (h : Listed disk gpte stack seeker text) (below : Memory)
    (digits : ℕ) (out : List UInt8) (hl : d.Live) (hd : d.disk = disk)
    (hbuf : ∀ x, 512 ≤ x → buf x = stack x) :
    ∃ d', (loop (listRound ports gpte below digits) (d, buf, seeker, out)).Returns
      (d', out ++ text) := by
  induction h generalizing d buf out with
  | @last seeker hsig =>
    obtain ⟨d', _, h, -⟩ := listRound_sector gpte below digits seeker out hl hbuf
    rw [List.append_nil]
    exact ⟨d', Returns.loop_done (h (hd ▸ hsig))⟩
  | @next seeker name text hsig hname _ ih =>
    obtain ⟨d₁, ha₁, -, h⟩ := listRound_sector gpte below digits seeker out hl hbuf
    rw [hd] at h
    obtain ⟨d', hr⟩ := ih (out ++ headerText (disk (sectorAt gpte seeker)) name) (ha₁.live hl)
      (ha₁.disk.trans hd) fun x hx => Memory.splice_of_le hx
    rw [List.append_assoc] at hr
    exact ⟨d', (Returns.loop_iff ((h hsig _).2 ⟨name, hname, rfl⟩)).2 hr⟩

/-- Where the loop ends, so do the sectors say. -/
theorem listed_of_loop (hl : d.Live) (hbuf : ∀ x, 512 ≤ x → buf x = stack x)
    (h : (loop (listRound ports gpte below digits) (d, buf, seeker, out)).Returns (d', out')) :
    ∃ text, Listed d.disk gpte stack seeker text ∧ out' = out ++ text := by
  have key := h.loop_rec (P := fun s => ∀ disk, s.1.Live → s.1.disk = disk →
    (∀ x, 512 ≤ x → s.2.1 x = stack x) →
      ∃ text, Listed disk gpte stack s.2.2.1 text ∧ out' = s.2.2.2 ++ text) ?_ ?_
  · exact key _ hl rfl hbuf
  · rintro ⟨d, buf, seeker, out⟩ hr disk hl rfl hbuf
    obtain ⟨d₁, _, h₁, h₂⟩ := listRound_sector gpte below digits seeker out hl hbuf
    by_cases hsig : HasSignature (d.disk (sectorAt gpte seeker))
    · obtain ⟨_, -, hr⟩ := (h₂ hsig _).1 hr
      exact absurd hr (by simp)
    · obtain ⟨_, rfl⟩ := Prod.mk.inj (Sum.inr.inj (hr.unique (h₁ hsig)))
      exact ⟨[], .last hsig, (List.append_nil _).symm⟩
  · rintro ⟨d, buf, seeker, out⟩ s' hr ih disk hl rfl hbuf
    obtain ⟨d₁, ha, h₁, h₂⟩ := listRound_sector gpte below digits seeker out hl hbuf
    by_cases hsig : HasSignature (d.disk (sectorAt gpte seeker))
    · obtain ⟨name, hname, hs'⟩ := (h₂ hsig _).1 hr
      obtain rfl := Sum.inl.inj hs'
      obtain ⟨text, htext, rfl⟩ := ih _ (ha.live hl) ha.disk fun x hx => Memory.splice_of_le hx
      exact ⟨_, .next hsig hname htext, List.append_assoc ..⟩
    · exact absurd (hr.unique (h₁ hsig)) (by simp)

theorem memset_stack (stack : Memory) : ∀ x, 512 ≤ x → memset stack 0 0 512 x = stack x := by
  intro x hx
  rw [memset_zero, Memory.fill_of_not_mem (by omega)]

/-- The listing ends if and only if the headers do, and prints a line for each of them. -/
theorem listing_ends_iff (hl : d.Live) :
    (∃ d', (ustarListFilesPrints ports d gpte stack below digits out).Returns (d', out')) ↔
      ∃ text, Listed d.disk gpte stack 0 text ∧ out' = out ++ text := by
  constructor
  · rintro ⟨d', h⟩
    exact listed_of_loop hl (memset_stack stack) h
  · rintro ⟨text, h, rfl⟩
    exact loop_of_listed h below digits out hl rfl (memset_stack stack)

end any

/-! ## Archives -/

/-- The line of an entry, without its newline. -/
def Entry.body (e : Entry) : List UInt8 :=
  0x2F :: e.name ++
    if e.IsDirectory then ascii " :directory" else ascii " :file size=" ++ decimal e.size

/-- The listing of an archive. -/
def listing (es : List Entry) : List UInt8 := es.flatMap fun e => e.body ++ [0x0A]

/-- What is shown of an entry: its name, and the size of a file. -/
def Entry.shown (e : Entry) : List UInt8 × Option ℕ :=
  (e.name, if e.IsDirectory then none else some e.size)

/-- The entry is passed, and its name is a line that ends in its field. -/
structure Entry.Listable (e : Entry) : Prop where
  passes : Passes numSectorsU32 e
  name_lt : e.name.length < 100
  newline : 0x0A ∉ e.name

section stored

variable {d : AtaDevice} {gpte : GPTEntry} {stack below buf sector : Memory} {digits lba : ℕ}
  {seeker : UInt64} {out out' name text : List UInt8} {e e' : Entry} {es es' : List Entry}

/-- A string that ends in its field. -/
theorem cString_fieldString {m : Memory} {p n : ℕ} (h : (fieldString m p n).length < n) :
    CString m p (fieldString m p n) := by
  induction n generalizing p with
  | zero => exact absurd h (Nat.not_lt_zero _)
  | succ n ih =>
    rw [fieldString] at h ⊢
    split_ifs at h ⊢ with hne
    · exact ⟨rfl, hne, ih (Nat.lt_of_succ_lt_succ h)⟩
    · exact not_not.1 hne

/-- The size of a file that is passed has 32 bits. -/
theorem Entry.Listable.size_lt (h : e.Listable) (hd : ¬e.IsDirectory) :
    e.IsRegular ∧ e.size < 2 ^ 32 := by
  obtain ⟨hr, hsize⟩ := h.passes.resolve_left hd
  rw [numSectorsU32_toNat] at hsize
  exact ⟨hr, by omega⟩

theorem Entry.Listable.headerText (h : e.Listable) (hs : IsHeader sector e) :
    headerText sector e.name = e.body ++ [0x0A] := by
  rw [Cboot.headerText, Entry.body, headerType_eq hs.isEntry, headerFilesize_eq hs]
  by_cases hd : e.IsDirectory
  · have htype : e.type = 0x35 := hd
    have htype' : ¬(e.type = 0 ∨ e.type = 0x30) := fun hr => e.not_isDirectory_of_isRegular hr hd
    have hline : ascii " :directory\n" = ascii " :directory" ++ [0x0A] := rfl
    rw [if_neg htype', if_pos htype, if_pos hd, hline]
    simp only [List.append_assoc, List.cons_append]
  · obtain ⟨hr, hsize⟩ := h.size_lt hd
    have htype : e.type = 0 ∨ e.type = 0x30 := hr
    have hnat : (UInt64.ofNat e.size).toUInt32.toNat = e.size := by
      rw [UInt64.toNat_toUInt32, UInt64.toNat_ofNat']
      omega
    rw [if_pos htype, if_neg hd, hnat]
    simp only [List.append_assoc, List.cons_append]

/-- Every entry of the archive is listed. -/
theorem listed_of_stored {disk : ℕ → Memory} (stack : Memory)
    (hs : seeker.toNat + gpte.startingLba.toNat = lba) (hst : Stored disk lba es)
    (hes : ∀ e ∈ es, e.Listable) (hlt : lba + sectors es < 2 ^ 28) :
    Listed disk gpte stack seeker (listing es) := by
  induction es generalizing seeker lba with
  | nil =>
    refine .last ?_
    rw [sectorAt_eq hs (by rw [sectors_nil] at hlt; omega)]
    exact hst
  | cons e es ih =>
    rw [sectors_cons] at hlt
    obtain ⟨he, hes⟩ := List.forall_mem_cons.1 hes
    obtain ⟨hheader, hst⟩ := hst
    have hsector := sectorAt_eq hs (by omega)
    have hnext := seekerAfter_toNat he.passes (show seeker.toNat < 2 ^ 28 by omega)
    have hs' : (seekerAfter e.type seeker (numSectorsU32 (.ofNat e.size))).toNat +
        gpte.startingLba.toNat = lba + 1 + e.dataSectors := by omega
    have hrest := ih hs' hst hes (by omega)
    have hname : CString ((disk lba).splice 512 stack) 0 e.name := by
      have hend := cString_fieldString (m := disk lba) (p := 0) (n := 100)
        (hheader.name ▸ he.name_lt)
      rw [hheader.name] at hend
      refine hend.congr fun x _ hx => Memory.splice_of_lt ?_
      have := he.name_lt
      omega
    rw [listing, List.flatMap_cons, ← he.headerText hheader, ← hsector]
    refine .next (hsector ▸ hheader.signature) (hsector ▸ hname) ?_
    rw [hsector, headerType_eq hheader.isEntry, headerFilesize_eq hheader]
    exact hrest

/-- What is printed of a directory and two files. -/
theorem listing_ends_iff_someEntries : ∃ d', (ustarListFilesPrints ports
    (driveOf (archive 2048 someEntries)) onePartition (fun _ => 0) (fun _ => 0) 0 []).Returns
      (d', ascii "/d :directory\n/b :file size=600\n/a :file size=1\n") := by
  refine (listing_ends_iff (live_driveOf _)).2 ⟨listing someEntries, ?_, by decide +kernel⟩
  exact listed_of_stored _ (zero_add_startingLba onePartition) (stored_archive 2048 someEntries)
    (List.forall_mem_cons.2 ⟨⟨.inl rfl, by decide, by decide⟩, List.forall_mem_cons.2
      ⟨⟨passes_u32 (.inr ⟨by decide, by decide⟩), by decide, by decide⟩,
        List.forall_mem_singleton.2
          ⟨passes_u32 (.inr ⟨by decide, by decide⟩), by decide, by decide⟩⟩⟩) (by decide)

/-! ## Reading the listing -/

theorem decimal_ne_nil (n : ℕ) : decimal n ≠ [] := by
  rw [decimal]
  split_ifs with h
  · simp
  · simpa using Nat.digits_ne_nil_iff_ne_zero.2 h

/-- A line of a directory is not that of a file, whatever their names are. -/
theorem directory_ne_file {name name' : List UInt8} (n : ℕ) :
    name ++ ascii " :directory" ≠ name' ++ (ascii " :file size=" ++ decimal n) := by
  intro h
  have hdir : (name ++ ascii " :directory").getLast? = some 0x79 := by
    rw [List.getLast?_append]
    rfl
  have hc := List.getLast?_eq_some_getLast (decimal_ne_nil n)
  rw [h, ← List.append_assoc, List.getLast?_append, hc, Option.some_or] at hdir
  rw [Option.some.inj hdir] at hc
  exact not_mem_decimal (by decide) n (List.mem_of_getLast? hc)

/-- A line tells what is shown of an entry. -/
theorem Entry.body_eq_iff : e.body = e'.body ↔ e.shown = e'.shown := by
  have hsize : ascii " :file size=" = ascii " :file size" ++ [0x3D] := rfl
  rw [body, body, shown, shown, List.cons_append, List.cons_append, List.cons.injEq, Prod.mk.injEq]
  simp only [true_and]
  by_cases hd : e.IsDirectory <;> by_cases hd' : e'.IsDirectory
  · simp only [if_pos hd, if_pos hd', List.append_cancel_right_eq, and_true]
  · simp only [if_pos hd, if_neg hd', reduceCtorEq, and_false, iff_false]
    exact directory_ne_file _
  · simp only [if_neg hd, if_pos hd', reduceCtorEq, and_false, iff_false]
    exact Ne.symm (directory_ne_file _)
  · -- The size is behind the last equals sign.
    simp only [if_neg hd, if_neg hd', Option.some.injEq, hsize, List.append_assoc,
      List.singleton_append]
    rw [← List.append_assoc, ← List.append_assoc, Delimited.append_delimiter_inj'
      (not_mem_decimal (by decide) _) (not_mem_decimal (by decide) _),
      List.append_cancel_right_eq, and_congr_right_iff]
    exact fun _ => ⟨decimal_inj, fun h => by rw [h]⟩

theorem Entry.Listable.newline_not_mem_body (h : e.Listable) : 0x0A ∉ e.body := by
  rw [Entry.body, List.cons_append, List.mem_cons, List.mem_append, not_or, not_or]
  refine ⟨by decide, h.newline, ?_⟩
  split_ifs
  · decide
  · rw [List.mem_append, not_or]
    exact ⟨by decide, not_mem_decimal (by decide) _⟩

/-- The listing tells what is shown of the entries. -/
theorem listing_eq_iff (hes : ∀ e ∈ es, e.Listable) (hes' : ∀ e ∈ es', e.Listable) :
    listing es = listing es' ↔ es.map Entry.shown = es'.map Entry.shown := by
  have hparts : ∀ es : List Entry,
      listing es = (es.map Entry.body).flatMap fun part => part ++ [0x0A] := fun es => by
    rw [listing, List.flatMap_map]
  have hdelimited : ∀ es : List Entry, (∀ e ∈ es, e.Listable) →
      ∀ part ∈ es.map Entry.body, 0x0A ∉ part := by
    intro es hes part hpart
    obtain ⟨e, he, rfl⟩ := List.mem_map.1 hpart
    exact (hes e he).newline_not_mem_body
  have hbody : ∀ e e' : Entry, e.body = e'.body ↔ e.shown = e'.shown := fun _ _ => Entry.body_eq_iff
  rw [← Delimited.map_eq_map_iff_of_iff hbody, hparts, hparts]
  exact ⟨Delimited.flatMap_inj (P := fun part => 0x0A ∉ part) (fun _ h => h) (fun _ _ _ _ h => h)
    (hdelimited es hes) (hdelimited es' hes'), fun h => by rw [h]⟩

/-- Archives of two disks are listed, whatever is on the stacks, and the texts are the same if and
    only if the same is shown of the entries. -/
theorem listing_tells {d' : AtaDevice} {gpte' : GPTEntry} (hl : d.Live)
    (hst : Stored d.disk gpte.startingLba.toNat es) (hes : ∀ e ∈ es, e.Listable)
    (hfit : gpte.startingLba.toNat + sectors es < 2 ^ 28) (hl' : d'.Live)
    (hst' : Stored d'.disk gpte'.startingLba.toNat es') (hes' : ∀ e ∈ es', e.Listable)
    (hfit' : gpte'.startingLba.toNat + sectors es' < 2 ^ 28) (stack stack' below below' : Memory)
    (digits digits' : ℕ) (out out' : List UInt8) :
    ∃ d₁ d₁' text text',
      (ustarListFilesPrints ports d gpte stack below digits out).Returns (d₁, out ++ text) ∧
      (ustarListFilesPrints ports d' gpte' stack' below' digits' out').Returns
        (d₁', out' ++ text') ∧
      (text = text' ↔ es.map Entry.shown = es'.map Entry.shown) := by
  obtain ⟨d₁, h₁⟩ :=
    loop_of_listed (listed_of_stored stack (zero_add_startingLba gpte) hst hes hfit)
    below digits out hl rfl (memset_stack stack)
  obtain ⟨d₁', h₁'⟩ := loop_of_listed
    (listed_of_stored stack' (zero_add_startingLba gpte') hst' hes' hfit') below' digits' out' hl'
    rfl (memset_stack stack')
  exact ⟨d₁, d₁', listing es, listing es', h₁, h₁', listing_eq_iff hes hes'⟩

/-- The file `a` with the prefix `b`. -/
def prefixedFile : Entry := { oneFile with
  namePrefix := [0x62]
  namePrefix_length := by decide
  ne_zero := List.forall_mem_cons.2 ⟨by decide, List.forall_mem_singleton.2 (by decide)⟩ }

/-- Two files with other paths, whose lines are the same. -/
theorem listing_tells_prefix :
    let d := driveOf (archive 2048 [oneFile])
    let d' := driveOf (archive 2048 [prefixedFile])
    ∃ d₁ d₁' text text', (ustarListFilesPrints ports d onePartition (fun _ => 0) (fun _ => 0) 0
        []).Returns (d₁, [] ++ text) ∧
      (ustarListFilesPrints ports d' onePartition (fun _ => 0) (fun _ => 0) 0 []).Returns
        (d₁', [] ++ text') ∧
      (text = text' ↔ [oneFile].map Entry.shown = [prefixedFile].map Entry.shown) := by
  have hst : Stored (driveOf (archive 2048 [oneFile])).disk onePartition.startingLba.toNat
      [oneFile] := stored_archive 2048 [oneFile]
  have hst' : Stored (driveOf (archive 2048 [prefixedFile])).disk onePartition.startingLba.toNat
      [prefixedFile] := stored_archive 2048 [prefixedFile]
  have hes : ∀ e ∈ [oneFile], e.Listable := List.forall_mem_singleton.2
    ⟨passes_u32 (.inr ⟨by decide, by decide⟩), by decide, by decide⟩
  have hes' : ∀ e ∈ [prefixedFile], e.Listable := List.forall_mem_singleton.2
    ⟨passes_u32 (.inr ⟨by decide, by decide⟩), by decide, by decide⟩
  exact listing_tells (live_driveOf _) hst hes (by decide) (live_driveOf _) hst' hes' (by decide)
    _ _ _ _ _ _ _ _

end stored

end Cboot
