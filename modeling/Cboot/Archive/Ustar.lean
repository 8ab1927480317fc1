import Cboot.Disk.Gpt
import Cboot.Mem

/-!
# The archive walkers

The functions of `ustar.c`. All of them go through the headers of an archive with the
same loop (`walkHeaders`), except for two things, which are its parameters: how a
walker rounds the size of a file to sectors, and which header it stops at.

* `ustarListFiles` and `ustarLoadFile` keep the size in 32 bits and round it there
  (`numSectorsU32`), `ustarGetFilesize` rounds it in 64 bits (`numSectorsU64`);
* the sector of a header is read to a buffer of its own, and so is the name put
  together from it: none of them is in the memory that the walkers are given.
-/

namespace Cboot

/-! ## Headers -/

/-- The loop of `oct2bin` after `i` rounds. -/
def oct2bin (m : Memory) (str : ℕ) : (i : ℕ) → UInt64
  | 0 => 0
  | i + 1 => oct2bin m str i * 8 + ((m (str + i)).toUInt64 - 48)

/-- The characters of `"ustar"`. -/
def ustarSignature : List UInt8 := [0x75, 0x73, 0x74, 0x61, 0x72]

/-- The test of the signature. -/
def hasSignature (buf : Memory) : Bool := memcmp buf 257 (literal ustarSignature) 0 5 == 0

/-- The size field, decoded. -/
def headerFilesize (buf : Memory) : UInt64 := oct2bin buf 0x7c 11

/-- The type field. -/
def headerType (buf : Memory) : UInt8 := buf 156

/-- The buffer `filename`: a slash, the field `filename_prefix` and the field `filename`. -/
def rebuildFilename (buf : Memory) : Memory :=
  let filename := memset (fun _ => 0) 0 0 257
  let filename := filename.set 0 0x2F
  let (filename, prefixSize) := strncpy filename 1 buf 345 155
  (strncpy filename (1 + prefixSize) buf 0 100).1

/-- The comparison with the path. -/
def matchesPath (m : Memory) (path : ℕ) (buf : Memory) : Bool :=
  strncmp (rebuildFilename buf) 0 m path 257 == 0

/-! ## Walking -/

/-- The number of sectors of a file, its size kept in 64 bits. -/
def numSectorsU64 (filesize : UInt64) : UInt32 := ((filesize + 511) / 512).toUInt32

/-- The number of sectors of a file, its size kept in 32 bits. -/
def numSectorsU32 (filesize : UInt64) : UInt32 := (filesize.toUInt32 + 511) / 512

/-- The switch on the type: a file is followed by its sectors, a directory by the next
    header, and for no other type is there a step. -/
def seekerAfter (type : UInt8) (seeker : UInt64) (numSectors : UInt32) : UInt64 :=
  if type = 0 ∨ type = 0x30 then seeker + 1 + numSectors.toUInt64
  else if type = 0x35 then seeker + 1
  else seeker

section walkers

variable {δ : Type} (io : Ports δ)

/-- A round of the loop, from the buffer and the sector it has come to. -/
def headerRound (gpte : GPTEntry) (numSectors : UInt64 → UInt32) (select : Memory → Bool) :
    δ × Memory × UInt64 → Fueled (δ × Memory × UInt64 ⊕ δ × Option (UInt64 × Memory))
  | (d, buf, seeker) => do
    let (d, buf) ← ataPioReadSectors io (d, buf) 0 (seeker + gpte.startingLba).toUInt32 1
    if hasSignature buf = false then pure (.inr (d, none))
    else if select buf = true then pure (.inr (d, some (seeker, buf)))
    else pure (.inl (d, buf,
      seekerAfter (headerType buf) seeker (numSectors (headerFilesize buf))))

/-- The loop: the sector, and the header, that it stops at. -/
def walkHeaders (gpte : GPTEntry) (numSectors : UInt64 → UInt32) (select : Memory → Bool)
    (d : δ) : Fueled (δ × Option (UInt64 × Memory)) :=
  .loop (headerRound io gpte numSectors select) (d, memset (fun _ => 0) 0 0 512, 0)

/-- The device after the listing: no header stops its walk. -/
def ustarListFiles (d : δ) (gpte : GPTEntry) : Fueled δ := do
  let (d, _) ← walkHeaders io gpte numSectorsU32 (fun _ => false) d
  pure d

/-- The result, and what is stored through `ret_filesize`. -/
def ustarGetFilesize (d : δ) (m : Memory) (gpte : GPTEntry) (path : ℕ) :
    Fueled (δ × UInt64 × Option UInt64) := do
  let (d, found) ← walkHeaders io gpte numSectorsU64 (matchesPath m path) d
  match found with
  | none => pure (d, -1, none)
  | some (_, buf) => pure (d, 0, some (headerFilesize buf))

/-- The result, and what is stored through `sectors`. -/
def ustarGetNumSectors (d : δ) (m : Memory) (gpte : GPTEntry) (path : ℕ) :
    Fueled (δ × UInt64 × Option UInt64) := do
  let (d, result, filesize) ← ustarGetFilesize io d m gpte path
  pure (d, result, filesize.map fun filesize => (filesize + 511) / 512)

/-- The result, and the memory with the file at `dst_buf`. -/
def ustarLoadFile (d : δ) (m : Memory) (gpte : GPTEntry) (path dstBuf : ℕ) :
    Fueled ((δ × Memory) × UInt64) := do
  let (d, found) ← walkHeaders io gpte numSectorsU32 (matchesPath m path) d
  match found with
  | none => pure ((d, m), 0)
  | some (seeker, buf) =>
    let filesize := (headerFilesize buf).toUInt32
    let numSectors := numSectorsU32 (headerFilesize buf)
    let seeker := seeker + 1
    let s ← ataPioReadSectors io (d, m) dstBuf (seeker + gpte.startingLba).toUInt32
      numSectors.toUInt8
    pure (s, filesize.toUInt64)

end walkers

end Cboot
