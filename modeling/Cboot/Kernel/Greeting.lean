import Cboot.Console.Text
import Cboot.Console.Vga
import Cboot.Handover

/-!
# The greeting of the kernel

What `kmain` of the kernel does until it halts, on the machine that it is entered on: its stores
go through the page tables that the bootloader has left. Its messages to the serial port are left
out, as they are sent by a package.

* `drawBytes_spec`: text drawn on the screen through tables in order gets there, and nowhere else;
* `boot_greets`: from the disk to the screen: the kernel is entered, and its greeting is shown.
-/

namespace Cboot

/-- `HELLO_WORLD` -/
def helloWorld : List UInt8 := ascii "Hello World From The Kernel"

/-- The loop over the bytes, from the one numbered `i` on. Pages are not protected from the kernel:
    of the bits of CR0, only those for protected mode and for paging are set. -/
def drawBytes (m : Memory) : (bytes : List UInt8) → (i : ℕ) → Except ℕ Memory
  | [], _ => .ok m
  | byte :: bytes, i => do
    let m ← Virtual.storeByte m (0xb8000 + i * 2) byte
    let m ← Virtual.storeByte m (0xb8000 + i * 2 + 1) 0x1F
    drawBytes m bytes (i + 1)

/-- `kmain`, up to its endless loop. -/
def kmain (m : Memory) : Except ℕ Memory := drawBytes m helloWorld 0

/-- The cell `i` of the text buffer, in physical memory. -/
def screenCell (m : Memory) (i : ℕ) : VGAChar := ⟨m (0xb8000 + i * 2), m (0xb8000 + i * 2 + 1)⟩

section draw

variable {m : Memory} {it : ℕ} {own : Owners} {i x : ℕ}

/-- Tables in order below the stack, through which the text buffer is seen at its own address. -/
structure ShowsScreen (m : Memory) (it : ℕ) : Prop where
  tables : (∃ own, PageTree m it own) ∧ it ≤ 0x6F000
  screen : ∀ x, 0xb8000 ≤ x → x < 0xb8000 + 4000 → pageWalk m 0x1000 x = some ⟨x, true⟩

/-- A byte above the tables has no part in the translation of addresses. -/
theorem ShowsScreen.pageWalk_set (h : ShowsScreen m it) (hx : 0x6F000 ≤ x) (b : UInt8) (v : ℕ) :
    pageWalk (m.set x b) 0x1000 v = pageWalk m 0x1000 v := by
  obtain ⟨⟨own, ht⟩, hit⟩ := h.tables
  rw [pageWalk, pageWalk, ht.tables.walk_congr
    (fun y hy => Memory.set_of_ne _ _ (by omega)) (length_indices v)]

theorem ShowsScreen.set (h : ShowsScreen m it) (hx : 0x6F000 ≤ x) (b : UInt8) :
    ShowsScreen (m.set x b) it := by
  obtain ⟨⟨own, ht⟩, hit⟩ := id h.tables
  refine ⟨⟨⟨own, ht.congr fun y hy => Memory.set_of_ne _ _ (by omega)⟩, hit⟩, fun y h₁ h₂ => ?_⟩
  rw [h.pageWalk_set hx]
  exact h.screen y h₁ h₂

/-- A store to the text buffer. -/
theorem ShowsScreen.storeByte (h : ShowsScreen m it) (h₁ : 0xb8000 ≤ x) (h₂ : x < 0xb8000 + 4000)
    (b : UInt8) : Virtual.storeByte m x b = .ok (m.set x b) := by
  rw [Virtual.storeByte, translate_of_walk (.inl (by omega)) (h.screen x h₁ h₂)]
  rfl

/-- Text that fits on the screen is drawn there, white on blue. Nothing else changes, and all
    addresses lead to where they did. -/
theorem drawBytes_spec (h : ShowsScreen m it) {bytes : List UInt8}
    (hlen : i + bytes.length ≤ 2000) :
    ∃ m', drawBytes m bytes i = .ok m' ∧
      (∀ j c, bytes[j]? = some c → screenCell m' (i + j) = ⟨c, 0x1F⟩) ∧
      (∀ x, x < 0xb8000 + i * 2 ∨ 0xb8000 + (i + bytes.length) * 2 ≤ x → m' x = m x) ∧
      ∀ v, pageWalk m' 0x1000 v = pageWalk m 0x1000 v := by
  induction bytes generalizing m i with
  | nil => exact ⟨m, rfl, fun j c hj => absurd hj (by simp), fun _ _ => rfl, fun _ => rfl⟩
  | cons byte bytes ih =>
    rw [List.length_cons] at hlen
    have hset := h.set (x := 0xb8000 + i * 2) (by omega) byte
    obtain ⟨m', hdraw, hcells, hframe, hwalk⟩ := ih (i := i + 1)
      (hset.set (x := 0xb8000 + i * 2 + 1) (by omega) 0x1F) (by omega)
    refine ⟨m', ?_, fun j c hj => ?_, fun x hx => ?_, fun v => ?_⟩
    · rw [drawBytes, h.storeByte (by omega) (by omega), ok_bind,
        hset.storeByte (by omega) (by omega)]
      exact hdraw
    · cases j with
      | zero =>
        -- The cell of this round is not that of a later one.
        obtain rfl : byte = c := Option.some.inj hj
        rw [Nat.add_zero, screenCell, hframe _ (by omega), hframe _ (by omega), Memory.set_self,
          Memory.set_of_ne _ _ (by omega), Memory.set_self]
      | succ j =>
        have hnext := hcells j c hj
        rwa [Nat.add_right_comm, Nat.add_assoc] at hnext
    · rw [List.length_cons] at hx
      rw [hframe x (by omega), Memory.set_of_ne _ _ (by omega), Memory.set_of_ne _ _ (by omega)]
    · rw [hwalk, hset.pageWalk_set (by omega), h.pageWalk_set (by omega)]

end draw

/-! ## After the bootloader -/

section kernel

open AtaDevice Fueled

variable {d : AtaDevice} {m file : Memory} {buffer name path base n : ℕ}
  {rs : List BiosMemoryRegion}
  {gpte : GPTEntry} {es : List Entry} {e : Entry} {k : KernelEntry}

theorem Entered.showsScreen (h : Entered file rs base k) : ShowsScreen k.st.mem k.st.it := by
  refine ⟨h.tables, fun x _ hx => ?_⟩
  rw [h.pointer x (.inl (by omega)), Nat.mod_eq_of_lt (by omega)]

/-- The greeting is shown, and the window of the kernel is as it was. -/
theorem Entered.kmain (h : Entered file rs base k) (hbase : 0x100000 ≤ base) :
    ∃ m', kmain k.st.mem = .ok m' ∧
      (∀ j c, helloWorld[j]? = some c → screenCell m' j = ⟨c, 0x1F⟩) ∧
      (∀ x, x < 0xb8000 ∨ 0xb8000 + helloWorld.length * 2 ≤ x → m' x = k.st.mem x) ∧
      ∀ v, 0xFFFF900000000000 ≤ v → v < 2 ^ 64 → virtualByte m' v = firstPageByte file v := by
  have hlen : helloWorld.length = 27 := by decide
  have hfits : 0 + helloWorld.length ≤ 2000 := by omega
  obtain ⟨m', hdraw, hcells, hframe, hwalk⟩ := drawBytes_spec h.showsScreen hfits
  refine ⟨m', hdraw, fun j c hj => ?_, fun x hx => hframe x (by omega), fun v hv hv' => ?_⟩
  · have hcell := hcells j c hj
    rwa [Nat.zero_add] at hcell
  · rw [← h.window v hv hv', virtualByte, virtualByte, hwalk]
    refine Option.map_congr fun t ht => hframe _ ?_
    have := h.frame v hv hv' t ht
    omega

/-- From the disk to the screen: the kernel is entered, its greeting is shown, and it does not
    overwrite anything but the text buffer. -/
theorem boot_greets (hl : d.Live) (hm : MemoryReady m name path rs base)
    (hp : PartitionReady d.disk n gpte) (ha : ArchiveReady d.disk gpte es e)
    (hk : KernelReady (kernelFile d.disk gpte es) e.size) (stack : Memory)
    (hbuffer : buffer + 4096 ≤ 2 ^ 21) :
    ∃ d' log k m', (cbootMain ports d (.boot m) stack buffer name path).Returns (d', log, some k) ∧
      Cboot.kmain k.st.mem = .ok m' ∧
      (∀ j c, helloWorld[j]? = some c → screenCell m' j = ⟨c, 0x1F⟩) ∧
      (∀ x, x < 0xb8000 ∨ 0xb8000 + helloWorld.length * 2 ≤ x → m' x = k.st.mem x) ∧
      ∀ v, 0xFFFF900000000000 ≤ v → v < 2 ^ 64 →
        virtualByte m' v = firstPageByte (kernelFile d.disk gpte es) v := by
  have hbase := hm.bounds.1
  obtain ⟨d', hl', hdisk, _, hboot⟩ := cbootMain_of_loadKernel hl hm hp ha stack hbuffer
  rw [← hdisk] at ha hk
  obtain ⟨d'', log, k, hreturns, -, hentered⟩ := loadKernel_enters hl' hm ha hk
  obtain ⟨m', hkmain, hgreeting, hframe, hwindow⟩ := hentered.kmain hbase
  rw [hdisk] at hwindow
  exact ⟨d'', _, k, m', hboot _ _ _ hreturns, hkmain, hgreeting, hframe, hwindow⟩

end kernel

end Cboot
