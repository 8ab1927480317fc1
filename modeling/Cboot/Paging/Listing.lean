import Cboot.Console.Text
import Cboot.Lib.Delimited
import Cboot.Paging.Above

/-!
# Reading a listing of the page tables

What `print_pagetable` prints tells all that it is about: the numbers of a line are told by its
text, and the lines by the listing.

* `lines_of_text`: two listings with the same text have the same lines;
* `listing_tells_walk`: so if two states that are reached from the boot tables print the same
  text, then the processor takes every address for the same one in both.
-/

namespace Cboot

open Radix Fueled

/-! ## Lines -/

namespace Line

attribute [ext] Line

/-- The text of a line, without its newline. -/
def body (l : Line) : List UInt8 :=
  List.replicate (4 - l.level) 0x20 ++ ptText ++ decimal l.level ++ [0x5B] ++ decimal l.index ++
    [0x5D] ++ equalsText ++ hexNumeral 16 l.raw ++ paddrText ++ hexNumeral 16 l.paddr

variable {l l' : Line}

theorem newline_not_mem_body (l : Line) : 0x0A ∉ l.body := by
  simp only [body, List.mem_append, not_or]
  refine ⟨⟨⟨⟨⟨⟨⟨⟨⟨?_, by decide⟩, ?_⟩, by decide⟩, ?_⟩, by decide⟩, by decide⟩, ?_⟩, by decide⟩, ?_⟩
  · exact fun h => absurd (List.eq_of_mem_replicate h) (by decide)
  · exact not_mem_decimal (by decide) _
  · exact not_mem_decimal (by decide) _
  · exact not_mem_hexNumeral (by decide) _ _
  · exact not_mem_hexNumeral (by decide) _ _

/-- The numbers of a line are of 64 bits. -/
def Bounded (l : Line) : Prop := l.raw < 2 ^ 64 ∧ l.paddr < 2 ^ 64

/-- A line is told by its text. -/
theorem body_inj (h : l.Bounded) (h' : l'.Bounded) (heq : l.body = l'.body) : l = l' := by
  have hlen : ∀ val, (hexNumeral 16 val).length = 16 := hexNumeral_length 16
  -- From the end on: the numbers of 16 digits, and what is between them.
  simp only [body] at heq
  obtain ⟨heq, hpaddr⟩ := List.append_inj' heq (by rw [hlen, hlen])
  obtain ⟨heq, -⟩ := List.append_inj' heq rfl
  obtain ⟨heq, hraw⟩ := List.append_inj' heq (by rw [hlen, hlen])
  obtain ⟨heq, -⟩ := List.append_inj' heq rfl
  obtain ⟨heq, -⟩ := List.append_inj' heq rfl
  -- The bracket is only in front of the index.
  have hbracket : ∀ level, 0x5B ∉ List.replicate (4 - level) 0x20 ++ ptText ++ decimal level := by
    intro level
    simp only [List.mem_append, not_or]
    exact ⟨⟨fun h => absurd (List.eq_of_mem_replicate h) (by decide), by decide⟩,
      not_mem_decimal (by decide) _⟩
  obtain ⟨hlevel, hindex⟩ :=
    (Delimited.append_singleton_inj (hbracket l.level) (hbracket l'.level)).1 heq
  -- There are no spaces but those in front.
  have hspaces : ∀ k k' : ℕ, ∀ t t' : List UInt8, List.replicate k 0x20 ++ 0x50 :: t =
      List.replicate k' 0x20 ++ 0x50 :: t' → t = t' := fun k k' t t' h =>
    ((Delimited.append_delimiter_inj (fun h => absurd (List.eq_of_mem_replicate h) (by decide))
      (fun h => absurd (List.eq_of_mem_replicate h) (by decide))).1 h).2
  rw [List.append_assoc, List.append_assoc] at hlevel
  exact Line.ext (decimal_inj (List.cons.inj (hspaces _ _ _ _ hlevel)).2)
    (Fin.ext (decimal_inj hindex)) (hexNumeral_16_inj h.1 h'.1 hraw)
    (hexNumeral_16_inj h.2 h'.2 hpaddr)

/-- A listing tells its lines. -/
theorem lines_of_text {lines lines' : List Line} (hl : ∀ l ∈ lines, l.Bounded)
    (hl' : ∀ l ∈ lines', l.Bounded) (h : lines.flatMap text = lines'.flatMap text) :
    lines = lines' :=
  Delimited.flatMap_inj (fun l _ => newline_not_mem_body l) (fun _ _ => body_inj) hl hl' h

end Line

/-! ## Listings -/

section listing

variable {m m' stack stack' : Memory} {buf buf' table level total total' : ℕ}
  {out out' text : List UInt8} {cs cs' : List Call}

/-- What is printed are numbers of 64 bits. -/
theorem pagetableLines_bounded (m : Memory) (table level : ℕ) :
    ∀ l ∈ pagetableLines m table level, l.Bounded := by
  have hentry : ∀ level t i, (entryLine m level t i).Bounded := fun _ t i =>
    ⟨tableEntry_lt m t i, getPteAddress_lt _⟩
  induction level generalizing table with
  | zero =>
    intro l hl
    obtain ⟨i, -, hl⟩ := List.mem_flatMap.1 hl
    split at hl
    · exact absurd hl List.not_mem_nil
    · exact List.mem_singleton.1 hl ▸ hentry _ _ _
  | succ level ih =>
    intro l hl
    obtain ⟨i, -, hl⟩ := List.mem_flatMap.1 hl
    split at hl
    · exact absurd hl List.not_mem_nil
    · rcases List.mem_cons.1 hl with rfl | hl
      · exact hentry _ _ _
      · split at hl
        · exact ih _ l hl
        · exact absurd hl List.not_mem_nil

/-- In the states reached from the boot tables, the lines show the tables. -/
theorem showsTables_pagetableLines (htotal : total ≤ 511 * 2 ^ 30)
    (hcs : CallsOk (setupPhysicalMap (.boot m) total) cs) :
    ShowsTables (runCalls (setupPhysicalMap (.boot m) total) cs).mem
      (pagetableLines (runCalls (setupPhysicalMap (.boot m) total) cs).mem 0x1000 4) := by
  obtain ⟨own, ht⟩ := ((refines_setupPhysicalMap m total).runCalls hcs).tree
  rw [pagetableLines_eq ht ht.root rfl]
  exact showsTables_of_tree ht (.reachable htotal hcs)

/-- Two listings with the same text show the same translations. -/
theorem ShowsTables.pageWalk_eq {lines : List Line} (h : ShowsTables m lines)
    (h' : ShowsTables m' lines) {v : ℕ} (hv : Canonical v) :
    (pageWalk m 0x1000 v).map (·.paddr) = (pageWalk m' 0x1000 v).map (·.paddr) := by
  have hframe : pageFrame m 0x1000 v = pageFrame m' 0x1000 v := by
    refine Option.ext fun ⟨f, r⟩ => ?_
    rw [h.frame_iff v hv f r, h'.frame_iff v hv f r]
  rw [pageWalk_paddr, pageWalk_paddr, hframe]

/-- The printed text alone tells where every address leads, and which ones fault. -/
theorem listing_tells_walk (htotal : total ≤ 511 * 2 ^ 30) (htotal' : total' ≤ 511 * 2 ^ 30)
    (hcs : CallsOk (setupPhysicalMap (.boot m) total) cs)
    (hcs' : CallsOk (setupPhysicalMap (.boot m') total') cs')
    (h : (printPagetable (runCalls (setupPhysicalMap (.boot m) total) cs).mem stack buf
      0x1000 4 out).Returns (out ++ text))
    (h' : (printPagetable (runCalls (setupPhysicalMap (.boot m') total') cs').mem stack' buf'
      0x1000 4 out').Returns (out' ++ text)) {v : ℕ} (hv : Canonical v) :
    (pageWalk (runCalls (setupPhysicalMap (.boot m) total) cs).mem 0x1000 v).map (·.paddr) =
      (pageWalk (runCalls (setupPhysicalMap (.boot m') total') cs').mem 0x1000 v).map
        (·.paddr) := by
  have hshows := showsTables_pagetableLines htotal hcs
  have hshows' := showsTables_pagetableLines htotal' hcs'
  have hlevel : 4 < 2 ^ 64 := by decide
  have htext := List.append_cancel_left (h.unique (printPagetable_returns _ _ _ _ hlevel out))
  have htext' := List.append_cancel_left (h'.unique (printPagetable_returns _ _ _ _ hlevel out'))
  have hlines := Line.lines_of_text (pagetableLines_bounded _ _ _) (pagetableLines_bounded _ _ _)
    (htext.symm.trans htext')
  rw [← hlines] at hshows'
  exact hshows.pageWalk_eq hshows' hv

/-- After several calls, in two memories that differ everywhere above the tables. -/
theorem listing_tells_walk_several :
    let m := (runCalls (setupPhysicalMap (.boot fun _ => 0) (2 ^ 30)) severalCalls).mem
    let m' := (runCalls (setupPhysicalMap (.boot (Memory.splice (fun _ => 0) 0x6F000 fun _ => 7))
      (2 ^ 30)) severalCalls).mem
    (∀ x, 0x6F000 ≤ x → m x ≠ m' x) ∧
      ∃ text, (printPagetable m (fun _ => 0) 0x6FF00 0x1000 4 []).Returns ([] ++ text) ∧
        (printPagetable m' (fun _ => 7) 0x6FE00 0x1000 4 [0x0A]).Returns ([0x0A] ++ text) ∧
        (pageWalk m 0x1000 0xFFFF900000001042).map (·.paddr) =
          (pageWalk m' 0x1000 0xFFFF900000001042).map (·.paddr) := by
  have hlevel : 4 < 2 ^ 64 := by decide
  have hcs := callsOk_several (fun _ => 0) (show 2 ^ 30 ≤ 511 * 2 ^ 30 by decide)
  have hcs' := callsOk_several (Memory.splice (fun _ => 0) 0x6F000 fun _ => 7)
    (show 2 ^ 30 ≤ 511 * 2 ^ 30 by decide)
  have hsplice : ∀ above : Memory, (runCalls (setupPhysicalMap (.boot
      (Memory.splice (fun _ => 0) 0x6F000 above)) (2 ^ 30)) severalCalls).mem =
      Memory.splice (runCalls (setupPhysicalMap (.boot fun _ => 0) (2 ^ 30)) severalCalls).mem
        0x6F000 above := fun above => by
    obtain ⟨own, ht⟩ := pageTree_setupPhysicalMap (fun _ => 0) (2 ^ 30)
    rw [setupPhysicalMap_splice (by decide), (runCalls_splice ht hcs le_rfl (by decide)).2]
    rfl
  obtain ⟨own, ht⟩ := ((refines_setupPhysicalMap (fun _ => 0) (2 ^ 30)).runCalls hcs).tree
  have hit : (runCalls (setupPhysicalMap (.boot fun _ => 0) (2 ^ 30)) severalCalls).it ≤
      0x6F000 := (runCalls_start_it_le _ _ _).trans (by decide)
  have h := printPagetable_returns (runCalls (setupPhysicalMap (.boot fun _ => 0) (2 ^ 30))
    severalCalls).mem (fun _ => 0) 0x6FF00 0x1000 hlevel []
  have h' := printPagetable_returns (runCalls (setupPhysicalMap (.boot
    (Memory.splice (fun _ => 0) 0x6F000 fun _ => 7)) (2 ^ 30)) severalCalls).mem (fun _ => 7)
    0x6FE00 0x1000 hlevel [0x0A]
  rw [hsplice, pagetableLines_splice ht ht.root rfl hit, ← hsplice] at h'
  refine ⟨fun x hx => ?_, _, h, h', listing_tells_walk (by decide) (by decide) hcs hcs' h h'
    (.inr (by decide))⟩
  have hzero : Memory.splice (fun _ => 0) 0x6F000 (fun _ => 0) = fun _ => 0 :=
    funext fun _ => ite_self _
  have h₀ := congrFun (hsplice fun _ => 0) x
  rw [hzero, Memory.splice_of_le hx] at h₀
  rw [h₀, hsplice, Memory.splice_of_le hx]
  decide

end listing

end Cboot
