import Cboot.Console.Print
import Cboot.Lib.Traversal
import Cboot.Paging.Limit

/-!
# Printing the page tables

The printer of `paging.c`, which goes through the tables itself: it goes down from every
entry of the level 4, and from those of the levels 3 and 2 that are not for a large page.

* `printPagetable_returns`: what is printed are the lines of `pagetableLines`, whatever
  is in memory;
* `pagetableLines_eq`: for a tree of tables, these are the entries that the processor can
  reach, as a traversal visits them;
* `printPagetable_shows`: in every state reached from the boot tables, the lines show what
  the page walk makes of the tables.
-/

namespace Cboot

open Bitfield PageTableEntry Radix Fueled

/-! ## The printer -/

/-- The loop that indents a line, from its counter on. -/
def indent (level : ℕ) : (i : ℕ) → List UInt8 → List UInt8
  | 0, out => out
  | i + 1, out => if level < i + 1 then indent level i (putc out 0x20) else out

/-- The characters of `"PT"`. -/
def ptText : List UInt8 := [0x50, 0x54]

/-- The characters of `" = "`. -/
def equalsText : List UInt8 := [0x20, 0x3D, 0x20]

/-- The characters of `"; paddr = "`. -/
def paddrText : List UInt8 := [0x3B, 0x20, 0x70, 0x61, 0x64, 0x64, 0x72, 0x20, 0x3D, 0x20]

section printPagetable

-- The tables are in the memory `m`. The buffer of `putd` is on the stack, which they do not meet.
variable (m stack : Memory) (buf : ℕ)

/-- The line printed for an entry. -/
def printEntry (level : ℕ) (i : Fin 512) (pte : ℕ) (out : List UInt8) : Fueled (List UInt8) := do
  let out := indent level 4 out
  let out ← puts (literal ptText) 0 out
  let (_, out) ← putd stack buf (.ofNat level) out
  let out := putc out 0x5B
  let (_, out) ← putd stack buf (.ofNat i) out
  let out := putc out 0x5D
  let out ← puts (literal equalsText) 0 out
  let out ← putx64 (.ofNat pte) out
  let out ← puts (literal paddrText) 0 out
  let out ← putx64 (.ofNat (getPteAddress pte)) out
  pure (putc out 0x0A)

/-- The printer goes on to the table that the entry links to. -/
def Descends (level pte : ℕ) : Prop := level = 4 ∨ (level = 2 ∨ level = 3) ∧ hugePage pte = 0

instance (level pte : ℕ) : Decidable (Descends level pte) :=
  inferInstanceAs (Decidable (_ ∨ _ ∧ _))

/-- A round of the loop of `print_pagetable`; `sub` is the call for the table below. -/
def printRound (sub : ℕ → List UInt8 → Fueled (List UInt8)) (table level : ℕ)
    (out : List UInt8) (i : Fin 512) : Fueled (List UInt8) := do
  let pte := tableEntry m table i
  if present pte = 0 then pure out
  else
    let out ← printEntry stack buf level i pte out
    if Descends level pte then sub (getPteAddress pte) out else pure out

/-- `print_pagetable`. From the level 0 it does not go on. -/
def printPagetable (table : ℕ) : (level : ℕ) → List UInt8 → Fueled (List UInt8)
  | 0, out => (List.finRange 512).foldlM (printRound m stack buf (fun _ => pure) table 0) out
  | level + 1, out => (List.finRange 512).foldlM (printRound m stack buf
      (fun subtable => printPagetable subtable level) table (level + 1)) out

end printPagetable

/-! ## Lines -/

/-- The numbers printed for an entry. -/
structure Line where
  level : ℕ
  index : Fin 512
  raw : ℕ
  paddr : ℕ

namespace Line

/-- The line as it is printed, indented by its level. -/
def text (l : Line) : List UInt8 :=
  List.replicate (4 - l.level) 0x20 ++ ptText ++ decimal l.level ++ [0x5B] ++ decimal l.index ++
    [0x5D] ++ equalsText ++ hexNumeral 16 l.raw ++ paddrText ++ hexNumeral 16 l.paddr ++ [0x0A]

/-- The line is for an entry of the level 1, or for a large page. -/
def IsLeaf (l : Line) : Prop := l.level = 1 ∨ (l.level = 2 ∨ l.level = 3) ∧ hugePage l.raw = 1

end Line

/-- The lines with the paths of their entries, which their levels and indices tell. -/
def withPaths (lines : List Line) : List (List (Fin 512) × Line) :=
  (readPaths [] (lines.map fun l => (4 - l.level, l.index))).zip lines

/-- The line for the entry `i` of the table at `t`. -/
def entryLine (m : Memory) (level t : ℕ) (i : Fin 512) : Line where
  level := level
  index := i
  raw := tableEntry m t i
  paddr := getPteAddress (tableEntry m t i)

/-- The lines for the table at `table`, and for those it leads to. -/
def pagetableLines (m : Memory) (table : ℕ) : (level : ℕ) → List Line
  | 0 => (List.finRange 512).flatMap fun i =>
    if present (tableEntry m table i) = 0 then [] else [entryLine m 0 table i]
  | level + 1 => (List.finRange 512).flatMap fun i =>
    if present (tableEntry m table i) = 0 then []
    else entryLine m (level + 1) table i ::
      if Descends (level + 1) (tableEntry m table i) then
        pagetableLines m (getPteAddress (tableEntry m table i)) level
      else []

section text

variable {m stack : Memory} {buf : ℕ}

theorem indent_eq (level i : ℕ) (out : List UInt8) :
    indent level i out = out ++ List.replicate (i - level) 0x20 := by
  induction i generalizing out with
  | zero => rw [indent, Nat.zero_sub, List.replicate_zero, List.append_nil]
  | succ i ih =>
    rw [indent]
    split
    · rw [ih, putc, List.append_assoc, Nat.succ_sub (by omega), List.replicate_succ]
      rfl
    · rw [Nat.sub_eq_zero_of_le (by omega), List.replicate_zero, List.append_nil]

theorem puts_literal {s : List UInt8} (hs : ∀ c ∈ s, c ≠ 0) (out : List UInt8) :
    (puts (literal s) 0 out).Returns (out ++ s) :=
  puts_returns (cString_literal hs) out

theorem getPteAddress_lt (pte : ℕ) : getPteAddress pte < 2 ^ 64 := by
  rw [getPteAddress, addr, getField]
  omega

theorem printEntry_returns {level pte : ℕ} (hl : level < 2 ^ 64) (i : Fin 512)
    (hpte : pte < 2 ^ 64) (out : List UInt8) :
    (printEntry stack buf level i pte out).Returns
      (out ++ Line.text ⟨level, i, pte, getPteAddress pte⟩) := by
  have hlevel : (UInt64.ofNat level).toNat = level := UInt64.toNat_ofNat_of_lt' hl
  have hi : (UInt64.ofNat i).toNat = i := UInt64.toNat_ofNat_of_lt' (i.isLt.trans (by decide))
  have hraw : (UInt64.ofNat pte).toNat = pte := UInt64.toNat_ofNat_of_lt' hpte
  have hpaddr : (UInt64.ofNat (getPteAddress pte)).toNat = getPteAddress pte :=
    UInt64.toNat_ofNat_of_lt' (getPteAddress_lt pte)
  rw [printEntry, indent_eq, (puts_literal (by simp [ptText]) _).bind_iff]
  obtain ⟨_, hb, -⟩ := putd_returns stack buf (.ofNat level)
    (out ++ List.replicate (4 - level) 0x20 ++ ptText)
  rw [hb.bind_iff]
  obtain ⟨_, hb, -⟩ := putd_returns stack buf (.ofNat i) (putc
    (out ++ List.replicate (4 - level) 0x20 ++ ptText ++ decimal (UInt64.ofNat level).toNat) 0x5B)
  rw [hb.bind_iff, (puts_literal (by simp [equalsText]) _).bind_iff,
    (putx64_returns _ _).bind_iff, (puts_literal (by simp [paddrText]) _).bind_iff,
    (putx64_returns _ _).bind_iff, returns_pure_iff, hlevel, hi, hraw, hpaddr]
  simp only [Line.text, putc, List.append_assoc]

theorem tableEntry_lt (m : Memory) (t : ℕ) (i : Fin 512) : tableEntry m t i < 2 ^ 64 :=
  Memory.read_lt m 8 _

/-- What is printed are the lines, one after the other. -/
theorem printPagetable_returns (m stack : Memory) (buf table : ℕ) {level : ℕ}
    (hl : level < 2 ^ 64) (out : List UInt8) :
    (printPagetable m stack buf table level out).Returns
      (out ++ (pagetableLines m table level).flatMap Line.text) := by
  induction level generalizing table out with
  | zero =>
    rw [printPagetable, pagetableLines, List.flatMap_assoc]
    refine returns_foldlM (fun i _ out => ?_) out
    rw [printRound]
    split
    · exact returns_pure_iff.2 (List.append_nil out)
    · rw [(printEntry_returns hl i (tableEntry_lt m table i) out).bind_iff, ite_self,
        List.flatMap_singleton]
      exact returns_pure_iff.2 rfl
  | succ level ih =>
    rw [printPagetable, pagetableLines, List.flatMap_assoc]
    refine returns_foldlM (fun i _ out => ?_) out
    rw [printRound]
    split
    · exact returns_pure_iff.2 (List.append_nil out)
    · rw [(printEntry_returns hl i (tableEntry_lt m table i) out).bind_iff, List.flatMap_cons]
      split
      · rw [← List.append_assoc]
        exact ih _ (Nat.lt_of_succ_lt hl) _
      · rw [List.flatMap_nil, List.append_nil]
        exact returns_pure_iff.2 rfl

end text

/-! ## The lines of a tree -/

section tree

variable {m : Memory} {it t r : ℕ} {own : Owners} {p : List (Fin 512)}

/-- The printer takes an entry of the tree for what the processor does. -/
theorem PageTree.printed_cases (ht : PageTree m it own) (hown : own t = some p) (i : Fin 512)
    (hr : p.length + (r + 1) = 4) :
    present (tableEntry m t i) = 0 ∧ entries m r t i = .empty ∨
      present (tableEntry m t i) = 1 ∧ Descends (r + 1) (tableEntry m t i) ∧
        own (getPteAddress (tableEntry m t i)) = some (p ++ [i]) ∧
        entries m r t i = .link true (getPteAddress (tableEntry m t i)) ∨
      present (tableEntry m t i) = 1 ∧ (entryLine m (r + 1) t i).IsLeaf ∧
        ∃ f, entries m r t i = .leaf true f ∧
          (tableEntry m t i < 2 ^ 52 → f = getPteAddress (tableEntry m t i)) := by
  have he := ht.entry i hown
  simp only [entryLine, Line.IsLeaf, entries]
  generalize tableEntry m t i = e at he ⊢
  cases he with
  | absent => exact .inl ⟨rfl, slot_zero r⟩
  | @table t' hp ht' =>
    have halign := (ht.page ht').1
    have hget := ht.tables.getPteAddress_table ht'
    obtain ⟨hpres, hhuge⟩ := flags_add_three halign
    refine .inr (.inl ⟨hpres, ?_, hget.symm ▸ ht', hget.symm ▸ ht.tables.slot_table (by omega) ht'⟩)
    rw [Descends, hhuge]
    omega
  | @page f hp ha hf =>
    obtain rfl : r = 0 := by omega
    exact .inr (.inr ⟨(flags_add_three ha).1, .inl rfl, f, slot_page ha hf, fun _ =>
      (getPteAddress_add_three ha hf).symm⟩)
  | @page2mb f hp ha hf =>
    obtain rfl : r = 1 := by omega
    obtain ⟨hpres, hhuge⟩ := flags_huge (n := f) (by omega)
    exact .inr (.inr ⟨hpres, .inr ⟨.inl rfl, hhuge⟩, f, slot_huge_one ha hf, fun _ =>
      (getPteAddress_huge (by omega) (by omega)).symm⟩)
  | @page1gb f hp ha hf =>
    obtain rfl : r = 2 := by omega
    obtain ⟨hpres, hhuge⟩ := flags_huge (n := f) (by omega)
    refine .inr (.inr ⟨hpres, .inr ⟨.inr rfl, hhuge⟩, _, slot_huge_two ha, fun hlt => ?_⟩)
    -- Below the end of the address space, the bit that the processor ignores is clear.
    rw [getPteAddress_huge (by omega) hf, Nat.mod_eq_of_lt (by omega)]

theorem not_descends_of_isLeaf {l : Line} (h : l.IsLeaf) : ¬Descends l.level l.raw := by
  rw [Line.IsLeaf] at h
  rw [Descends]
  omega

/-- The line for the slot at a place. -/
def placeLine (m : Memory) (x : Place ℕ (Fin 512)) : Line :=
  entryLine m (4 - x.path.length) x.table x.index

/-- The printer goes through a tree as the traversal does. -/
theorem pagetableLines_eq (ht : PageTree m it own) (hown : own t = some p) {level : ℕ}
    (hl : p.length + level = 4) :
    pagetableLines m t level =
      (traverse (entries m) (List.finRange 512) level p t).map (placeLine m) := by
  induction level generalizing t p with
  | zero =>
    have := (ht.page hown).2.1
    omega
  | succ r ih =>
    have hlevel : 4 - p.length = r + 1 := by omega
    rw [pagetableLines, Radix.traverse, List.map_flatMap]
    refine List.flatMap_congr fun i _ => ?_
    rcases ht.printed_cases hown i hl with ⟨hp, hs⟩ | ⟨hp, hd, hown', hs⟩ | ⟨hp, hleaf, f, hs, _⟩
    · rw [if_pos hp, hs]
      rfl
    · rw [if_neg (by omega), if_pos hd, hs, visit, List.map_cons, placeLine, hlevel]
      refine congrArg _ (ih hown' ?_)
      rw [List.length_append, List.length_singleton]
      omega
    · have hd : ¬Descends (r + 1) (tableEntry m t i) := not_descends_of_isLeaf hleaf
      rw [if_neg (by omega), if_neg hd, hs, visit, List.map_singleton, placeLine, hlevel]

/-- The places of all entries in use. -/
def usedPlaces (m : Memory) : List (Place ℕ (Fin 512)) :=
  traverse (entries m) (List.finRange 512) 4 [] 0x1000

theorem mem_usedPlaces {x : Place ℕ (Fin 512)} :
    x ∈ usedPlaces m ↔ ∃ r, x.path.length + (r + 1) = 4 ∧
      table (entries m) x.path (r + 1) 0x1000 = some x.table ∧
      entries m r x.table x.index ≠ .empty := by
  rw [usedPlaces, mem_traverse List.mem_finRange]
  constructor
  · rintro ⟨q, r, hq, hr, h⟩
    rw [List.nil_append] at hq
    exact ⟨r, hq ▸ hr, hq ▸ h⟩
  · rintro ⟨r, hr, h⟩
    exact ⟨x.path, r, rfl, hr, h⟩

/-- The paths that the lines tell are those of the entries. -/
theorem withPaths_eq (m : Memory) :
    withPaths ((usedPlaces m).map (placeLine m)) =
      (usedPlaces m).map fun x => (x.fullPath, placeLine m x) := by
  have hbrief : ((usedPlaces m).map (placeLine m)).map (fun l => (4 - l.level, l.index)) =
      (usedPlaces m).map Place.brief := by
    rw [List.map_map]
    refine List.map_congr_left fun x hx => ?_
    obtain ⟨r, hr, -⟩ := mem_usedPlaces.1 hx
    have hlen : 4 - (4 - x.path.length) = x.path.length := by omega
    exact Prod.ext hlen rfl
  rw [withPaths, hbrief, usedPlaces, readPaths_traverse, List.zip_map']

end tree

/-! ## What the lines show -/

/-- The frame that the walk ends at, and how many levels its entry is above the level 1. -/
def pageFrame (m : Memory) (cr3 va : ℕ) : Option (ℕ × ℕ) :=
  (walk (entries m) (indices va) cr3).map fun hit => (hit.leaf, hit.rest.length)

/-- The walk goes on to the place of the address in the frame. -/
theorem pageWalk_paddr (m : Memory) (cr3 va : ℕ) :
    (pageWalk m cr3 va).map (·.paddr) =
      (pageFrame m cr3 va).map fun (f, r) => f + va % 2 ^ (12 + 9 * r) := by
  rw [pageWalk, pageFrame, Option.map_map, Option.map_map]
  rfl

/-- The lines show the tables in `m`, and what the processor makes of them. -/
structure ShowsTables (m : Memory) (lines : List Line) : Prop where
  /-- There is a line for an entry if and only if it is present and its table is reached. -/
  line_iff : ∀ p i l, (p ++ [i], l) ∈ withPaths lines ↔ p.length ≤ 3 ∧
    ∃ t, table (entries m) p (4 - p.length) 0x1000 = some t ∧ present (tableEntry m t i) = 1 ∧
      l = entryLine m (4 - p.length) t i
  /-- The lines are in depth-first order, one for each path. -/
  ordered : ((withPaths lines).map Prod.fst).Pairwise (· < ·)
  /-- The addresses of a page are those whose indices begin with the path of its line. -/
  frame_iff : ∀ v, Canonical v → ∀ f r, pageFrame m 0x1000 v = some (f, r) ↔
    ∃ p l, (p, l) ∈ withPaths lines ∧ l.IsLeaf ∧ p <+: indices v ∧ l.level = r + 1 ∧ l.paddr = f

section ShowsTables

variable {st : PagingState} {own : Owners} {p : List (Fin 512)} {i : Fin 512}

theorem mem_withPaths {m : Memory} {q : List (Fin 512)} {l : Line} :
    (q, l) ∈ withPaths ((usedPlaces m).map (placeLine m)) ↔
      ∃ x ∈ usedPlaces m, x.fullPath = q ∧ placeLine m x = l := by
  rw [withPaths_eq, List.mem_map]
  simp only [Prod.mk.injEq]

theorem line_iff_of_tree (ht : PageTree st.mem st.it own) (p : List (Fin 512)) (i : Fin 512)
    (l : Line) : (p ++ [i], l) ∈ withPaths ((usedPlaces st.mem).map (placeLine st.mem)) ↔
      p.length ≤ 3 ∧ ∃ t, table (entries st.mem) p (4 - p.length) 0x1000 = some t ∧
        present (tableEntry st.mem t i) = 1 ∧ l = entryLine st.mem (4 - p.length) t i := by
  rw [mem_withPaths]
  constructor
  · rintro ⟨⟨p', t, i'⟩, hx, hfull, rfl⟩
    obtain ⟨r, hr, htab, hne⟩ := mem_usedPlaces.1 hx
    change p'.length + (r + 1) = 4 at hr
    change p' ++ [i'] = p ++ [i] at hfull
    obtain ⟨rfl, hi⟩ := List.append_inj' hfull rfl
    obtain rfl := List.singleton_inj.1 hi
    have hlevel : 4 - p'.length = r + 1 := by omega
    refine ⟨by omega, t, hlevel ▸ htab, ?_, rfl⟩
    rcases ht.printed_cases (ht.tables.owned.own_of_table hr htab) i' hr with h | h | h
    · exact absurd h.2 hne
    · exact h.1
    · exact h.1
  · rintro ⟨hp, t, htab, hpres, rfl⟩
    have hlevel : 4 - p.length = 3 - p.length + 1 := by omega
    have hr : p.length + (3 - p.length + 1) = 4 := by omega
    rw [hlevel] at htab
    refine ⟨⟨p, t, i⟩, mem_usedPlaces.2 ⟨3 - p.length, hr, htab, fun hs => ?_⟩, rfl, rfl⟩
    rcases ht.printed_cases (ht.tables.owned.own_of_table hr htab) i hr with h | h | ⟨_, _, f, h, _⟩
    · omega
    · exact absurd (hs.symm.trans h.2.2.2) (by simp)
    · exact absurd (hs.symm.trans h) (by simp)

/-- The slot that a walk ends at holds a leaf, and so its line is that of a leaf. -/
theorem exists_line_of_pageFrame (ht : PageTree st.mem st.it own) (hb : EntriesBelow st)
    {v f r : ℕ} (h : pageFrame st.mem 0x1000 v = some (f, r)) :
    ∃ p l, (p, l) ∈ withPaths ((usedPlaces st.mem).map (placeLine st.mem)) ∧ l.IsLeaf ∧
      p <+: indices v ∧ l.level = r + 1 ∧ l.paddr = f := by
  obtain ⟨⟨ls, f', q⟩, hw, he⟩ := Option.map_eq_some_iff.1 h
  cases he
  obtain ⟨p, i, t, l, hv, htab, hs⟩ := walk_eq_some_iff.1 ⟨ls, hw⟩
  have hr := congrArg List.length hv
  rw [length_indices, List.length_append, List.length_cons] at hr
  have hown := ht.tables.owned.own_of_table hr.symm htab
  have hlevel : 4 - p.length = q.length + 1 := by omega
  rcases ht.printed_cases hown i hr.symm with h' | h' | ⟨_, hleaf, f, h', hf⟩
  · exact absurd (hs.symm.trans h'.2) (by simp)
  · exact absurd (hs.symm.trans h'.2.2.2) (by simp)
  · cases hs.symm.trans h'
    refine ⟨_, _, mem_withPaths.2 ⟨⟨p, t, i⟩, mem_usedPlaces.2 ⟨_, hr.symm, htab, ?_⟩, rfl, rfl⟩,
      ?_, ⟨q, ?_⟩, hlevel, (hf (hb.tableEntry_lt ht hown i)).symm⟩
    · exact fun he => absurd (hs.symm.trans he) (by simp)
    · rw [placeLine, hlevel]
      exact hleaf
    · rw [hv, Place.fullPath, List.append_assoc, List.singleton_append]

/-- The walk of an address in the page of a line ends at the frame of the line. -/
theorem pageFrame_of_line (ht : PageTree st.mem st.it own) (hb : EntriesBelow st) {v r : ℕ}
    {l : Line} (hl : (p, l) ∈ withPaths ((usedPlaces st.mem).map (placeLine st.mem)))
    (hleaf : l.IsLeaf) (hp : p <+: indices v) (hlevel : l.level = r + 1) :
    pageFrame st.mem 0x1000 v = some (l.paddr, r) := by
  obtain ⟨⟨p, t, i⟩, hx, rfl, rfl⟩ := mem_withPaths.1 hl
  obtain ⟨k, hk, htab, hne⟩ := mem_usedPlaces.1 hx
  obtain ⟨q, hq⟩ := hp
  change p ++ [i] ++ q = indices v at hq
  rw [List.append_assoc, List.singleton_append] at hq
  have hlen := congrArg List.length hq
  rw [length_indices, List.length_append, List.length_cons] at hlen
  change p.length + (k + 1) = 4 at hk
  change 4 - p.length = r + 1 at hlevel
  obtain rfl : k = r := by omega
  obtain rfl : k = q.length := by omega
  have hown := ht.tables.owned.own_of_table hk htab
  rcases ht.printed_cases hown i hk with h | h | ⟨_, _, f, h, hf⟩
  · exact absurd h.2 hne
  · rw [placeLine, hlevel] at hleaf
    exact absurd h.2.1 (not_descends_of_isLeaf hleaf)
  · obtain ⟨ls, hw⟩ := walk_eq_some_iff.2 ⟨p, i, t, true, hq.symm, htab, h⟩
    rw [pageFrame, hw, hf (hb.tableEntry_lt ht hown i)]
    rfl

theorem showsTables_of_tree (ht : PageTree st.mem st.it own) (hb : EntriesBelow st) :
    ShowsTables st.mem ((usedPlaces st.mem).map (placeLine st.mem)) where
  line_iff := line_iff_of_tree ht
  ordered := by
    rw [withPaths_eq, List.map_map]
    exact traverse_sorted (List.pairwise_lt_finRange 512)
  frame_iff v _ f r := by
    refine ⟨exists_line_of_pageFrame ht hb, ?_⟩
    rintro ⟨p, l, hl, hleaf, hp, hlevel, rfl⟩
    exact pageFrame_of_line ht hb hl hleaf hp hlevel

end ShowsTables

/-- In every state reached from the boot tables, what is printed shows the tables. -/
theorem printPagetable_shows (stack : Memory) (buf : ℕ) (out : List UInt8) {m : Memory}
    {total : ℕ} (htotal : total ≤ 511 * 2 ^ 30) {cs : List Call}
    (hcs : CallsOk (setupPhysicalMap (.boot m) total) cs) :
    ∃ lines, (printPagetable (runCalls (setupPhysicalMap (.boot m) total) cs).mem stack buf
        0x1000 4 out).Returns (out ++ lines.flatMap Line.text) ∧
      ShowsTables (runCalls (setupPhysicalMap (.boot m) total) cs).mem lines := by
  obtain ⟨own, ht⟩ := ((refines_setupPhysicalMap m total).runCalls hcs).tree
  have hlines := printPagetable_returns (runCalls (setupPhysicalMap (.boot m) total) cs).mem stack
    buf 0x1000 (show 4 < 2 ^ 64 by decide) out
  rw [pagetableLines_eq ht ht.root rfl] at hlines
  exact ⟨_, hlines, showsTables_of_tree ht (.reachable htotal hcs)⟩

theorem printPagetable_shows_several :
    let m := (runCalls (setupPhysicalMap (.boot fun _ => 0) (2 ^ 30)) severalCalls).mem
    ∃ lines, (printPagetable m (fun _ => 0) 0x6FF00 0x1000 4 []).Returns
      ([] ++ lines.flatMap Line.text) ∧ ShowsTables m lines :=
  printPagetable_shows _ _ _ (by decide) (callsOk_several _ (by decide))

end Cboot
