import Cboot.Console.Vga
import Mathlib.Data.Fintype.Option

/-!
# The console as a terminal

What the console should show, told from the calls alone: the line goes on after column 79
in the next one (`lineLength`), and a character has the colours selected last
(`selectedColour`). Two things go wrong:

* the character that a full line has no room for makes `draw_char` begin a new line, but is
  not drawn there;
* `set_foreground` and `set_background` mask the wrong nibble, and select black whatever
  they are given.

So every character is shown as it should if and only if no character meets a full line and
no colour but black has been selected (`terminalShows_iff`).
-/

namespace Cboot

open Console

/-! ## What should be shown -/

/-- A character that is drawn: not a newline or a carriage return. -/
def Ordinary (c : UInt8) : Prop := c ≠ 0x0A ∧ c ≠ 0x0D

instance (c : UInt8) : Decidable (Ordinary c) := inferInstanceAs (Decidable (_ ∧ _))

/-- The length of the line after a call. After 80 characters, a new line is begun by the next. -/
def lineAfter (k : ℕ) : ConsoleCall → ℕ
  | .drawChar c => if Ordinary c then (if k < vgaCols then k + 1 else 1) else 0
  | _ => k

/-- The length of the current line after calls. -/
def lineLength (calls : List ConsoleCall) : ℕ := calls.foldl lineAfter 0

/-- The foreground selected last, if any. -/
def selectedForeground (calls : List ConsoleCall) : Option BiosColours :=
  calls.foldl (fun f call => match call with | .setForeground f' => some f' | _ => f) none

/-- The background selected last, if any. -/
def selectedBackground (calls : List ConsoleCall) : Option BiosColours :=
  calls.foldl (fun b call => match call with | .setBackground b' => some b' | _ => b) none

/-- The attribute byte of two colours. -/
def attributeByte (foreground background : BiosColours) : UInt8 :=
  (background.value <<< 4 ||| foreground.value).toUInt8

/-- The attribute byte that a character drawn after the calls should have. -/
def selectedColour (calls : List ConsoleCall) : UInt8 :=
  attributeByte ((selectedForeground calls).getD .lightGray)
    ((selectedBackground calls).getD .black)

/-- Drawing the character after the calls stores it once: in the next column of its line, the
    first of a new line if the line is full, with the colours selected. -/
def ShowsChar (cells : ℕ → VGAChar) (calls : List ConsoleCall) (c : UInt8) : Prop :=
  let s := run cells calls
  let (line, column) := if lineLength calls < vgaCols then (s, lineLength calls) else (s.newline, 0)
  (s.drawChar c).vgaBuffer =
    line.vgaBuffer.store (vgaCols * 24 + column) ⟨c, selectedColour calls⟩

/-- What holds of every ordinary character drawn, with the calls in front of it. -/
def EveryDraw (P : List ConsoleCall → UInt8 → Prop) (calls : List ConsoleCall) : Prop :=
  ∀ before c after, calls = before ++ .drawChar c :: after → Ordinary c → P before c

/-- No character drawn is lost, and all have the colours selected. -/
def TerminalShows (cells : ℕ → VGAChar) (calls : List ConsoleCall) : Prop :=
  EveryDraw (ShowsChar cells) calls

/-- The colours selected by the calls fit a nibble. -/
def NibbleColours (calls : List ConsoleCall) : Prop :=
  (∀ f, .setForeground f ∈ calls → f.value < 16) ∧ ∀ b, .setBackground b ∈ calls → b.value < 16

/-! ## What is shown -/

/-- There is room in the line, and no colour but black has been selected last. -/
def Showable (calls : List ConsoleCall) : Prop :=
  lineLength calls < vgaCols ∧ (∀ f ∈ selectedForeground calls, f = .black) ∧
    ∀ b ∈ selectedBackground calls, b = .black

section

variable {cells : ℕ → VGAChar} {calls : List ConsoleCall} {call : ConsoleCall} {c : UInt8}

theorem everyDraw_append {P : List ConsoleCall → UInt8 → Prop} :
    EveryDraw P (calls ++ [call]) ↔
      EveryDraw P calls ∧ ∀ c, call = .drawChar c → Ordinary c → P calls c := by
  constructor
  · intro h
    refine ⟨fun before c after heq => h before c (after ++ [call]) (by simp [heq]), ?_⟩
    rintro c rfl
    exact h calls c [] rfl
  · rintro ⟨h, hlast⟩ before c after heq
    rcases List.eq_nil_or_concat' after with rfl | ⟨after, call', rfl⟩
    · obtain ⟨rfl, hcall⟩ := List.append_inj' heq rfl
      exact hlast c (List.cons.inj hcall).1
    · rw [← List.cons_append, ← List.append_assoc] at heq
      obtain ⟨heq, -⟩ := List.append_inj' heq rfl
      exact h before c after heq

theorem lineLength_append (calls : List ConsoleCall) (call : ConsoleCall) :
    lineLength (calls ++ [call]) = lineAfter (lineLength calls) call := by
  rw [lineLength, List.foldl_append]
  rfl

/-- As long as no character meets a full line, the column is the length of the line. -/
theorem columnCounter_eq (h : EveryDraw (fun before _ => lineLength before < vgaCols) calls) :
    (run cells calls).columnCounter = lineLength calls := by
  induction calls using List.reverseRecOn with
  | nil => rfl
  | append_singleton calls call ih =>
    obtain ⟨hcalls, hlast⟩ := everyDraw_append.1 h
    rw [run_append, lineLength_append]
    cases call with
    | drawChar c =>
      change ((run cells calls).drawChar c).columnCounter = lineAfter _ (.drawChar c)
      rw [drawChar, lineAfter, ih hcalls]
      by_cases hc : Ordinary c
      · have hlt := hlast c rfl hc
        rw [if_neg (Nat.not_le_of_lt hlt), if_neg hc.1, if_neg hc.2, if_pos hc, if_pos hlt]
      · rw [if_neg hc]
        rw [Ordinary, not_and_or, not_not, not_not] at hc
        grind [newline]
    | clearScreen => exact ih hcalls
    | setForeground colour => exact ih hcalls
    | setBackground colour => exact ih hcalls

end

/-! ## The colours -/

instance : Fintype BiosColours where
  elems := {.black, .blue, .green, .cyan, .red, .magenta, .brown, .lightGray, .darkGray,
    .lightBlue, .lightGreen, .lightCyan, .lightRed, .lightMagenta, .yellow, .white}
  complete c := by cases c <;> decide

/-- The variables of the colours, from the ones selected. -/
def maskedForeground (f : Option BiosColours) : UInt32 := f.elim 0x7 fun f => f.value &&& 0xF0

/-- The mask is that of the low bits, after the shift. -/
def maskedBackground (b : Option BiosColours) : UInt32 :=
  b.elim 0 fun b => (b.value <<< 4) &&& 0x0F

section colours

variable {cells : ℕ → VGAChar} {calls : List ConsoleCall}

/-- The colours of the console after calls. -/
theorem run_colours (calls : List ConsoleCall) :
    (run cells calls).foreground = maskedForeground (selectedForeground calls) ∧
      (run cells calls).background = maskedBackground (selectedBackground calls) := by
  induction calls using List.reverseRecOn with
  | nil => exact ⟨rfl, rfl⟩
  | append_singleton calls call ih =>
    rw [run_append, selectedForeground, selectedBackground, List.foldl_append, List.foldl_append]
    cases call with
    | drawChar c =>
      obtain ⟨hf, hb⟩ := drawChar_colours (run cells calls) c
      exact ⟨hf.trans ih.1, hb.trans ih.2⟩
    | clearScreen => exact ih
    | setForeground colour => exact ⟨rfl, ih.2⟩
    | setBackground colour => exact ⟨ih.1, rfl⟩

theorem nibbleColours_selected (h : NibbleColours calls) :
    (∀ f ∈ selectedForeground calls, f.value < 16) ∧
      ∀ b ∈ selectedBackground calls, b.value < 16 := by
  induction calls using List.reverseRecOn with
  | nil => exact ⟨by simp [selectedForeground], by simp [selectedBackground]⟩
  | append_singleton calls call ih =>
    obtain ⟨ihf, ihb⟩ := ih ⟨fun f hf => h.1 f (List.mem_append_left _ hf),
      fun b hb => h.2 b (List.mem_append_left _ hb)⟩
    rw [selectedForeground, selectedBackground, List.foldl_append, List.foldl_append]
    have hlast : call ∈ calls ++ [call] := by simp
    cases call with
    | drawChar c => exact ⟨ihf, ihb⟩
    | clearScreen => exact ⟨ihf, ihb⟩
    | setForeground colour => exact ⟨fun f hf => h.1 f (Option.some.inj hf ▸ hlast), ihb⟩
    | setBackground colour => exact ⟨ihf, fun b hb => h.2 b (Option.some.inj hb ▸ hlast)⟩

/-- Of the colours that fit a nibble, the masks leave nothing: the byte is right if nothing but
    black has been selected. -/
theorem maskedColours_eq_iff : ∀ f b : Option BiosColours, (∀ f' ∈ f, f'.value < 16) →
    (∀ b' ∈ b, b'.value < 16) →
    ((maskedForeground f ||| maskedBackground b).toUInt8 =
        attributeByte (f.getD .lightGray) (b.getD .black) ↔
      (∀ f' ∈ f, f' = .black) ∧ ∀ b' ∈ b, b' = .black) := by
  decide +kernel

end colours

/-! ## What is shown as it should be -/

section shows

variable {cells : ℕ → VGAChar} {calls : List ConsoleCall} {c : UInt8}

/-- A store is told by the record of the buffer. -/
theorem store_inj {b : VgaBuffer} {i : ℕ} {vc vc' : VGAChar} :
    b.store i vc = b.store i vc' ↔ vc = vc' := by
  constructor
  · intro h
    have h := congrArg VgaBuffer.stores h
    exact (Prod.mk.inj (List.cons.inj (List.append_cancel_left h)).1).2
  · rintro rfl
    rfl

theorem ne_store (b : VgaBuffer) (i : ℕ) (vc : VGAChar) : b ≠ b.store i vc := by
  intro h
  have h := congrArg (fun b => b.stores.length) h
  rw [VgaBuffer.store, List.length_append] at h
  exact absurd h (Nat.ne_of_lt (Nat.lt_succ_self _))

/-- With the column at the length of the line, a character is shown if and only if there is
    room for it and nothing but black is selected. -/
theorem showsChar_iff (hcol : (run cells calls).columnCounter = lineLength calls)
    (hcolours : NibbleColours calls) (hc : Ordinary c) :
    ShowsChar cells calls c ↔ Showable calls := by
  obtain ⟨hf, hb⟩ := nibbleColours_selected hcolours
  have hcolour : (run cells calls).colour = selectedColour calls ↔
      (∀ f ∈ selectedForeground calls, f = .black) ∧
        ∀ b ∈ selectedBackground calls, b = .black := by
    rw [colour, (run_colours calls).1, (run_colours calls).2]
    exact maskedColours_eq_iff _ _ hf hb
  by_cases hlt : lineLength calls < vgaCols
  · rw [ShowsChar, Showable, and_iff_right hlt, ← hcolour]
    simp only [if_pos hlt]
    rw [drawChar, hcol, if_neg (Nat.not_le_of_lt hlt), if_neg hc.1, if_neg hc.2, store_inj,
      VGAChar.mk.injEq, and_iff_right rfl]
  · -- The line is full: only a newline is made.
    refine iff_of_false ?_ fun h => hlt h.1
    rw [ShowsChar]
    simp only [if_neg hlt]
    rw [drawChar, hcol, if_pos (Nat.le_of_not_lt hlt)]
    exact ne_store _ _ _

theorem EveryDraw.mono {P Q : List ConsoleCall → UInt8 → Prop} (h : EveryDraw P calls)
    (hPQ : ∀ before c, P before c → Q before c) : EveryDraw Q calls :=
  fun before c after heq hc => hPQ before c (h before c after heq hc)

theorem NibbleColours.of_append {call : ConsoleCall} (h : NibbleColours (calls ++ [call])) :
    NibbleColours calls :=
  ⟨fun f hf => h.1 f (List.mem_append_left _ hf), fun b hb => h.2 b (List.mem_append_left _ hb)⟩

/-- Every character drawn is shown if and only if none meets a full line and nothing but black
    is ever selected in front of one. -/
theorem terminalShows_iff (h : NibbleColours calls) :
    TerminalShows cells calls ↔ EveryDraw (fun before _ => Showable before) calls := by
  induction calls using List.reverseRecOn with
  | nil => exact iff_of_true (by simp [TerminalShows, EveryDraw]) (by simp [EveryDraw])
  | append_singleton calls call ih =>
    rw [TerminalShows, everyDraw_append, everyDraw_append]
    -- The calls in front of the last one leave the column where it should be.
    refine (and_congr_left' (ih h.of_append)).trans (and_congr_right fun hcalls => ?_)
    have hcol := @columnCounter_eq cells calls (hcalls.mono fun _ _ hs => hs.1)
    exact forall_congr' fun c => forall_congr' fun _ => forall_congr' fun hc =>
      showsChar_iff hcol h.of_append hc

/-- A screen of zeros. -/
def zeroCells : ℕ → VGAChar := fun _ => ⟨0, 0⟩

/-- Two lines, with black selected in between. -/
theorem terminalShows_two_lines :
    TerminalShows zeroCells [.setForeground .black, .drawChar 0x61, .drawChar 0x62,
      .drawChar 0x0A, .setBackground .black, .drawChar 0x63] := by
  refine (terminalShows_iff ⟨by simp; decide, by simp; decide⟩).2 ?_
  have h : EveryDraw (fun before _ => Showable before) (([] ++ [ConsoleCall.setForeground .black] ++
      [.drawChar 0x61] ++ [.drawChar 0x62] ++ [.drawChar 0x0A] ++ [.setBackground .black]) ++
      [.drawChar 0x63]) := by
    simp only [everyDraw_append]
    refine ⟨⟨⟨⟨⟨⟨by simp [EveryDraw], by simp⟩, fun c _ _ => ?_⟩, fun c _ _ => ?_⟩,
      fun c hc hc' => ?_⟩, by simp⟩, fun c _ _ => ?_⟩
    · exact ⟨by decide, by simp [selectedForeground], by simp [selectedBackground]⟩
    · exact ⟨by decide, by simp [selectedForeground], by simp [selectedBackground]⟩
    · exact absurd (ConsoleCall.drawChar.inj hc).symm hc'.1
    · exact ⟨by decide, by simp [selectedForeground], by simp [selectedBackground]⟩
  exact h

theorem lineLength_replicate {n : ℕ} (hn : n ≤ vgaCols) :
    lineLength (List.replicate n (.drawChar 0x61)) = n ∧
      EveryDraw (fun before _ => lineLength before < vgaCols)
        (List.replicate n (.drawChar 0x61)) := by
  induction n with
  | zero => exact ⟨rfl, by simp [EveryDraw]⟩
  | succ n ih =>
    obtain ⟨hlen, hall⟩ := ih (Nat.le_of_succ_le hn)
    rw [List.replicate_succ', lineLength_append, everyDraw_append, hlen, lineAfter,
      if_pos (by decide), if_pos (Nat.lt_of_succ_le hn)]
    exact ⟨rfl, hall, fun _ _ _ => hn⟩

theorem not_terminalShows_replicate {n : ℕ} (hn : n = vgaCols) :
    ¬TerminalShows cells (List.replicate (n + 1) (.drawChar 0x61)) := by
  intro h
  obtain ⟨hlen, hall⟩ := lineLength_replicate (Nat.le_of_eq hn)
  rw [TerminalShows, List.replicate_succ', everyDraw_append] at h
  have hshows := h.2 0x61 rfl (by decide)
  have hfits := ((showsChar_iff (columnCounter_eq hall) (by simp [NibbleColours]) (by decide)).1
    hshows).1
  rw [hlen, hn] at hfits
  exact Nat.lt_irrefl _ hfits

/-- The 81st character of a line is not drawn, and a character has not the colour selected. -/
theorem not_terminalShows :
    ¬TerminalShows zeroCells (List.replicate (80 + 1) (.drawChar 0x61)) ∧
      ¬TerminalShows zeroCells [.setForeground .blue, .drawChar 0x61] := by
  refine ⟨not_terminalShows_replicate rfl, fun h => ?_⟩
  have hshows := h [.setForeground .blue] 0x61 [] rfl (by decide)
  have hblack := ((showsChar_iff rfl ⟨by simp; decide, by simp⟩ (by decide)).1 hshows).2.1 .blue rfl
  exact absurd hblack (by decide)

end shows

end Cboot
