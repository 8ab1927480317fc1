import Mathlib.Data.List.Basic

/-!
# Delimited texts

Texts that are made of parts, each of which ends with a delimiter that is not in it.

* `append_delimiter_inj`: the first part of such a text is what is in front of the first
  delimiter, and the last one is what is behind the last (`append_delimiter_inj'`);
* `flatMap_inj`: if the parts tell what they are for, then so does the text.
-/

namespace Delimited

variable {α β : Type*} {d : α} {x x' z z' : List α}

/-- Two texts are equal if and only if they are in front of the delimiter, and behind it. -/
theorem append_delimiter_inj (hx : d ∉ x) (hx' : d ∉ x') :
    x ++ d :: z = x' ++ d :: z' ↔ x = x' ∧ z = z' := by
  induction x generalizing x' with
  | nil =>
    cases x' with
    | nil => simp
    | cons c x' =>
      rw [List.mem_cons, not_or] at hx'
      simp [hx'.1]
  | cons c x ih =>
    rw [List.mem_cons, not_or] at hx
    cases x' with
    | nil => simp [Ne.symm hx.1]
    | cons c' x' =>
      rw [List.mem_cons, not_or] at hx'
      simp only [List.cons_append, List.cons.injEq, ih hx.2 hx'.2, and_assoc]

/-- They are told by the last delimiter, too. -/
theorem append_delimiter_inj' (hz : d ∉ z) (hz' : d ∉ z') :
    x ++ d :: z = x' ++ d :: z' ↔ x = x' ∧ z = z' := by
  rw [← List.reverse_inj, List.reverse_append, List.reverse_append, List.reverse_cons,
    List.reverse_cons, List.append_assoc, List.append_assoc, List.singleton_append,
    List.singleton_append, append_delimiter_inj (mt List.mem_reverse.1 hz)
      (mt List.mem_reverse.1 hz'), List.reverse_inj, List.reverse_inj, and_comm]

theorem append_singleton_inj (hx : d ∉ x) (hx' : d ∉ x') :
    x ++ [d] ++ z = x' ++ [d] ++ z' ↔ x = x' ∧ z = z' := by
  rw [List.append_assoc, List.append_assoc]
  exact append_delimiter_inj hx hx'

variable {text : β → List α} {P : β → Prop}

/-- A text with a delimiter after each part tells the parts. -/
theorem flatMap_inj (hd : ∀ b, P b → d ∉ text b)
    (hinj : ∀ b b', P b → P b' → text b = text b' → b = b')
    {l l' : List β} (hl : ∀ b ∈ l, P b) (hl' : ∀ b ∈ l', P b)
    (h : (l.flatMap fun b => text b ++ [d]) = l'.flatMap fun b => text b ++ [d]) : l = l' := by
  induction l generalizing l' with
  | nil =>
    cases l' with
    | nil => rfl
    | cons b' l' => simp at h
  | cons b l ih =>
    cases l' with
    | nil => simp at h
    | cons b' l' =>
      rw [List.forall_mem_cons] at hl hl'
      rw [List.flatMap_cons, List.flatMap_cons, append_singleton_inj (hd b hl.1) (hd b' hl'.1)] at h
      rw [hinj b b' hl.1 hl'.1 h.1, ih hl.2 hl'.2 h.2]

/-- Two functions that tell the same of elements tell the same of lists. -/
theorem map_eq_map_iff_of_iff {γ : Type*} {f : β → α} {g : β → γ}
    (h : ∀ b b', f b = f b' ↔ g b = g b') {l l' : List β} :
    l.map f = l'.map f ↔ l.map g = l'.map g := by
  induction l generalizing l' with
  | nil => cases l' <;> simp
  | cons b l ih =>
    cases l' with
    | nil => simp
    | cons b' l' => rw [List.map_cons, List.map_cons, List.cons.injEq, h, ih, List.map_cons,
        List.map_cons, List.cons.injEq]

end Delimited
