import Mathlib.Data.Nat.Basic
import Mathlib.Tactic.Common

/-!
# Computations that may not end

A loop whose condition comes from outside (a device, a disk, a memory area) need
not end. Such a computation is run on *fuel*: every loop may go round at most as
often as there is fuel, and the computation gives no result when one of its loops
asks for more.

* `Fueled α`: a computation of an `α`, carrying the proof that more fuel never
  changes a result, with its monad structure and its loop `Fueled.loop`;
* `Returns c a`: some fuel is enough for `c` to end with `a`. At most one result
  is returned (`Returns.unique`), and the rules `returns_pure_iff`,
  `returns_bind_iff` and `returns_loop_iff` compute it from the parts of `c`;
* `Diverges c`: no fuel is enough.

A loop is reasoned about by an invariant: `Returns.loop_inv` carries it to the
result, `exists_returns_loop` shows that there is one, from a rank that every round
lowers, and `diverges_loop` that there is none, from an invariant that always allows
one more round.
-/

/-- A computation of an `α` that may not end. -/
structure Fueled (α : Type*) where
  /-- The result, if this much fuel is enough to reach it. -/
  run : ℕ → Option α
  /-- More fuel does not change the result. -/
  mono : ∀ {n m a}, n ≤ m → run n = some a → run m = some a

namespace Fueled

variable {α β σ ρ : Type*}

/-- The computation of `a` itself. -/
protected def pure (a : α) : Fueled α where
  run _ := some a
  mono _ h := h

/-- One computation after the other, on the same fuel. -/
protected def bind (c : Fueled α) (f : α → Fueled β) : Fueled β where
  run n := (c.run n).bind fun a => (f a).run n
  mono hnm h := by
    obtain ⟨a, ha, hb⟩ := Option.bind_eq_some_iff.1 h
    exact Option.bind_eq_some_iff.2 ⟨a, c.mono hnm ha, (f a).mono hnm hb⟩

instance : Monad Fueled where
  pure := Fueled.pure
  bind := Fueled.bind

/-- At most `k` rounds of a loop, each on the fuel `n`: a round goes on with the
    next state (`inl`) or leaves the loop with its result (`inr`). -/
def rounds (body : σ → Fueled (σ ⊕ ρ)) (n : ℕ) : ℕ → σ → Option ρ
  | 0, _ => none
  | k + 1, s =>
    match (body s).run n with
    | none => none
    | some (.inl s') => rounds body n k s'
    | some (.inr r) => some r

theorem rounds_mono {body : σ → Fueled (σ ⊕ ρ)} {n m : ℕ} (hnm : n ≤ m) {r : ρ} :
    ∀ {k l : ℕ} {s : σ}, k ≤ l → rounds body n k s = some r → rounds body m l s = some r
  | 0, _, _, _, h => by simp [rounds] at h
  | k + 1, 0, _, hkl, _ => absurd hkl (Nat.not_succ_le_zero k)
  | k + 1, l + 1, s, hkl, h => by
    rw [rounds] at h ⊢
    cases hb : (body s).run n with
    | none => simp [hb] at h
    | some x =>
      rw [(body s).mono hnm hb]
      rw [hb] at h
      cases x with
      | inl s' => exact rounds_mono hnm (Nat.le_of_succ_le_succ hkl) h
      | inr r' => exact h

/-- The loop going round `body` from the state `s` until it leaves. -/
def loop (body : σ → Fueled (σ ⊕ ρ)) (s : σ) : Fueled ρ where
  run n := rounds body n n s
  mono hnm h := rounds_mono hnm hnm h

/-! ## Returning -/

/-- The computation ends with the result `a`. -/
def Returns (c : Fueled α) (a : α) : Prop := ∃ n, c.run n = some a

/-- A computation ends with at most one result. -/
theorem Returns.unique {c : Fueled α} {a b : α} (ha : c.Returns a) (hb : c.Returns b) :
    a = b := by
  obtain ⟨n, hn⟩ := ha
  obtain ⟨m, hm⟩ := hb
  have h₁ := c.mono (Nat.le_max_left n m) hn
  have h₂ := c.mono (Nat.le_max_right n m) hm
  exact Option.some.inj (h₁.symm.trans h₂)

@[simp] theorem returns_pure_iff {a b : α} : Returns (pure a : Fueled α) b ↔ b = a := by
  constructor
  · rintro ⟨_, h⟩
    exact (Option.some.inj h).symm
  · rintro rfl
    exact ⟨0, rfl⟩

@[simp] theorem returns_bind_iff {α β : Type _} {c : Fueled α} {f : α → Fueled β} {b : β} :
    Returns (c >>= f) b ↔ ∃ a, c.Returns a ∧ (f a).Returns b := by
  constructor
  · rintro ⟨n, h⟩
    obtain ⟨a, ha, hb⟩ := Option.bind_eq_some_iff.1 h
    exact ⟨a, ⟨n, ha⟩, n, hb⟩
  · rintro ⟨a, ⟨n, ha⟩, m, hb⟩
    exact ⟨max n m, Option.bind_eq_some_iff.2
      ⟨a, c.mono (Nat.le_max_left n m) ha, (f a).mono (Nat.le_max_right n m) hb⟩⟩

/-- After a computation whose result is known, the rest decides. -/
theorem Returns.bind_iff {α β : Type _} {c : Fueled α} {f : α → Fueled β} {a : α} {b : β}
    (ha : c.Returns a) : Returns (c >>= f) b ↔ (f a).Returns b := by
  rw [returns_bind_iff]
  constructor
  · rintro ⟨a', ha', hb⟩
    rwa [ha.unique ha']
  · exact fun hb => ⟨a, ha, hb⟩

/-- A loop ends at its first round, or goes on from the state this round leaves. -/
theorem returns_loop_iff {body : σ → Fueled (σ ⊕ ρ)} {s : σ} {r : ρ} :
    (loop body s).Returns r ↔
      (body s).Returns (.inr r) ∨ ∃ s', (body s).Returns (.inl s') ∧ (loop body s').Returns r := by
  constructor
  · rintro ⟨n, h⟩
    cases n with
    | zero => simp [loop, rounds] at h
    | succ k =>
      simp only [loop, rounds] at h
      cases hb : (body s).run (k + 1) with
      | none => simp [hb] at h
      | some x =>
        rw [hb] at h
        cases x with
        | inl s' =>
          exact .inr ⟨s', ⟨_, hb⟩, k + 1, rounds_mono le_rfl (Nat.le_succ k) h⟩
        | inr r' => exact .inl ⟨_, Option.some.inj h ▸ hb⟩
  · rintro (⟨n, h⟩ | ⟨s', ⟨n, h⟩, m, hm⟩)
    · refine ⟨n + 1, ?_⟩
      simp [loop, rounds, (body s).mono (Nat.le_succ n) h]
    · have hn : n ≤ max n m + 1 := Nat.le_succ_of_le (Nat.le_max_left n m)
      have hm' : m ≤ max n m + 1 := Nat.le_succ_of_le (Nat.le_max_right n m)
      refine ⟨max n m + 1, ?_⟩
      simp only [loop, rounds, (body s).mono hn h]
      exact rounds_mono hm' (Nat.le_max_right n m) hm

/-- One more round in front of a loop. -/
theorem Returns.loop_iff {body : σ → Fueled (σ ⊕ ρ)} {s s' : σ} {r : ρ}
    (h : (body s).Returns (.inl s')) : (loop body s).Returns r ↔ (loop body s').Returns r := by
  rw [returns_loop_iff]
  constructor
  · rintro (h' | ⟨s'', h', hr⟩)
    · exact absurd (h.unique h') (by simp)
    · rwa [Sum.inl.inj (h.unique h')]
  · exact fun hr => .inr ⟨s', h, hr⟩

/-- A loop whose round leaves it ends with the result of the round. -/
theorem Returns.loop_done {body : σ → Fueled (σ ⊕ ρ)} {s : σ} {r : ρ}
    (h : (body s).Returns (.inr r)) : (loop body s).Returns r :=
  returns_loop_iff.2 (.inl h)

/-- What holds in the state of the last round, and of every state before one of which it holds,
    holds in the first state. -/
theorem Returns.loop_rec {body : σ → Fueled (σ ⊕ ρ)} {P : σ → Prop} {s : σ} {r : ρ}
    (hr : (loop body s).Returns r) (done : ∀ s, (body s).Returns (.inr r) → P s)
    (next : ∀ s s', (body s).Returns (.inl s') → P s' → P s) : P s := by
  obtain ⟨n, hn⟩ := hr
  -- The fuel of the rounds stays; the induction is on how many of them there are.
  have key : ∀ k s, rounds body n k s = some r → P s := by
    intro k
    induction k with
    | zero => intro s h; simp [rounds] at h
    | succ k ih =>
      intro s h
      rw [rounds] at h
      cases hb : (body s).run n with
      | none => simp [hb] at h
      | some x =>
        rw [hb] at h
        cases x with
        | inl s' => exact next s s' ⟨n, hb⟩ (ih s' h)
        | inr r' => exact done s ⟨n, Option.some.inj h ▸ hb⟩
  exact key n s hn

/-- What every round preserves holds in the state of the last round, the one
    giving the result of the loop. -/
theorem Returns.loop_inv {body : σ → Fueled (σ ⊕ ρ)} {I : σ → Prop} {s : σ} {r : ρ}
    (hr : (loop body s).Returns r) (hs : I s)
    (hstep : ∀ s s', I s → (body s).Returns (.inl s') → I s') :
    ∃ s', I s' ∧ (body s').Returns (.inr r) :=
  hr.loop_rec (P := fun s => I s → ∃ s', I s' ∧ (body s').Returns (.inr r))
    (fun s h hs => ⟨s, hs, h⟩) (fun s s' h ih hs => ih (hstep s s' hs h)) hs

/-- A loop ends if, from every state of an invariant, its round leaves it or goes on to a state of
    the invariant with a smaller rank. -/
theorem exists_returns_loop {body : σ → Fueled (σ ⊕ ρ)} {I : σ → Prop} (rank : σ → ℕ) {s : σ}
    (hs : I s) (hstep : ∀ s, I s → (∃ r, (body s).Returns (.inr r)) ∨
      ∃ s', (body s).Returns (.inl s') ∧ I s' ∧ rank s' < rank s) :
    ∃ r, (loop body s).Returns r := by
  induction hk : rank s using Nat.strongRecOn generalizing s with
  | ind k ih =>
    rcases hstep s hs with ⟨r, hr⟩ | ⟨s', hs', hinv, hrank⟩
    · exact ⟨r, .loop_done hr⟩
    · obtain ⟨r, hr⟩ := ih _ (hk ▸ hrank) hinv rfl
      exact ⟨r, (Returns.loop_iff hs').2 hr⟩

/-- A loop over a list, each round of which adds something to the output. -/
theorem returns_foldlM {α β : Type _} {f : List β → α → Fueled (List β)} {g : α → List β}
    {xs : List α} (h : ∀ x ∈ xs, ∀ out, (f out x).Returns (out ++ g x)) (out : List β) :
    (xs.foldlM f out).Returns (out ++ xs.flatMap g) := by
  induction xs generalizing out with
  | nil => exact returns_pure_iff.2 (List.append_nil out)
  | cons x xs ih =>
    rw [List.foldlM_cons, (h x List.mem_cons_self out).bind_iff, List.flatMap_cons,
      ← List.append_assoc]
    exact ih (fun y hy => h y (List.mem_cons_of_mem x hy)) _

/-! ## Diverging -/

/-- The computation does not end, whatever the fuel. -/
def Diverges (c : Fueled α) : Prop := ∀ n, c.run n = none

theorem diverges_iff {c : Fueled α} : c.Diverges ↔ ∀ a, ¬c.Returns a := by
  constructor
  · rintro h a ⟨n, hn⟩
    rw [h n] at hn
    exact Option.some_ne_none _ hn.symm
  · intro h n
    exact Option.eq_none_iff_forall_ne_some.2 fun a hn => h a ⟨n, hn⟩

/-- A loop does not end if, from every state of an invariant, its round goes on to
    a state of the invariant. -/
theorem diverges_loop {body : σ → Fueled (σ ⊕ ρ)} {I : σ → Prop} {s : σ} (hs : I s)
    (hstep : ∀ s, I s → ∃ s', (body s).Returns (.inl s') ∧ I s') : (loop body s).Diverges := by
  refine diverges_iff.2 fun r hr => ?_
  obtain ⟨s', hs', hr'⟩ := hr.loop_inv hs fun s s' hs hb => by
    obtain ⟨s'', hb', hs''⟩ := hstep s hs
    rwa [Sum.inl.inj (hb.unique hb')]
  obtain ⟨s'', hb, _⟩ := hstep s' hs'
  exact absurd (hb.unique hr') (by simp)

end Fueled
