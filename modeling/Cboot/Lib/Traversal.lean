import Cboot.Lib.Radix

/-!
# Traversing a radix tree

The slots in use of a radix tree of tables, in depth-first order (`traverse`): those of
a table one after the other, each link followed by what there is in the table that it
links to.

* `mem_traverse`: a slot in use is visited if and only if its table is reached;
* `traverse_sorted`: if the indices of every table are taken in increasing order, then
  the paths of the slots visited increase lexicographically, so that none is visited
  twice;
* `readPaths_traverse`: the paths can be read off from the depths and the indices alone.
-/

namespace Radix

variable {A ι L F : Type*}

/-- Where a slot is: its index in a table, and the path to the table. -/
structure Place (A ι : Type*) where
  path : List ι
  table : A
  index : ι

/-- The path that goes through the slot. -/
def Place.fullPath (x : Place A ι) : List ι := x.path ++ [x.index]

/-- What is visited from the slot `s` at the place `x` on, `below` being what is visited in
    a table. -/
def visit (below : A → List (Place A ι)) (x : Place A ι) (s : Slot A L F) : List (Place A ι) :=
  match s with
  | .empty => []
  | .leaf _ _ => [x]
  | .link _ b => x :: below b

/-- The slots in use from the table `a` on, to which the path `p` leads, with `r` levels. The
    indices of a table are taken in the order of `is`. -/
def traverse (σ : Store A ι L F) (is : List ι) : (r : ℕ) → (p : List ι) → A → List (Place A ι)
  | 0, _, _ => []
  | r + 1, p, a =>
    is.flatMap fun i => visit (traverse σ is r (p ++ [i])) ⟨p, a, i⟩ (σ r a i)

section traverse

variable {σ : Store A ι L F} {is p : List ι} {r : ℕ} {a : A} {x : Place A ι}

theorem mem_visit {below : A → List (Place A ι)} {y : Place A ι} {s : Slot A L F} :
    y ∈ visit below x s ↔ y = x ∧ s ≠ .empty ∨ ∃ l b, s = .link l b ∧ y ∈ below b := by
  cases s <;> simp [visit]

/-- The slots visited from the slot `i` on are those of the paths through it. -/
theorem mem_traverse (his : ∀ i, i ∈ is) :
    x ∈ traverse σ is r p a ↔ ∃ q k, x.path = p ++ q ∧ q.length + (k + 1) = r ∧
      table σ q (k + 1) a = some x.table ∧ σ k x.table x.index ≠ .empty := by
  induction r generalizing p a with
  | zero =>
    refine ⟨fun h => absurd h List.not_mem_nil, ?_⟩
    rintro ⟨q, k, -, h, -⟩
    exact absurd h (Nat.succ_ne_zero _)
  | succ r ih =>
    simp only [traverse, List.mem_flatMap, mem_visit]
    constructor
    · rintro ⟨i, -, ⟨rfl, hs⟩ | ⟨l, b, hs, hx⟩⟩
      · exact ⟨[], r, (List.append_nil p).symm, Nat.zero_add _, rfl, hs⟩
      · obtain ⟨q, k, hq, hk, ht, hne⟩ := ih.1 hx
        refine ⟨i :: q, k, ?_, by rw [List.length_cons]; omega, ?_, hne⟩
        · rw [hq, List.append_assoc, List.singleton_append]
        · rw [table, hk, hs]
          exact ht
    · rintro ⟨q, k, hq, hk, ht, hne⟩
      cases q with
      | nil =>
        -- The slot is in the table itself.
        obtain rfl := Option.some.inj ht
        obtain rfl : k = r := by rw [List.length_nil] at hk; omega
        rw [List.append_nil] at hq
        exact ⟨x.index, his _, .inl ⟨hq ▸ rfl, hne⟩⟩
      | cons i q =>
        have hk' : q.length + (k + 1) = r := by rw [List.length_cons] at hk; omega
        rw [table, hk'] at ht
        cases hs : σ r a i with
        | empty => simp [hs] at ht
        | leaf l f => simp [hs] at ht
        | link l b =>
          rw [hs] at ht
          refine ⟨i, his i, .inr ⟨l, b, hs, ih.2 ⟨q, k, ?_, hk', ht, hne⟩⟩⟩
          rw [hq, List.append_assoc, List.singleton_append]

/-- The paths of the slots visited from a table on begin with the one to the table. -/
theorem prefix_of_mem_traverse (h : x ∈ traverse σ is r p a) : p <+: x.path := by
  induction r generalizing p a with
  | zero => exact absurd h List.not_mem_nil
  | succ r ih =>
    obtain ⟨i, -, hi⟩ := List.mem_flatMap.1 h
    rcases mem_visit.1 hi with ⟨rfl, -⟩ | ⟨_, b, -, hx⟩
    · exact List.prefix_rfl
    · exact (List.prefix_append p [i]).trans (ih hx)

/-- Those visited from a slot on begin with the one through the slot. -/
theorem exists_of_mem_visit {i : ι} {s : Slot A L F}
    (h : x ∈ visit (traverse σ is r (p ++ [i])) ⟨p, a, i⟩ s) :
    ∃ q, x.fullPath = p ++ i :: q := by
  rcases mem_visit.1 h with ⟨rfl, -⟩ | ⟨_, b, -, hx⟩
  · exact ⟨[], rfl⟩
  · obtain ⟨q, hq⟩ := prefix_of_mem_traverse hx
    exact ⟨q ++ [x.index], by simp [Place.fullPath, ← hq]⟩

/-- A slot comes after the one that links to its table. -/
theorem lt_fullPath [LT ι] {i : ι} (h : p ++ [i] <+: x.path) : p ++ [i] < x.fullPath := by
  obtain ⟨q, hq⟩ := h
  have hlt : ([] : List ι) < q ++ [x.index] := by cases q <;> exact List.Lex.nil
  have happend : p ++ [i] ++ [] < p ++ [i] ++ (q ++ [x.index]) := List.append_left_lt hlt
  rwa [List.append_nil, ← List.append_assoc, hq] at happend

theorem traverse_sorted [LT ι] (his : is.Pairwise (· < ·)) :
    ((traverse σ is r p a).map Place.fullPath).Pairwise (· < ·) := by
  rw [List.pairwise_map]
  induction r generalizing p a with
  | zero => exact .nil
  | succ r ih =>
    rw [traverse, List.pairwise_flatMap]
    refine ⟨fun i _ => ?_, his.imp fun {i j} hij x hx y hy => ?_⟩
    · -- From one slot on: the slot itself, then those below it.
      cases σ r a i with
      | empty => exact .nil
      | leaf l f => exact List.pairwise_singleton _ _
      | link l b =>
        exact List.pairwise_cons.2 ⟨fun y hy => lt_fullPath (prefix_of_mem_traverse hy), ih⟩
    · obtain ⟨q, hq⟩ := exists_of_mem_visit hx
      obtain ⟨q', hq'⟩ := exists_of_mem_visit hy
      rw [hq, hq']
      exact List.append_left_lt (List.Lex.rel hij)

end traverse

/-! ## Reading the paths -/

/-- The paths of slots of which only the depths and the indices are known: a slot is in the
    table that the path so far leads to at its depth. -/
def readPaths (path : List ι) : List (ℕ × ι) → List (List ι)
  | [] => []
  | (d, i) :: xs => (path.take d ++ [i]) :: readPaths (path.take d ++ [i]) xs

example : readPaths [] [(0, 'a'), (1, 'b'), (1, 'c'), (0, 'd')] =
    [['a'], ['a', 'b'], ['a', 'c'], ['d']] := rfl

/-- What is left of a place when it is printed with its depth. -/
def Place.brief (x : Place A ι) : ℕ × ι := (x.path.length, x.index)

/-- The paths of `xs` are read right, and the path then still begins with `p`. -/
def ReadRight (p : List ι) (xs : List (Place A ι)) : Prop :=
  ∀ path ys, p <+: path → ∃ path', p <+: path' ∧
    readPaths path (xs.map Place.brief ++ ys) = xs.map Place.fullPath ++ readPaths path' ys

section ReadRight

variable {σ : Store A ι L F} {is p : List ι} {r : ℕ} {a : A} {xs ys : List (Place A ι)}

theorem ReadRight.nil (p : List ι) : ReadRight p ([] : List (Place A ι)) :=
  fun path _ hp => ⟨path, hp, rfl⟩

theorem ReadRight.append (hx : ReadRight p xs) (hy : ReadRight p ys) :
    ReadRight p (xs ++ ys) := fun path zs hp => by
  obtain ⟨path₁, hp₁, h₁⟩ := hx path (ys.map Place.brief ++ zs) hp
  obtain ⟨path₂, hp₂, h₂⟩ := hy path₁ zs hp₁
  refine ⟨path₂, hp₂, ?_⟩
  rw [List.map_append, List.map_append, List.append_assoc, List.append_assoc, h₁, h₂]

theorem ReadRight.flatMap {f : ι → List (Place A ι)} (h : ∀ i, ReadRight p (f i)) :
    ReadRight p (is.flatMap f) := by
  induction is with
  | nil => exact .nil p
  | cons i is ih => exact .append (h i) ih

/-- A slot, and those below it. -/
theorem ReadRight.cons {i : ι} (h : ReadRight (p ++ [i]) xs) :
    ReadRight p (⟨p, a, i⟩ :: xs) := fun path zs hp => by
  obtain ⟨path', hp', he⟩ := h (p ++ [i]) zs List.prefix_rfl
  refine ⟨path', (List.prefix_append p [i]).trans hp', ?_⟩
  have htake : path.take p.length = p := (List.prefix_iff_eq_take.1 hp).symm
  rw [List.map_cons, List.cons_append, Place.brief, readPaths, htake, he]
  rfl

theorem readRight_traverse (σ : Store A ι L F) (is : List ι) (r : ℕ) (p : List ι) (a : A) :
    ReadRight p (traverse σ is r p a) := by
  induction r generalizing p a with
  | zero => exact .nil p
  | succ r ih =>
    refine .flatMap fun i => ?_
    cases σ r a i with
    | empty => exact .nil p
    | leaf l f => exact .cons (.nil _)
    | link l b => exact .cons (ih _ b)

/-- The paths of the slots visited can be read off. -/
theorem readPaths_traverse (σ : Store A ι L F) (is : List ι) (r : ℕ) (a : A) :
    readPaths [] ((traverse σ is r [] a).map Place.brief) =
      (traverse σ is r [] a).map Place.fullPath := by
  obtain ⟨path, -, h⟩ := readRight_traverse σ is r [] a [] [] List.prefix_rfl
  rwa [List.append_nil, readPaths, List.append_nil] at h

end ReadRight

end Radix
