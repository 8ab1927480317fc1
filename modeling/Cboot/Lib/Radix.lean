import Mathlib.Data.List.Basic
import Mathlib.Tactic.Common

/-!
# Radix trees of tables

A radix tree is stored as tables in a memory: a slot of a table, found by its
index, is empty, links to a table of the level below or holds a leaf. A path of
indices is looked up by walking down from the root (`walk`). Links and leaves carry
a label, and a lookup collects the labels it has passed.

What keeps the tables apart is a map of their *owners* (`Owned`): every table has
one path of indices leading to it, its owner, and a slot only links to the table
owned by the path of the slot. A lookup can then only pass a slot whose path is a
prefix of its own:

* changing a slot keeps all other lookups (`Owned.walk_of_not_prefix`);
* linking an empty slot to an empty table keeps all lookups (`Owned.walk_link`);
* a leaf stored in a slot is what the paths through the slot find
  (`Owned.walk_leaf`), and a lookup finds nothing but the leaf of a slot whose table
  it reaches (`walk_eq_some_iff`).

Any depth, any type of indices and any type of table addresses will do.
-/

/-- What a table holds at an index, with a label `L`: nothing, a link to a table `A`,
    or a leaf `F`. -/
inductive Slot (A L F : Type*)
  | empty
  | link (l : L) (a : A)
  | leaf (l : L) (f : F)

namespace Radix

variable {A ι L F : Type*}

/-- The slots of the tables: `σ r a i` is the one at the index `i` of the table `a`,
    with `r` levels below this table. -/
abbrev Store (A ι L F : Type*) := ℕ → A → ι → Slot A L F

/-- What a lookup finds: the labels on the way, the leaf, and the indices left. -/
structure Hit (ι L F : Type*) where
  labels : List L
  leaf : F
  rest : List ι

/-- A lookup, after links with the labels `ls`. -/
def Hit.after (ls : List L) (h : Hit ι L F) : Hit ι L F := { h with labels := ls ++ h.labels }

/-- The lookup of a path of indices from the table `a`. -/
def walk (σ : Store A ι L F) : List ι → A → Option (Hit ι L F)
  | [], _ => none
  | i :: q, a =>
    match σ q.length a i with
    | .empty => none
    | .leaf l f => some ⟨[l], f, q⟩
    | .link l a' => (walk σ q a').map (Hit.after [l])

/-- The table that the path `p` leads to from the table `a`, `r` being the levels of
    this table and those below it. -/
def table (σ : Store A ι L F) : (p : List ι) → (r : ℕ) → A → Option A
  | [], _, a => some a
  | i :: p, r, a =>
    match σ (p.length + r) a i with
    | .link _ a' => table σ p r a'
    | _ => none

/-- The table of a path is reached through the one of its beginning. -/
theorem table_append (σ : Store A ι L F) (p q : List ι) (r : ℕ) (a : A) :
    table σ (p ++ q) r a = (table σ p (q.length + r) a).bind (table σ q r) := by
  induction p generalizing a with
  | nil => rfl
  | cons i p ih =>
    rw [List.cons_append, table, table, List.length_append, Nat.add_assoc]
    cases σ (p.length + (q.length + r)) a i with
    | link l a' => exact ih a'
    | empty => rfl
    | leaf l f => rfl

/-- One more link at the end of a path. -/
theorem table_concat {σ : Store A ι L F} {p : List ι} {i : ι} {r : ℕ} {a b c : A} {l : L}
    (h : table σ p (r + 1) a = some b) (hl : σ r b i = .link l c) :
    table σ (p ++ [i]) r a = some c := by
  rw [table_append, List.length_singleton, Nat.add_comm 1, h]
  simp [table, hl]

/-- A lookup whose path begins with one leading to a table goes on from this table. -/
theorem walk_of_table {σ : Store A ι L F} {p q : List ι} {a b : A}
    (h : table σ p q.length a = some b) :
    ∃ ls, walk σ (p ++ q) a = (walk σ q b).map (Hit.after ls) := by
  induction p generalizing a with
  | nil =>
    obtain rfl := Option.some.inj h
    rw [List.nil_append]
    exact ⟨[], by cases walk σ q a <;> rfl⟩
  | cons i p ih =>
    rw [table] at h
    rw [List.cons_append, walk, List.length_append]
    cases hs : σ (p.length + q.length) a i with
    | link l a' =>
      rw [hs] at h
      obtain ⟨ls, hls⟩ := ih h
      refine ⟨l :: ls, ?_⟩
      simp only [hls]
      cases walk σ q b <;> rfl
    | empty => simp [hs] at h
    | leaf l f => simp [hs] at h

/-- A lookup ends at the leaf in a slot whose table it reaches. -/
theorem walk_eq_some_iff {σ : Store A ι L F} {path q : List ι} {a : A} {f : F} :
    (∃ ls, walk σ path a = some ⟨ls, f, q⟩) ↔
      ∃ p i b l, path = p ++ i :: q ∧ table σ p (q.length + 1) a = some b ∧
        σ q.length b i = .leaf l f := by
  constructor
  · rintro ⟨ls, h⟩
    induction path generalizing a ls with
    | nil => exact absurd h (by simp [walk])
    | cons j path ih =>
      rw [walk] at h
      cases hs : σ path.length a j with
      | empty => simp [hs] at h
      | leaf l f' =>
        rw [hs] at h
        cases h
        exact ⟨[], j, a, l, rfl, rfl, hs⟩
      | link l a' =>
        rw [hs] at h
        obtain ⟨⟨ls', f', q'⟩, hw, he⟩ := Option.map_eq_some_iff.1 h
        cases he
        obtain ⟨p, i, b, l', rfl, ht, hl⟩ := ih ls' hw
        refine ⟨j :: p, i, b, l', rfl, ?_, hl⟩
        rw [List.length_append, List.length_cons] at hs
        rw [table, hs]
        exact ht
  · rintro ⟨p, i, b, l, rfl, ht, hl⟩
    obtain ⟨ls, hw⟩ := walk_of_table (q := i :: q) ht
    refine ⟨ls ++ [l], ?_⟩
    rw [hw, walk, hl]
    rfl

/-- Every table is owned by the path of the only slots that may link to it. -/
structure Owned (σ : Store A ι L F) (depth : ℕ) (root : A) (own : A → Option (List ι)) : Prop where
  root : own root = some []
  link : ∀ {a p i r l a'}, own a = some p → p.length + r + 1 = depth → σ r a i = .link l a' →
    own a' = some (p ++ [i])

/-- The slots of the owned tables other than the slot `i₀` of `a₀` are the same. -/
def AgreeOff (own : A → Option (List ι)) (a₀ : A) (i₀ : ι) (σ σ' : Store A ι L F) : Prop :=
  ∀ a p i r, own a = some p → ¬(a = a₀ ∧ i = i₀) → σ' r a i = σ r a i

namespace Owned

variable {σ σ' : Store A ι L F} {depth : ℕ} {root : A} {own : A → Option (List ι)}

/-- A path leads to a table it owns. -/
theorem own_of_table (ho : Owned σ depth root own) {p : List ι} {r : ℕ} {a : A}
    (hd : p.length + r = depth) (h : table σ p r root = some a) : own a = some p := by
  -- The path is split at the table that has been reached: `p'` leads to it, `q` is left.
  have key : ∀ (p' q : List ι) (b : A), own b = some p' → p' ++ q = p →
      table σ q r b = some a → own a = some p := by
    intro p' q
    induction q generalizing p' with
    | nil =>
      intro b hb hq h
      rw [List.append_nil] at hq
      obtain rfl := Option.some.inj h
      exact hq ▸ hb
    | cons i q ih =>
      intro b hb hq h
      have hlen := congrArg List.length hq
      rw [List.length_append, List.length_cons] at hlen
      rw [table] at h
      cases hs : σ (q.length + r) b i with
      | link l b' =>
        rw [hs] at h
        exact ih (p' ++ [i]) b' (ho.link hb (by omega) hs) (by simpa using hq) h
      | empty => simp [hs] at h
      | leaf l f => simp [hs] at h
  exact key [] p root ho.root rfl h

/-- The labels found by a lookup are those of slots of owned tables. -/
theorem labels (ho : Owned σ depth root own) {P : L → Prop}
    (hlink : ∀ a p i r l a', own a = some p → p.length + r + 1 = depth →
      σ r a i = .link l a' → P l)
    (hleaf : ∀ a p i r l f, own a = some p → p.length + r + 1 = depth →
      σ r a i = .leaf l f → P l)
    {path : List ι} {hit : Hit ι L F} (hd : path.length = depth)
    (h : walk σ path root = some hit) : ∀ l ∈ hit.labels, P l := by
  -- By induction on what is left of the path, after `p` has led to the table `a`.
  have key : ∀ (q p : List ι) (a : A) (hit : Hit ι L F), own a = some p → p ++ q = path →
      walk σ q a = some hit → ∀ l ∈ hit.labels, P l := by
    intro q
    induction q with
    | nil => intro p a hit _ _ h; exact absurd h (by simp [walk])
    | cons i q ih =>
      intro p a hit ha hq h
      have hlen := congrArg List.length hq
      rw [List.length_append, List.length_cons] at hlen
      rw [walk] at h
      cases hs : σ q.length a i with
      | link l' a' =>
        rw [hs] at h
        obtain ⟨hit', hit'_eq, rfl⟩ := Option.map_eq_some_iff.1 h
        intro l hl
        rcases List.mem_cons.1 hl with rfl | hl
        · exact hlink a p i q.length l a' ha (by omega) hs
        · exact ih (p ++ [i]) a' hit' (ho.link ha (by omega) hs) (by simpa using hq) hit'_eq l hl
      | empty => simp [hs] at h
      | leaf l' f =>
        rw [hs] at h
        obtain rfl := Option.some.inj h
        intro l hl
        rw [List.mem_singleton.1 hl]
        exact hleaf a p i q.length l' f ha (by omega) hs
  exact key path [] root hit ho.root rfl h

/-- Two stores agreeing on the slots that a lookup may pass — or from these slots on —
    agree on the lookup. -/
theorem walk_congr (ho : Owned σ depth root own) {path : List ι} (hd : path.length = depth)
    (h : ∀ a p i q, own a = some p → p ++ i :: q = path →
      σ' q.length a i = σ q.length a i ∨ walk σ' (i :: q) a = walk σ (i :: q) a) :
    walk σ' path root = walk σ path root := by
  have key : ∀ (q p : List ι) (a : A), own a = some p → p ++ q = path →
      walk σ' q a = walk σ q a := by
    intro q
    induction q with
    | nil => intros; rfl
    | cons i q ih =>
      intro p a ha hq
      have hlen := congrArg List.length hq
      rw [List.length_append, List.length_cons] at hlen
      rcases h a p i q ha hq with hs | hw
      · rw [walk, walk, hs]
        cases hs' : σ q.length a i with
        | link l a' =>
          simp only
          rw [ih (p ++ [i]) a' (ho.link ha (by omega) hs') (by simpa using hq)]
        | empty => rfl
        | leaf l f => rfl
      · exact hw
  exact key path [] root ho.root rfl

/-- Two stores agreeing on the slots that a path passes agree on its table. -/
theorem table_congr (ho : Owned σ depth root own) {path : List ι} {r : ℕ}
    (hd : path.length + r = depth)
    (h : ∀ a p i q, own a = some p → p ++ i :: q = path →
      σ' (q.length + r) a i = σ (q.length + r) a i) :
    table σ' path r root = table σ path r root := by
  have key : ∀ (q p : List ι) (a : A), own a = some p → p ++ q = path →
      table σ' q r a = table σ q r a := by
    intro q
    induction q with
    | nil => intros; rfl
    | cons i q ih =>
      intro p a ha hq
      have hlen := congrArg List.length hq
      rw [List.length_append, List.length_cons] at hlen
      rw [table, table, h a p i q ha hq]
      cases hs : σ (q.length + r) a i with
      | link l a' => exact ih (p ++ [i]) a' (ho.link ha (by omega) hs) (by simpa using hq)
      | empty => rfl
      | leaf l f => rfl
  exact key path [] root ho.root rfl

section change

variable {a₀ : A} {i₀ : ι} {p₀ : List ι}

/-- Changing a slot keeps the lookups of the paths that do not begin with its own. -/
theorem walk_of_not_prefix (ho : Owned σ depth root own) (h₀ : own a₀ = some p₀)
    (hag : AgreeOff own a₀ i₀ σ σ') {path : List ι} (hd : path.length = depth)
    (hnp : ¬p₀ ++ [i₀] <+: path) : walk σ' path root = walk σ path root := by
  refine ho.walk_congr hd fun a p i q ha hq => .inl (hag a p i q.length ha ?_)
  rintro ⟨rfl, rfl⟩
  obtain rfl := Option.some.inj (h₀.symm.trans ha)
  exact hnp ⟨q, by simpa using hq⟩

/-- Linking an empty slot to a table of empty slots keeps all lookups. -/
theorem walk_link (ho : Owned σ depth root own) (h₀ : own a₀ = some p₀)
    (hag : AgreeOff own a₀ i₀ σ σ') {r : ℕ} (hr : p₀.length + r + 1 = depth) {l : L} {b : A}
    (hempty : σ r a₀ i₀ = .empty) (hlink : σ' r a₀ i₀ = .link l b)
    (hb : ∀ r i, σ' r b i = .empty) {path : List ι} (hd : path.length = depth) :
    walk σ' path root = walk σ path root := by
  refine ho.walk_congr hd fun a p i q ha hq => ?_
  by_cases h : a = a₀ ∧ i = i₀
  · -- In the new store the walk goes through the link, and ends in the empty table.
    obtain ⟨rfl, rfl⟩ := h
    obtain rfl := Option.some.inj (h₀.symm.trans ha)
    have hlen := congrArg List.length hq
    rw [List.length_append, List.length_cons] at hlen
    obtain rfl : q.length = r := by omega
    right
    have hnone : walk σ' q b = none := by
      cases q with
      | nil => rfl
      | cons j q => simp only [walk, hb]
    simp only [walk, hempty, hlink, hnone, Option.map_none]
  · exact .inl (hag a p i q.length ha h)

/-- Changing a slot keeps the tables that its path, and all paths not beginning with
    its own, lead to. -/
theorem table_of_not_prefix (ho : Owned σ depth root own) (h₀ : own a₀ = some p₀)
    (hag : AgreeOff own a₀ i₀ σ σ') {p : List ι} {r : ℕ} (hd : p.length + r = depth)
    (hnp : ¬p₀ ++ [i₀] <+: p) : table σ' p r root = table σ p r root := by
  refine ho.table_congr hd fun a p' i q ha hq => hag a p' i _ ha ?_
  rintro ⟨rfl, rfl⟩
  obtain rfl := Option.some.inj (h₀.symm.trans ha)
  exact hnp ⟨q, by simpa using hq⟩

/-- Linking an empty slot to a table of empty slots adds no other table. -/
theorem table_link_of_ne (ho : Owned σ depth root own) (hag : AgreeOff own a₀ i₀ σ σ') {r : ℕ}
    (hr : p₀.length + r + 1 = depth) (ht : table σ p₀ (r + 1) root = some a₀) {l : L} {b : A}
    (hempty : σ r a₀ i₀ = .empty) (hlink : σ' r a₀ i₀ = .link l b)
    (hb : ∀ r i, σ' r b i = .empty) {p : List ι} {k : ℕ} (hd : p.length + k = depth)
    (hne : p ≠ p₀ ++ [i₀]) : table σ' p k root = table σ p k root := by
  have h₀ : own a₀ = some p₀ := ho.own_of_table (by omega) ht
  by_cases hpre : p₀ ++ [i₀] <+: p
  · obtain ⟨q, rfl⟩ := hpre
    have ht' : table σ' p₀ (r + 1) root = some a₀ := by
      rw [ho.table_of_not_prefix h₀ hag (by omega), ht]
      exact fun h => absurd h.length_le (by simp)
    rw [List.append_assoc, List.singleton_append] at hd hne ⊢
    rw [List.length_append, List.length_cons] at hd
    have hk : q.length + k = r := by omega
    have hk' : (i₀ :: q).length + k = r + 1 := by
      rw [List.length_cons]
      omega
    rw [table_append, table_append, hk', ht, ht', Option.bind_some, Option.bind_some, table,
      table, hk, hempty, hlink]
    cases q with
    | nil => exact absurd rfl hne
    | cons j q =>
      -- Before, the path ended at the empty slot; now it does in the new table.
      simp only [table, hb]
  · exact ho.table_of_not_prefix h₀ hag hd hpre

/-- The paths through a slot holding a leaf find it. -/
theorem walk_leaf (ho : Owned σ depth root own) (hag : AgreeOff own a₀ i₀ σ σ') {q : List ι}
    (hd : p₀.length + q.length + 1 = depth) (ht : table σ p₀ (q.length + 1) root = some a₀)
    {l : L} {f : F} (hleaf : σ' q.length a₀ i₀ = .leaf l f) :
    ∃ ls, walk σ' (p₀ ++ i₀ :: q) root = some ⟨ls, f, q⟩ := by
  have h₀ : own a₀ = some p₀ := ho.own_of_table (by omega) ht
  have ht' : table σ' p₀ (i₀ :: q).length root = some a₀ := by
    rw [List.length_cons, ho.table_of_not_prefix h₀ hag (by omega), ht]
    exact fun h => absurd h.length_le (by simp)
  obtain ⟨ls, hls⟩ := walk_of_table ht'
  refine ⟨ls ++ [l], ?_⟩
  rw [hls, walk, hleaf]
  rfl

end change

end Owned

end Radix
