import Cboot.Disk.Partition
import Cboot.Paging.Virtual

/-!
# The search through the page tables

`find_partition_by_name` with the loads from the entries translated by the tables. Its loop goes
on through the memory behind the buffer until there is an entry of type zero, or one that is not
mapped, where it faults.

* `Virtual.loop_entryRound_ok`, `Virtual.loop_ok_of_loop`: without a fault, the search is the
  one of untranslated loads, and in low memory, which the boot tables map, there is none;
* `Virtual.search_ends_iff`: so the search only goes on for ever if the size of an entry is zero
  and the first entry is in use.

The buffer is in low memory.
-/

namespace Cboot

namespace Virtual

open AtaDevice Fueled

/-! ## The loads -/

/-- How much of the type of the entry at `a` is compared: all up to the first byte that is not
    zero. -/
def comparedType (buf : Memory) (a : ℕ) : ℕ :=
  min 16 (((List.range 16).takeWhile fun i => buf (a + i) == 0).length + 1)

/-- What a round loads of the entry at `v`, which is the one at `a` of the buffer: what is compared
    of its type, and, if it is in use, its name, and all of it when it is the one found. -/
def loadEntry (buf m : Memory) (name found v a : ℕ) : Except ℕ Unit := do
  let _ ← load m (comparedType buf a) v
  if NullEntryAt buf a then pure ()
  else
    let _ ← load m 64 ((v + 56) % 2 ^ 64)
    if nameMatches buf m name a = true ∧ found = 0 then
      let _ ← load m 120 v
      pure ()
    else pure ()

/-- A round of the loop, which may end with a fault. -/
def entryRound (buf m : Memory) (buffer name gpteSize : ℕ) (s : ℕ × ℕ × GPTEntry × List ℕ) :
    Fueled (ℕ × ℕ × GPTEntry × List ℕ ⊕ Except ℕ (GPTEntry × List ℕ)) :=
  match loadEntry buf m name s.2.1 ((buffer + s.1) % 2 ^ 64) s.1 with
  | .error v => pure (.inr (.error v))
  | .ok () => do
    let next ← Cboot.entryRound buf m name gpteSize s
    pure (next.map id .ok)

/-- `find_partition_by_name`, with the buffer at `buffer`. -/
def findPartitionByName {δ : Type} (io : Ports δ) (d : δ) (stack m : Memory) (buffer name : ℕ) :
    Fueled (δ × Except ℕ (GPTEntry × List ℕ)) := do
  let (d, buf, gpteSize) ← readPartitionTable io d stack
  let found ← .loop (entryRound buf m buffer name gpteSize) (0, 0, nullEntry, [])
  pure (d, found)

/-! ## Rounds -/

section round

variable {buf m : Memory} {buffer name gpteSize found v a : ℕ} {s : ℕ × ℕ × GPTEntry × List ℕ}

/-- A round takes a fault, or does what one of the untranslated loop does. -/
theorem entryRound_cases {next : ℕ × ℕ × GPTEntry × List ℕ ⊕ Except ℕ (GPTEntry × List ℕ)}
    (h : (entryRound buf m buffer name gpteSize s).Returns next) :
    (∃ v, next = .inr (.error v)) ∨ ∃ next',
      (Cboot.entryRound buf m name gpteSize s).Returns next' ∧ next = next'.map id .ok := by
  rw [entryRound] at h
  split at h
  · exact .inl ⟨_, returns_pure_iff.1 h⟩
  · obtain ⟨next', hnext, h⟩ := returns_bind_iff.1 h
    exact .inr ⟨next', hnext, returns_pure_iff.1 h⟩

/-- Where no load faults, the round is that of the untranslated loop. -/
theorem entryRound_of_loadEntry
    (hload : loadEntry buf m name s.2.1 ((buffer + s.1) % 2 ^ 64) s.1 = .ok ())
    {next : ℕ × ℕ × GPTEntry × List ℕ ⊕ GPTEntry × List ℕ}
    (h : (Cboot.entryRound buf m name gpteSize s).Returns next) :
    (entryRound buf m buffer name gpteSize s).Returns (next.map id .ok) := by
  rw [entryRound, hload]
  exact h.bind_iff.2 (returns_pure_iff.2 rfl)

/-- And where one does, the loop ends. -/
theorem entryRound_error
    (hload : loadEntry buf m name s.2.1 ((buffer + s.1) % 2 ^ 64) s.1 = .error v) :
    (entryRound buf m buffer name gpteSize s).Returns (.inr (.error v)) := by
  rw [entryRound, hload]
  exact returns_pure_iff.2 rfl

theorem comparedType_pos : 0 < comparedType buf a := by
  rw [comparedType]
  omega

theorem comparedType_le : comparedType buf a ≤ 16 := Nat.min_le_left ..

/-- An entry in low memory is loaded. -/
theorem loadEntry_boot (m : Memory) (hend : v + 120 ≤ 2 ^ 21) :
    loadEntry buf (PagingState.boot m).mem name found v a = .ok () := by
  have hle : comparedType buf a ≤ 16 := comparedType_le
  rw [loadEntry, load_boot m (show v + comparedType buf a ≤ 2 ^ 21 by omega), ok_bind,
    Nat.mod_eq_of_lt (show v + 56 < 2 ^ 64 by omega),
    load_boot m (show v + 56 + 64 ≤ 2 ^ 21 by omega), ok_bind, load_boot m hend]
  split_ifs <;> rfl

/-- One behind it is not. -/
theorem loadEntry_boot_of_le (m : Memory) (hle : 2 ^ 21 ≤ v) (hv : v < 2 ^ 39) :
    loadEntry buf (PagingState.boot m).mem name found v a = .error v := by
  rw [loadEntry, load_boot_of_le m comparedType_pos hle hv, error_bind]

end round

/-! ## The loop -/

section loop

variable {buf m : Memory} {buffer name gpteSize : ℕ} {s : ℕ × ℕ × GPTEntry × List ℕ}
  {r : GPTEntry × List ℕ}

/-- What is found without a fault is found without translation. -/
theorem loop_entryRound_ok
    (h : (loop (entryRound buf m buffer name gpteSize) s).Returns (.ok r)) :
    (loop (Cboot.entryRound buf m name gpteSize) s).Returns r := by
  refine h.loop_rec (P := fun s => (loop (Cboot.entryRound buf m name gpteSize) s).Returns r)
    (fun s hs => ?_) fun s s' hs ih => ?_
  · obtain ⟨v, hv⟩ | ⟨next, hnext, heq⟩ := entryRound_cases hs
    · exact absurd hv (by simp)
    · cases next with
      | inl s' => exact absurd heq (by simp)
      | inr r' =>
        obtain rfl := Except.ok.inj (Sum.inr.inj heq)
        exact .loop_done hnext
  · obtain ⟨v, hv⟩ | ⟨next, hnext, heq⟩ := entryRound_cases hs
    · exact absurd hv (by simp)
    · cases next with
      | inl s'' =>
        obtain rfl := Sum.inl.inj heq
        exact (Returns.loop_iff hnext).2 ih
      | inr r' => exact absurd heq (by simp)

/-- What is found in low memory is found without a fault. -/
theorem loop_ok_of_loop
    (h : (loop (Cboot.entryRound buf (PagingState.boot m).mem name gpteSize) s).Returns r)
    (hlow : ∀ a ∈ r.2, buffer + a + 120 ≤ 2 ^ 21) :
    (loop (entryRound buf (PagingState.boot m).mem buffer name gpteSize) s).Returns (.ok r) := by
  have hload : ∀ s : ℕ × ℕ × GPTEntry × List ℕ, s.1 ∈ r.2 → loadEntry buf (PagingState.boot m).mem
      name s.2.1 ((buffer + s.1) % 2 ^ 64) s.1 = .ok () := fun s hs => by
    have hend := hlow _ hs
    rw [Nat.mod_eq_of_lt (by omega)]
    exact loadEntry_boot m hend
  refine (h.loop_rec (P := fun s => (∀ a ∈ s.2.2.2, a ∈ r.2) ∧
    (loop (entryRound buf (PagingState.boot m).mem buffer name gpteSize) s).Returns (.ok r))
      ?_ ?_).2
  · rintro ⟨gptePtr, found, gpteFound, inspected⟩ hs
    by_cases hnull : NullEntryAt buf gptePtr
    · obtain rfl := Sum.inr.inj (hs.unique (entryRound_null hnull))
      exact ⟨fun a ha => List.mem_append_left _ ha, .loop_done (entryRound_of_loadEntry
        (hload _ (List.mem_append_right _ List.mem_cons_self)) hs)⟩
    · exact absurd (hs.unique (entryRound_used hnull)) (by simp)
  · rintro ⟨gptePtr, found, gpteFound, inspected⟩ s' hs ⟨hin, hrest⟩
    by_cases hnull : NullEntryAt buf gptePtr
    · exact absurd (hs.unique (entryRound_null hnull)) (by simp)
    · obtain rfl := Sum.inl.inj (hs.unique (entryRound_used hnull))
      refine ⟨fun a ha => hin a (List.mem_append_left _ ha), (Returns.loop_iff
        (entryRound_of_loadEntry (hload _ (hin _ ?_)) hs)).2 hrest⟩
      exact List.mem_append_right _ List.mem_cons_self

/-- The search leaves low memory, or ends in it, unless it stays at the first entry. -/
theorem exists_returns_loop_iff (hbuffer : buffer + 120 ≤ 2 ^ 21) (hsize : gpteSize < 2 ^ 32) :
    (∃ r, (loop (entryRound buf (PagingState.boot m).mem buffer name gpteSize)
      (0, 0, nullEntry, [])).Returns r) ↔ gpteSize ≠ 0 ∨ NullEntryAt buf 0 := by
  constructor
  · intro hends
    by_contra hnot
    obtain ⟨hzero, hused⟩ := not_or.1 hnot
    obtain rfl := not_not.1 hzero
    obtain ⟨r, hr⟩ := hends
    refine diverges_iff.1 (diverges_loop (I := fun s => s.1 = 0) rfl ?_) r hr
    rintro ⟨gptePtr, found, gpteFound, inspected⟩ hs
    obtain rfl : gptePtr = 0 := hs
    refine ⟨_, entryRound_of_loadEntry ?_ (entryRound_used hused), rfl⟩
    rw [Nat.mod_eq_of_lt (by omega)]
    exact loadEntry_boot m hbuffer
  · intro h
    refine exists_returns_loop (I := fun s => buffer + s.1 < 2 ^ 21 + 2 ^ 32 ∧
      (gpteSize = 0 → s.1 = 0)) (fun s => 2 ^ 21 - (buffer + s.1))
        ⟨show buffer + 0 < 2 ^ 21 + 2 ^ 32 by omega, fun _ => rfl⟩ ?_
    rintro ⟨gptePtr, found, gpteFound, inspected⟩ ⟨hlt, hfirst⟩
    have hfirst : gpteSize = 0 → gptePtr = 0 := hfirst
    have hptr : (buffer + gptePtr) % 2 ^ 64 = buffer + gptePtr := Nat.mod_eq_of_lt (by omega)
    cases hload : loadEntry buf (PagingState.boot m).mem name found ((buffer + gptePtr) % 2 ^ 64)
      gptePtr with
    | error v =>
      exact .inl ⟨_, entryRound_error (s := (gptePtr, found, gpteFound, inspected)) hload⟩
    | ok u =>
      -- An entry that has been loaded is in low memory.
      have hin : buffer + gptePtr < 2 ^ 21 := by
        by_contra hle
        rw [hptr, loadEntry_boot_of_le m (Nat.not_lt.1 hle) (by omega)] at hload
        exact absurd hload (by simp)
      have hround := fun next => @entryRound_of_loadEntry buf (PagingState.boot m).mem buffer name
        gpteSize (gptePtr, found, gpteFound, inspected) hload next
      by_cases hnull : NullEntryAt buf gptePtr
      · exact .inl ⟨_, hround _ (entryRound_null hnull)⟩
      · have hsize₀ : gpteSize ≠ 0 := fun hzero =>
          hnull (hfirst hzero ▸ h.resolve_left (not_not_intro hzero))
        refine .inr ⟨_, hround _ (entryRound_used hnull), ⟨?_, ?_⟩, ?_⟩ <;>
          simp only [id_eq] <;> omega

end loop

/-! ## The search -/

section search

variable {d : AtaDevice} {buffer : ℕ}

/-- The search is the loop, on the sectors read. -/
theorem findPartitionByName_returns_iff (hl : d.Live) (stack m : Memory) (buffer name : ℕ) :
    ∃ d', After d d' [(1, 1), (2, 8)] ∧ ∀ r,
      (findPartitionByName ports d stack m buffer name).Returns r ↔ r.1 = d' ∧
        (loop (entryRound (partitionBuffer stack d.disk) m buffer name (entrySize d.disk))
          (0, 0, nullEntry, [])).Returns r.2 := by
  obtain ⟨d', ha, h⟩ := readPartitionTable_returns hl stack
  refine ⟨d', ha, fun r => ?_⟩
  rw [findPartitionByName, h.bind_iff, returns_bind_iff]
  constructor
  · rintro ⟨found, h, hr⟩
    obtain rfl := returns_pure_iff.1 hr
    exact ⟨rfl, h⟩
  · rintro ⟨hr, h⟩
    exact ⟨r.2, h, returns_pure_iff.2 (Prod.ext hr rfl)⟩

/-- Whatever is behind the sectors, the search ends unless it stays at the first entry. -/
theorem search_ends_iff (hl : d.Live) (stack m : Memory) (name : ℕ)
    (hbuffer : buffer + 4096 ≤ 2 ^ 21) :
    (∃ r, (findPartitionByName ports d stack (PagingState.boot m).mem buffer name).Returns r) ↔
      entrySize d.disk ≠ 0 ∨ NullEntryAt (entryArray d.disk) 0 := by
  obtain ⟨d', _, hiff⟩ :=
    findPartitionByName_returns_iff hl stack (PagingState.boot m).mem buffer name
  have hsize : entrySize d.disk < 2 ^ 32 := (d.disk 1).read_lt 4 84
  rw [← nullEntryAt_partitionBuffer (show 0 + 120 ≤ 4096 by decide),
    ← exists_returns_loop_iff (show buffer + 120 ≤ 2 ^ 21 by omega) hsize]
  constructor
  · rintro ⟨r, h⟩
    exact ⟨r.2, ((hiff r).1 h).2⟩
  · rintro ⟨r, h⟩
    exact ⟨(d', r), (hiff (d', r)).2 ⟨rfl, h⟩⟩

end search

end Virtual

end Cboot
