import Cboot.Md5.Context

/-!
# Runs of a context

What a program may do with a context: begin, add arrays of any sizes, and store anything beside
the context in between (`DigestRun`).

* `digest_of_run`: at any time, an array may be added, and the digest is the one of all the
  bytes that have been added, as they were then;
* `collides_of_digest_eq`: if two runs end with the same digest and have not been given the same
  bytes, then two of their blocks are a collision of `body`.
-/

namespace Cboot.Md5

open Chaining Fueled

/-- The memories that a program may get to, with the bytes that it has added so far. -/
inductive DigestRun (ctx : ℕ) : Memory → List UInt8 → Prop
  | init (m : Memory) : DigestRun ctx (md5Init m ctx) []
  | update {m m' : Memory} {message : List UInt8} {data : ℕ} {size : UInt64} :
    DigestRun ctx m message → OffContext ctx data size.toNat →
    (md5Update m ctx data size).Returns m' →
    DigestRun ctx m' (message ++ arrayBytes m data size.toNat)
  | store {m m' : Memory} {message : List UInt8} :
    DigestRun ctx m message → (∀ x, ctx ≤ x → x < ctx + 152 → m' x = m x) →
    DigestRun ctx m' message

section run

variable {m m' : Memory} {ctx data result : ℕ} {message : List UInt8}

theorem DigestRun.absorbed (h : DigestRun ctx m message) : Absorbed m ctx message := by
  induction h with
  | init m => exact md5Init_absorbed m ctx
  | update _ hoff hret ih =>
    obtain ⟨m', hret', habsorbed, -⟩ := md5Update_absorbed ih hoff
    rwa [hret.unique hret']
  | store _ heq ih => exact ih.congr fun x h₁ h₂ => heq x h₁ (by omega)

/-- Whatever has been done, adding an array returns, and only changes the context. -/
theorem digestRun_update (h : DigestRun ctx m message) {size : UInt64}
    (hoff : OffContext ctx data size.toNat) : ∃ m', (md5Update m ctx data size).Returns m' ∧
      DigestRun ctx m' (message ++ arrayBytes m data size.toNat) ∧
      ∀ x, x < ctx ∨ ctx + 152 ≤ x → m' x = m x := by
  obtain ⟨m', hret, -, hframe⟩ := md5Update_absorbed h.absorbed hoff
  exact ⟨m', hret, h.update hoff hret, fun x hx => hframe x (by omega)⟩

/-- Whatever has been done, the calls return: adding an array goes on with the run, and ending it
    gives the digest of all the bytes added and leaves nothing in the context. -/
theorem digest_of_run (h : DigestRun ctx m message) :
    (∀ data size, OffContext ctx data size.toNat → ∃ m', (md5Update m ctx data size).Returns m' ∧
      DigestRun ctx m' (message ++ arrayBytes m data size.toNat) ∧
      ∀ x, x < ctx ∨ ctx + 152 ≤ x → m' x = m x) ∧
    ∀ result, OffContext ctx result 16 → ∃ m', (md5Final m result ctx).Returns m' ∧
      arrayBytes m' result 16 = md5 message ∧ (∀ x, ctx ≤ x → x < ctx + 152 → m' x = 0) ∧
      ∀ x, (x < ctx ∨ ctx + 152 ≤ x) → (x < result ∨ result + 16 ≤ x) → m' x = m x :=
  ⟨fun _ _ => digestRun_update h, fun _ => md5Final_digest h.absorbed⟩

theorem arrayBytes_literal (l : List UInt8) : arrayBytes (literal l) 0 l.length = l := by
  refine List.ext_getElem (arrayBytes_length _ _ _) fun i h₁ h₂ => ?_
  have h := arrayBytes_getD (literal l) 0 h₂
  rwa [List.getD_eq_getElem?_getD, List.getElem?_eq_getElem h₁, Nat.zero_add, literal,
    List.getD_eq_getElem?_getD, List.getElem?_eq_getElem h₂] at h

/-- An array in front of the context is added first. -/
theorem digestRun_literal (ctx : ℕ) (l : List UInt8) (h : l.length ≤ ctx)
    (hlt : l.length < 2 ^ 64) :
    ∃ m, (md5Update (md5Init (literal l) ctx) ctx 0 (.ofNat l.length)).Returns m ∧
      DigestRun ctx m l := by
  have hsize : (UInt64.ofNat l.length).toNat = l.length := UInt64.toNat_ofNat_of_lt' hlt
  have hbytes : arrayBytes (md5Init (literal l) ctx) 0 l.length = l := by
    refine (arrayBytes_congr fun i _ => ?_).trans (arrayBytes_literal l)
    exact md5Init_of_not_mem (literal l) (.inl (by omega))
  have hoff : OffContext ctx 0 (UInt64.ofNat l.length).toNat := by
    rw [OffContext, hsize]
    omega
  obtain ⟨m, hret, hrun, -⟩ := digestRun_update (.init (literal l)) hoff
  rw [hsize, hbytes] at hrun
  exact ⟨m, hret, hrun⟩

/-- The digest of three characters at the address 0. -/
theorem digest_of_run_abc : ∃ m m',
    (md5Update (md5Init (literal [0x61, 0x62, 0x63]) 0x1000) 0x1000 0 3).Returns m ∧
      (md5Final m 0x2000 0x1000).Returns m' ∧
      arrayBytes m' 0x2000 16 = md5 [0x61, 0x62, 0x63] := by
  obtain ⟨m, hret, hrun⟩ := digestRun_literal 0x1000 [0x61, 0x62, 0x63] (by decide) (by decide)
  obtain ⟨m', hfinal, hdigest, -⟩ := (digest_of_run hrun).2 0x2000 (.inr (by decide))
  exact ⟨m, m', hret, hfinal, hdigest⟩

end run

/-! ## Collisions -/

/-- Two different pairs of words and a block, from which `body` gets to the same words. -/
def Collides (w : Words) (b : List UInt8) (w' : Words) (b' : List UInt8) : Prop :=
  (w, b) ≠ (w', b') ∧ ∀ m m' ctx ctx' data data' r r', loadWords m ctx = w →
    arrayBytes m data 64 = b → loadWords m' ctx' = w' → arrayBytes m' data' 64 = b' →
    (body m ctx data 64).Returns r → (body m' ctx' data' 64).Returns r' →
    loadWords r.1 ctx = loadWords r'.1 ctx'

/-- The words in front of the block `n` of a message. -/
noncomputable def wordsBefore (message : List UInt8) (n : ℕ) : Words :=
  blocks 64 compress n initialWords (message ++ padding message.length)

/-- The block `n` of a message. -/
def blockOf (message : List UInt8) (n : ℕ) : List UInt8 :=
  block 64 (message ++ padding message.length) n

section collision

variable {w w' : Words} {b b' message message' : List UInt8}

theorem collides_of_compress (hne : (w, b) ≠ (w', b')) (h : compress w b = compress w' b') :
    Collides w b w' b' := by
  -- What `body` makes of a block is told by its words and the block.
  have hbody : ∀ {m ctx data r}, (body m ctx data 64).Returns r →
      loadWords r.1 ctx = compress (loadWords m ctx) (arrayBytes m data 64) := by
    intro m ctx data r hr
    have hblock : absorb 64 compress (loadWords m ctx) (arrayBytes m data 64) =
        compress (loadWords m ctx) (arrayBytes m data 64) :=
      absorb_block (by decide) (arrayBytes_length m data 64)
    rw [hr.unique (body_block m ctx data), loadWords_storeWords]
    exact hblock
  refine ⟨hne, fun m m' ctx ctx' data data' r r' hw hb hw' hb' hr hr' => ?_⟩
  rw [hbody hr, hbody hr', hw, hb, hw', hb', h]

/-- The length in bits is at the end of a padded message. -/
theorem drop_padded (message : List UInt8) :
    (message ++ padding message.length).drop ((message ++ padding message.length).length - 8) =
      toBytes 8 (8 * message.length) := by
  rw [padding, ← List.append_assoc, List.length_append, length_toBytes, Nat.add_sub_cancel,
    List.drop_left]

theorem le_length_padded (message : List UInt8) :
    64 ≤ (message ++ padding message.length).length := by
  refine Nat.le_of_dvd ?_ (dvd_length_padded message)
  rw [List.length_append, length_padding]
  omega

/-- The last block tells the length of a message of less than `2 ^ 61` bytes. -/
theorem length_eq_of_last (hlt : message.length < 2 ^ 61) (hlt' : message'.length < 2 ^ 61)
    (h : (message ++ padding message.length).drop ((message ++ padding message.length).length - 64) =
      (message' ++ padding message'.length).drop
        ((message' ++ padding message'.length).length - 64)) :
    message.length = message'.length := by
  have hle := le_length_padded message
  have hle' := le_length_padded message'
  have hsub : ∀ n, 64 ≤ n → n - 64 + 56 = n - 8 := fun n hn => by omega
  have h := congrArg (fun l => fromBytes (l.drop 56)) h
  simp only [List.drop_drop, hsub _ hle, hsub _ hle', drop_padded, fromBytes_toBytes] at h
  omega

/-- Two messages with the same digest have two blocks that collide. -/
theorem exists_collides (hlt : message.length < 2 ^ 61) (hlt' : message'.length < 2 ^ 61)
    (hne : message ≠ message') (h : md5 message = md5 message') :
    ∃ n n', 64 * (n + 1) ≤ (message ++ padding message.length).length ∧
      64 * (n' + 1) ≤ (message' ++ padding message'.length).length ∧
      Collides (wordsBefore message n) (blockOf message n)
        (wordsBefore message' n') (blockOf message' n') := by
  have hpadded : message ++ padding message.length ≠ message' ++ padding message'.length :=
    fun heq => by
      have hlast := congrArg (fun l => l.drop (l.length - 64)) heq
      exact hne (List.append_inj_left heq (length_eq_of_last hlt hlt' hlast))
  have hnil : ∀ message : List UInt8, message ++ padding message.length ≠ [] :=
    fun message heq => by
      have hle := le_length_padded message
      rw [heq] at hle
      exact absurd hle (by decide)
  obtain ⟨n, n', hcollide⟩ := collide_of_absorb_eq (by decide) (dvd_length_padded message)
    (dvd_length_padded message') (hnil message) (hnil message') hpadded
    (fun hlast => by
      have hlength := length_eq_of_last hlt hlt' hlast
      rw [List.length_append, List.length_append, hlength])
    (Words.bytes_inj.1 h)
  exact ⟨n, n', hcollide.left, hcollide.right, collides_of_compress hcollide.ne hcollide.eq⟩

/-- If two runs end with the same digest, though they have been given other bytes, then `body`
    has got to the same words from two different blocks, or from different words, of theirs. -/
theorem collides_of_digest_eq {ctx ctx' result result' : ℕ} {m m' f f' : Memory}
    (hrun : DigestRun ctx m message) (hrun' : DigestRun ctx' m' message')
    (hoff : OffContext ctx result 16) (hoff' : OffContext ctx' result' 16)
    (hf : (md5Final m result ctx).Returns f) (hf' : (md5Final m' result' ctx').Returns f')
    (hlt : message.length < 2 ^ 61) (hlt' : message'.length < 2 ^ 61)
    (hne : message ≠ message') (h : arrayBytes f result 16 = arrayBytes f' result' 16) :
    ∃ n n', 64 * (n + 1) ≤ (message ++ padding message.length).length ∧
      64 * (n' + 1) ≤ (message' ++ padding message'.length).length ∧
      Collides (wordsBefore message n) (blockOf message n)
        (wordsBefore message' n') (blockOf message' n') := by
  obtain ⟨g, hg, hdigest, -⟩ := md5Final_digest hrun.absorbed hoff
  obtain ⟨g', hg', hdigest', -⟩ := md5Final_digest hrun'.absorbed hoff'
  rw [hf.unique hg, hf'.unique hg', hdigest, hdigest'] at h
  exact exists_collides hlt hlt' hne h

/-- Two messages that are known to have the same digest. -/
def collidingLeft : List UInt8 := [
  0xd1, 0x31, 0xdd, 0x02, 0xc5, 0xe6, 0xee, 0xc4, 0x69, 0x3d, 0x9a, 0x06, 0x98, 0xaf, 0xf9, 0x5c,
  0x2f, 0xca, 0xb5, 0x87, 0x12, 0x46, 0x7e, 0xab, 0x40, 0x04, 0x58, 0x3e, 0xb8, 0xfb, 0x7f, 0x89,
  0x55, 0xad, 0x34, 0x06, 0x09, 0xf4, 0xb3, 0x02, 0x83, 0xe4, 0x88, 0x83, 0x25, 0x71, 0x41, 0x5a,
  0x08, 0x51, 0x25, 0xe8, 0xf7, 0xcd, 0xc9, 0x9f, 0xd9, 0x1d, 0xbd, 0xf2, 0x80, 0x37, 0x3c, 0x5b,
  0xd8, 0x82, 0x3e, 0x31, 0x56, 0x34, 0x8f, 0x5b, 0xae, 0x6d, 0xac, 0xd4, 0x36, 0xc9, 0x19, 0xc6,
  0xdd, 0x53, 0xe2, 0xb4, 0x87, 0xda, 0x03, 0xfd, 0x02, 0x39, 0x63, 0x06, 0xd2, 0x48, 0xcd, 0xa0,
  0xe9, 0x9f, 0x33, 0x42, 0x0f, 0x57, 0x7e, 0xe8, 0xce, 0x54, 0xb6, 0x70, 0x80, 0xa8, 0x0d, 0x1e,
  0xc6, 0x98, 0x21, 0xbc, 0xb6, 0xa8, 0x83, 0x93, 0x96, 0xf9, 0x65, 0x2b, 0x6f, 0xf7, 0x2a, 0x70]

/-- The second one, which differs in six bytes. -/
def collidingRight : List UInt8 := [
  0xd1, 0x31, 0xdd, 0x02, 0xc5, 0xe6, 0xee, 0xc4, 0x69, 0x3d, 0x9a, 0x06, 0x98, 0xaf, 0xf9, 0x5c,
  0x2f, 0xca, 0xb5, 0x07, 0x12, 0x46, 0x7e, 0xab, 0x40, 0x04, 0x58, 0x3e, 0xb8, 0xfb, 0x7f, 0x89,
  0x55, 0xad, 0x34, 0x06, 0x09, 0xf4, 0xb3, 0x02, 0x83, 0xe4, 0x88, 0x83, 0x25, 0xf1, 0x41, 0x5a,
  0x08, 0x51, 0x25, 0xe8, 0xf7, 0xcd, 0xc9, 0x9f, 0xd9, 0x1d, 0xbd, 0x72, 0x80, 0x37, 0x3c, 0x5b,
  0xd8, 0x82, 0x3e, 0x31, 0x56, 0x34, 0x8f, 0x5b, 0xae, 0x6d, 0xac, 0xd4, 0x36, 0xc9, 0x19, 0xc6,
  0xdd, 0x53, 0xe2, 0x34, 0x87, 0xda, 0x03, 0xfd, 0x02, 0x39, 0x63, 0x06, 0xd2, 0x48, 0xcd, 0xa0,
  0xe9, 0x9f, 0x33, 0x42, 0x0f, 0x57, 0x7e, 0xe8, 0xce, 0x54, 0xb6, 0x70, 0x80, 0x28, 0x0d, 0x1e,
  0xc6, 0x98, 0x21, 0xbc, 0xb6, 0xa8, 0x83, 0x93, 0x96, 0xf9, 0x65, 0xab, 0x6f, 0xf7, 0x2a, 0x70]

theorem md5_collidingLeft : md5 collidingLeft = md5 collidingRight := by
  rw [md5, md5, compress_eq_tableCompress]
  decide +kernel

/-- So two of their blocks collide. -/
theorem collides_of_digest_eq_colliding :
    ∃ n n', 64 * (n + 1) ≤ (collidingLeft ++ padding collidingLeft.length).length ∧
      64 * (n' + 1) ≤ (collidingRight ++ padding collidingRight.length).length ∧
      Collides (wordsBefore collidingLeft n) (blockOf collidingLeft n)
        (wordsBefore collidingRight n') (blockOf collidingRight n') := by
  obtain ⟨m, -, hrun⟩ :=
    digestRun_literal 0x1000 collidingLeft (by decide +kernel) (by decide +kernel)
  obtain ⟨m', -, hrun'⟩ :=
    digestRun_literal 0x1000 collidingRight (by decide +kernel) (by decide +kernel)
  have hoff : OffContext 0x1000 0x2000 16 := .inr (by decide)
  obtain ⟨f, hf, hdigest, -⟩ := md5Final_digest hrun.absorbed hoff
  obtain ⟨f', hf', hdigest', -⟩ := md5Final_digest hrun'.absorbed hoff
  exact collides_of_digest_eq hrun hrun' hoff hoff hf hf' (by decide +kernel) (by decide +kernel)
    (by decide +kernel) (by rw [hdigest, hdigest', md5_collidingLeft])

end collision

end Cboot.Md5
