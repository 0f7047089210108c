-- A message in pieces: what a context holds between two calls, and the digest at the end.
import Salsola.Sha1Laws

open outcome streaming

namespace salsola.sha1

/-- The context has taken the message `m`, from the hash `s0` on. -/
structure SHA1_CTX.Holds (ctx : SHA1_CTX) (s0 : fips.Hash) (m : List UInt8) : Prop where
  size : ctx.block.length = BLOCK_BYTES
  active : ctx.active_len < BLOCK_BYTES
  len : ctx.len = m.length % 2 ^ 64
  stands : Stands BLOCK_BYTES fips.compress s0 m ctx.h.std (ctx.block.take ctx.active_len)

variable {ctx : SHA1_CTX} {s0 : fips.Hash} {m data : List UInt8} {block : List UInt8}

theorem holds_init : SHA1_Init.Holds fips.H0 [] where
  size := by simp [SHA1_Init]
  active := by simp [SHA1_Init, BLOCK_BYTES]
  len := rfl
  stands := stands_nil

theorem SHA1_CTX.Holds.kept_length (h : ctx.Holds s0 m) :
    (ctx.block.take ctx.active_len).length = ctx.active_len := by
  rw [List.length_take, h.size]
  exact Nat.min_eq_left (Nat.le_of_lt h.active)

theorem SHA1_CTX.Holds.active_eq (h : ctx.Holds s0 m) : ctx.active_len = m.length % 64 := by
  have hlen := rest_length BLOCK_BYTES m
  rw [← h.stands.kept, h.kept_length] at hlen
  exact hlen

/-- The bytes in front of a copy stay, and the copied bytes follow them. -/
theorem take_copied (xs ys : List UInt8) (k : Nat) (hk : k + ys.length ≤ xs.length) :
    (ring.overwrite xs k ys).take (k + ys.length) = xs.take k ++ ys := by
  have hlen : (xs.take k ++ ys).length = k + ys.length := by
    rw [List.length_append, List.length_take, Nat.min_eq_left (by omega)]
  unfold ring.overwrite
  rw [← hlen, List.take_left]

/-- The context after a piece that does not fill the block. -/
theorem SHA1_CTX.Holds.keep (h : ctx.Holds s0 m) (hlt : ctx.active_len + data.length < 64) :
    SHA1_CTX.Holds { ctx with
      block := ring.overwrite ctx.block ctx.active_len data
      len := (ctx.len + data.length) % 2 ^ 64
      active_len := ctx.active_len + data.length } s0 (m ++ data) := by
  have hsize := h.size
  have hroom : ctx.active_len + data.length ≤ ctx.block.length := by
    unfold BLOCK_BYTES at hsize
    omega
  refine ⟨?_, hlt, ?_, ?_⟩
  · rw [← h.size]
    exact ring.overwrite_length _ _ _ hroom
  · dsimp only
    rw [h.len, List.length_append]
    omega
  · dsimp only
    rw [take_copied _ _ _ hroom]
    apply h.stands.keep (by decide)
    rw [h.kept_length]
    exact hlt

/-- The context after a piece that fills the block. -/
theorem SHA1_CTX.Holds.fill (h : ctx.Holds s0 m) (heq : ctx.active_len + data.length = 64) :
    SHA1_CTX.Holds {
      h := (add_block ctx.h (ring.overwrite ctx.block ctx.active_len data)).1
      block := List.replicate BLOCK_BYTES 0
      len := (ctx.len + data.length) % 2 ^ 64
      active_len := 0 } s0 (m ++ data) := by
  have hsize := h.size
  unfold BLOCK_BYTES at hsize
  have hroom : ctx.active_len + data.length ≤ ctx.block.length := by omega
  have hblock : ring.overwrite ctx.block ctx.active_len data =
      ctx.block.take ctx.active_len ++ data := by
    rw [← take_copied _ _ _ hroom, List.take_of_length_le]
    rw [ring.overwrite_length _ _ _ hroom]
    omega
  refine ⟨by simp, Nat.zero_lt_succ _, ?_, ?_⟩
  · dsimp only
    rw [h.len, List.length_append]
    omega
  · dsimp only
    rw [add_block_std, hblock]
    apply h.stands.fill (by decide)
    rw [h.kept_length]
    exact heq

/-- A turn takes what the block has room for. -/
theorem write_len_eq {active len : Nat} (ha : active < 64) (hlen : active + len < 2 ^ 64) :
    (if (active + len) % 2 ^ 64 > BLOCK_BYTES then (BLOCK_BYTES + 2 ^ 64 - active) % 2 ^ 64
      else len) = min (64 - active) len := by
  unfold BLOCK_BYTES
  split <;> omega

/-- A context that has taken `m` takes a piece behind it. -/
theorem SHA1_Update_loop.spec (fuel : Nat) (h : ctx.Holds s0 m)
    (hlen : ctx.active_len + data.length < 2 ^ 64) (hfuel : data.length < fuel) :
    ∃ ctx', SHA1_Update_loop ctx data fuel = .ok ctx' ∧ ctx'.Holds s0 (m ++ data) := by
  induction fuel generalizing ctx m data with
  | zero => omega
  | succ fuel ih =>
    have hactive : ctx.active_len < 64 := h.active
    have hsize : ctx.block.length = 64 := h.size
    unfold SHA1_Update_loop
    dsimp only
    by_cases hempty : data.length = 0
    · rw [if_pos hempty, List.length_eq_zero_iff.mp hempty, List.append_nil]
      exact ⟨ctx, rfl, h⟩
    · rw [if_neg hempty, write_len_eq hactive hlen]
      obtain ⟨n, hn⟩ : ∃ n, n = min (64 - ctx.active_len) data.length := ⟨_, rfl⟩
      rw [← hn]
      have hpiece : (data.take n).length = n := by
        rw [List.length_take]
        omega
      have hcopy : copy_in ctx.block ctx.active_len data n =
          .ok (ring.overwrite ctx.block ctx.active_len (data.take n)) :=
        if_pos (by omega)
      rw [hcopy, ok_bind, Nat.mod_eq_of_lt (by omega : ctx.active_len + n < 2 ^ 64)]
      by_cases hfull : ctx.active_len + n = 64
      · rw [if_neg (by simp [BLOCK_BYTES, hfull])]
        have hnext := h.fill (hpiece.symm ▸ hfull)
        rw [hpiece] at hnext
        have hdrop : (data.drop n).length = data.length - n := List.length_drop
        have hleft : 0 + (data.drop n).length < 2 ^ 64 := by omega
        obtain ⟨ctx', hctx', hholds⟩ := ih hnext hleft (by omega)
        rw [List.append_assoc, List.take_append_drop] at hholds
        exact ⟨ctx', hctx', hholds⟩
      · rw [if_pos (by unfold BLOCK_BYTES; exact fun heq => hfull heq.symm)]
        have hall : data.take n = data := List.take_of_length_le (by omega)
        have hshort : ctx.active_len + (data.take n).length < 64 := by
          rw [hpiece]
          omega
        have hnext := h.keep hshort
        rw [hpiece, hall] at hnext
        rw [hall]
        exact ⟨_, rfl, hnext⟩

theorem SHA1_Update.spec (h : ctx.Holds s0 m) (hlen : ctx.active_len + data.length < 2 ^ 64) :
    ∃ ctx', SHA1_Update ctx data = .ok ctx' ∧ ctx'.Holds s0 (m ++ data) := by
  unfold SHA1_Update
  exact SHA1_Update_loop.spec _ h hlen (by omega)

/-- A piece that no memory has room for faults: the sum with `active_len` wraps. -/
theorem SHA1_Update_fault (h : ctx.Holds s0 m) (hlen : 2 ^ 64 ≤ ctx.active_len + data.length)
    (hu64 : data.length < 2 ^ 64) : SHA1_Update ctx data = .error .fault := by
  have hactive : ctx.active_len < 64 := h.active
  have hsize : ctx.block.length = 64 := h.size
  have hcopy : copy_in ctx.block ctx.active_len data data.length = .error .fault :=
    if_neg (by omega)
  unfold SHA1_Update SHA1_Update_loop BLOCK_BYTES
  dsimp only
  rw [if_neg (by omega), if_neg (by omega), hcopy, error_bind]

/-- A `u64` of bytes is taken, or the call faults. -/
theorem SHA1_Update.keeps (h : ctx.Holds s0 m) (hu64 : data.length < 2 ^ 64) :
    Spec (SHA1_Update ctx data) (fun e => e = .fault ∧ 2 ^ 64 < data.length + 64)
      fun ctx' => ctx'.Holds s0 (m ++ data) := by
  by_cases hlen : ctx.active_len + data.length < 2 ^ 64
  · obtain ⟨ctx', hctx', hholds⟩ := SHA1_Update.spec h hlen
    rw [hctx']
    exact hholds
  · have hactive : ctx.active_len < 64 := h.active
    rw [SHA1_Update_fault h (by omega) hu64]
    exact ⟨rfl, by omega⟩

/-! ## The end of the message -/

/-- A copy to a range in the middle replaces this range. -/
theorem overwrite_middle (xs ys zs ys' : List UInt8) (k : Nat) (hk : xs.length = k)
    (hys : ys'.length = ys.length) :
    ring.overwrite (xs ++ ys ++ zs) k ys' = xs ++ ys' ++ zs := by
  have hdrop : k + ys'.length = (xs ++ ys).length := by
    rw [List.length_append]
    omega
  unfold ring.overwrite
  rw [hdrop, List.drop_left, List.append_assoc xs ys zs, ← hk, List.take_left]

theorem copy_middle {dest xs ys zs src : List UInt8} {k n : Nat} (hdest : dest = xs ++ ys ++ zs)
    (hk : xs.length = k) (hn : n ≤ src.length) (hys : ys.length = n) :
    copy_in dest k src n = .ok (xs ++ src.take n ++ zs) := by
  have hroom : k + n ≤ dest.length ∧ n ≤ src.length := by
    subst hdest
    simp only [List.length_append]
    omega
  have htake : (src.take n).length = n := by
    rw [List.length_take, Nat.min_eq_left hn]
  unfold copy_in
  rw [if_pos hroom, hdest, overwrite_middle xs ys zs _ k hk (by omega)]

/-- The number of zeros, as `pad_sha1_message` computes it. -/
theorem padding_eq (a : Nat) :
    (if (a * 8 + 1) % 512 < 448 then 448 - (a * 8 + 1) % 512
      else 512 - (a * 8 + 1) % 512 + 448) / 8 = fips.zeros a := by
  unfold fips.zeros
  split <;> omega

/-- The block while `pad_sha1_message` fills it: `xs` is there, and `n` zeros follow. -/
theorem copy_zeros {xs src : List UInt8} {k n n' : Nat} (hk : xs.length = k) (hn : n ≤ src.length)
    (hroom : n ≤ n') :
    copy_in (xs ++ List.replicate n' 0) k src n =
      .ok (xs ++ src.take n ++ List.replicate (n' - n) 0) := by
  apply copy_middle _ hk hn (List.length_replicate (n := n) (a := 0))
  rw [List.append_assoc, List.replicate_append_replicate, Nat.add_sub_of_le hroom]

/-- The padded last blocks: what was kept, and the tail of the standard. -/
theorem pad_sha1_message.spec (M : List UInt8) (l a : Nat) (hM : M.length = 64) (ha : a < 64) :
    pad_sha1_message M l (a * 8) =
      .ok (M.take a ++ (0x80 :: List.replicate (fips.zeros a) 0 ++ fips.bytes64 l) ++
        List.replicate (119 - a - fips.zeros a) 0) := by
  have hzeros : a + fips.zeros a ≤ 119 := by
    unfold fips.zeros
    omega
  have harr : ARRAY_NUM (a * 8) = a := by
    unfold ARRAY_NUM
    rw [Nat.mul_mod_left, if_pos rfl, Nat.mul_div_cancel _ (by decide)]
    rfl
  have hdiv : a * 8 / 8 = a := Nat.mul_div_cancel _ (by decide)
  have hkept : (M.take a).length = a := by
    rw [List.length_take]
    omega
  have hword : ∀ x : UInt32, (bytes32 x).take 4 = bytes32 x := fun _ => rfl
  generalize hz : fips.zeros a = z at *
  have hmessage : copy_in (List.replicate (1024 / 8) 0) 0 M a =
      .ok (M.take a ++ List.replicate (128 - a) 0) :=
    copy_zeros (rfl : ([] : List UInt8).length = 0) (by omega : a ≤ M.length) (by omega : a ≤ 128)
  have hbit : copy_in (M.take a ++ List.replicate (128 - a) 0) a [(1 : UInt8) <<< 7] 1 =
      .ok (M.take a ++ [0x80] ++ List.replicate (128 - a - 1) 0) :=
    copy_zeros hkept (Nat.le_refl 1) (by omega)
  -- `memset` starts one byte too far, over zeros
  have hzero : copy_in (M.take a ++ [0x80] ++ List.replicate (128 - a - 1) 0) (a + 2)
      (List.replicate z 0) z =
      .ok (M.take a ++ [0x80] ++ List.replicate z 0 ++ List.replicate (127 - a - z) 0) := by
    have hskip : M.take a ++ [0x80] ++ List.replicate (128 - a - 1) 0 =
        M.take a ++ [0x80, 0] ++ List.replicate (126 - a) 0 := by
      rw [List.append_assoc, List.append_assoc]
      congr 1
      simp only [List.cons_append, List.nil_append, ← List.replicate_succ]
      congr 2
      omega
    rw [hskip, copy_zeros (by simp [hkept]) (by simp) (by omega)]
    congr 1
    simp only [List.append_assoc, List.cons_append, List.nil_append, List.take_replicate,
      Nat.min_self, List.replicate_append_replicate, ← List.replicate_succ]
    congr 3
    omega
  have hhigh : ∀ w : UInt32, copy_in
      (M.take a ++ [0x80] ++ List.replicate z 0 ++ List.replicate (127 - a - z) 0) (a + z + 1)
      (bytes32 w) 4 =
      .ok (M.take a ++ [0x80] ++ List.replicate z 0 ++ bytes32 w ++
        List.replicate (127 - a - z - 4) 0) := by
    intro w
    apply copy_zeros _ (Nat.le_refl 4) (by omega)
    simp only [List.length_append, hkept, List.length_singleton, List.length_replicate]
    omega
  have hlow : ∀ v w : UInt32, copy_in
      (M.take a ++ [0x80] ++ List.replicate z 0 ++ bytes32 v ++ List.replicate (127 - a - z - 4) 0)
      (a + z + 1 + 4) (bytes32 w) 4 =
      .ok (M.take a ++ [0x80] ++ List.replicate z 0 ++ bytes32 v ++ bytes32 w ++
        List.replicate (127 - a - z - 4 - 4) 0) := by
    intro v w
    apply copy_zeros _ (Nat.le_refl 4) (by omega)
    have hv : (bytes32 v).length = 4 := rfl
    simp only [List.length_append, hkept, List.length_singleton, List.length_replicate, hv]
    omega
  unfold pad_sha1_message
  simp only [harr, hdiv, padding_eq, hz]
  have hleft : 127 - a - z - 4 - 4 = 119 - a - z := by omega
  rw [hmessage, ok_bind, hbit, ok_bind, hzero, ok_bind, hhigh, ok_bind, hlow, ← bytes_length l,
    hleft]
  simp only [List.append_assoc, List.cons_append, List.nil_append]

/-- The length in bits, as the context has it. -/
theorem bytes64_mod (n : Nat) : fips.bytes64 (n % 2 ^ 64 * 8 % 2 ^ 64) = fips.bytes64 (8 * n) := by
  have hbyte : ∀ i, i < 8 → UInt8.ofNat (n % 2 ^ 64 * 8 % 2 ^ 64 / 256 ^ (7 - i)) =
      UInt8.ofNat (8 * n / 256 ^ (7 - i)) := by
    intro i hi
    apply UInt8.toNat_inj.mp
    rw [UInt8.toNat_ofNat', UInt8.toNat_ofNat']
    interval_cases i <;> omega
  unfold fips.bytes64
  apply List.map_congr_left
  intro i hi
  exact hbyte i (List.mem_range.mp hi)

/-- Reversed words in memory are the digest of the standard. -/
theorem digest_eq (h : Hash) :
    bytes32 (reverse_32 h.h0) ++ bytes32 (reverse_32 h.h1) ++ bytes32 (reverse_32 h.h2) ++
      bytes32 (reverse_32 h.h3) ++ bytes32 (reverse_32 h.h4) = h.std.digest := by
  simp only [bytes32_reverse_32]
  rfl

theorem add_block_length (h : Hash) (block : List UInt8) :
    (add_block h block).2.length = BLOCK_BYTES := by
  unfold add_block
  simp [bytes32, List.length_flatMap, BLOCK_BYTES, Function.comp_def]

/-- `SHA1_Final` folds the one or two last blocks. -/
theorem last_blocks (h : Hash) (a r : Nat) (last : List UInt8) (ha : a < 64)
    (hlast : last.length = if a < 56 then 64 else 128) (hr : last.length + r = 128) :
    let block := last ++ List.replicate r 0
    let first := add_block h (block.take BLOCK_BYTES)
    let rest := first.2 ++ block.drop BLOCK_BYTES
    (if 448 ≤ (a * 8 + 1) % 512 then (add_block first.1 (rest.drop BLOCK_BYTES)).1
      else first.1).std = absorb 64 fips.compress h.std last := by
  dsimp only
  by_cases hone : a < 56
  · rw [if_pos hone] at hlast
    have htake : (last ++ List.replicate r 0).take BLOCK_BYTES = last := List.take_left' hlast
    rw [if_neg (by omega), htake, add_block_std, fips.absorb_one hlast]
  · rw [if_neg hone] at hlast
    have hblock : last ++ List.replicate r 0 = last := by
      rw [show r = 0 by omega, List.replicate_zero, List.append_nil]
    rw [if_pos (by omega), hblock, List.drop_left' (add_block_length _ _), add_block_std,
      add_block_std, fips.absorb_two hlast]
    rfl

/-- The last call gives the digest of the message that the context has taken. -/
theorem SHA1_Final.spec (h : ctx.Holds s0 m) :
    ∃ ctx', SHA1_Final ctx =
      .ok (ctx', (absorb 64 fips.compress s0 (fips.pad m)).digest) := by
  have hactive : ctx.active_len < 64 := h.active
  have heq := h.active_eq
  have hkept : ctx.block.take ctx.active_len = rest 64 m := h.stands.kept
  have hzeros : fips.zeros ctx.active_len = fips.zeros m.length := by
    rw [heq]
    unfold fips.zeros
    rw [Nat.mod_mod]
  have hbits : ctx.active_len * 8 % 2 ^ 64 = ctx.active_len * 8 := Nat.mod_eq_of_lt (by omega)
  have hpad := pad_sha1_message.spec ctx.block (ctx.len * 8 % 2 ^ 64) ctx.active_len h.size hactive
  rw [h.len, bytes64_mod, hkept, hzeros, ← fips.tail] at hpad
  have hlast := fips.last_length m
  rw [← heq] at hlast
  have hlength : (rest 64 m ++ fips.tail m.length).length =
      ctx.active_len + (1 + fips.zeros ctx.active_len + 8) := by
    rw [List.length_append, rest_length, fips.tail_length, hzeros, ← heq]
  have hroom : (rest 64 m ++ fips.tail m.length).length +
      (119 - ctx.active_len - fips.zeros m.length) = 128 := by
    rw [hlength, ← hzeros]
    unfold fips.zeros
    omega
  have hstate : ctx.h.std = absorb 64 fips.compress s0 m := h.stands.state
  have hblocks := last_blocks ctx.h ctx.active_len _ _ hactive hlast hroom
  rw [fips.absorb_pad, ← hstate, ← hblocks, ← digest_eq]
  unfold SHA1_Final
  rw [hbits, h.len, hpad, ok_bind]
  exact ⟨_, rfl⟩

/-- `SHA1_Update` on the pieces, one by one. -/
def SHA1_Updates (ctx : SHA1_CTX) : List (List UInt8) → Result SHA1_CTX
  | [] => .ok ctx
  | data :: pieces => do
    let ctx ← SHA1_Update ctx data
    SHA1_Updates ctx pieces

theorem SHA1_Updates.spec (pieces : List (List UInt8)) (h : ctx.Holds s0 m)
    (hlen : pieces.flatten.length < 2 ^ 61) :
    ∃ ctx', SHA1_Updates ctx pieces = .ok ctx' ∧ ctx'.Holds s0 (m ++ pieces.flatten) := by
  induction pieces generalizing ctx m with
  | nil =>
    refine ⟨ctx, rfl, ?_⟩
    rw [List.flatten_nil, List.append_nil]
    exact h
  | cons data pieces ih =>
    rw [List.flatten_cons, List.length_append] at hlen
    have hactive : ctx.active_len < 64 := h.active
    have hfirst : ctx.active_len + data.length < 2 ^ 64 := by omega
    obtain ⟨ctx1, hctx1, h1⟩ := SHA1_Update.spec h hfirst
    obtain ⟨ctx', hctx', h'⟩ := ih h1 (by omega)
    refine ⟨ctx', ?_, ?_⟩
    · unfold SHA1_Updates
      rw [hctx1, ok_bind, hctx']
    · rw [List.flatten_cons, ← List.append_assoc]
      exact h'

/-- The digest of a message that comes in pieces. -/
def SHA1_of_pieces (pieces : List (List UInt8)) : Result (List UInt8) := do
  let ctx ← SHA1_Updates SHA1_Init pieces
  let (_, message_digest) ← SHA1_Final ctx
  .ok message_digest

/-- However a message is cut into pieces, the digest is its SHA-1 digest. -/
theorem the_digest_of_the_pieces_is_the_digest_of_the_whole (m : List UInt8)
    (hlen : m.length < 2 ^ 61) (pieces : List (List UInt8)) (hcut : pieces.flatten = m) :
    SHA1_of_pieces pieces = .ok (fips.SHA1 m) ∧ (fips.SHA1 m).length = SHA1_LEN := by
  obtain ⟨ctx, hctx, hholds⟩ := SHA1_Updates.spec pieces holds_init (by rw [hcut]; exact hlen)
  rw [hcut, List.nil_append] at hholds
  obtain ⟨ctx', hfinal⟩ := SHA1_Final.spec hholds
  refine ⟨?_, rfl⟩
  unfold SHA1_of_pieces
  rw [hctx, ok_bind, hfinal]
  rfl

/-- The message "abc", as "ab", an empty piece and "c". -/
theorem the_digest_of_the_pieces_of_abc :
    SHA1_of_pieces [[97, 98], [], [99]] = .ok (fips.SHA1 [97, 98, 99]) ∧
      (fips.SHA1 [97, 98, 99]).length = SHA1_LEN :=
  the_digest_of_the_pieces_is_the_digest_of_the_whole _ (by decide) _ rfl

-- the digest of "abc" that the standard gives
set_option maxRecDepth 20000 in
example : SHA1_of_pieces [[97, 98], [], [99]] =
    .ok [0xa9, 0x99, 0x3e, 0x36, 0x47, 0x06, 0x81, 0x6a, 0xba, 0x3e,
      0x25, 0x71, 0x78, 0x50, 0xc2, 0x6c, 0x9c, 0xd0, 0xd8, 0x9d] := by
  decide +kernel

end salsola.sha1
