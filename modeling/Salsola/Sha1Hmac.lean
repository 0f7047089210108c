-- SHA1_HMAC: the pads are filled first and the key is xored into them in
-- place, and the output buffer holds the inner digest before the outer one.
import Salsola.Sha1Stream
import Salsola.Lib.Rfc2104

open outcome

namespace salsola.sha1

def BLOCK_SIZE : Nat := 64

/-- The loop that xors the key into a pad. -/
def xor_key (pad key : List UInt8) : List UInt8 :=
  (List.range key.length).foldl (fun pad i => pad.set i (pad.getD i 0 ^^^ key.getD i 0)) pad

/-- What the call writes to `output`. -/
def SHA1_HMAC (message key : List UInt8) : Result (List UInt8) := do
  let key ← (if BLOCK_SIZE < key.length then do
      let ctx ← SHA1_Update SHA1_Init key
      let (_, hashed_key) ← SHA1_Final ctx
      .ok hashed_key
    else .ok key)
  let i_key_pad := xor_key (List.replicate BLOCK_SIZE 0x36) key
  let o_key_pad := xor_key (List.replicate BLOCK_SIZE 0x5C) key
  let first_ctx ← SHA1_Update SHA1_Init i_key_pad
  let first_ctx ← SHA1_Update first_ctx message
  let (_, output) ← SHA1_Final first_ctx
  let second_ctx ← SHA1_Update SHA1_Init o_key_pad
  let second_ctx ← SHA1_Update second_ctx output
  let (_, output) ← SHA1_Final second_ctx
  .ok output

variable {ctx : SHA1_CTX} {m data key message : List UInt8}

theorem sha1_length (m : List UInt8) : (fips.SHA1 m).length = SHA1_LEN := rfl

theorem SHA1_Final.digest (h : ctx.Holds fips.H0 m) :
    ∃ ctx', SHA1_Final ctx = .ok (ctx', fips.SHA1 m) := SHA1_Final.spec h

/-- A context takes a piece of less than `2 ^ 61` bytes. -/
theorem SHA1_Update.takes (h : ctx.Holds fips.H0 m) (hlen : data.length < 2 ^ 61) :
    ∃ ctx', SHA1_Update ctx data = .ok ctx' ∧ ctx'.Holds fips.H0 (m ++ data) := by
  have hactive : ctx.active_len < 64 := h.active
  exact SHA1_Update.spec h (by omega)

/-- The first `n` turns of the loop. -/
theorem xor_key_loop (pad : UInt8) (B n : Nat) (hn : n ≤ key.length) (hkey : key.length ≤ B) :
    (List.range n).foldl (fun pad i => pad.set i (pad.getD i 0 ^^^ key.getD i 0))
      (List.replicate B pad) = (key.take n).map (pad ^^^ ·) ++ List.replicate (B - n) pad := by
  induction n with
  | zero => simp
  | succ n ih =>
    have hfront : ((key.take n).map (pad ^^^ ·)).length = n := by
      rw [List.length_map, List.length_take]
      omega
    obtain ⟨r, hr⟩ : ∃ r, B - n = r + 1 := ⟨B - n - 1, by omega⟩
    rw [List.range_succ, List.foldl_append, ih (by omega), hr, List.replicate_succ]
    have hget : ((key.take n).map (pad ^^^ ·) ++ pad :: List.replicate r pad).getD n 0 = pad := by
      rw [List.getD_append_right _ _ _ _ (by omega), hfront, Nat.sub_self]
      rfl
    have hlast : key.take (n + 1) = key.take n ++ [key.getD n 0] := by
      rw [List.take_succ_eq_append_getElem (by omega), List.getD_eq_getElem _ _ (by omega)]
    rw [List.foldl_cons, List.foldl_nil, hget, List.set_append_right _ _ (by omega), hfront,
      Nat.sub_self, List.set_cons_zero, hlast, List.map_append, List.append_assoc,
      show B - (n + 1) = r by omega]
    rfl

theorem xor_key_eq (pad : UInt8) (B : Nat) (hkey : key.length ≤ B) :
    xor_key (List.replicate B pad) key = (rfc2104.block_key B key).map (· ^^^ pad) := by
  unfold xor_key
  rw [xor_key_loop pad B _ (Nat.le_refl _) hkey, List.take_length, rfc2104.block_key_xor]

/-- The digest of a message in two pieces. -/
theorem two_pieces (m data : List UInt8) (hm : m.length < 2 ^ 61) (hdata : data.length < 2 ^ 61) :
    ∃ ctx1 ctx2 ctx3, SHA1_Update SHA1_Init m = .ok ctx1 ∧ SHA1_Update ctx1 data = .ok ctx2 ∧
      SHA1_Final ctx2 = .ok (ctx3, fips.SHA1 (m ++ data)) := by
  obtain ⟨ctx1, hctx1, h1⟩ := SHA1_Update.takes holds_init hm
  obtain ⟨ctx2, hctx2, h2⟩ := SHA1_Update.takes h1 hdata
  obtain ⟨ctx3, hfinal⟩ := SHA1_Final.digest h2
  exact ⟨ctx1, ctx2, ctx3, hctx1, hctx2, hfinal⟩

/-- The key that the pads take: the digest of a long one. -/
theorem hmac_key (hkey : key.length < 2 ^ 61) :
    (if BLOCK_SIZE < key.length then do
        let ctx ← SHA1_Update SHA1_Init key
        let (_, hashed_key) ← SHA1_Final ctx
        .ok hashed_key
      else .ok key : Result (List UInt8)) = .ok (rfc2104.short_key fips.SHA1 BLOCK_SIZE key) ∧
      (rfc2104.short_key fips.SHA1 BLOCK_SIZE key).length ≤ BLOCK_SIZE := by
  unfold rfc2104.short_key
  by_cases hlong : BLOCK_SIZE < key.length
  · obtain ⟨ctx, hctx, h⟩ := SHA1_Update.takes holds_init hkey
    obtain ⟨ctx', hfinal⟩ := SHA1_Final.digest h
    rw [if_pos hlong, if_pos hlong, hctx, ok_bind, hfinal, sha1_length]
    exact ⟨rfl, by decide⟩
  · rw [if_neg hlong, if_neg hlong]
    exact ⟨rfl, Nat.le_of_not_lt hlong⟩

/-- `SHA1_HMAC` is the HMAC of RFC 2104 over SHA-1. -/
theorem the_hmac_is_that_of_the_rfc (key message : List UInt8) (hkey : key.length < 2 ^ 61 - 64)
    (hmessage : message.length < 2 ^ 61 - 64) :
    SHA1_HMAC message key = .ok (rfc2104.HMAC fips.SHA1 64 key message) := by
  obtain ⟨hshort, hlen⟩ := hmac_key (by omega : key.length < 2 ^ 61)
  have hsize : ∀ pad, (rfc2104.padded fips.SHA1 64 key pad).length = 64 :=
    rfc2104.padded_length (fun m => by rw [sha1_length]; decide) key
  have hpad : ∀ pad, xor_key (List.replicate BLOCK_SIZE pad)
      (rfc2104.short_key fips.SHA1 BLOCK_SIZE key) = rfc2104.padded fips.SHA1 64 key pad :=
    fun pad => xor_key_eq pad BLOCK_SIZE hlen
  obtain ⟨ctx1, ctx2, ctx3, hctx1, hctx2, hfinal⟩ :=
    two_pieces (rfc2104.padded fips.SHA1 64 key rfc2104.ipad) message
      (by rw [hsize]; decide) (by omega)
  obtain ⟨ctx4, ctx5, ctx6, hctx4, hctx5, hfinal'⟩ :=
    two_pieces (rfc2104.padded fips.SHA1 64 key rfc2104.opad)
      (fips.SHA1 (rfc2104.padded fips.SHA1 64 key rfc2104.ipad ++ message))
      (by rw [hsize]; decide) (by rw [sha1_length]; decide)
  unfold SHA1_HMAC
  rw [hshort, ok_bind]
  simp only [hpad]
  rw [show (0x36 : UInt8) = rfc2104.ipad from rfl, show (0x5C : UInt8) = rfc2104.opad from rfl,
    hctx1, ok_bind, hctx2, ok_bind, hfinal, ok_bind]
  simp only
  rw [hctx4, ok_bind, hctx5, ok_bind, hfinal']
  rfl

/-- The key is one byte longer than a block, and the message is empty. -/
theorem the_hmac_of_nothing_with_a_key_of_65_bytes :
    SHA1_HMAC [] (List.replicate 65 1) =
      .ok (rfc2104.HMAC fips.SHA1 64 (List.replicate 65 1) []) :=
  the_hmac_is_that_of_the_rfc _ _ (by decide) (by decide)

-- the first test case of the known ones: the key is twenty times 0x0b, the message "Hi There"
set_option maxRecDepth 20000 in
example : SHA1_HMAC [0x48, 0x69, 0x20, 0x54, 0x68, 0x65, 0x72, 0x65] (List.replicate 20 0x0b) =
    .ok [0xb6, 0x17, 0x31, 0x86, 0x55, 0x05, 0x72, 0x64, 0xe2, 0x8b,
      0xc0, 0xb6, 0xfb, 0x37, 0x8c, 0x8e, 0xf1, 0x46, 0xbe, 0x00] := by
  decide +kernel

end salsola.sha1
