-- The laws of sha1.c: however a message is cut into pieces, its digest is the one that the
-- standard states.
import Salsola.Sha1
import Salsola.Lib.Fips180
import Mathlib.Data.List.GetD
import Mathlib.Tactic.IntervalCases

open outcome streaming

namespace salsola.sha1

/-- A hash, in the letters of the standard. -/
def Hash.std (h : Hash) : fips.Hash := ⟨h.h0, h.h1, h.h2, h.h3, h.h4⟩

/-! ## Words and bytes -/

/-- The word of four bytes in reverse order is their word, reversed. -/
theorem reverse_32_load (a b c d : UInt8) :
    reverse_32 (a.toUInt32 ||| b.toUInt32 <<< 8 ||| c.toUInt32 <<< 16 ||| d.toUInt32 <<< 24) =
      a.toUInt32 <<< 24 ||| b.toUInt32 <<< 16 ||| c.toUInt32 <<< 8 ||| d.toUInt32 := by
  unfold reverse_32
  apply UInt32.eq_of_toBitVec_eq
  simp only [UInt32.toBitVec_or, UInt32.toBitVec_and, UInt32.toBitVec_shiftLeft,
    UInt32.toBitVec_shiftRight, UInt8.toBitVec_toUInt32]
  apply BitVec.eq_of_getLsbD_eq
  intro i hi
  interval_cases i <;> simp

theorem reverse_32_word (block : List UInt8) (t : Nat) :
    reverse_32 (load32 block (4 * t)) = fips.word block t := by
  unfold load32 fips.word
  apply reverse_32_load

/-- The bytes of a reversed word stand highest first. -/
theorem bytes32_reverse_32 (x : UInt32) : bytes32 (reverse_32 x) = fips.bytes x := by
  have hbytes : ∀ k : UInt32, k ∈ [0, 8, 16, 24] →
      (reverse_32 x >>> k).toUInt8 = (x >>> (24 - k)).toUInt8 := by
    intro k hk
    unfold reverse_32
    apply UInt8.eq_of_toBitVec_eq
    simp only [UInt32.toBitVec_or, UInt32.toBitVec_and, UInt32.toBitVec_shiftLeft,
      UInt32.toBitVec_shiftRight, UInt32.toBitVec_toUInt8]
    simp only [List.mem_cons, List.not_mem_nil, or_false] at hk
    rcases hk with rfl | rfl | rfl | rfl <;>
    · apply BitVec.eq_of_getLsbD_eq
      intro i hi
      interval_cases i <;> simp
  have h0 := hbytes 0 (by simp)
  have h8 := hbytes 8 (by simp)
  have h16 := hbytes 16 (by simp)
  have h24 := hbytes 24 (by simp)
  simp at h0 h8 h16 h24
  simp [bytes32, fips.bytes, h0, h8, h16, h24]

theorem byte_ofNat (n k : Nat) (hk : k < 32) :
    (UInt32.ofNat n >>> UInt32.ofNat k).toUInt8 = UInt8.ofNat (n % 2 ^ 32 / 2 ^ k) := by
  apply UInt8.toNat_inj.mp
  rw [UInt32.toNat_toUInt8, UInt32.toNat_shiftRight, UInt32.toNat_ofNat', UInt32.toNat_ofNat',
    Nat.mod_eq_of_lt (by omega : k < 2 ^ 32), Nat.mod_eq_of_lt hk, Nat.shiftRight_eq_div_pow]
  simp

theorem bytes_ofNat (n : Nat) : fips.bytes (UInt32.ofNat n) =
    [n / 256 ^ 3, n / 256 ^ 2, n / 256, n].map UInt8.ofNat := by
  have hbyte : ∀ a b : Nat, a % 256 = b % 256 → UInt8.ofNat a = UInt8.ofNat b := by
    intro a b h
    apply UInt8.toNat_inj.mp
    simpa using h
  have h24 := byte_ofNat n 24 (by omega)
  have h16 := byte_ofNat n 16 (by omega)
  have h8 := byte_ofNat n 8 (by omega)
  have h0 : (UInt32.ofNat n).toUInt8 = UInt8.ofNat n := by
    apply UInt8.toNat_inj.mp
    simp
  rw [hbyte _ (n / 256 ^ 3) (by omega)] at h24
  rw [hbyte _ (n / 256 ^ 2) (by omega)] at h16
  rw [hbyte _ (n / 256) (by omega)] at h8
  simp only [fips.bytes, List.map_cons, List.map_nil, h0]
  rw [← h24, ← h16, ← h8]
  rfl

/-- The two words of the length are its eight bytes, highest first. -/
theorem bytes_length (l : Nat) :
    bytes32 (reverse_32 (UInt32.ofNat (l >>> 32))) ++
      bytes32 (reverse_32 (UInt32.ofNat (l &&& 0xFFFFFFFF))) = fips.bytes64 l := by
  have hmask : l &&& 0xFFFFFFFF = l % 2 ^ 32 := Nat.and_two_pow_sub_one_eq_mod l 32
  have hlow : UInt32.ofNat (l % 2 ^ 32) = UInt32.ofNat l := by
    apply UInt32.toNat_inj.mp
    simp
  rw [bytes32_reverse_32, bytes32_reverse_32, hmask, hlow, Nat.shiftRight_eq_div_pow,
    bytes_ofNat, bytes_ofNat]
  simp [fips.bytes64, List.range, List.range.loop, Nat.div_div_eq_div_mul]

/-! ## One block -/

/-- The words of `W` are the first words of the message schedule. -/
def Scheduled (block : List UInt8) (W : List UInt32) : Prop :=
  ∀ t, t < W.length → W.getD t 0 = fips.W block t

theorem schedule_loop.spec (block : List UInt8) (W : List UInt32) (n : Nat) (h16 : 16 ≤ W.length)
    (h : Scheduled block W) :
    (schedule_loop W n).length = W.length + n ∧ Scheduled block (schedule_loop W n) := by
  induction n generalizing W with
  | zero => exact ⟨rfl, h⟩
  | succ n ih =>
    unfold schedule_loop
    dsimp only
    have hword : ∀ x : UInt32, x = fips.W block W.length → Scheduled block (W ++ [x]) := by
      intro x hx t ht
      by_cases hlast : t = W.length
      · rw [hlast, hx]
        simp
      · have hlt : t < W.length := by
          simp only [List.length_append, List.length_singleton] at ht
          omega
        rw [List.getD_append _ _ _ _ hlt]
        exact h t hlt
    rw [h _ (by omega), h _ (by omega), h _ (by omega), h _ (by omega)]
    have hnext : ROTL (fips.W block (W.length - 3) ^^^ fips.W block (W.length - 8) ^^^
        fips.W block (W.length - 14) ^^^ fips.W block (W.length - 16)) 1 =
        fips.W block W.length := by
      conv_rhs => rw [fips.W, if_neg (by omega)]
      rfl
    rw [hnext]
    obtain ⟨hlen, hrest⟩ := ih (W ++ [fips.W block W.length]) (by simp; omega) (hword _ rfl)
    refine ⟨?_, hrest⟩
    rw [hlen, List.length_append, List.length_singleton]
    omega

/-- The first 16 words are the block, highest byte first. -/
theorem scheduled_block (block : List UInt8) :
    Scheduled block ((List.range 16).map fun i => reverse_32 (load32 block (4 * i))) := by
  intro t ht
  have ht16 : t < 16 := by simpa using ht
  rw [List.getD_eq_getElem _ _ ht, List.getElem_map, List.getElem_range, reverse_32_word,
    fips.W, if_pos ht16]

theorem sha1_f_eq (t : Nat) (ht : t < 80) (x y z : UInt32) : sha1_f t x y z = fips.f t x y z := by
  unfold sha1_f fips.f
  split_ifs <;> first | rfl | omega

theorem sha1_get_k_eq (t : Nat) (ht : t < 80) : sha1_get_k t = fips.K t := by
  unfold sha1_get_k fips.K
  split_ifs <;> first | rfl | omega

theorem add_block_round_std {block : List UInt8} {W : List UInt32} (hW : Scheduled block W)
    (v : Hash) (t : Nat) (ht : t < 80) (hlen : t < W.length) :
    (add_block_round W v t).std = fips.round block v.std t := by
  unfold add_block_round fips.round Hash.std
  simp only [sha1_f_eq t ht, sha1_get_k_eq t ht, hW t hlen]
  rfl

/-- Some turns of the loop are as many rounds of the standard. -/
theorem add_block_rounds_std {block : List UInt8} {W : List UInt32} (hW : Scheduled block W)
    (hlen : W.length = 80) (ts : List Nat) (hts : ∀ t ∈ ts, t < 80) (v : Hash) :
    (ts.foldl (add_block_round W) v).std = ts.foldl (fips.round block) v.std := by
  induction ts generalizing v with
  | nil => rfl
  | cons t ts ih =>
    have ht := hts t List.mem_cons_self
    rw [List.foldl_cons, List.foldl_cons, ih (fun t ht => hts t (List.mem_cons_of_mem _ ht)),
      add_block_round_std hW v t ht (by omega)]

/-- `add_block` computes the next hash of the standard. -/
theorem add_block_std (h : Hash) (block : List UInt8) :
    (add_block h block).1.std = fips.compress h.std block := by
  obtain ⟨hlen, hW⟩ := schedule_loop.spec block _ 64 (by simp) (scheduled_block block)
  have hrounds := add_block_rounds_std hW (by rw [hlen]; simp) (List.range 80)
    (fun t ht => List.mem_range.mp ht) h
  unfold add_block fips.compress
  dsimp only
  rw [← hrounds]
  rfl

end salsola.sha1
