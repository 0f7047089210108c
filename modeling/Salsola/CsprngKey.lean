-- The key of a reseed: which of its bytes the bytes of the pool's digest go
-- to. The macro `KEY_SIZE` has no parentheses, so they go to eight bytes of
-- the key only, two or three to each.
import Salsola.CsprngLaws

open outcome salsola.sha1 salsola.chacha20

namespace salsola.csprng

variable {s s' : State} {pool : SHA1_CTX} {len depth : Nat} {mix : State → Result State}
  {hash hash' g d d' : List UInt8}

/-- The bytes of the key in `internal_chacha_block`. -/
def State.key (s : State) : List UInt8 :=
  ((s.internal_chacha_block.drop KEY).take (KEY_SIZE / 4)).flatMap bytes32

/-- `add_hash_pool` up to its call of `mix_chacha`. -/
def write_key (depth : Nat) (s : State) : Result State := do
  let s := s.add .reseed
  let (new_chacha_key, s) ← csprng_get_random depth s KEY_SIZE
  let (_, hash_buffer) ← SHA1_Final s.hash_pool
  let new_chacha_key := xor_hash (new_chacha_key.map Byte.val) hash_buffer
  let hash_pool ← SHA1_Update SHA1_Init hash_buffer
  let (block, s) ← csprng_get_random depth s BLOCK_SIZE
  let hash_pool ← SHA1_Update hash_pool (block.map Byte.val)
  let s := { s with hash_pool }
  let s := s.set_words KEY (KEY_SIZE / 4) new_chacha_key
  .ok (s.add .key)

theorem add_hash_pool_eq (depth : Nat) (s : State) :
    add_hash_pool depth s = write_key depth s >>= mix_chacha depth := by
  simp only [add_hash_pool, write_key, bind_assoc, ok_bind]

/-- The key that `add_hash_pool` writes into `internal_chacha_block`. -/
def reseed_key (depth : Nat) (s : State) : Result (List UInt8) := do
  let s ← write_key depth s
  .ok s.key

/-- The output bytes of the generator that go into the key. -/
def generator_bytes (depth : Nat) (s : State) : Result (List UInt8) := do
  let (new_chacha_key, _) ← csprng_get_random depth (s.add .reseed) KEY_SIZE
  .ok (new_chacha_key.map Byte.val)

/-- The digest of the pool. -/
def digest (pool : SHA1_CTX) : Result (List UInt8) := do
  let (_, hash_buffer) ← SHA1_Final pool
  .ok hash_buffer

/-! ## The generator does not look at the pool -/

def State.pooled (s : State) (pool : SHA1_CTX) : State := { s with hash_pool := pool }

/-- What a call gives, with another pool in the state that it leaves. -/
def repool (pool : SHA1_CTX) (r : List Byte × State) : List Byte × State := (r.1, r.2.pooled pool)

/-- Without a new key there are no bytes. -/
theorem get_random_loop_error {e : Halt} (hlen : len ≠ 0)
    (h : (if s.count = COUNT_MAX - 1 then mix (s.set_count (s.count + 1)) else .ok s) =
      .error e) : get_random_loop mix s len = .error e := by
  rw [get_random_loop, if_neg hlen]
  by_cases hc : s.count = COUNT_MAX - 1
  · rw [if_pos hc] at h ⊢
    rw [h]
    rfl
  · rw [if_neg hc] at h
    cases h

theorem get_random_loop_pooled
    (hmix : ∀ s, mix (s.pooled pool) = (mix s).map (·.pooled pool)) (s : State) (len : Nat) :
    get_random_loop mix (s.pooled pool) len = (get_random_loop mix s len).map (repool pool) := by
  induction len using Nat.strongRecOn generalizing s with
  | ind len ih =>
    by_cases hlen : len = 0
    · subst hlen
      rw [get_random_loop, get_random_loop, if_pos rfl, if_pos rfl]
      rfl
    · have hpos : 0 < min BLOCK_SIZE len := by
        unfold BLOCK_SIZE
        omega
      obtain ⟨ready, hready⟩ : ∃ ready, (if s.count = COUNT_MAX - 1 then
          mix (s.set_count (s.count + 1)) else .ok s) = ready := ⟨_, rfl⟩
      have hready' : (if (s.pooled pool).count = COUNT_MAX - 1 then
          mix ((s.pooled pool).set_count ((s.pooled pool).count + 1)) else .ok (s.pooled pool)) =
          ready.map (·.pooled pool) := by
        rw [← hready]
        by_cases hc : s.count = COUNT_MAX - 1
        · rw [if_pos hc]
          exact (if_pos hc).trans (hmix (s.set_count (s.count + 1)))
        · rw [if_neg hc]
          exact if_neg hc
      cases ready with
      | ok s1 =>
        have hrest := ih (len - min BLOCK_SIZE len) (by omega) s1.drawn
        rw [get_random_loop_turn hlen hready, get_random_loop_turn hlen hready',
          show (s1.pooled pool).drawn = s1.drawn.pooled pool from rfl, hrest]
        cases get_random_loop mix s1.drawn (len - min BLOCK_SIZE len) <;> rfl
      | error e =>
        rw [get_random_loop_error hlen hready, get_random_loop_error hlen hready']
        rfl

theorem mix_with_pooled {get_random : State → Nat → Result (List Byte × State)}
    (h : ∀ s len, get_random (s.pooled pool) len = (get_random s len).map (repool pool))
    (s : State) : mix_with get_random (s.pooled pool) =
      (mix_with get_random s).map (·.pooled pool) := by
  unfold mix_with
  rw [h]
  cases get_random s BLOCK_SIZE <;> rfl

theorem csprng_get_random_pooled (pool : SHA1_CTX) (depth : Nat) (s : State) (len : Nat) :
    csprng_get_random depth (s.pooled pool) len =
      (csprng_get_random depth s len).map (repool pool) := by
  induction depth generalizing s len with
  | zero => rfl
  | succ depth ih => exact get_random_loop_pooled (mix_with_pooled ih) s len

theorem generator_bytes_pooled (pool : SHA1_CTX) (depth : Nat) (s : State) :
    generator_bytes depth (s.pooled pool) = generator_bytes depth s := by
  unfold generator_bytes
  rw [show (s.pooled pool).add .reseed = (s.add .reseed).pooled pool from rfl,
    csprng_get_random_pooled]
  cases csprng_get_random depth (s.add .reseed) KEY_SIZE <;> rfl

/-! ## The generator returns in every state -/

theorem set_count_length (s : State) (c : UInt32) :
    (s.set_count c).internal_chacha_block.length = s.internal_chacha_block.length :=
  List.length_set

theorem rekeyed_words (h : s.internal_chacha_block.length = 16) (bytes : List Byte) :
    (s.rekeyed bytes).internal_chacha_block.length = 16 ∧ (s.rekeyed bytes).count = 0 := by
  have hkey := set_words_length (s := s) KEY (KEY_SIZE / 4) (bytes.map Byte.val)
    (by rw [h]; decide)
  have hnonce := set_words_length
    (s := (s.set_words KEY (KEY_SIZE / 4) (bytes.map Byte.val)).add .key) NONCE (NONCE_SIZE / 4)
    ((bytes.map Byte.val).drop KEY_SIZE) (by rw [State.add, hkey, h]; decide)
  have hwords := hnonce.trans (hkey.trans h)
  exact ⟨(set_count_length _ 0).trans hwords, set_count_count hwords 0⟩

theorem drawn_words (h : s.internal_chacha_block.length = 16) :
    s.drawn.internal_chacha_block.length = 16 := (set_count_length _ _).trans h

theorem get_random_loop_returns
    (hmix : ∀ s, s.internal_chacha_block.length = 16 → s.count = COUNT_MAX →
      ∃ s', mix s = .ok s' ∧ s'.internal_chacha_block.length = 16)
    (h : s.internal_chacha_block.length = 16) (len : Nat) :
    ∃ bytes s', get_random_loop mix s len = .ok (bytes, s') ∧ bytes.length = len ∧
      s'.internal_chacha_block.length = 16 := by
  induction len using Nat.strongRecOn generalizing s with
  | ind len ih =>
    by_cases hlen : len = 0
    · subst hlen
      refine ⟨[], s, ?_, rfl, h⟩
      rw [get_random_loop, if_pos rfl]
    · have hready : ∃ s1, (if s.count = COUNT_MAX - 1 then mix (s.set_count (s.count + 1))
          else .ok s) = .ok s1 ∧ s1.internal_chacha_block.length = 16 := by
        by_cases hc : s.count = COUNT_MAX - 1
        · have hlast : (s.set_count (s.count + 1)).count = COUNT_MAX := by
            rw [set_count_count h, hc]
            decide
          rw [if_pos hc]
          exact hmix _ ((set_count_length _ _).trans h) hlast
        · rw [if_neg hc]
          exact ⟨s, rfl, h⟩
      obtain ⟨s1, hs1, h1⟩ := hready
      have hpos : 0 < min BLOCK_SIZE len := by
        unfold BLOCK_SIZE
        omega
      obtain ⟨rest, s2, hrest, hlength, h2⟩ :=
        ih (len - min BLOCK_SIZE len) (by omega) (drawn_words h1)
      refine ⟨s1.draw.1.take (min BLOCK_SIZE len) ++ rest, s2, ?_, ?_, h2⟩
      · rw [get_random_loop_turn hlen hs1, hrest]
        rfl
      · rw [List.length_append, List.length_take, draw_length, hlength]
        omega

/-- Two calls deep the recursion ends, with any counter. -/
theorem csprng_get_random_returns (h : s.internal_chacha_block.length = 16) (hdepth : 2 ≤ depth)
    (len : Nat) : ∃ bytes s', csprng_get_random depth s len = .ok (bytes, s') ∧
      bytes.length = len ∧ s'.internal_chacha_block.length = 16 ∧
      s'.hash_pool = s.hash_pool := by
  obtain ⟨d, rfl⟩ : ∃ d, depth = d + 2 := ⟨depth - 2, by omega⟩
  have hmix : ∀ s : State, s.internal_chacha_block.length = 16 → s.count = COUNT_MAX →
      ∃ s', mix_with (csprng_get_random (d + 1)) s = .ok s' ∧
        s'.internal_chacha_block.length = 16 := by
    intro s hs hc
    exact ⟨_, mix_with_eq (get_random_loop_one hc), (rekeyed_words (drawn_words hs) _).1⟩
  obtain ⟨bytes, s', hs', hlen, h'⟩ := get_random_loop_returns hmix h len
  refine ⟨bytes, s', hs', hlen, h', ?_⟩
  have hpool := csprng_get_random_pooled s.hash_pool (d + 2) s len
  rw [show s.pooled s.hash_pool = s from rfl, show csprng_get_random (d + 2) s len = _ from hs']
    at hpool
  have hsame : (bytes, s') = repool s.hash_pool (bytes, s') := Except.ok.inj hpool
  have hstate : s' = s'.pooled s.hash_pool := (Prod.mk.inj hsame).2
  rw [hstate]
  rfl

/-! ## The bytes of a key -/

/-- The first bytes of a word are those that it was loaded from. -/
theorem bytes32_load (a b c d : UInt8) :
    bytes32 (a.toUInt32 ||| b.toUInt32 <<< 8 ||| c.toUInt32 <<< 16 ||| d.toUInt32 <<< 24) =
      [a, b, c, d] := by
  have hbyte : ∀ k : UInt32, ∀ x : UInt8, (k, x) ∈ [(0, a), (8, b), (16, c), (24, d)] →
      ((a.toUInt32 ||| b.toUInt32 <<< 8 ||| c.toUInt32 <<< 16 ||| d.toUInt32 <<< 24) >>>
        k).toUInt8 = x := by
    intro k x hk
    apply UInt8.eq_of_toBitVec_eq
    simp only [UInt32.toBitVec_or, UInt32.toBitVec_shiftLeft, UInt32.toBitVec_shiftRight,
      UInt32.toBitVec_toUInt8, UInt8.toBitVec_toUInt32]
    simp only [List.mem_cons, List.not_mem_nil, or_false, Prod.mk.injEq] at hk
    rcases hk with ⟨rfl, rfl⟩ | ⟨rfl, rfl⟩ | ⟨rfl, rfl⟩ | ⟨rfl, rfl⟩ <;>
    · apply BitVec.eq_of_getLsbD_eq
      intro i hi
      interval_cases i <;> simp
  have h0 := hbyte 0 a (by simp)
  have h8 := hbyte 8 b (by simp)
  have h16 := hbyte 16 c (by simp)
  have h24 := hbyte 24 d (by simp)
  simp only [UInt32.shiftRight_zero] at h0
  unfold bytes32
  rw [h0, h8, h16, h24]

/-- The words of some bytes have these bytes. -/
theorem bytes_of_words (src : List UInt8) (n : Nat) (h : 4 * n ≤ src.length) :
    ((List.range n).map fun j => load32 src (4 * j)).flatMap bytes32 = src.take (4 * n) := by
  induction n with
  | zero => simp
  | succ n ih =>
    have hword : (src.drop (4 * n)).take 4 = bytes32 (load32 src (4 * n)) := by
      unfold load32
      rw [bytes32_load]
      apply List.ext_getElem
      · simp
        omega
      · intro i h1 h2
        simp only [List.length_cons, List.length_nil] at h2
        interval_cases i <;> simp [List.getD_eq_getElem?_getD] <;>
          rw [List.getElem?_eq_getElem (by omega), Option.getD_some]
    rw [List.range_succ, List.map_append, List.flatMap_append, ih (by omega),
      Nat.mul_succ, List.take_add, hword]
    simp

theorem key_set_words (h : s.internal_chacha_block.length = 16) (src : List UInt8)
    (hsrc : src.length = KEY_SIZE) : (s.set_words KEY (KEY_SIZE / 4) src).key = src := by
  unfold State.key State.set_words ring.overwrite
  have hfront : (s.internal_chacha_block.take KEY).length = KEY := by
    rw [List.length_take, h]
    rfl
  have hwords : ((List.range (KEY_SIZE / 4)).map fun j => load32 src (4 * j)).length =
      KEY_SIZE / 4 := by simp
  dsimp only
  rw [List.append_assoc, List.drop_left' hfront, List.take_left' hwords,
    bytes_of_words src _ (by rw [hsrc]; decide), List.take_of_length_le (by rw [hsrc]; decide)]

/-! ## The loop that mixes the hash into the key -/

/-- The bytes of the hash that go to the byte `t` of the key. -/
def landing (t : Nat) : List Nat := (List.range HASH_LEN).filter fun i => i % 8 * 4 = t

theorem xor_fold_length (idx : List Nat) (key hash : List UInt8) :
    (idx.foldl (fun key i =>
      key.set (i % 8 * 4) (key.getD (i % 8 * 4) 0 ^^^ hash.getD i 0)) key).length =
      key.length := by
  induction idx generalizing key with
  | nil => rfl
  | cons i idx ih =>
    rw [List.foldl_cons, ih]
    exact List.length_set

theorem xor_fold_getD (idx : List Nat) (key hash : List UInt8) {t : Nat} (ht : t < key.length) :
    (idx.foldl (fun key i =>
      key.set (i % 8 * 4) (key.getD (i % 8 * 4) 0 ^^^ hash.getD i 0)) key).getD t 0 =
      (idx.filter fun i => i % 8 * 4 = t).foldl (fun v i => v ^^^ hash.getD i 0)
        (key.getD t 0) := by
  induction idx generalizing key with
  | nil => rfl
  | cons i idx ih =>
    rw [List.foldl_cons, ih _ (by simpa using ht)]
    by_cases hi : i % 8 * 4 = t
    · subst hi
      rw [List.filter_cons_of_pos (by simp), List.foldl_cons]
      congr 1
      simp [List.getD_eq_getElem?_getD, ht]
    · rw [List.filter_cons_of_neg (by simpa using hi)]
      congr 1
      simp [List.getD_eq_getElem?_getD, List.getElem?_set_ne hi]

theorem xor_hash_length (key hash : List UInt8) : (xor_hash key hash).length = key.length :=
  xor_fold_length _ key hash

/-- The bytes `j`, `j + 8` and `j + 16` of the hash. -/
def folded (hash : List UInt8) (j : Nat) : UInt8 :=
  hash.getD j 0 ^^^ hash.getD (j + 8) 0 ^^^ hash.getD (j + 16) 0

theorem landing_eq : ∀ t < KEY_SIZE, landing t =
    if t % 4 = 0 then
      if t / 4 < 4 then [t / 4, t / 4 + 8, t / 4 + 16] else [t / 4, t / 4 + 8]
    else [] := by
  decide

/-- Every fourth byte of the key takes two or three bytes of the hash, and the others none. -/
theorem xor_hash_getD (key : List UInt8) (hhash : hash.length = HASH_LEN) {t : Nat}
    (ht : t < KEY_SIZE) (hkey : key.length = KEY_SIZE) :
    (xor_hash key hash).getD t 0 =
      key.getD t 0 ^^^ if t % 4 = 0 then folded hash (t / 4) else 0 := by
  unfold xor_hash
  rw [xor_fold_getD _ key hash (by omega), show List.filter _ (List.range HASH_LEN) = landing t
    from rfl, landing_eq t ht]
  unfold folded
  by_cases h4 : t % 4 = 0
  · rw [if_pos h4, if_pos h4]
    by_cases hlow : t / 4 < 4
    · rw [if_pos hlow]
      simp only [List.foldl_cons, List.foldl_nil, UInt8.xor_assoc]
    · have hend : hash.getD (t / 4 + 16) 0 = 0 := by
        apply List.getD_eq_default
        unfold HASH_LEN SHA1_LEN at hhash
        omega
      rw [if_neg hlow, hend]
      simp only [List.foldl_cons, List.foldl_nil, UInt8.xor_assoc, UInt8.xor_zero]
  · rw [if_neg h4, if_neg h4, UInt8.xor_zero]
    rfl

/-- Byte `i` of the digest goes to byte `i` of the key. -/
def xored (g d : List UInt8) : List UInt8 :=
  (List.range KEY_SIZE).map fun i => g.getD i 0 ^^^ d.getD i 0

theorem ext_key {xs ys : List UInt8} (hx : xs.length = KEY_SIZE) (hy : ys.length = KEY_SIZE) :
    xs = ys ↔ ∀ t < KEY_SIZE, xs.getD t 0 = ys.getD t 0 := by
  constructor
  · rintro rfl t _
    rfl
  · intro h
    apply List.ext_getElem (hx.trans hy.symm)
    intro t h1 h2
    have := h t (by omega)
    rw [List.getD_eq_getElem _ _ h1, List.getD_eq_getElem _ _ h2] at this
    exact this

theorem xored_getD (g d : List UInt8) {t : Nat} (ht : t < KEY_SIZE) :
    (xored g d).getD t 0 = g.getD t 0 ^^^ d.getD t 0 := by
  unfold xored
  rw [List.getD_eq_getElem _ _ (by simpa using ht)]
  simp

/-- The key is the one that keeps all of the digest only when there is nothing to keep but
its first byte. -/
theorem xor_hash_xored_iff (hg : g.length = KEY_SIZE) (hd : d.length = HASH_LEN) :
    xor_hash g d = xored g d ↔ ∀ i, 0 < i → i < HASH_LEN → d.getD i 0 = 0 := by
  have hend : ∀ i, HASH_LEN ≤ i → d.getD i 0 = 0 := fun i hi =>
    List.getD_eq_default _ _ (by omega)
  have hpoint : xor_hash g d = xored g d ↔
      ∀ t < KEY_SIZE, (if t % 4 = 0 then folded d (t / 4) else 0) = d.getD t 0 := by
    rw [ext_key ((xor_hash_length g d).trans hg) (by simp [xored])]
    refine forall_congr' fun t => forall_congr' fun ht => ?_
    rw [xor_hash_getD g hd ht hg, xored_getD g d ht, UInt8.xor_right_inj]
  rw [hpoint]
  constructor
  · intro h
    have hodd : ∀ i, i % 4 ≠ 0 → d.getD i 0 = 0 := by
      intro i hi
      by_cases hlt : i < KEY_SIZE
      · have := h i hlt
        rw [if_neg hi] at this
        exact this.symm
      · apply hend
        unfold KEY_SIZE at hlt
        unfold HASH_LEN SHA1_LEN
        omega
    -- what goes to the byte `4 * j`, for `j` from 1 to 4
    have hfour : ∀ j, 0 < j → j < 4 → d.getD (4 * j) 0 = 0 := by
      intro j h1 h4
      have hj := h (4 * j) (by unfold KEY_SIZE; omega)
      rw [if_pos (by omega), show 4 * j / 4 = j by omega] at hj
      unfold folded at hj
      rw [hodd j (by omega), hodd (j + 8) (by omega), hodd (j + 16) (by omega)] at hj
      exact hj.symm
    have h16 := h 16 (by decide)
    rw [if_pos (by decide)] at h16
    unfold folded at h16
    intro i hi hlt
    by_cases hi4 : i % 4 = 0
    · unfold HASH_LEN SHA1_LEN at hlt
      by_cases hi16 : i = 16
      · subst hi16
        rw [← h16]
        have h4 : d.getD 4 0 = 0 := hfour 1 (by decide) (by decide)
        have h12 : d.getD 12 0 = 0 := hfour 3 (by decide) (by decide)
        rw [show 16 / 4 = 4 from rfl, show 4 + 8 = 12 from rfl, show 4 + 16 = 20 from rfl, h4, h12,
          hend 20 (by decide)]
        rfl
      · have := hfour (i / 4) (by omega) (by omega)
        rw [show 4 * (i / 4) = i by omega] at this
        exact this
    · exact hodd i hi4
  · intro h t _
    have hzero : ∀ i, 0 < i → d.getD i 0 = 0 := by
      intro i hi
      by_cases hlt : i < HASH_LEN
      · exact h i hi hlt
      · exact hend i (by omega)
    unfold folded
    rw [hzero (t / 4 + 8) (by omega), hzero (t / 4 + 16) (by omega), UInt8.xor_zero,
      UInt8.xor_zero]
    by_cases h0 : t = 0
    · subst h0
      rfl
    · rw [hzero t (by omega)]
      by_cases h4 : t % 4 = 0
      · rw [if_pos h4, hzero (t / 4) (by omega)]
      · rw [if_neg h4]

/-- Two digests give one key when their bytes agree eight by eight. -/
theorem xor_hash_eq_iff (hg : g.length = KEY_SIZE) (hd : d.length = HASH_LEN)
    (hd' : d'.length = HASH_LEN) :
    xor_hash g d = xor_hash g d' ↔ ∀ j < 8, folded d j = folded d' j := by
  rw [ext_key ((xor_hash_length g d).trans hg) ((xor_hash_length g d').trans hg)]
  constructor
  · intro h j hj
    have := h (4 * j) (by unfold KEY_SIZE; omega)
    rw [xor_hash_getD g hd (by unfold KEY_SIZE; omega) hg,
      xor_hash_getD g hd' (by unfold KEY_SIZE; omega) hg, UInt8.xor_right_inj,
      if_pos (by omega), if_pos (by omega), show 4 * j / 4 = j by omega] at this
    exact this
  · intro h t ht
    rw [xor_hash_getD g hd ht hg, xor_hash_getD g hd' ht hg, UInt8.xor_right_inj]
    unfold KEY_SIZE at ht
    by_cases h4 : t % 4 = 0
    · rw [if_pos h4, if_pos h4]
      exact h (t / 4) (by omega)
    · rw [if_neg h4, if_neg h4]

/-! ## The key of a reseed -/

theorem digest_of (h : ∃ s0 m, pool.Holds s0 m) :
    ∃ d, digest pool = .ok d ∧ d.length = HASH_LEN := by
  obtain ⟨s0, m, hpool⟩ := h
  obtain ⟨ctx, hfinal⟩ := SHA1_Final.spec hpool
  refine ⟨(streaming.absorb 64 fips.compress s0 (fips.pad m)).digest, ?_, fips.digest_length _⟩
  unfold digest
  rw [hfinal]
  rfl

/-- The key is made of the output of the generator and the digest of the pool. -/
theorem reseed_key_eq (hwords : s.internal_chacha_block.length = 16) (hdepth : 2 ≤ depth)
    (hpool : ∃ s0 m, pool.Holds s0 m) :
    ∃ g d, generator_bytes depth s = .ok g ∧ g.length = KEY_SIZE ∧ digest pool = .ok d ∧
      d.length = HASH_LEN ∧ reseed_key depth (s.pooled pool) = .ok (xor_hash g d) := by
  have hwords0 : ((s.pooled pool).add .reseed).internal_chacha_block.length = 16 := hwords
  obtain ⟨key, s1, hs1, hkey, hwords1, hpool1⟩ :=
    csprng_get_random_returns hwords0 hdepth KEY_SIZE
  obtain ⟨d, hd, hdlen⟩ := digest_of hpool
  obtain ⟨ctx, hfinal⟩ : ∃ ctx, SHA1_Final pool = .ok (ctx, d) := by
    unfold digest at hd
    obtain ⟨⟨ctx, m⟩, hfinal, hm⟩ := bind_eq_ok.mp hd
    cases hm
    exact ⟨ctx, hfinal⟩
  have hsmall : 0 + d.length < 2 ^ 64 := by
    rw [hdlen]
    decide
  obtain ⟨ctx1, hctx1, hholds1⟩ := SHA1_Update.spec holds_init hsmall
  obtain ⟨block, s2, hs2, hblock, hwords2, -⟩ :=
    csprng_get_random_returns hwords1 hdepth BLOCK_SIZE
  have hroom : ctx1.active_len + (block.map Byte.val).length < 2 ^ 64 := by
    have hactive : ctx1.active_len < 64 := hholds1.active
    rw [List.length_map, hblock]
    unfold BLOCK_SIZE
    omega
  obtain ⟨ctx2, hctx2, -⟩ := SHA1_Update.spec hholds1 hroom
  have hg : generator_bytes depth s = .ok (key.map Byte.val) := by
    rw [← generator_bytes_pooled pool]
    unfold generator_bytes
    rw [hs1]
    rfl
  have hglen : (key.map Byte.val).length = KEY_SIZE := by
    rw [List.length_map, hkey]
  refine ⟨key.map Byte.val, d, hg, hglen, hd, hdlen, ?_⟩
  have hwritten : write_key depth (s.pooled pool) = .ok ((State.set_words { s2 with
      hash_pool := ctx2 } KEY (KEY_SIZE / 4) (xor_hash (key.map Byte.val) d)).add .key) := by
    unfold write_key
    dsimp only
    rw [hs1, ok_bind]
    dsimp only
    rw [hpool1, show ((s.pooled pool).add .reseed).hash_pool = pool from rfl, hfinal, ok_bind]
    dsimp only
    rw [hctx1, ok_bind, hs2, ok_bind]
    dsimp only
    rw [hctx2, ok_bind]
  have hmade : (State.set_words { s2 with hash_pool := ctx2 } KEY (KEY_SIZE / 4)
      (xor_hash (key.map Byte.val) d)).key = xor_hash (key.map Byte.val) d :=
    key_set_words hwords2 _ ((xor_hash_length _ _).trans hglen)
  unfold reseed_key
  rw [hwritten, ok_bind]
  exact congrArg Except.ok hmade

/-- What a reseed that keeps all of the entropy does with the pools `pool` and `pool'`: byte `i`
of the digest goes to byte `i` of the key, and two digests give two keys. -/
structure KeepsEntropy (depth : Nat) (s : State) (pool pool' : SHA1_CTX) : Prop where
  key : ∀ p ∈ [pool, pool'], ∃ g d, generator_bytes depth s = .ok g ∧ digest p = .ok d ∧
    reseed_key depth (s.pooled p) = .ok (xored g d)
  injective : digest pool ≠ digest pool' →
    reseed_key depth (s.pooled pool) ≠ reseed_key depth (s.pooled pool')

/-- All bytes of the digest are zero, but perhaps the first one. -/
def OneByte (pool : SHA1_CTX) : Prop :=
  ∃ d, digest pool = .ok d ∧ ∀ i, 0 < i → i < HASH_LEN → d.getD i 0 = 0

theorem xored_of_key (hwords : s.internal_chacha_block.length = 16) (hdepth : 2 ≤ depth)
    (hpool : ∃ s0 m, pool.Holds s0 m) :
    (∃ g d, generator_bytes depth s = .ok g ∧ digest pool = .ok d ∧
      reseed_key depth (s.pooled pool) = .ok (xored g d)) ↔ OneByte pool := by
  obtain ⟨g, d, hg, hglen, hd, hdlen, hkey⟩ := reseed_key_eq hwords hdepth hpool
  unfold OneByte
  rw [hg, hd, hkey]
  constructor
  · rintro ⟨g', d', h1, h2, h⟩
    cases h1
    cases h2
    exact ⟨d, rfl, (xor_hash_xored_iff hglen hdlen).mp (Except.ok.inj h)⟩
  · rintro ⟨d', h2, h⟩
    cases h2
    exact ⟨g, d, rfl, rfl, congrArg _ ((xor_hash_xored_iff hglen hdlen).mpr h)⟩

/-- With any state of the generator, a reseed keeps the entropy of the pool exactly when there is
none but in the first byte of its digest. And two digests give two keys exactly when they differ
after they were folded to eight bytes. -/
theorem a_reseed_keeps_the_entropy_iff_it_fits_one_byte
    (hwords : s.internal_chacha_block.length = 16) (hdepth : 2 ≤ depth) (pool' : SHA1_CTX)
    (hpool : ∃ s0 m, pool.Holds s0 m) (hpool' : ∃ s0 m, pool'.Holds s0 m) :
    (KeepsEntropy depth s pool pool' ↔ OneByte pool ∧ OneByte pool') ∧
      ∃ d d', digest pool = .ok d ∧ digest pool' = .ok d' ∧
        (reseed_key depth (s.pooled pool) ≠ reseed_key depth (s.pooled pool') ↔
          ∃ j < 8, folded d j ≠ folded d' j) := by
  obtain ⟨g, d, hg, hglen, hd, hdlen, hkey⟩ := reseed_key_eq hwords hdepth hpool
  obtain ⟨g', d', hg', -, hd', hdlen', hkey'⟩ := reseed_key_eq hwords hdepth hpool'
  obtain rfl : g = g' := Except.ok.inj (hg.symm.trans hg')
  have hiff := xored_of_key hwords hdepth hpool
  have hiff' := xored_of_key hwords hdepth hpool'
  have hkeys : reseed_key depth (s.pooled pool) ≠ reseed_key depth (s.pooled pool') ↔
      ∃ j < 8, folded d j ≠ folded d' j := by
    rw [hkey, hkey', Ne, Except.ok.injEq, xor_hash_eq_iff hglen hdlen hdlen']
    push Not
    rfl
  refine ⟨⟨?_, ?_⟩, d, d', hd, hd', hkeys⟩
  · intro h
    exact ⟨hiff.mp (h.key pool (by simp)), hiff'.mp (h.key pool' (by simp))⟩
  · rintro ⟨h, h'⟩
    refine ⟨?_, ?_⟩
    · intro p hp
      simp only [List.mem_cons, List.not_mem_nil, or_false] at hp
      rcases hp with rfl | rfl
      · exact hiff.mpr h
      · exact hiff'.mpr h'
    · intro hne
      obtain ⟨_, he, hzero⟩ := h
      obtain ⟨_, he', hzero'⟩ := h'
      obtain rfl := Except.ok.inj (hd.symm.trans he)
      obtain rfl := Except.ok.inj (hd'.symm.trans he')
      rw [hkeys]
      refine ⟨0, by decide, ?_⟩
      intro hfold
      apply hne
      -- the first byte is all that there is
      have hfirst : ∀ e : List UInt8, (∀ i, 0 < i → i < HASH_LEN → e.getD i 0 = 0) →
          folded e 0 = e.getD 0 0 := by
        intro e hz
        unfold folded
        rw [hz (0 + 8) (by decide) (by decide), hz (0 + 16) (by decide) (by decide),
          UInt8.xor_zero, UInt8.xor_zero]
      rw [hfirst d hzero, hfirst d' hzero'] at hfold
      rw [hd, hd']
      congr 1
      apply List.ext_getElem (hdlen.trans hdlen'.symm)
      intro i h1 h2
      rw [← List.getD_eq_getElem _ 0 h1, ← List.getD_eq_getElem _ 0 h2]
      by_cases h0 : i = 0
      · subst h0
        exact hfold
      · rw [hzero i (by omega) (by omega), hzero' i (by omega) (by omega)]

set_option maxRecDepth 20000 in
theorem digest_of_nothing : digest SHA1_Init =
    .ok [0xda, 0x39, 0xa3, 0xee, 0x5e, 0x6b, 0x4b, 0x0d, 0x32, 0x55,
      0xbf, 0xef, 0x95, 0x60, 0x18, 0x90, 0xaf, 0xd8, 0x07, 0x09] := by
  decide +kernel

set_option maxRecDepth 20000 in
theorem digest_of_a : (do
    let pool ← SHA1_Update SHA1_Init [97]
    digest pool) = .ok [0x86, 0xf7, 0xe4, 0x37, 0xfa, 0xa5, 0xa7, 0xfc, 0xe1, 0x5d,
      0x1d, 0xdc, 0xb9, 0xea, 0xea, 0xea, 0x37, 0x76, 0x67, 0xb8] := by
  decide +kernel

/-- The generator as it starts, with a pool that has taken nothing and one that has taken a byte:
the entropy is not kept, but the two keys differ. -/
theorem a_reseed_of_the_first_state : ∃ pool, SHA1_Update SHA1_Init [97] = .ok pool ∧
    ¬ KeepsEntropy 2 initial SHA1_Init pool ∧
    reseed_key 2 (initial.pooled SHA1_Init) ≠ reseed_key 2 (initial.pooled pool) := by
  have hroom : SHA1_Init.active_len + ([97] : List UInt8).length < 2 ^ 64 := by decide
  obtain ⟨pool, hpool, hholds⟩ := SHA1_Update.spec holds_init hroom
  obtain ⟨hkeeps, d, d', hd, hd', hkeys⟩ := a_reseed_keeps_the_entropy_iff_it_fits_one_byte
    (s := initial) rfl (Nat.le_refl 2) pool ⟨_, _, holds_init⟩ ⟨_, _, hholds⟩
  have hdigest := digest_of_a
  rw [hpool, ok_bind, hd'] at hdigest
  rw [digest_of_nothing] at hd
  cases hd
  cases hdigest
  refine ⟨pool, hpool, fun h => ?_, hkeys.mpr ⟨0, by decide, by decide⟩⟩
  obtain ⟨⟨e, he, hzero⟩, -⟩ := hkeeps.mp h
  rw [digest_of_nothing] at he
  cases he
  exact absurd (hzero 1 (by decide) (by decide)) (by decide)

/-- The byte `0x39` of the digest of an empty pool goes to byte 4 of the key, and not to byte 1. -/
theorem the_entropy_is_not_kept :
    ¬ ∀ (s : State) (depth : Nat) (pool pool' : SHA1_CTX),
      s.internal_chacha_block.length = 16 → 2 ≤ depth → (∃ s0 m, pool.Holds s0 m) →
      (∃ s0 m, pool'.Holds s0 m) → KeepsEntropy depth s pool pool' := by
  intro h
  have hkeeps := h initial 2 SHA1_Init SHA1_Init rfl (Nat.le_refl 2) ⟨_, _, holds_init⟩
    ⟨_, _, holds_init⟩
  obtain ⟨d, hd, hzero⟩ :=
    (xored_of_key rfl (Nat.le_refl 2) ⟨_, _, holds_init⟩).mp (hkeeps.key SHA1_Init (by simp))
  rw [digest_of_nothing] at hd
  cases hd
  exact absurd (hzero 1 (by decide) (by decide)) (by decide)

end salsola.csprng
