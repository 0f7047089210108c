-- What the generator gives: blocks of the ChaCha20 of RFC 8439, with new keys out of the stream
-- itself, and out of the SHA-1 digest of the pool.
import Salsola.CsprngRuns
import Salsola.CsprngKey
import Salsola.Lib.Rfc8439

open outcome salsola.sha1 salsola.chacha20

namespace salsola.csprng

variable {s s' s1 : State} {c c' : UInt32} {key nonce b : List UInt8} {bytes : List Byte}
  {depth len n : Nat}

/-! ## chacha_block -/

theorem QR_eq (x : List UInt32) (a b c d : Nat) : QR x a b c d =
    let q := rfc8439.quarter_round ⟨x.getD a 0, x.getD b 0, x.getD c 0, x.getD d 0⟩
    (((x.set a q.a).set b q.b).set c q.c).set d q.d := rfl

/-- The four calls of `QR` for the columns. -/
theorem columns_eq (m : rfc8439.Matrix) :
    QR (QR (QR (QR m.words 0 4 8 12) 1 5 9 13) 2 6 10 14) 3 7 11 15 =
      (rfc8439.column_round m).words := by
  unfold rfc8439.column_round rfc8439.Matrix.words
  simp only [QR_eq, List.getD_cons_zero, List.getD_cons_succ, List.set_cons_zero,
    List.set_cons_succ]

/-- The four calls of `QR` for the diagonals. -/
theorem diagonals_eq (m : rfc8439.Matrix) :
    QR (QR (QR (QR m.words 0 5 10 15) 1 6 11 12) 2 7 8 13) 3 4 9 14 =
      (rfc8439.diagonal_round m).words := by
  unfold rfc8439.diagonal_round rfc8439.undiagonals rfc8439.column_round rfc8439.diagonals
    rfc8439.Matrix.words
  simp only [QR_eq, List.getD_cons_zero, List.getD_cons_succ, List.set_cons_zero,
    List.set_cons_succ]

theorem double_round_eq (m : rfc8439.Matrix) : double_round m.words =
    (rfc8439.diagonal_round (rfc8439.column_round m)).words := by
  rw [← diagonals_eq, ← columns_eq]
  rfl

theorem rounds_eq (m : rfc8439.Matrix) (n : Nat) : rounds m.words n =
    ((fun m => rfc8439.diagonal_round (rfc8439.column_round m))^[n] m).words := by
  induction n generalizing m with
  | zero => rfl
  | succ n ih =>
    rw [rounds, double_round_eq, ih, Function.iterate_succ_apply]

theorem chacha_block_eq (m : rfc8439.Matrix) : chacha_block m.words =
    List.zipWith (· + ·) (rfc8439.rounds m).words m.words := by
  unfold chacha_block
  dsimp only
  rw [rounds_eq]
  rfl

/-! ## The words of the state -/

/-- `internal_chacha_block` has this key, this nonce and this counter. Its last word stays 0. -/
def Words (s : State) (key nonce : List UInt8) (c : UInt32) : Prop :=
  s.internal_chacha_block = (rfc8439.init key (nonce ++ [0, 0, 0, 0]) c).words

theorem Words.count (h : Words s key nonce c) : s.count = c := by
  unfold State.count
  rw [h]
  rfl

theorem Words.add (h : Words s key nonce c) (e : Event) : Words (s.add e) key nonce c := h

theorem Words.set_count (h : Words s key nonce c) (c' : UInt32) :
    Words (s.set_count c') key nonce c' := by
  unfold Words State.set_count
  dsimp only
  rw [h]
  rfl

theorem Words.draw (h : Words s key nonce c) :
    s.draw.1.map Byte.val = rfc8439.block key (nonce ++ [0, 0, 0, 0]) c := by
  unfold State.draw rfc8439.block
  dsimp only
  rw [h, chacha_block_eq, List.map_map]
  exact List.map_id _

theorem Words.drawn (h : Words s key nonce c) : Words s.drawn key nonce (c + 1) := by
  have hdraw : Words s.draw.2 key nonce c := h
  unfold State.drawn
  rw [hdraw.count]
  exact hdraw.set_count (c + 1)

theorem Words.set_key (h : Words s key nonce c) (src : List UInt8) :
    Words (s.set_words KEY (KEY_SIZE / 4) src) (src.take KEY_SIZE) nonce c := by
  have hword : ∀ i, i < 8 → rfc8439.word (src.take KEY_SIZE) i = load32 src (4 * i) :=
    fun i hi => rfc8439.word_take src (by unfold KEY_SIZE; omega)
  unfold Words State.set_words rfc8439.init
  dsimp only
  rw [h, hword 0 (by decide), hword 1 (by decide), hword 2 (by decide), hword 3 (by decide),
    hword 4 (by decide), hword 5 (by decide), hword 6 (by decide), hword 7 (by decide)]
  rfl

theorem Words.set_nonce (h : Words s key nonce c) (src : List UInt8) (hnonce : nonce.length = 8)
    (hsrc : 8 ≤ src.length) :
    Words (s.set_words NONCE (NONCE_SIZE / 4) src) key (src.take NONCE_SIZE) c := by
  have htake : (src.take NONCE_SIZE).length = 8 := by
    rw [List.length_take]
    exact Nat.min_eq_left hsrc
  have hword : ∀ i, i < 2 →
      rfc8439.word (src.take NONCE_SIZE ++ [0, 0, 0, 0]) i = load32 src (4 * i) := by
    intro i hi
    rw [rfc8439.word_append _ _ (by omega)]
    exact rfc8439.word_take src (by unfold NONCE_SIZE; omega)
  have hlast : ∀ xs : List UInt8, xs.length = 8 → rfc8439.word (xs ++ [0, 0, 0, 0]) 2 = 0 := by
    intro xs hxs
    unfold rfc8439.word
    simp [List.getD_eq_getElem?_getD, hxs]
  unfold Words State.set_words rfc8439.init
  dsimp only
  rw [h, hword 0 (by decide), hword 1 (by decide), hlast _ htake]
  unfold rfc8439.init
  rw [hlast _ hnonce]
  rfl

/-- The bytes of a block become the key and the nonce. -/
theorem Words.rekeyed (h : Words s key nonce c) (hnonce : nonce.length = 8)
    (hbytes : bytes.map Byte.val = b) (hb : b.length = BLOCK_SIZE) :
    Words (s.rekeyed bytes) (b.take KEY_SIZE) ((b.drop KEY_SIZE).take NONCE_SIZE) 0 := by
  have hdrop : 8 ≤ (b.drop KEY_SIZE).length := by
    rw [List.length_drop, hb]
    decide
  have hset := ((h.set_key b).add .key).set_nonce (b.drop KEY_SIZE) hnonce hdrop
  unfold State.rekeyed
  dsimp only
  rw [hbytes]
  exact (hset.add _).set_count 0

/-! ## The generator that is meant -/

/-- A key of 32 bytes, a nonce of 8 bytes, the next counter, and the bytes in the pool. -/
structure Generator where
  key : List UInt8
  nonce : List UInt8
  count : Nat
  pool : List UInt8
  /-- The number of bytes that were added, modulo `2 ^ 32`. -/
  added : Nat
  fast : UInt64

def Generator.initial : Generator where
  key := List.replicate 32 0
  nonce := List.replicate 8 0
  count := 0
  pool := []
  added := 0
  fast := 0

def Generator.block (g : Generator) (count : Nat) : List UInt8 :=
  rfc8439.block g.key (g.nonce ++ [0, 0, 0, 0]) (UInt32.ofNat count)

/-- A block becomes the key and the nonce. -/
def Generator.keyed (g : Generator) (b : List UInt8) : Generator :=
  { g with key := b.take KEY_SIZE, nonce := (b.drop KEY_SIZE).take NONCE_SIZE, count := 0 }

/-- The last two counters serve no caller: the block of the very last one becomes a key. -/
def Generator.ready (g : Generator) : Generator :=
  if g.count = 2 ^ 32 - 2 then g.keyed (g.block (2 ^ 32 - 1)) else g

def Generator.next (g : Generator) : List UInt8 × Generator :=
  let g := g.ready
  (g.block g.count, { g with count := g.count + 1 })

def Generator.blocks (g : Generator) : Nat → List UInt8 × Generator
  | 0 => ([], g)
  | n + 1 =>
    let (b, g) := g.next
    let (bs, g) := g.blocks n
    (b ++ bs, g)

/-- A call takes whole blocks, and drops what is left of the last one. -/
def Generator.random (g : Generator) (len : Nat) : List UInt8 × Generator :=
  let (bs, g) := g.blocks ((len + 63) / 64)
  (bs.take len, g)

def Generator.mix (g : Generator) : Generator := g.next.2.keyed g.next.1

/-- A block mixed with the digest of the pool becomes the key, and the digest and another block
stay in the pool. -/
def Generator.reseed (g : Generator) : Generator :=
  let digest := fips.SHA1 g.pool
  let first := g.next
  let second := first.2.next
  { second.2 with
    key := xor_hash (first.1.take KEY_SIZE) digest
    pool := digest ++ second.1 }.mix

def Generator.add_entropy (g : Generator) (buffer : List UInt8) : Generator :=
  let g := { g with
    pool := g.pool ++ bytes64 g.fast ++ buffer
    fast := xorshift64 g.fast
    added := (g.added + buffer.length) % 2 ^ 32 }
  if HASH_LEN * 2 ≤ g.added then g.reseed else g

def Generator.add_entropy_fast (g : Generator) (buffer : List UInt8) : Generator :=
  { g with fast := xorshift64 (add_entropy_fast_loop g.fast 0 buffer) }

variable {g : Generator}

/-- The state is that of the generator. -/
structure Shows (s : State) (g : Generator) : Prop where
  words : Words s g.key g.nonce (UInt32.ofNat g.count)
  nonce : g.nonce.length = 8
  count : g.count < 2 ^ 32 - 1
  pool : s.hash_pool.Holds fips.H0 g.pool
  size : s.hash_pool_size = g.added
  fast : s.entropy_fast_state = g.fast

theorem shows_initial : Shows (csprng_init initial) Generator.initial where
  words := rfl
  nonce := rfl
  count := by decide
  pool := holds_init
  size := rfl
  fast := rfl

theorem Generator.block_length (g : Generator) (count : Nat) : (g.block count).length = 64 :=
  rfc8439.block_length _ _ _

theorem Generator.keyed_nonce (g : Generator) {b : List UInt8} (hb : b.length = 64) :
    (g.keyed b).nonce.length = 8 := by
  unfold Generator.keyed
  rw [List.length_take, List.length_drop, hb]
  rfl

theorem Generator.keyed_count (g : Generator) (b : List UInt8) : (g.keyed b).count = 0 := rfl

/-- A block is none of the pool. -/
theorem Generator.next_pool (g : Generator) : g.next.2.pool = g.pool := by
  unfold Generator.next Generator.ready
  dsimp only
  split_ifs <;> rfl

/-! ## Blocks -/

theorem Shows.limit (h : Shows s g) : s.count = COUNT_MAX - 1 ↔ g.count = 2 ^ 32 - 2 := by
  have hlt := h.count
  rw [h.words.count, ← UInt32.toNat_inj, UInt32.toNat_ofNat_of_lt' (show g.count < 2 ^ 32 by omega)]
  rfl

/-- A block becomes the key and the nonce. -/
theorem Shows.keyed (h : Shows s g) (hbytes : bytes.map Byte.val = b)
    (hb : b.length = BLOCK_SIZE) : Shows (s.rekeyed bytes) (g.keyed b) where
  words := h.words.rekeyed h.nonce hbytes hb
  nonce := g.keyed_nonce hb
  count := by
    show 0 < _
    decide
  pool := h.pool
  size := h.size
  fast := h.fast

/-- The state before a block: at the limit `mix_chacha` takes a new key. -/
theorem Shows.ready (h : Shows s g) (depth : Nat) :
    ∃ s1, (if s.count = COUNT_MAX - 1 then
        mix_with (csprng_get_random (depth + 1)) (s.set_count (s.count + 1)) else .ok s) = .ok s1 ∧
      Shows s1 g.ready ∧ g.ready.count < 2 ^ 32 - 2 := by
  have hlt := h.count
  by_cases hlimit : g.count = 2 ^ 32 - 2
  · have hc := h.limit.mpr hlimit
    have hlast : Words (s.set_count (s.count + 1)) g.key g.nonce COUNT_MAX := by
      rw [hc]
      exact h.words.set_count _
    have hblock : ((s.set_count (s.count + 1)).draw.1.take BLOCK_SIZE).map Byte.val =
        g.block (2 ^ 32 - 1) := by
      rw [List.take_of_length_le (draw_length _).le, hlast.draw]
      rfl
    have hready : g.ready = g.keyed (g.block (2 ^ 32 - 1)) := if_pos hlimit
    have hone : csprng_get_random (depth + 1) (s.set_count (s.count + 1)) BLOCK_SIZE = _ :=
      get_random_loop_one hlast.count
    rw [if_pos hc, mix_with_eq hone, hready]
    have hkeyed := hlast.drawn.rekeyed h.nonce hblock (g.block_length _)
    exact ⟨_, rfl, ⟨hkeyed, g.keyed_nonce (g.block_length _), g.keyed_count _ ▸ by decide, h.pool,
      h.size, h.fast⟩, g.keyed_count _ ▸ by decide⟩
  · have hready : g.ready = g := if_neg hlimit
    rw [if_neg (mt h.limit.mp hlimit), hready]
    exact ⟨s, rfl, h, by omega⟩

/-- A block below the limit. -/
theorem Shows.draw (h : Shows s g) (hc : g.count < 2 ^ 32 - 2) :
    s.draw.1.map Byte.val = g.block g.count ∧ Shows s.drawn { g with count := g.count + 1 } := by
  refine ⟨h.words.draw, ?_, h.nonce, by dsimp only; omega, h.pool, h.size, h.fast⟩
  dsimp only
  rw [UInt32.ofNat_add]
  exact h.words.drawn

/-- A call takes a block, and goes on behind it. -/
theorem Generator.random_next (g : Generator) (hlen : len ≠ 0) : g.random len =
    (g.next.1.take (min BLOCK_SIZE len) ++ (g.next.2.random (len - min BLOCK_SIZE len)).1,
      (g.next.2.random (len - min BLOCK_SIZE len)).2) := by
  have hblocks : (len + 63) / 64 = (len - min BLOCK_SIZE len + 63) / 64 + 1 := by
    unfold BLOCK_SIZE
    omega
  have hnext : g.next.1.length = 64 := Generator.block_length _ _
  unfold Generator.random
  rw [hblocks]
  dsimp only [Generator.blocks]
  rw [List.take_append, hnext]
  congr 2
  · by_cases hlong : BLOCK_SIZE ≤ len
    · rw [Nat.min_eq_left hlong, List.take_of_length_le (by unfold BLOCK_SIZE at hlong; omega),
        List.take_of_length_le (show g.next.1.length ≤ BLOCK_SIZE from hnext.le)]
    · rw [Nat.min_eq_right (by omega)]
  · congr 1
    unfold BLOCK_SIZE
    omega

theorem get_random_loop_shows (h : Shows s g) (len : Nat) :
    ∃ bytes s', get_random_loop (mix_with (csprng_get_random (depth + 1))) s len =
        .ok (bytes, s') ∧ bytes.map Byte.val = (g.random len).1 ∧ Shows s' (g.random len).2 := by
  induction len using Nat.strongRecOn generalizing s g with
  | ind len ih =>
    by_cases hlen : len = 0
    · subst hlen
      refine ⟨[], s, ?_, rfl, h⟩
      rw [get_random_loop, if_pos rfl]
    · obtain ⟨s1, hs1, hready, hcount⟩ := h.ready depth
      obtain ⟨hdraw, hdrawn⟩ := hready.draw hcount
      obtain ⟨rest, s', hrest, hbytes, hshows⟩ :=
        ih (len - min BLOCK_SIZE len) (by unfold BLOCK_SIZE; omega) hdrawn
      rw [g.random_next hlen]
      refine ⟨s1.draw.1.take (min BLOCK_SIZE len) ++ rest, s', ?_, ?_, hshows⟩
      · rw [get_random_loop_turn hlen hs1, hrest]
        rfl
      · rw [List.map_append, List.map_take, hdraw, hbytes]
        rfl

/-- The bytes of a call are those of the generator. -/
theorem csprng_get_random_shows (h : Shows s g) (hdepth : 2 ≤ depth) (len : Nat) :
    ∃ bytes s', csprng_get_random depth s len = .ok (bytes, s') ∧
      bytes.map Byte.val = (g.random len).1 ∧ Shows s' (g.random len).2 := by
  obtain ⟨d, rfl⟩ : ∃ d, depth = d + 2 := ⟨depth - 2, by omega⟩
  exact get_random_loop_shows h len

/-- A call for one block, or for a part of it. -/
theorem Generator.random_one (g : Generator) (hpos : 0 < n) (hn : n ≤ 64) :
    g.random n = (g.next.1.take n, g.next.2) := by
  unfold Generator.random
  rw [show (n + 63) / 64 = 1 by omega]
  dsimp only [Generator.blocks]
  rw [List.append_nil]

/-! ## New keys -/

theorem mix_chacha_shows (h : Shows s g) (hdepth : 2 ≤ depth) :
    ∃ s', mix_chacha depth s = .ok s' ∧ Shows s' g.mix := by
  obtain ⟨bytes, s1, hs1, hbytes, hshows⟩ := csprng_get_random_shows h hdepth BLOCK_SIZE
  have hlength : g.next.1.length = BLOCK_SIZE := Generator.block_length _ _
  rw [g.random_one (by decide) (by decide)] at hbytes hshows
  dsimp only at hbytes hshows
  rw [List.take_of_length_le hlength.le] at hbytes
  exact ⟨_, mix_with_eq hs1, hshows.keyed hbytes hlength⟩

/-- Another key, between two blocks, and another pool. -/
theorem Shows.stirred {pool : SHA1_CTX} {taken : List UInt8} (h : Shows s g)
    (hkey : key.length ≤ KEY_SIZE) (hpool : pool.Holds fips.H0 taken) :
    Shows ((State.set_words { s with hash_pool := pool } KEY (KEY_SIZE / 4) key).add .key)
      { g with key, pool := taken } := by
  have hpooled : Words { s with hash_pool := pool } g.key g.nonce (UInt32.ofNat g.count) :=
    h.words
  have hwords := (hpooled.set_key key).add .key
  rw [List.take_of_length_le hkey] at hwords
  exact ⟨hwords, h.nonce, h.count, hpool, h.size, h.fast⟩

theorem add_hash_pool_shows (h : Shows s g) (hdepth : 2 ≤ depth) :
    ∃ s', add_hash_pool depth s = .ok s' ∧ Shows s' g.reseed := by
  have hstart : Shows (s.add .reseed) g := ⟨h.words, h.nonce, h.count, h.pool, h.size, h.fast⟩
  obtain ⟨key, s1, hs1, hkey, h1⟩ := csprng_get_random_shows hstart hdepth KEY_SIZE
  rw [g.random_one (by decide) (by decide)] at hkey h1
  have hpool1 := h1.pool
  rw [show (g.next.1.take KEY_SIZE, g.next.2).2.pool = g.pool from g.next_pool] at hpool1
  obtain ⟨ctx, hfinal⟩ := SHA1_Final.spec hpool1
  have hdigest : 0 + (fips.SHA1 g.pool).length < 2 ^ 64 := by
    rw [show (fips.SHA1 g.pool).length = 20 from fips.digest_length _]
    decide
  obtain ⟨ctx1, hctx1, hholds1⟩ := SHA1_Update.spec holds_init hdigest
  obtain ⟨block, s2, hs2, hblock, h2⟩ := csprng_get_random_shows h1 hdepth BLOCK_SIZE
  have hlength : g.next.2.next.1.length = BLOCK_SIZE := Generator.block_length _ _
  rw [g.next.2.random_one (by decide) (by decide)] at hblock h2
  dsimp only at hkey h1 hblock h2
  rw [List.take_of_length_le hlength.le] at hblock
  have hroom : ctx1.active_len + (block.map Byte.val).length < 2 ^ 64 := by
    have hactive : ctx1.active_len < 64 := hholds1.active
    rw [hblock, hlength]
    unfold BLOCK_SIZE
    omega
  obtain ⟨ctx2, hctx2, hholds2⟩ := SHA1_Update.spec hholds1 hroom
  rw [hblock, List.nil_append] at hholds2
  have hxor : (xor_hash (key.map Byte.val) (fips.SHA1 g.pool)).length ≤ KEY_SIZE := by
    rw [xor_hash_length, hkey, List.length_take]
    exact Nat.min_le_left _ _
  have hkeyed := h2.stirred hxor hholds2
  rw [hkey] at hkeyed
  obtain ⟨s', hs', h'⟩ := mix_chacha_shows hkeyed hdepth
  refine ⟨s', ?_, by unfold Generator.reseed; exact h'⟩
  unfold add_hash_pool
  dsimp only
  rw [hs1, ok_bind]
  dsimp only
  rw [show SHA1_Final s1.hash_pool = .ok (ctx, fips.SHA1 g.pool) from hfinal, ok_bind]
  dsimp only
  rw [hctx1, ok_bind, hs2, ok_bind]
  dsimp only
  rw [hctx2, ok_bind, hkey]
  exact hs'

theorem csprng_add_entropy_shows (h : Shows s g) (hdepth : 2 ≤ depth) {buffer : List UInt8}
    (hlen : buffer.length + 64 ≤ 2 ^ 64) :
    ∃ s', csprng_add_entropy depth s buffer = .ok s' ∧ Shows s' (g.add_entropy buffer) := by
  have hactive : s.hash_pool.active_len < 64 := h.pool.active
  have hshort : s.hash_pool.active_len + (bytes64 s.entropy_fast_state).length < 2 ^ 64 := by
    have hbytes : (bytes64 s.entropy_fast_state).length = 8 := by simp [bytes64]
    omega
  obtain ⟨pool1, hpool1, hholds1⟩ := SHA1_Update.spec h.pool hshort
  have hactive1 : pool1.active_len < 64 := hholds1.active
  obtain ⟨pool2, hpool2, hholds2⟩ := SHA1_Update.spec hholds1
    (show pool1.active_len + buffer.length < 2 ^ 64 by omega)
  rw [h.fast] at hholds2
  have hadded : Shows { s with
      hash_pool := pool2, entropy_fast_state := xorshift64 s.entropy_fast_state
      hash_pool_size := (s.hash_pool_size + buffer.length) % 2 ^ 32 }
      { g with
        pool := g.pool ++ bytes64 g.fast ++ buffer, fast := xorshift64 g.fast
        added := (g.added + buffer.length) % 2 ^ 32 } :=
    ⟨h.words, h.nonce, h.count, hholds2, by rw [h.size], by rw [h.fast]⟩
  unfold csprng_add_entropy Generator.add_entropy
  rw [hpool1, ok_bind]
  dsimp only
  rw [hpool2, ok_bind, h.size]
  by_cases hfull : HASH_LEN * 2 ≤ (g.added + buffer.length) % 2 ^ 32
  · rw [if_pos hfull, if_pos hfull]
    rw [h.size] at hadded
    exact add_hash_pool_shows hadded hdepth
  · rw [if_neg hfull, if_neg hfull]
    rw [h.size] at hadded
    exact ⟨_, rfl, hadded⟩

/-! ## Whole runs -/

/-- The generator answers a call, and the bytes go to those that it gave before. -/
def Generator.serve (w : Generator × List UInt8) : Call → Generator × List UInt8
  | .get_random len => ((w.1.random len).2, w.2 ++ (w.1.random len).1)
  | .add_entropy buffer => (w.1.add_entropy buffer, w.2)
  | .add_entropy_fast buffer => (w.1.add_entropy_fast buffer, w.2)

/-- A buffer has room in memory. -/
def Call.Fits : Call → Prop
  | .add_entropy buffer => buffer.length + 64 ≤ 2 ^ 64
  | _ => True

theorem World.step_shows {w : World} {call : Call} {given : List UInt8} (h : Shows w.state g)
    (hgiven : w.given.map Byte.val = given) (hdepth : 2 ≤ depth) (hfits : call.Fits) :
    ∃ w', w.step depth call = .ok w' ∧ Shows w'.state (Generator.serve (g, given) call).1 ∧
      w'.given.map Byte.val = (Generator.serve (g, given) call).2 := by
  subst hgiven
  cases call with
  | get_random len =>
    obtain ⟨bytes, s', hs', hbytes, hshows⟩ := csprng_get_random_shows h hdepth len
    refine ⟨{ w with state := s', given := w.given ++ bytes }, ?_, hshows, ?_⟩
    · unfold World.step
      dsimp only
      rw [hs', ok_bind]
    · dsimp only [Generator.serve]
      rw [List.map_append, hbytes]
  | add_entropy buffer =>
    obtain ⟨s', hs', hshows⟩ := csprng_add_entropy_shows h hdepth hfits
    unfold World.step
    dsimp only
    rw [hs', ok_bind]
    exact ⟨_, rfl, hshows, rfl⟩
  | add_entropy_fast buffer =>
    refine ⟨_, rfl, ⟨h.words, h.nonce, h.count, h.pool, h.size, ?_⟩, rfl⟩
    show xorshift64 (add_entropy_fast_loop w.state.entropy_fast_state 0 buffer) = _
    rw [h.fast]
    rfl

theorem World.run_shows {w : World} {given : List UInt8} (h : Shows w.state g)
    (hgiven : w.given.map Byte.val = given) (hdepth : 2 ≤ depth) (calls : List Call)
    (hfits : ∀ call ∈ calls, call.Fits) :
    ∃ w', calls.foldlM (World.step depth) w = .ok w' ∧
      Shows w'.state (calls.foldl Generator.serve (g, given)).1 ∧
      w'.given.map Byte.val = (calls.foldl Generator.serve (g, given)).2 := by
  induction calls generalizing w g given with
  | nil => exact ⟨w, rfl, h, hgiven⟩
  | cons call calls ih =>
    obtain ⟨w1, hw1, h1, hgiven1⟩ := World.step_shows h hgiven hdepth (hfits call (by simp))
    obtain ⟨w', hw', h', hgiven'⟩ := ih h1 hgiven1 fun c hc => hfits c (by simp [hc])
    refine ⟨w', ?_, h', hgiven'⟩
    rw [List.foldlM_cons, hw1, ok_bind, hw']

/-- Behind `csprng_init`. -/
def first : World := { state := csprng_init initial, given := [], history := [] }

/-- Every run of calls returns, and gives the bytes of the generator that is meant: the ChaCha20
blocks of the standard, with its keys out of the stream and out of the SHA-1 digests of what was
added. -/
theorem each_run_gives_the_blocks_of_the_standards (hdepth : 2 ≤ depth) (calls : List Call)
    (hfits : ∀ call ∈ calls, call.Fits) :
    ∃ w, calls.foldlM (World.step depth) first = .ok w ∧
      w.given.map Byte.val = (calls.foldl Generator.serve (Generator.initial, [])).2 ∧
      Shows w.state (calls.foldl Generator.serve (Generator.initial, [])).1 := by
  obtain ⟨w, hw, hshows, hgiven⟩ :=
    World.run_shows (w := first) shows_initial rfl hdepth calls hfits
  exact ⟨w, hw, hgiven, hshows⟩

/-- A call, 40 bytes of entropy, and another call. -/
theorem each_run_gives_the_blocks_of_the_standards_around_a_reseed :
    ∃ w, [.get_random 100, .add_entropy (List.replicate 40 1), .get_random 8].foldlM
        (World.step 2) first = .ok w ∧
      w.given.map Byte.val = ([.get_random 100, .add_entropy (List.replicate 40 1),
        .get_random 8].foldl Generator.serve (Generator.initial, [])).2 ∧
      Shows w.state ([.get_random 100, .add_entropy (List.replicate 40 1),
        .get_random 8].foldl Generator.serve (Generator.initial, [])).1 := by
  refine each_run_gives_the_blocks_of_the_standards (Nat.le_refl 2) _ ?_
  intro call hcall
  simp only [List.mem_cons, List.not_mem_nil, or_false] at hcall
  rcases hcall with rfl | rfl | rfl
  · trivial
  · show (List.replicate 40 (1 : UInt8)).length + 64 ≤ 2 ^ 64
    rw [List.length_replicate]
    decide
  · trivial

-- the stream of the key 0
example : (Generator.initial.random 8).1 = [0x76, 0xb8, 0xe0, 0xad, 0xa0, 0xf1, 0x3d, 0x90] := by
  decide +kernel

end salsola.csprng
