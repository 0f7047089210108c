-- The laws of the generator: between two keys no counter comes twice, the
-- recursion ends, and the bytes that become a key go to no caller.
import Salsola.Csprng
import Salsola.Sha1Stream

open outcome salsola.sha1 salsola.chacha20

namespace salsola.csprng

/-! ## What the log says -/

/-- The counters that were used since the key was last written. -/
def used : List Event → List UInt32
  | [] => []
  | .key :: _ => []
  | .block c :: log => c :: used log
  | _ :: log => used log

/-- Each counter was new for the key that was in place. -/
def Unique : List Event → Prop
  | [] => True
  | .block c :: log => c ∉ used log ∧ Unique log
  | _ :: log => Unique log

/-- The blocks that became keys and nonces. -/
def mixed : List Event → List Nat
  | [] => []
  | .mix blocks :: log => blocks ++ mixed log
  | _ :: log => mixed log

/-- The number of runs of `add_hash_pool`. -/
def reseeds : List Event → Nat
  | [] => 0
  | .reseed :: log => reseeds log + 1
  | _ :: log => reseeds log

/-- Between two blocks with the same counter the key was written. -/
theorem Unique.key_between {log front mid back : List Event} {c : UInt32} (h : Unique log)
    (hlog : log = front ++ .block c :: mid ++ .block c :: back) : .key ∈ mid := by
  subst hlog
  induction front with
  | nil =>
    have hnew : c ∉ used (mid ++ .block c :: back) := h.1
    clear h
    induction mid with
    | nil => exact absurd List.mem_cons_self hnew
    | cons e mid ih =>
      cases e with
      | key => exact List.mem_cons_self
      | block c' =>
        exact List.mem_cons_of_mem _ (ih (fun hc => hnew (List.mem_cons_of_mem _ hc)))
      | mix blocks => exact List.mem_cons_of_mem _ (ih hnew)
      | reseed => exact List.mem_cons_of_mem _ (ih hnew)
  | cons e front ih =>
    apply ih
    cases e with
    | block c' => exact h.2
    | key => exact h
    | mix blocks => exact h
    | reseed => exact h

/-- Between the logs `log` and `log'` the bytes were drawn: from blocks that are new, and that did
not become keys. -/
structure Draws (log log' : List Event) (bytes : List Byte) : Prop where
  calls : calls log ≤ calls log'
  fresh : ∀ b ∈ bytes, csprng.calls log ≤ b.block ∧ b.block < csprng.calls log' ∧
    b.block ∉ mixed log'
  mixed : ∀ i ∈ mixed log', i ∈ csprng.mixed log ∨ csprng.calls log ≤ i

variable {log log1 log2 : List Event} {bytes bytes' : List Byte} {s s' s1 s2 : State}
  {len depth : Nat} {mix : State → Result State}

theorem draws_nil (log : List Event) : Draws log log [] where
  calls := Nat.le_refl _
  fresh := by simp
  mixed := fun _ hi => .inl hi

/-- An event that is no block draws nothing. -/
theorem draws_event {e : Event} (log : List Event) (he : e = .key ∨ e = .reseed) :
    Draws log (e :: log) [] := by
  rcases he with rfl | rfl
  · exact ⟨Nat.le_refl _, by simp, fun _ hi => .inl hi⟩
  · exact ⟨Nat.le_refl _, by simp, fun _ hi => .inl hi⟩

theorem Draws.append (h : Draws log log1 bytes) (h' : Draws log1 log2 bytes') :
    Draws log log2 (bytes ++ bytes') where
  calls := h.calls.trans h'.calls
  fresh := by
    intro b hb
    rcases List.mem_append.mp hb with hb | hb
    · obtain ⟨hlo, hhi, hnot⟩ := h.fresh b hb
      refine ⟨hlo, hhi.trans_le h'.calls, ?_⟩
      intro hmix
      rcases h'.mixed _ hmix with hold | hnew
      · exact hnot hold
      · omega
    · obtain ⟨hlo, hhi, hnot⟩ := h'.fresh b hb
      exact ⟨h.calls.trans hlo, hhi, hnot⟩
  mixed := by
    intro i hi
    rcases h'.mixed i hi with hold | hnew
    · exact h.mixed i hold
    · exact .inr (h.calls.trans hnew)

/-- Bytes that nobody keeps. -/
theorem Draws.forget (h : Draws log log1 bytes) : Draws log log1 [] :=
  ⟨h.calls, by simp, h.mixed⟩

/-! ## The invariant -/

/-- What holds at every time. -/
structure Sound (s : State) : Prop where
  words : s.internal_chacha_block.length = 16
  pool : ∃ s0 m, s.hash_pool.Holds s0 m
  unique : Unique s.log
  mixed : ∀ i ∈ mixed s.log, i < calls s.log

/-- The next counter is new for the key. -/
structure Ready (s : State) : Prop extends Sound s where
  below : ∀ c ∈ used s.log, c.toNat < s.count.toNat

/-- What holds between two calls: there is a new counter, and another one behind it for the block
that gives the next key. -/
structure Good (s : State) : Prop extends Ready s where
  count : s.count.toNat < 2 ^ 32 - 1

/-- What a call that draws `bytes` leaves. -/
structure Gives (s s' : State) (bytes : List Byte) : Prop where
  good : Good s'
  draws : Draws s.log s'.log bytes
  size : s'.hash_pool_size = s.hash_pool_size
  reseeds : reseeds s'.log = reseeds s.log

theorem Good.gives_nil (h : Good s) : Gives s s [] := ⟨h, draws_nil _, rfl, rfl⟩

theorem Gives.append (h : Gives s s1 bytes) (h' : Gives s1 s2 bytes') :
    Gives s s2 (bytes ++ bytes') where
  good := h'.good
  draws := h.draws.append h'.draws
  size := h'.size.trans h.size
  reseeds := h'.reseeds.trans h.reseeds

/-- Bytes that nobody keeps. -/
theorem Gives.forget (h : Gives s s1 bytes) : Gives s s1 [] :=
  ⟨h.good, h.draws.forget, h.size, h.reseeds⟩

/-! ## One block -/

theorem set_count_count (h : s.internal_chacha_block.length = 16) (c : UInt32) :
    (s.set_count c).count = c := by
  unfold State.count State.set_count COUNT
  simp [h]

/-- The state after a block was drawn. -/
def State.drawn (s : State) : State := s.draw.2.set_count (s.draw.2.count + 1)

@[simp] theorem drawn_log (s : State) : s.drawn.log = .block s.count :: s.log := rfl

@[simp] theorem drawn_hash_pool (s : State) : s.drawn.hash_pool = s.hash_pool := rfl

theorem drawn_count (h : s.internal_chacha_block.length = 16) : s.drawn.count = s.count + 1 :=
  set_count_count h _

theorem draw_length (s : State) : s.draw.1.length = BLOCK_SIZE := by
  unfold State.draw chacha_block
  simp [bytes32, List.length_flatMap, BLOCK_SIZE, Function.comp_def]

theorem draw_block (s : State) {b : Byte} (hb : b ∈ s.draw.1) : b.block = calls s.log := by
  unfold State.draw at hb
  obtain ⟨v, -, rfl⟩ := List.mem_map.mp hb
  rfl

theorem Ready.new (h : Ready s) : s.count ∉ used s.log :=
  fun hc => Nat.lt_irrefl _ (h.below _ hc)

theorem Ready.drawn (h : Ready s) : Sound s.drawn where
  words := by
    unfold State.drawn State.set_count
    rw [List.length_set]
    exact h.words
  pool := h.pool
  unique := ⟨h.new, h.unique⟩
  mixed := fun i hi => Nat.lt_succ_of_lt (h.mixed i hi)

theorem Good.next (h : Good s) : (s.count + 1).toNat = s.count.toNat + 1 := by
  have hlt := h.count
  have hone : (1 : UInt32).toNat = 1 := rfl
  rw [UInt32.toNat_add, hone]
  exact Nat.mod_eq_of_lt (by omega)

/-- Below the last counters, the state after a block is as good as the one before. -/
theorem Good.drawn (h : Good s) (hc : s.count ≠ COUNT_MAX - 1) : Good s.drawn := by
  have hne : s.count.toNat ≠ 2 ^ 32 - 2 := fun heq => hc (UInt32.toNat_inj.mp heq)
  have hlt := h.count
  have hnext : s.drawn.count.toNat = s.count.toNat + 1 := by
    rw [drawn_count h.words, h.next]
  refine ⟨⟨h.toReady.drawn, ?_⟩, ?_⟩
  · intro c hcu
    rcases List.mem_cons.mp hcu with rfl | hold
    · omega
    · have := h.below c hold
      omega
  · omega

/-- A counter that is skipped is never used. -/
theorem Good.advance (h : Good s) : Ready (s.set_count (s.count + 1)) := by
  refine ⟨⟨?_, h.pool, h.unique, h.mixed⟩, ?_⟩
  · unfold State.set_count
    rw [List.length_set]
    exact h.words
  · intro c hc
    have hold : c.toNat < s.count.toNat := h.below c hc
    rw [set_count_count h.words, h.next]
    omega

/-- Bytes of one block. -/
theorem Sound.draws (h : Sound s) (n : Nat) : Draws s.log s.drawn.log (s.draw.1.take n) where
  calls := Nat.le_succ _
  fresh := by
    intro b hb
    have hblock := draw_block s (List.mem_of_mem_take hb)
    refine ⟨hblock.ge, ?_, ?_⟩
    · rw [hblock]
      exact Nat.lt_succ_self _
    · intro hmix
      have := h.mixed _ hmix
      omega
  mixed := fun i hi => .inl hi

/-! ## A new key -/

/-- The state after `rand_data` became the key and the nonce. -/
def State.rekeyed (s : State) (rand_data : List Byte) : State :=
  let bytes := rand_data.map Byte.val
  let s := s.set_words KEY (KEY_SIZE / 4) bytes
  let s := s.add .key
  let s := s.set_words NONCE (NONCE_SIZE / 4) (bytes.drop KEY_SIZE)
  let s := s.add (.mix (rand_data.map Byte.block))
  s.set_count 0

theorem mix_with_eq {get_random : State → Nat → Result (List Byte × State)}
    (h : get_random s BLOCK_SIZE = .ok (bytes, s1)) :
    mix_with get_random s = .ok (s1.rekeyed bytes) := by
  unfold mix_with
  rw [h]
  rfl

theorem set_words_length (i n : Nat) (src : List UInt8)
    (h : i + n ≤ s.internal_chacha_block.length) :
    (s.set_words i n src).internal_chacha_block.length = s.internal_chacha_block.length := by
  unfold State.set_words
  apply ring.overwrite_length
  rw [List.length_map, List.length_range]
  exact h

/-- With a new key every counter is new again. -/
theorem Sound.rekeyed (h : Sound s) (hb : ∀ b ∈ bytes, b.block < calls s.log) :
    Good (s.rekeyed bytes) ∧ (s.rekeyed bytes).count = 0 := by
  have hkey := set_words_length (s := s) KEY (KEY_SIZE / 4) (bytes.map Byte.val)
    (by rw [h.words]; decide)
  have hnonce := set_words_length
    (s := (s.set_words KEY (KEY_SIZE / 4) (bytes.map Byte.val)).add .key) NONCE (NONCE_SIZE / 4)
    ((bytes.map Byte.val).drop KEY_SIZE) (by rw [State.add, hkey, h.words]; decide)
  have hwords := hnonce.trans (hkey.trans h.words)
  have hcount : (s.rekeyed bytes).count = 0 := set_count_count hwords 0
  refine ⟨⟨⟨⟨?_, h.pool, h.unique, ?_⟩, ?_⟩, ?_⟩, hcount⟩
  · unfold State.rekeyed State.set_count
    rw [List.length_set]
    exact hwords
  · intro i hi
    rcases List.mem_append.mp hi with hnew | hold
    · obtain ⟨b, hmem, rfl⟩ := List.mem_map.mp hnew
      exact hb b hmem
    · exact h.mixed i hold
  · intro c hc
    cases hc
  · rw [hcount]
    decide

theorem Sound.gives_rekeyed (h : Sound s1) (hdraws : Draws s.log s1.log bytes)
    (hsize : s1.hash_pool_size = s.hash_pool_size)
    (hreseeds : csprng.reseeds s1.log = csprng.reseeds s.log) :
    Gives s (s1.rekeyed bytes) [] where
  good := (h.rekeyed (fun b hb => (hdraws.fresh b hb).2.1)).1
  draws := by
    refine ⟨hdraws.calls, by simp, ?_⟩
    intro i hi
    rcases List.mem_append.mp hi with hnew | hold
    · obtain ⟨b, hmem, rfl⟩ := List.mem_map.mp hnew
      exact .inr (hdraws.fresh b hmem).1
    · exact hdraws.mixed i hold
  size := hsize
  reseeds := hreseeds

/-! ## The recursion -/

/-- One turn of the loop: with another key, when the counters run out, the next bytes are those of
one more block. -/
theorem get_random_loop_turn (hlen : len ≠ 0)
    (h : (if s.count = COUNT_MAX - 1 then mix (s.set_count (s.count + 1)) else .ok s) = .ok s1) :
    get_random_loop mix s len = (do
      let (rest, s2) ← get_random_loop mix s1.drawn (len - min BLOCK_SIZE len)
      .ok (s1.draw.1.take (min BLOCK_SIZE len) ++ rest, s2)) := by
  have hmin : (if BLOCK_SIZE < len then BLOCK_SIZE else len) = min BLOCK_SIZE len := by
    split <;> omega
  rw [get_random_loop, if_neg hlen]
  dsimp only
  by_cases hc : s.count = COUNT_MAX - 1
  · rw [if_pos hc] at h ⊢
    rw [h, ok_bind, hmin]
    rfl
  · rw [if_neg hc] at h ⊢
    cases h
    rw [ok_bind, hmin]
    rfl

/-- The last counter serves one block. -/
theorem get_random_loop_one (hc : s.count = COUNT_MAX) :
    get_random_loop mix s BLOCK_SIZE = .ok (s.draw.1.take BLOCK_SIZE, s.drawn) := by
  have hne : ¬ s.count = COUNT_MAX - 1 := by
    rw [hc]
    decide
  have hdone : get_random_loop mix s.drawn (BLOCK_SIZE - min BLOCK_SIZE BLOCK_SIZE) =
      .ok ([], s.drawn) := by
    rw [Nat.min_self, Nat.sub_self, get_random_loop, if_pos rfl]
  rw [get_random_loop_turn (by decide) (if_neg hne), hdone, ok_bind, Nat.min_self]
  dsimp only
  rw [List.append_nil]

/-- At the last counter `mix_chacha` gives a new key, and calls no deeper than once. -/
theorem mix_chacha_last (h : Ready s) (hc : s.count = COUNT_MAX) :
    ∃ s', mix_chacha (depth + 1) s = .ok s' ∧ Gives s s' [] ∧ s'.count = 0 := by
  have hdraws := h.draws BLOCK_SIZE
  refine ⟨_, mix_with_eq (get_random_loop_one hc), h.drawn.gives_rekeyed hdraws rfl rfl, ?_⟩
  exact (h.drawn.rekeyed (fun b hb => (hdraws.fresh b hb).2.1)).2

/-- A block below the last counters. -/
theorem Good.gives_drawn (h : Good s) (hc : s.count ≠ COUNT_MAX - 1) (n : Nat) :
    Gives s s.drawn (s.draw.1.take n) where
  good := h.drawn hc
  draws := h.draws n
  size := rfl
  reseeds := rfl

theorem get_random_loop.spec
    (hmix : ∀ s, Ready s → s.count = COUNT_MAX →
      ∃ s', mix s = .ok s' ∧ Gives s s' [] ∧ s'.count = 0)
    (h : Good s) :
    ∃ bytes s', get_random_loop mix s len = .ok (bytes, s') ∧ bytes.length = len ∧
      Gives s s' bytes := by
  induction len using Nat.strongRecOn generalizing s with
  | ind len ih =>
    by_cases hlen : len = 0
    · subst hlen
      refine ⟨[], s, ?_, rfl, h.gives_nil⟩
      rw [get_random_loop, if_pos rfl]
    · have hready : ∃ s1, (if s.count = COUNT_MAX - 1 then mix (s.set_count (s.count + 1))
          else .ok s) = .ok s1 ∧ Gives s s1 [] ∧ s1.count ≠ COUNT_MAX - 1 := by
        by_cases hc : s.count = COUNT_MAX - 1
        · rw [if_pos hc]
          have hlast : (s.set_count (s.count + 1)).count = COUNT_MAX := by
            rw [set_count_count h.words, hc]
            decide
          obtain ⟨s1, hs1, hgives, hzero⟩ := hmix _ h.advance hlast
          refine ⟨s1, hs1, ⟨hgives.good, hgives.draws, hgives.size, hgives.reseeds⟩, ?_⟩
          rw [hzero]
          decide
        · rw [if_neg hc]
          exact ⟨s, rfl, h.gives_nil, hc⟩
      obtain ⟨s1, hs1, hgives, hc⟩ := hready
      have hpos : 0 < min BLOCK_SIZE len := by
        unfold BLOCK_SIZE
        omega
      have hblock := hgives.good.gives_drawn hc (min BLOCK_SIZE len)
      obtain ⟨rest, s2, hrest, hlength, hgives2⟩ :=
        ih (len - min BLOCK_SIZE len) (by omega) hblock.good
      refine ⟨s1.draw.1.take (min BLOCK_SIZE len) ++ rest, s2, ?_, ?_, ?_⟩
      · rw [get_random_loop_turn hlen hs1, hrest]
        rfl
      · rw [List.length_append, List.length_take, draw_length, hlength]
        omega
      · exact hgives.append (hblock.append hgives2)

/-- Two calls deep the recursion ends. -/
theorem csprng_get_random.spec (h : Good s) (hdepth : 2 ≤ depth) (len : Nat) :
    ∃ bytes s', csprng_get_random depth s len = .ok (bytes, s') ∧ bytes.length = len ∧
      Gives s s' bytes := by
  obtain ⟨d, rfl⟩ : ∃ d, depth = d + 2 := ⟨depth - 2, by omega⟩
  apply get_random_loop.spec _ h
  intro s hs hc
  exact mix_chacha_last hs hc

theorem mix_chacha.spec (h : Good s) (hdepth : 2 ≤ depth) :
    ∃ s', mix_chacha depth s = .ok s' ∧ Gives s s' [] := by
  obtain ⟨bytes, s1, hs1, -, hgives⟩ := csprng_get_random.spec h hdepth BLOCK_SIZE
  exact ⟨_, mix_with_eq hs1,
    hgives.good.gives_rekeyed hgives.draws hgives.size hgives.reseeds⟩

/-! ## The pool -/

/-- A change of the pool is none of the generator. -/
theorem Good.with_pool (h : Good s) {pool : SHA1_CTX} (hpool : ∃ s0 m, pool.Holds s0 m) :
    Good { s with hash_pool := pool } :=
  ⟨⟨⟨h.words, hpool, h.unique, h.mixed⟩, h.below⟩, h.count⟩

/-- A key that is written between two blocks makes each counter new. -/
theorem Good.keyed (h : Good s) (i : Nat) (src : List UInt8) (hi : i + 8 ≤ COUNT) :
    Good ((s.set_words i 8 src).add .key) := by
  have hlen : ((List.range 8).map fun j => load32 src (4 * j)).length = 8 := by simp
  have hcount : (s.set_words i 8 src).count = s.count := by
    unfold State.count State.set_words
    unfold COUNT at hi ⊢
    dsimp only
    rw [List.getD_eq_getElem?_getD, List.getD_eq_getElem?_getD,
      ring.overwrite_outside _ _ _ _ (by rw [hlen, h.words]; omega) (by rw [hlen]; omega)]
  refine ⟨⟨⟨?_, h.pool, h.unique, h.mixed⟩, ?_⟩, ?_⟩
  · have hwords := set_words_length (s := s) i 8 src
      (by rw [h.words]; unfold COUNT at hi; omega)
    exact hwords.trans h.words
  · intro c hc
    cases hc
  · have := h.count
    rw [← hcount] at this
    exact this

/-- A reseed ends, and counts as one. -/
theorem add_hash_pool.spec (h : Good s) (hdepth : 2 ≤ depth) :
    ∃ s', add_hash_pool depth s = .ok s' ∧ Good s' ∧ Draws s.log s'.log [] ∧
      s'.hash_pool_size = s.hash_pool_size ∧ reseeds s'.log = reseeds s.log + 1 := by
  have hstart : Good (s.add .reseed) :=
    ⟨⟨⟨h.words, h.pool, h.unique, h.mixed⟩, h.below⟩, h.count⟩
  obtain ⟨key, s1, hs1, -, h1⟩ := csprng_get_random.spec hstart hdepth KEY_SIZE
  obtain ⟨s0, m, hpool⟩ := h1.good.pool
  obtain ⟨ctx, hfinal⟩ := SHA1_Final.spec hpool
  have hdigest :
      0 + (streaming.absorb 64 fips.compress s0 (fips.pad m)).digest.length < 2 ^ 64 := by
    rw [fips.digest_length]
    decide
  obtain ⟨ctx1, hctx1, hholds1⟩ := SHA1_Update.spec holds_init hdigest
  obtain ⟨block, s2, hs2, hblock, h2⟩ := csprng_get_random.spec h1.good hdepth BLOCK_SIZE
  have hroom : ctx1.active_len + (block.map Byte.val).length < 2 ^ 64 := by
    have hactive : ctx1.active_len < 64 := hholds1.active
    rw [List.length_map, hblock]
    unfold BLOCK_SIZE
    omega
  obtain ⟨ctx2, hctx2, hholds2⟩ := SHA1_Update.spec hholds1 hroom
  have hkeyed := (h2.good.with_pool ⟨_, _, hholds2⟩).keyed KEY
    (xor_hash (key.map Byte.val) (streaming.absorb 64 fips.compress s0 (fips.pad m)).digest)
    (by decide)
  obtain ⟨s', hs', h'⟩ := mix_chacha.spec hkeyed hdepth
  have hsum := (h1.append h2).forget
  refine ⟨s', ?_, h'.good, ?_, ?_, ?_⟩
  · unfold add_hash_pool
    dsimp only
    rw [hs1, ok_bind]
    dsimp only
    rw [hfinal, ok_bind]
    dsimp only
    rw [hctx1, ok_bind, hs2, ok_bind]
    dsimp only
    rw [hctx2, ok_bind]
    exact hs'
  · have hreseed := draws_event s.log (.inr rfl)
    have hkey := draws_event s2.log (.inl rfl)
    exact ((hreseed.append hsum.draws).append hkey).append h'.draws
  · rw [h'.size]
    exact h2.size.trans h1.size
  · rw [h'.reseeds]
    exact h2.reseeds.trans h1.reseeds

/-- The pool takes the entropy, and is drained when the counter says that it is full. -/
theorem csprng_add_entropy.spec (h : Good s) (hdepth : 2 ≤ depth) (buffer : List UInt8)
    (hu64 : buffer.length < 2 ^ 64) :
    Spec (csprng_add_entropy depth s buffer)
      (fun e => e = .fault ∧ 2 ^ 64 < buffer.length + 64) fun s' =>
      Good s' ∧ Draws s.log s'.log [] ∧
      s'.hash_pool_size = (s.hash_pool_size + buffer.length) % 2 ^ 32 ∧
      reseeds s'.log = reseeds s.log +
        if HASH_LEN * 2 ≤ (s.hash_pool_size + buffer.length) % 2 ^ 32 then 1 else 0 := by
  obtain ⟨s0, m, hpool⟩ := h.pool
  unfold csprng_add_entropy
  have hshort : (bytes64 s.entropy_fast_state).length = 8 := by simp [bytes64]
  refine spec_bind (spec_mono (SHA1_Update.keeps hpool (by omega)) (by omega) fun _ hp => hp) ?_
  intro pool1 hpool1
  refine spec_bind (SHA1_Update.keeps hpool1 hu64) ?_
  intro pool2 hpool2
  dsimp only
  have hgood : Good { s with
      hash_pool := pool2, entropy_fast_state := xorshift64 s.entropy_fast_state
      hash_pool_size := (s.hash_pool_size + buffer.length) % 2 ^ 32 } :=
    ⟨⟨⟨h.words, ⟨_, _, hpool2⟩, h.unique, h.mixed⟩, h.below⟩, h.count⟩
  by_cases hfull : HASH_LEN * 2 ≤ (s.hash_pool_size + buffer.length) % 2 ^ 32
  · rw [if_pos hfull, if_pos hfull]
    obtain ⟨s', hs', hgood', hdraws, hsize, hreseeds⟩ := add_hash_pool.spec hgood hdepth
    rw [hs']
    exact ⟨hgood', hdraws, hsize, hreseeds⟩
  · rw [if_neg hfull, if_neg hfull]
    exact ⟨hgood, draws_nil _, rfl, rfl⟩

end salsola.csprng
