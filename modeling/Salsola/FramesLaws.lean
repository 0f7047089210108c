-- The laws of the frame bitmap. The mask `1 << offset` of a frame covers the
-- bits of other frames, so a frame has its own bit only now and then. But a
-- frame that is marked is tested as taken for ever, so no frame is handed out
-- twice.
import Salsola.Frames
import Salsola.Lib.FirstRun

open outcome runs

namespace salsola.mmu

/-! ## Which bits the mask of a frame covers -/

/-- The own bit of frame `f`: one bit per frame. -/
def bit (frames : Frames) (f : Nat) : Bool := (frames (f / 64)).getLsbD (f % 64)

/-- The mask of frame `f` has the own bit of frame `g`. -/
def Covers (f g : Nat) : Prop :=
  f / 64 = g / 64 ∧ (g % 64 = f % 32 ∨ (f % 32 = 31 ∧ 31 ≤ g % 64))

instance (f g : Nat) : Decidable (Covers f g) := by unfold Covers; infer_instance

/-- The test of `get_frame`: frame `f` counts as taken. -/
def taken (frames : Frames) (f : Nat) : Prop := frames (f / 64) &&& shift_one (f % 64) ≠ 0

instance (frames : Frames) (f : Nat) : Decidable (taken frames f) := by
  unfold taken; infer_instance

theorem shift_one_bit (offset k : Nat) (hk : k < 64) :
    (shift_one offset).getLsbD k = true ↔
      k = offset % 32 ∨ (offset % 32 = 31 ∧ 31 ≤ k) := by
  have hlt : offset % 32 < 32 := Nat.mod_lt _ (by omega)
  unfold shift_one
  generalize offset % 32 = o at hlt
  rw [BitVec.getLsbD_signExtend]
  simp only [hk, decide_true, Bool.true_and]
  by_cases hk32 : k < 32
  · simp only [hk32, if_true, BitVec.getLsbD_shiftLeft, BitVec.getLsbD_one, Bool.and_eq_true,
      decide_eq_true_eq, Bool.not_eq_true', decide_eq_false_iff_not, true_and]
    omega
  · simp only [hk32, if_false, BitVec.msb_eq_getLsbD_last, BitVec.getLsbD_shiftLeft,
      BitVec.getLsbD_one, Bool.and_eq_true, decide_eq_true_eq, Bool.not_eq_true',
      decide_eq_false_iff_not]
    omega

theorem covers_iff (f g : Nat) :
    Covers f g ↔ f / 64 = g / 64 ∧ (shift_one (f % 64)).getLsbD (g % 64) = true := by
  rw [shift_one_bit _ _ (Nat.mod_lt _ (by omega))]
  unfold Covers
  omega

theorem taken_iff (frames : Frames) (f : Nat) :
    taken frames f ↔ ∃ g, Covers f g ∧ bit frames g = true := by
  unfold taken
  constructor
  · intro h
    obtain ⟨k, hk⟩ : ∃ k, (frames (f / 64) &&& shift_one (f % 64)).getLsbD k = true := by
      by_contra hnone
      apply h
      rw [show (0 : BitVec 64) = 0#64 from rfl, BitVec.zero_iff_eq_false]
      intro i
      by_contra hi
      exact hnone ⟨i, by simpa using hi⟩
    have hk64 : k < 64 := BitVec.lt_of_getLsbD hk
    rw [BitVec.getLsbD_and, Bool.and_eq_true] at hk
    have hdiv : (f / 64 * 64 + k) / 64 = f / 64 := by omega
    have hmod : (f / 64 * 64 + k) % 64 = k := by omega
    refine ⟨f / 64 * 64 + k, ?_, ?_⟩
    · rw [covers_iff, hdiv, hmod]
      exact ⟨rfl, hk.2⟩
    · unfold bit
      rw [hdiv, hmod]
      exact hk.1
  · rintro ⟨g, hcov, hbit⟩ hzero
    rw [covers_iff] at hcov
    unfold bit at hbit
    have : (frames (f / 64) &&& shift_one (f % 64)).getLsbD (g % 64) = true := by
      rw [BitVec.getLsbD_and, hcov.2, hcov.1, hbit]
      rfl
    rw [hzero] at this
    simp at this

/-- A frame covers itself, or the frame 32 before it. -/
theorem covers_some (f : Nat) : Covers f (f / 64 * 64 + f % 32) := by
  unfold Covers
  omega

/-! ## What the functions do to the bits -/

theorem bit_set (frames : Frames) (index : Nat) (word : BitVec 64) (g : Nat) :
    bit (frames.set index word) g =
      if g / 64 = index then word.getLsbD (g % 64) else bit frames g := by
  unfold bit Frames.set
  split <;> rfl

/-- `set_frame` gives the new state to every bit that the mask of the frame covers. -/
theorem set_frame_bit (frames : Frames) (a g : Nat) (state : Bool)
    (h : a / 0x1000 < NUM_OF_FRAMES * 64) :
    (set_frame frames a state).1 = true ∧
      bit (set_frame frames a state).2 g =
        if Covers (a / 0x1000) g then state else bit frames g := by
  have hindex : ¬ NUM_OF_FRAMES ≤ a / 0x1000 / 64 := by omega
  have hg : g % 64 < 64 := Nat.mod_lt _ (by omega)
  unfold set_frame
  simp only [hindex, if_false]
  by_cases hword : g / 64 = a / 0x1000 / 64
  · have hcov : Covers (a / 0x1000) g ↔ (shift_one (a / 0x1000 % 64)).getLsbD (g % 64) = true := by
      rw [covers_iff]
      exact and_iff_right hword.symm
    have hbit : bit frames g = (frames (a / 0x1000 / 64)).getLsbD (g % 64) := by
      rw [← hword]
      rfl
    by_cases hc : Covers (a / 0x1000) g
    · have hmask := hcov.mp hc
      cases state
      · simp only [Bool.false_eq_true, if_false, if_pos hc, bit_set, if_pos hword,
          BitVec.getLsbD_and, BitVec.getLsbD_not, hmask, Bool.not_true, Bool.and_false, and_self]
      · simp only [if_true, if_pos hc, bit_set, if_pos hword, BitVec.getLsbD_or, hmask,
          Bool.or_true, and_self]
    · have hmask : (shift_one (a / 0x1000 % 64)).getLsbD (g % 64) = false := by
        rw [← Bool.not_eq_true, ← hcov]
        exact hc
      cases state
      · simp only [Bool.false_eq_true, if_false, if_neg hc, bit_set, if_pos hword,
          BitVec.getLsbD_and, BitVec.getLsbD_not, hmask, hg, decide_true, Bool.not_false,
          Bool.and_true, hbit, and_self]
      · simp only [if_true, if_neg hc, bit_set, if_pos hword, BitVec.getLsbD_or, hmask,
          Bool.or_false, hbit, and_self]
  · have hcov : ¬ Covers (a / 0x1000) g := fun h => hword h.1.symm
    cases state
    · simp only [Bool.false_eq_true, if_false, if_neg hcov, bit_set, if_neg hword, and_self]
    · simp only [if_true, if_neg hcov, bit_set, if_neg hword, and_self]

theorem set_frame_outside (frames : Frames) (a : Nat) (state : Bool)
    (h : ¬ a / 0x1000 < NUM_OF_FRAMES * 64) : set_frame frames a state = (false, frames) := by
  have hindex : NUM_OF_FRAMES ≤ a / 0x1000 / 64 := by omega
  unfold set_frame
  simp [hindex]

/-- A frame that is marked counts as taken. -/
theorem taken_set_frame (frames : Frames) (a : Nat) (h : a / 0x1000 < NUM_OF_FRAMES * 64) :
    taken (set_frame frames a true).2 (a / 0x1000) := by
  rw [taken_iff]
  refine ⟨_, covers_some _, ?_⟩
  rw [(set_frame_bit frames a _ true h).2, if_pos (covers_some _)]

/-- Marking a frame frees no frame. -/
theorem taken_mono (frames : Frames) (a f : Nat) (h : taken frames f) :
    taken (set_frame frames a true).2 f := by
  by_cases ha : a / 0x1000 < NUM_OF_FRAMES * 64
  · rw [taken_iff] at h ⊢
    obtain ⟨g, hcov, hbit⟩ := h
    refine ⟨g, hcov, ?_⟩
    rw [(set_frame_bit frames a g true ha).2, hbit]
    simp
  · rw [set_frame_outside _ _ _ ha]
    exact h

theorem mark_frames_bit (frames : Frames) (r count g : Nat)
    (h : r + count ≤ NUM_OF_FRAMES * 64) :
    bit (mark_frames frames (r * 0x1000) count) g = true ↔
      bit frames g = true ∨ ∃ f, r ≤ f ∧ f < r + count ∧ Covers f g := by
  induction count generalizing frames r with
  | zero =>
    simp only [mark_frames, Nat.add_zero]
    constructor
    · exact Or.inl
    · rintro (h | ⟨f, h1, h2, _⟩)
      · exact h
      · omega
  | succ count ih =>
    have hr : r * 0x1000 / 0x1000 = r := by omega
    have hnext : r * 0x1000 + PAGE_SIZE = (r + 1) * 0x1000 := by unfold PAGE_SIZE; omega
    unfold mark_frames
    rw [hnext, ih _ _ (by omega), (set_frame_bit _ _ _ _ (by omega)).2, hr]
    constructor
    · rintro (hbit | ⟨f, h1, h2, hcov⟩)
      · split at hbit
        · rename_i hcov
          exact Or.inr ⟨r, le_refl r, by omega, hcov⟩
        · exact Or.inl hbit
      · exact Or.inr ⟨f, by omega, by omega, hcov⟩
    · rintro (hbit | ⟨f, h1, h2, hcov⟩)
      · exact Or.inl (by split <;> simp [hbit])
      · by_cases hf : f = r
        · exact Or.inl (by rw [if_pos (hf ▸ hcov)])
        · exact Or.inr ⟨f, by omega, by omega, hcov⟩

theorem taken_mark_frames (frames : Frames) (r count f : Nat)
    (h : r + count ≤ NUM_OF_FRAMES * 64) (hf : taken frames f ∨ (r ≤ f ∧ f < r + count)) :
    taken (mark_frames frames (r * 0x1000) count) f := by
  rw [taken_iff]
  rcases hf with hf | ⟨h1, h2⟩
  · rw [taken_iff] at hf
    obtain ⟨g, hcov, hbit⟩ := hf
    exact ⟨g, hcov, (mark_frames_bit _ _ _ _ h).mpr (Or.inl hbit)⟩
  · exact ⟨_, covers_some f, (mark_frames_bit _ _ _ _ h).mpr (Or.inr ⟨f, h1, h2, covers_some f⟩)⟩

/-! ## The search -/

/-- A frame that `get_frame` may hand out. -/
def untaken (frames : Frames) (f : Nat) : Prop := ¬ taken frames f

/-- The address that a scan keeps is the start of its run. -/
def RcAt (count p left rc : Nat) : Prop := left < count → rc + count * 0x1000 = (p + left) * 0x1000

theorem scan_word_spec (frames : Frames) (count i todo left rc : Nat) (hi : i < NUM_OF_FRAMES)
    (htodo : todo ≤ 64) (h : Scanned (untaken frames) count (i * 64 + (64 - todo)) left)
    (hrc : RcAt count (i * 64 + (64 - todo)) left rc) :
    match scan_word frames count i todo left rc with
    | .found rc => ∃ r, rc = r * 0x1000 ∧ FirstRun (untaken frames) (NUM_OF_FRAMES * 64) r count
    | .going left rc => Scanned (untaken frames) count (i * 64 + 64) left ∧
        RcAt count (i * 64 + 64) left rc := by
  induction todo generalizing left rc with
  | zero => exact ⟨h, hrc⟩
  | succ todo ih =>
    have hnext : i * 64 + (64 - (todo + 1)) + 1 = i * 64 + (64 - todo) := by omega
    have hword : (i * 64 + (64 - (todo + 1))) / 64 = i := by omega
    have hoff : (i * 64 + (64 - (todo + 1))) % 64 = 64 - (todo + 1) := by omega
    have htest : frames i &&& shift_one (64 - (todo + 1)) ≠ 0 ↔
        taken frames (i * 64 + (64 - (todo + 1))) := by
      unfold taken
      rw [hword, hoff]
    have hbelow : i * 64 + (64 - (todo + 1)) < NUM_OF_FRAMES * 64 := by omega
    unfold scan_word
    simp only
    generalize i * 64 + (64 - (todo + 1)) = p at *
    by_cases htaken : taken frames p
    · rw [if_pos (htest.mpr htaken)]
      refine ih _ _ (by omega) ?_ ?_
      · rw [← hnext]
        exact h.skip (fun hfree => hfree htaken)
      · intro hlt
        omega
    · rw [if_neg (fun ht => htaken (htest.mp ht))]
      have hle := h.le
      have hpos := h.pos
      have hfits := h.fits
      -- the address that the turn keeps
      have hrc' : (if left = count then p * 0x1000 else rc) + count * 0x1000 =
          (p + left) * 0x1000 := by
        split
        · omega
        · exact hrc (by omega)
      generalize (if left = count then p * 0x1000 else rc) = rc' at *
      by_cases h1 : left = 1
      · subst h1
        rw [if_pos (by rfl)]
        exact ⟨p + 1 - count, by omega, h.found htaken rfl hbelow⟩
      · rw [if_neg (by omega)]
        refine ih _ _ (by omega) ?_ ?_
        · rw [← hnext]
          exact h.count htaken (by omega)
        · rw [← hnext]
          intro _
          have hsum : p + 1 + (left - 1) = p + left := by omega
          rw [hsum]
          exact hrc'

/-- A word with all bits set has no frame that is free. -/
theorem full_word_taken (frames : Frames) (i : Nat) (h : BitVec.allOnes 64 = frames i) (f : Nat)
    (hf : f / 64 = i) : taken frames f := by
  rw [taken_iff]
  refine ⟨_, covers_some f, ?_⟩
  have hdiv : (f / 64 * 64 + f % 32) / 64 = i := by omega
  unfold bit
  rw [hdiv, ← h, BitVec.getLsbD_allOnes]
  simp only [decide_eq_true_eq]
  omega

theorem scan_words_spec (frames : Frames) (count todo left rc : Nat) (htodo : todo ≤ NUM_OF_FRAMES)
    (h : Scanned (untaken frames) count ((NUM_OF_FRAMES - todo) * 64) left)
    (hrc : RcAt count ((NUM_OF_FRAMES - todo) * 64) left rc) :
    match scan_words frames count todo left rc with
    | some rc => ∃ r, rc = r * 0x1000 ∧ FirstRun (untaken frames) (NUM_OF_FRAMES * 64) r count
    | none => ∀ r, r + count ≤ NUM_OF_FRAMES * 64 → ¬ IsRun (untaken frames) r count := by
  induction todo generalizing left rc with
  | zero => exact fun r hr => h.no_run hr
  | succ todo ih =>
    have hnext : (NUM_OF_FRAMES - (todo + 1)) * 64 + 64 = (NUM_OF_FRAMES - todo) * 64 := by omega
    unfold scan_words
    simp only
    by_cases hfull : BitVec.allOnes 64 = frames (NUM_OF_FRAMES - (todo + 1))
    · rw [if_pos hfull]
      refine ih count rc (by omega) ?_ ?_
      · rw [← hnext]
        apply h.skip_all 64 (by omega)
        intro k h1 h2 hfree
        exact hfree (full_word_taken frames _ hfull k (by omega))
      · intro hlt
        omega
    · rw [if_neg hfull]
      have hw := scan_word_spec frames count (NUM_OF_FRAMES - (todo + 1)) 64 left rc (by omega)
        (le_refl 64) h hrc
      cases hscan : scan_word frames count (NUM_OF_FRAMES - (todo + 1)) 64 left rc with
      | found rc' =>
        rw [hscan] at hw
        exact hw
      | going left' rc' =>
        rw [hscan, hnext] at hw
        exact ih _ _ (by omega) hw.1 hw.2

/-- `get_frame` hands out the first run of frames that its test lets pass, and marks it. -/
theorem get_frame.spec (frames : Frames) (count : Nat) :
    match get_frame frames true count with
    | .ok (rc, frames') => ∃ r, rc = r * 0x1000 ∧ 0 < count ∧
        FirstRun (untaken frames) (NUM_OF_FRAMES * 64) r count ∧
        frames' = mark_frames frames (r * 0x1000) count
    | .error e => e = .assert ∧ (0 < count →
        ∀ r, r + count ≤ NUM_OF_FRAMES * 64 → ¬ IsRun (untaken frames) r count) := by
  unfold get_frame
  by_cases h0 : count = 0
  · subst h0
    simp [assert]
  · rw [assert_of (Ne.symm h0), ok_bind]
    have hscan := scan_words_spec frames count NUM_OF_FRAMES count 0 (le_refl _)
      (by rw [Nat.sub_self, Nat.zero_mul]; exact scanned_start (by omega)) (fun hlt => by omega)
    cases hs : scan_words frames count NUM_OF_FRAMES count 0 with
    | none =>
      rw [hs] at hscan
      exact ⟨rfl, fun _ => hscan⟩
    | some rc =>
      rw [hs] at hscan
      obtain ⟨r, rfl, hfirst⟩ := hscan
      exact ⟨r, rfl, by omega, hfirst, rfl⟩

/-! ## No frame is handed out twice -/

/-- Frames that one call hands out are taken in the bitmap that it leaves, and frames that
were taken stay taken. -/
theorem get_frame_taken {frames frames' : Frames} {count rc : Nat}
    (h : get_frame frames true count = .ok (rc, frames')) :
    ∃ r, rc = r * 0x1000 ∧ 0 < count ∧ r + count ≤ NUM_OF_FRAMES * 64 ∧
      (∀ f, r ≤ f → f < r + count → ¬ taken frames f) ∧
      (∀ f, taken frames f ∨ (r ≤ f ∧ f < r + count) → taken frames' f) := by
  have hspec := get_frame.spec frames count
  rw [h] at hspec
  obtain ⟨r, hrc, hcount, hfirst, rfl⟩ := hspec
  exact ⟨r, hrc, hcount, hfirst.below, hfirst.run,
    fun f hf => taken_mark_frames _ _ _ _ hfirst.below hf⟩

/-- Two ranges of frames share no frame. -/
def Apart (a b : Nat × Nat) : Prop := a.1 + a.2 ≤ b.1 ∨ b.1 + b.2 ≤ a.1

/-- Whatever comes later, a frame that is taken is not handed out. -/
theorem hand_out_untaken (frames : Frames) (counts : List Nat) :
    ∀ x ∈ hand_out frames counts, 0 < x.2 ∧ x.1 + x.2 ≤ NUM_OF_FRAMES * 64 ∧
      ∀ f, x.1 ≤ f → f < x.1 + x.2 → ¬ taken frames f := by
  induction counts generalizing frames with
  | nil => simp [hand_out]
  | cons count counts ih =>
    unfold hand_out
    cases hget : get_frame frames true count with
    | error e => exact ih frames
    | ok p =>
      obtain ⟨rc, frames'⟩ := p
      obtain ⟨r, rfl, hcount, hbelow, hfree, htaken⟩ := get_frame_taken hget
      have hr : r * 0x1000 / PAGE_SIZE = r := by unfold PAGE_SIZE; omega
      intro x hx
      rcases List.mem_cons.mp hx with rfl | hx
      · rw [hr]
        exact ⟨hcount, hbelow, hfree⟩
      · obtain ⟨hpos, hb, hun⟩ := ih frames' x hx
        exact ⟨hpos, hb, fun f h1 h2 ht => hun f h1 h2 (htaken f (Or.inl ht))⟩

/-- For every bitmap and every sequence of calls, the ranges of frames that `get_frame`
hands out share no frame, and they lie in the bitmap. -/
theorem no_frame_is_handed_out_twice (frames : Frames) (counts : List Nat) :
    (hand_out frames counts).Pairwise Apart ∧
      ∀ x ∈ hand_out frames counts, x.1 + x.2 ≤ 16384 := by
  refine ⟨?_, fun x hx => (hand_out_untaken frames counts x hx).2.1⟩
  induction counts generalizing frames with
  | nil => simp [hand_out]
  | cons count counts ih =>
    unfold hand_out
    cases hget : get_frame frames true count with
    | error e => exact ih frames
    | ok p =>
      obtain ⟨rc, frames'⟩ := p
      obtain ⟨r, rfl, hcount, hbelow, hfree, htaken⟩ := get_frame_taken hget
      have hr : r * 0x1000 / PAGE_SIZE = r := by unfold PAGE_SIZE; omega
      refine List.pairwise_cons.mpr ⟨?_, ih frames'⟩
      intro x hx
      obtain ⟨hpos, _, hun⟩ := hand_out_untaken frames' counts x hx
      rw [hr]
      unfold Apart
      -- a frame in both ranges would be taken by the first call, and handed out later
      by_contra hshare
      have hin := htaken (max r x.1) (Or.inr ⟨by omega, by omega⟩)
      exact hun (max r x.1) (by omega) (by omega) hin

/-! ## When the bitmap is exact -/

/-- What one bit per frame asks of `set_frame`: it changes the bit of its frame, to
`state`, and no other. -/
def SetExact (frames : Frames) (a : Nat) (state : Bool) : Prop :=
  let (rc, frames') := set_frame frames a state
  (rc = true ↔ a / 4096 < 256 * 64) ∧
  ∀ f, f < 256 * 64 → bit frames' f = if f = a / 4096 then state else bit frames f

/-- Frame `f` is free by its own bit. -/
def clear (frames : Frames) (f : Nat) : Prop := bit frames f = false

/-- What one bit per frame asks of `get_frame`: the first run of frames whose own bits are
clear, with these bits set and no other, and the assert only when there is no run. -/
def GetExact (frames : Frames) (count : Nat) : Prop :=
  match get_frame frames true count with
  | .ok (rc, frames') => ∃ r, rc = 4096 * r ∧ FirstRun (clear frames) (256 * 64) r count ∧
      ∀ f, f < 256 * 64 →
        bit frames' f = (bit frames f || decide (r ≤ f ∧ f < r + count))
  | .error _ => ∀ r, r + count ≤ 256 * 64 → ¬ IsRun (clear frames) r count

/-- The frame has an offset below 31, or the bits that its mask gets wrong have the new
state already: the other bits from 31 to 63 for the offsets 31 and 63, and for the offsets
between them its own bit and the bit 32 before it. -/
def SetHolds (frames : Frames) (a : Nat) (state : Bool) : Prop :=
  let f := a / 4096
  256 * 64 ≤ f ∨ f % 64 < 31 ∨
  ((f % 64 = 31 ∨ f % 64 = 63) ∧
    ∀ k, 31 ≤ k → k < 64 → k ≠ f % 64 → bit frames (f / 64 * 64 + k) = state) ∨
  (31 < f % 64 ∧ f % 64 < 63 ∧ bit frames f = state ∧ bit frames (f - 32) = state)

/-- A run in the first 31 frames of one word, or from the start of a word to the first 31
frames of a word. -/
def WholeWords (r count : Nat) : Prop :=
  r % 64 + count ≤ 31 ∨ (r % 64 = 0 ∧ count % 64 ≤ 31)

/-- There is no run of `count` frames, neither by their own bits nor by the test. Or the
first run by the own bits is of whole words, and no run comes before it by the test. -/
def GetHolds (frames : Frames) (count : Nat) : Prop :=
  (∀ r, r + count ≤ 256 * 64 →
    ¬ IsRun (clear frames) r count ∧ ¬ IsRun (untaken frames) r count) ∨
  ∃ r, FirstRun (clear frames) (256 * 64) r count ∧ WholeWords r count ∧
    ∀ r', r' < r → ¬ IsRun (untaken frames) r' count

theorem set_exact_iff (frames : Frames) (a : Nat) (state : Bool) :
    SetExact frames a state ↔ SetHolds frames a state := by
  unfold SetExact
  by_cases ha : a / 4096 < 256 * 64
  · have hset := fun g => set_frame_bit frames a g state ha
    simp only
    constructor
    · rintro ⟨_, hbits⟩
      have hbit : ∀ g, g < 256 * 64 → (if Covers (a / 4096) g then state else bit frames g) =
          if g = a / 4096 then state else bit frames g := by
        intro g hg
        rw [← (hset g).2]
        exact hbits g hg
      unfold SetHolds
      generalize a / 4096 = f at *
      by_cases hlow : f % 64 < 31
      · exact Or.inr (Or.inl hlow)
      -- a bit that the mask covers besides the own one has the state already
      have hother : ∀ g, Covers f g → g ≠ f → bit frames g = state := by
        intro g hcov hne
        have hg : g < 256 * 64 := by
          have := hcov.1
          omega
        have := hbit g hg
        rw [if_pos hcov, if_neg hne] at this
        exact this.symm
      by_cases hwide : f % 64 = 31 ∨ f % 64 = 63
      · refine Or.inr (Or.inr (Or.inl ⟨hwide, ?_⟩))
        intro k h1 h2 hne
        apply hother
        · unfold Covers
          omega
        · omega
      · refine Or.inr (Or.inr (Or.inr ⟨by omega, by omega, ?_, ?_⟩))
        · have := hbit f ha
          rw [if_neg (by unfold Covers; omega), if_pos rfl] at this
          exact this
        · apply hother
          · unfold Covers
            omega
          · omega
    · intro hholds
      refine ⟨iff_of_true (hset 0).1 ha, ?_⟩
      intro g hg
      rw [(hset g).2]
      unfold SetHolds at hholds
      generalize a / 4096 = f at *
      by_cases hgf : g = f
      · subst hgf
        rw [if_pos rfl]
        split
        · rfl
        · rename_i hcov
          unfold Covers at hcov
          rcases hholds with h | h | h | h
          · omega
          · omega
          · omega
          · exact h.2.2.1
      · rw [if_neg hgf]
        split
        · rename_i hcov
          unfold Covers at hcov
          rcases hholds with h | h | h | h
          · omega
          · omega
          · have := h.2 (g % 64) (by omega) (by omega) (by omega)
            rw [show f / 64 * 64 + g % 64 = g by omega] at this
            exact this.symm
          · rw [show g = f - 32 by omega]
            exact h.2.2.2.symm
        · rfl
  · rw [set_frame_outside _ _ _ ha]
    simp only [ha, Bool.false_eq_true, true_and]
    constructor
    · intro _
      exact Or.inl (by omega)
    · intro _ g hg
      rw [if_neg (by omega)]

/-- In a run of whole words, the masks of the frames cover the bits of the run and no
other. -/
theorem wholeWords_covers {r count : Nat} (h : WholeWords r count) (g : Nat) :
    (∃ f, r ≤ f ∧ f < r + count ∧ Covers f g) ↔ r ≤ g ∧ g < r + count := by
  unfold WholeWords at h
  constructor
  · rintro ⟨f, h1, h2, hcov⟩
    unfold Covers at hcov
    omega
  · rintro ⟨h1, h2⟩
    by_cases hlow : g % 64 < 32
    · exact ⟨g, h1, h2, by unfold Covers; omega⟩
    · exact ⟨g / 64 * 64 + 31, by omega, by omega, by unfold Covers; omega⟩

/-- A run that holds every bit that its masks cover is of whole words. -/
theorem wholeWords_of_covers {r count : Nat} (hpos : 0 < count)
    (h : ∀ f g, r ≤ f → f < r + count → Covers f g → r ≤ g ∧ g < r + count) :
    WholeWords r count := by
  -- a frame at offset 31 or later brings in the bits from offset 31 on, and these the
  -- bits from offset 0 on
  have h31 : ∀ f, r ≤ f → f < r + count → 31 ≤ f % 64 →
      r ≤ f / 64 * 64 + 31 ∧ f / 64 * 64 + 31 < r + count := by
    intro f h1 h2 hf
    by_cases hwide : f % 64 = 31 ∨ f % 64 = 63
    · exact h f _ h1 h2 (by unfold Covers; omega)
    · have := h f (f - 32) h1 h2 (by unfold Covers; omega)
      omega
  have h63 : ∀ f, r ≤ f → f < r + count → 31 ≤ f % 64 → f / 64 * 64 + 63 < r + count := by
    intro f h1 h2 hf
    obtain ⟨h3, h4⟩ := h31 f h1 h2 hf
    exact (h _ (f / 64 * 64 + 63) h3 h4 (by unfold Covers; omega)).2
  have h0 : ∀ f, r ≤ f → f < r + count → 31 ≤ f % 64 → r ≤ f / 64 * 64 := by
    intro f h1 h2 hf
    obtain ⟨h3, h4⟩ := h31 f h1 h2 hf
    obtain ⟨h5, h6⟩ := h _ (f / 64 * 64 + 32) h3 h4 (by unfold Covers; omega)
    exact (h _ (f / 64 * 64) h5 h6 (by unfold Covers; omega)).1
  unfold WholeWords
  by_cases hshort : r % 64 + count ≤ 31
  · exact Or.inl hshort
  right
  have hr : r % 64 = 0 := by
    by_cases hlate : r % 64 ≤ 31
    · have := h0 (r / 64 * 64 + 31) (by omega) (by omega) (by omega)
      omega
    · have := h0 r (by omega) (by omega) (by omega)
      omega
  refine ⟨hr, ?_⟩
  by_contra hend
  have := h63 (r + count - 1) (by omega) (by omega) (by omega)
  omega

theorem isRun_untaken_of_clear {frames : Frames} {r count : Nat} (h : WholeWords r count)
    (hrun : IsRun (clear frames) r count) : IsRun (untaken frames) r count := by
  intro f h1 h2 htaken
  rw [taken_iff] at htaken
  obtain ⟨g, hcov, hbit⟩ := htaken
  obtain ⟨h3, h4⟩ := (wholeWords_covers h g).mp ⟨f, h1, h2, hcov⟩
  have := hrun g h3 h4
  unfold clear at this
  rw [this] at hbit
  cases hbit

theorem get_exact_iff (frames : Frames) (count : Nat) (h : 1 ≤ count) :
    GetExact frames count ↔ GetHolds frames count := by
  have hspec := get_frame.spec frames count
  unfold GetExact GetHolds
  cases hget : get_frame frames true count with
  | error e =>
    rw [hget] at hspec
    have hnone := hspec.2 h
    constructor
    · intro hexact
      exact Or.inl (fun r hr => ⟨hexact r hr, hnone r hr⟩)
    · rintro (hno | ⟨r, hfirst, hwhole, _⟩)
      · exact fun r hr => (hno r hr).1
      · exact absurd (isRun_untaken_of_clear hwhole hfirst.run) (hnone r hfirst.below)
  | ok p =>
    obtain ⟨rc, frames'⟩ := p
    rw [hget] at hspec
    obtain ⟨r, rfl, hcount, hfirst, rfl⟩ := hspec
    have hbit := fun g => mark_frames_bit frames r count g hfirst.below
    constructor
    · rintro ⟨r', hr', hclear, hbits⟩
      obtain rfl : r = r' := by omega
      refine Or.inr ⟨r, hclear, ?_, hfirst.first⟩
      apply wholeWords_of_covers hcount
      intro f g h1 h2 hcov
      have hg : g < 256 * 64 := by
        have h3 := hcov.1
        have h4 := hfirst.below
        unfold NUM_OF_FRAMES at h4
        omega
      have hset := (hbit g).mpr (Or.inr ⟨f, h1, h2, hcov⟩)
      rw [hbits g hg, Bool.or_eq_true, decide_eq_true_eq] at hset
      rcases hset with hset | hset
      · exact absurd ((taken_iff frames f).mpr ⟨g, hcov, hset⟩) (hfirst.run f h1 h2)
      · exact hset
    · rintro (hno | ⟨r', hclear, hwhole, hbefore⟩)
      · exact absurd hfirst.run (hno r hfirst.below).2
      · have hun : FirstRun (untaken frames) (256 * 64) r' count :=
          ⟨hclear.below, isRun_untaken_of_clear hwhole hclear.run, hbefore⟩
        obtain rfl := hfirst.unique hun
        refine ⟨r, by omega, hclear, ?_⟩
        intro f _
        rw [Bool.eq_iff_iff, hbit f, Bool.or_eq_true, decide_eq_true_eq,
          wholeWords_covers hwhole]

/-- When `set_frame` and `get_frame` keep one bit per frame, exactly: for every bitmap,
address, state and count. -/
theorem the_bitmap_is_exact_on_whole_words (frames : Frames) :
    (∀ a state, SetExact frames a state ↔ SetHolds frames a state) ∧
      ∀ count, 1 ≤ count → (GetExact frames count ↔ GetHolds frames count) :=
  ⟨set_exact_iff frames, get_exact_iff frames⟩

/-- An empty bitmap hands out its first 20 frames exactly. -/
theorem the_bitmap_is_exact_on_whole_words_for_twenty_frames :
    GetExact (fun _ => 0) 20 := by
  refine ((the_bitmap_is_exact_on_whole_words (fun _ => 0)).2 20 (by omega)).mpr ?_
  refine Or.inr ⟨0, ⟨by omega, ?_, by omega⟩, Or.inl (by omega), by omega⟩
  intro k _ _
  simp [clear, bit]

/-- Frame 32 has no bit of its own: marking it in an empty bitmap sets the bit of frame 0. -/
theorem the_bitmap_is_not_exact :
    ¬ ∀ frames : Frames, (∀ a state, SetExact frames a state) ∧
      ∀ count, 1 ≤ count → GetExact frames count := by
  intro h
  have h32 := ((set_exact_iff (fun _ => 0) (32 * 4096) true).mp ((h (fun _ => 0)).1 _ _))
  revert h32
  simp [SetHolds, bit]

end salsola.mmu
