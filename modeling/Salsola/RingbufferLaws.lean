-- The laws of the ring buffer. It is a queue of at most `buffer_size - 1`
-- bytes: after each call it `Keeps` the queue that the calls so far give, so
-- the law holds for every sequence of calls.
import Salsola.Ringbuffer

open outcome ring

namespace salsola.ringbuffer

/-! ## The invariant -/

/-- The ring buffer holds the queue `q`, and one of its cells stays empty. -/
structure Keeps (rb : Ringbuffer) {cap : Nat} (q : Fifo UInt8 cap) : Prop where
  cells : rb.buffer.length = rb.buffer_size.toNat
  cap_lt : cap + 1 = rb.buffer_size.toNat
  read_lt : rb.read_ptr.toNat < rb.buffer_size.toNat
  write_at : rb.write_ptr.toNat = (rb.read_ptr.toNat + q.items.length) % rb.buffer_size.toNat
  holds : Holds rb.buffer rb.read_ptr.toNat q.items

variable {cap : Nat} {rb : Ringbuffer} {q : Fifo UInt8 cap}

theorem Keeps.write_lt (h : Keeps rb q) : rb.write_ptr.toNat < rb.buffer_size.toNat := by
  rw [h.write_at]
  exact Nat.mod_lt _ (by have := h.read_lt; omega)

/-- The write pointer is the end of the queue, at most one turn further on. -/
theorem Keeps.wrap (h : Keeps rb q) :
    (rb.read_ptr.toNat ≤ rb.write_ptr.toNat ∧
      rb.write_ptr.toNat = rb.read_ptr.toNat + q.items.length) ∨
    (rb.write_ptr.toNat < rb.read_ptr.toNat ∧
      rb.write_ptr.toNat + rb.buffer_size.toNat = rb.read_ptr.toNat + q.items.length) := by
  have hr := h.read_lt
  have hq := q.fits
  have hc := h.cap_lt
  have hw := h.write_at
  by_cases hlt : rb.read_ptr.toNat + q.items.length < rb.buffer_size.toNat
  · rw [Nat.mod_eq_of_lt hlt] at hw
    omega
  · rw [Nat.mod_eq_sub_mod (by omega), Nat.mod_eq_of_lt (by omega)] at hw
    omega

theorem Keeps.used (h : Keeps rb q) : (ringbuffer_used rb).toNat = q.items.length := by
  have hr := h.read_lt
  have hb := rb.buffer_size.toNat_lt
  unfold ringbuffer_used
  rcases h.wrap with ⟨hle, hw⟩ | ⟨hlt, hw⟩
  · have hn : ¬ rb.write_ptr < rb.read_ptr := by rw [UInt32.lt_iff_toNat_lt]; omega
    rw [if_neg hn, UInt32.toNat_sub_of_le _ _ (UInt32.le_iff_toNat_le.mpr hle)]
    omega
  · have hl : rb.write_ptr < rb.read_ptr := UInt32.lt_iff_toNat_lt.mpr hlt
    rw [if_pos hl]
    have hs := UInt32.toNat_sub_of_le rb.buffer_size rb.read_ptr
      (UInt32.le_iff_toNat_le.mpr (by omega))
    simp only [UInt32.toNat_add, hs]
    omega

theorem Keeps.capacity (h : Keeps rb q) : (ringbuffer_capacity rb).toNat = cap := by
  have hc := h.cap_lt
  have h1 : (1 : UInt32) ≤ rb.buffer_size := by
    rw [UInt32.le_iff_toNat_le]; simp; omega
  unfold ringbuffer_capacity
  rw [UInt32.toNat_sub_of_le _ _ h1]
  simp
  omega

theorem Keeps.unused (h : Keeps rb q) : (ringbuffer_unused rb).toNat = q.room := by
  have hu := h.used
  have hc := h.capacity
  have hq := q.fits
  unfold ringbuffer_unused
  rw [UInt32.toNat_sub_of_le _ _ (UInt32.le_iff_toNat_le.mpr (by omega)), hu, hc]
  rfl

theorem Keeps.isempty (h : Keeps rb q) : ringbuffer_isempty rb = true ↔ q.items = [] := by
  have hr := h.read_lt
  have hq := q.fits
  have hc := h.cap_lt
  unfold ringbuffer_isempty
  rw [decide_eq_true_iff, ← UInt32.toNat_inj, ← List.length_eq_zero_iff]
  rcases h.wrap with ⟨_, hw⟩ | ⟨_, hw⟩ <;> omega

/-- The queued bytes, oldest first. -/
def contents (rb : Ringbuffer) : List UInt8 :=
  (List.range (ringbuffer_used rb).toNat).map fun k =>
    rb.buffer.getD ((rb.read_ptr.toNat + k) % rb.buffer_size.toNat) 0

theorem Keeps.contents (h : Keeps rb q) : contents rb = q.items := by
  unfold ringbuffer.contents
  rw [h.used]
  apply List.ext_getElem
  · simp
  · intro k hk hk'
    have hcell := h.holds k hk'
    rw [h.cells, List.getElem?_eq_getElem hk'] at hcell
    simp [List.getD_eq_getElem?_getD, hcell]

/-- A new ring buffer holds the empty queue. -/
theorem keeps_init (buffer : List UInt8) (buffer_size : UInt32)
    (h1 : 1 ≤ buffer_size.toNat) (hb : buffer.length = buffer_size.toNat) :
    Keeps (ringbuffer_init (some buffer) buffer_size).2
      (Fifo.empty : Fifo UInt8 (buffer_size.toNat - 1)) where
  cells := hb
  cap_lt := by simp only [ringbuffer_init]; omega
  read_lt := by simp only [ringbuffer_init, UInt32.toNat_zero]; omega
  write_at := by simp [ringbuffer_init, Fifo.empty]
  holds := holds_nil _ _

/-! ## A write -/

/-- One turn of the write loop has room up to the end of the free cells, or up to the
end of the block. -/
theorem Keeps.buffer_left (h : Keeps rb q) : (buffer_left rb).toNat =
    min q.room (rb.buffer_size.toNat - rb.write_ptr.toNat) := by
  have hr := h.read_lt
  have hwl := h.write_lt
  have hq := q.fits
  have hc := h.cap_lt
  have hroom := q.room_add_length
  unfold ringbuffer.buffer_left
  rcases h.wrap with ⟨hle, hw⟩ | ⟨hlt, hw⟩
  · rw [if_pos (UInt32.le_iff_toNat_le.mpr hle)]
    have hs := UInt32.toNat_sub_of_le rb.buffer_size rb.write_ptr
      (UInt32.le_iff_toNat_le.mpr (by omega))
    by_cases h0 : rb.read_ptr.toNat = 0
    · have hcond : 0 = rb.read_ptr ∧ 0 < rb.buffer_size - rb.write_ptr := by
        constructor
        · rw [← UInt32.toNat_inj]; simp [h0]
        · rw [UInt32.lt_iff_toNat_lt, hs]; simp; omega
      simp only
      have hone : (1 : UInt32) ≤ rb.buffer_size - rb.write_ptr := by
        rw [UInt32.le_iff_toNat_le, hs]
        simp
        omega
      rw [if_pos hcond, UInt32.toNat_sub_of_le _ _ hone, hs]
      simp
      omega
    · have hcond : ¬ (0 = rb.read_ptr ∧ 0 < rb.buffer_size - rb.write_ptr) := by
        rintro ⟨h1, _⟩
        exact h0 (by rw [← h1]; simp)
      simp only [hcond, if_false, hs]
      omega
  · have hn : ¬ rb.read_ptr ≤ rb.write_ptr := by rw [UInt32.le_iff_toNat_le]; omega
    rw [if_neg hn]
    have hs := UInt32.toNat_sub_of_le rb.read_ptr rb.write_ptr
      (UInt32.le_iff_toNat_le.mpr (by omega))
    rw [UInt32.toNat_sub_of_le _ _ (by rw [UInt32.le_iff_toNat_le, hs]; simp; omega), hs]
    simp
    omega

theorem copy_in_eq {dest src : List UInt8} {off n : Nat} (hd : off + n ≤ dest.length)
    (hs : n ≤ src.length) : copy_in dest off src n = .ok (overwrite dest off (src.take n)) :=
  if_pos ⟨hd, hs⟩

theorem mod32_eq {a b : UInt32} (h : 0 < b.toNat) : mod32 a b = .ok (a % b) := by
  apply if_neg
  rintro rfl
  simp at h

/-- The bytes that one turn of the write loop stores go behind the queue. -/
theorem keeps_store (h : Keeps rb q) (xs : List UInt8) (hroom : xs.length ≤ q.room)
    (hend : rb.write_ptr.toNat + xs.length ≤ rb.buffer_size.toNat) (k : UInt32)
    (hk : k.toNat = xs.length) :
    Keeps { rb with
        buffer := overwrite rb.buffer rb.write_ptr.toNat xs
        write_ptr := (rb.write_ptr + k) % rb.buffer_size } (q.push xs) where
  cells := by
    simp only
    rw [overwrite_length _ _ _ (by rw [h.cells]; exact hend)]
    exact h.cells
  cap_lt := h.cap_lt
  read_lt := h.read_lt
  write_at := by
    have hb := rb.buffer_size.toNat_lt
    simp only [UInt32.toNat_mod, UInt32.toNat_add, Fifo.push_items, List.take_of_length_le hroom,
      List.length_append]
    by_cases hfull : rb.write_ptr.toNat + k.toNat < 2 ^ 32
    · rw [Nat.mod_eq_of_lt hfull, h.write_at, Nat.mod_add_mod, hk, Nat.add_assoc]
    · omega
  holds := by
    have hq := q.room_add_length
    have hc := h.cap_lt
    have hat := h.write_at
    rw [← h.cells] at hat
    simp only [Fifo.push_items, List.take_of_length_le hroom]
    rw [hat]
    apply holds_append _ _ _ _ h.holds
    · rw [h.cells]; omega
    · rw [← hat, h.cells]; exact hend

theorem ringbuffer_write_loop.spec (fuel : Nat) (buffer : List UInt8) (len : UInt32)
    (h : Keeps rb q) (hf : len.toNat < fuel) (hlen : len.toNat ≤ buffer.length) :
    Spec (ringbuffer_write_loop fuel rb buffer len) (fun _ => False)
      (fun r => Keeps r.1 (q.push (buffer.take len.toNat)) ∧
        r.1.buffer_size = rb.buffer_size ∧ r.2.toNat + min len.toNat q.room = len.toNat) := by
  induction fuel generalizing rb q buffer len with
  | zero => omega
  | succ fuel ih =>
    have hwl := h.write_lt
    have hleft := h.buffer_left
    unfold ringbuffer_write_loop
    by_cases h0 : len = 0
    · subst h0
      rw [if_neg (UInt32.lt_irrefl 0)]
      simp only [spec_ok, UInt32.toNat_zero, List.take_zero]
      refine ⟨?_, by trivial, by simp⟩
      rw [show q.push [] = q from Fifo.ext (by simp)]
      exact h
    have hpos : 0 < len.toNat := by
      rcases Nat.eq_zero_or_pos len.toNat with hz | hz
      · exact absurd (UInt32.toNat_inj.mp (by simpa using hz)) h0
      · exact hz
    rw [if_pos (UInt32.lt_iff_toNat_lt.mpr (by simpa using hpos))]
    by_cases hfull : 0 = ringbuffer.buffer_left rb
    · rw [if_pos hfull]
      have hroom : q.room = 0 := by
        rw [← hfull] at hleft
        simp only [UInt32.toNat_zero] at hleft
        omega
      simp only [spec_ok, hroom]
      refine ⟨?_, by trivial, by simp⟩
      rw [q.push_full _ hroom]
      exact h
    rw [if_neg hfull]
    have hleft0 : 0 < (ringbuffer.buffer_left rb).toNat := by
      rcases Nat.eq_zero_or_pos (ringbuffer.buffer_left rb).toNat with hz | hz
      · exact absurd (UInt32.toNat_inj.mp (by simpa using hz.symm)) hfull
      · exact hz
    -- the bytes of this turn: as many as there is room for before the end of the block
    have hsize := UInt32.toNat_sub_of_le rb.buffer_size rb.write_ptr
      (UInt32.le_iff_toNat_le.mpr (by omega))
    generalize hk : min32 (min32 len (ringbuffer.buffer_left rb))
      (rb.buffer_size - rb.write_ptr) = k
    have hkn : k.toNat = min len.toNat (ringbuffer.buffer_left rb).toNat := by
      rw [← hk]
      simp only [min32_toNat, hsize]
      omega
    have hxs : (buffer.take k.toNat).length = k.toNat := by
      rw [List.length_take]; omega
    dsimp only
    rw [copy_in_eq (by rw [h.cells]; omega) (by omega), ok_bind, mod32_eq (by omega), ok_bind]
    have hstore := keeps_store h (buffer.take k.toNat) (by omega) (by omega) k hxs.symm
    have hsub := UInt32.toNat_sub_of_le len k (UInt32.le_iff_toNat_le.mpr (by omega))
    apply spec_post (ih (buffer.drop k.toNat) (len - k) hstore (by omega)
      (by rw [List.length_drop]; omega))
    rintro ⟨rb', left⟩ ⟨hkeep, hsz, hcount⟩
    have hroom' : (q.push (buffer.take k.toNat)).room = q.room - k.toNat := by
      rw [q.push_room _ (by omega), hxs]
    refine ⟨?_, hsz, ?_⟩
    · have hbytes : buffer.take len.toNat =
          buffer.take k.toNat ++ (buffer.drop k.toNat).take (len - k).toNat := by
        rw [hsub, ← List.take_add]
        congr 1
        omega
      rw [hbytes, ← q.push_push _ _ (by omega)]
      exact hkeep
    · simp only at hcount ⊢
      omega

/-- A write stores the first bytes behind the queue, as many as there is room for, and
returns how many. -/
theorem ringbuffer_write.spec (buffer : List UInt8) (len : UInt32) (h : Keeps rb q)
    (hlen : len.toNat ≤ buffer.length) :
    Spec (ringbuffer_write rb buffer len) (fun _ => False)
      (fun r => Keeps r.1 (q.push (buffer.take len.toNat)) ∧
        r.1.buffer_size = rb.buffer_size ∧ r.2.toNat = min len.toNat q.room) := by
  unfold ringbuffer_write
  apply spec_bind (ringbuffer_write_loop.spec _ buffer len h (Nat.lt_succ_self _) hlen)
  rintro ⟨rb', left⟩ ⟨hkeep, hsz, hcount⟩
  simp only at hcount
  simp only [spec_ok]
  refine ⟨hkeep, hsz, ?_⟩
  rw [UInt32.toNat_sub_of_le _ _ (UInt32.le_iff_toNat_le.mpr (by omega))]
  omega

/-! ## A read -/

/-- One turn of the read loop has bytes up to the end of the queue, or up to the end of
the block. -/
theorem Keeps.read_left (h : Keeps rb q) (hne : rb.read_ptr ≠ rb.write_ptr) :
    (read_left rb).toNat = min q.items.length (rb.buffer_size.toNat - rb.read_ptr.toNat) := by
  have hr := h.read_lt
  have hwl := h.write_lt
  have hne' : rb.read_ptr.toNat ≠ rb.write_ptr.toNat := fun he => hne (UInt32.toNat_inj.mp he)
  unfold ringbuffer.read_left
  rcases h.wrap with ⟨hle, hw⟩ | ⟨hlt, hw⟩
  · have hn : ¬ rb.write_ptr ≤ rb.read_ptr := by rw [UInt32.le_iff_toNat_le]; omega
    rw [if_neg hn, UInt32.toNat_sub_of_le _ _ (UInt32.le_iff_toNat_le.mpr hle)]
    omega
  · rw [if_pos (UInt32.le_iff_toNat_le.mpr (by omega)),
      UInt32.toNat_sub_of_le _ _ (UInt32.le_iff_toNat_le.mpr (by omega))]
    omega

/-- The oldest `k` bytes leave the queue when the read pointer moves on. -/
theorem keeps_take (h : Keeps rb q) (k : UInt32) (hk : k.toNat ≤ q.items.length)
    (hend : rb.read_ptr.toNat + k.toNat ≤ rb.buffer_size.toNat) :
    Keeps { rb with read_ptr := (rb.read_ptr + k) % rb.buffer_size } (q.pop k.toNat) where
  cells := h.cells
  cap_lt := h.cap_lt
  read_lt := by
    have := h.read_lt
    simp only [UInt32.toNat_mod]
    exact Nat.mod_lt _ (by omega)
  write_at := by
    have hb := rb.buffer_size.toNat_lt
    simp only [UInt32.toNat_mod, UInt32.toNat_add, Fifo.pop_items, List.length_drop]
    rw [Nat.mod_eq_of_lt (by omega : rb.read_ptr.toNat + k.toNat < 2 ^ 32), Nat.mod_add_mod,
      h.write_at]
    congr 1
    omega
  holds := by
    have hb := rb.buffer_size.toNat_lt
    simp only [UInt32.toNat_mod, UInt32.toNat_add, Fifo.pop_items]
    rw [Nat.mod_eq_of_lt (by omega : rb.read_ptr.toNat + k.toNat < 2 ^ 32), ← h.cells]
    exact holds_drop _ _ _ _ h.holds hk

/-- What a read leaves in the buffer of the caller: the bytes read stand from `pos` on.
A NULL buffer stays NULL. -/
def filled (buffer : Option (List UInt8)) (pos : Nat) (xs : List UInt8) : Option (List UInt8) :=
  buffer.map (fun dest => overwrite dest pos xs)

/-- A read of `n` bytes changes the read pointer and nothing else. -/
def Moved (rb rb' : Ringbuffer) (n : Nat) : Prop :=
  rb' = { rb with read_ptr := rb'.read_ptr } ∧
    rb'.read_ptr.toNat = (rb.read_ptr.toNat + n) % rb.buffer_size.toNat

theorem Moved.unique {rb rb1 rb2 : Ringbuffer} {n : Nat} (h1 : Moved rb rb1 n)
    (h2 : Moved rb rb2 n) : rb1 = rb2 := by
  have hptr : rb1.read_ptr = rb2.read_ptr := UInt32.toNat_inj.mp (h1.2.trans h2.2.symm)
  rw [h1.1, h2.1, hptr]

theorem Moved.size {rb rb' : Ringbuffer} {n : Nat} (h : Moved rb rb' n) :
    rb'.buffer_size = rb.buffer_size := by
  rw [h.1]

theorem moved_zero {rb : Ringbuffer} (h : rb.read_ptr.toNat < rb.buffer_size.toNat) :
    Moved rb rb 0 := ⟨rfl, (Nat.mod_eq_of_lt h).symm⟩

theorem ringbuffer_read_loop.spec (fuel : Nat) (buffer : Option (List UInt8)) (pos : Nat)
    (len : UInt32) (h : Keeps rb q) (hf : len.toNat < fuel)
    (hlen : ∀ dest, buffer = some dest → pos + len.toNat ≤ dest.length) :
    Spec (ringbuffer_read_loop fuel rb buffer pos len) (fun _ => False)
      (fun r => Keeps r.1 (q.pop len.toNat) ∧ Moved rb r.1 (min len.toNat q.items.length) ∧
        r.2.1 = filled buffer pos (q.items.take len.toNat) ∧
        r.2.2.toNat + min len.toNat q.items.length = len.toNat) := by
  induction fuel generalizing rb q buffer pos len with
  | zero => omega
  | succ fuel ih =>
    have hrl := h.read_lt
    have hq := q.fits
    have hc := h.cap_lt
    unfold ringbuffer_read_loop
    by_cases h0 : len = 0
    · subst h0
      rw [if_neg (UInt32.lt_irrefl 0)]
      simp only [spec_ok, UInt32.toNat_zero, List.take_zero]
      refine ⟨?_, by simpa using moved_zero hrl, ?_, by simp⟩
      · rw [show q.pop 0 = q from Fifo.ext (by simp)]
        exact h
      · cases buffer <;> simp [filled, overwrite_nil]
    have hpos : 0 < len.toNat := by
      rcases Nat.eq_zero_or_pos len.toNat with hz | hz
      · exact absurd (UInt32.toNat_inj.mp (by simpa using hz)) h0
      · exact hz
    rw [if_pos (UInt32.lt_iff_toNat_lt.mpr (by simpa using hpos))]
    by_cases hempty : rb.read_ptr = rb.write_ptr
    · rw [if_pos hempty]
      have hnil : q.items = [] := h.isempty.mp (by simp [ringbuffer_isempty, hempty])
      simp only [spec_ok, hnil, List.take_nil]
      refine ⟨?_, by simpa using moved_zero hrl, ?_, by simp⟩
      · rw [show q.pop len.toNat = q from Fifo.ext (by simp [hnil])]
        exact h
      · cases buffer <;> simp [filled, overwrite_nil]
    rw [if_neg hempty]
    have hleft := h.read_left hempty
    have hitems : 0 < q.items.length := by
      rcases Nat.eq_zero_or_pos q.items.length with hz | hz
      · have := h.isempty.mpr (List.length_eq_zero_iff.mp hz)
        simp only [ringbuffer_isempty, decide_eq_true_iff] at this
        exact absurd this.symm hempty
      · exact hz
    generalize hk : min32 len (ringbuffer.read_left rb) = k
    have hkn : k.toNat = min len.toNat (ringbuffer.read_left rb).toNat := by
      rw [← hk]; simp
    -- the bytes of this turn are the oldest `k` of the queue, and they stand side by side
    have hbytes : (rb.buffer.drop rb.read_ptr.toNat).take k.toNat = q.items.take k.toNat :=
      holds_take _ _ _ _ h.holds (by omega) (by rw [h.cells]; omega)
    have hcopy : deliver buffer pos (rb.buffer.drop rb.read_ptr.toNat) k.toNat =
        .ok (filled buffer pos (q.items.take k.toNat)) := by
      cases buffer with
      | none => rfl
      | some dest =>
        have := hlen dest rfl
        unfold deliver
        simp only
        rw [copy_in_eq (by omega) (by rw [List.length_drop, h.cells]; omega), ok_bind, hbytes]
        rfl
    dsimp only
    rw [hcopy, ok_bind, mod32_eq (by omega), ok_bind]
    have hsub := UInt32.toNat_sub_of_le len k (UInt32.le_iff_toNat_le.mpr (by omega))
    have htake : (q.items.take k.toNat).length = k.toNat := by
      rw [List.length_take]; omega
    have hfit : ∀ dest, filled buffer pos (q.items.take k.toNat) = some dest →
        pos + k.toNat + (len - k).toNat ≤ dest.length := by
      intro dest hdest
      cases buffer with
      | none => cases hdest
      | some d =>
        have := hlen d rfl
        simp only [filled, Option.map_some, Option.some.injEq] at hdest
        rw [← hdest, overwrite_length _ _ _ (by omega)]
        omega
    apply spec_post (ih _ (pos + k.toNat) (len - k) (keeps_take h k (by omega) (by omega))
      (by omega) hfit)
    rintro ⟨rb', buffer', left⟩ ⟨hkeep, ⟨hsame, hptr⟩, hfill, hcount⟩
    simp only [Fifo.pop_items, List.length_drop] at hcount hfill
    have hb := rb.buffer_size.toNat_lt
    refine ⟨?_, ⟨hsame, ?_⟩, ?_, ?_⟩
    · rw [q.pop_pop, show k.toNat + (len - k).toNat = len.toNat by omega] at hkeep
      exact hkeep
    · simp only [UInt32.toNat_mod, UInt32.toNat_add, Fifo.pop_items, List.length_drop] at hptr
      rw [hptr, Nat.mod_eq_of_lt (by omega : rb.read_ptr.toNat + k.toNat < 2 ^ 32),
        Nat.mod_add_mod]
      congr 1
      omega
    · have hsplit : q.items.take len.toNat =
          q.items.take k.toNat ++ (q.items.drop k.toNat).take (len - k).toNat := by
        rw [hsub, ← List.take_add]
        congr 1
        omega
      simp only
      rw [hfill, hsplit]
      cases buffer with
      | none => rfl
      | some dest =>
        have := hlen dest rfl
        simp only [filled, Option.map_some]
        rw [← overwrite_overwrite _ _ _ _ (by
          simp only [List.length_take, List.length_drop]; omega), htake]
    · simp only
      omega

/-- A read takes the oldest bytes of the queue, in order, and returns how many. With a
NULL buffer it takes the same bytes. -/
theorem ringbuffer_read.spec (buffer : Option (List UInt8)) (len : UInt32) (h : Keeps rb q)
    (hlen : ∀ dest, buffer = some dest → len.toNat ≤ dest.length) :
    Spec (ringbuffer_read rb buffer len) (fun _ => False)
      (fun r => Keeps r.1 (q.pop len.toNat) ∧ Moved rb r.1 (min len.toNat q.items.length) ∧
        r.2.1 = filled buffer 0 (q.items.take len.toNat) ∧
        r.2.2.toNat = min len.toNat q.items.length) := by
  unfold ringbuffer_read
  apply spec_bind (ringbuffer_read_loop.spec _ buffer 0 len h (Nat.lt_succ_self _)
    (by simpa using hlen))
  rintro ⟨rb', buffer', left⟩ ⟨hkeep, hmoved, hfill, hcount⟩
  simp only at hcount hfill
  simp only [spec_ok]
  refine ⟨hkeep, hmoved, hfill, ?_⟩
  rw [UInt32.toNat_sub_of_le _ _ (UInt32.le_iff_toNat_le.mpr (by omega))]
  omega

/-- A read with a NULL buffer leaves the ring buffer as a read with any buffer does. -/
theorem a_read_to_null_moves_the_same (h : Keeps rb q) (dest : List UInt8) (len : UInt32)
    (hlen : len.toNat ≤ dest.length) :
    (ringbuffer_read rb none len).map (·.1) = (ringbuffer_read rb (some dest) len).map (·.1) := by
  obtain ⟨r1, h1, _, hm1, _⟩ := spec_returns (ringbuffer_read.spec none len h (by simp))
  obtain ⟨r2, h2, _, hm2, _⟩ :=
    spec_returns (ringbuffer_read.spec (some dest) len h (by simpa using hlen))
  rw [h1, h2]
  exact congrArg Except.ok (hm1.unique hm2)

/-! ## Any sequence of calls -/

/-- What a call must do to a queue of at most `cap` bytes, and what it must give back. -/
def queueCall (cap : Nat) (q : List UInt8) : Call → List UInt8 × Nat × Option (List UInt8)
  | .write buffer len =>
    let n := min len.toNat (cap - q.length)
    (q ++ buffer.take n, n, none)
  | .read buffer len =>
    let n := min len.toNat q.length
    (q.drop n, n, buffer.map (fun dest => q.take n ++ dest.drop n))

def queueCalls (cap : Nat) (q : List UInt8) : List Call →
    List UInt8 × List (Nat × Option (List UInt8))
  | [] => (q, [])
  | c :: cs =>
    let (q', answer) := queueCall cap q c
    let (q'', answers) := queueCalls cap q' cs
    (q'', answer :: answers)

def Answer.seen (a : Answer) : Nat × Option (List UInt8) := (a.count.toNat, a.buffer)

theorem call.spec (c : Call) (h : Keeps rb q) (hc : c.InBounds) :
    Spec (call rb c) (fun _ => False) (fun r => ∃ q' : Fifo UInt8 cap, Keeps r.1 q' ∧
      r.1.buffer_size = rb.buffer_size ∧
      (q'.items, r.2.seen) = queueCall cap q.items c) := by
  cases c with
  | write buffer len =>
    unfold call
    apply spec_bind (ringbuffer_write.spec buffer len h hc)
    rintro ⟨rb', count⟩ ⟨hkeep, hsz, hcount⟩
    simp only [spec_ok]
    refine ⟨_, hkeep, hsz, ?_⟩
    simp only [queueCall, Fifo.push_items, Answer.seen, List.take_take, hcount, Fifo.room,
      Nat.min_comm]
  | read buffer len =>
    unfold call
    apply spec_bind (ringbuffer_read.spec buffer len h hc)
    rintro ⟨rb', buffer', count⟩ ⟨hkeep, hmoved, hfill, hcount⟩
    simp only at hfill hcount
    simp only [spec_ok]
    refine ⟨_, hkeep, hmoved.size, ?_⟩
    have htake : q.items.take len.toNat = q.items.take (min len.toNat q.items.length) := by
      rw [← List.take_take, List.take_length]
    have hdrop : q.items.drop len.toNat = q.items.drop (min len.toNat q.items.length) := by
      rcases Nat.le_total len.toNat q.items.length with hle | hle
      · rw [Nat.min_eq_left hle]
      · rw [Nat.min_eq_right hle, List.drop_length, List.drop_of_length_le hle]
    simp only [queueCall, Fifo.pop_items, Answer.seen, hfill, hcount, filled, htake, hdrop]
    cases buffer with
    | none => rfl
    | some dest => simp [overwrite]

theorem calls.spec (cs : List Call) (h : Keeps rb q) (hcs : ∀ c ∈ cs, c.InBounds) :
    Spec (calls rb cs) (fun _ => False) (fun r => ∃ q' : Fifo UInt8 cap, Keeps r.1 q' ∧
      r.1.buffer_size = rb.buffer_size ∧
      (q'.items, r.2.map Answer.seen) = queueCalls cap q.items cs) := by
  induction cs generalizing rb q with
  | nil => exact ⟨q, h, rfl, rfl⟩
  | cons c cs ih =>
    unfold calls
    apply spec_bind (call.spec c h (hcs c (by simp)))
    rintro ⟨rb', answer⟩ ⟨q', hkeep, hsz, hstep⟩
    apply spec_bind (ih hkeep (fun c' hc' => hcs c' (List.mem_cons_of_mem _ hc')))
    rintro ⟨rb'', answers⟩ ⟨q'', hkeep', hsz', hsteps⟩
    refine ⟨q'', hkeep', hsz'.trans hsz, ?_⟩
    simp only [queueCalls, ← hstep, ← hsteps, List.map_cons]

/-- The ring buffer is a bounded queue. For every size and every sequence of writes and
reads after the init, each call ends and gives back what a queue of `buffer_size - 1`
bytes gives back. The pointers stay in the block, the counts and the emptiness are those
of the queue, and the queued bytes stand from the read pointer on. A read to NULL moves
the ring buffer as a read to any buffer. -/
theorem the_ring_buffer_is_a_bounded_queue (buffer_size : UInt32) (block : List UInt8)
    (h1 : 1 ≤ buffer_size.toNat) (hb : block.length = buffer_size.toNat) (cs : List Call)
    (hcs : ∀ c ∈ cs, c.InBounds) :
    ∃ rb answers, calls (ringbuffer_init (some block) buffer_size).2 cs = .ok (rb, answers) ∧
      let (queue, expected) := queueCalls (buffer_size.toNat - 1) [] cs
      answers.map Answer.seen = expected ∧
      rb.read_ptr < buffer_size ∧ rb.write_ptr < buffer_size ∧
      (ringbuffer_used rb).toNat = queue.length ∧
      (ringbuffer_used rb).toNat + (ringbuffer_unused rb).toNat = buffer_size.toNat - 1 ∧
      (ringbuffer_isempty rb = true ↔ queue = []) ∧
      (∀ k, k < queue.length →
        rb.buffer[(rb.read_ptr.toNat + k) % buffer_size.toNat]? = queue[k]?) ∧
      ∀ (dest : List UInt8) (len : UInt32), len.toNat ≤ dest.length →
        (ringbuffer_read rb none len).map (·.1) =
          (ringbuffer_read rb (some dest) len).map (·.1) := by
  obtain ⟨⟨rb, answers⟩, hrun, q, hkeep, hsz, hq⟩ :=
    spec_returns (calls.spec cs (keeps_init block buffer_size h1 hb) hcs)
  have hsize : rb.buffer_size = buffer_size := hsz
  refine ⟨rb, answers, hrun, ?_⟩
  simp only [Fifo.empty] at hq
  rw [← hq]
  have hr := hkeep.read_lt
  have hw := hkeep.write_lt
  have hholds := hkeep.holds
  unfold Holds at hholds
  rw [hsize] at hr hw
  rw [hkeep.cells, hsize] at hholds
  refine ⟨rfl, UInt32.lt_iff_toNat_lt.mpr hr, UInt32.lt_iff_toNat_lt.mpr hw, hkeep.used, ?_,
    hkeep.isempty, hholds, a_read_to_null_moves_the_same hkeep⟩
  rw [hkeep.used, hkeep.unused, Nat.add_comm]
  exact q.room_add_length

/-- The calls of `ringbuffer_test`, and one more write that wraps around. -/
theorem the_ring_buffer_is_a_bounded_queue_for_six_bytes :
    ∃ rb answers, calls (ringbuffer_init (some [0, 0, 0, 0, 0, 0]) 6).2
      [.write [97, 98] 2, .write [99, 100] 2, .write [101, 102] 2, .read (some [0, 0, 0, 0]) 2,
        .read none 1, .write [103, 104, 105] 3] = .ok (rb, answers) ∧
      answers.map Answer.seen = [(2, none), (2, none), (1, none), (2, some [97, 98, 0, 0]),
        (1, none), (3, none)] ∧ (ringbuffer_used rb).toNat = 5 := by
  obtain ⟨rb, answers, hrun, hseen, _, _, hused, _⟩ :=
    the_ring_buffer_is_a_bounded_queue 6 [0, 0, 0, 0, 0, 0] (by decide) (by decide)
      [.write [97, 98] 2, .write [99, 100] 2, .write [101, 102] 2, .read (some [0, 0, 0, 0]) 2,
        .read none 1, .write [103, 104, 105] 3]
      (by simp [Call.InBounds])
  exact ⟨rb, answers, hrun, hseen, hused⟩

end salsola.ringbuffer
