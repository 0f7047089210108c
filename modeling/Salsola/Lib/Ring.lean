-- A bounded queue, and the queue that a ring of cells holds.
import Mathlib.Data.List.Basic
import Mathlib.Data.Nat.ModEq

namespace ring

variable {α : Type}

/-! ## The bounded queue -/

/-- A queue of at most `cap` items, oldest first. -/
structure Fifo (α : Type) (cap : Nat) where
  items : List α
  fits : items.length ≤ cap

variable {cap : Nat}

def Fifo.empty : Fifo α cap := ⟨[], Nat.zero_le _⟩

/-- The items that the queue has room for. -/
def Fifo.room (q : Fifo α cap) : Nat := cap - q.items.length

/-- The first items of `xs` go behind the items of the queue, while there is room. -/
def Fifo.push (q : Fifo α cap) (xs : List α) : Fifo α cap :=
  ⟨q.items ++ xs.take q.room, by
    have := q.fits
    simp only [List.length_append, List.length_take, room]
    omega⟩

/-- The oldest `n` items leave the queue. -/
def Fifo.pop (q : Fifo α cap) (n : Nat) : Fifo α cap :=
  ⟨q.items.drop n, by have := q.fits; simp only [List.length_drop]; omega⟩

@[ext] theorem Fifo.ext {q q' : Fifo α cap} (h : q.items = q'.items) : q = q' := by
  cases q; cases q'; simp_all

@[simp] theorem Fifo.push_items (q : Fifo α cap) (xs : List α) :
    (q.push xs).items = q.items ++ xs.take q.room := rfl

@[simp] theorem Fifo.pop_items (q : Fifo α cap) (n : Nat) :
    (q.pop n).items = q.items.drop n := rfl

theorem Fifo.room_add_length (q : Fifo α cap) : q.room + q.items.length = cap := by
  have := q.fits
  unfold room
  omega

theorem Fifo.push_full (q : Fifo α cap) (xs : List α) (h : q.room = 0) : q.push xs = q := by
  ext1
  simp [h]

theorem Fifo.push_room (q : Fifo α cap) (xs : List α) (h : xs.length ≤ q.room) :
    (q.push xs).room = q.room - xs.length := by
  simp only [room, push_items, List.length_append, List.length_take] at h ⊢
  omega

/-- Two pushes in a row are one push, when the first one fits. -/
theorem Fifo.push_push (q : Fifo α cap) (xs ys : List α) (h : xs.length ≤ q.room) :
    (q.push xs).push ys = q.push (xs ++ ys) := by
  ext1
  simp only [push_items, q.push_room xs h, List.take_append,
    List.append_assoc]

theorem Fifo.pop_pop (q : Fifo α cap) (m n : Nat) : (q.pop m).pop n = q.pop (m + n) := by
  ext1
  simp

/-! ## Cells -/

/-- The cells from `off` on take the values `xs`. -/
def overwrite (cells : List α) (off : Nat) (xs : List α) : List α :=
  cells.take off ++ xs ++ cells.drop (off + xs.length)

@[simp] theorem overwrite_length (cells : List α) (off : Nat) (xs : List α)
    (h : off + xs.length ≤ cells.length) : (overwrite cells off xs).length = cells.length := by
  simp only [overwrite, List.length_append, List.length_take, List.length_drop]
  omega

theorem overwrite_nil (cells : List α) (off : Nat) : overwrite cells off [] = cells := by
  simp [overwrite]

/-- A cell that is overwritten holds the new value. -/
theorem overwrite_inside (cells : List α) (off : Nat) (xs : List α) (i : Nat)
    (h : off + xs.length ≤ cells.length) (hi : i < xs.length) :
    (overwrite cells off xs)[off + i]? = xs[i]? := by
  unfold overwrite
  rw [List.append_assoc, List.getElem?_append_right (by simp)]
  have hoff : (cells.take off).length = off := by simp; omega
  rw [hoff, Nat.add_sub_cancel_left, List.getElem?_append_left hi]

/-- A cell that is not overwritten holds the value it had. -/
theorem overwrite_outside (cells : List α) (off : Nat) (xs : List α) (i : Nat)
    (h : off + xs.length ≤ cells.length) (hi : i < off ∨ off + xs.length ≤ i) :
    (overwrite cells off xs)[i]? = cells[i]? := by
  unfold overwrite
  have hoff : (cells.take off).length = off := by simp; omega
  rcases hi with hi | hi
  · rw [List.append_assoc, List.getElem?_append_left (by omega), List.getElem?_take]
    simp [hi]
  · rw [List.getElem?_append_right (by simp; omega), List.getElem?_drop]
    congr 1
    simp
    omega

/-- Two overwrites side by side are one. -/
theorem overwrite_overwrite (cells : List α) (off : Nat) (xs ys : List α)
    (h : off + xs.length + ys.length ≤ cells.length) :
    overwrite (overwrite cells off xs) (off + xs.length) ys = overwrite cells off (xs ++ ys) := by
  have hlen : off + xs.length ≤ cells.length := by omega
  have hlen' : (overwrite cells off xs).length = cells.length := overwrite_length _ _ _ hlen
  apply List.ext_getElem?
  intro i
  by_cases hys : off + xs.length ≤ i ∧ i < off + xs.length + ys.length
  · obtain ⟨k, rfl⟩ : ∃ k, i = off + xs.length + k := ⟨i - (off + xs.length), by omega⟩
    rw [overwrite_inside _ _ _ _ (by omega) (by omega), Nat.add_assoc,
      overwrite_inside _ _ _ _ (by simp; omega) (by simp; omega),
      List.getElem?_append_right (by omega), Nat.add_sub_cancel_left]
  · rw [overwrite_outside _ _ _ _ (by omega) (by omega)]
    by_cases hxs : off ≤ i ∧ i < off + xs.length
    · obtain ⟨k, rfl⟩ : ∃ k, i = off + k := ⟨i - off, by omega⟩
      rw [overwrite_inside _ _ _ _ hlen (by omega),
        overwrite_inside _ _ _ _ (by simp; omega) (by simp; omega),
        List.getElem?_append_left (by omega)]
    · rw [overwrite_outside _ _ _ _ hlen (by omega),
        overwrite_outside _ _ _ _ (by simp; omega) (by simp; omega)]

/-! ## The queue that a ring of cells holds -/

/-- From the cell `first` on, around the ring, the cells hold the items `q`. -/
def Holds (cells : List α) (first : Nat) (q : List α) : Prop :=
  ∀ k, k < q.length → cells[(first + k) % cells.length]? = q[k]?

theorem holds_nil (cells : List α) (first : Nat) : Holds cells first [] := by
  intro k hk
  simp at hk

/-- Cells behind the last item, with no wrap inside them, take more items. -/
theorem holds_append (cells : List α) (first : Nat) (q xs : List α) (h : Holds cells first q)
    (hroom : q.length + xs.length ≤ cells.length)
    (hend : (first + q.length) % cells.length + xs.length ≤ cells.length) :
    Holds (overwrite cells ((first + q.length) % cells.length) xs) first (q ++ xs) := by
  intro k hk
  rw [overwrite_length _ _ _ hend]
  by_cases hkq : k < q.length
  · rw [List.getElem?_append_left hkq, ← h k hkq]
    apply overwrite_outside _ _ _ _ hend
    -- cell `k` of the queue and the cells behind its end are apart by less than one turn
    by_contra hin
    obtain ⟨i, hi, hki⟩ : ∃ i, i < xs.length ∧
        (first + k) % cells.length = (first + q.length) % cells.length + i :=
      ⟨(first + k) % cells.length - (first + q.length) % cells.length, by omega, by omega⟩
    have hcong : (first + k) % cells.length = (first + (q.length + i)) % cells.length := by
      rw [← Nat.add_assoc, ← Nat.mod_add_mod (first + q.length), ← hki, Nat.mod_mod]
    have hmod : k ≡ q.length + i [MOD cells.length] := Nat.ModEq.add_left_cancel' first hcong
    have := Nat.ModEq.eq_of_lt_of_lt hmod (by omega)
      (by simp only [List.length_append] at hk; omega)
    omega
  · simp only [List.length_append] at hk
    obtain ⟨i, rfl⟩ : ∃ i, k = q.length + i := ⟨k - q.length, by omega⟩
    have hlt : (first + q.length) % cells.length + i < cells.length := by omega
    have hpos : (first + (q.length + i)) % cells.length =
        (first + q.length) % cells.length + i := by
      rw [← Nat.add_assoc, ← Nat.mod_add_mod (first + q.length), Nat.mod_eq_of_lt hlt]
    rw [hpos, overwrite_inside _ _ _ _ hend (by omega), List.getElem?_append_right (by omega),
      Nat.add_sub_cancel_left]

/-- Without its oldest `n` items, the queue starts `n` cells later. -/
theorem holds_drop (cells : List α) (first n : Nat) (q : List α) (h : Holds cells first q)
    (hn : n ≤ q.length) : Holds cells ((first + n) % cells.length) (q.drop n) := by
  intro k hk
  simp only [List.length_drop] at hk
  rw [Nat.mod_add_mod, Nat.add_assoc, h (n + k) (by omega), List.getElem?_drop]

/-- The oldest items stand side by side up to the end of the cells. -/
theorem holds_take (cells : List α) (first n : Nat) (q : List α) (h : Holds cells first q)
    (hn : n ≤ q.length) (hend : first + n ≤ cells.length) :
    (cells.drop first).take n = q.take n := by
  apply List.ext_getElem?
  intro k
  by_cases hk : k < n
  · rw [List.getElem?_take_of_lt hk, List.getElem?_take_of_lt hk, List.getElem?_drop,
      ← h k (by omega), Nat.mod_eq_of_lt (by omega)]
  · rw [List.getElem?_eq_none (by simp; omega), List.getElem?_eq_none (by simp; omega)]

end ring
