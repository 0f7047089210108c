-- A chain of links that ends in a null, walked in turns: each turn goes to the
-- next element, and behind the last one back to the head. As many turns as the
-- chain has elements visit each element once and end where they began.
import Mathlib.Data.List.Rotate

namespace turns

variable {α : Type} {next next' : α → α} {null p q : α} {l : List α}

/-! ## Chains -/

/-- The links from `p` on lead through `l` to the null. -/
def Chain (next : α → α) (null : α) : α → List α → Prop
  | p, [] => p = null
  | p, q :: l => p = q ∧ q ≠ null ∧ Chain next null (next q) l

/-- A store that keeps the links of a chain keeps the chain. -/
theorem Chain.congr (h : Chain next null p l) (heq : ∀ q ∈ l, next' q = next q) :
    Chain next' null p l := by
  induction l generalizing p with
  | nil => exact h
  | cons q l ih =>
    obtain ⟨hp, hq, hrest⟩ := h
    refine ⟨hp, hq, ?_⟩
    rw [heq q List.mem_cons_self]
    exact ih hrest (fun r hr => heq r (List.mem_cons_of_mem q hr))

/-- A new element that links to the head becomes the head. -/
theorem Chain.push (h : Chain next null p l) (hq : q ≠ null) (hlink : next q = p) :
    Chain next null q (q :: l) := by
  refine ⟨rfl, hq, ?_⟩
  rw [hlink]
  exact h

theorem Chain.ne_null (h : Chain next null p l) (hq : q ∈ l) : q ≠ null := by
  induction l generalizing p with
  | nil => cases hq
  | cons r l ih =>
    rcases List.mem_cons.mp hq with heq | hmem
    · rw [heq]
      exact h.2.1
    · exact ih h.2.2 hmem

theorem Chain.head (h : Chain next null p l) (hl : 0 < l.length) : l[0] = p := by
  cases l with
  | nil => simp at hl
  | cons q l => exact h.1.symm

/-- The link of an element leads to the one behind it. -/
theorem Chain.next_getElem (h : Chain next null p l) (i : Nat) (hi : i + 1 < l.length) :
    next l[i] = l[i + 1] := by
  induction l generalizing p i with
  | nil => simp at hi
  | cons q l ih =>
    cases i with
    | zero => exact (h.2.2.head (by simpa using hi)).symm
    | succ i => exact ih h.2.2 i (by simpa using hi)

/-- The link of the last element is the null. -/
theorem Chain.next_last (h : Chain next null p l) (i : Nat) (hi : i + 1 = l.length) :
    next l[i] = null := by
  induction l generalizing p i with
  | nil => simp at hi
  | cons q l ih =>
    cases i with
    | zero =>
      have hnil : l = [] := by
        apply List.length_eq_zero_iff.mp
        simpa using hi.symm
      subst hnil
      exact h.2.2
    | succ i => exact ih h.2.2 i (by simpa using hi)

/-! ## Turns -/

variable [DecidableEq α]

/-- The next element, and the head behind the last one. -/
def turn (next : α → α) (null head p : α) : α := if next p = null then head else next p

theorem Chain.turn_getElem (h : Chain next null p l) (i : Nat) (hi : i < l.length)
    (hnext : (i + 1) % l.length < l.length) :
    turn next null p l[i] = l[(i + 1) % l.length] := by
  unfold turn
  by_cases hlast : i + 1 = l.length
  · rw [if_pos (h.next_last i hlast)]
    simp only [hlast, Nat.mod_self]
    exact (h.head (by omega)).symm
  · have hlt : i + 1 < l.length := by omega
    have hnext := h.next_getElem i hlt
    rw [if_neg, hnext]
    · simp only [Nat.mod_eq_of_lt hlt]
    · rw [hnext]
      exact h.ne_null (List.getElem_mem hlt)

/-- Where `k` turns from an element lead. -/
theorem Chain.iterate_getElem (h : Chain next null p l) (i k : Nat) (hi : i < l.length)
    (hend : (i + k) % l.length < l.length) :
    (turn next null p)^[k] l[i] = l[(i + k) % l.length] := by
  induction k with
  | zero => simp [Nat.mod_eq_of_lt hi]
  | succ k ih =>
    have hpos : 0 < l.length := Nat.zero_lt_of_lt hi
    rw [Function.iterate_succ_apply', ih (Nat.mod_lt _ hpos),
      h.turn_getElem _ (Nat.mod_lt _ hpos) (Nat.mod_lt _ hpos)]
    congr 1
    rw [Nat.mod_add_mod, Nat.add_assoc]

/-- Each element of a chain is where a turn leads, so it is never the null. -/
theorem Chain.turn_mem (h : Chain next null p l) (hq : q ∈ l) : turn next null p q ∈ l := by
  obtain ⟨i, hi, heq⟩ := List.getElem_of_mem hq
  rw [← heq, h.turn_getElem i hi (Nat.mod_lt _ (Nat.zero_lt_of_lt hi))]
  apply List.getElem_mem

/-- The elements that `n` turns from `q` on visit, in order. -/
def visits (next : α → α) (null head q : α) (n : Nat) : List α :=
  (List.range n).map fun k => (turn next null head)^[k + 1] q

/-- A whole round is the chain, rotated. -/
theorem Chain.visits_eq_rotate (h : Chain next null p l) (i : Nat) (hi : i < l.length) :
    visits next null p l[i] l.length = l.rotate (i + 1) := by
  apply List.ext_getElem
  · simp [visits]
  · intro k hk hk'
    simp only [visits, List.getElem_map, List.getElem_range]
    rw [h.iterate_getElem i (k + 1) hi (Nat.mod_lt _ (Nat.zero_lt_of_lt hi)),
      List.getElem_rotate]
    congr 1
    congr 1
    omega

/-- A whole round visits each element as often as the chain holds it. -/
theorem Chain.visits_perm (h : Chain next null p l) (hq : q ∈ l) :
    (visits next null p q l.length).Perm l := by
  obtain ⟨i, hi, heq⟩ := List.getElem_of_mem hq
  rw [← heq, h.visits_eq_rotate i hi]
  apply List.rotate_perm

/-- A whole round ends where it began. -/
theorem Chain.visits_getLast (h : Chain next null p l) (hq : q ∈ l) :
    (visits next null p q l.length).getLast? = some q := by
  obtain ⟨i, hi, heq⟩ := List.getElem_of_mem hq
  have hpos : l.length - 1 + 1 = l.length := by omega
  rw [List.getLast?_eq_getElem?]
  simp only [visits, List.length_map, List.length_range, List.getElem?_map]
  rw [List.getElem?_range (by omega), Option.map_some, hpos, ← heq,
    h.iterate_getElem i l.length hi (Nat.mod_lt _ (Nat.zero_lt_of_lt hi))]
  simp only [Nat.add_mod_right, Nat.mod_eq_of_lt hi]

end turns
