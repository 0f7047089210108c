-- Blocks behind headers of `H` bytes, in the order of their list: side by side
-- in arenas, with a mark on the last block of each arena. A change of a few
-- neighbours keeps the whole list laid out when it fits in their place.
import Mathlib.Data.List.Chain
import Mathlib.Logic.Relation
import Mathlib.Tactic.Common

namespace blocks

/-- A header at `addr`, and `size` bytes behind it. -/
structure Block where
  addr : Nat
  size : Nat
  free : Bool
  /-- It is the last block of its arena. -/
  last : Bool
  /-- The index of its arena. -/
  arena : Nat
deriving DecidableEq

/-- The first and the end address of an arena. -/
abbrev Arena := Nat × Nat

variable {H : Nat} {arenas : List Arena} {bs l r xs ys : List Block}

def Block.stop (H : Nat) (b : Block) : Nat := b.addr + H + b.size

theorem Block.stop_eq (b : Block) : b.stop H = b.addr + H + b.size := rfl

/-- `b` may follow `a`: it opens the next arena, or it stands behind `a` in the same one. -/
def Next (H : Nat) (a b : Block) : Prop :=
  (a.last = true ∧ b.arena = a.arena + 1) ∨
    (a.last = false ∧ b.arena = a.arena ∧ a.stop H ≤ b.addr)

/-- `b` comes later than `a`: in a later arena, or behind `a` in the same one. -/
def Before (H : Nat) (a b : Block) : Prop :=
  a.arena < b.arena ∨ (a.arena = b.arena ∧ a.last = false ∧ a.stop H ≤ b.addr)

theorem Next.before {a b : Block} (h : Next H a b) : Before H a b := by
  rcases h with ⟨_, h⟩ | ⟨h1, h2, h3⟩
  · exact Or.inl (by omega)
  · exact Or.inr ⟨h2.symm, h1, h3⟩

instance : Trans (Before H) (Before H) (Before H) where
  trans := by
    intro a b c hab hbc
    rcases hab with hab | ⟨hab, hl, hs⟩
    · rcases hbc with hbc | ⟨hbc, _⟩
      · exact Or.inl (by omega)
      · exact Or.inl (by omega)
    · rcases hbc with hbc | ⟨hbc, _, hs'⟩
      · exact Or.inl (by omega)
      · refine Or.inr ⟨hab.trans hbc, hl, ?_⟩
        have := b.stop_eq (H := H)
        omega

/-- Two ranges share no address. -/
def Apart (a b : Arena) : Prop := a.2 ≤ b.1 ∨ b.2 ≤ a.1

/-- The block lies in its arena. -/
def Inside (H : Nat) (arenas : List Arena) (b : Block) : Prop :=
  ∃ lo hi, arenas[b.arena]? = some (lo, hi) ∧ lo ≤ b.addr ∧ b.stop H ≤ hi

structure Laid (H : Nat) (arenas : List Arena) (bs : List Block) : Prop where
  inside : ∀ b ∈ bs, Inside H arenas b
  chain : bs.IsChain (Next H)
  first : ∀ b ∈ bs.head?, b.arena = 0
  top : ∀ b ∈ bs.getLast?, b.last = true ∧ b.arena + 1 = arenas.length
  last_free : ∀ b ∈ bs, b.last = true → b.free = true
  none : bs = [] → arenas = []
  apart : arenas.Pairwise Apart

theorem laid_nil : Laid H [] [] where
  inside := by simp
  chain := List.isChain_nil
  first := by simp
  top := by simp
  last_free := by simp
  none := by simp
  apart := List.Pairwise.nil

/-! ## What a layout says -/

theorem Laid.before (h : Laid H arenas bs) : bs.Pairwise (Before H) :=
  List.isChain_iff_pairwise.mp (h.chain.imp (fun _ _ hn => hn.before))

theorem apart_of_before {a b : Block} (h : Laid H arenas bs) (ha : a ∈ bs) (hb : b ∈ bs)
    (hab : Before H a b) : a.stop H ≤ b.addr ∨ b.stop H ≤ a.addr := by
  rcases hab with hlt | ⟨_, _, hle⟩
  · obtain ⟨lo, hi, hA, h1, h2⟩ := h.inside a ha
    obtain ⟨lo', hi', hB, h3, h4⟩ := h.inside b hb
    obtain ⟨hia, hgetA⟩ := List.getElem?_eq_some_iff.mp hA
    obtain ⟨hib, hgetB⟩ := List.getElem?_eq_some_iff.mp hB
    have hp := List.pairwise_iff_getElem.mp h.apart _ _ hia hib hlt
    rw [hgetA, hgetB] at hp
    rcases hp with hp | hp
    · exact Or.inl (by simp only at hp; omega)
    · exact Or.inr (by simp only at hp; omega)
  · exact Or.inl hle

/-- Blocks on the two sides of a place in the list are apart. -/
theorem Laid.apart_blocks (h : Laid H arenas bs) :
    bs.Pairwise (fun a b => a.stop H ≤ b.addr ∨ b.stop H ≤ a.addr) :=
  h.before.imp_of_mem (fun ha hb hab => apart_of_before h ha hb hab)

/-- A block that is not the last of its arena has its next one in the same arena. -/
theorem Laid.next_of_not_last {b : Block} (h : Laid H arenas (l ++ b :: r)) (hb : b.last = false) :
    ∃ n r', r = n :: r' ∧ n.arena = b.arena ∧ b.stop H ≤ n.addr := by
  cases r with
  | nil =>
    have := (h.top b (by simp)).1
    rw [hb] at this
    cases this
  | cons n r' =>
    have hn : Next H b n := by
      have := h.chain
      rw [List.isChain_append] at this
      exact (List.isChain_cons_cons.mp this.2.1).1
    rcases hn with ⟨hl, _⟩ | ⟨_, ha, hs⟩
    · rw [hb] at hl
      cases hl
    · exact ⟨n, r', rfl, ha, hs⟩

/-- The block stands in the range of addresses. -/
def In (H : Nat) (a : Arena) (b : Block) : Prop := a.1 ≤ b.addr ∧ b.stop H ≤ a.2

/-- A block stands in the range of its own arena, and in no other one. -/
theorem Laid.in_iff {b : Block} {a : Arena} {i : Nat} (h : Laid H arenas bs) (hH : 0 < H)
    (hb : b ∈ bs) (ha : arenas[i]? = some a) : In H a b ↔ b.arena = i := by
  obtain ⟨lo, hi, hA, h1, h2⟩ := h.inside b hb
  constructor
  · rintro ⟨h3, h4⟩
    obtain ⟨hib, hgb⟩ := List.getElem?_eq_some_iff.mp hA
    obtain ⟨hia, hga⟩ := List.getElem?_eq_some_iff.mp ha
    have hstop := b.stop_eq (H := H)
    rcases Nat.lt_trichotomy b.arena i with hlt | heq | hgt
    · have hp := List.pairwise_iff_getElem.mp h.apart _ _ hib hia hlt
      rw [hgb, hga] at hp
      simp only [Apart] at hp
      omega
    · exact heq
    · have hp := List.pairwise_iff_getElem.mp h.apart _ _ hia hib hgt
      rw [hgb, hga] at hp
      simp only [Apart] at hp
      omega
  · rintro rfl
    rw [hA] at ha
    cases ha
    exact ⟨h1, h2⟩

theorem chain_each_arena {k n : Nat} (hc : bs.IsChain (Next H)) (hk : ∀ b ∈ bs.head?, b.arena = k)
    (hn : ∀ b ∈ bs.getLast?, b.last = true ∧ b.arena + 1 = n) (hne : bs ≠ []) {i : Nat}
    (h1 : k ≤ i) (h2 : i < n) : ∃ b ∈ bs, b.arena = i ∧ b.last = true := by
  induction bs generalizing k with
  | nil => exact absurd rfl hne
  | cons b bs ih =>
    obtain rfl := hk b (by simp)
    cases bs with
    | nil =>
      obtain ⟨h3, h4⟩ := hn b (by simp)
      exact ⟨b, by simp, by omega, h3⟩
    | cons c bs =>
      have hn' : ∀ x ∈ (c :: bs).getLast?, x.last = true ∧ x.arena + 1 = n :=
        fun x hx => hn x (by simpa using hx)
      have htail : ∀ {j : Nat}, c.arena = j → j ≤ i →
          ∃ x ∈ b :: c :: bs, x.arena = i ∧ x.last = true := by
        intro j hj hle
        obtain ⟨x, hx, hxi⟩ := ih hc.tail (by simpa using hj) hn' (by simp) hle
        exact ⟨x, List.mem_cons_of_mem _ hx, hxi⟩
      rcases (List.isChain_cons_cons.mp hc).1 with ⟨hl, ha⟩ | ⟨_, ha, _⟩
      · by_cases hi : i = b.arena
        · exact ⟨b, by simp, hi.symm, hl⟩
        · exact htail ha (by omega)
      · exact htail ha h1

/-- Each arena has its last block. -/
theorem Laid.each_arena {i : Nat} (h : Laid H arenas bs) (hi : i < arenas.length) :
    ∃ b ∈ bs, b.arena = i ∧ b.last = true := by
  refine chain_each_arena h.chain h.first h.top ?_ (Nat.zero_le i) hi
  intro hbs
  rw [h.none hbs] at hi
  exact absurd hi (Nat.not_lt_zero i)

/-! ## Changes of a few neighbours -/

/-- `ys` fits in the place of `xs`. -/
structure Refit (H : Nat) (xs ys : List Block) : Prop where
  chain : ys.IsChain (Next H)
  head : ∃ x ∈ xs.head?, ∃ y ∈ ys.head?, y.addr = x.addr ∧ y.arena = x.arena
  last : ∃ x ∈ xs.getLast?, ∃ y ∈ ys.getLast?,
    y.last = x.last ∧ y.arena = x.arena ∧ y.stop H ≤ x.stop H
  inside : ∀ y ∈ ys, ∃ x ∈ xs, ∃ x' ∈ xs, y.arena = x.arena ∧ y.arena = x'.arena ∧
    x.addr ≤ y.addr ∧ y.stop H ≤ x'.stop H
  last_free : ∀ y ∈ ys, y.last = true → y.free = true

theorem Laid.refit (h : Laid H arenas (l ++ (xs ++ r))) (hr : Refit H xs ys) :
    Laid H arenas (l ++ (ys ++ r)) := by
  obtain ⟨x, hx, y, hy, haddr, harena⟩ := hr.head
  obtain ⟨x', hx', y', hy', hlast, harena', hstop⟩ := hr.last
  have hxs : xs ≠ [] := by rintro rfl; simp at hx
  have hys : ys ≠ [] := by rintro rfl; simp at hy
  have hchain := h.chain
  rw [List.isChain_append, List.isChain_append, List.head?_append_of_ne_nil _ hxs] at hchain
  obtain ⟨hl, ⟨_, hrr, hxr⟩, hlx⟩ := hchain
  refine ⟨?_, ?_, ?_, ?_, ?_, ?_, h.apart⟩
  · intro b hb
    simp only [List.mem_append] at hb
    rcases hb with hb | hb | hb
    · exact h.inside b (by simp [hb])
    · obtain ⟨c, hc, c', hc', ha, ha', h1, h2⟩ := hr.inside b hb
      obtain ⟨lo, hi, hA, h3, _⟩ := h.inside c (by simp [hc])
      obtain ⟨lo', hi', hA', _, h4⟩ := h.inside c' (by simp [hc'])
      rw [← ha] at hA
      rw [← ha', hA] at hA'
      cases hA'
      exact ⟨lo, hi, hA, by omega, by omega⟩
    · exact h.inside b (by simp [hb])
  · rw [List.isChain_append, List.isChain_append, List.head?_append_of_ne_nil _ hys]
    refine ⟨hl, ⟨hr.chain, hrr, ?_⟩, ?_⟩
    · intro a ha n hn
      rw [Option.mem_def] at ha hy'
      obtain rfl : y' = a := Option.some.inj (hy'.symm.trans ha)
      rcases hxr x' hx' n hn with ⟨h1, h2⟩ | ⟨h1, h2, h3⟩
      · exact Or.inl ⟨hlast.trans h1, by omega⟩
      · exact Or.inr ⟨hlast.trans h1, by omega, by omega⟩
    · intro a ha n hn
      rw [Option.mem_def] at hn hy
      obtain rfl : y = n := Option.some.inj (hy.symm.trans hn)
      rcases hlx a ha x hx with ⟨h1, h2⟩ | ⟨h1, h2, h3⟩
      · exact Or.inl ⟨h1, by omega⟩
      · exact Or.inr ⟨h1, by omega, by omega⟩
  · intro b hb
    cases l with
    | nil =>
      rw [List.nil_append, List.head?_append_of_ne_nil _ hys, Option.mem_def] at hb
      rw [Option.mem_def] at hy
      obtain rfl : y = b := Option.some.inj (hy.symm.trans hb)
      rw [harena]
      apply h.first
      rw [List.nil_append, List.head?_append_of_ne_nil _ hxs]
      exact hx
    | cons a l => exact h.first b (by simpa using hb)
  · intro b hb
    cases r with
    | nil =>
      rw [List.append_nil, List.getLast?_append_of_ne_nil _ hys, Option.mem_def] at hb
      rw [Option.mem_def] at hy'
      obtain rfl : y' = b := Option.some.inj (hy'.symm.trans hb)
      rw [hlast, harena']
      apply h.top
      rw [List.append_nil, List.getLast?_append_of_ne_nil _ hxs]
      exact hx'
    | cons a r =>
      apply h.top b
      rw [List.getLast?_append_of_ne_nil _ (by simp),
        List.getLast?_append_of_ne_nil _ (by simp)] at hb ⊢
      exact hb
  · intro b hb
    simp only [List.mem_append] at hb
    rcases hb with hb | hb | hb
    · exact h.last_free b (by simp [hb])
    · exact hr.last_free b hb
    · exact h.last_free b (by simp [hb])
  · simp [hys]

/-- A block with its mark of use changed, and no larger, fits in its place. -/
theorem refit_one {b b' : Block} (h1 : b'.addr = b.addr) (h2 : b'.arena = b.arena)
    (h3 : b'.last = b.last) (h4 : b'.size ≤ b.size) (h5 : b.last = true → b'.free = true) :
    Refit H [b] [b'] where
  chain := List.isChain_singleton _
  head := ⟨b, by simp, b', by simp, h1, h2⟩
  last := ⟨b, by simp, b', by simp, h3, h2, by simp only [Block.stop]; omega⟩
  inside := by
    intro y hy
    rw [List.mem_singleton] at hy
    subst hy
    exact ⟨b, by simp, b, by simp, h2, h2, by omega, by simp only [Block.stop]; omega⟩
  last_free := by
    intro y hy hl
    rw [List.mem_singleton] at hy
    subst hy
    exact h5 (h3 ▸ hl)

/-- `b` takes in the block behind it, but not the header of that block. -/
def Block.merge (b n : Block) : Block := { b with size := b.size + n.size, last := n.last }

/-- Two neighbours of one arena become one block. -/
theorem refit_merge {b n : Block} (hb : b.free = true) (hn : Next H b n) (hl : b.last = false) :
    Refit H [b, n] [b.merge n] := by
  obtain ⟨ha, hs⟩ : n.arena = b.arena ∧ b.stop H ≤ n.addr := by
    rcases hn with ⟨h, _⟩ | ⟨_, h⟩
    · rw [hl] at h
      cases h
    · exact h
  have hstop : (b.merge n).stop H ≤ n.stop H := by
    simp only [Block.stop, Block.merge] at hs ⊢
    omega
  refine ⟨List.isChain_singleton _, ⟨b, by simp, _, rfl, rfl, rfl⟩,
    ⟨n, by simp, _, rfl, rfl, ha.symm, hstop⟩, ?_, ?_⟩
  · intro y hy
    rw [List.mem_singleton] at hy
    subst hy
    exact ⟨b, by simp, n, by simp, rfl, ha.symm, le_refl _, hstop⟩
  · intro y hy _
    rw [List.mem_singleton] at hy
    subst hy
    exact hb

/-- The used block that a split leaves, with `s` bytes. -/
def Block.used (b : Block) (s : Nat) : Block := { b with size := s, free := false, last := false }

/-- The free block behind it, with what is left after one more header. -/
def Block.rest (H : Nat) (b : Block) (s : Nat) : Block :=
  { b with addr := b.addr + H + s, size := b.size - s - H }

/-- A free block with room for `s` bytes and one more header becomes two blocks. -/
theorem refit_split {b : Block} {s : Nat} (hb : b.free = true) (hs : s + H ≤ b.size) :
    Refit H [b] [b.used s, b.rest H s] := by
  have hstop : (b.rest H s).stop H ≤ b.stop H := by
    simp only [Block.stop, Block.rest]
    omega
  refine ⟨?_, ⟨b, by simp, _, rfl, rfl, rfl⟩, ⟨b, by simp, _, rfl, rfl, rfl, hstop⟩, ?_, ?_⟩
  · rw [List.isChain_pair]
    exact Or.inr ⟨rfl, rfl, le_refl _⟩
  · intro y hy
    refine ⟨b, by simp, b, by simp, ?_⟩
    simp only [List.mem_cons, List.not_mem_nil, or_false] at hy
    rcases hy with rfl | rfl
    · refine ⟨rfl, rfl, le_refl _, ?_⟩
      simp only [Block.stop, Block.used]
      omega
    · refine ⟨rfl, rfl, ?_, hstop⟩
      simp only [Block.rest]
      omega
  · intro y hy hl
    simp only [List.mem_cons, List.not_mem_nil, or_false] at hy
    rcases hy with rfl | rfl
    · cases hl
    · exact hb

/-! ## Growth -/

/-- A new arena with one free block goes to the end of the list. -/
theorem Laid.add (h : Laid H arenas bs) (a : Arena) (size : Nat) (hfit : a.1 + H + size ≤ a.2)
    (ha : ∀ x ∈ arenas, Apart x a) :
    Laid H (arenas ++ [a])
      (bs ++ [{ addr := a.1, size, free := true, last := true, arena := arenas.length }]) := by
  have hmem : ∀ b ∈ bs, ∃ x, arenas[b.arena]? = some x := by
    intro b hb
    obtain ⟨lo, hi, hA, _⟩ := h.inside b hb
    exact ⟨_, hA⟩
  refine ⟨?_, ?_, ?_, ?_, ?_, by simp, ?_⟩
  · intro b hb
    rcases List.mem_append.mp hb with hb | hb
    · obtain ⟨lo, hi, hA, h1, h2⟩ := h.inside b hb
      have hlt := (List.getElem?_eq_some_iff.mp hA).1
      exact ⟨lo, hi, by rw [List.getElem?_append_left hlt]; exact hA, h1, h2⟩
    · rw [List.mem_singleton] at hb
      subst hb
      exact ⟨a.1, a.2, by simp, le_refl _, hfit⟩
  · rw [List.isChain_append]
    refine ⟨h.chain, List.isChain_singleton _, ?_⟩
    intro x hx y hy
    simp only [List.head?_cons, Option.mem_def, Option.some.injEq] at hy
    subst hy
    obtain ⟨h1, h2⟩ := h.top x hx
    exact Or.inl ⟨h1, h2.symm⟩
  · intro b hb
    cases bs with
    | nil =>
      simp only [List.nil_append, List.head?_cons, Option.mem_def, Option.some.injEq] at hb
      subst hb
      rw [h.none rfl]
      rfl
    | cons c bs => exact h.first b (by simpa using hb)
  · intro b hb
    simp only [List.getLast?_append, List.getLast?_singleton, Option.some_or, Option.mem_def,
      Option.some.injEq] at hb
    subst hb
    simp
  · intro b hb hl
    rcases List.mem_append.mp hb with hb | hb
    · exact h.last_free b hb hl
    · rw [List.mem_singleton] at hb
      subst hb
      rfl
  · rw [List.pairwise_append]
    refine ⟨h.apart, List.pairwise_singleton _ _, ?_⟩
    intro x hx y hy
    rw [List.mem_singleton] at hy
    subst hy
    exact ha x hx

/-- The last arena grows at its end, and with it the last block. -/
theorem Laid.extend {as : List Arena} {lo hi hi' : Nat} {b : Block} {size : Nat}
    (h : Laid H (as ++ [(lo, hi)]) (bs ++ [b])) (hle : hi ≤ hi') (hsize : b.addr + H + size ≤ hi')
    (ha : ∀ x ∈ as, Apart x (lo, hi')) :
    Laid H (as ++ [(lo, hi')]) (bs ++ [{ b with size }]) := by
  obtain ⟨htl, hta⟩ := h.top b (by simp)
  have hidx : b.arena = as.length := by simpa using hta
  have hwide : ∀ c : Block, Inside H (as ++ [(lo, hi)]) c → Inside H (as ++ [(lo, hi')]) c := by
    rintro c ⟨lo', hi'', hA, h1, h2⟩
    by_cases hc : c.arena < as.length
    · rw [List.getElem?_append_left hc] at hA
      exact ⟨lo', hi'', by rw [List.getElem?_append_left hc]; exact hA, h1, h2⟩
    · have hlt := (List.getElem?_eq_some_iff.mp hA).1
      have hce : c.arena = as.length := by simp at hlt; omega
      rw [hce] at hA
      simp only [List.getElem?_concat_length, Option.some.injEq, Prod.mk.injEq] at hA
      obtain ⟨rfl, rfl⟩ := hA
      exact ⟨lo, hi', by rw [hce]; simp, h1, by omega⟩
  refine ⟨?_, ?_, ?_, ?_, ?_, by simp, ?_⟩
  · intro c hc
    rcases List.mem_append.mp hc with hc | hc
    · exact hwide c (h.inside c (by simp [hc]))
    · rw [List.mem_singleton] at hc
      subst hc
      obtain ⟨lo', hi'', hA, h1, _⟩ := h.inside b (by simp)
      rw [hidx] at hA
      simp only [List.getElem?_concat_length, Option.some.injEq, Prod.mk.injEq] at hA
      obtain ⟨rfl, rfl⟩ := hA
      exact ⟨lo, hi', by simp [hidx], h1, hsize⟩
  · have hchain := h.chain
    rw [List.isChain_append] at hchain ⊢
    refine ⟨hchain.1, List.isChain_singleton _, ?_⟩
    intro x hx y hy
    simp only [List.head?_cons, Option.mem_def, Option.some.injEq] at hy
    subst hy
    exact hchain.2.2 x hx b (by simp)
  · intro c hc
    cases bs with
    | nil =>
      simp only [List.nil_append, List.head?_cons, Option.mem_def, Option.some.injEq] at hc
      subst hc
      exact h.first b (by simp)
    | cons d bs => exact h.first c (by simpa using hc)
  · intro c hc
    simp only [List.getLast?_append, List.getLast?_singleton, Option.some_or, Option.mem_def,
      Option.some.injEq] at hc
    subst hc
    simp only [htl, hidx, List.length_append, List.length_singleton, and_self]
  · intro c hc hl
    rcases List.mem_append.mp hc with hc | hc
    · exact h.last_free c (by simp [hc]) hl
    · rw [List.mem_singleton] at hc
      subst hc
      exact h.last_free b (by simp) hl
  · have hp := h.apart
    rw [List.pairwise_append] at hp ⊢
    refine ⟨hp.1, List.pairwise_singleton _ _, ?_⟩
    intro x hx y hy
    rw [List.mem_singleton] at hy
    subst hy
    exact ha x hx

/-! ## Bytes -/

/-- The bytes of all blocks, with their headers. -/
def total (H : Nat) : List Block → Nat
  | [] => 0
  | b :: bs => H + b.size + total H bs

@[simp] theorem total_nil : total H [] = 0 := rfl

@[simp] theorem total_cons (b : Block) : total H (b :: bs) = H + b.size + total H bs := rfl

@[simp] theorem total_append : total H (l ++ r) = total H l + total H r := by
  induction l with
  | nil => simp
  | cons b l ih =>
    rw [List.cons_append, total_cons, total_cons, ih]
    omega

/-- The blocks in use, with their payloads. -/
def usedBlocks (bs : List Block) : List Block := bs.filter (fun b => !b.free)

@[simp] theorem usedBlocks_append : usedBlocks (l ++ r) = usedBlocks l ++ usedBlocks r :=
  List.filter_append ..

theorem usedBlocks_free {b : Block} (h : b.free = true) : usedBlocks (b :: bs) = usedBlocks bs := by
  simp [usedBlocks, h]

theorem usedBlocks_used {b : Block} (h : b.free = false) :
    usedBlocks (b :: bs) = b :: usedBlocks bs := by
  simp [usedBlocks, h]

theorem mem_usedBlocks {b : Block} : b ∈ usedBlocks bs ↔ b ∈ bs ∧ b.free = false := by
  simp [usedBlocks]

/-- The payload bytes of the free blocks. -/
def freeBytes : List Block → Nat
  | [] => 0
  | b :: bs => (if b.free then b.size else 0) + freeBytes bs

@[simp] theorem freeBytes_nil : freeBytes [] = 0 := rfl

@[simp] theorem freeBytes_append : freeBytes (l ++ r) = freeBytes l + freeBytes r := by
  induction l with
  | nil => simp
  | cons b l ih =>
    rw [List.cons_append, freeBytes, freeBytes, ih]
    omega

theorem freeBytes_free {b : Block} (h : b.free = true) :
    freeBytes (b :: bs) = b.size + freeBytes bs := by
  simp [freeBytes, h]

theorem freeBytes_used {b : Block} (h : b.free = false) : freeBytes (b :: bs) = freeBytes bs := by
  simp [freeBytes, h]

/-! ## Merges -/

/-- A free block takes in the free block behind it in its arena. -/
inductive MergeStep : List Block → List Block → Prop
  | merge (l : List Block) {b n : Block} (r : List Block) : b.free = true → b.last = false →
      n.free = true → MergeStep (l ++ b :: n :: r) (l ++ b.merge n :: r)

abbrev Merges : List Block → List Block → Prop := Relation.ReflTransGen MergeStep

theorem MergeStep.behind (h : MergeStep xs ys) (l : List Block) :
    MergeStep (l ++ xs) (l ++ ys) := by
  cases h with
  | merge k r hb hl hn =>
    rw [← List.append_assoc, ← List.append_assoc]
    exact .merge (l ++ k) r hb hl hn

theorem Merges.behind (h : Merges xs ys) (l : List Block) : Merges (l ++ xs) (l ++ ys) := by
  induction h with
  | refl => exact .refl
  | tail _ hs ih => exact ih.tail (hs.behind l)

theorem MergeStep.laid (h : MergeStep xs ys) (hl : Laid H arenas xs) : Laid H arenas ys := by
  cases h with
  | @merge l b n r hb hlast hn =>
    have hnext : Next H b n := by
      have := hl.chain
      rw [List.isChain_append] at this
      exact (List.isChain_cons_cons.mp this.2.1).1
    have hl' : Laid H arenas (l ++ ([b, n] ++ r)) := hl
    exact hl'.refit (refit_merge hb hnext hlast)

theorem MergeStep.used (h : MergeStep xs ys) : usedBlocks ys = usedBlocks xs := by
  cases h with
  | @merge l b n r hb hlast hn =>
    rw [usedBlocks_append, usedBlocks_append, usedBlocks_free hb, usedBlocks_free hn,
      usedBlocks_free (b := b.merge n) hb]

theorem MergeStep.freeBytes (h : MergeStep xs ys) : freeBytes ys = freeBytes xs := by
  cases h with
  | @merge l b n r hb hlast hn =>
    rw [freeBytes_append, freeBytes_append, freeBytes_free hb, freeBytes_free hn,
      freeBytes_free (b := b.merge n) hb]
    simp only [Block.merge]
    omega

/-- A merge forgets one header. -/
theorem MergeStep.total (h : MergeStep xs ys) : total H ys + H = total H xs := by
  cases h with
  | @merge l b n r hb hlast hn =>
    simp only [total_append, total_cons, Block.merge]
    omega

/-- Some free block has room for `need` bytes. -/
def Room (need : Nat) (bs : List Block) : Prop := ∃ b ∈ bs, b.free = true ∧ need ≤ b.size

theorem MergeStep.room {need : Nat} (h : MergeStep xs ys) (hr : Room need xs) : Room need ys := by
  cases h with
  | @merge l b n r hb hlast hn =>
    obtain ⟨c, hc, hcf, hcs⟩ := hr
    have hm : need ≤ b.size ∨ need ≤ n.size → Room need (l ++ b.merge n :: r) := by
      intro hor
      refine ⟨b.merge n, by simp, hb, ?_⟩
      simp only [Block.merge]
      omega
    simp only [List.mem_append, List.mem_cons] at hc
    rcases hc with hc | rfl | rfl | hc
    · exact ⟨c, by simp [hc], hcf, hcs⟩
    · exact hm (Or.inl hcs)
    · exact hm (Or.inr hcs)
    · exact ⟨c, by simp [hc], hcf, hcs⟩

theorem MergeStep.ne_nil (h : MergeStep xs ys) : ys ≠ [] := by
  cases h with
  | merge l r _ _ _ => simp

theorem Merges.ne_nil (h : Merges xs ys) (hx : xs ≠ []) : ys ≠ [] := by
  cases h with
  | refl => exact hx
  | tail _ hlast => exact hlast.ne_nil

theorem Merges.used (h : Merges xs ys) : usedBlocks ys = usedBlocks xs := by
  induction h with
  | refl => rfl
  | tail _ hs ih => exact hs.used.trans ih

theorem Merges.freeBytes (h : Merges xs ys) : freeBytes ys = freeBytes xs := by
  induction h with
  | refl => rfl
  | tail _ hs ih => exact hs.freeBytes.trans ih

theorem Merges.room {need : Nat} (h : Merges xs ys) (hr : Room need xs) : Room need ys := by
  induction h with
  | refl => exact hr
  | tail _ hs ih => exact hs.room ih

theorem Merges.total_le (h : Merges xs ys) : total H ys ≤ total H xs := by
  induction h with
  | refl => exact le_refl _
  | tail _ hs ih =>
    have := hs.total (H := H)
    omega

/-! ## Runs of free blocks -/

/-- The run that `b` goes on, or opens: the address of its first block, and the sum of sizes. -/
def Block.join (b : Block) : Option (Nat × Nat) → Nat × Nat
  | none => (b.addr, b.size)
  | some (a, n) => (a, n + b.size)

/-- The runs of free blocks in a row within one arena, behind the open run `cur`. -/
def freeRuns : Option (Nat × Nat) → List Block → List (Nat × Nat)
  | cur, [] => cur.toList
  | cur, b :: bs =>
    if b.free then
      if b.last then b.join cur :: freeRuns none bs else freeRuns (some (b.join cur)) bs
    else cur.toList ++ freeRuns none bs

theorem freeRuns_used {b : Block} (h : b.free = false) (cur : Option (Nat × Nat)) :
    freeRuns cur (b :: bs) = cur.toList ++ freeRuns none bs := by
  simp [freeRuns, h]

theorem freeRuns_free {b : Block} (h : b.free = true) (hl : b.last = false)
    (cur : Option (Nat × Nat)) : freeRuns cur (b :: bs) = freeRuns (some (b.join cur)) bs := by
  simp [freeRuns, h, hl]

theorem freeRuns_last {b : Block} (h : b.free = true) (hl : b.last = true)
    (cur : Option (Nat × Nat)) : freeRuns cur (b :: bs) = b.join cur :: freeRuns none bs := by
  simp [freeRuns, h, hl]

/-- An open run ends where no free block follows. -/
theorem freeRuns_some (a n : Nat) (h : ∀ c ∈ bs.head?, c.free = false) :
    freeRuns (some (a, n)) bs = (a, n) :: freeRuns none bs := by
  cases bs with
  | nil => rfl
  | cons c bs =>
    have hc := h c (by simp)
    rw [freeRuns_used hc, freeRuns_used hc]
    rfl

/-- An open run is the next one to be closed, and it only grows. -/
theorem freeRuns_grows (a n : Nat) : ∃ m rs, freeRuns (some (a, n)) bs = (a, m) :: rs ∧ n ≤ m := by
  induction bs generalizing n with
  | nil => exact ⟨n, [], rfl, le_refl _⟩
  | cons b bs ih =>
    cases hb : b.free with
    | false => exact ⟨n, freeRuns none bs, freeRuns_used hb _, le_refl _⟩
    | true =>
      cases hl : b.last with
      | true => exact ⟨n + b.size, freeRuns none bs, freeRuns_last hb hl _, by omega⟩
      | false =>
        obtain ⟨m, rs, heq, hle⟩ := ih (n + b.size)
        exact ⟨m, rs, (freeRuns_free hb hl _).trans heq, by omega⟩

/-- A merge changes the sum of no run. -/
theorem MergeStep.runs (h : MergeStep xs ys) (cur : Option (Nat × Nat)) :
    freeRuns cur ys = freeRuns cur xs := by
  cases h with
  | @merge l b n r hb hlast hn =>
    induction l generalizing cur with
    | nil =>
      have hjoin : (b.merge n).join cur = n.join (some (b.join cur)) := by
        cases cur with
        | none => rfl
        | some p => simp [Block.join, Block.merge, Nat.add_assoc]
      rw [List.nil_append, List.nil_append, freeRuns_free hb hlast]
      cases hl : n.last with
      | true => rw [freeRuns_last (b := b.merge n) hb hl, freeRuns_last hn hl, hjoin]
      | false => rw [freeRuns_free (b := b.merge n) hb hl, freeRuns_free hn hl, hjoin]
    | cons c l ih => simp only [List.cons_append, freeRuns, ih]

theorem Merges.runs (h : Merges xs ys) (cur : Option (Nat × Nat)) :
    freeRuns cur ys = freeRuns cur xs := by
  induction h with
  | refl => rfl
  | tail _ hs ih => exact (hs.runs cur).trans ih

end blocks
