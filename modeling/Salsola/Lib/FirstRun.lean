-- The first run of `n` positions in a row that are all free, and the scan that
-- finds it: one pass with one counter, which starts anew at each position
-- that is not free. And first fit: demands that take one first run after another.
import Mathlib.Data.Nat.Init
import Mathlib.Tactic.Common

namespace runs

variable {free free' : Nat → Prop} {bound n p left r : Nat}

/-- The `n` positions from `r` on are free. -/
def IsRun (free : Nat → Prop) (r n : Nat) : Prop := ∀ k, r ≤ k → k < r + n → free k

/-- The `n` positions from `r` on are the first `n` in a row below `bound` that are free. -/
structure FirstRun (free : Nat → Prop) (bound r n : Nat) : Prop where
  below : r + n ≤ bound
  run : IsRun free r n
  first : ∀ r', r' < r → ¬ IsRun free r' n

/-- The bound does not matter to where the first run starts. -/
theorem FirstRun.unique {bound' r' : Nat} (h : FirstRun free bound r n)
    (h' : FirstRun free bound' r' n) : r = r' := by
  rcases Nat.lt_trichotomy r r' with hlt | heq | hgt
  · exact absurd h.run (h'.first r hlt)
  · exact heq
  · exact absurd h'.run (h.first r' hgt)

/-- Below a run there is a first run. -/
theorem IsRun.firstRun (h : IsRun free r n) (hb : r + n ≤ bound) :
    ∃ r', FirstRun free bound r' n := by
  induction r using Nat.strongRecOn with
  | ind r ih =>
    by_cases hlow : ∃ r', r' < r ∧ IsRun free r' n
    · obtain ⟨r', hlt, hrun⟩ := hlow
      exact ih r' hlt hrun (by omega)
    · exact ⟨r, hb, h, fun r' hlt hrun => hlow ⟨r', hlt, hrun⟩⟩

/-- A scan has passed the positions below `p`, found no run of `n` among them, and needs
`left` more free positions: the last `n - left` are free, and no more than these. -/
structure Scanned (free : Nat → Prop) (n p left : Nat) : Prop where
  pos : 0 < left
  le : left ≤ n
  fits : n ≤ p + left
  tail : ∀ k, p + left ≤ k + n → k < p → free k
  edge : ∀ k, k + 1 + n = p + left → ¬ free k
  none : ∀ r, r + n ≤ p → ¬ IsRun free r n

theorem scanned_start (h : 0 < n) : Scanned free n 0 n where
  pos := h
  le := Nat.le_refl n
  fits := by omega
  tail := by omega
  edge := by omega
  none := by omega

/-- A position that is not free starts the counter anew. -/
theorem Scanned.skip (h : Scanned free n p left) (hp : ¬ free p) : Scanned free n (p + 1) n where
  pos := by have := h.pos; have := h.le; omega
  le := Nat.le_refl n
  fits := by omega
  tail := by omega
  edge := by
    intro k hk
    obtain rfl : k = p := by omega
    exact hp
  none := by
    intro r hr hrun
    have hpos := h.pos
    have hle := h.le
    by_cases hlast : r + n = p + 1
    · exact hp (hrun p (by omega) (by omega))
    · exact h.none r (by omega) hrun

/-- A free position that is not the last one wanted brings the counter down. -/
theorem Scanned.count (h : Scanned free n p left) (hp : free p) (h1 : 1 < left) :
    Scanned free n (p + 1) (left - 1) where
  pos := by omega
  le := by have := h.le; omega
  fits := by have := h.fits; omega
  tail := by
    intro k hk hkp
    by_cases hlast : k = p
    · exact hlast ▸ hp
    · exact h.tail k (by omega) (by omega)
  edge := by
    intro k hk
    exact h.edge k (by omega)
  none := by
    intro r hr hrun
    have hle := h.le
    have hfits := h.fits
    by_cases hlast : r + n = p + 1
    · exact h.edge (p + left - n - 1) (by omega) (hrun _ (by omega) (by omega))
    · exact h.none r (by omega) hrun

/-- The last free position wanted ends a first run. -/
theorem Scanned.found (h : Scanned free n p left) (hp : free p) (h1 : left = 1)
    (hb : p < bound) : FirstRun free bound (p + 1 - n) n where
  below := by have := h.fits; omega
  run := by
    intro k hk hkn
    have hfits := h.fits
    by_cases hlast : k = p
    · exact hlast ▸ hp
    · exact h.tail k (by omega) (by omega)
  first := by
    intro r hr
    have hfits := h.fits
    exact h.none r (by omega)

/-- A scan that has passed every position has found that there is no run. -/
theorem Scanned.no_run (h : Scanned free n bound left) (hr : r + n ≤ bound) :
    ¬ IsRun free r n := h.none r hr

/-- A scan may pass many positions at once, when none of them is free. -/
theorem Scanned.skip_all (h : Scanned free n p left) (m : Nat) (hm : 0 < m)
    (hp : ∀ k, p ≤ k → k < p + m → ¬ free k) : Scanned free n (p + m) n := by
  induction m with
  | zero => omega
  | succ m ih =>
    by_cases h0 : m = 0
    · subst h0
      exact h.skip (hp p (by omega) (by omega))
    · exact (ih (by omega) (fun k h1 h2 => hp k h1 (by omega))).skip
        (hp (p + m) (by omega) (by omega))

/-! ## First fit -/

/-- `left` is what is left of `free` when each demand, a bound and a size, takes the first run of
its size below its bound, one demand after the other. -/
inductive Placed : (Nat → Prop) → List (Nat × Nat) → (Nat → Prop) → Prop
  | nil (free : Nat → Prop) : Placed free [] free
  | cons {free left : Nat → Prop} {bound n c : Nat} {demands : List (Nat × Nat)} :
      FirstRun free bound c n →
      Placed (fun y => free y ∧ ¬ (c ≤ y ∧ y < c + n)) demands left →
      Placed free ((bound, n) :: demands) left

/-- Each demand finds its run. -/
def Fits (free : Nat → Prop) (demands : List (Nat × Nat)) : Prop :=
  ∃ left, Placed free demands left

section

variable {left left' : Nat → Prop} {c bound' : Nat} {demands demands' : List (Nat × Nat)}

theorem FirstRun.raise (h : FirstRun free bound r n) (hb : bound ≤ bound') :
    FirstRun free bound' r n where
  below := Nat.le_trans h.below hb
  run := h.run
  first := h.first

theorem placed_one (h : FirstRun free bound c n) :
    Placed free [(bound, n)] (fun y => free y ∧ ¬ (c ≤ y ∧ y < c + n)) := .cons h (.nil _)

theorem Placed.append (h : Placed free demands left) (h' : Placed left demands' left') :
    Placed free (demands ++ demands') left' := by
  induction h with
  | nil => exact h'
  | cons hf _ ih => exact .cons hf (ih h')

theorem Placed.split (h : Placed free (demands ++ demands') left) :
    ∃ mid, Placed free demands mid ∧ Placed mid demands' left := by
  induction demands generalizing free with
  | nil => exact ⟨free, .nil _, h⟩
  | cons d demands ih =>
    cases h with
    | cons hf h =>
      obtain ⟨mid, h1, h2⟩ := ih h
      exact ⟨mid, .cons hf h1, h2⟩

theorem Placed.unique (h : Placed free demands left) (h' : Placed free demands left') :
    left = left' := by
  induction h with
  | nil =>
    cases h'
    rfl
  | cons hf _ ih =>
    cases h' with
    | cons hf' h' =>
      rw [hf.unique hf'] at ih
      exact ih h'

theorem Placed.sub (h : Placed free demands left) {y : Nat} (hy : left y) : free y := by
  induction h with
  | nil => exact hy
  | cons _ _ ih => exact (ih hy).1

/-- Nothing is taken at or above all bounds. -/
theorem Placed.above (h : Placed free demands left) {y : Nat} (hb : ∀ d ∈ demands, d.1 ≤ y) :
    left y ↔ free y := by
  induction h with
  | nil => rfl
  | cons hf _ ih =>
    rw [ih (fun d hd => hb d (List.mem_cons_of_mem _ hd))]
    have h1 := hf.below
    have h2 := hb _ List.mem_cons_self
    simp only at h2
    exact and_iff_left (by omega)

/-- What fits below a bound takes the same places below a higher one. -/
theorem Placed.raise {b : Nat} (h : Placed free (demands.map fun d => (b, d.2)) left)
    (hb : ∀ d ∈ demands, b ≤ d.1) : Placed free demands left := by
  induction demands generalizing free with
  | nil => exact h
  | cons d demands ih =>
    cases h with
    | cons hf h =>
      exact .cons (hf.raise (hb d List.mem_cons_self))
        (ih h (fun d hd => hb d (List.mem_cons_of_mem _ hd)))

/-- A run stays free just when all demands fit below it. -/
theorem Placed.keeps_run (h : Placed free demands left) (hrun : IsRun free c n) (hn : 0 < n)
    (hd : ∀ d ∈ demands, 0 < d.2 ∧ c ≤ d.1 ∧ d.1 ≤ c + n) :
    IsRun left c n ↔ Fits free (demands.map fun d => (c, d.2)) := by
  constructor
  · intro hkeep
    refine ⟨left, ?_⟩
    induction h with
    | nil => exact .nil _
    | @cons free left bound m k demands hf h ih =>
      obtain ⟨hm, -, hle⟩ := hd _ List.mem_cons_self
      have hbelow := hf.below
      -- the places of the demand and of the run are apart, and the run ends above the bound
      have hapart : k + m ≤ c := by
        by_contra hlt
        have := (h.sub (hkeep (max k c) (by omega) (by omega))).2
        omega
      refine .cons ⟨hapart, hf.run, hf.first⟩ (ih ?_ (fun d hmem => ?_) hkeep)
      · intro y h1 h2
        exact ⟨hrun y h1 h2, by omega⟩
      · exact hd d (List.mem_cons_of_mem _ hmem)
  · rintro ⟨left', hfits⟩
    have heq := h.unique (hfits.raise (fun d hmem => (hd d hmem).2.1))
    rw [heq]
    intro y h1 h2
    rw [hfits.above]
    · exact hrun y h1 h2
    · intro d hmem
      obtain ⟨e, -, rfl⟩ := List.mem_map.mp hmem
      exact h1

end

end runs
