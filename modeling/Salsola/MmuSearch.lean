-- The search for free pages of the window. Where the page tables are there, a
-- search changes nothing. A page table that is missing is made from a free page
-- below it, and if there is none, the call never returns: `allocate_pt` would
-- need itself. So no call makes the table that it is called from.
import Salsola.MmuWrites

open memory outcome runs

namespace salsola.mmu

variable {W : Nat} {dirs : List Nat} {s s' s'' : Mmu} {a b c e i j n p q r x y t length : Nat}
variable {halts : Halt → Prop} {ap : AllocatePt}

/-- A call that may stop for any reason. -/
abbrev anyhow : Halt → Prop := fun _ => True

theorem spec_anyhow {α : Type} {post : α → Prop} (x : Result α) (h : ∀ a, post a) :
    Spec x anyhow post := by
  cases x with
  | ok a => exact h a
  | error e => trivial

/-! ## Pages that have a page table -/

/-- `allocate_pt` for page `x` of the window. -/
def at_page (ap : AllocatePt) (s : Mmu) (x : Nat) : Result (Bool × Mmu) :=
  ap s (pml4t_index (window x)) (pdpt_index (window x)) (pdt_index (window x))

theorem at_page_eq (ap : AllocatePt) (s : Mmu) (hx : x < WINDOW) :
    at_page ap s x = ap s 511 (x / 512 / 512) (x / 512 % 512) := by
  unfold at_page
  rw [pml4t_index_window hx, pdpt_index_window hx, pdt_index_window]

/-- For a page that has its page table, `allocate_pt` changes nothing. -/
def Idle (W : Nat) (dirs : List Nat) (halts : Halt → Prop) (ap : AllocatePt) : Prop :=
  ∀ s x, Sound W dirs s → x < WINDOW → Covered s W (x / 512) →
    Spec (at_page ap s x) halts (fun r => r.2 = s)

theorem next_root (h : Sound W dirs s) : (s.tables s.pml4t).next 511 = W :=
  (h.roots _ h.active).2.1.2

theorem present_root (h : Sound W dirs s) : present ((s.tables s.pml4t).physical 511) :=
  (h.roots _ h.active).2.1.1

theorem pt_window (h : Sound W dirs s) (hx : x < WINDOW) :
    s.pt (window x) = pt_of s W (x / 512) := by
  unfold Mmu.pt pt_of
  rw [pml4t_index_window hx, pdpt_index_window hx, pdt_index_window, next_root h]

/-- What a check reads of a page that has its page table. -/
theorem word_window (h : Sound W dirs s) (hx : x < WINDOW) (hc : Covered s W (x / 512)) :
    s.pts (s.pt (window x)) (pt_index (window x)) = page s W x := by
  rw [pt_window h hx, pt_index_window, page_of_covered hc]

/-- A check without `allocate` tells if the page is free, in the store that `allocate_pt`
leaves. -/
theorem check_spec {Q : Mmu → Prop} (hx : x < WINDOW)
    (hap : Spec (at_page ap s x) halts
      (fun r => Sound W dirs r.2 ∧ Covered r.2 W (x / 512) ∧ Q r.2)) :
    Spec (check_virtual_region_is_free ap s (window x) false false 0) halts
      (fun r => Sound W dirs r.2.2 ∧ Covered r.2.2 W (x / 512) ∧ Q r.2.2 ∧
        (r.1 = true ↔ ¬ Mapped r.2.2 W x)) := by
  unfold check_virtual_region_is_free
  refine spec_bind hap ?_
  rintro ⟨_, s1⟩ ⟨h1, hc, hq⟩
  simp only
  rw [word_window h1 hx hc]
  unfold Mapped
  by_cases hm : present (page s1 W x)
  · rw [if_neg (not_not.mpr hm)]
    exact ⟨h1, hc, hq, by simpa using hm⟩
  · rw [if_pos hm]
    exact ⟨h1, hc, hq, by simpa using hm⟩

theorem check_covered (hap : Idle W dirs halts ap) (h : Sound W dirs s) (hx : x < WINDOW)
    (hc : Covered s W (x / 512)) :
    Spec (check_virtual_region_is_free ap s (window x) false false 0) halts
      (fun r => (r.1 = true ↔ ¬ Mapped s W x) ∧ r.2.2 = s) := by
  refine spec_post (check_spec (Q := fun s' => s' = s) hx
    (?_ : Spec (at_page ap s x) halts (fun r => Sound W dirs r.2 ∧ _))) ?_
  · refine spec_post (hap s x h hx hc) ?_
    rintro ⟨_, s1⟩ rfl
    exact ⟨h, hc, rfl⟩
  · rintro ⟨_, _, s1⟩ ⟨_, _, hs, hfree⟩
    subst hs
    exact ⟨hfree, rfl⟩

/-- A check with `allocate` and a frame maps the page, if it is free. -/
theorem check_maps (hap : Idle W dirs halts ap) (h : Sound W dirs s) (hx : x < WINDOW)
    (hc : Covered s W (x / 512)) (frame : Nat) :
    Spec (check_virtual_region_is_free ap s (window x) true true frame) halts
      (fun r => (r.1 = true ↔ ¬ Mapped s W x) ∧
        (r.1 = true → r.2.2 = s.set_page (pt_of s W (x / 512)) (x % 512) (frame ||| 0x3))) := by
  unfold check_virtual_region_is_free
  refine spec_bind (hap s x h hx hc) ?_
  rintro ⟨_, s1⟩ rfl
  simp only
  rw [word_window h hx hc]
  unfold Mapped
  by_cases hm : present (page s1 W x)
  · rw [if_neg (not_not.mpr hm)]
    exact ⟨by simpa using hm, fun hf => absurd hf (by simp)⟩
  · rw [if_pos hm]
    refine ⟨by simpa using hm, fun _ => ?_⟩
    show ({ s1 with frames := s1.frames }.set_page (s1.pt (window x)) _ _) = _
    rw [pt_window h hx, pt_index_window]

/-- The page is free for a search. -/
def Free (s : Mmu) (W x : Nat) : Prop := s.heap_end ≤ window x ∧ ¬ Mapped s W x

theorem free_iff (hx : s.heap_end ≤ window x) : Free s W x ↔ ¬ Mapped s W x := and_iff_right hx

theorem heap_le_window (h : s.heap_end ≤ window x) (hxy : x ≤ y) : s.heap_end ≤ window y := by
  have : x * 0x1000 ≤ y * 0x1000 := Nat.mul_le_mul_right _ hxy
  exact h.trans (Nat.add_le_add_left this _)

theorem region_covered (hap : Idle W dirs halts ap) (h : Sound W dirs s)
    (hheap : s.heap_end ≤ window x) (hc : ∀ k, k < n → Covered s W ((x + k) / 512))
    (hx : x + n ≤ WINDOW) :
    Spec (region_is_free ap s (window x) n) halts
      (fun r => (r.1 = true ↔ IsRun (Free s W) x n) ∧ r.2 = s) := by
  induction n generalizing x with
  | zero => exact ⟨iff_of_true rfl (fun k h1 h2 => by omega), rfl⟩
  | succ n ih =>
    unfold region_is_free
    refine spec_bind (check_covered hap h (by omega) (hc 0 (by omega))) ?_
    rintro ⟨is_free, _, s1⟩ ⟨hfree, hs⟩
    simp only at hfree hs
    subst hs
    simp only
    have hnext : window x + PAGE_SIZE = window (x + 1) := by
      unfold window PAGE_SIZE
      ring
    by_cases hm : Mapped s1 W x
    · have : is_free = false := by
        rw [← Bool.not_eq_true, hfree]
        exact not_not.mpr hm
      subst this
      simp only [Bool.false_eq_true, if_false]
      refine ⟨iff_of_false (by simp) ?_, rfl⟩
      intro hrun
      exact (hrun x (le_refl x) (by omega)).2 hm
    · have : is_free = true := hfree.mpr hm
      subst this
      simp only [if_true]
      rw [hnext]
      refine spec_post (ih (heap_le_window hheap (by omega)) ?_ (by omega)) ?_
      · intro k hk
        have := hc (k + 1) (by omega)
        rw [show x + (k + 1) = x + 1 + k by omega] at this
        exact this
      · rintro ⟨b, s2⟩ ⟨hb, hs2⟩
        refine ⟨hb.trans ?_, hs2⟩
        constructor
        · intro hrun k h1 h2
          by_cases hk : k = x
          · subst hk
            exact ⟨hheap, hm⟩
          · exact hrun k (by omega) (by omega)
        · intro hrun k h1 h2
          exact hrun k (by omega) (by omega)

/-- Where the page tables are there, a search finds the first run of free pages. -/
theorem find_in_place (hap : Idle W dirs halts ap) (h : Sound W dirs s)
    (hq : CoveredBelow s W (512 * q)) (hqs : q ≤ SLOTS)
    (hrun : FirstRun (Free s W) (512 * q) c (turns length)) (fuel : Nat) {offset : Nat}
    (hx : s.heap_end + offset = window x) (hxc : x ≤ c) (hfuel : halts .spin ∨ c - x < fuel) :
    Spec (find_from ap length fuel s offset) halts (fun r => r = (window c, s)) := by
  have hbelow := hrun.below
  induction fuel generalizing x offset with
  | zero =>
    rcases hfuel with h0 | h0
    · exact h0
    · omega
  | succ fuel ih =>
    unfold find_from
    rw [hx]
    unfold SLOTS at hqs
    refine spec_bind (region_covered hap h (by omega) ?_ ?_) ?_
    · intro k hk
      apply hq
      omega
    · unfold WINDOW
      omega
    rintro ⟨is_free, s1⟩ ⟨hfree, hs⟩
    simp only at hfree hs
    subst hs
    simp only
    by_cases hxc' : x = c
    · subst hxc'
      have : is_free = true := hfree.mpr hrun.run
      subst this
      simp only [if_true]
      rw [hx]
      rfl
    · have hnot : ¬ IsRun (Free s1 W) x (turns length) := hrun.first x (by omega)
      have : is_free = false := by
        rw [← Bool.not_eq_true, hfree]
        exact hnot
      subst this
      simp only [Bool.false_eq_true, if_false]
      apply ih (x := x + 1)
      · rw [← Nat.add_assoc, hx]
        unfold window PAGE_SIZE
        ring
      · omega
      · rcases hfuel with h0 | h0
        · exact Or.inl h0
        · exact Or.inr (by omega)

/-! ## A search that needs a page table that it cannot make -/

theorem region_blocked (hap : Idle W dirs anyhow ap) (h : Sound W dirs s) (hqs : q < SLOTS)
    (hq : CoveredBelow s W (512 * q))
    (hno : Spec (at_page ap s (512 * q)) anyhow (fun _ => False))
    (hheap : s.heap_end ≤ window x) (hx : x ≤ 512 * q) (hn : 0 < n)
    (hroom : x + n ≤ 512 * q → ¬ IsRun (Free s W) x n) :
    Spec (region_is_free ap s (window x) n) anyhow (fun r => r.1 = false ∧ r.2 = s) := by
  induction n generalizing x with
  | zero => omega
  | succ n ih =>
    unfold region_is_free
    unfold SLOTS at hqs
    by_cases hx' : x = 512 * q
    · subst hx'
      apply spec_bind_never
      unfold check_virtual_region_is_free
      exact spec_bind_never hno
    · refine spec_bind (check_covered hap h (by unfold WINDOW; omega) (hq _ (by omega))) ?_
      rintro ⟨is_free, _, s1⟩ ⟨hfree, hs⟩
      simp only at hfree hs
      subst hs
      simp only
      by_cases hm : Mapped s1 W x
      · have : is_free = false := by
          rw [← Bool.not_eq_true, hfree]
          exact not_not.mpr hm
        subst this
        simp only [Bool.false_eq_true, if_false]
        exact ⟨rfl, rfl⟩
      · have : is_free = true := hfree.mpr hm
        subst this
        simp only [if_true]
        rw [show window x + PAGE_SIZE = window (x + 1) by unfold window PAGE_SIZE; ring]
        have hone : ∀ m, IsRun (Free s1 W) (x + 1) m → IsRun (Free s1 W) x (m + 1) := by
          intro m hrun k h1 h2
          by_cases hk : k = x
          · subst hk
            exact ⟨hheap, hm⟩
          · exact hrun k (by omega) (by omega)
        apply ih (heap_le_window hheap (by omega)) (by omega)
        · by_contra hn0
          obtain rfl : n = 0 := by omega
          exact hroom (by omega) (hone 0 (fun k h1 h2 => by omega))
        · intro hle hrun
          exact hroom (by omega) (hone n hrun)

theorem find_blocked (hap : Idle W dirs anyhow ap) (h : Sound W dirs s) (hqs : q < SLOTS)
    (hq : CoveredBelow s W (512 * q))
    (hno : Spec (at_page ap s (512 * q)) anyhow (fun _ => False)) (hn : 0 < turns length)
    (hroom : ∀ c, c + turns length ≤ 512 * q → ¬ IsRun (Free s W) c (turns length))
    (fuel : Nat) {offset : Nat} (hx : s.heap_end + offset = window x) (hxq : x ≤ 512 * q) :
    Spec (find_from ap length fuel s offset) anyhow (fun _ => False) := by
  induction fuel generalizing x offset with
  | zero => trivial
  | succ fuel ih =>
    unfold find_from
    rw [hx]
    by_cases hxq' : x = 512 * q
    · subst hxq'
      obtain ⟨n, hn'⟩ : ∃ n, turns length = n + 1 := ⟨turns length - 1, by omega⟩
      rw [hn']
      unfold region_is_free check_virtual_region_is_free
      exact spec_bind_never (spec_bind_never (spec_bind_never hno))
    · refine spec_bind (region_blocked hap h hqs hq hno (by omega) hxq hn (hroom x)) ?_
      rintro ⟨is_free, s1⟩ ⟨hfree, hs⟩
      simp only at hfree hs
      subst hfree hs
      simp only [Bool.false_eq_true, if_false]
      apply ih (x := x + 1)
      · rw [← Nat.add_assoc, hx]
        unfold window PAGE_SIZE
        ring
      · omega

/-! ## A new table, where the page tables are there -/

theorem map_covered (hap : Idle W dirs halts ap) (h : Sound W dirs s)
    (hc : ∀ k, k < n → Covered s W ((x + k) / 512)) (hx : x + n ≤ WINDOW)
    (hfree : halts .assert ∨ ∀ k, k < n → ¬ Mapped s W (x + k)) :
    Spec (map_pages ap s (window x) p n) halts
      (fun s' => Sound W dirs s' ∧ Maps W s s' x n p) := by
  induction n generalizing s x p with
  | zero => exact ⟨h, maps_nothing W s x p⟩
  | succ n ih =>
    unfold map_pages
    have hc0 : Covered s W (x / 512) := hc 0 (by omega)
    refine spec_bind (check_maps hap h (by omega) hc0 p) ?_
    rintro ⟨was_free, _, s1⟩ ⟨hwas, hs1⟩
    simp only at hwas hs1
    simp only
    by_cases hm : Mapped s W x
    · have : was_free = false := by
        rw [← Bool.not_eq_true, hwas]
        exact not_not.mpr hm
      subst this
      rw [assert_fails (by simp)]
      rcases hfree with h0 | h0
      · exact h0
      · exact absurd hm (h0 0 (by omega))
    · have : was_free = true := hwas.mpr hm
      subst this
      rw [assert_of rfl, ok_bind, hs1 rfl]
      have hpt : ¬ present (s.pts (pt_of s W (x / 512)) (x % 512)) := by
        rw [← page_of_covered hc0]
        exact hm
      have hsound := sound_map (e := p ||| 0x3) h (h.links _ _ _ hc0.links.2).2 hpt
      rw [show window x + PAGE_SIZE = window (x + 1) by unfold window PAGE_SIZE; ring]
      refine spec_post (ih hsound ?_ (by omega) ?_) ?_
      · intro k hk
        have := hc (k + 1) (by omega)
        rw [show x + (k + 1) = x + 1 + k by omega] at this
        exact this
      · rcases hfree with h0 | h0
        · exact Or.inl h0
        · right
          intro k hk
          have := h0 (k + 1) (by omega)
          unfold Mapped at this ⊢
          rw [page_set_page h hc0, if_neg (by omega)]
          rw [show x + (k + 1) = x + 1 + k by omega] at this
          exact this
      · rintro s2 ⟨h2, hmaps⟩
        exact ⟨h2, hmaps.cons h hc0 hm⟩

theorem turns_pages (n : Nat) : turns (n * 0x1000) = n := by
  unfold turns
  omega

theorem align_up_pages (n : Nat) : align_up (n * 0x1000) PAGE_SIZE / PAGE_SIZE = n := by
  unfold align_up PAGE_SIZE
  rw [if_pos (by omega)]
  omega

theorem pages_of_size (n : Nat) : n * 0x1000 / PAGE_SIZE = n := by
  unfold PAGE_SIZE
  omega

/-- What `safe_allocation` does for `n` pages without a new page table: it takes the first
free pages, `c` and those behind it, and leaves the other tables as they are. -/
structure InPlace (W : Nat) (dirs : List Nat) (s : Mmu) (n c p : Nat) (s' : Mmu) : Prop where
  sound : Sound W dirs s'
  makes : Local W s s'
  quiet : Quiet s s'
  new : New s s' (window c) p n
  others : ∀ b, b ≠ window c → s'.tables b = s.tables b
  words : ∀ b i, b ≠ window c →
    (∀ k, k < n → ¬ (b = pt_of s W ((c + k) / 512) ∧ i = (c + k) % 512)) → s'.pts b i = s.pts b i
  frames : get_frame s.frames true n = .ok (p, s'.frames)
  mapped : ∀ y, Mapped s' W y ↔ Mapped s W y ∨ (c ≤ y ∧ y < c + n)

theorem heap_page (h : Sound W dirs s) : ∃ t, s.heap_end = window t :=
  let ⟨t, ht, _⟩ := h.heap
  ⟨t, ht⟩

theorem Maps.mapped_iff (hm : Maps W s s' x n p) (h : Sound W dirs s) (y : Nat) :
    Mapped s' W y ↔ Mapped s W y ∨ (x ≤ y ∧ y < x + n) := by
  by_cases hin : x ≤ y ∧ y < x + n
  · obtain ⟨k, rfl⟩ : ∃ k, y = x + k := ⟨y - x, by omega⟩
    refine iff_of_true ?_ (Or.inr hin)
    unfold Mapped
    rw [hm.page_in (by omega)]
    exact present_or _ _ rfl
  · unfold Mapped
    rw [hm.page_out h (by omega), or_iff_left hin]

theorem Placing.in_place {frames : Frames} {s2 : Mmu}
    (h : Placing W dirs s frames { s with frames } s2 c n r)
    (hget : get_frame s.frames true n = .ok (r * 0x1000, frames)) :
    InPlace W dirs s n c (r * 0x1000) (s2.clear (window c) (r * 0x1000)) := by
  obtain ⟨h1, h2, h3⟩ := h.result
  have hrest : s2.frames = frames ∧ s2.heap_end = s.heap_end ∧ s2.ram = s.ram ∧
      s2.seed = s.seed := by
    rw [h.maps.rest]
    exact ⟨rfl, rfl, rfl, rfl⟩
  refine ⟨h1, h2, ⟨hrest.2.1, hrest.2.2.1, hrest.2.2.2⟩, h3, ?_, ?_, ?_, ?_⟩
  · intro b hb
    rw [clear_tables hb, h.maps.tables]
  · intro b i hb hno
    rw [clear_pts hb]
    exact h.maps.other b i hno
  · rw [hget, ← hrest.1]
    rfl
  · intro y
    unfold Mapped
    rw [clear_page h.sound2 h.no_table2]
    exact h.maps.mapped_iff h.soundF y

theorem safe_in_place (hap : Idle W dirs halts ap) (h : Sound W dirs s)
    (hq : CoveredBelow s W (512 * q)) (hqs : q ≤ SLOTS)
    (hrun : FirstRun (Free s W) (512 * q) c n) {fuel : Nat}
    (hfuel : halts .spin ∨ c < fuel)
    (hget : halts .assert ∨ ∃ r, get_frame s.frames true n = .ok r) :
    Spec (safe_allocation ap fuel s (n * 0x1000)) halts
      (fun r => r.1 = window c ∧ InPlace W dirs s n c r.2.1 r.2.2) := by
  unfold safe_allocation
  rw [align_up_pages, pages_of_size]
  cases hframe : get_frame s.frames true n with
  | error e =>
    have he := get_frame.spec s.frames n
    rw [hframe] at he
    rcases hget with h0 | ⟨r, h0⟩
    · rw [he.1]
      exact h0
    · rw [hframe] at h0
      cases h0
  | ok r =>
    obtain ⟨p, frames⟩ := r
    obtain ⟨r, rfl, hpos, hbelow, hfree, htaken⟩ := get_frame_taken hframe
    rw [ok_bind]
    have hF : Sound W dirs { s with frames } := sound_taken h (fun f hf => htaken f (Or.inl hf))
    obtain ⟨t, ht⟩ := heap_page h
    have htc : t ≤ c := by
      have h1 := (hrun.run c (le_refl c) (by omega)).1
      rw [ht] at h1
      unfold window at h1
      omega
    have hlen := turns_pages n
    unfold mmu_find_free_virtual_region
    refine spec_bind (find_in_place (x := t) (c := c) (q := q) hap hF hq hqs ?_ fuel ht htc
      (hfuel.imp_right (fun h0 => by omega))) ?_
    · rw [hlen]
      exact hrun
    · rintro ⟨a, s1⟩ hs1
      obtain ⟨rfl, rfl⟩ := Prod.mk.injEq _ _ _ _ ▸ hs1
      have hb := hrun.below
      unfold SLOTS at hqs
      simp only
      refine spec_bind (map_covered (x := c) (p := r * 0x1000) hap hF ?_ ?_ ?_) ?_
      · intro k hk
        apply hq
        omega
      · unfold WINDOW
        omega
      · right
        intro k hk
        exact (hrun.run (c + k) (by omega) (by omega)).2
      · rintro s2 ⟨h2, hmaps⟩
        refine ⟨rfl, ?_⟩
        have hplacing : Placing W dirs s frames { s with frames } s2 c n r :=
          ⟨h, hpos, hbelow, hfree, htaken, local_refl W _, hF, h2, hmaps, by unfold WINDOW; omega⟩
        exact hplacing.in_place hframe

theorem safe_blocked (hap : Idle W dirs anyhow ap) (h : Sound W dirs s) (hqs : q < SLOTS)
    (hq : CoveredBelow s W (512 * q)) (hnq : ¬ Covered s W q)
    (hno : ∀ frames, Sound W dirs { s with frames } →
      Spec (at_page ap { s with frames } (512 * q)) anyhow (fun _ => False)) (hn : 0 < n)
    (hroom : ∀ c, c + n ≤ 512 * q → ¬ IsRun (Free s W) c n) (fuel : Nat) :
    Spec (safe_allocation ap fuel s (n * 0x1000)) anyhow (fun _ => False) := by
  unfold safe_allocation
  rw [align_up_pages, pages_of_size]
  cases hframe : get_frame s.frames true n with
  | error e => trivial
  | ok r =>
    obtain ⟨p, frames⟩ := r
    obtain ⟨r, rfl, hpos, hbelow, hfree, htaken⟩ := get_frame_taken hframe
    rw [ok_bind]
    have hF : Sound W dirs { s with frames } := sound_taken h (fun f hf => htaken f (Or.inl hf))
    obtain ⟨t, ht, hcov⟩ := h.heap
    have hlen := turns_pages n
    unfold mmu_find_free_virtual_region
    apply spec_bind_never
    have htq : t ≤ 512 * q := by
      by_contra hlt
      exact hnq (hcov q (by omega))
    refine find_blocked hap hF hqs hq (hno frames hF) (by omega) ?_ fuel (x := t) ht htq
    rw [hlen]
    exact hroom

/-! ## allocate_pt in the window -/

theorem allocate_table_present {fuel size : Nat} (hi : i < 512)
    (h : present ((s.tables a).physical i)) : allocate_table ap fuel s a i size = .ok s := by
  unfold allocate_table
  rw [if_neg (by omega), if_neg (not_not.mpr h)]

theorem allocate_table_absent {fuel size : Nat} (hi : i < 512)
    (h : ¬ present ((s.tables a).physical i)) :
    allocate_table ap fuel s a i size = (do
      let (next, physical, s) ← safe_allocation ap fuel s size
      .ok (s.set_entry a i (physical ||| 0x3) next)) := by
  unfold allocate_table
  rw [if_neg (by omega), if_pos h]

/-- In the window, the PML4T has its entry, and the PDPT is the window's. -/
theorem allocate_pt_window (h : Sound W dirs s) (fuel : Nat) (hx : x < WINDOW) :
    at_page (allocate_pt (fuel + 1)) s x = (do
      let s ← allocate_table (allocate_pt fuel) fuel s W (x / 512 / 512) SIZEOF_TABLE
      let pdt := (s.tables W).next (x / 512 / 512)
      if present ((s.tables pdt).physical (x / 512 % 512)) then .ok (false, s)
      else
        let s ← allocate_table (allocate_pt fuel) fuel s pdt (x / 512 % 512) SIZEOF_PT
        .ok (true, s)) := by
  rw [at_page_eq _ _ hx]
  unfold allocate_pt
  rw [allocate_table_present (by decide) (present_root h), ok_bind]
  have hlt : ¬ 512 ≤ x / 512 % 512 := by omega
  simp only [next_root h, hlt, if_false]

theorem idle_allocate_pt (fuel : Nat) (hfuel : halts .spin ∨ 0 < fuel) :
    Idle W dirs halts (allocate_pt fuel) := by
  intro s x h hx hc
  cases fuel with
  | zero =>
    rcases hfuel with h0 | h0
    · exact h0
    · omega
  | succ fuel =>
    have hi : x / 512 / 512 < 512 := by
      unfold WINDOW at hx
      omega
    rw [allocate_pt_window h fuel hx, allocate_table_present hi hc.1, ok_bind]
    simp only
    rw [if_pos hc.2]
    rfl

/-- The pages that a new page table `q` needs: one for the PT, and before that two for the
PDT, if it is missing. -/
def need (s : Mmu) (W q : Nat) : Nat := if present ((s.tables W).physical (q / 512)) then 1 else 2

theorem need_pos (s : Mmu) (W q : Nat) : 0 < need s W q := by
  unfold need
  split <;> omega

/-- `allocate_pt` makes a page table only where there is room for it below. -/
theorem room_of_new (fuel : Nat) (h : Sound W dirs s) (hqs : q < SLOTS)
    (hq : CoveredBelow s W (512 * q)) (hnq : ¬ Covered s W q) :
    Spec (at_page (allocate_pt fuel) s (512 * q)) anyhow
      (fun _ => ∃ c, c + need s W q ≤ 512 * q ∧ IsRun (Free s W) c (need s W q)) := by
  induction fuel generalizing s with
  | zero => trivial
  | succ fuel ih =>
    by_cases hroom : ∃ c, c + need s W q ≤ 512 * q ∧ IsRun (Free s W) c (need s W q)
    · exact spec_anyhow _ (fun _ => hroom)
    -- without room, the search inside would have to make the same page table first
    have hno : ∀ frames, Sound W dirs { s with frames } →
        Spec (at_page (allocate_pt fuel) { s with frames } (512 * q)) anyhow (fun _ => False) :=
      fun frames hF => spec_post (ih hF hq hnq) (fun _ hc => hroom hc)
    have hblocked := safe_blocked (idle_allocate_pt fuel (Or.inl trivial)) h hqs hq hnq hno
      (need_pos s W q) (fun c hc hrun => hroom ⟨c, hc, hrun⟩) fuel
    refine spec_post ?_ (fun _ (hf : False) => hf.elim)
    rw [allocate_pt_window h fuel (by unfold WINDOW; unfold SLOTS at hqs; omega),
      show 512 * q / 512 = q by omega]
    have hi : q / 512 < 512 := by
      unfold SLOTS at hqs
      omega
    unfold need at hblocked
    by_cases hpdt : present ((s.tables W).physical (q / 512))
    · rw [if_pos hpdt] at hblocked
      rw [allocate_table_present hi hpdt, ok_bind]
      simp only
      have hpt : ¬ present ((s.tables ((s.tables W).next (q / 512))).physical (q % 512)) :=
        fun hpt => hnq ⟨hpdt, hpt⟩
      rw [if_neg hpt, allocate_table_absent (by omega) hpt]
      exact spec_bind_never (spec_bind_never hblocked)
    · rw [if_neg hpdt] at hblocked
      rw [allocate_table_absent hi hpdt]
      exact spec_bind_never (spec_bind_never hblocked)

end salsola.mmu
