-- What the calls of the kernel make of the page tables, to the page, and when they
-- return: the tables that they make find their places and their frames, and none of
-- them lands in the region that the call is about to map.
import Salsola.MmuExact

open memory outcome runs

namespace salsola.mmu

variable {W : Nat} {dirs : List Nat} {s s' s'' : Mmu} {a b c e i j k n p q r t x y length : Nat}
variable {halts : Halt → Prop} {fuel : Nat} {demands demands' : List (Nat × Nat)}

/-! ## allocate_next_pt -/

/-- The first page behind the start of the page table that follows the one of page `t`. -/
def next_end (t : Nat) : Nat := 512 * (t / 512 + 1) + 1

theorem Filled.heap (h : Filled s W q) (t : Nat) : Filled { s with heap_end := t } W q :=
  ⟨h.covered, h.pdts⟩

theorem allocate_next_pt.exact (h : Sound W dirs s) (hF : Filled s W q) (ht : t ≤ 512 * q)
    (hidle : halts .spin ∨ 0 < fuel) (hfault : halts .fault ∨ t / 512 % 512 ≠ 511)
    (hr : Ready halts fuel s W (span q (next_end t))) :
    Spec (allocate_next_pt fuel s (window t)) halts (fun s' =>
      Grown W dirs s (span q (next_end t)) s' ∧ Filled s' W (cover q (next_end t))) := by
  have hqs := hF.lt_slots h
  have htw : t < WINDOW := by
    unfold SLOTS at hqs
    unfold WINDOW
    omega
  have hle : t + 1 ≤ next_end t := by
    unfold next_end
    omega
  have hsplit := span_append (q := q) hle
  rw [← hsplit] at hr
  unfold allocate_next_pt
  rw [pml4t_index_window htw, pdpt_index_window htw, pdt_index_window,
    ← at_page_eq (allocate_pt fuel) s htw]
  refine spec_bind (opens_exact h hF ht hidle hr.left) ?_
  rintro ⟨_, s1⟩ ⟨hg1, hF1, hc1⟩
  dsimp only at hg1 hF1 hc1 ⊢
  have h1 := hg1.searched.sound
  by_cases hlast : t / 512 % 512 = 511
  · have hh := hfault.resolve_right (not_not.mpr hlast)
    cases fuel with
    | zero => exact hidle.resolve_right (Nat.lt_irrefl 0)
    | succ fuel =>
      have hi : t / 512 / 512 < 512 := by
        unfold WINDOW at htw
        omega
      unfold allocate_pt
      rw [allocate_table_present (by decide) (present_root h1), ok_bind]
      dsimp only
      rw [next_root h1, allocate_table_present hi hc1.1, ok_bind, if_pos (by omega)]
      exact hh
  · have hx : 512 * (t / 512 + 1) ≤ 512 * cover q (t + 1) := by
      unfold cover
      omega
    have hxw : 512 * (t / 512 + 1) < WINDOW := by
      have := hF1.lt_slots h1
      unfold SLOTS at this
      unfold WINDOW
      omega
    have hslot : at_page (allocate_pt fuel) s1 (512 * (t / 512 + 1)) =
        allocate_pt fuel s1 511 (t / 512 / 512) (t / 512 % 512 + 1) := by
      rw [at_page_eq _ _ hxw]
      congr 1 <;> omega
    rw [← hslot]
    refine spec_bind (opens_exact h1 hF1 hx hidle (hr.right hg1)) ?_
    rintro ⟨_, s2⟩ ⟨hg2, hF2, -⟩
    have hg := hg1.trans hg2 h
    rw [show 512 * (t / 512 + 1) + 1 = next_end t from rfl] at hg hF2
    rw [hsplit] at hg
    rw [cover_cover hle] at hF2
    exact ⟨hg, hF2⟩

/-! ## What is left of the window -/

/-- What the calls draw on: the pages of the window that are free, the bitmap, and the number of
page tables that are there. -/
structure Space where
  free : Nat → Prop
  frames : Frames
  filled : Nat

/-- What a state has of it. -/
def space (s : Mmu) (W q : Nat) : Space where
  free := Free s W
  frames := s.frames
  filled := q

/-- The page tables for the pages below `e` are made. -/
structure Space.Opens (sp : Space) (e : Nat) (sp' : Space) : Prop where
  places : Placed sp.free (span sp.filled e) sp'.free
  frames : Served sp.frames ((span sp.filled e).map Prod.snd) sp'.frames
  filled : sp'.filled = cover sp.filled e

/-- The pages from `c` on. -/
def Space.from (sp : Space) (c : Nat) : Space := { sp with free := fun y => c ≤ y ∧ sp.free y }

theorem Served.unique {f f' f'' : Frames} {l : List Nat} (h : Served f l f')
    (h' : Served f l f'') : f' = f'' := by
  induction h with
  | nil =>
    cases h'
    rfl
  | cons hget _ ih =>
    cases h' with
    | cons hget' h' =>
      rw [hget] at hget'
      cases hget'
      exact ih h'

theorem Served.enough_all {f f' : Frames} {l : List Nat} (h : Served f l f') : Enough f l := by
  induction h with
  | nil => trivial
  | cons hget _ ih => exact ⟨_, _, hget, ih⟩

theorem Space.Opens.unique {sp sp' sp'' : Space} (h : sp.Opens e sp') (h' : sp.Opens e sp'') :
    sp' = sp'' := by
  have h1 := h.places.unique h'.places
  have h2 := h.frames.unique h'.frames
  have h3 := h.filled.trans h'.filled.symm
  cases sp'
  cases sp''
  simp only at h1 h2 h3
  rw [h1, h2, h3]

theorem Grown.opens (h : Grown W dirs s (span q e) s') :
    (space s W q).Opens e (space s' W (cover q e)) :=
  ⟨h.places, h.frames, rfl⟩

/-- The calls may stop for any reason, or `P` holds and the loops have turns enough. -/
def Goes (halts : Halt → Prop) (fuel : Nat) (P : Prop) : Prop :=
  (∀ e, halts e) ∨ (WINDOW ≤ fuel ∧ P)

theorem Goes.ready {P : Prop} (h : Goes halts fuel P)
    (hP : P → ∃ sp, (space s W q).Opens e sp) : Ready halts fuel s W (span q e) := by
  refine h.imp_right ?_
  rintro ⟨hfuel, hp⟩
  obtain ⟨sp, hopens⟩ := hP hp
  exact ⟨hfuel, ⟨_, hopens.places⟩, hopens.frames.enough_all⟩

theorem Goes.imp {P Q : Prop} (h : Goes halts fuel P) (hPQ : P → Q) : Goes halts fuel Q :=
  h.imp_right (fun hp => ⟨hp.1, hPQ hp.2⟩)

theorem Goes.holds {P : Prop} (h : Goes halts fuel P) (e : Halt) : halts e ∨ P := by
  rcases h with h | ⟨-, hp⟩
  · exact Or.inl (h e)
  · exact Or.inr hp

theorem Goes.pos {P : Prop} (h : Goes halts fuel P) : halts .spin ∨ 0 < fuel := by
  rcases h with h | ⟨h, -⟩
  · exact Or.inl (h .spin)
  · unfold WINDOW at h
    exact Or.inr (by omega)

/-! ## mmu_map_frames -/

/-- A region of `n` pages is found, and is still free behind the tables that are made for it. -/
def Space.Maps (sp : Space) (n : Nat) : Prop :=
  ∃ c sp', FirstRun sp.free (c + n) c n ∧ sp.Opens (c + n) sp' ∧ IsRun sp'.free c n

theorem Filled.of_tables (h : Filled s W q) (ht : s'.tables = s.tables) : Filled s' W q where
  covered r := by
    rw [← h.covered r]
    unfold Covered
    rw [ht]
  pdts i := by rw [ht, h.pdts]

/-- A search for nothing comes back with the end of the heap. -/
theorem search_nothing (hn : turns length = 0) (hidle : halts .spin ∨ 0 < fuel) :
    Spec (mmu_find_free_virtual_region (allocate_pt fuel) fuel s length) halts
      (fun r => r = (s.heap_end, s)) := by
  cases fuel with
  | zero => exact hidle.resolve_right (Nat.lt_irrefl 0)
  | succ fuel =>
    unfold mmu_find_free_virtual_region find_from
    rw [hn]
    exact rfl

theorem mmu_map_frames.exact (h : Sound W dirs s) (hF : Filled s W q) (src : Nat)
    (hgo : Goes halts fuel (0 < turns length → (space s W q).Maps (turns length))) :
    Spec (mmu_map_frames fuel s src length) halts (fun r => ∃ q', Filled r.2 W q') := by
  unfold mmu_map_frames
  rcases Nat.eq_zero_or_pos (turns length) with hzero | hn
  · refine spec_bind (search_nothing hzero hgo.pos) ?_
    rintro _ rfl
    dsimp only
    rw [hzero]
    exact ⟨q, hF⟩
  · have hgo := hgo.imp (fun hp => hp hn)
    obtain ⟨c, hrun⟩ := hF.firstRun h (turns length)
    -- the plan is about the same region
    have hgo : Goes halts fuel (∃ sp', (space s W q).Opens (c + turns length) sp' ∧
        IsRun sp'.free c (turns length)) := by
      refine hgo.imp ?_
      rintro ⟨c', sp', hrun', hopens, hkeep⟩
      have hcc : c' = c := hrun'.unique hrun
      subst hcc
      exact ⟨sp', hopens, hkeep⟩
    refine spec_bind (search_exact h hF hn hrun
      (hgo.ready (fun ⟨sp', hopens, _⟩ => ⟨sp', hopens⟩))) ?_
    rintro ⟨_, s1⟩ ⟨rfl, hg, hF1⟩
    dsimp only at hg hF1 ⊢
    have h1 := hg.searched.sound
    have hq1 := hF1.lt_slots h1
    have hwindow : c + turns length ≤ WINDOW := by
      unfold SLOTS cover at hq1
      unfold WINDOW
      omega
    refine spec_bind (map_covered (idle_allocate_pt fuel hgo.pos) h1 ?_ hwindow ?_) ?_
    · intro k hk
      rw [hF1.covered]
      unfold cover
      omega
    · rcases hgo with hall | ⟨-, sp', hopens, hkeep⟩
      · exact Or.inl (hall .assert)
      · right
        intro k hk
        rw [hopens.unique hg.opens] at hkeep
        exact (hkeep (c + k) (by omega) (by omega)).2
    · rintro s2 ⟨_, hmaps⟩
      exact ⟨_, hF1.of_tables hmaps.tables⟩

/-! ## ksbrk -/

theorem window_le (hxy : window x ≤ window y) : x ≤ y := by
  unfold window at hxy
  omega

theorem space_from (hle : s.heap_end ≤ window c) :
    space { s with heap_end := window c } W q = (space s W q).from c := by
  unfold space Space.from
  congr 1
  funext y
  apply propext
  constructor
  · rintro ⟨h1, h2⟩
    exact ⟨window_le h1, hle.trans h1, h2⟩
  · rintro ⟨h1, -, h2⟩
    exact ⟨heap_le_window (le_refl _) h1, h2⟩

/-- `ksbrk` finds a region of `n` pages, makes the page table behind the start of it, looks again
from there on, and finds a region that is still free behind the tables that are made for it. -/
def Space.Brings (sp : Space) (n : Nat) : Prop :=
  ∃ c sp1 sp2 c' sp3, FirstRun sp.free (c + n) c n ∧ sp.Opens (c + n) sp1 ∧ c / 512 % 512 ≠ 511 ∧
    (sp1.from c).Opens (next_end c) sp2 ∧ FirstRun sp2.free (c' + n) c' n ∧
    sp2.Opens (c' + n) sp3 ∧ IsRun sp3.free c' n ∧ Enough sp3.frames (List.replicate n 1)

/-- The end of the heap moves up to a region that was found, and the next page table is made. -/
theorem next_of_found (h : Sound W dirs s) (hF : Filled s W q) (hheap : s.heap_end ≤ window c)
    (hc : c ≤ 512 * q)
    (hgo : Goes halts fuel (c / 512 % 512 ≠ 511 ∧
      ∃ sp, ((space s W q).from c).Opens (next_end c) sp)) :
    Spec (allocate_next_pt fuel { s with heap_end := window c } (window c)) halts (fun s' =>
      Grown W dirs { s with heap_end := window c } (span q (next_end c)) s' ∧
        Filled s' W (cover q (next_end c))) := by
  have hs : Sound W dirs { s with heap_end := window c } := sound_heap h (hF.below hc) hheap
  rw [← space_from hheap] at hgo
  have hfault : halts .fault ∨ c / 512 % 512 ≠ 511 :=
    (hgo.holds .fault).imp_right (fun hp => hp.1)
  exact allocate_next_pt.exact hs (hF.heap _) hc hgo.pos hfault (hgo.ready (fun hp => hp.2))

/-- `ksbrk` for nothing makes the page table behind the one of the end of the heap. -/
theorem ksbrk_nothing (h : Sound W dirs s) (hF : Filled s W q) (ht : s.heap_end = window t)
    (hgo : Goes halts fuel (t / 512 % 512 ≠ 511 ∧
      ∃ sp, (space s W q).Opens (next_end t) sp)) :
    Spec (ksbrk_physical fuel s 0) halts (fun r =>
      Grown W dirs s (span q (next_end t)) r.2.2 ∧ Filled r.2.2 W (cover q (next_end t))) := by
  obtain ⟨t', ht', htq⟩ := hF.heap_le h
  obtain rfl : t' = t := window_inj (ht'.symm.trans ht)
  have hstate : { s with heap_end := window t' } = s := by
    rw [← ht]
  have hfrom : (space s W q).from t' = space s W q := by
    rw [← space_from (le_of_eq ht), hstate]
  rw [← hfrom] at hgo
  have hnext := next_of_found h hF (le_of_eq ht) htq hgo
  unfold ksbrk_physical
  refine spec_bind (search_nothing (by decide) hgo.pos) ?_
  rintro _ rfl
  dsimp only
  rw [ht]
  refine spec_bind hnext ?_
  intro s1 hs1
  rw [hstate] at hs1
  exact hs1

theorem ksbrk_physical.exact (h : Sound W dirs s) (hF : Filled s W q) (hlen : 0 < length)
    (hgo : Goes halts fuel ((space s W q).Brings (turns length))) :
    Spec (ksbrk_physical fuel s length) halts (fun r => ∃ q', Filled r.2.2 W q') := by
  have hn := turns_pos hlen
  obtain ⟨t, ht, htq⟩ := hF.heap_le h
  obtain ⟨c, hrun⟩ := hF.firstRun h (turns length)
  have hheap : s.heap_end ≤ window c := (hrun.run c (le_refl c) (by omega)).1
  have hcq := hF.run_le ht htq hrun
  have hgo1 : Goes halts fuel (∃ sp1 sp2 c' sp3, (space s W q).Opens (c + turns length) sp1 ∧
      c / 512 % 512 ≠ 511 ∧ (sp1.from c).Opens (next_end c) sp2 ∧
      FirstRun sp2.free (c' + turns length) c' (turns length) ∧
      sp2.Opens (c' + turns length) sp3 ∧ IsRun sp3.free c' (turns length) ∧
      Enough sp3.frames (List.replicate (turns length) 1)) := by
    refine hgo.imp ?_
    rintro ⟨c1, sp1, sp2, c', sp3, hrun1, hrest⟩
    obtain rfl := hrun1.unique hrun
    exact ⟨sp1, sp2, c', sp3, hrest⟩
  unfold ksbrk_physical
  refine spec_bind (search_exact h hF hn hrun (hgo1.ready (fun ⟨sp1, _, _, _, ho, _⟩ =>
    ⟨sp1, ho⟩))) ?_
  rintro ⟨_, s1⟩ ⟨rfl, hg1, hF1⟩
  dsimp only at hg1 hF1 ⊢
  have h1 := hg1.searched.sound
  have hheap1 : s1.heap_end ≤ window c := hg1.searched.quiet.heap_end ▸ hheap
  obtain ⟨q1, hq1⟩ : ∃ q1, q1 = cover q (c + turns length) := ⟨_, rfl⟩
  have ho1 := hg1.opens
  rw [← hq1] at hF1 ho1
  have hcq1 : c ≤ 512 * q1 := by
    rw [hq1]
    unfold cover
    omega
  have hgo2 : Goes halts fuel (∃ sp2 c' sp3, c / 512 % 512 ≠ 511 ∧
      ((space s1 W q1).from c).Opens (next_end c) sp2 ∧
      FirstRun sp2.free (c' + turns length) c' (turns length) ∧
      sp2.Opens (c' + turns length) sp3 ∧ IsRun sp3.free c' (turns length) ∧
      Enough sp3.frames (List.replicate (turns length) 1)) := by
    refine hgo1.imp ?_
    rintro ⟨sp1, sp2, c', sp3, ho, hrest⟩
    obtain rfl := ho.unique ho1
    exact ⟨sp2, c', sp3, hrest⟩
  refine spec_bind (next_of_found h1 hF1 hheap1 hcq1 (hgo2.imp
    (fun ⟨sp2, _, _, hne, ho, _⟩ => ⟨hne, sp2, ho⟩))) ?_
  rintro s2 ⟨hg2, hF2⟩
  rw [if_neg (by omega : ¬ 0 = length)]
  have h2 := hg2.searched.sound
  obtain ⟨q2, hq2⟩ : ∃ q2, q2 = cover q1 (next_end c) := ⟨_, rfl⟩
  have ho2 := hg2.opens
  rw [space_from hheap1, ← hq2] at ho2
  rw [← hq2] at hF2
  obtain ⟨t2, ht2, htq2⟩ := hF2.heap_le h2
  obtain ⟨c', hrun'⟩ := hF2.firstRun h2 (turns length)
  have hheap2 : s2.heap_end ≤ window c' := (hrun'.run c' (le_refl c') (by omega)).1
  have hgo3 : Goes halts fuel (∃ sp3, (space s2 W q2).Opens (c' + turns length) sp3 ∧
      IsRun sp3.free c' (turns length) ∧
      Enough sp3.frames (List.replicate (turns length) 1)) := by
    refine hgo2.imp ?_
    rintro ⟨sp2, c2, sp3, -, ho, hrun2, hrest⟩
    obtain rfl := ho.unique ho2
    obtain rfl := hrun2.unique hrun'
    exact ⟨sp3, hrest⟩
  refine spec_bind (search_exact h2 hF2 hn hrun' (hgo3.ready (fun ⟨sp3, ho, _⟩ => ⟨sp3, ho⟩))) ?_
  rintro ⟨_, s3⟩ ⟨rfl, hg3, hF3⟩
  dsimp only at hg3 hF3 ⊢
  have h3 := hg3.searched.sound
  have hheap3 : s3.heap_end ≤ window c' := hg3.searched.quiet.heap_end ▸ hheap2
  have hbelow3 : CoveredBelow s3 W (c' + turns length) := by
    apply hF3.below
    unfold cover
    omega
  have hsound3 : Sound W dirs { s3 with heap_end := window c' } :=
    sound_heap h3 (fun r hr => hbelow3 r (by omega)) hheap3
  have hpages : halts .assert ∨ (Enough s3.frames (List.replicate (turns length) 1) ∧
      ∀ k, k < turns length → ¬ Mapped s3 W (c' + k)) := by
    rcases hgo3 with hall | ⟨-, sp3, ho, hkeep, henough⟩
    · exact Or.inl (hall .assert)
    · obtain rfl := ho.unique hg3.opens
      exact Or.inr ⟨henough, fun k hk => (hkeep (c' + k) (by omega) (by omega)).2⟩
  have hidle : Idle W dirs halts (allocate_pt fuel) := idle_allocate_pt fuel hgo.pos
  refine spec_bind (ksbrk_pages.spec hidle hsound3 rfl hbelow3 hpages 0) ?_
  rintro ⟨r, s4⟩ ⟨hb, -⟩
  obtain ⟨ram, seed, hfill⟩ :=
    fill_pages_eq s4 (window c') (align_up length PAGE_SIZE / PAGE_SIZE)
  refine ⟨_, hF3.of_tables ?_⟩
  dsimp only
  rw [hfill]
  exact hb.tables

end salsola.mmu
