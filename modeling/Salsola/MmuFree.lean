-- What a search of the window reports: it comes back with pages that were free, and
-- they still are if the page tables that it made found room below them.
import Salsola.MmuRuns

open memory outcome runs

namespace salsola.mmu

variable {W : Nat} {dirs : List Nat} {s s' : Mmu} {frames frames' : Frames}
variable {w : World} {c n q v length fuel : Nat}

/-- Below page `c` the window has room for the page tables that `n` pages from there need and
that are missing. The window has its first `q` page tables. -/
def Room (s : Mmu) (W q c n : Nat) : Prop :=
  Fits (Free s W) ((span q (c + n)).map fun d => (c, d.2))

/-- The demands of a region lie in it, or at its end. -/
theorem span_inside (hcq : c ≤ 512 * q) {d : Nat × Nat} (hd : d ∈ span q (c + n)) :
    0 < d.2 ∧ c ≤ d.1 ∧ d.1 ≤ c + n := by
  obtain ⟨h1, h2, h3⟩ := span_bounds hd
  exact ⟨h1, by omega, by omega⟩

/-- The pages of a region stay free where its page tables find room below it. -/
theorem Grown.keeps_region (h : Grown W dirs s (span q (c + n)) s') (hn : 0 < n)
    (hcq : c ≤ 512 * q) (hrun : FirstRun (Free s W) (c + n) c n) :
    (∀ k, k < n → ¬ Mapped s' W (c + k)) ↔ Room s W q c n := by
  unfold Room
  rw [← h.places.keeps_run hrun.run hn (fun d hd => span_inside hcq hd)]
  have hheap : s'.heap_end ≤ window c :=
    h.searched.quiet.heap_end ▸ (hrun.run c (le_refl c) (by omega)).1
  constructor
  · intro hfree y h1 h2
    have hy := hfree (y - c) (by omega)
    rw [show c + (y - c) = y by omega] at hy
    exact ⟨heap_le_window hheap h1, hy⟩
  · intro hkeep k hk
    exact (hkeep (c + k) (by omega) (by omega)).2

/-- What a search makes, and what it says of the region. -/
theorem search_keeps_region (h : Sound W dirs s) (hF : Filled s W q) (hn : 0 < turns length)
    (hrun : FirstRun (Free s W) (c + turns length) c (turns length))
    (hcall : mmu_find_free_virtual_region (allocate_pt fuel) fuel s length = .ok (v, s')) :
    v = window c ∧ Sound W dirs s' ∧ c + turns length ≤ WINDOW ∧
      ((∀ k, k < turns length → ¬ Mapped s' W (c + k)) ↔ Room s W q c (turns length)) := by
  have hready : Ready anyhow fuel s W (span q (c + turns length)) := Or.inl fun _ => trivial
  obtain ⟨hv, hgrown, hfilled⟩ := spec_of_ok (search_exact h hF hn hrun hready) hcall
  obtain ⟨t, ht, htq⟩ := hF.heap_le h
  have hs' := hgrown.searched.sound
  have hslots := hfilled.lt_slots hs'
  refine ⟨hv, hs', ?_, hgrown.keeps_region hn (hF.run_le ht htq hrun) hrun⟩
  unfold SLOTS cover at hslots
  unfold WINDOW
  omega

/-- The pages of a region translate to nothing exactly when none of them is mapped. -/
theorem region_absent_iff (h : Sound W dirs s) (hc : c + n ≤ WINDOW) :
    (∀ k, k < n → mmu_virtual_to_physical s (window c + k * PAGE_SIZE) = none) ↔
      ∀ k, k < n → ¬ Mapped s W (c + k) := by
  have hpage : ∀ k, k < n →
      (mmu_virtual_to_physical s (window c + k * PAGE_SIZE) = none ↔ ¬ Mapped s W (c + k)) := by
    intro k hk
    rw [show window c + k * PAGE_SIZE = window (c + k) from (window_add c k).symm,
      translate_window h (by omega)]
    by_cases hm : Mapped s W (c + k) <;> simp [hm]
  constructor
  · exact fun hall k hk => (hpage k hk).mp (hall k hk)
  · exact fun hall k hk => (hpage k hk).mpr (hall k hk)

/-- A region that a search reports is free when the search is done, exactly when the page tables
that were missing for it found room below it. -/
theorem a_reported_region_is_free_iff (boot : Boot) (w : World) (hw : Reachable boot w)
    (fuel length v : Nat) (s' : Mmu)
    (hcall : mmu_find_free_virtual_region (allocate_pt fuel) fuel w.state length = .ok (v, s')) :
    (∀ k, k < turns length → mmu_virtual_to_physical s' (v + k * PAGE_SIZE) = none) ↔
      ∀ q c, 0 < turns length → Filled w.state boot.W q →
        FirstRun (Free w.state boot.W) (c + turns length) c (turns length) →
        Room w.state boot.W q c (turns length) := by
  obtain ⟨q, hF⟩ := hw.held.filled
  have hs := hw.held.sound
  constructor
  · intro habsent q' c hn hF' hrun
    obtain ⟨rfl, hs', hc, hiff⟩ := search_keeps_region hs hF' hn hrun hcall
    exact hiff.mp ((region_absent_iff hs' hc).mp habsent)
  · intro hroom
    rcases Nat.eq_zero_or_pos (turns length) with hzero | hn
    · intro k hk
      omega
    · obtain ⟨c, hrun⟩ := hF.firstRun hs (turns length)
      obtain ⟨rfl, hs', hc, hiff⟩ := search_keeps_region hs hF hn hrun hcall
      exact (region_absent_iff hs' hc).mpr (hiff.mpr (hroom q c hn hF hrun))

/-! ## A gap in the window -/

theorem Held.unmap_returns (h : Held W dirs w) (hlive : ∀ a, Region v length a → w.live a) :
    ∃ s', mmu_unmap_frames w.state v length = .ok s' := by
  rcases Nat.eq_zero_or_pos (turns length) with hzero | hlen
  · unfold mmu_unmap_frames
    rw [hzero]
    exact ⟨w.state, rfl⟩
  · obtain ⟨c, rfl, hc, hpages⟩ := h.pages hlive hlen
    obtain ⟨s', hr, -⟩ := spec_returns (mmu_unmap_frames.spec h.sound hc hpages)
    exact ⟨s', hr⟩

theorem Filled.unique {p : Nat} (h : Filled s W q) (h' : Filled s W p) : q = p := by
  have hiff : ∀ r, r < q ↔ r < p := fun r => (h.covered r).symm.trans (h'.covered r)
  have hq := hiff q
  have hp := hiff p
  omega

/-- `mmu_map_frames` takes the first free pages, when their page tables are there. -/
theorem map_since {src : Nat} (h : Sound W dirs s) (hF : Filled s W q)
    (hspace : space s W q = Space.since c q frames) (hn : 0 < turns length)
    (hle : c + turns length ≤ 512 * q) (hcall : mmu_map_frames fuel s src length = .ok (v, s')) :
    v = window c ∧ s'.heap_end = s.heap_end ∧ Filled s' W q ∧
      space s' W q = Space.since (c + turns length) q frames := by
  have hfree : Free s W = fun y => c ≤ y := congrArg Space.free hspace
  have hrun : FirstRun (Free s W) (c + turns length) c (turns length) := by
    rw [hfree]
    exact firstRun_since c _ hn
  obtain ⟨⟨v1, s1⟩, hsearch, hrest⟩ := bind_eq_ok.mp hcall
  obtain ⟨s2, hmap, heq⟩ := bind_eq_ok.mp hrest
  cases heq
  have hready : Ready anyhow fuel s W (span q (c + turns length)) := Or.inl fun _ => trivial
  obtain ⟨rfl, hgrown, hF1⟩ := spec_of_ok (search_exact h hF hn hrun hready) hsearch
  dsimp only at hmap hgrown hF1
  have hs1 := hgrown.searched.sound
  -- no page table is missing, so the search leaves the window as it was
  have hopens := hgrown.opens
  rw [hspace, cover_le hle] at hopens
  have hspace1 := hopens.unique (opens_since c q frames hle)
  rw [cover_le hle] at hF1
  have hfree1 : Free s1 W = fun y => c ≤ y := congrArg Space.free hspace1
  have hcovered : ∀ k, k < turns length → Covered s1 W ((c + k) / 512) := by
    intro k hk
    rw [hF1.covered]
    omega
  have hslots := hF1.lt_slots hs1
  have hwindow : c + turns length ≤ WINDOW := by
    unfold SLOTS at hslots
    unfold WINDOW
    omega
  have hpages : Spec (map_pages (allocate_pt fuel) s1 (window c) src (turns length)) anyhow
      (fun s2 => Sound W dirs s2 ∧ Maps W s1 s2 c (turns length) src) :=
    map_covered (idle_allocate_pt fuel (Or.inl trivial)) hs1 hcovered hwindow (Or.inl trivial)
  obtain ⟨-, hmaps⟩ := spec_of_ok hpages hmap
  have hframes : s'.frames = s1.frames := by rw [hmaps.rest]
  have hheap : s'.heap_end = s1.heap_end := by rw [hmaps.rest]
  refine ⟨rfl, hheap.trans hgrown.searched.quiet.heap_end, hF1.of_tables hmaps.tables, ?_⟩
  unfold space Space.since
  rw [hframes, show s1.frames = frames from congrArg Space.frames hspace1]
  congr 1
  funext y
  apply propext
  have hy : Free s1 W y ↔ c ≤ y := by rw [hfree1]
  unfold Free Mapped at hy ⊢
  rw [hheap]
  by_cases hin : c ≤ y ∧ y < c + turns length
  · have hword := hmaps.page_in (k := y - c) (by omega)
    rw [show c + (y - c) = y by omega] at hword
    rw [hword]
    have hpresent : present ((src + (y - c) * 0x1000) ||| 0x3) := present_or _ _ rfl
    constructor
    · exact fun hno => absurd hpresent hno.2
    · intro hbehind
      omega
  · rw [hmaps.page_out hs1 (by omega), hy]
    omega

/-- Pages that are unmapped are free again. -/
theorem unmap_free (h : Sound W dirs s) (hheap : s.heap_end ≤ window c)
    (hc : c + turns length ≤ WINDOW)
    (hpages : ∀ k, k < turns length → Mapped s W (c + k) ∧ ¬ IsTable s (window (c + k)))
    (hcall : mmu_unmap_frames s (window c) length = .ok s') {y : Nat} :
    Free s' W y ↔ Free s W y ∨ (c ≤ y ∧ y < c + turns length) := by
  obtain ⟨-, hw⟩ := spec_of_ok (mmu_unmap_frames.spec h hc hpages) hcall
  have hend : s'.heap_end = s.heap_end := by rw [hw.rest]
  unfold Free Mapped
  rw [hend]
  by_cases hin : c ≤ y ∧ y < c + turns length
  · have hword := hw.page_in (k := y - c) (by omega)
    rw [show c + (y - c) = y by omega] at hword
    rw [hword]
    have hno : ¬ present 0 := by decide
    exact ⟨fun _ => Or.inr hin, fun _ => ⟨heap_le_window hheap hin.1, hno⟩⟩
  · rw [hw.page_out h (by omega)]
    exact ⟨Or.inl, fun hor => hor.resolve_right hin⟩

/-- One page is free, and all pages from the second next one on. -/
def Space.gap (frames : Frames) : Space where
  free := fun y => y = 512 ∨ 514 ≤ y
  frames := frames
  filled := 2

theorem firstRun_gap {n : Nat} (hn : 1 < n) :
    FirstRun (Space.gap frames).free (514 + n) 514 n where
  below := Nat.le_refl _
  run _ hk _ := Or.inr hk
  first r hr hrun := by
    have h0 := hrun r (Nat.le_refl r) (by omega)
    have h1 := hrun (r + 1) (by omega) (by omega)
    unfold Space.gap at h0 h1
    dsimp only at h0 h1
    omega

/-- A page table finds the one page. -/
theorem firstRun_of_gap {b : Nat} (hb : 513 ≤ b) : FirstRun (Space.gap frames).free b 512 1 where
  below := hb
  run _ hk hk' := Or.inl (by omega)
  first r hr hrun := by
    have h0 := hrun r (Nat.le_refl r) (by omega)
    unfold Space.gap at h0
    dsimp only at h0
    omega

/-- A region that crosses into the third page table: its page table goes to the gap. -/
theorem opens_gap {n : Nat} (hn : 510 < n) (hle : n ≤ 1022) (hserved : Served frames [1] frames') :
    (Space.gap frames).Opens (514 + n) (Space.since 514 3 frames') := by
  have hcover : cover 2 (514 + n) = 3 := by
    unfold cover
    omega
  have hspan : span 2 (514 + n) = [(1024, 1)] := by
    unfold span
    rw [hcover]
    rfl
  have hleft : (fun y => (Space.gap frames).free y ∧ ¬ (512 ≤ y ∧ y < 512 + 1)) =
      fun y => 514 ≤ y := by
    funext y
    unfold Space.gap
    apply propext
    dsimp only
    omega
  have hplaced := placed_one (@firstRun_of_gap frames 1024 (by decide))
  rw [hleft] at hplaced
  refine ⟨?_, ?_, hcover.symm⟩
  · rw [show (Space.gap frames).filled = 2 from rfl, hspan]
    exact hplaced
  · rw [show (Space.gap frames).filled = 2 from rfl, hspan]
    exact hserved

/-- A page is mapped at the start of the free pages. -/
theorem map_next {w : World} {c : Nat} (hw : Reachable small_boot w)
    (hF : Filled w.state small_boot.W 2)
    (hspace : space w.state small_boot.W 2 = Space.since c 2 frames) (hc : c + 1 ≤ 1024) :
    ∃ s', w.step (.map WINDOW 0x5000 0x1000) = .ok
        { state := s', live := fun a => w.live a ∨ Region (window c) 0x1000 a } ∧
      s'.heap_end = w.state.heap_end ∧ Filled s' small_boot.W 2 ∧
      space s' small_boot.W 2 = Space.since (c + 1) 2 frames := by
  have hn : 0 < turns 0x1000 := by decide
  have hroom := maps_since c 2 frames hn hc
  rw [← hspace] at hroom
  obtain ⟨⟨v, s'⟩, hcall, -⟩ :=
    spec_returns (mmu_map_frames.exact hw.held.sound hF 0x5000 (goes_surely fun _ => hroom))
  obtain ⟨rfl, hrest⟩ := map_since hw.held.sound hF hspace hn hc hcall
  refine ⟨s', ?_, hrest⟩
  unfold World.step
  dsimp only
  rw [hcall]
  rfl

/-- The first of two pages in front of the free ones is unmapped. -/
theorem unmap_gap {w : World} (hw : Reachable small_boot w) (hF : Filled w.state small_boot.W 2)
    (hspace : space w.state small_boot.W 2 = Space.since 514 2 frames)
    (hheap : w.state.heap_end ≤ window 512) (hall : w.allowed (.unmap (window 512) 0x1000)) :
    ∃ w', w.step (.unmap (window 512) 0x1000) = .ok w' ∧ Filled w'.state small_boot.W 2 ∧
      space w'.state small_boot.W 2 = Space.gap frames := by
  obtain ⟨s', hunmap⟩ := hw.held.unmap_returns hall
  obtain ⟨c, hc, hbelow, hpages⟩ := hw.held.pages hall (by decide)
  obtain rfl := window_inj hc
  obtain ⟨-, hwrites⟩ := spec_of_ok (mmu_unmap_frames.spec hw.held.sound hbelow hpages) hunmap
  refine ⟨{ state := s', live := fun a => w.live a ∧ ¬ Region (window 512) 0x1000 a }, ?_,
    hF.of_tables hwrites.tables, ?_⟩
  · unfold World.step
    dsimp only
    rw [hunmap]
    rfl
  · have hfree : Free w.state small_boot.W = fun y => 514 ≤ y := congrArg Space.free hspace
    have hframes : s'.frames = frames := by
      rw [hwrites.rest]
      exact congrArg Space.frames hspace
    unfold space Space.gap
    dsimp only
    rw [hframes]
    congr 1
    funext y
    apply propext
    rw [unmap_free hw.held.sound hheap hbelow hpages hunmap, hfree,
      show turns 0x1000 = 1 from rfl]
    omega

/-- Two pages are mapped one after the other, and the first one is unmapped again. -/
theorem small_gap : ∃ s w1 w2 w3 frames, mmu_init WINDOW small_boot = .ok s ∧
    (Filled s small_boot.W 2 ∧ space s small_boot.W 2 = Space.since 512 2 frames) ∧
    World.step { state := s, live := fun _ => False } (.map WINDOW 0x5000 0x1000) = .ok w1 ∧
    (Filled w1.state small_boot.W 2 ∧ space w1.state small_boot.W 2 = Space.since 513 2 frames) ∧
    w1.step (.map WINDOW 0x5000 0x1000) = .ok w2 ∧ w2.allowed (.unmap (window 512) 0x1000) ∧
    w2.step (.unmap (window 512) 0x1000) = .ok w3 ∧
    (Filled w3.state small_boot.W 2 ∧ space w3.state small_boot.W 2 = Space.gap frames) ∧
    (serve frames [1, 1, 1]).isSome := by
  obtain ⟨s, frames, hinit, -, hF, hspace, hserve⟩ := small_boot_returns
  have hw : Reachable small_boot { state := s, live := fun _ => False } :=
    .start ⟨⟨WINDOW, hinit⟩, fun _ => id⟩
  obtain ⟨s1, hstep1, hend1, hF1, hspace1⟩ := map_next hw hF hspace (by decide)
  have hw1 := hw.next (show World.allowed _ (.map WINDOW 0x5000 0x1000) from trivial) hstep1
  obtain ⟨s2, hstep2, hend2, hF2, hspace2⟩ := map_next hw1 hF1 hspace1 (by decide)
  have hw2 := hw1.next (show World.allowed _ (.map WINDOW 0x5000 0x1000) from trivial) hstep2
  have hheap : s2.heap_end ≤ window 512 := by
    have hfree : Free s small_boot.W 512 := by
      rw [show Free s small_boot.W = fun y => 512 ≤ y from congrArg Space.free hspace]
    rw [hend2, hend1]
    exact hfree.1
  have hall : World.allowed { state := s2, live := fun a =>
      (False ∨ Region (window 512) 0x1000 a) ∨ Region (window 513) 0x1000 a }
      (.unmap (window 512) 0x1000) := fun a ha => Or.inl (Or.inr ha)
  obtain ⟨w3, hstep3, hgap⟩ := unmap_gap hw2 hF2 hspace2 hheap hall
  exact ⟨s, _, _, w3, frames, hinit, ⟨hF, hspace⟩, hstep1, ⟨hF1, hspace1⟩, hstep2, hall, hstep3,
    hgap, hserve⟩

/-- Of the pages behind the gap 511 are reported, and their page table goes to the gap. -/
theorem a_reported_region_is_free_behind_a_gap :
    ∃ w v s', Reachable small_boot w ∧
      mmu_find_free_virtual_region (allocate_pt WINDOW) WINDOW w.state 0x1FF000 = .ok (v, s') ∧
      v = window 514 ∧
      ∀ k, k < turns 0x1FF000 → mmu_virtual_to_physical s' (v + k * PAGE_SIZE) = none := by
  obtain ⟨s, w1, w2, w3, frames, hinit, -, hstep1, -, hstep2, hall, hstep3, ⟨hF, hsp⟩, hserve⟩ :=
    small_gap
  have hw : Reachable small_boot w3 :=
    ((Reach.start ⟨⟨WINDOW, hinit⟩, fun _ => id⟩).next trivial hstep1).next trivial hstep2
      |>.next hall hstep3
  have hn : 0 < turns 0x1FF000 := by decide
  have hfree : Free w3.state small_boot.W = (Space.gap frames).free := congrArg Space.free hsp
  have hrun : FirstRun (Free w3.state small_boot.W) (514 + turns 0x1FF000) 514
      (turns 0x1FF000) := by
    rw [hfree]
    exact firstRun_gap (by decide)
  have hopens : ∃ sp, (space w3.state small_boot.W 2).Opens (514 + turns 0x1FF000) sp := by
    obtain ⟨last, hlast⟩ := Option.isSome_iff_exists.mp hserve
    cases served_of_serve hlast with
    | cons hget _ =>
      rw [hsp]
      exact ⟨_, opens_gap (by decide) (by decide) (.cons hget (.nil _))⟩
  obtain ⟨⟨v, s'⟩, hcall, rfl, -⟩ := spec_returns
    (search_exact hw.held.sound hF hn hrun ((goes_surely hopens).ready id))
  refine ⟨w3, _, s', hw, hcall, rfl, ?_⟩
  refine (a_reported_region_is_free_iff small_boot w3 hw WINDOW 0x1FF000 _ s' hcall).mpr ?_
  intro q c _ hF' hrun'
  obtain rfl := hF'.unique hF
  obtain rfl := hrun'.unique hrun
  unfold Room
  rw [hfree, show span 2 (514 + turns 0x1FF000) = [(1024, 1)] by decide]
  exact ⟨_, placed_one (firstRun_of_gap (by decide))⟩

/-- Of 513 pages that start at the last page table there is, the first one is taken by the next
page table. -/
theorem a_page_table_in_the_reported_region :
    ¬ ∀ (boot : Boot) (w : World) (_ : Reachable boot w) (fuel length v : Nat) (s' : Mmu),
      mmu_find_free_virtual_region (allocate_pt fuel) fuel w.state length = .ok (v, s') →
      ∀ k, k < turns length → mmu_virtual_to_physical s' (v + k * PAGE_SIZE) = none := by
  intro h
  obtain ⟨s, frames, hinit, hsound, hfilled, hspace, hserve⟩ := small_boot_returns
  have hw : Reachable small_boot { state := s, live := fun _ => False } :=
    .start ⟨⟨WINDOW, hinit⟩, fun _ => id⟩
  have hn : 0 < turns 0x201000 := by decide
  obtain ⟨hrun, v, s', hcall⟩ := small_boot_search hsound hfilled hspace hserve hn (by decide)
  obtain ⟨rfl, hs', hc, hiff⟩ := search_keeps_region hsound hfilled hn hrun hcall
  have habsent := (region_absent_iff hs' hc).mp (h small_boot _ hw _ _ _ _ hcall)
  obtain ⟨left, hplaced⟩ := hiff.mp habsent
  have hspan : span 2 (512 + turns 0x201000) = [(1024, 1)] := by decide
  rw [hspan] at hplaced
  cases hplaced with
  | @cons _ _ _ _ p _ hfirst _ =>
    have hfree : Free s small_boot.W = fun y => 512 ≤ y := congrArg Space.free hspace
    have hbelow := hfirst.below
    have hpage := hfirst.run p (le_refl p) (by omega)
    rw [hfree] at hpage
    omega

end salsola.mmu
