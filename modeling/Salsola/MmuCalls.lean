-- What the calls of the kernel do to the page tables: `allocate_pt` for any slot,
-- `ksbrk_physical`, `mmu_map_frames` and `mmu_unmap_frames`.
import Salsola.MmuOpen

open memory outcome runs

namespace salsola.mmu

variable {W : Nat} {dirs : List Nat} {s s' s'' : Mmu} {a b c e f i j k n p q r x y t length : Nat}
variable {halts : Halt → Prop} {fuel : Nat}

/-! ## allocate_pt for any slot -/

theorem Makes.pml4t (h : Makes W s s') : s'.pml4t = s.pml4t := by
  unfold Mmu.pml4t
  rw [h.directories, h.active]

/-- What `allocate_pt` leaves: more tables, and nothing else. -/
structure Made (W : Nat) (dirs : List Nat) (s s' : Mmu) : Prop where
  sound : Sound W dirs s'
  makes : Makes W s s'
  quiet : Quiet s s'

theorem made_refl (h : Sound W dirs s) : Made W dirs s s :=
  ⟨h, (local_refl W s).toMakes, quiet_refl s⟩

theorem Made.trans (h : Made W dirs s s') (h' : Made W dirs s' s'') : Made W dirs s s'' :=
  ⟨h'.sound, h.makes.trans h'.makes, h.quiet.trans h'.quiet⟩

theorem Searched.made (h : Searched W dirs s s') : Made W dirs s s' :=
  ⟨h.sound, h.makes.toMakes, h.quiet⟩

theorem root_outside (h : Sound W dirs s) {d : Nat} (hd : d ∈ dirs) :
    ¬ InWindow s W (root s d) := by
  rintro (heq | ⟨i, hl⟩ | ⟨_, _, i, _, hl⟩)
  · exact window_not_root h hd heq
  · exact h.unrooted _ _ _ hd hl
  · exact h.unrooted _ _ _ hd hl

/-- A table outside of the window links to tables outside, but for the slots 511. -/
theorem link_outside (h : Sound W dirs s) (hl : Links s a i b) (ha : ¬ InWindow s W a)
    (hi : i ≠ 511 ∨ ∀ d ∈ dirs, root s d ≠ a) : ¬ InWindow s W b := by
  rintro (rfl | ⟨j, hl'⟩ | ⟨j, c, k, hl1, hl2⟩)
  · obtain ⟨h1, d, hd, h2⟩ := window_links h h.active hl
    rcases hi with hi | hi
    · exact hi h1
    · exact hi d hd h2
  · obtain ⟨heq, _⟩ := links_inj h hl' hl (fun d hd => window_not_root h hd)
    exact ha (Or.inl heq.symm)
  · obtain ⟨heq, _⟩ := links_inj h hl2 hl (linked_not_root h hl1)
    exact ha (Or.inr (Or.inl ⟨j, heq ▸ hl1⟩))

/-- A table outside of the window gets its entry. -/
theorem allocate_table.spec (h : Sound W dirs s) (ht : IsTable s t) (hout : ¬ InWindow s W t)
    (n : Nat) :
    Spec (allocate_table (allocate_pt fuel) fuel s t i (n * 0x1000)) anyhow
      (fun s' => Made W dirs s s' ∧ Links s' t i ((s'.tables t).next i) ∧ i < 512) := by
  by_cases hi : i < 512
  · by_cases hp : present ((s.tables t).physical i)
    · rw [allocate_table_present hi hp]
      exact ⟨made_refl h, links_next hp, hi⟩
    · rw [allocate_table_absent hi hp]
      refine spec_bind (safe_allocation.spec (opens_allocate_pt fuel) h fuel n) ?_
      rintro ⟨a, p, s1⟩ hsafe
      simp only at hsafe
      have hno1 : ¬ present ((s1.tables t).physical i) := by
        rw [(hsafe.searched.makes.outside t ht hout).1]
        exact hp
      obtain ⟨h1, h2⟩ := link_new (t := t) (i := i) h hsafe.searched.sound
        hsafe.searched.makes.toMakes hsafe.new ht hno1
      have hquiet := hsafe.searched.quiet
      refine ⟨⟨h1, h2, hquiet.heap_end, hquiet.ram, hquiet.seed⟩, links_next ?_, hi⟩
      rw [set_entry_self.1]
      exact present_or _ _ rfl
  · unfold allocate_table
    rw [if_pos (by omega)]
    trivial

/-- In the slot 511, `allocate_pt` makes tables of the window only. -/
theorem allocate_pt_511 (h : Sound W dirs s) (fuel j k : Nat) :
    Spec (allocate_pt fuel s 511 j k) anyhow (fun r => Searched W dirs s r.2 ∧ j < 512 ∧ k < 512 ∧
      Covered r.2 W (j * 512 + k) ∧ ∀ q, Covered r.2 W q → Covered s W q ∨ q ≤ j * 512 + k) := by
  by_cases hjk : j < 512 ∧ k < 512
  · obtain ⟨hj, hk⟩ := hjk
    have hx : 512 * (j * 512 + k) < WINDOW := by
      unfold WINDOW
      omega
    have hopens := opens_allocate_pt fuel s _ h hx
    rw [at_page_eq _ _ hx, show 512 * (j * 512 + k) / 512 = j * 512 + k by omega,
      show (j * 512 + k) / 512 = j by omega, show (j * 512 + k) % 512 = k by omega] at hopens
    exact spec_post hopens (fun r hr => ⟨hr.1, hj, hk, hr.2.1, hr.2.2.2⟩)
  · cases fuel with
    | zero => trivial
    | succ fuel =>
      unfold allocate_pt
      rw [allocate_table_present (by decide) (present_root h), ok_bind]
      simp only [next_root h]
      by_cases hj : j < 512
      · refine spec_bind (spec_anyhow _ (fun _ => True.intro)) ?_
        intro s1 _
        rw [if_pos (by omega)]
        trivial
      · unfold allocate_table
        rw [if_pos (by omega)]
        trivial

/-- The PT of an address is linked, level by level. -/
structure Path (s : Mmu) (i j k : Nat) (d : Nat) : Prop where
  below : i < 512 ∧ j < 512 ∧ k < 512
  linked : ∃ b c, Links s s.pml4t i b ∧ Links s b j c ∧ Links s c k d

theorem allocate_pt.spec (h : Sound W dirs s) (fuel i j k : Nat) :
    Spec (allocate_pt fuel s i j k) anyhow
      (fun r => Made W dirs s r.2 ∧ ∃ d, Path r.2 i j k d) := by
  by_cases hi : i = 511
  · subst hi
    refine spec_post (allocate_pt_511 h fuel j k) ?_
    rintro ⟨_, s1⟩ ⟨hs, hj, hk, hc, _⟩
    obtain ⟨h1, h2⟩ := hc.links
    rw [show (j * 512 + k) / 512 = j by omega] at h1 h2
    rw [show (j * 512 + k) % 512 = k by omega] at h2
    exact ⟨hs.made, _, ⟨by decide, hj, hk⟩, _, _, ⟨present_root hs.sound, next_root hs.sound⟩,
      h1, h2⟩
  · cases fuel with
    | zero => trivial
    | succ fuel =>
      unfold allocate_pt
      have hroot := root_outside h h.active
      refine spec_bind (allocate_table.spec h (root_table h h.active) hroot 2) ?_
      rintro s1 ⟨hm1, hl1, hi1⟩
      change Links s1 s.pml4t i ((s1.tables s.pml4t).next i) at hl1
      rw [← hm1.makes.pml4t] at hl1
      simp only
      have hout1 := link_outside hm1.sound hl1 (root_outside hm1.sound hm1.sound.active) (Or.inl hi)
      generalize (s1.tables s1.pml4t).next i = b at hl1 hout1 ⊢
      have hb1 := (hm1.sound.links _ _ _ hl1).2
      refine spec_bind (allocate_table.spec hm1.sound hb1 hout1 2) ?_
      rintro s2 ⟨hm2, hl2, hj2⟩
      have hl1' := (hm2.makes.grows.table _ _ _ hl1).1
      have hout2 : ¬ InWindow s2 W b := fun hin =>
        hout1 (hm2.makes.grows.inWindow hm1.sound hb1 hin)
      have hout2' := link_outside hm2.sound hl2 hout2 (Or.inr (linked_not_root hm2.sound hl1'))
      generalize (s2.tables b).next j = c at hl2 hout2' ⊢
      by_cases hk : k < 512
      · rw [if_neg (by omega)]
        by_cases hp : present ((s2.tables c).physical k)
        · rw [if_pos hp]
          refine ⟨hm1.trans hm2, _, ⟨hi1, hj2, hk⟩, b, c, ?_, hl2, links_next hp⟩
          rw [hm2.makes.pml4t]
          exact hl1'
        · rw [if_neg hp]
          refine spec_bind (allocate_table.spec hm2.sound (hm2.sound.links _ _ _ hl2).2 hout2' 1) ?_
          rintro s3 ⟨hm3, hl3, _⟩
          refine ⟨(hm1.trans hm2).trans hm3, _, ⟨hi1, hj2, hk⟩, b, c, ?_, ?_, hl3⟩
          · rw [hm3.makes.pml4t, hm2.makes.pml4t]
            exact (hm3.makes.grows.table _ _ _ hl1').1
          · exact (hm3.makes.grows.table _ _ _ hl2).1
      · rw [if_pos (by omega)]
        trivial

/-! ## The heap -/

theorem sound_heap (h : Sound W dirs s) (ht : CoveredBelow s W t) (hle : s.heap_end ≤ window t) :
    Sound W dirs { s with heap_end := window t } where
  active := h.active
  roots d hd := ⟨Nat.lt_of_lt_of_le (h.roots d hd).1 hle, (h.roots d hd).2⟩
  home p a hp :=
    { aligned := (h.home p a hp).aligned
      below := (h.home p a hp).below
      taken := (h.home p a hp).taken
      at_page := (h.home p a hp).at_page }
  links := h.links
  pages := h.pages
  tree := h.tree
  unrooted := h.unrooted
  heap := ⟨t, rfl, ht⟩
  zero := h.zero

theorem local_heap (h : Local W s s') (t : Nat) : Local W s { s' with heap_end := t } where
  grows := ⟨h.grows.table, h.grows.target, h.grows.page, h.grows.placed, h.grows.new, h.grows.taken⟩
  fresh := ⟨h.fresh.frame, h.fresh.apart⟩
  agrees := h.agrees
  directories := h.directories
  active := h.active
  outside := h.outside

/-- The bitmap can serve the requests one after the other. -/
def Enough : Frames → List Nat → Prop
  | _, [] => True
  | frames, count :: counts =>
    ∃ p frames', get_frame frames true count = .ok (p, frames') ∧ Enough frames' counts

/-- A check with `allocate` and without a frame maps the page to a new frame, if it is free. -/
theorem check_allocates {ap : AllocatePt} (hap : Idle W dirs halts ap) (h : Sound W dirs s)
    (hx : x < WINDOW) (hc : Covered s W (x / 512))
    (hget : halts .assert ∨ ∃ r, get_frame s.frames true 1 = .ok r) :
    Spec (check_virtual_region_is_free ap s (window x) true false 0) halts
      (fun r => (r.1 = true ↔ ¬ Mapped s W x) ∧
        (r.1 = true → ∃ p frames, get_frame s.frames true 1 = .ok (p, frames) ∧
          r.2.1 = some (page_base (p ||| 0x3)) ∧
          r.2.2 = { s with frames }.set_page (pt_of s W (x / 512)) (x % 512) (p ||| 0x3))) := by
  unfold check_virtual_region_is_free
  refine spec_bind (hap s x h hx hc) ?_
  rintro ⟨_, s1⟩ rfl
  simp only
  rw [word_window h hx hc]
  unfold Mapped
  by_cases hm : present (page s1 W x)
  · rw [if_neg (not_not.mpr hm)]
    exact ⟨by simpa using hm, fun hf => absurd hf (by simp)⟩
  · rw [if_pos hm]
    simp only [if_true, Bool.false_eq_true, if_false]
    cases hframe : get_frame s1.frames true 1 with
    | error e =>
      have he := get_frame.spec s1.frames 1
      rw [hframe] at he
      rcases hget with h0 | ⟨r, h0⟩
      · rw [he.1]
        exact h0
      · rw [hframe] at h0
        cases h0
    | ok r =>
      obtain ⟨p, frames⟩ := r
      refine ⟨by simpa using hm, fun _ => ⟨p, frames, rfl, rfl, ?_⟩⟩
      have hpt : s1.pt (window x) = pt_of s1 W (x / 512) := pt_window h hx
      rw [← hpt, ← pt_index_window]

/-- A page on a frame that was free. -/
theorem fresh_page (h : Sound W dirs s) (ha : IsTable s a) (hno : ¬ present (s.pts a i))
    {frames : Frames} (hget : get_frame s.frames true 1 = .ok (p, frames)) (hf : f < 0x1000) :
    Sound W dirs (({ s with frames } : Mmu).set_page a i (p ||| f)) ∧
      Makes W s (({ s with frames } : Mmu).set_page a i (p ||| f)) := by
  obtain ⟨r, rfl, -, hbelow, hfree, htaken⟩ := get_frame_taken hget
  have hF : Sound W dirs { s with frames } := sound_taken h (fun f hf => htaken f (Or.inl hf))
  have hlocal : Local W s { s with frames } := local_taken (fun f hf => htaken f (Or.inl hf))
  have hframe : (r * 0x1000 ||| f) / 0x1000 = r := by
    rw [or_frame _ _ hf]
    omega
  obtain ⟨s', hs'⟩ : ∃ s', s' = ({ s with frames } : Mmu).set_page a i (r * 0x1000 ||| f) :=
    ⟨_, rfl⟩
  have hnew : ∀ b j, NewPage s s' b j → (b = a ∧ j = i) ∧ s'.pts b j / 0x1000 = r := by
    intro b j hpage
    have hslot : b = a ∧ j = i := by
      by_contra hslot
      have heq : s'.pts b j = s.pts b j := by
        rw [hs']
        exact set_page_other hslot
      exact hpage.2 (heq ▸ hpage.1)
    refine ⟨hslot, ?_⟩
    rw [hslot.1, hslot.2, hs', set_page_self]
    exact hframe
  have hfresh : Fresh s s' := by
    constructor
    · intro b j hpage
      obtain ⟨-, heq⟩ := hnew b j hpage
      rw [heq]
      refine ⟨hfree r (Nat.le_refl r) (by omega), ?_, by omega⟩
      rw [hs']
      exact htaken r (Or.inr ⟨Nat.le_refl r, by omega⟩)
    · intro b j c k hpage hpage' _
      obtain ⟨⟨rfl, rfl⟩, -⟩ := hnew b j hpage
      obtain ⟨⟨rfl, rfl⟩, -⟩ := hnew c k hpage'
      exact ⟨rfl, rfl⟩
  rw [hs'] at hfresh
  exact ⟨sound_map hF ha hno, hlocal.grows.trans (grows_map hno), hfresh,
    fun _ _ _ hl => Or.inl hl, rfl, rfl⟩

/-- A page of the window that gets a frame of its own. -/
theorem page_allocated {frames : Frames} (h : Sound W dirs s) (hc : Covered s W (x / 512))
    (hm : ¬ Mapped s W x) (hget : get_frame s.frames true 1 = .ok (p, frames)) :
    Sound W dirs ({ s with frames }.set_page (pt_of s W (x / 512)) (x % 512) (p ||| 0x3)) ∧
      Local W s ({ s with frames }.set_page (pt_of s W (x / 512)) (x % 512) (p ||| 0x3)) ∧
      page ({ s with frames }.set_page (pt_of s W (x / 512)) (x % 512) (p ||| 0x3)) W x =
        p ||| 0x3 ∧
      p % 0x1000 = 0 ∧ p ≠ 0 := by
  have hno : ¬ present (s.pts (pt_of s W (x / 512)) (x % 512)) := by
    rw [← page_of_covered hc]
    exact hm
  obtain ⟨hsound, hmakes⟩ :=
    fresh_page (f := 0x3) h (h.links _ _ _ hc.links.2).2 hno hget (by decide)
  obtain ⟨r, rfl, -, -, hfree, htaken⟩ := get_frame_taken hget
  have hF : Sound W dirs { s with frames } := sound_taken h (fun f hf => htaken f (Or.inl hf))
  have hcF : Covered { s with frames } W (x / 512) := hc
  have hzero : r ≠ 0 := by
    rintro rfl
    exact hfree 0 (Nat.le_refl 0) Nat.one_pos h.zero
  refine ⟨hsound, ⟨hmakes, outside_map (s := { s with frames }) hcF⟩, ?_, by omega, by omega⟩
  have hpage := page_set_page (y := x) (e := r * 0x1000 ||| 0x3) hF hcF
  rw [if_pos rfl] at hpage
  exact hpage

/-- What the loop of `ksbrk_physical` does to the `n` pages from `t` on. -/
structure Brought (W : Nat) (dirs : List Nat) (s : Mmu) (t n : Nat) (s' : Mmu) : Prop where
  sound : Sound W dirs s'
  makes : Local W s s'
  tables : s'.tables = s.tables
  placed : s'.placed = s.placed
  ram : s'.ram = s.ram
  seed : s'.seed = s.seed
  heap_end : s'.heap_end = window (t + n)
  pages : ∀ k, k < n → ¬ Mapped s W (t + k) ∧ Mapped s' W (t + k)

/-- Page `t` is mapped to `p`, and the heap ends behind it. -/
structure Raised (W : Nat) (dirs : List Nat) (s : Mmu) (t p : Nat) (frames : Frames) (s' : Mmu) :
    Prop where
  brought : Brought W dirs s t 1 s'
  frames : s'.frames = frames
  page : page s' W t = p ||| 0x3
  other : ∀ y, y ≠ t → (Mapped s' W y ↔ Mapped s W y)

theorem heap_raised {frames : Frames} (h : Sound W dirs s) (ht : s.heap_end = window t)
    (hc : CoveredBelow s W (t + 1)) (hm : ¬ Mapped s W t)
    (hget : get_frame s.frames true 1 = .ok (p, frames)) :
    Raised W dirs s t p frames { { s with frames }.set_page (pt_of s W (t / 512)) (t % 512)
      (p ||| 0x3) with heap_end := window (t + 1) } := by
  have hct : Covered s W (t / 512) := hc _ (by omega)
  obtain ⟨h1, hmakes, hpage, -, -⟩ := page_allocated h hct hm hget
  obtain ⟨s1, hs1⟩ : ∃ s1, s1 =
      { s with frames }.set_page (pt_of s W (t / 512)) (t % 512) (p ||| 0x3) := ⟨_, rfl⟩
  rw [← hs1] at h1 hmakes hpage ⊢
  have hother : ∀ y, y ≠ t → (Mapped s1 W y ↔ Mapped s W y) := by
    intro y hy
    have hF : Sound W dirs { s with frames } := by
      obtain ⟨_, -, -, -, -, htaken⟩ := get_frame_taken hget
      exact sound_taken h (fun f hf => htaken f (Or.inl hf))
    have hset := page_set_page (y := y) (e := p ||| 0x3) hF (x := t) hct
    rw [if_neg hy] at hset
    unfold Mapped
    rw [hs1]
    exact iff_of_eq (congrArg present hset)
  have hmapped : Mapped s1 W t := by
    unfold Mapped
    rw [hpage]
    exact present_or _ _ rfl
  have hsound : Sound W dirs { s1 with heap_end := window (t + 1) } := by
    apply sound_heap h1
    · intro q hq
      exact (hmakes.grows.covered (hc q hq)).1
    · rw [show s1.heap_end = window t from (congrArg Mmu.heap_end hs1).trans ht]
      unfold window
      omega
  refine ⟨⟨hsound, local_heap hmakes _, ?_, ?_, ?_, ?_, rfl, ?_⟩, ?_, hpage, hother⟩
  · rw [hs1]
    rfl
  · rw [hs1]
    rfl
  · rw [hs1]
    rfl
  · rw [hs1]
    rfl
  · intro k hk
    obtain rfl : k = 0 := by omega
    exact ⟨hm, hmapped⟩
  · rw [hs1]
    rfl

theorem Brought.grows (h : Brought W dirs s t n s') : Grows W s s' := h.makes.grows

/-- The first page and those behind it. -/
theorem Raised.cons {frames : Frames} (h : Sound W dirs s) (h1 : Raised W dirs s t p frames s1)
    (hb : Brought W dirs s1 (t + 1) n s') : Brought W dirs s t (n + 1) s' where
  sound := hb.sound
  makes := h1.brought.makes.trans hb.makes h
  tables := hb.tables.trans h1.brought.tables
  placed := hb.placed.trans h1.brought.placed
  ram := hb.ram.trans h1.brought.ram
  seed := hb.seed.trans h1.brought.seed
  heap_end := by
    rw [hb.heap_end]
    congr 1
    omega
  pages := by
    intro k hk
    rcases k with _ | k
    · obtain ⟨hm, hmapped⟩ := h1.brought.pages 0 Nat.one_pos
      exact ⟨hm, hb.makes.grows.mapped hmapped⟩
    · obtain ⟨h3, h4⟩ := hb.pages k (by omega)
      rw [show t + 1 + k = t + (k + 1) by omega] at h3 h4
      exact ⟨(not_congr (h1.other _ (by omega))).mp h3, h4⟩

theorem ksbrk_pages.spec {ap : AllocatePt} (hap : Idle W dirs halts ap) (h : Sound W dirs s)
    (ht : s.heap_end = window t) (hc : CoveredBelow s W (t + n))
    (hget : halts .assert ∨
      (Enough s.frames (List.replicate n 1) ∧ ∀ k, k < n → ¬ Mapped s W (t + k))) (r : Nat) :
    Spec (ksbrk_pages ap s r n) halts (fun o => Brought W dirs s t n o.2 ∧
      (r ≠ 0 → o.1 = r) ∧ (r = 0 → 0 < n → o.1 = page_base (page o.2 W t))) := by
  induction n generalizing s t r with
  | zero =>
    refine ⟨⟨h, local_refl W s, rfl, rfl, rfl, rfl, ht, ?_⟩, fun _ => rfl, ?_⟩
    · intro k hk
      exact absurd hk (Nat.not_lt_zero k)
    · intro _ h0
      exact absurd h0 (Nat.lt_irrefl 0)
  | succ n ih =>
    unfold ksbrk_pages
    have hlow := below_window h hc
    have hct : Covered s W (t / 512) := hc _ (by omega)
    have hfirst : halts .assert ∨ ∃ r, get_frame s.frames true 1 = .ok r := by
      refine hget.imp_right (fun hall => ?_)
      obtain ⟨p, frames, hp, -⟩ := hall.1
      exact ⟨_, hp⟩
    rw [ht]
    refine spec_bind (check_allocates hap h (by omega) hct hfirst) ?_
    rintro ⟨was_free, physical, s1⟩ ⟨hwas, hs1⟩
    dsimp only at hwas hs1 ⊢
    by_cases hm : Mapped s W t
    · have hno : ¬ (was_free = true) := fun hfree => (hwas.mp hfree) hm
      rw [assert_fails hno]
      rcases hget with h0 | h0
      · exact h0
      · exact absurd hm (h0.2 0 (Nat.succ_pos n))
    · have hfree := hwas.mpr hm
      rw [assert_of hfree, ok_bind]
      obtain ⟨p, frames, hp, rfl, rfl⟩ := hs1 hfree
      obtain ⟨-, -, -, haligned, hpos⟩ := page_allocated h hct hm hp
      have hbase : page_base (p ||| 0x3) = p := page_base_of_aligned _ _ haligned (by decide)
      have hraised := heap_raised h ht (fun q hq => hc q (by omega)) hm hp
      have hnext : (Mmu.set_page { s with frames } (pt_of s W (t / 512)) (t % 512)
          (p ||| 0x3)).heap_end + 0x1000 = window (t + 1) := by
        refine (congrArg (· + 0x1000) ht).trans ?_
        unfold window
        omega
      rw [hbase, Option.getD_some, hnext]
      -- the page is mapped, and the heap ends behind it
      obtain ⟨s1, hs1⟩ : ∃ s1, s1 =
          { { s with frames }.set_page (pt_of s W (t / 512)) (t % 512) (p ||| 0x3) with
            heap_end := window (t + 1) } := ⟨_, rfl⟩
      rw [← hs1] at hraised ⊢
      have hgrows := hraised.brought.grows
      have hmapped : Mapped s1 W t := (hraised.brought.pages 0 Nat.one_pos).2
      have hrest : halts .assert ∨ (Enough s1.frames (List.replicate n 1) ∧
          ∀ k, k < n → ¬ Mapped s1 W (t + 1 + k)) := by
        refine hget.imp_right ?_
        rintro ⟨⟨p', frames', hp', henough⟩, hall⟩
        rw [hp] at hp'
        cases hp'
        refine ⟨by rw [hraised.frames]; exact henough, fun k hk => ?_⟩
        rw [hraised.other _ (by omega)]
        have := hall (k + 1) (by omega)
        rw [show t + (k + 1) = t + 1 + k by omega] at this
        exact this
      refine spec_post (ih hraised.brought.sound hraised.brought.heap_end
        (fun q hq => (hgrows.covered (hc q (by omega))).1) hrest _) ?_
      rintro ⟨r', s'⟩ ⟨hb, hkeep, hnew⟩
      dsimp only at hb hkeep hnew ⊢
      refine ⟨hraised.cons h hb, ?_, ?_⟩
      · intro hr
        rw [if_neg hr] at hkeep
        exact hkeep hr
      · intro hr _
        rw [if_pos hr] at hkeep
        rw [hkeep hpos, hb.grows.page_eq hmapped]
        exact hbase.symm.trans (congrArg page_base hraised.page.symm)

/-- The bytes that `fill_pages` writes are no tables. -/
theorem fill_pages_eq (s : Mmu) (buffer n : Nat) :
    ∃ ram seed, fill_pages s buffer n = { s with ram, seed } := by
  induction n generalizing s buffer with
  | zero => exact ⟨s.ram, s.seed, rfl⟩
  | succ n ih =>
    unfold fill_pages
    generalize prng_get_pseudorandom s.ram s.seed _ PAGE_SIZE = filled
    obtain ⟨ram, seed, h⟩ := ih { s with ram := filled.1, seed := filled.2 } (buffer + PAGE_SIZE)
    exact ⟨ram, seed, h⟩

theorem sound_ram (h : Sound W dirs s) (ram : Mem) (seed : Seed) :
    Sound W dirs { s with ram, seed } where
  active := h.active
  roots := h.roots
  home p a hp :=
    { aligned := (h.home p a hp).aligned
      below := (h.home p a hp).below
      taken := (h.home p a hp).taken
      at_page := (h.home p a hp).at_page }
  links := h.links
  pages := h.pages
  tree := h.tree
  unrooted := h.unrooted
  heap := h.heap
  zero := h.zero

theorem local_ram (h : Local W s s') (ram : Mem) (seed : Seed) :
    Local W s { s' with ram, seed } where
  grows := ⟨h.grows.table, h.grows.target, h.grows.page, h.grows.placed, h.grows.new, h.grows.taken⟩
  fresh := ⟨h.fresh.frame, h.fresh.apart⟩
  agrees := h.agrees
  directories := h.directories
  active := h.active
  outside := h.outside

theorem allocate_next_pt.spec (h : Sound W dirs s) (ht : t < WINDOW) (fuel : Nat) :
    Spec (allocate_next_pt fuel s (window t)) anyhow (Searched W dirs s) := by
  unfold allocate_next_pt
  rw [pml4t_index_window ht]
  refine spec_bind (allocate_pt_511 h fuel _ _) ?_
  rintro ⟨_, s1⟩ ⟨h1, -⟩
  refine spec_bind (allocate_pt_511 h1.sound fuel _ _) ?_
  rintro ⟨_, s2⟩ ⟨h2, -⟩
  exact h1.trans h2 h

/-- What `ksbrk_physical` does: it returns `rc`, and writes `phys` to `*physical`. No table lies in
the pages that it gives. -/
structure Extended (W : Nat) (dirs : List Nat) (s : Mmu) (n rc phys : Nat) (s' : Mmu) : Prop where
  sound : Sound W dirs s'
  makes : Local W s s'
  region : 0 < n → ∃ c, rc = window c ∧ s'.heap_end = window (c + n) ∧ c + n ≤ WINDOW ∧
    phys = page_base (page s' W c) ∧ ∀ k, k < n → ¬ Mapped s W (c + k) ∧ Mapped s' W (c + k)
  bare : ∀ c k, rc = window c → k < n → ¬ IsTable s' (window (c + k))

theorem turns_pos (h : 0 < length) : 0 < turns length := by
  unfold turns
  omega

/-- The bytes of the frames that were taken stay as they are. -/
def Kept (s s' : Mmu) : Prop := ∀ x, taken s.frames (x / 0x1000) → s'.ram x = s.ram x

/-- A page of the window is translated by its entry. -/
theorem translate_window (h : Sound W dirs s) (hx : x < WINDOW) :
    mmu_virtual_to_physical s (window x) =
      if Mapped s W x then some (page_base (page s W x)) else none := by
  have hlow : window x &&& 0xFFF = 0 := by
    rw [and_low]
    unfold window KERNEL_VMA
    omega
  unfold mmu_virtual_to_physical
  simp only [pml4t_index_window hx, pdpt_index_window hx, pdt_index_window, pt_index_window,
    next_root h, present_root h, hlow, Nat.or_zero, not_true, if_false]
  unfold Mapped page Covered pt_of
  by_cases h1 : present ((s.tables W).physical (x / 512 / 512))
  · by_cases h2 : present ((s.tables ((s.tables W).next (x / 512 / 512))).physical (x / 512 % 512))
    · simp only [h1, h2, not_true, if_false, and_self, if_true, ite_not]
    · simp [h1, h2]
  · simp [h1]

/-- `fill_pages` writes to the frames of its pages only. -/
theorem fill_pages_outside (h : Sound W dirs s) (hc : c + n ≤ WINDOW)
    (hm : ∀ k, k < n → Mapped s W (c + k))
    (hx : ∀ k, k < n → x / 0x1000 ≠ page s W (c + k) / 0x1000) :
    (fill_pages s (window c) n).ram x = s.ram x := by
  induction n generalizing s c with
  | zero => rfl
  | succ n ih =>
    have hmapped : Mapped s W c := hm 0 (by omega)
    have hfirst : mmu_virtual_to_physical s (window c) = some (page_base (page s W c)) := by
      rw [translate_window h (by omega), if_pos hmapped]
    have hout : x < page_base (page s W c) ∨ page_base (page s W c) + PAGE_SIZE ≤ x := by
      have := hx 0 (by omega)
      rw [Nat.add_zero] at this
      unfold page_base PAGE_SIZE
      omega
    have hnext : window c + PAGE_SIZE = window (c + 1) := by
      unfold window PAGE_SIZE
      omega
    have hkeep := prng_outside s.ram s.seed _ _ _ hout
    unfold fill_pages
    rw [hfirst, Option.getD_some, hnext]
    generalize prng_get_pseudorandom s.ram s.seed _ PAGE_SIZE = filled at hkeep ⊢
    refine (ih (sound_ram h filled.1 filled.2) (c := c + 1) (by omega) ?_ ?_).trans hkeep
    · intro k hk
      have := hm (k + 1) (by omega)
      rw [show c + (k + 1) = c + 1 + k by omega] at this
      exact this
    · intro k hk
      have := hx (k + 1) (by omega)
      rw [show c + (k + 1) = c + 1 + k by omega] at this
      exact this

theorem filled_pages (length : Nat) : align_up length PAGE_SIZE / PAGE_SIZE = turns length := by
  unfold align_up turns PAGE_SIZE
  split <;> omega

/-- The memory that `ksbrk_physical` hands out lies behind the heap, and its bytes are the only ones
that it writes. -/
theorem ksbrk_physical.extends (h : Sound W dirs s) (fuel length : Nat) :
    Spec (ksbrk_physical fuel s length) anyhow (fun r =>
      Extended W dirs s (turns length) r.1 r.2.1 r.2.2 ∧ (0 < length → s.heap_end ≤ r.1) ∧
        Kept s r.2.2) := by
  unfold ksbrk_physical
  have hopens : Opens W dirs (allocate_pt fuel) := opens_allocate_pt fuel
  refine spec_bind (mmu_find_free_virtual_region.spec hopens h fuel length) ?_
  rintro ⟨_, s1⟩ ⟨c1, rfl, hle1, hf1⟩
  dsimp only at hf1 ⊢
  have hsound1 := hf1.searched.sound
  have hbelow1 := below_window hsound1 hf1.below
  have hheap1 : Sound W dirs { s1 with heap_end := window c1 } := by
    apply sound_heap hsound1
    · intro q hq
      exact hf1.below q (by omega)
    · rw [hf1.searched.quiet.heap_end]
      exact hle1
  have hlt1 : c1 < WINDOW := by
    have hc1 : CoveredBelow s1 W c1 := fun q hq => hf1.below q (by omega)
    have := coveredBelow_le hsound1 hc1
    unfold LIMIT NUM_OF_FRAMES at this
    unfold WINDOW
    omega
  refine spec_bind (allocate_next_pt.spec hheap1 hlt1 fuel) ?_
  intro s2 hs2
  have hlocal2 : Local W s s2 :=
    (local_heap hf1.searched.makes (window c1)).trans hs2.makes h
  by_cases hzero : 0 = length
  · rw [if_pos hzero]
    have hnone : ¬ 0 < turns length := by
      rw [← hzero]
      decide
    refine ⟨⟨hs2.sound, hlocal2, fun hpos => absurd hpos hnone,
        fun c k _ hk => absurd (Nat.lt_of_le_of_lt (Nat.zero_le k) hk) hnone⟩,
      fun hpos => absurd hzero (Nat.ne_of_lt hpos), fun x _ => ?_⟩
    rw [hs2.quiet.ram]
    exact congrFun hf1.searched.quiet.ram x
  · rw [if_neg hzero]
    refine spec_bind (mmu_find_free_virtual_region.spec hopens hs2.sound fuel length) ?_
    rintro ⟨_, s3⟩ ⟨c, rfl, hle3, hf3⟩
    dsimp only at hf3 ⊢
    have hsound3 := hf3.searched.sound
    have hheap3 : Sound W dirs { s3 with heap_end := window c } := by
      apply sound_heap hsound3
      · intro q hq
        exact hf3.below q (by omega)
      · rw [hf3.searched.quiet.heap_end]
        exact hle3
    have hlocal3 : Local W s { s3 with heap_end := window c } :=
      local_heap (hlocal2.trans hf3.searched.makes h) (window c)
    have hidle : Idle W dirs anyhow (allocate_pt fuel) := idle_allocate_pt fuel (Or.inl trivial)
    have hpages := ksbrk_pages.spec hidle hheap3 rfl hf3.below (Or.inl trivial) 0
    refine spec_bind hpages ?_
    rintro ⟨r, s4⟩ ⟨hb, -, hfirst⟩
    dsimp only at hb hfirst ⊢
    have hbelow := below_window hsound3 hf3.below
    have hlocal4 : Local W s s4 := hlocal3.trans hb.makes h
    have hpages : ∀ k, k < turns length → ¬ Mapped s W (c + k) ∧ Mapped s4 W (c + k) := by
      intro k hk
      obtain ⟨hno, hyes⟩ := hb.pages k hk
      exact ⟨fun hm => hno (hlocal3.grows.mapped hm), hyes⟩
    have hkept : Kept s (fill_pages s4 (window c) (turns length)) := by
      intro x hx
      rw [fill_pages_outside hb.sound hbelow (fun k hk => (hpages k hk).2), hb.ram]
      · exact congrFun (hf3.searched.quiet.ram.trans (hs2.quiet.ram.trans hf1.searched.quiet.ram)) x
      · intro k hk heq
        obtain ⟨hno, hyes⟩ := hpages k hk
        have hnew := hlocal4.grows.new_page h hyes hno
        have hframe := (hlocal4.fresh.frame _ _ hnew).1
        rw [page_of_covered hyes.covered] at heq
        exact hframe (heq ▸ hx)
    rw [filled_pages]
    obtain ⟨ram, seed, hfill⟩ := fill_pages_eq s4 (window c) (turns length)
    have hheap : s.heap_end ≤ window c := by
      have h1 : s2.heap_end = window c1 := hs2.quiet.heap_end
      omega
    refine ⟨?_, fun _ => hheap, hkept⟩
    rw [hfill]
    refine ⟨sound_ram hb.sound ram seed, local_ram hlocal4 ram seed, ?_, ?_⟩
    · intro hpos
      exact ⟨c, rfl, hb.heap_end, hbelow, hfirst rfl hpos, hpages⟩
    · intro c' k hc' hk
      obtain rfl := window_inj hc'
      have hnot := not_table_of_unmapped hheap3 (hb.pages k hk).1
      unfold IsTable at hnot ⊢
      dsimp only
      rw [hb.placed]
      exact hnot

theorem ksbrk_physical.spec (h : Sound W dirs s) (fuel length : Nat) :
    Spec (ksbrk_physical fuel s length) anyhow
      (fun r => Extended W dirs s (turns length) r.1 r.2.1 r.2.2) :=
  spec_post (ksbrk_physical.extends h fuel length) (fun _ hr => hr.1)

/-! ## Regions -/

/-- The call has mapped the `n` pages of the window from `c` on to the frames from `src` on. -/
structure Shown (W : Nat) (dirs : List Nat) (s : Mmu) (c n src : Nat) (s' : Mmu) : Prop where
  sound : Sound W dirs s'
  grows : Grows W s s'
  quiet : Quiet s s'
  kept : s'.directories = s.directories ∧ s'.active_directory = s.active_directory
  behind : s.heap_end ≤ window c
  below : c + n ≤ WINDOW
  pages : ∀ k, k < n → ¬ Mapped s W (c + k) ∧ page s' W (c + k) = (src + k * 0x1000) ||| 0x3
  no_table : ∀ k, k < n → ¬ IsTable s' (window (c + k))

theorem mmu_map_frames.spec (h : Sound W dirs s) (fuel src length : Nat) :
    Spec (mmu_map_frames fuel s src length) anyhow
      (fun r => ∃ c, r.1 = window c ∧ Shown W dirs s c (turns length) src r.2) := by
  unfold mmu_map_frames
  refine spec_bind (mmu_find_free_virtual_region.spec (opens_allocate_pt fuel) h fuel length) ?_
  rintro ⟨_, s1⟩ ⟨c, rfl, hle, hfound⟩
  dsimp only at hfound ⊢
  have h1 := hfound.searched.sound
  have hbelow := below_window h1 hfound.below
  have hidle : Idle W dirs anyhow (allocate_pt fuel) := idle_allocate_pt fuel (Or.inl trivial)
  refine spec_bind (map_covered hidle h1 (fun k hk => hfound.below _ (by omega)) hbelow
    (Or.inl trivial)) ?_
  rintro s2 ⟨h2, hmaps⟩
  have hmakes := hfound.searched.makes
  have hquiet := hfound.searched.quiet
  have hrest := hmaps.rest
  refine ⟨c, rfl, ?_⟩
  exact
    { sound := h2
      grows := hmakes.grows.trans hmaps.grows
      quiet := by
        rw [hrest]
        exact ⟨hquiet.heap_end, hquiet.ram, hquiet.seed⟩
      kept := by
        rw [hrest]
        exact ⟨hmakes.directories, hmakes.active⟩
      behind := hle
      below := hbelow
      pages := fun k hk =>
        ⟨fun hm => (hmaps.free hk).2 (hmakes.grows.mapped hm), hmaps.page_in hk⟩
      no_table := by
        intro k hk ht
        apply not_table_of_unmapped h1 (hmaps.free hk).2
        unfold IsTable at ht ⊢
        rw [hrest] at ht
        exact ht }

theorem window_pos (x : Nat) : 0 < window x := by
  unfold window KERNEL_VMA
  omega

/-- A table has a pointer that is not `NULL`. -/
theorem table_pos (h : Sound W dirs s) (ha : IsTable s a) : 0 < a := by
  obtain ⟨p, hp⟩ := ha
  obtain ⟨x, -, rfl, -⟩ := (h.home p a hp).at_page
  exact window_pos x

/-- The pages of a region that holds no table are unmapped. -/
theorem unmap_pages.spec (h : Sound W dirs s) (hx : x + n ≤ WINDOW)
    (hc : ∀ k, k < n → Covered s W ((x + k) / 512))
    (hno : ∀ k, k < n → ¬ IsTable s (window (x + k))) :
    Spec (unmap_pages s (window x) n) halts
      (fun s' => Sound W dirs s' ∧ Writes W s s' x n (fun _ => 0)) := by
  induction n generalizing s x with
  | zero => exact ⟨h, writes_nothing W s x _⟩
  | succ n ih =>
    unfold unmap_pages
    have hc0 : Covered s W (x / 512) := hc 0 (by omega)
    have hpt : s.pt (window x) = pt_of s W (x / 512) := pt_window h (by omega)
    have hpos := table_pos h (h.links _ _ _ hc0.links.2).2
    rw [hpt, assert_of (by omega), ok_bind, pt_index_window]
    have h1 := sound_unmap (e := 0) h hc0 (hno 0 (by omega))
    rw [show window x + PAGE_SIZE = window (x + 1) by unfold window PAGE_SIZE; ring]
    refine spec_post (ih h1 (by omega) ?_ ?_) ?_
    · intro k hk
      have := hc (k + 1) (by omega)
      rw [show x + (k + 1) = x + 1 + k by omega] at this
      exact this
    · intro k hk
      have := hno (k + 1) (by omega)
      rw [show x + (k + 1) = x + 1 + k by omega] at this
      exact this
    · rintro s2 ⟨h2, hw⟩
      exact ⟨h2, hw.cons h hc0⟩

/-! ## Translations -/

/-- What was translated before a call that grows the tables is translated as before. -/
theorem Grows.translates (h : Grows W s s')
    (hd : s'.directories = s.directories ∧ s'.active_directory = s.active_directory)
    (hp : mmu_virtual_to_physical s a = some p) : mmu_virtual_to_physical s' a = some p := by
  have hroot : s'.pml4t = s.pml4t := by
    unfold Mmu.pml4t
    rw [hd.1, hd.2]
  unfold mmu_virtual_to_physical at hp ⊢
  simp only [ite_not] at hp ⊢
  split at hp
  · rename_i h1
    split at hp
    · rename_i h2
      split at hp
      · rename_i h3
        split at hp
        · rename_i h4
          obtain ⟨g1, e1⟩ := h.present h1
          obtain ⟨g2, e2⟩ := h.present h2
          obtain ⟨g3, e3⟩ := h.present h3
          rw [hroot, e1, e2, e3, h.page _ _ h4, if_pos g1, if_pos g2, if_pos g3, if_pos g1,
            if_pos h4]
          exact hp
        · cases hp
      · cases hp
    · cases hp
  · cases hp

end salsola.mmu
