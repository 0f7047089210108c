-- What a search of the window does, to the page: which pages the tables take that it
-- makes, and that it returns where they find their places and their frames.
import Salsola.MmuCalls

open memory outcome runs

namespace salsola.mmu

variable {W : Nat} {dirs : List Nat} {s s' s'' : Mmu} {a b c e i j k n p q r t x y length : Nat}
variable {halts : Halt → Prop} {fuel : Nat} {demands demands' : List (Nat × Nat)}

/-! ## Frames and pages that are there -/

/-- The bitmap serves the requests one after the other, and `left` is what it says then. -/
inductive Served : Frames → List Nat → Frames → Prop
  | nil (frames : Frames) : Served frames [] frames
  | cons {frames frames' left : Frames} {count p : Nat} {counts : List Nat} :
      get_frame frames true count = .ok (p, frames') → Served frames' counts left →
      Served frames (count :: counts) left

theorem Served.append {f f' f'' : Frames} {l l' : List Nat} (h : Served f l f')
    (h' : Served f' l' f'') : Served f (l ++ l') f'' := by
  induction h with
  | nil => exact h'
  | cons hget _ ih => exact .cons hget (ih h')

/-- What comes behind requests that were served is served as well. -/
theorem Served.enough {f f' : Frames} {l l' : List Nat} (h : Served f l f')
    (he : Enough f (l ++ l')) : Enough f' l' := by
  induction h with
  | nil => exact he
  | cons hget _ ih =>
    obtain ⟨p, frames, hget', he⟩ := he
    rw [hget] at hget'
    cases hget'
    exact ih he

theorem Enough.left {f : Frames} {l l' : List Nat} (h : Enough f (l ++ l')) : Enough f l := by
  induction l generalizing f with
  | nil => trivial
  | cons n l ih =>
    obtain ⟨p, frames, hget, h⟩ := h
    exact ⟨p, frames, hget, ih h⟩

/-- What the demands make of the window: new tables on the first pages that are free. -/
structure Grown (W : Nat) (dirs : List Nat) (s : Mmu) (demands : List (Nat × Nat)) (s' : Mmu) :
    Prop where
  searched : Searched W dirs s s'
  frames : Served s.frames (demands.map Prod.snd) s'.frames
  places : Placed (Free s W) demands (Free s' W)

theorem grown_refl (h : Sound W dirs s) : Grown W dirs s [] s :=
  ⟨searched_refl h, .nil _, .nil _⟩

theorem Grown.trans (h : Grown W dirs s demands s') (h' : Grown W dirs s' demands' s'')
    (hs : Sound W dirs s) : Grown W dirs s (demands ++ demands') s'' where
  searched := h.searched.trans h'.searched hs
  frames := by
    rw [List.map_append]
    exact h.frames.append h'.frames
  places := h.places.append h'.places

theorem Opened.grown (h : Opened W dirs s n c s') (hrun : FirstRun (Free s W) b c n) :
    Grown W dirs s [(b, n)] s' where
  searched := ⟨h.sound, h.makes, h.quiet⟩
  frames := by
    obtain ⟨p, hp⟩ := h.frames
    exact .cons hp (.nil _)
  places := by
    have hfree : Free s' W = fun y => Free s W y ∧ ¬ (c ≤ y ∧ y < c + n) := by
      funext y
      unfold Free
      rw [h.quiet.heap_end, h.mapped y]
      apply propext
      tauto
    rw [hfree]
    exact placed_one hrun

/-- The calls may stop for any reason, or all that they demand is there. -/
def Ready (halts : Halt → Prop) (fuel : Nat) (s : Mmu) (W : Nat) (demands : List (Nat × Nat)) :
    Prop :=
  (∀ e, halts e) ∨
    (WINDOW ≤ fuel ∧ Fits (Free s W) demands ∧ Enough s.frames (demands.map Prod.snd))

theorem Ready.left (h : Ready halts fuel s W (demands ++ demands')) :
    Ready halts fuel s W demands := by
  refine h.imp_right ?_
  rintro ⟨hfuel, ⟨left, hplaced⟩, henough⟩
  obtain ⟨mid, hmid, -⟩ := hplaced.split
  rw [List.map_append] at henough
  exact ⟨hfuel, ⟨mid, hmid⟩, henough.left⟩

/-- After the first demands, the others are still there. -/
theorem Ready.right (h : Ready halts fuel s W (demands ++ demands'))
    (hg : Grown W dirs s demands s') : Ready halts fuel s' W demands' := by
  refine h.imp_right ?_
  rintro ⟨hfuel, ⟨left, hplaced⟩, henough⟩
  obtain ⟨mid, hmid, hrest⟩ := hplaced.split
  rw [hmid.unique hg.places] at hrest
  rw [List.map_append] at henough
  exact ⟨hfuel, ⟨left, hrest⟩, hg.frames.enough henough⟩

theorem Ready.spin (h : Ready halts fuel s W demands) : halts .spin ∨ 0 < fuel := by
  rcases h with h | ⟨h, -⟩
  · exact Or.inl (h .spin)
  · unfold WINDOW at h
    exact Or.inr (by omega)

theorem eq_anyhow (h : ∀ e, halts e) : halts = anyhow :=
  funext fun e => propext (iff_of_true (h e) trivial)

/-! ## The first page table that is missing -/

/-- The window has its first `q` page tables, and the PDTs for these. -/
structure Filled (s : Mmu) (W q : Nat) : Prop where
  covered : ∀ r, Covered s W r ↔ r < q
  pdts : ∀ i, present ((s.tables W).physical i) ↔ 512 * i < q

theorem Filled.below (h : Filled s W q) (hx : x ≤ 512 * q) : CoveredBelow s W x := by
  intro r hr
  rw [h.covered]
  omega

theorem Filled.missing (h : Filled s W q) : ¬ Covered s W q := by
  rw [h.covered]
  exact Nat.lt_irrefl q

/-- There are never as many page tables as the window could have. -/
theorem Filled.lt_slots (h : Filled s W q) (hs : Sound W dirs s) : q < SLOTS := by
  have hle := coveredBelow_le hs (h.below (le_refl (512 * q)))
  unfold LIMIT NUM_OF_FRAMES at hle
  unfold SLOTS
  omega

theorem Filled.mapped_lt (h : Filled s W q) (hm : Mapped s W x) : x < 512 * q := by
  have hc := hm.covered
  rw [h.covered] at hc
  omega

/-- The demands of the page table `q`: two pages for its PDT, if it is the first one of it, and
then a page for itself, below the pages that it will map. -/
def slot_demands (q : Nat) : List (Nat × Nat) :=
  (if q % 512 = 0 then [(512 * q, 2)] else []) ++ [(512 * q, 1)]

/-- `safe_allocation` takes the first pages that are free, where the page table behind them is
missing: the search inside never reaches it, as `allocate_pt` would need the same pages. -/
theorem safe_first (h : Sound W dirs s) (hqs : q < SLOTS) (hq : CoveredBelow s W (512 * q))
    (hnq : ¬ Covered s W q) (hn : 0 < n) (hneed : n ≤ need s W q)
    (hr : Ready halts (fuel + 1) s W [(512 * q, n)]) :
    Spec (safe_allocation (allocate_pt fuel) fuel s (n * 0x1000)) halts
      (SafeAt W dirs s (512 * q) n) := by
  have hwindow : 512 * q + 512 ≤ WINDOW := by
    unfold SLOTS at hqs
    unfold WINDOW
    omega
  by_cases hroom : ∃ c, FirstRun (Free s W) (512 * q) c n
  · obtain ⟨c, hc⟩ := hroom
    have hbelow := hc.below
    have hspin : halts .spin ∨ c < fuel := by
      rcases hr with hr | ⟨hr, -⟩
      · exact Or.inl (hr .spin)
      · exact Or.inr (by omega)
    have hassert : halts .assert ∨ ∃ r, get_frame s.frames true n = .ok r := by
      rcases hr with hr | ⟨-, -, p, frames, hget, -⟩
      · exact Or.inl (hr .assert)
      · exact Or.inr ⟨_, hget⟩
    have hidle : Idle W dirs halts (allocate_pt fuel) :=
      idle_allocate_pt fuel (hspin.imp_right (fun hlt => by omega))
    exact spec_post (safe_in_place hidle h hq (Nat.le_of_lt hqs) hc hspin hassert)
      (fun r hr => ⟨c, hc, hr⟩)
  · rcases hr with hr | ⟨-, ⟨left, hplaced⟩, -⟩
    · rw [eq_anyhow hr]
      have hno : ∀ c, c + n ≤ 512 * q → ¬ IsRun (Free s W) c n :=
        fun c hc hrun => hroom (hrun.firstRun hc)
      refine spec_post (safe_blocked (idle_allocate_pt fuel (Or.inl trivial)) h hqs hq hnq ?_ hn
        hno fuel) (fun _ hf => hf.elim)
      intro frames hF
      refine spec_post (room_of_new fuel hF hqs hq hnq) ?_
      rintro _ ⟨c, hc, hrun⟩
      have hle : n ≤ need { s with frames } W q := hneed
      exact hno c (by omega) (fun k h1 h2 => hrun k h1 (by omega))
    · cases hplaced with
      | cons hc _ => exact absurd ⟨_, hc⟩ hroom

/-- `allocate_pt` for the first page table that is missing. -/
theorem opens_first (h : Sound W dirs s) (hF : Filled s W q) (hx : x / 512 = q)
    (hr : Ready halts fuel s W (slot_demands q)) :
    Spec (at_page (allocate_pt fuel) s x) halts
      (fun o => Grown W dirs s (slot_demands q) o.2 ∧ Filled o.2 W (q + 1)) := by
  have hqs := hF.lt_slots h
  cases fuel with
  | zero =>
    rcases hr with hr | ⟨hr, -⟩
    · exact hr .spin
    · unfold WINDOW at hr
      omega
  | succ fuel =>
    have hxw : x < WINDOW := by
      unfold SLOTS at hqs
      unfold WINDOW
      omega
    have hi : q / 512 < 512 := by
      unfold SLOTS at hqs
      omega
    rw [allocate_pt_window h fuel hxw, hx]
    -- the PDT comes first
    have hpdt : Spec (allocate_table (allocate_pt fuel) fuel s W (q / 512) SIZEOF_TABLE) halts
        (fun s1 => Grown W dirs s (if q % 512 = 0 then [(512 * q, 2)] else []) s1 ∧
          (∀ i, present ((s1.tables W).physical i) ↔ 512 * i < q + 1) ∧
          ∀ r, Covered s1 W r ↔ r < q) := by
      by_cases hfirst : q % 512 = 0
      · have hno : ¬ present ((s.tables W).physical (q / 512)) := by
          rw [hF.pdts]
          omega
        have htwo : 2 ≤ need s W q := by
          unfold need
          rw [if_neg hno]
        have hready : Ready halts (fuel + 1) s W [(512 * q, 2)] := by
          unfold slot_demands at hr
          rw [if_pos hfirst] at hr
          exact Ready.left hr
        rw [if_pos hfirst]
        refine spec_post (open_pdt h hqs hno (safe_first h hqs (hF.below (le_refl _)) hF.missing
          (by decide) htwo hready)) ?_
        rintro s1 ⟨c, hc, hopened, hpdts, hcov⟩
        refine ⟨hopened.grown hc, fun i => ?_, fun r => ?_⟩
        · rw [hpdts, hF.pdts]
          omega
        · rw [hcov, hF.covered]
      · have hyes : present ((s.tables W).physical (q / 512)) := by
          rw [hF.pdts]
          omega
        rw [allocate_table_present hi hyes, if_neg hfirst]
        refine ⟨grown_refl h, fun i => ?_, hF.covered⟩
        rw [hF.pdts]
        omega
    refine spec_bind hpdt ?_
    rintro s1 ⟨hg1, hpdts, hcov⟩
    have h1 := hg1.searched.sound
    have hpresent : present ((s1.tables W).physical (q / 512)) := by
      rw [hpdts]
      omega
    have hnq : ¬ Covered s1 W q := by
      rw [hcov]
      exact Nat.lt_irrefl q
    have hpt : ¬ present ((s1.tables ((s1.tables W).next (q / 512))).physical (q % 512)) :=
      fun hpt => hnq ⟨hpresent, hpt⟩
    have hbelow : CoveredBelow s1 W (512 * q) := by
      intro r hr
      rw [hcov]
      omega
    dsimp only
    rw [if_neg hpt]
    refine spec_bind (open_pt h1 (links_next hpresent) hpt (safe_first h1 hqs hbelow hnq
      (by decide) (need_pos s1 W q) (hr.right hg1))) ?_
    rintro s2 ⟨htables, c, hc, hopened, hcov2⟩
    refine ⟨hg1.trans (hopened.grown hc) h, fun r => ?_, fun i => ?_⟩
    · rw [hcov2, hcov]
      omega
    · rw [htables, hpdts]

/-! ## The page tables up to a page -/

/-- The page tables that are there after a search up to page `e`. -/
def cover (q e : Nat) : Nat := max q ((e + 511) / 512)

/-- The demands of the page tables that are missing below page `e`. -/
def span (q e : Nat) : List (Nat × Nat) := (List.range' q (cover q e - q)).flatMap slot_demands

theorem span_append (h : x ≤ y) : span q x ++ span (cover q x) y = span q y := by
  unfold span
  have hsplit : List.range' q (cover q x - q) 1 ++ List.range' (q + 1 * (cover q x - q))
      (cover q y - cover q x) 1 = _ := List.range'_append
  have h1 : q + 1 * (cover q x - q) = cover q x := by
    unfold cover
    omega
  have h2 : cover q x - q + (cover q y - cover q x) = cover q y - q := by
    unfold cover
    omega
  have h3 : cover (cover q x) y = cover q y := by
    unfold cover
    omega
  rw [h1, h2] at hsplit
  rw [h3, ← List.flatMap_append, hsplit]

theorem cover_cover (h : x ≤ y) : cover (cover q x) y = cover q y := by
  unfold cover
  omega

theorem cover_le (h : x ≤ 512 * q) : cover q x = q := by
  unfold cover
  omega

theorem span_nil (h : x ≤ 512 * q) : span q x = [] := by
  unfold span
  rw [cover_le h, Nat.sub_self]
  rfl

theorem span_one (h : x = 512 * q) : span q (x + 1) = slot_demands q := by
  have hc : cover q (x + 1) = q + 1 := by
    unfold cover
    omega
  unfold span
  rw [hc, Nat.add_sub_cancel_left]
  simp

/-- The places are bounded by the end of the search. -/
theorem span_bounds {d : Nat × Nat} (hd : d ∈ span q e) :
    0 < d.2 ∧ 512 * q ≤ d.1 ∧ d.1 < e := by
  unfold span at hd
  rw [List.mem_flatMap] at hd
  obtain ⟨r, hr, hd⟩ := hd
  rw [List.mem_range'_1] at hr
  have hre : q ≤ r ∧ 512 * r < e := by
    unfold cover at hr
    omega
  have hcases : d = (512 * r, 2) ∨ d = (512 * r, 1) := by
    unfold slot_demands at hd
    rw [List.mem_append, List.mem_singleton] at hd
    refine hd.imp_left (fun hd => ?_)
    split at hd
    · exact List.mem_singleton.mp hd
    · cases hd
  rcases hcases with rfl | rfl
  · exact ⟨Nat.two_pos, Nat.mul_le_mul_left _ hre.1, hre.2⟩
  · exact ⟨Nat.one_pos, Nat.mul_le_mul_left _ hre.1, hre.2⟩

/-- `allocate_pt` for a page of the first page table that is missing, or of an earlier one. -/
theorem opens_exact (h : Sound W dirs s) (hF : Filled s W q) (hx : x ≤ 512 * q)
    (hidle : halts .spin ∨ 0 < fuel) (hr : Ready halts fuel s W (span q (x + 1))) :
    Spec (at_page (allocate_pt fuel) s x) halts
      (fun o => Grown W dirs s (span q (x + 1)) o.2 ∧ Filled o.2 W (cover q (x + 1)) ∧
        Covered o.2 W (x / 512)) := by
  have hqs := hF.lt_slots h
  have hxw : x < WINDOW := by
    unfold SLOTS at hqs
    unfold WINDOW
    omega
  by_cases hlast : x = 512 * q
  · have hq : x / 512 = q := by omega
    have hc : cover q (x + 1) = q + 1 := by
      unfold cover
      omega
    rw [span_one hlast] at hr ⊢
    rw [hc, hq]
    refine spec_post (opens_first h hF hq hr) (fun o ho => ⟨ho.1, ho.2, ?_⟩)
    rw [ho.2.covered]
    omega
  · have hle : x + 1 ≤ 512 * q := by omega
    have hcov : Covered s W (x / 512) := hF.below hle _ (by omega)
    rw [span_nil hle, cover_le hle]
    refine spec_post (idle_allocate_pt fuel hidle s x h hxw hcov) ?_
    rintro ⟨_, s1⟩ rfl
    exact ⟨grown_refl h, hF, hcov⟩

/-! ## The search, to the page -/

/-- A region with a mapped page is not free, and the check of it changes nothing. -/
theorem region_stops {ap : AllocatePt} (hap : Idle W dirs halts ap) (h : Sound W dirs s)
    (hF : Filled s W q) (hm : ∃ k, k < n ∧ Mapped s W (x + k)) :
    Spec (region_is_free ap s (window x) n) halts (fun r => r.1 = false ∧ r.2 = s) := by
  induction n generalizing x with
  | zero =>
    obtain ⟨k, hk, -⟩ := hm
    exact absurd hk (Nat.not_lt_zero k)
  | succ n ih =>
    obtain ⟨k, hk, hmk⟩ := hm
    have hlow := hF.mapped_lt hmk
    have hqs := hF.lt_slots h
    have hxw : x < WINDOW := by
      unfold SLOTS at hqs
      unfold WINDOW
      omega
    unfold region_is_free
    refine spec_bind (check_covered hap h hxw ((hF.covered _).mpr (by omega))) ?_
    rintro ⟨is_free, _, s1⟩ ⟨hfree, rfl⟩
    dsimp only at hfree ⊢
    by_cases hx : Mapped s1 W x
    · have hno : is_free = false := by
        rw [← Bool.not_eq_true, hfree]
        exact not_not.mpr hx
      rw [hno]
      exact ⟨rfl, rfl⟩
    · rw [if_pos (hfree.mpr hx), show window x + PAGE_SIZE = window (x + 1) by
        unfold window PAGE_SIZE; ring]
      apply ih
      rcases k with _ | k
      · exact absurd hmk hx
      · exact ⟨k, by omega, by rw [show x + 1 + k = x + (k + 1) by omega]; exact hmk⟩

/-- A region without a mapped page is free. The check makes the page tables that it misses, and
does not look back: they may take pages that it has passed. -/
theorem region_exact (h : Sound W dirs s) (hF : Filled s W q) (hy : y ≤ 512 * q)
    (hheap : s.heap_end ≤ window y) (hfree : ∀ k, y ≤ k → k < y + n → ¬ Mapped s W k)
    (hidle : halts .spin ∨ 0 < fuel)
    (hr : Ready halts fuel s W (span q (y + n))) :
    Spec (region_is_free (allocate_pt fuel) s (window y) n) halts (fun r => r.1 = true ∧
      Grown W dirs s (span q (y + n)) r.2 ∧ Filled r.2 W (cover q (y + n))) := by
  induction n generalizing s q y with
  | zero =>
    rw [Nat.add_zero, span_nil hy, cover_le hy]
    exact ⟨rfl, grown_refl h, hF⟩
  | succ n ih =>
    have hqs := hF.lt_slots h
    have hyw : y < WINDOW := by
      unfold SLOTS at hqs
      unfold WINDOW
      omega
    have hsplit : span q (y + 1) ++ span (cover q (y + 1)) (y + 1 + n) = span q (y + (n + 1)) := by
      rw [span_append (by omega), show y + 1 + n = y + (n + 1) by omega]
    rw [← hsplit] at hr
    unfold region_is_free
    refine spec_bind (check_spec (Q := fun s1 => Grown W dirs s (span q (y + 1)) s1 ∧
      Filled s1 W (cover q (y + 1))) hyw
      (?_ : Spec (at_page _ s y) halts (fun r => Sound W dirs r.2 ∧ _))) ?_
    · refine spec_post (opens_exact h hF hy hidle hr.left) ?_
      rintro ⟨_, s1⟩ ⟨hg, hF1, hc⟩
      exact ⟨hg.searched.sound, hc, hg, hF1⟩
    · rintro ⟨is_free, _, s1⟩ ⟨h1, -, ⟨hg, hF1⟩, hwas⟩
      dsimp only at h1 hg hF1 hwas ⊢
      -- the new tables lie below the first page table that was missing
      have hkeep : ∀ k, y ≤ k → k < y + (n + 1) → ¬ Mapped s1 W k := by
        intro k h2 h3
        have habove : Free s1 W k ↔ Free s W k :=
          hg.places.above (fun d hd => by have := (span_bounds hd).2.2; omega)
        rw [free_iff (hg.searched.quiet.heap_end ▸ heap_le_window hheap h2),
          free_iff (heap_le_window hheap h2)] at habove
        exact habove.mpr (hfree k h2 h3)
      rw [if_pos (hwas.mpr (hkeep y (le_refl y) (by omega))), show window y + PAGE_SIZE =
        window (y + 1) by unfold window PAGE_SIZE; ring]
      have hy1 : y + 1 ≤ 512 * cover q (y + 1) := by
        unfold cover
        omega
      have hheap1 : s1.heap_end ≤ window (y + 1) := by
        rw [hg.searched.quiet.heap_end]
        exact heap_le_window hheap (Nat.le_succ y)
      refine spec_post (ih h1 hF1 hy1 hheap1 (fun k h2 h3 => hkeep k (by omega) (by omega))
        (hr.right hg)) ?_
      rintro ⟨b, s2⟩ ⟨hb, hg2, hF2⟩
      rw [cover_cover (by omega), show y + 1 + n = y + (n + 1) by omega] at hF2
      refine ⟨hb, ?_, hF2⟩
      have := hg.trans hg2 h
      rw [hsplit] at this
      exact this

/-- The first pages that are free for a region lie no higher than the page tables reach. -/
theorem Filled.run_le (hF : Filled s W q) (ht : s.heap_end = window t) (htq : t ≤ 512 * q)
    (hrun : FirstRun (Free s W) (c + n) c n) : c ≤ 512 * q := by
  by_contra hlt
  apply hrun.first (512 * q) (by omega)
  intro k h1 _
  refine ⟨heap_le_window (le_of_eq ht) (by omega), fun hm => ?_⟩
  have := hF.mapped_lt hm
  omega

theorem Filled.heap_le (hF : Filled s W q) (h : Sound W dirs s) :
    ∃ t, s.heap_end = window t ∧ t ≤ 512 * q := by
  obtain ⟨t, ht, hcov⟩ := h.heap
  refine ⟨t, ht, ?_⟩
  by_contra hlt
  have := hcov q (by omega)
  rw [hF.covered] at this
  omega

theorem find_exact (h : Sound W dirs s) (hF : Filled s W q) (hn : 0 < turns length)
    (hrun : FirstRun (Free s W) (c + turns length) c (turns length)) (todo : Nat) {offset : Nat}
    (hx : s.heap_end + offset = window x) (hxc : x ≤ c) (htodo : halts .spin ∨ c - x < todo)
    (hidle : halts .spin ∨ 0 < fuel) (hr : Ready halts fuel s W (span q (c + turns length))) :
    Spec (find_from (allocate_pt fuel) length todo s offset) halts (fun r => r.1 = window c ∧
      Grown W dirs s (span q (c + turns length)) r.2 ∧
      Filled r.2 W (cover q (c + turns length))) := by
  obtain ⟨t, ht, htq⟩ := hF.heap_le h
  induction todo generalizing x offset with
  | zero =>
    rcases htodo with h0 | h0
    · exact h0
    · exact absurd h0 (Nat.not_lt_zero _)
  | succ todo ih =>
    unfold find_from
    rw [hx]
    by_cases hlast : x = c
    · subst hlast
      have hheap : s.heap_end ≤ window x := (hrun.run x (le_refl x) (by omega)).1
      refine spec_bind (region_exact h hF (hF.run_le ht htq hrun) hheap
        (fun k h1 h2 => (hrun.run k h1 h2).2) hidle hr) ?_
      rintro ⟨is_free, s1⟩ ⟨rfl, hg, hF1⟩
      dsimp only
      rw [if_pos rfl, hg.searched.quiet.heap_end, hx]
      exact ⟨rfl, hg, hF1⟩
    · have hm : ∃ k, k < turns length ∧ Mapped s W (x + k) := by
        by_contra hno
        apply hrun.first x (by omega)
        intro k h1 h2
        refine ⟨?_, fun hmk => hno ⟨k - x, by omega, by rwa [show x + (k - x) = k by omega]⟩⟩
        exact heap_le_window (hx ▸ Nat.le_add_right _ _) h1
      refine spec_bind (region_stops (idle_allocate_pt fuel hidle) h hF hm) ?_
      rintro ⟨is_free, s1⟩ ⟨rfl, rfl⟩
      dsimp only
      rw [if_neg Bool.false_ne_true]
      apply ih (x := x + 1)
      · rw [← Nat.add_assoc, hx]
        unfold window PAGE_SIZE
        ring
      · omega
      · exact htodo.imp_right (fun h0 => by omega)

/-- There is always a first run of free pages for a region. -/
theorem Filled.firstRun (hF : Filled s W q) (h : Sound W dirs s) (n : Nat) :
    ∃ c, FirstRun (Free s W) (c + n) c n := by
  obtain ⟨t, ht, htq⟩ := hF.heap_le h
  have hrun : IsRun (Free s W) (512 * q) n := by
    intro k h1 _
    refine ⟨heap_le_window (le_of_eq ht) (by omega), fun hm => ?_⟩
    have := hF.mapped_lt hm
    omega
  obtain ⟨c, hc⟩ := hrun.firstRun (le_refl _)
  exact ⟨c, le_refl _, hc.run, hc.first⟩

/-- A search comes back with the first pages that are free, and with the page tables for them. -/
theorem search_exact (h : Sound W dirs s) (hF : Filled s W q) (hn : 0 < turns length)
    (hrun : FirstRun (Free s W) (c + turns length) c (turns length))
    (hr : Ready halts fuel s W (span q (c + turns length))) :
    Spec (mmu_find_free_virtual_region (allocate_pt fuel) fuel s length) halts (fun r =>
      r.1 = window c ∧ Grown W dirs s (span q (c + turns length)) r.2 ∧
      Filled r.2 W (cover q (c + turns length))) := by
  obtain ⟨t, ht, htq⟩ := hF.heap_le h
  have hcq := hF.run_le ht htq hrun
  have hqs := hF.lt_slots h
  have htc : t ≤ c := by
    have h1 := (hrun.run c (le_refl c) (by omega)).1
    rw [ht] at h1
    unfold window at h1
    omega
  have htodo : halts .spin ∨ c - t < fuel := by
    rcases hr with hr | ⟨hfuel, -⟩
    · exact Or.inl (hr .spin)
    · unfold WINDOW at hfuel
      unfold SLOTS at hqs
      exact Or.inr (by omega)
  exact find_exact (x := t) h hF hn hrun fuel ht htc htodo hr.spin hr

end salsola.mmu
