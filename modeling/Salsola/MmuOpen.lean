-- What `allocate_pt` does to the window, and with it every search, mapping and
-- allocation: the page tables that are missing are made in order, each from the
-- first free pages below.
import Salsola.MmuSearch

open memory outcome runs

namespace salsola.mmu

variable {W : Nat} {dirs : List Nat} {s s' s'' : Mmu} {a b c e i j n p q r x y t length : Nat}
variable {halts : Halt → Prop} {ap : AllocatePt} {fuel : Nat}

/-! ## The link to a new table -/

theorem root_table (h : Sound W dirs s) {d : Nat} (hd : d ∈ dirs) : IsTable s (root s d) :=
  (h.links _ _ _ (h.roots d hd).2.1).1

/-- A new table is linked. -/
theorem link_new (h : Sound W dirs s) (h' : Sound W dirs s') (hm : Makes W s s')
    (hnew : New s s' a p n) (ht : IsTable s t) (hno : ¬ present ((s'.tables t).physical i)) :
    Sound W dirs (s'.set_entry t i (p ||| 0x3) a) ∧
      Makes W s (s'.set_entry t i (p ||| 0x3) a) := by
  constructor
  · apply sound_link h' (hm.grows.isTable ht) ⟨p, hnew.placed⟩ hno hnew.unlinked
    intro d hd hr
    apply hnew.fresh
    rw [← hr]
    unfold root
    rw [hm.directories]
    exact root_table h hd
  · exact
      { grows := grows_link hm.grows hno hnew.fresh
        fresh := fresh_link hm.fresh
        agrees := agrees_link hm.agrees
          (by rw [page_base_of_aligned _ _ hnew.aligned (by decide)]; exact hnew.placed)
        directories := hm.directories
        active := hm.active }

theorem outside_link (h : Outside W s s') (ht : InWindow s W t) :
    Outside W s (s'.set_entry t i e a) := by
  intro b hb hout
  have hne : b ≠ t := by
    rintro rfl
    exact hout ht
  obtain ⟨h1, h2⟩ := h b hb hout
  exact ⟨(if_neg hne).trans h1, h2⟩

/-- An empty PDT covers nothing. -/
theorem covered_link_pdt (h : Sound W dirs s) (hne : a ≠ W)
    (hempty : s.tables a = ⟨fun _ => 0, fun _ => 0⟩)
    (hno : ¬ present ((s.tables W).physical i)) :
    Covered (s.set_entry W i e a) W q ↔ Covered s W q := by
  refine ⟨fun hc => ?_, fun hc => (covered_of_link hno hc).1⟩
  rcases link_cases hc.links.1 with ⟨_, _, heq⟩ | ⟨hslot, h1⟩
  · have h2 := hc.2
    rw [heq, show (s.set_entry W i e a).tables a = s.tables a from if_neg hne, hempty] at h2
    exact absurd h2 not_present_zero
  · have h2 := hc.links.2
    have hpdt : (s.tables W).next (q / 512) ≠ W := by
      intro heq
      obtain ⟨_, d, hd, hr⟩ := window_links h h.active ⟨h1.1, heq⟩
      exact window_not_root h hd hr
    unfold Links at h2
    rw [← h1.2] at h2
    rw [show (s.set_entry W i e a).tables ((s.tables W).next (q / 512)) = _ from if_neg hpdt] at h2
    exact ⟨h1.1, h2.1⟩

/-- A PT in the slot `q` covers that slot. -/
theorem covered_link_pt (h : Sound W dirs s) (ht : Links s W (q / 512) t)
    (hno : ¬ present ((s.tables t).physical (q % 512))) (he : present e) :
    Covered (s.set_entry t (q % 512) e a) W r ↔ Covered s W r ∨ r = q := by
  have hW : W ≠ t := by
    rintro rfl
    obtain ⟨_, d, hd, hr⟩ := window_links h h.active ht
    exact window_not_root h hd hr
  have hw : (s.set_entry t (q % 512) e a).tables W = s.tables W := if_neg hW
  constructor
  · rintro ⟨h1, h2⟩
    rw [hw] at h1 h2
    by_cases hpdt : (s.tables W).next (r / 512) = t
    · obtain ⟨_, hhigh⟩ := links_inj h (⟨h1, hpdt⟩ : Links s W (r / 512) t) ht
        (fun d hd => window_not_root h hd)
      rw [hpdt] at h2
      by_cases hlow : r % 512 = q % 512
      · exact Or.inr (by omega)
      · rw [(set_entry_other (by simp [hlow])).1] at h2
        exact Or.inl ⟨h1, by rw [hpdt]; exact h2⟩
    · rw [show (s.set_entry t (q % 512) e a).tables ((s.tables W).next (r / 512)) = _
        from if_neg hpdt] at h2
      exact Or.inl ⟨h1, h2⟩
  · rintro (hc | rfl)
    · exact (covered_of_link hno hc).1
    · unfold Covered
      rw [hw, ht.2, set_entry_self.1]
      exact ⟨ht.1, he⟩

/-! ## A new page table of the window -/

/-- The state after a new table of `n` pages at the pages from `c` on. -/
structure Opened (W : Nat) (dirs : List Nat) (s : Mmu) (n c : Nat) (s' : Mmu) : Prop where
  sound : Sound W dirs s'
  makes : Local W s s'
  quiet : Quiet s s'
  frames : ∃ p, get_frame s.frames true n = .ok (p, s'.frames)
  mapped : ∀ y, Mapped s' W y ↔ Mapped s W y ∨ (c ≤ y ∧ y < c + n)

/-- The first run of free pages below `bound` has room for the table, and the table is there. -/
def SafeAt (W : Nat) (dirs : List Nat) (s : Mmu) (bound n : Nat) (r : Nat × Nat × Mmu) : Prop :=
  ∃ c, FirstRun (Free s W) bound c n ∧ r.1 = window c ∧ InPlace W dirs s n c r.2.1 r.2.2

/-- A link maps no page, when the page table that it brings in is empty. -/
theorem mapped_link (hno : ¬ present ((s.tables t).physical i))
    (hempty : ∀ q, Covered (s.set_entry t i e a) W q → ¬ Covered s W q →
      s.pts (pt_of (s.set_entry t i e a) W q) = fun _ => 0) :
    Mapped (s.set_entry t i e a) W y ↔ Mapped s W y := by
  unfold Mapped
  by_cases hold : Covered s W (y / 512)
  · rw [page_of_link hno hold]
  · refine iff_of_false (fun hm => ?_) (fun hm => hold (Mapped.covered hm))
    have hc := Mapped.covered hm
    rw [page_of_covered hc] at hm
    have hzero := hempty _ hc hold
    rw [show (s.set_entry t i e a).pts = s.pts from rfl, hzero] at hm
    exact not_present_zero hm

theorem opened_of_safe (hin : InPlace W dirs s n c p s') (hs : Sound W dirs s)
    (ht : IsTable s t) (hw : InWindow s W t) (hno : ¬ present ((s'.tables t).physical i))
    (hempty : ∀ q, Covered (s'.set_entry t i (p ||| 0x3) (window c)) W q → ¬ Covered s' W q →
      s'.pts (pt_of (s'.set_entry t i (p ||| 0x3) (window c)) W q) = fun _ => 0) :
    Opened W dirs s n c (s'.set_entry t i (p ||| 0x3) (window c)) := by
  obtain ⟨h1, h2⟩ := link_new hs hin.sound hin.makes.toMakes hin.new ht hno
  exact
    { sound := h1
      makes := { toMakes := h2, outside := outside_link hin.makes.outside hw }
      quiet := ⟨hin.quiet.heap_end, hin.quiet.ram, hin.quiet.seed⟩
      frames := ⟨p, hin.frames⟩
      mapped := fun y => (mapped_link hno hempty).trans (hin.mapped y) }

theorem InPlace.entry (hin : InPlace W dirs s n c p s') (ht : IsTable s t) :
    s'.tables t = s.tables t := by
  apply hin.others
  rintro rfl
  exact hin.new.fresh ht

theorem InPlace.covered (hin : InPlace W dirs s n c p s') (h : Sound W dirs s) :
    Covered s' W q ↔ Covered s W q := by
  unfold Covered
  rw [hin.entry (isTable_window h)]
  apply and_congr_right
  intro h1
  rw [hin.entry (h.links _ _ _ (links_next h1)).2]

/-- The PDT of the slot `q` is made. -/
theorem open_pdt (h : Sound W dirs s) (hqs : q < SLOTS)
    (hno : ¬ present ((s.tables W).physical (q / 512)))
    (hsafe : Spec (safe_allocation ap fuel s (2 * 0x1000)) halts (SafeAt W dirs s b 2)) :
    Spec (allocate_table ap fuel s W (q / 512) SIZEOF_TABLE) halts
      (fun s' => ∃ c, FirstRun (Free s W) b c 2 ∧ Opened W dirs s 2 c s' ∧
        (∀ i, present ((s'.tables W).physical i) ↔
          present ((s.tables W).physical i) ∨ i = q / 512) ∧
        ∀ r, Covered s' W r ↔ Covered s W r) := by
  rw [allocate_table_absent (by unfold SLOTS at hqs; omega) hno]
  refine spec_bind hsafe ?_
  rintro ⟨a, p, s1⟩ ⟨c, hfirst, ha, hin⟩
  simp only at ha hin
  subst ha
  have hW := isTable_window h
  have hno1 : ¬ present ((s1.tables W).physical (q / 512)) := by
    rw [hin.entry hW]
    exact hno
  have hne : window c ≠ W := by
    rintro heq
    apply hin.new.fresh
    rw [heq]
    exact hW
  have hcov : ∀ r, Covered (s1.set_entry W (q / 512) (p ||| 0x3) (window c)) W r ↔
      Covered s1 W r := fun r => covered_link_pdt hin.sound hne hin.new.tables hno1
  refine ⟨c, hfirst, opened_of_safe hin h hW (Or.inl rfl) hno1 ?_, ?_, ?_⟩
  · intro q' hc hold
    exact absurd ((hcov q').mp hc) hold
  · intro i
    by_cases hi : i = q / 512
    · subst hi
      rw [set_entry_self.1]
      exact iff_of_true (present_or _ _ rfl) (Or.inr rfl)
    · rw [(set_entry_other (fun hslot => hi hslot.2)).1, hin.entry hW]
      exact (or_iff_left hi).symm
  · intro r
    rw [hcov r, hin.covered h]

/-- The PT of the slot `q` is made. -/
theorem open_pt (h : Sound W dirs s) (ht : Links s W (q / 512) t)
    (hno : ¬ present ((s.tables t).physical (q % 512)))
    (hsafe : Spec (safe_allocation ap fuel s (1 * 0x1000)) halts (SafeAt W dirs s b 1)) :
    Spec (allocate_table ap fuel s t (q % 512) SIZEOF_PT) halts
      (fun s' => s'.tables W = s.tables W ∧ ∃ c, FirstRun (Free s W) b c 1 ∧
        Opened W dirs s 1 c s' ∧ ∀ r, Covered s' W r ↔ Covered s W r ∨ r = q) := by
  rw [allocate_table_absent (by omega) hno]
  refine spec_bind hsafe ?_
  rintro ⟨a, p, s1⟩ ⟨c, hfirst, ha, hin⟩
  simp only at ha hin
  subst ha
  have hT := (h.links _ _ _ ht).2
  have hno1 : ¬ present ((s1.tables t).physical (q % 512)) := by
    rw [hin.entry hT]
    exact hno
  have ht1 : Links s1 W (q / 512) t := (hin.makes.grows.table _ _ _ ht).1
  have hcov : ∀ r, Covered (s1.set_entry t (q % 512) (p ||| 0x3) (window c)) W r ↔
      Covered s1 W r ∨ r = q := fun r => covered_link_pt hin.sound ht1 hno1 (present_or _ _ rfl)
  refine ⟨?_, c, hfirst, opened_of_safe hin h hT (Or.inr (Or.inl ⟨_, ht⟩)) hno1 ?_, ?_⟩
  · have hne : W ≠ t := by
      rintro rfl
      obtain ⟨_, d, hd, hr⟩ := window_links h h.active ht
      exact window_not_root h hd hr
    exact (if_neg hne).trans (hin.entry (isTable_window h))
  · intro q' hc hold
    have hqq : q' = q := ((hcov q').mp hc).resolve_left hold
    subst hqq
    have hlink : Links (s1.set_entry t (q' % 512) (p ||| 0x3) (window c)) W (q' / 512) t :=
      links_of_link hno1 ht1
    unfold pt_of
    rw [hlink.2, set_entry_self.2]
    exact hin.new.pts
  · intro r
    rw [hcov r, hin.covered h]

/-! ## A search that makes page tables -/

/-- What a search does to the page tables. -/
structure Searched (W : Nat) (dirs : List Nat) (s s' : Mmu) : Prop where
  sound : Sound W dirs s'
  makes : Local W s s'
  quiet : Quiet s s'

theorem searched_refl (h : Sound W dirs s) : Searched W dirs s s :=
  ⟨h, local_refl W s, quiet_refl s⟩

theorem Searched.trans (h : Searched W dirs s s') (h' : Searched W dirs s' s'')
    (hs : Sound W dirs s) : Searched W dirs s s'' :=
  ⟨h'.sound, h.makes.trans h'.makes hs, h.quiet.trans h'.quiet⟩

/-- What `allocate_pt` does for page `x` of the window: it makes the page table, and perhaps
others before it. Where the PDT is there, it makes no PDT. -/
def Opens (W : Nat) (dirs : List Nat) (ap : AllocatePt) : Prop :=
  ∀ s x, Sound W dirs s → x < WINDOW → Spec (at_page ap s x) anyhow (fun r =>
    Searched W dirs s r.2 ∧ Covered r.2 W (x / 512) ∧
    (present ((s.tables W).physical (x / 512 / 512)) → r.2.tables W = s.tables W) ∧
    ∀ q, Covered r.2 W q → Covered s W q ∨ q ≤ x / 512)

/-- No run of `n` free pages starts below `x`. -/
def Tried (s : Mmu) (W x n : Nat) : Prop :=
  ∀ c, s.heap_end ≤ window c → c < x → ∃ k, k < n ∧ Mapped s W (c + k)

theorem Searched.tried (h : Searched W dirs s s') (ht : Tried s W x n) : Tried s' W x n := by
  intro c hc hcx
  rw [h.quiet.heap_end] at hc
  obtain ⟨k, hk, hm⟩ := ht c hc hcx
  exact ⟨k, hk, h.makes.grows.mapped hm⟩

theorem coveredBelow_succ (h : Grows W s s') (hbelow : CoveredBelow s W x)
    (hc : Covered s' W (x / 512)) : CoveredBelow s' W (x + 1) := by
  intro q hq
  by_cases hqx : 512 * q < x
  · exact (h.covered (hbelow q hqx)).1
  · rw [show q = x / 512 by omega]
    exact hc

/-- A search for one page or two makes no PDT: it would find the two pages for it first. -/
theorem no_pdt (h : Sound W dirs s) (hn : n ≤ 2) (hxy : y < x + n)
    (hbelow : CoveredBelow s W y) (htried : Tried s W x n) (hy : y < WINDOW) :
    Spec (at_page (allocate_pt fuel) s y) anyhow
      (fun _ => present ((s.tables W).physical (y / 512 / 512))) := by
  by_cases hp : present ((s.tables W).physical (y / 512 / 512))
  · exact spec_anyhow _ (fun _ => hp)
  have hnc : ¬ Covered s W (y / 512) := fun hc => hp hc.1
  have hfirst : y = 512 * (y / 512) := by
    by_contra hne
    exact hnc (hbelow _ (by omega))
  have hnew := room_of_new (q := y / 512) fuel h (by unfold WINDOW at hy; unfold SLOTS; omega)
    (hfirst ▸ hbelow) hnc
  rw [← hfirst] at hnew
  refine spec_post hnew ?_
  rintro _ ⟨c, hc, hrun⟩
  exfalso
  rw [need, if_neg hp] at hc hrun
  obtain ⟨k, hk, hm⟩ := htried c (hrun c (le_refl c) (by omega)).1 (by omega)
  exact (hrun (c + k) (by omega) (by omega)).2 hm

/-- What a search for `n` pages leaves when it comes back with the page `c`. -/
structure Found (W : Nat) (dirs : List Nat) (s : Mmu) (n c : Nat) (s' : Mmu) : Prop where
  searched : Searched W dirs s s'
  below : CoveredBelow s' W (c + n)
  pdts : n ≤ 2 → s'.tables W = s.tables W
  covered : ∀ q, Covered s' W q → Covered s W q ∨ 512 * q < c + n

theorem region_opens {m : Nat} (hap : Opens W dirs (allocate_pt fuel)) (h : Sound W dirs s)
    (hbelow : CoveredBelow s W y) (htried : Tried s W x n) (hxy : x ≤ y) (hyn : y + m = x + n) :
    Spec (region_is_free (allocate_pt fuel) s (window y) m) anyhow (fun r =>
      Searched W dirs s r.2 ∧ (n ≤ 2 → r.2.tables W = s.tables W) ∧
      (∀ q, Covered r.2 W q → Covered s W q ∨ 512 * q < x + n) ∧
      (0 < m → CoveredBelow r.2 W (y + 1)) ∧
      (r.1 = true → CoveredBelow r.2 W (y + m)) ∧
      (r.1 = false → ∃ k, k < m ∧ Mapped r.2 W (y + k))) := by
  induction m generalizing s y with
  | zero =>
    refine ⟨searched_refl h, fun _ => rfl, fun _ hq => Or.inl hq, fun h0 => by omega, ?_, ?_⟩
    · intro _
      exact hbelow
    · intro hfalse
      cases hfalse
  | succ m ih =>
    have hyl : y < WINDOW := by
      have := coveredBelow_le h hbelow
      unfold LIMIT NUM_OF_FRAMES at this
      unfold WINDOW
      omega
    unfold region_is_free
    refine spec_bind (check_spec (Q := fun s1 => Searched W dirs s s1 ∧
      (n ≤ 2 → s1.tables W = s.tables W) ∧
      ∀ q, Covered s1 W q → Covered s W q ∨ 512 * q < x + n) hyl
      (?_ : Spec (at_page _ s y) _ (fun r => Sound W dirs r.2 ∧ _))) ?_
    · by_cases hn : n ≤ 2
      · refine spec_post (spec_and (hap s y h hyl)
          (no_pdt (x := x) h hn (by omega) hbelow htried hyl)) ?_
        rintro ⟨_, s1⟩ ⟨⟨hs1, hc1, hp1, hq1⟩, hp⟩
        refine ⟨hs1.sound, hc1, hs1, fun _ => hp1 hp, fun q hq => ?_⟩
        exact (hq1 q hq).imp_right (fun h1 => by omega)
      · refine spec_post (hap s y h hyl) ?_
        rintro ⟨_, s1⟩ ⟨hs1, hc1, _, hq1⟩
        refine ⟨hs1.sound, hc1, hs1, fun hn' => absurd hn' hn, fun q hq => ?_⟩
        exact (hq1 q hq).imp_right (fun h1 => by omega)
    · rintro ⟨is_free, _, s1⟩ ⟨h1, hc1, ⟨hs1, hp1, hq1⟩, hfree⟩
      simp only at h1 hc1 hs1 hp1 hq1 hfree
      simp only
      have hbelow1 := coveredBelow_succ hs1.makes.grows hbelow hc1
      by_cases hm : Mapped s1 W y
      · have : is_free = false := by
          rw [← Bool.not_eq_true, hfree]
          exact not_not.mpr hm
        subst this
        simp only [Bool.false_eq_true, if_false]
        exact ⟨hs1, hp1, hq1, fun _ => hbelow1, fun htrue => absurd htrue Bool.false_ne_true,
          fun _ => ⟨0, by omega, hm⟩⟩
      · have : is_free = true := hfree.mpr hm
        subst this
        simp only [if_true]
        rw [show window y + PAGE_SIZE = window (y + 1) by unfold window PAGE_SIZE; ring]
        refine spec_post (ih h1 hbelow1 (hs1.tried htried) (by omega) (by omega)) ?_
        rintro ⟨b, s2⟩ ⟨hs2, hp2, hq2, hb2, ht2, hf2⟩
        refine ⟨hs1.trans hs2 h, fun hn => (hp2 hn).trans (hp1 hn), ?_, ?_, ?_, ?_⟩
        · intro q hq
          rcases hq2 q hq with h3 | h3
          · exact hq1 q h3
          · exact Or.inr h3
        · intro _ q hq
          exact (hs2.makes.grows.covered (hbelow1 q hq)).1
        · intro htrue
          have := ht2 htrue
          rw [show y + 1 + m = y + (m + 1) by omega] at this
          exact this
        · intro hfalse
          obtain ⟨k, hk, hmk⟩ := hf2 hfalse
          refine ⟨k + 1, by omega, ?_⟩
          rw [show y + (k + 1) = y + 1 + k by omega]
          exact hmk

theorem find_opens (hap : Opens W dirs (allocate_pt fuel)) (h : Sound W dirs s) (todo : Nat)
    {offset : Nat} (hx : s.heap_end + offset = window x) (hbelow : CoveredBelow s W x)
    (htried : Tried s W x (turns length)) :
    Spec (find_from (allocate_pt fuel) length todo s offset) anyhow
      (fun r => ∃ c, r.1 = window c ∧ x ≤ c ∧ Found W dirs s (turns length) c r.2) := by
  induction todo generalizing s x offset with
  | zero => trivial
  | succ todo ih =>
    unfold find_from
    rw [hx]
    refine spec_bind (region_opens hap h hbelow htried (le_refl x) rfl) ?_
    rintro ⟨is_free, s1⟩ ⟨hs1, hp1, hq1, hb1, ht1, hf1⟩
    have hheap : s1.heap_end + offset = window x := by
      rw [hs1.quiet.heap_end]
      exact hx
    cases is_free with
    | true =>
      simp only [if_true]
      exact ⟨x, hheap, le_refl x, hs1, ht1 rfl, hp1, hq1⟩
    | false =>
      simp only [Bool.false_eq_true, if_false]
      obtain ⟨k, hk, hm⟩ := hf1 rfl
      have hnext : s1.heap_end + (offset + PAGE_SIZE) = window (x + 1) := by
        rw [← Nat.add_assoc, hheap]
        unfold window PAGE_SIZE
        ring
      have htried1 : Tried s1 W (x + 1) (turns length) := by
        intro c hc hcx
        by_cases hcx' : c = x
        · subst hcx'
          exact ⟨k, hk, hm⟩
        · exact hs1.tried htried c hc (by omega)
      refine spec_post (ih hs1.sound hnext (hb1 (by omega)) htried1) ?_
      rintro ⟨a, s2⟩ ⟨c, ha, hxc, hfound⟩
      refine ⟨c, ha, by omega, hs1.trans hfound.searched h, hfound.below,
        fun hn => (hfound.pdts hn).trans (hp1 hn), ?_⟩
      intro q hq
      rcases hfound.covered q hq with h3 | h3
      · exact (hq1 q h3).imp_right (fun h4 => by omega)
      · exact Or.inr h3

/-- Every search that comes back has page tables for all pages that it has passed. -/
theorem mmu_find_free_virtual_region.spec (hap : Opens W dirs (allocate_pt fuel))
    (h : Sound W dirs s) (todo length : Nat) :
    Spec (mmu_find_free_virtual_region (allocate_pt fuel) todo s length) anyhow
      (fun r => ∃ c, r.1 = window c ∧ s.heap_end ≤ window c ∧
        Found W dirs s (turns length) c r.2) := by
  obtain ⟨t, ht, hcov⟩ := h.heap
  refine spec_post (find_opens hap h todo (x := t) ht hcov ?_) ?_
  · intro c hc hct
    rw [ht] at hc
    unfold window at hc
    omega
  · rintro ⟨a, s1⟩ ⟨c, ha, htc, hfound⟩
    exact ⟨c, ha, heap_le_window (le_of_eq ht) htc, hfound⟩

/-! ## An allocation that makes page tables -/

/-- What `safe_allocation` leaves. -/
structure Safe (W : Nat) (dirs : List Nat) (s : Mmu) (n a p : Nat) (s' : Mmu) : Prop where
  searched : Searched W dirs s s'
  new : New s s' a p n
  pdts : n ≤ 2 → s'.tables W = s.tables W
  covered : ∃ c, CoveredBelow s' W c ∧ ∀ q, Covered s' W q → Covered s W q ∨ 512 * q < c

theorem below_window (h : Sound W dirs s) (hbelow : CoveredBelow s W x) : x ≤ WINDOW := by
  have := coveredBelow_le h hbelow
  unfold LIMIT NUM_OF_FRAMES at this
  unfold WINDOW
  omega

theorem safe_allocation.spec (hap : Opens W dirs (allocate_pt fuel)) (h : Sound W dirs s)
    (todo n : Nat) :
    Spec (safe_allocation (allocate_pt fuel) todo s (n * 0x1000)) anyhow
      (fun r => Safe W dirs s n r.1 r.2.1 r.2.2) := by
  unfold safe_allocation
  rw [align_up_pages, pages_of_size]
  cases hframe : get_frame s.frames true n with
  | error e => trivial
  | ok r =>
    obtain ⟨p, frames⟩ := r
    obtain ⟨r, rfl, hpos, hbelow, hfree, htaken⟩ := get_frame_taken hframe
    rw [ok_bind]
    have hF : Sound W dirs { s with frames } := sound_taken h (fun f hf => htaken f (Or.inl hf))
    refine spec_bind (mmu_find_free_virtual_region.spec hap hF todo _) ?_
    rintro ⟨a, s1⟩ ⟨c, rfl, _, hfound⟩
    simp only at hfound
    rw [turns_pages] at hfound
    simp only
    have h1 := hfound.searched.sound
    have hcn := below_window h1 hfound.below
    refine spec_bind (map_covered (idle_allocate_pt fuel (Or.inl trivial)) h1 ?_ hcn
      (Or.inl trivial)) ?_
    · intro k hk
      exact hfound.below _ (by omega)
    · rintro s2 ⟨h2, hmaps⟩
      have hplacing : Placing W dirs s frames s1 s2 c n r :=
        ⟨h, hpos, hbelow, hfree, htaken, hfound.searched.makes, h1, h2, hmaps, by omega⟩
      obtain ⟨h3, h4, h5⟩ := hplacing.result
      have hrest : s2.heap_end = s1.heap_end ∧ s2.ram = s1.ram ∧ s2.seed = s1.seed := by
        rw [hmaps.rest]
        exact ⟨rfl, rfl, rfl⟩
      have hquiet := hfound.searched.quiet
      have hcov : ∀ q, Covered (s2.clear (window c) (r * 0x1000)) W q ↔ Covered s1 W q := by
        intro q
        rw [clear_covered h2 hplacing.no_table2]
        exact hmaps.covered_iff
      refine ⟨⟨h3, h4, ?_⟩, h5, ?_, c + n, ?_, ?_⟩
      · exact ⟨hrest.1.trans hquiet.heap_end, hrest.2.1.trans hquiet.ram,
          hrest.2.2.trans hquiet.seed⟩
      · intro hn
        rw [clear_tables, hmaps.tables, hfound.pdts hn]
        rintro rfl
        exact hplacing.no_table (isTable_window h)
      · intro q hq
        exact (hcov q).mpr (hfound.below q hq)
      · intro q hq
        exact hfound.covered q ((hcov q).mp hq)

/-- For one page, the first absent page table is never needed. -/
theorem safe_window (h : Sound W dirs s) (hqs : q < SLOTS) (hnq : ¬ Covered s W q) :
    Spec (safe_allocation (allocate_pt fuel) fuel s (1 * 0x1000)) anyhow
      (SafeAt W dirs s (512 * SLOTS) 1) := by
  obtain ⟨q, hnq, hq, hqs⟩ : ∃ q, ¬ Covered s W q ∧ (∀ r, r < q → Covered s W r) ∧ q < SLOTS := by
    have hex : ∃ q, ¬ Covered s W q := ⟨q, hnq⟩
    refine ⟨Nat.find hex, Nat.find_spec hex, ?_, Nat.lt_of_le_of_lt (Nat.find_min' hex hnq) hqs⟩
    intro r hr
    exact not_not.mp (Nat.find_min hex hr)
  have hbelow : CoveredBelow s W (512 * q) := fun r hr => hq r (by omega)
  by_cases hroom : ∃ c, c + 1 ≤ 512 * q ∧ IsRun (Free s W) c 1
  · obtain ⟨_, hle, hrun⟩ := hroom
    obtain ⟨c, hfirst⟩ := hrun.firstRun hle
    refine spec_post (safe_in_place (idle_allocate_pt fuel (Or.inl trivial)) h hbelow
      (Nat.le_of_lt hqs) hfirst (Or.inl trivial) (Or.inl trivial)) ?_
    rintro ⟨a, p, s'⟩ ⟨ha, hin⟩
    have hle' := hfirst.below
    exact ⟨c, ⟨by omega, hfirst.run, hfirst.first⟩, ha, hin⟩
  · refine spec_post (safe_blocked (idle_allocate_pt fuel (Or.inl trivial)) h hqs hbelow hnq ?_
      Nat.one_pos (fun c hc hrun => hroom ⟨c, hc, hrun⟩) fuel) (fun _ hf => hf.elim)
    intro frames hF
    refine spec_post (room_of_new fuel hF hqs hbelow hnq) ?_
    rintro _ ⟨c, hc, hrun⟩
    have hpos := need_pos { s with frames } W q
    exact hroom ⟨c, by omega, fun k h1 h2 => hrun k h1 (by omega)⟩

theorem opens_allocate_pt (fuel : Nat) : Opens W dirs (allocate_pt fuel) := by
  induction fuel with
  | zero => exact fun _ _ _ _ => trivial
  | succ fuel ih =>
    intro s x h hx
    by_cases hc : Covered s W (x / 512)
    · refine spec_post (idle_allocate_pt (fuel + 1) (Or.inl trivial) s x h hx hc) ?_
      rintro ⟨_, s1⟩ rfl
      exact ⟨searched_refl h, hc, fun _ => rfl, fun _ hq => Or.inl hq⟩
    have hqs : x / 512 < SLOTS := by
      unfold WINDOW at hx
      unfold SLOTS
      omega
    rw [allocate_pt_window h fuel hx]
    -- the PDT comes first
    have hpdt : Spec (allocate_table (allocate_pt fuel) fuel s W (x / 512 / 512) SIZEOF_TABLE)
        anyhow
        (fun s1 => Searched W dirs s s1 ∧ present ((s1.tables W).physical (x / 512 / 512)) ∧
          ¬ Covered s1 W (x / 512) ∧
          (present ((s.tables W).physical (x / 512 / 512)) → s1.tables W = s.tables W) ∧
          ∀ q, Covered s1 W q → Covered s W q ∨ q ≤ x / 512) := by
      have hi : x / 512 / 512 < 512 := by
        unfold SLOTS at hqs
        omega
      by_cases hpdt : present ((s.tables W).physical (x / 512 / 512))
      · rw [allocate_table_present hi hpdt]
        exact ⟨searched_refl h, hpdt, hc, fun _ => rfl, fun _ hq => Or.inl hq⟩
      · rw [allocate_table_absent hi hpdt]
        refine spec_bind (safe_allocation.spec ih h fuel 2) ?_
        rintro ⟨a, p, s1⟩ hsafe
        simp only at hsafe
        have hW := isTable_window h
        have h1 := hsafe.searched.sound
        have hno1 : ¬ present ((s1.tables W).physical (x / 512 / 512)) := by
          rw [hsafe.pdts (le_refl 2)]
          exact hpdt
        have hne : a ≠ W := by
          rintro rfl
          exact hsafe.new.fresh hW
        have hcov : ∀ q, Covered (s1.set_entry W (x / 512 / 512) (p ||| 0x3) a) W q ↔
            Covered s1 W q := fun q => covered_link_pdt h1 hne hsafe.new.tables hno1
        obtain ⟨h2, h3⟩ := link_new (t := W) (i := x / 512 / 512) h h1
          hsafe.searched.makes.toMakes hsafe.new hW hno1
        have hquiet := hsafe.searched.quiet
        refine ⟨⟨h2, ⟨h3, outside_link hsafe.searched.makes.outside (Or.inl rfl)⟩,
          hquiet.heap_end, hquiet.ram, hquiet.seed⟩, ?_, ?_, fun hp => absurd hp hpdt, ?_⟩
        · rw [set_entry_self.1]
          exact present_or _ _ rfl
        · rw [hcov]
          exact fun hc1 => hno1 hc1.1
        · intro q hq
          rw [hcov] at hq
          obtain ⟨c, hbelow, hcovered⟩ := hsafe.covered
          refine (hcovered q hq).imp_right (fun hlt => ?_)
          -- the page table of `x` is still absent, so the search has not reached it
          by_contra hgt
          exact hno1 (hbelow (x / 512) (by omega)).1
    refine spec_bind hpdt ?_
    rintro s1 ⟨hs1, hp1, hc1, hpdts, hq1⟩
    simp only
    have hpt : ¬ present ((s1.tables ((s1.tables W).next (x / 512 / 512))).physical
        (x / 512 % 512)) := fun hpt => hc1 ⟨hp1, hpt⟩
    rw [if_neg hpt]
    refine spec_bind (open_pt hs1.sound (links_next hp1) hpt (safe_window hs1.sound hqs hc1)) ?_
    rintro s2 ⟨hw, c, _, ho, hcov⟩
    refine ⟨hs1.trans ⟨ho.sound, ho.makes, ho.quiet⟩ h, (hcov _).mpr (Or.inr rfl),
      fun hp => hw.trans (hpdts hp), ?_⟩
    intro q hq
    rcases (hcov q).mp hq with h3 | rfl
    · exact hq1 q h3
    · exact Or.inr (le_refl _)

end salsola.mmu
