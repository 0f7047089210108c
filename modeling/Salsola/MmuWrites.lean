-- What one write does to the page tables: a frame that is taken, a page that is
-- mapped or unmapped, a new table that is cleared, and an entry that links it.
import Salsola.MmuTables

open memory outcome

namespace salsola.mmu

variable {W : Nat} {dirs : List Nat} {s s' s'' : Mmu} {a b c e i j n p q r x y : Nat}

/-! ## Frames -/

theorem sound_taken (h : Sound W dirs s) {frames : Frames}
    (ht : ∀ f, taken s.frames f → taken frames f) : Sound W dirs { s with frames } where
  active := h.active
  roots := h.roots
  home p a hp :=
    { aligned := (h.home p a hp).aligned
      below := (h.home p a hp).below
      taken := ht _ (h.home p a hp).taken
      at_page := (h.home p a hp).at_page }
  links := h.links
  pages := h.pages
  tree := h.tree
  unrooted := h.unrooted
  heap := h.heap
  zero := ht 0 h.zero

theorem local_taken {frames : Frames} (ht : ∀ f, taken s.frames f → taken frames f) :
    Local W s { s with frames } where
  grows :=
    { grows_refl W s with
      taken := ht }
  fresh := fresh_of_pages (fun _ _ h => h)
  agrees _ _ _ h := Or.inl h
  directories := rfl
  active := rfl
  outside _ _ _ := ⟨rfl, rfl⟩

/-! ## Pages -/

theorem set_page_pts (s : Mmu) (a i e b j : Nat) :
    (s.set_page a i e).pts b j = if b = a ∧ j = i then e else s.pts b j := by
  unfold Mmu.set_page
  by_cases hb : b = a
  · subst hb
    by_cases hj : j = i <;> simp [hj]
  · simp [hb]

theorem set_page_other (h : ¬ (b = a ∧ j = i)) : (s.set_page a i e).pts b j = s.pts b j := by
  rw [set_page_pts, if_neg h]

theorem set_page_self : (s.set_page a i e).pts a i = e := by
  rw [set_page_pts, if_pos ⟨rfl, rfl⟩]

/-- A write to one word changes one page of the window. -/
theorem page_set_page (h : Sound W dirs s) (hx : Covered s W (x / 512)) :
    page (s.set_page (pt_of s W (x / 512)) (x % 512) e) W y = if y = x then e else page s W y := by
  by_cases hy : Covered s W (y / 512)
  · have hy' : Covered (s.set_page (pt_of s W (x / 512)) (x % 512) e) W (y / 512) := hy
    rw [page_of_covered hy', page_of_covered hy, set_page_pts]
    by_cases hxy : y = x
    · subst hxy
      rw [if_pos rfl]
      exact if_pos ⟨rfl, rfl⟩
    · rw [if_neg hxy]
      apply if_neg
      rintro ⟨hpt, hi⟩
      exact hxy (page_slot_inj h hy hx hpt hi)
  · have hxy : y ≠ x := by
      rintro rfl
      exact hy hx
    rw [if_neg hxy]
    unfold page
    rw [if_neg hy]
    exact if_neg hy

/-- A word of a PT that no table's page is in may be written. -/
theorem sound_set_page (h : Sound W dirs s) (ha : IsTable s a)
    (hkeep : ∀ x, IsTable s (window x) → Covered s W (x / 512) →
      ¬ (pt_of s W (x / 512) = a ∧ x % 512 = i)) : Sound W dirs (s.set_page a i e) where
  active := h.active
  roots := h.roots
  home p b hp := by
    obtain ⟨x, hx, hbx, hm, hbase⟩ := (h.home p b hp).at_page
    have hc := hm.covered
    have hslot := hkeep x ⟨p, hbx ▸ hp⟩ hc
    have hpage : page (s.set_page a i e) W x = page s W x := by
      rw [page_of_covered hc]
      exact (page_of_covered (s := s.set_page a i e) hc).trans (set_page_other hslot)
    exact
      { aligned := (h.home p b hp).aligned
        below := (h.home p b hp).below
        taken := (h.home p b hp).taken
        at_page := by
          refine ⟨x, hx, hbx, ?_, ?_⟩
          · unfold Mapped
            rw [hpage]
            exact hm
          · rw [hpage]
            exact hbase }
  links := h.links
  pages b j hp := by
    by_cases hslot : b = a ∧ j = i
    · rw [hslot.1]
      exact ha
    · rw [set_page_other hslot] at hp
      exact h.pages b j hp
  tree := h.tree
  unrooted := h.unrooted
  heap := h.heap
  zero := h.zero

theorem table_slot_present (h : Sound W dirs s) (ht : IsTable s (window x))
    (hc : Covered s W (x / 512)) : present (s.pts (pt_of s W (x / 512)) (x % 512)) := by
  obtain ⟨p, hp⟩ := ht
  obtain ⟨y, _, hy, hm, _⟩ := (h.home p _ hp).at_page
  obtain rfl : x = y := window_inj hy
  unfold Mapped at hm
  rw [page_of_covered hc] at hm
  exact hm

theorem sound_map (h : Sound W dirs s) (ha : IsTable s a) (hno : ¬ present (s.pts a i)) :
    Sound W dirs (s.set_page a i e) := by
  apply sound_set_page h ha
  rintro x ht hc ⟨rfl, rfl⟩
  exact hno (table_slot_present h ht hc)

theorem sound_unmap (h : Sound W dirs s) (hx : Covered s W (x / 512))
    (hno : ¬ IsTable s (window x)) :
    Sound W dirs (s.set_page (pt_of s W (x / 512)) (x % 512) e) := by
  apply sound_set_page h (h.links _ _ _ hx.links.2).2
  rintro y ht hc ⟨hpt, hi⟩
  obtain rfl := page_slot_inj h hc hx hpt hi
  exact hno ht

theorem grows_map (hno : ¬ present (s.pts a i)) : Grows W s (s.set_page a i e) :=
  { grows_refl W s with
    page := by
      intro b j hp
      apply set_page_other
      rintro ⟨rfl, rfl⟩
      exact hno hp }

theorem outside_map (hx : Covered s W q) : Outside W s (s.set_page (pt_of s W q) i e) := by
  intro b _ hout
  refine ⟨rfl, ?_⟩
  funext j
  apply set_page_other
  rintro ⟨rfl, _⟩
  exact hout (Or.inr (Or.inr ⟨_, _, _, hx.links.1, hx.links.2⟩))

/-! ## Links -/

theorem set_entry_tables (s : Mmu) (a i e n b j : Nat) :
    ((s.set_entry a i e n).tables b).physical j =
        (if b = a ∧ j = i then e else (s.tables b).physical j) ∧
      ((s.set_entry a i e n).tables b).next j =
        if b = a ∧ j = i then n else (s.tables b).next j := by
  unfold Mmu.set_entry Table.set
  by_cases hb : b = a
  · subst hb
    by_cases hj : j = i <;> simp [hj]
  · simp [hb]

theorem set_entry_other (h : ¬ (b = a ∧ j = i)) :
    ((s.set_entry a i e n).tables b).physical j = (s.tables b).physical j ∧
      ((s.set_entry a i e n).tables b).next j = (s.tables b).next j := by
  have := set_entry_tables s a i e n b j
  rw [if_neg h, if_neg h] at this
  exact this

theorem set_entry_self : ((s.set_entry a i e n).tables a).physical i = e ∧
    ((s.set_entry a i e n).tables a).next i = n := by
  have := set_entry_tables s a i e n a i
  rw [if_pos ⟨rfl, rfl⟩, if_pos ⟨rfl, rfl⟩] at this
  exact this

theorem links_other (h : ¬ (b = a ∧ j = i)) :
    Links (s.set_entry a i e n) b j c ↔ Links s b j c := by
  unfold Links
  rw [(set_entry_other h).1, (set_entry_other h).2]

theorem links_self (he : present e) : Links (s.set_entry a i e n) a i c ↔ n = c := by
  unfold Links
  rw [set_entry_self.1, set_entry_self.2]
  exact and_iff_right he

theorem links_of_link (hno : ¬ present ((s.tables a).physical i)) (hl : Links s b j c) :
    Links (s.set_entry a i e n) b j c := by
  apply (links_other _).mpr hl
  rintro ⟨rfl, rfl⟩
  exact hno hl.1

/-- A link is the new one or one that was there. -/
theorem link_cases (hl : Links (s.set_entry a i e n) b j c) :
    (b = a ∧ j = i ∧ c = n) ∨ (¬ (b = a ∧ j = i) ∧ Links s b j c) := by
  by_cases hslot : b = a ∧ j = i
  · obtain ⟨rfl, rfl⟩ := hslot
    exact Or.inl ⟨rfl, rfl, hl.2.symm.trans set_entry_self.2⟩
  · exact Or.inr ⟨hslot, (links_other hslot).mp hl⟩

theorem grows_link (hg : Grows W s s') (hno : ¬ present ((s'.tables a).physical i))
    (hn : ¬ IsTable s n) : Grows W s (s'.set_entry a i e n) where
  table b j c hl := by
    obtain ⟨h1, h2⟩ := hg.table b j c hl
    have hslot : ¬ (b = a ∧ j = i) := by
      rintro ⟨rfl, rfl⟩
      exact hno h1.1
    exact ⟨links_of_link hno h1, (set_entry_other hslot).1.trans h2⟩
  target b j c hl := by
    rcases link_cases hl with ⟨_, _, rfl⟩ | ⟨_, h1⟩
    · exact Or.inr hn
    · exact hg.target b j c h1
  page := hg.page
  placed := hg.placed
  new := hg.new
  taken := hg.taken

theorem fresh_link (hf : Fresh s s') : Fresh s (s'.set_entry a i e n) := ⟨hf.frame, hf.apart⟩

theorem agrees_link (ha : Agrees s s') (hp : s'.placed (page_base e) = some n) :
    Agrees s (s'.set_entry a i e n) := by
  intro b j c hl
  rcases link_cases hl with ⟨rfl, rfl, rfl⟩ | ⟨hslot, h1⟩
  · right
    rw [set_entry_self.1]
    exact hp
  · rw [(set_entry_other hslot).1]
    exact ha b j c h1

theorem covered_of_link (hno : ¬ present ((s.tables a).physical i)) (hc : Covered s W q) :
    Covered (s.set_entry a i e n) W q ∧ pt_of (s.set_entry a i e n) W q = pt_of s W q := by
  have h1 := links_of_link (e := e) (n := n) hno hc.links.1
  have h2 := links_of_link (e := e) (n := n) hno hc.links.2
  unfold Covered pt_of
  rw [h1.2]
  exact ⟨⟨h1.1, h2.1⟩, h2.2⟩

theorem page_of_link (hno : ¬ present ((s.tables a).physical i)) (hc : Covered s W (x / 512)) :
    page (s.set_entry a i e n) W x = page s W x := by
  obtain ⟨hc', hpt⟩ := covered_of_link (e := e) (n := n) hno hc
  rw [page_of_covered hc', page_of_covered hc, hpt]
  rfl

theorem home_link (hno : ¬ present ((s.tables a).physical i)) (h : Home s W p b) :
    Home (s.set_entry a i e n) W p b := by
  obtain ⟨x, hx, hbx, hm, hbase⟩ := h.at_page
  have hpage := page_of_link (e := e) (n := n) hno hm.covered
  refine ⟨h.aligned, h.below, h.taken, x, hx, hbx, ?_, ?_⟩
  · unfold Mapped
    rw [hpage]
    exact hm
  · rw [hpage]
    exact hbase

/-- A table that nothing points to may be linked. -/
theorem sound_link (h : Sound W dirs s) (ha : IsTable s a) (hn : IsTable s n)
    (hno : ¬ present ((s.tables a).physical i)) (hun : ∀ b j, ¬ Links s b j n)
    (hroot : ∀ d ∈ dirs, root s d ≠ n) : Sound W dirs (s.set_entry a i e n) where
  active := h.active
  roots d hd := by
    obtain ⟨h1, h2, h3⟩ := h.roots d hd
    exact ⟨h1, links_of_link hno h2, h3⟩
  home p b hp := home_link hno (h.home p b hp)
  links b j c hl := by
    rcases link_cases hl with ⟨rfl, rfl, rfl⟩ | ⟨_, h1⟩
    · exact ⟨ha, hn⟩
    · exact h.links b j c h1
  pages := h.pages
  tree b j b' j' c hl hl' := by
    rcases link_cases hl with ⟨rfl, rfl, rfl⟩ | ⟨_, h1⟩ <;>
      rcases link_cases hl' with ⟨rfl, rfl, h2⟩ | ⟨_, h2⟩
    · exact Or.inl ⟨rfl, rfl⟩
    · exact absurd h2 (hun _ _)
    · subst h2
      exact absurd h1 (hun _ _)
    · exact h.tree b j b' j' c h1 h2
  unrooted b j d hd hl := by
    rcases link_cases hl with ⟨_, _, h1⟩ | ⟨_, h1⟩
    · exact hroot d hd h1
    · exact h.unrooted b j d hd h1
  heap := by
    obtain ⟨t, ht, hq⟩ := h.heap
    exact ⟨t, ht, fun q hlt => (covered_of_link hno (hq q hlt)).1⟩
  zero := h.zero

/-! ## Pages in a row -/

/-- The words of the `n` pages of the window from `x` on take the entries `e`. Nothing else
has changed. -/
structure Writes (W : Nat) (s s' : Mmu) (x n : Nat) (e : Nat → Nat) : Prop where
  rest : s' = { s with pts := s'.pts }
  covered : ∀ k, k < n → Covered s W ((x + k) / 512)
  word : ∀ k, k < n → s'.pts (pt_of s W ((x + k) / 512)) ((x + k) % 512) = e k
  other : ∀ a i, (∀ k, k < n → ¬ (a = pt_of s W ((x + k) / 512) ∧ i = (x + k) % 512)) →
    s'.pts a i = s.pts a i

/-- The pages from `x` on were not mapped, and are mapped now to the frames from `p` on. -/
structure Maps (W : Nat) (s s' : Mmu) (x n p : Nat) : Prop
    extends Writes W s s' x n (fun k => (p + k * 0x1000) ||| 0x3) where
  unmapped : ∀ k, k < n → ¬ Mapped s W (x + k)

section writes

variable {entry : Nat → Nat}

theorem writes_nothing (W : Nat) (s : Mmu) (x : Nat) (entry : Nat → Nat) :
    Writes W s s x 0 entry where
  rest := rfl
  covered k hk := absurd hk (Nat.not_lt_zero k)
  word k hk := absurd hk (Nat.not_lt_zero k)
  other _ _ _ := rfl

/-- One page, and then the pages behind it. -/
theorem Writes.cons (h : Sound W dirs s) (hc : Covered s W (x / 512))
    (hw : Writes W (s.set_page (pt_of s W (x / 512)) (x % 512) (entry 0)) s' (x + 1) n
      (fun k => entry (k + 1))) : Writes W s s' x (n + 1) entry where
  rest := hw.rest
  covered k hk := by
    rcases k with _ | k
    · exact hc
    · have := hw.covered k (by omega)
      rw [show x + 1 + k = x + (k + 1) by omega] at this
      exact this
  word k hk := by
    rcases k with _ | k
    · rw [Nat.add_zero, hw.other _ _ _, set_page_self]
      rintro k hk' ⟨hpt, hi⟩
      have := page_slot_inj h hc (hw.covered k hk') hpt hi
      omega
    · have h1 := hw.word k (by omega)
      rw [show x + 1 + k = x + (k + 1) by omega] at h1
      exact h1
  other a i hno := by
    rw [hw.other a i _]
    · exact set_page_other (hno 0 (by omega))
    · intro k hk
      have := hno (k + 1) (by omega)
      rw [show x + (k + 1) = x + 1 + k by omega] at this
      exact this

theorem Writes.tables (h : Writes W s s' x n entry) : s'.tables = s.tables := by rw [h.rest]

theorem Writes.covered_iff (h : Writes W s s' x n entry) : Covered s' W q ↔ Covered s W q := by
  unfold Covered
  rw [h.tables]

theorem Writes.pt_of_eq (h : Writes W s s' x n entry) : pt_of s' W q = pt_of s W q := by
  unfold pt_of
  rw [h.tables]

theorem Writes.page_in (h : Writes W s s' x n entry) {k : Nat} (hk : k < n) :
    page s' W (x + k) = entry k := by
  rw [page_of_covered (h.covered_iff.mpr (h.covered k hk)), h.pt_of_eq]
  exact h.word k hk

theorem Writes.page_out (h : Writes W s s' x n entry) (hs : Sound W dirs s)
    (hy : y < x ∨ x + n ≤ y) : page s' W y = page s W y := by
  by_cases hc : Covered s W (y / 512)
  · rw [page_of_covered hc, page_of_covered (h.covered_iff.mpr hc), h.pt_of_eq]
    apply h.other
    rintro k hk ⟨hpt, hi⟩
    have := page_slot_inj hs hc (h.covered k hk) hpt hi
    omega
  · unfold page
    rw [if_neg hc, if_neg (fun hc' => hc (h.covered_iff.mp hc'))]

end writes

theorem maps_nothing (W : Nat) (s : Mmu) (x p : Nat) : Maps W s s x 0 p where
  toWrites := writes_nothing W s x _
  unmapped k hk := absurd hk (Nat.not_lt_zero k)

theorem Maps.cons (h : Sound W dirs s) (hc : Covered s W (x / 512)) (hx : ¬ Mapped s W x)
    (hm : Maps W (s.set_page (pt_of s W (x / 512)) (x % 512) (p ||| 0x3)) s' (x + 1) n
      (p + 0x1000)) : Maps W s s' x (n + 1) p where
  toWrites := by
    apply Writes.cons h hc
    rw [Nat.zero_mul, Nat.add_zero]
    have hw := hm.toWrites
    have hentry : (fun k => (p + 0x1000 + k * 0x1000) ||| 0x3) =
        fun k => (p + (k + 1) * 0x1000) ||| 0x3 := by
      funext k
      rw [show p + 0x1000 + k * 0x1000 = p + (k + 1) * 0x1000 by ring]
    rw [hentry] at hw
    exact hw
  unmapped k hk := by
    rcases k with _ | k
    · exact hx
    · have h2 := hm.unmapped k (by omega)
      rw [show x + 1 + k = x + (k + 1) by omega] at h2
      unfold Mapped at h2 ⊢
      rw [page_set_page h hc, if_neg (by omega)] at h2
      exact h2

theorem Maps.free (h : Maps W s s' x n p) {k : Nat} (hk : k < n) :
    Covered s W ((x + k) / 512) ∧ ¬ Mapped s W (x + k) := ⟨h.covered k hk, h.unmapped k hk⟩

theorem Maps.grows (h : Maps W s s' x n p) : Grows W s s' := by
  have hpage : ∀ a i, present (s.pts a i) → s'.pts a i = s.pts a i := by
    intro a i hp
    apply h.other
    rintro k hk ⟨rfl, rfl⟩
    obtain ⟨hc, hno⟩ := h.free hk
    unfold Mapped at hno
    rw [page_of_covered hc] at hno
    exact hno hp
  rw [h.rest]
  exact { grows_refl W s with page := hpage }

/-! ## A new table -/

/-- A page that a call has mapped is a new page. -/
theorem Grows.new_page (h : Grows W s s') (hs : Sound W dirs s) (hy : Mapped s' W y)
    (hno : ¬ Mapped s W y) : NewPage s s' (pt_of s' W (y / 512)) (y % 512) := by
  have hc := hy.covered
  have hp := hy
  unfold Mapped at hp
  rw [page_of_covered hc] at hp
  refine ⟨hp, fun hold => hno ?_⟩
  have h2 := h.old_link hc.links.2 (hs.pages _ _ hold)
  have h1 := h.old_link hc.links.1 (hs.links _ _ _ h2).1
  have hcov : Covered s W (y / 512) := by
    unfold Covered
    rw [h1.2]
    exact ⟨h1.1, h2.1⟩
  have hpt : pt_of s W (y / 512) = pt_of s' W (y / 512) := ((h.covered hcov).2).symm
  unfold Mapped
  rw [page_of_covered hcov, hpt]
  exact hold

theorem isTable_window (h : Sound W dirs s) : IsTable s W :=
  (h.links _ _ _ (h.roots _ h.active).2.1).2

theorem clear_tables (hb : b ≠ a) : (s.clear a p).tables b = s.tables b := if_neg hb

theorem clear_pts (hb : b ≠ a) : (s.clear a p).pts b = s.pts b := if_neg hb

theorem clear_self : (s.clear a p).tables a = ⟨fun _ => 0, fun _ => 0⟩ ∧
    (s.clear a p).pts a = fun _ => 0 := ⟨if_pos rfl, if_pos rfl⟩

theorem clear_links (h : Sound W dirs s) (ha : ¬ IsTable s a) :
    Links (s.clear a p) b j c ↔ Links s b j c := by
  by_cases hb : b = a
  · subst hb
    refine iff_of_false ?_ (fun hl => ha (h.links _ _ _ hl).1)
    rintro ⟨h1, _⟩
    rw [clear_self.1] at h1
    exact not_present_zero h1
  · unfold Links
    rw [clear_tables hb]

theorem clear_covered (h : Sound W dirs s) (ha : ¬ IsTable s a) :
    Covered (s.clear a p) W q ↔ Covered s W q := by
  have hw : (s.clear a p).tables W = s.tables W := by
    apply clear_tables
    rintro rfl
    exact ha (isTable_window h)
  unfold Covered
  rw [hw]
  apply and_congr_right
  intro h1
  rw [clear_tables]
  rintro rfl
  exact ha (h.links _ _ _ (links_next h1)).2

theorem clear_pt_of (h : Sound W dirs s) (ha : ¬ IsTable s a) (hq : Covered s W q) :
    pt_of (s.clear a p) W q = pt_of s W q := by
  have h1 := (clear_links (p := p) h ha).mpr hq.links.1
  have h2 := (clear_links (p := p) h ha).mpr hq.links.2
  unfold pt_of
  rw [h1.2]
  exact h2.2

theorem clear_page (h : Sound W dirs s) (ha : ¬ IsTable s a) :
    page (s.clear a p) W y = page s W y := by
  unfold page
  by_cases hc : Covered s W (y / 512)
  · rw [if_pos hc, if_pos ((clear_covered h ha).mpr hc), clear_pt_of h ha hc, clear_pts]
    intro heq
    apply ha
    rw [← heq]
    exact (h.links _ _ _ hc.links.2).2
  · rw [if_neg hc, if_neg (fun hc' => hc ((clear_covered h ha).mp hc'))]

/-- What `safe_allocation` returns: an empty table at `a` that nothing points to, in `n`
frames from `p` on that nothing used. -/
structure New (s s' : Mmu) (a p n : Nat) : Prop where
  placed : s'.placed p = some a
  fresh : ¬ IsTable s a
  tables : s'.tables a = ⟨fun _ => 0, fun _ => 0⟩
  pts : s'.pts a = fun _ => 0
  unlinked : ∀ b j, ¬ Links s' b j a
  aligned : p % 0x1000 = 0
  untaken : ∀ k, k < n → ¬ taken s.frames (p / 0x1000 + k)

/-- The cleared table has its home. -/
theorem sound_clear (h : Sound W dirs s) (ha : ¬ IsTable s (window x)) (hp : s.placed p = none)
    (haligned : p % 0x1000 = 0) (hbelow : p / 0x1000 < NUM_OF_FRAMES * 64)
    (htaken : taken s.frames (p / 0x1000)) (hx : x < WINDOW) (hm : Mapped s W x)
    (hbase : page_base (page s W x) = p) : Sound W dirs (s.clear (window x) p) where
  active := h.active
  roots d hd := by
    obtain ⟨h1, h2, h3⟩ := h.roots d hd
    refine ⟨h1, (clear_links h ha).mpr h2, ?_⟩
    have hne : (s.directories d).physical ≠ p := by
      intro heq
      rw [heq, hp] at h3
      cases h3
    exact (if_neg hne).trans h3
  home p' b hb := by
    by_cases hpp : p' = p
    · subst hpp
      have : window x = b := Option.some_inj.mp ((if_pos rfl).symm.trans hb)
      subst this
      exact
        { aligned := haligned
          below := hbelow
          taken := htaken
          at_page := ⟨x, hx, rfl, by unfold Mapped; rw [clear_page h ha]; exact hm,
            by rw [clear_page h ha]; exact hbase⟩ }
    · have hb' : s.placed p' = some b := (if_neg hpp).symm.trans hb
      obtain ⟨y, hy, hby, hmy, hbase'⟩ := (h.home p' b hb').at_page
      exact
        { aligned := (h.home p' b hb').aligned
          below := (h.home p' b hb').below
          taken := (h.home p' b hb').taken
          at_page := ⟨y, hy, hby, by unfold Mapped; rw [clear_page h ha]; exact hmy,
            by rw [clear_page h ha]; exact hbase'⟩ }
  links b j c hl := by
    obtain ⟨h1, h2⟩ := h.links _ _ _ ((clear_links h ha).mp hl)
    have hup : ∀ b, IsTable s b → IsTable (s.clear (window x) p) b := by
      rintro b ⟨p', hp'⟩
      refine ⟨p', (if_neg ?_).trans hp'⟩
      rintro rfl
      rw [hp] at hp'
      cases hp'
    exact ⟨hup b h1, hup c h2⟩
  pages b j hpres := by
    by_cases hb : b = window x
    · rw [hb, clear_self.2] at hpres
      exact absurd hpres not_present_zero
    · rw [clear_pts hb] at hpres
      obtain ⟨p', hp'⟩ := h.pages b j hpres
      refine ⟨p', (if_neg ?_).trans hp'⟩
      rintro rfl
      rw [hp] at hp'
      cases hp'
  tree b j b' j' c hl hl' :=
    h.tree b j b' j' c ((clear_links h ha).mp hl) ((clear_links h ha).mp hl')
  unrooted b j d hd hl := h.unrooted b j d hd ((clear_links h ha).mp hl)
  heap := by
    obtain ⟨t, ht, hq⟩ := h.heap
    exact ⟨t, ht, fun q hlt => (clear_covered h ha).mpr (hq q hlt)⟩
  zero := h.zero

/-- A frame that was handed out before a call holds no table of the call. -/
theorem placed_none (h : Sound W dirs s) {frames : Frames} (hu : ¬ taken s.frames (p / 0x1000))
    (ht : taken frames (p / 0x1000)) (hl : Local W { s with frames } s')
    (hF : Sound W dirs { s with frames }) (h' : Sound W dirs s') : s'.placed p = none := by
  cases hp : s'.placed p with
  | none => rfl
  | some b =>
    exfalso
    rcases hl.grows.new p b hp with h1 | ⟨y, _, hby, hm⟩
    · exact hu (h.home p b h1).taken
    · obtain ⟨z, _, hbz, hm', hbase⟩ := (h'.home p b hp).at_page
      obtain rfl : y = z := window_inj (hby.symm.trans hbz)
      have hnew := (hl.fresh.frame _ _ (hl.grows.new_page hF hm' hm)).1
      rw [← page_of_covered hm'.covered] at hnew
      have hframe : mmu.page s' W y / 0x1000 = p / 0x1000 := by
        rw [← hbase]
        unfold page_base
        omega
      rw [hframe] at hnew
      exact hnew ht

/-- What `safe_allocation` does to `s`: the `n` frames from `r` on are taken, a search leaves
`s1`, and in `s2` the pages from `x` on are mapped to the frames. -/
structure Placing (W : Nat) (dirs : List Nat) (s : Mmu) (frames : Frames) (s1 s2 : Mmu)
    (x n r : Nat) : Prop where
  sound : Sound W dirs s
  pos : 0 < n
  below : r + n ≤ NUM_OF_FRAMES * 64
  free : ∀ f, r ≤ f → f < r + n → ¬ taken s.frames f
  taken : ∀ f, taken s.frames f ∨ (r ≤ f ∧ f < r + n) → taken frames f
  search : Local W { s with frames } s1
  sound1 : Sound W dirs s1
  sound2 : Sound W dirs s2
  maps : Maps W s1 s2 x n (r * 0x1000)
  at_page : x < WINDOW

section placing

variable {frames : Frames} {s1 s2 : Mmu}

theorem Placing.soundF (h : Placing W dirs s frames s1 s2 x n r) :
    Sound W dirs { s with frames } := sound_taken h.sound (fun f hf => h.taken f (Or.inl hf))

theorem Placing.grows1 (h : Placing W dirs s frames s1 s2 x n r) : Grows W s s1 :=
  (local_taken (fun f hf => h.taken f (Or.inl hf))).grows.trans h.search.grows

theorem Placing.unmapped (h : Placing W dirs s frames s1 s2 x n r) :
    Covered s1 W (x / 512) ∧ ¬ Mapped s1 W x := h.maps.free h.pos

theorem Placing.no_table1 (h : Placing W dirs s frames s1 s2 x n r) : ¬ IsTable s1 (window x) :=
  not_table_of_unmapped h.sound1 h.unmapped.2

theorem Placing.no_table (h : Placing W dirs s frames s1 s2 x n r) : ¬ IsTable s (window x) :=
  fun hb => h.no_table1 (h.grows1.isTable hb)

theorem Placing.placed2 (h : Placing W dirs s frames s1 s2 x n r) : s2.placed = s1.placed := by
  rw [h.maps.rest]

theorem Placing.no_table2 (h : Placing W dirs s frames s1 s2 x n r) : ¬ IsTable s2 (window x) := by
  unfold IsTable
  rw [h.placed2]
  exact h.no_table1

theorem Placing.none (h : Placing W dirs s frames s1 s2 x n r) : s2.placed (r * 0x1000) = none := by
  have hr : r * 0x1000 / 0x1000 = r := by omega
  have hn := h.pos
  rw [h.placed2]
  apply placed_none h.sound _ _ h.search h.soundF h.sound1
  · rw [hr]
    exact h.free r (le_refl r) (by omega)
  · rw [hr]
    exact h.taken r (Or.inr ⟨le_refl r, by omega⟩)

theorem Placing.taken2 (h : Placing W dirs s frames s1 s2 x n r) {f : Nat}
    (hf : mmu.taken frames f) : mmu.taken s2.frames f := by
  have hframes : s2.frames = s1.frames := by rw [h.maps.rest]
  rw [hframes]
  exact h.search.grows.taken f hf

theorem Placing.cleared_sound (h : Placing W dirs s frames s1 s2 x n r) :
    Sound W dirs (s2.clear (window x) (r * 0x1000)) := by
  have hr : r * 0x1000 / 0x1000 = r := by omega
  have hn := h.pos
  have hb := h.below
  have hpage : page s2 W x = (r * 0x1000) ||| 0x3 := by
    have := h.maps.page_in h.pos
    rw [Nat.add_zero, Nat.zero_mul, Nat.add_zero] at this
    exact this
  apply sound_clear h.sound2 h.no_table2 h.none (by omega) (by omega) _ h.at_page
  · unfold Mapped
    rw [hpage]
    exact present_or _ _ rfl
  · rw [hpage]
    exact page_base_of_aligned _ _ (by omega) (by omega)
  · rw [hr]
    exact h.taken2 (h.taken r (Or.inr ⟨le_refl r, by omega⟩))

theorem Placing.links (h : Placing W dirs s frames s1 s2 x n r) :
    Links (s2.clear (window x) (r * 0x1000)) b j c ↔ Links s1 b j c := by
  rw [clear_links h.sound2 h.no_table2]
  unfold Links
  rw [h.maps.tables]

theorem Placing.grows (h : Placing W dirs s frames s1 s2 x n r) :
    Grows W s (s2.clear (window x) (r * 0x1000)) where
  table b j c hlk := by
    obtain ⟨h1, h2⟩ := h.grows1.table b j c hlk
    refine ⟨h.links.mpr h1, ?_⟩
    rw [clear_tables, h.maps.tables]
    · exact h2
    · rintro rfl
      exact h.no_table (h.sound.links _ _ _ hlk).1
  target b j c hlk := h.grows1.target b j c (h.links.mp hlk)
  page b j hp := by
    have h1 := h.grows1.page b j hp
    rw [clear_pts, h.maps.grows.page b j (by rw [h1]; exact hp), h1]
    rintro rfl
    exact h.no_table (h.sound.pages _ _ hp)
  placed q b hq := by
    have h1 := h.grows1.placed q b hq
    rw [← h.placed2] at h1
    refine (if_neg ?_).trans h1
    rintro rfl
    rw [h.none] at h1
    cases h1
  new q b hq := by
    by_cases hqr : q = r * 0x1000
    · subst hqr
      obtain rfl : window x = b := Option.some_inj.mp ((if_pos rfl).symm.trans hq)
      exact Or.inr ⟨x, h.at_page, rfl, fun hm => h.unmapped.2 (h.grows1.mapped hm)⟩
    · apply h.grows1.new q b
      rw [← h.placed2]
      exact (if_neg hqr).symm.trans hq
  taken f hf := h.taken2 (h.taken f (Or.inl hf))

/-- A new page is a page of the search, or it maps one of the frames. -/
theorem Placing.new_page (h : Placing W dirs s frames s1 s2 x n r)
    (hnew : NewPage s (s2.clear (window x) (r * 0x1000)) b j) :
    (NewPage { s with frames } s1 b j ∧
      (s2.clear (window x) (r * 0x1000)).pts b j = s1.pts b j) ∨
    ∃ k, k < n ∧ b = pt_of s1 W ((x + k) / 512) ∧ j = (x + k) % 512 ∧
      (s2.clear (window x) (r * 0x1000)).pts b j / 0x1000 = r + k := by
  obtain ⟨hp, hold⟩ := hnew
  have hb : b ≠ window x := by
    rintro rfl
    rw [clear_self.2] at hp
    exact not_present_zero hp
  rw [clear_pts hb] at hp ⊢
  by_cases hin : ∃ k, k < n ∧ b = pt_of s1 W ((x + k) / 512) ∧ j = (x + k) % 512
  · obtain ⟨k, hk, rfl, rfl⟩ := hin
    refine Or.inr ⟨k, hk, rfl, rfl, ?_⟩
    rw [h.maps.word k hk, or_frame (r * 0x1000 + k * 0x1000) 0x3 (by decide)]
    omega
  · have hsame : s2.pts b j = s1.pts b j := by
      apply h.maps.other
      rintro k hk ⟨h1, h2⟩
      exact hin ⟨k, hk, h1, h2⟩
    rw [hsame] at hp
    exact Or.inl ⟨⟨hp, hold⟩, hsame⟩

theorem Placing.fresh (h : Placing W dirs s frames s1 s2 x n r) :
    Fresh s (s2.clear (window x) (r * 0x1000)) where
  frame b j hnew := by
    rcases h.new_page hnew with ⟨h1, h2⟩ | ⟨k, hk, _, _, hframe⟩
    · rw [h2]
      obtain ⟨h3, h4, h5⟩ := h.search.fresh.frame b j h1
      refine ⟨fun ht => h3 (h.taken _ (Or.inl ht)), ?_, h5⟩
      have hframes : s2.frames = s1.frames := by rw [h.maps.rest]
      exact hframes ▸ h4
    · rw [hframe]
      have hb := h.below
      exact ⟨h.free _ (by omega) (by omega), h.taken2 (h.taken _ (Or.inr ⟨by omega, by omega⟩)),
        by omega⟩
  apart b j b' j' hnew hnew' heq := by
    have hown : ∀ k, k < n → mmu.taken frames (r + k) := fun k hk =>
      h.taken _ (Or.inr ⟨by omega, by omega⟩)
    rcases h.new_page hnew with ⟨h3, h4⟩ | ⟨k, hk, hb, hj, hframe⟩ <;>
      rcases h.new_page hnew' with ⟨h5, h6⟩ | ⟨k', hk', hb', hj', hframe'⟩
    · rw [h4, h6] at heq
      exact h.search.fresh.apart b j b' j' h3 h5 heq
    · rw [hframe', h4] at heq
      have := (h.search.fresh.frame b j h3).1
      rw [heq] at this
      exact absurd (hown k' hk') this
    · rw [hframe, h6] at heq
      have := (h.search.fresh.frame b' j' h5).1
      rw [← heq] at this
      exact absurd (hown k hk) this
    · obtain rfl : k = k' := by omega
      exact ⟨hb.trans hb'.symm, hj.trans hj'.symm⟩

theorem Placing.agrees (h : Placing W dirs s frames s1 s2 x n r) :
    Agrees s (s2.clear (window x) (r * 0x1000)) := by
  intro b j c hlk
  rcases h.search.agrees b j c (h.links.mp hlk) with h1 | h1
  · exact Or.inl h1
  · right
    have hne : b ≠ window x := by
      rintro rfl
      exact h.no_table1 (h.sound1.links _ _ _ (h.links.mp hlk)).1
    rw [clear_tables hne, h.maps.tables]
    rw [← h.placed2] at h1
    refine (if_neg ?_).trans h1
    intro heq
    rw [heq, h.none] at h1
    cases h1

theorem Placing.outside (h : Placing W dirs s frames s1 s2 x n r) :
    Outside W s (s2.clear (window x) (r * 0x1000)) := by
  intro b hb hout
  have hne : b ≠ window x := by
    rintro rfl
    exact h.no_table hb
  obtain ⟨h1, h2⟩ := h.search.outside b hb hout
  rw [clear_tables hne, clear_pts hne, h.maps.tables]
  refine ⟨h1, ?_⟩
  rw [← h2]
  funext j
  apply h.maps.other
  rintro k hk ⟨rfl, _⟩
  -- the page table of a new page is a table of the window, now as before
  have hck := (h.maps.free hk).1
  apply hout
  exact h.search.grows.inWindow h.soundF hb
    (Or.inr (Or.inr ⟨_, _, _, hck.links.1, hck.links.2⟩))

/-- A table that is placed so is sound, changes the window only, and is new. -/
theorem Placing.result (h : Placing W dirs s frames s1 s2 x n r) :
    Sound W dirs (s2.clear (window x) (r * 0x1000)) ∧
      Local W s (s2.clear (window x) (r * 0x1000)) ∧
      New s (s2.clear (window x) (r * 0x1000)) (window x) (r * 0x1000) n := by
  have hrest : s2.directories = s1.directories ∧ s2.active_directory = s1.active_directory := by
    rw [h.maps.rest]
    exact ⟨rfl, rfl⟩
  refine ⟨h.cleared_sound, ?_, ?_⟩
  · exact
      { grows := h.grows
        fresh := h.fresh
        agrees := h.agrees
        directories := hrest.1.trans h.search.directories
        active := hrest.2.trans h.search.active
        outside := h.outside }
  · refine ⟨if_pos rfl, h.no_table, clear_self.1, clear_self.2, ?_, by omega, ?_⟩
    · intro b j hlk
      exact h.no_table1 (h.sound1.links _ _ _ (h.links.mp hlk)).2
    · intro k hk
      rw [show r * 0x1000 / 0x1000 = r by omega]
      exact h.free _ (by omega) (by omega)

end placing

end salsola.mmu
