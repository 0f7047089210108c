-- A copy of a frame, and what it leaves of the page tables: the two pages that it maps are
-- gone again, and what was there is as it was.
import Salsola.MmuRuns

open memory outcome runs

namespace salsola.mmu

variable {W : Nat} {dirs : List Nat} {s s' s'' : Mmu} {a b c e i j k n p q t x : Nat}
variable {fuel : Nat} {T T' : Nat → Nat → Prop}

/-! ## Calls that leave what was there -/

/-- A new entry in a table of the window names the frame of the table that it points to. -/
def AgreesIn (W : Nat) (s s' : Mmu) : Prop :=
  ∀ a i b, InWindow s' W a → Links s' a i b →
    Links s a i b ∨ s'.placed (page_base ((s'.tables a).physical i)) = some b

theorem Agrees.inWindow (h : Agrees s s') : AgreesIn W s s' := fun a i b _ hl => h a i b hl

theorem AgreesIn.trans (h : AgreesIn W s s') (h' : AgreesIn W s' s'') (hs' : Sound W dirs s')
    (hg' : Grows W s' s'') : AgreesIn W s s'' := by
  intro a i b hin hl
  rcases h' a i b hin hl with h1 | h1
  · have hin' := hg'.inWindow hs' (hs'.links _ _ _ h1).1 hin
    rcases h a i b hin' h1 with h2 | h2
    · exact Or.inl h2
    · apply Or.inr
      rw [(hg'.table a i b h1).2]
      exact hg'.placed _ _ h2
  · exact Or.inr h1

/-- An entry of a table outside of the window makes no table one of the window. -/
theorem inWindow_of_link (ht : ¬ InWindow s W t) (hin : InWindow (s.set_entry t i e n) W a) :
    InWindow s W a := by
  rcases hin with rfl | ⟨j, hl⟩ | ⟨j, b, k, hl, hl'⟩
  · exact Or.inl rfl
  · rcases link_cases hl with ⟨rfl, -, -⟩ | ⟨-, h1⟩
    · exact absurd (Or.inl rfl) ht
    · exact Or.inr (Or.inl ⟨j, h1⟩)
  · rcases link_cases hl with ⟨rfl, -, -⟩ | ⟨-, h1⟩
    · exact absurd (Or.inl rfl) ht
    · rcases link_cases hl' with ⟨rfl, -, -⟩ | ⟨-, h2⟩
      · exact absurd (Or.inr (Or.inl ⟨j, h1⟩)) ht
      · exact Or.inr (Or.inr ⟨j, b, k, h1, h2⟩)

theorem AgreesIn.link (h : AgreesIn W s s') (ht : ¬ InWindow s' W t) :
    AgreesIn W s (s'.set_entry t i e n) := by
  intro a j b hin hl
  have hin' := inWindow_of_link ht hin
  have hslot : ¬ (a = t ∧ j = i) := by
    rintro ⟨rfl, -⟩
    exact ht hin'
  rw [(set_entry_other hslot).1]
  exact h a j b hin' ((links_other hslot).mp hl)

/-- New tables and pages, on frames that were free. What was there stays as it was. -/
structure Builds (W : Nat) (dirs : List Nat) (s s' : Mmu) : Prop where
  sound : Sound W dirs s'
  grows : Grows W s s'
  fresh : Fresh s s'
  outside : Outside W s s'
  directories : s'.directories = s.directories
  active : s'.active_directory = s.active_directory
  heap_end : s'.heap_end = s.heap_end
  window : AgreesIn W s s'

theorem Searched.builds (h : Searched W dirs s s') : Builds W dirs s s' :=
  ⟨h.sound, h.makes.grows, h.makes.fresh, h.makes.outside, h.makes.directories, h.makes.active,
    h.quiet.heap_end, h.makes.agrees.inWindow⟩

theorem Builds.trans (h : Builds W dirs s s') (h' : Builds W dirs s' s'') (hs : Sound W dirs s) :
    Builds W dirs s s'' where
  sound := h'.sound
  grows := h.grows.trans h'.grows
  fresh := h.fresh.trans h'.fresh h.grows h'.grows
  outside := h.outside.trans h'.outside h.grows hs
  directories := h'.directories.trans h.directories
  active := h'.active.trans h.active
  heap_end := h'.heap_end.trans h.heap_end
  window := h.window.trans h'.window h.sound h'.grows

/-! ## Temporary pages -/

/-- As `Builds`, with words of the window's page tables that are in use for a while only. -/
structure Near (W : Nat) (dirs : List Nat) (T : Nat → Nat → Prop) (s s' : Mmu) : Prop where
  sound : Sound W dirs s'
  grows : Grows W s s'
  unused : ∀ a i, T a i → ¬ present (s.pts a i)
  frame : ∀ a i, NewPage s s' a i → ¬ T a i → ¬ taken s.frames (s'.pts a i / 0x1000) ∧
    taken s'.frames (s'.pts a i / 0x1000) ∧ s'.pts a i / 0x1000 < NUM_OF_FRAMES * 64
  apart : ∀ a i b j, NewPage s s' a i → ¬ T a i → NewPage s s' b j → ¬ T b j →
    s'.pts a i / 0x1000 = s'.pts b j / 0x1000 → a = b ∧ i = j
  agrees : Agrees s s'
  outside : Outside W s s'
  directories : s'.directories = s.directories
  active : s'.active_directory = s.active_directory
  heap_end : s'.heap_end = s.heap_end

theorem near_refl (h : Sound W dirs s) : Near W dirs (fun _ _ => False) s s where
  sound := h
  grows := grows_refl W s
  unused _ _ hT := hT.elim
  frame _ _ hnew := absurd hnew.1 hnew.2
  apart _ _ _ _ hnew := absurd hnew.1 hnew.2
  agrees _ _ _ hl := Or.inl hl
  outside _ _ _ := ⟨rfl, rfl⟩
  directories := rfl
  active := rfl
  heap_end := rfl

theorem Near.builds (h : Near W dirs T s s') (hT : ∀ a i, ¬ T a i) : Builds W dirs s s' where
  sound := h.sound
  grows := h.grows
  fresh := ⟨fun a i hnew => h.frame a i hnew (hT a i),
    fun a i b j hnew hnew' => h.apart a i b j hnew (hT a i) hnew' (hT b j)⟩
  outside := h.outside
  directories := h.directories
  active := h.active
  heap_end := h.heap_end
  window := h.agrees.inWindow

/-- A search goes on from there as it does elsewhere. -/
theorem Near.searched (h : Near W dirs T s s') (h' : Searched W dirs s' s'') (hs : Sound W dirs s) :
    Near W dirs T s s'' := by
  have hg := h'.makes.grows
  have hf := h'.makes.fresh
  -- a page is new in the search, or it was new before
  have hcases : ∀ a i, NewPage s s'' a i →
      NewPage s' s'' a i ∨ (NewPage s s' a i ∧ s''.pts a i = s'.pts a i) := by
    intro a i hnew
    by_cases hp : present (s'.pts a i)
    · exact Or.inr ⟨⟨hp, hnew.2⟩, hg.page a i hp⟩
    · exact Or.inl ⟨hnew.1, hp⟩
  refine ⟨h'.sound, h.grows.trans hg, h.unused, ?_, ?_, h.agrees.trans h'.makes.agrees hg,
    h.outside.trans h'.makes.outside h.grows hs, h'.makes.directories.trans h.directories,
    h'.makes.active.trans h.active, h'.quiet.heap_end.trans h.heap_end⟩
  · intro a i hnew hT
    rcases hcases a i hnew with h1 | ⟨h1, heq⟩
    · obtain ⟨h2, h3, h4⟩ := hf.frame a i h1
      exact ⟨fun ht => h2 (h.grows.taken _ ht), h3, h4⟩
    · rw [heq]
      obtain ⟨h2, h3, h4⟩ := h.frame a i h1 hT
      exact ⟨h2, hg.taken _ h3, h4⟩
  · intro a i b j hnew hT hnew' hT' hsame
    rcases hcases a i hnew with h1 | ⟨h1, heq⟩ <;> rcases hcases b j hnew' with h2 | ⟨h2, heq'⟩
    · exact hf.apart a i b j h1 h2 hsame
    · rw [heq'] at hsame
      exact absurd (hsame ▸ (h.frame b j h2 hT').2.1) (hf.frame a i h1).1
    · rw [heq] at hsame
      exact absurd (hsame ▸ (h.frame a i h1 hT).2.1) (hf.frame b j h2).1
    · rw [heq, heq'] at hsame
      exact h.apart a i b j h1 hT h2 hT' hsame

/-- A write to one word of the window: the words that are in use are `T'` then. -/
theorem Near.word (h : Near W dirs T s s') (hs : Sound W dirs s) (hs'' : Sound W dirs s'')
    (hrest : s'' = { s' with pts := s''.pts }) (hw : InWindow s' W t)
    (hno : ¬ present (s.pts t k))
    (hother : ∀ a i, ¬ (a = t ∧ i = k) → s''.pts a i = s'.pts a i)
    (hunused : ∀ a i, T' a i → T a i ∨ (a = t ∧ i = k))
    (hused : ∀ a i, ¬ T' a i → present (s''.pts a i) → ¬ T a i ∧ ¬ (a = t ∧ i = k)) :
    Near W dirs T' s s'' := by
  have htables : s''.tables = s'.tables := by rw [hrest]
  have hplaced : s''.placed = s'.placed := by rw [hrest]
  have hframes : s''.frames = s'.frames := by rw [hrest]
  have hlinks : ∀ a i b, Links s'' a i b ↔ Links s' a i b := by
    intro a i b
    unfold Links
    rw [htables]
  have hold : ∀ a i, present (s.pts a i) → s''.pts a i = s'.pts a i := by
    intro a i hp
    apply hother
    rintro ⟨rfl, rfl⟩
    exact hno hp
  have hnew : ∀ a i, NewPage s s'' a i → ¬ T' a i →
      NewPage s s' a i ∧ ¬ T a i ∧ s''.pts a i = s'.pts a i := by
    intro a i hnew hT'
    obtain ⟨h1, h2⟩ := hused a i hT' hnew.1
    have heq := hother a i h2
    exact ⟨⟨heq ▸ hnew.1, hnew.2⟩, h1, heq⟩
  refine ⟨hs'', ?_, ?_, ?_, ?_, ?_, ?_, ?_, ?_, ?_⟩
  · have hg := h.grows
    refine ⟨?_, ?_, ?_, ?_, ?_, ?_⟩
    · intro a i b hl
      rw [hlinks, htables]
      exact hg.table a i b hl
    · intro a i b hl
      exact hg.target a i b ((hlinks a i b).mp hl)
    · intro a i hp
      rw [hold a i hp]
      exact hg.page a i hp
    · rw [hplaced]
      exact hg.placed
    · rw [hplaced]
      exact hg.new
    · rw [hframes]
      exact hg.taken
  · intro a i hT'
    rcases hunused a i hT' with hT | ⟨rfl, rfl⟩
    · exact h.unused a i hT
    · exact hno
  · intro a i hpage hT'
    obtain ⟨h1, h2, heq⟩ := hnew a i hpage hT'
    rw [heq, hframes]
    exact h.frame a i h1 h2
  · intro a i b j hpage hT' hpage' hT'' hsame
    obtain ⟨h1, h2, heq⟩ := hnew a i hpage hT'
    obtain ⟨h3, h4, heq'⟩ := hnew b j hpage' hT''
    rw [heq, heq'] at hsame
    exact h.apart a i b j h1 h2 h3 h4 hsame
  · intro a i b hl
    rw [htables, hplaced]
    exact h.agrees a i b ((hlinks a i b).mp hl)
  · intro a ha hout
    obtain ⟨h1, h2⟩ := h.outside a ha hout
    have hne : a ≠ t := by
      rintro rfl
      exact hout (h.grows.inWindow hs ha hw)
    rw [htables]
    refine ⟨h1, ?_⟩
    rw [← h2]
    funext i
    exact hother a i (fun hslot => hne hslot.1)
  · rw [hrest]
    exact h.directories
  · rw [hrest]
    exact h.active
  · rw [hrest]
    exact h.heap_end

/-! ## One page, mapped and unmapped -/

theorem turns_page : turns PAGE_SIZE = 1 := by decide

/-- What `mmu_map_frames` does: it searches, and then it maps. -/
theorem mmu_map_frames.parts (h : Sound W dirs s) (fuel src length : Nat) :
    Spec (mmu_map_frames fuel s src length) anyhow (fun r => ∃ c s1, r.1 = window c ∧
      c + turns length ≤ WINDOW ∧ Searched W dirs s s1 ∧ Sound W dirs r.2 ∧
      Maps W s1 r.2 c (turns length) src) := by
  unfold mmu_map_frames
  refine spec_bind (mmu_find_free_virtual_region.spec (opens_allocate_pt fuel) h fuel length) ?_
  rintro ⟨_, s1⟩ ⟨c, rfl, -, hfound⟩
  dsimp only at hfound ⊢
  have h1 := hfound.searched.sound
  have hbelow := below_window h1 hfound.below
  have hidle : Idle W dirs anyhow (allocate_pt fuel) := idle_allocate_pt fuel (Or.inl trivial)
  refine spec_bind (map_covered hidle h1 (fun k hk => hfound.below _ (by omega)) hbelow
    (Or.inl trivial)) ?_
  rintro s2 ⟨h2, hmaps⟩
  exact ⟨c, s1, rfl, hbelow, hfound.searched, h2, hmaps⟩

/-- The word of the page `c` of the window. -/
def WordOf (s : Mmu) (W c a i : Nat) : Prop := a = pt_of s W (c / 512) ∧ i = c % 512

theorem Covered.inWindow (h : Covered s W q) : InWindow s W (pt_of s W q) :=
  Or.inr (Or.inr ⟨_, _, _, h.links.1, h.links.2⟩)

/-- A page is mapped for a while. -/
theorem Near.maps (h : Near W dirs T s s') (hs : Sound W dirs s) (hm : Maps W s' s'' c 1 p)
    (hs'' : Sound W dirs s'') :
    Near W dirs (fun a i => T a i ∨ WordOf s' W c a i) s s'' := by
  have hc : Covered s' W (c / 512) := hm.covered 0 Nat.one_pos
  have hunmapped : ¬ Mapped s' W c := hm.unmapped 0 Nat.one_pos
  refine h.word (t := pt_of s' W (c / 512)) (k := c % 512) hs hs'' hm.rest hc.inWindow ?_ ?_
    (fun a i hT => hT) ?_
  · intro hp
    apply hunmapped
    unfold Mapped
    rw [page_of_covered hc, h.grows.page _ _ hp]
    exact hp
  · intro a i hslot
    apply hm.other
    intro k hk
    obtain rfl : k = 0 := by omega
    exact hslot
  · intro a i hT _
    exact ⟨fun h1 => hT (Or.inl h1), fun h1 => hT (Or.inr h1)⟩

/-- And it is unmapped. -/
theorem Near.unmaps (h : Near W dirs T s s') (hs : Sound W dirs s)
    (hw : Writes W s' s'' c 1 (fun _ => 0)) (hs'' : Sound W dirs s'')
    (hT : T (pt_of s' W (c / 512)) (c % 512)) :
    Near W dirs (fun a i => T a i ∧ ¬ WordOf s' W c a i) s s'' := by
  have hc : Covered s' W (c / 512) := hw.covered 0 Nat.one_pos
  have hother : ∀ a i, ¬ (a = pt_of s' W (c / 512) ∧ i = c % 512) → s''.pts a i = s'.pts a i := by
    intro a i hslot
    apply hw.other
    intro k hk
    obtain rfl : k = 0 := by omega
    exact hslot
  refine h.word (t := pt_of s' W (c / 512)) (k := c % 512) hs hs'' hw.rest hc.inWindow
    (h.unused _ _ hT) hother (fun a i h1 => Or.inl h1.1) ?_
  intro a i hno hp
  have hslot : ¬ (a = pt_of s' W (c / 512) ∧ i = c % 512) := by
    rintro ⟨rfl, rfl⟩
    have hzero : s''.pts (pt_of s' W (c / 512)) (c % 512) = 0 := hw.word 0 Nat.one_pos
    rw [hzero] at hp
    exact not_present_zero hp
  exact ⟨fun h1 => hno ⟨h1, hslot⟩, hslot⟩

theorem Maps.shows (h : Sound W dirs s) (hm : Maps W s s' c n p) (hk : k < n) :
    Mapped s' W (c + k) ∧ ¬ IsTable s' (window (c + k)) := by
  constructor
  · unfold Mapped
    rw [hm.page_in hk]
    exact present_or _ _ rfl
  · have hno := not_table_of_unmapped h (hm.unmapped k hk)
    unfold IsTable at hno ⊢
    rw [hm.rest]
    exact hno

theorem near_ram (h : Near W dirs T s s') (ram : Mem) :
    Near W dirs T s { s' with ram } where
  sound := sound_ram h.sound ram s'.seed
  grows := ⟨h.grows.table, h.grows.target, h.grows.page, h.grows.placed, h.grows.new, h.grows.taken⟩
  unused := h.unused
  frame := h.frame
  apart := h.apart
  agrees := h.agrees
  outside := h.outside
  directories := h.directories
  active := h.active
  heap_end := h.heap_end

theorem unmaps_one (h : Sound W dirs s) (hc : c < WINDOW) (hm : Mapped s W c)
    (hno : ¬ IsTable s (window c)) :
    Spec (mmu_unmap_frames s (window c) PAGE_SIZE) anyhow
      (fun s' => Sound W dirs s' ∧ Writes W s s' c 1 (fun _ => 0)) := by
  have hspec : Spec (mmu_unmap_frames s (window c) PAGE_SIZE) (fun _ => False)
      (fun s' => Sound W dirs s' ∧ Writes W s s' c (turns PAGE_SIZE) (fun _ => 0)) := by
    apply mmu_unmap_frames.spec h
    · rw [turns_page]
      exact hc
    · intro k hk
      rw [turns_page] at hk
      obtain rfl : k = 0 := by omega
      exact ⟨hm, hno⟩
  rw [turns_page] at hspec
  exact spec_mono hspec (fun _ hF => hF.elim) (fun _ hpost => hpost)

/-- The two pages that `copy_frame` maps are gone in the end, and the frame is copied. -/
theorem copy_frame.spec (h : Sound W dirs s) (fuel physical_dst physical_src : Nat) :
    Spec (copy_frame fuel s physical_dst physical_src) anyhow (fun s' =>
      Builds W dirs s s' ∧ Agrees s s' ∧
        s'.ram = memcpy s.ram (page_base physical_dst) (page_base physical_src) PAGE_SIZE) := by
  unfold copy_frame
  refine spec_bind (mmu_map_frames.parts h fuel physical_dst PAGE_SIZE) ?_
  rintro ⟨_, s2⟩ ⟨c1, s1, rfl, hc1, hs1, h2, hm1⟩
  rw [turns_page] at hc1 hm1
  dsimp only at hm1 h2 ⊢
  refine spec_bind (mmu_map_frames.parts h2 fuel physical_src PAGE_SIZE) ?_
  rintro ⟨_, s4⟩ ⟨c2, s3, rfl, hc2, hs3, h4, hm2⟩
  rw [turns_page] at hc2 hm2
  dsimp only at hm2 h4 ⊢
  by_cases hdst : page_base physical_dst = (mmu_virtual_to_physical s4 (window c1)).getD 0
  swap
  · rw [assert_fails hdst]
    trivial
  rw [assert_of hdst, ok_bind]
  by_cases hsrc : page_base physical_src = (mmu_virtual_to_physical s4 (window c2)).getD 0
  swap
  · rw [assert_fails hsrc]
    trivial
  rw [assert_of hsrc, ok_bind, ← hdst, ← hsrc]
  have hram : s4.ram = s.ram := by
    rw [hm2.rest]
    refine hs3.quiet.ram.trans ?_
    rw [hm1.rest]
    exact hs1.quiet.ram
  rw [hram]
  generalize memcpy s.ram (page_base physical_dst) (page_base physical_src) PAGE_SIZE = ram
  -- both pages are mapped, and no table is there
  obtain ⟨hmap1, hno1⟩ := hm1.shows hs1.sound Nat.one_pos
  obtain ⟨hmap2, hno2⟩ := hm2.shows hs3.sound Nat.one_pos
  rw [Nat.add_zero] at hmap1 hno1 hmap2 hno2
  have hmap1' := hs3.makes.grows.mapped hmap1
  have hno1' := hs3.makes.grows.not_table hmap1 hno1
  have hne : c1 ≠ c2 := by
    rintro rfl
    exact hm2.unmapped 0 Nat.one_pos hmap1'
  have hnear := ((((near_refl h).searched hs1 h).maps h hm1 h2).searched hs3 h).maps h hm2 h4
  have hnear5 := near_ram hnear ram
  obtain ⟨s5, hs5⟩ : ∃ s5, s5 = { s4 with ram } := ⟨_, rfl⟩
  rw [← hs5] at hnear5 ⊢
  have hpt1 : pt_of s5 W (c1 / 512) = pt_of s1 W (c1 / 512) := by
    have hc : Covered s2 W (c1 / 512) := hmap1.covered
    rw [hs5]
    exact hm2.pt_of_eq.trans ((hs3.makes.grows.covered hc).2.trans hm1.pt_of_eq)
  have hpt2 : pt_of s5 W (c2 / 512) = pt_of s3 W (c2 / 512) := by
    rw [hs5]
    exact hm2.pt_of_eq
  have hmap1'' : Mapped s5 W c1 := by
    rw [hs5]
    exact hm2.grows.mapped hmap1'
  have hno1'' : ¬ IsTable s5 (window c1) := by
    rw [hs5]
    exact hm2.grows.not_table hmap1' hno1'
  have hmap2' : Mapped s5 W c2 := by
    rw [hs5]
    exact hmap2
  have hno2' : ¬ IsTable s5 (window c2) := by
    rw [hs5]
    exact hno2
  refine spec_bind (unmaps_one hnear5.sound hc1 hmap1'' hno1'') ?_
  rintro s6 ⟨h6, hw1⟩
  have hnear6 := hnear5.unmaps h hw1 h6 (Or.inl (Or.inr ⟨hpt1, rfl⟩))
  have hmap2'' : Mapped s6 W c2 := by
    unfold Mapped
    rw [hw1.page_out hnear5.sound (by omega)]
    exact hmap2'
  have hno2'' : ¬ IsTable s6 (window c2) := by
    unfold IsTable at hno2' ⊢
    rw [hw1.rest]
    exact hno2'
  refine spec_post (unmaps_one h6 hc2 hmap2'' hno2'') ?_
  rintro s7 ⟨h7, hw2⟩
  have hpt2' : pt_of s6 W (c2 / 512) = pt_of s3 W (c2 / 512) := hw1.pt_of_eq.trans hpt2
  have hne' : ¬ WordOf s5 W c1 (pt_of s6 W (c2 / 512)) (c2 % 512) := by
    rintro ⟨hpt, hi⟩
    rw [hw1.pt_of_eq] at hpt
    exact hne (page_slot_inj hnear5.sound hmap1''.covered hmap2'.covered hpt.symm hi.symm)
  have hnear7 := hnear6.unmaps h hw2 h7 ⟨Or.inr ⟨hpt2', rfl⟩, hne'⟩
  refine ⟨hnear7.builds ?_, hnear7.agrees, ?_⟩
  · rintro a i ⟨⟨(hF | hT) | hT, h1⟩, h2⟩
    · exact hF
    · exact h1 ⟨hT.1.trans hpt1.symm, hT.2⟩
    · exact h2 ⟨hT.1.trans hpt2'.symm, hT.2⟩
  · rw [hw2.rest]
    dsimp only
    rw [hw1.rest]
    dsimp only
    rw [hs5]

end salsola.mmu
