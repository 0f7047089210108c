-- What mmu_clone_directory does: a new directory whose slots 0 to 510 are copies, and whose slot
-- 511 is the one of the original.
import Salsola.MmuClone

open memory outcome runs

namespace salsola.mmu

variable {W : Nat} {dirs : List Nat} {s0 s s' s'' s1 s4 : Mmu}
variable {a b c d d' e i j n p t : Nat} {fuel : Nat} {D : Nat → Nat → Prop}

/-! ## A new directory -/

theorem sound_directories (h : Sound W dirs s) {directories : Nat → Directory}
    (hsame : ∀ d ∈ dirs, directories d = s.directories d) :
    Sound W dirs { s with directories } where
  active := h.active
  roots d hd := by
    unfold root
    dsimp only
    rw [hsame d hd]
    exact h.roots d hd
  home p a hp :=
    { aligned := (h.home p a hp).aligned
      below := (h.home p a hp).below
      taken := (h.home p a hp).taken
      at_page := (h.home p a hp).at_page }
  links := h.links
  pages := h.pages
  tree a i b j c hl hl' := by
    have hroot : ∀ t, (∃ d ∈ dirs, root s d = t) → ∃ d ∈ dirs, (directories d).pml4t = t := by
      rintro t ⟨d, hd, heq⟩
      refine ⟨d, hd, ?_⟩
      rw [hsame d hd]
      exact heq
    exact (h.tree a i b j c hl hl').imp_right
      (fun ⟨h1, h2, h3, h4⟩ => ⟨h1, h2, hroot a h3, hroot b h4⟩)
  unrooted a i d hd hl := by
    apply h.unrooted a i d hd
    unfold root at hl ⊢
    dsimp only at hl
    rw [hsame d hd] at hl
    exact hl
  heap := h.heap
  zero := h.zero

theorem builds_directories {directories : Nat → Directory} (h : Builds W dirs s s')
    (hsame : ∀ d ∈ dirs, directories d = s.directories d) :
    Builds W dirs { s with directories } { s' with directories } where
  sound := sound_directories h.sound (fun d hd => by rw [h.directories]; exact hsame d hd)
  grows := ⟨h.grows.table, h.grows.target, h.grows.page, h.grows.placed, h.grows.new, h.grows.taken⟩
  fresh := ⟨h.fresh.frame, h.fresh.apart⟩
  outside := h.outside
  directories := rfl
  active := h.active
  heap_end := h.heap_end
  window := h.window

theorem begun_directories {directories : Nat → Directory} (h : Begun W dirs s t p s')
    (hsame : ∀ d ∈ dirs, directories d = s.directories d) :
    Begun W dirs { s with directories } t p { s' with directories } where
  builds := builds_directories h.builds hsame
  kept := h.kept
  fresh := h.fresh
  placed := h.placed
  aligned := h.aligned
  unlinked := h.unlinked

/-- The slot 511 makes a root of a table that nothing points to. -/
theorem sound_root (h : Sound W dirs s) (hplaced : s.placed (s.directories d).physical =
      some (root s d)) (hheap : d < s.heap_end) (hun : ∀ a i, ¬ Links s a i (root s d))
    (hne : root s d ≠ W) (hno : ¬ present ((s.tables (root s d)).physical 511)) (he : present e) :
    Sound W (d :: dirs) (s.set_entry (root s d) 511 e W) where
  active := List.mem_cons_of_mem d h.active
  roots d' hd' := by
    rcases List.mem_cons.mp hd' with rfl | hd'
    · exact ⟨hheap, (links_self he).mpr rfl, hplaced⟩
    · obtain ⟨h1, h2, h3⟩ := h.roots d' hd'
      exact ⟨h1, links_of_link hno h2, h3⟩
  home p b hp := home_link hno (h.home p b hp)
  links a i b hl := by
    have hwindow : IsTable s W := isTable_window h
    rcases link_cases hl with ⟨rfl, -, rfl⟩ | ⟨-, h1⟩
    · exact ⟨⟨_, hplaced⟩, hwindow⟩
    · exact h.links a i b h1
  pages := h.pages
  tree a i b j c hl hl' := by
    have hold : ∀ a i, Links s a i W → i = 511 ∧ ∃ d' ∈ d :: dirs, root s d' = a := by
      intro a i hl
      obtain ⟨hi, d', hd', hr⟩ := window_links h h.active hl
      exact ⟨hi, d', List.mem_cons_of_mem d hd', hr⟩
    rcases link_cases hl with ⟨rfl, rfl, rfl⟩ | ⟨-, h1⟩ <;>
      rcases link_cases hl' with ⟨rfl, rfl, h2⟩ | ⟨-, h2⟩
    · exact Or.inl ⟨rfl, rfl⟩
    · obtain ⟨hj, hb⟩ := hold _ _ h2
      exact Or.inr ⟨rfl, hj, ⟨d, List.mem_cons_self, rfl⟩, hb⟩
    · subst h2
      obtain ⟨hi, ha⟩ := hold _ _ h1
      exact Or.inr ⟨hi, rfl, ha, ⟨d, List.mem_cons_self, rfl⟩⟩
    · refine (h.tree a i b j c h1 h2).imp_right ?_
      rintro ⟨hi, hj, ⟨d1, hd1, hr1⟩, ⟨d2, hd2, hr2⟩⟩
      exact ⟨hi, hj, ⟨d1, List.mem_cons_of_mem d hd1, hr1⟩, ⟨d2, List.mem_cons_of_mem d hd2, hr2⟩⟩
  unrooted a i d' hd' hl := by
    change Links _ a i (root s d') at hl
    rcases List.mem_cons.mp hd' with rfl | hd'
    · rcases link_cases hl with ⟨-, -, heq⟩ | ⟨-, h1⟩
      · exact hne heq
      · exact hun a i h1
    · rcases link_cases hl with ⟨-, -, heq⟩ | ⟨-, h1⟩
      · exact window_not_root h hd' heq
      · exact h.unrooted a i d' hd' h1
  heap := by
    obtain ⟨t, ht, hq⟩ := h.heap
    exact ⟨t, ht, fun q hlt => (covered_of_link hno (hq q hlt)).1⟩
  zero := h.zero

/-! ## mmu_clone_directory -/

/-- The physical entries name the tables that the pointers lead to. -/
def Agreed (s : Mmu) : Prop :=
  ∀ a i b, Links s a i b → s.placed (page_base ((s.tables a).physical i)) = some b

theorem Agreed.grows (h : Agreed s) (hg : Grows W s s') (ha : Agrees s s') : Agreed s' := by
  intro a i b hl
  rcases ha a i b hl with h1 | h1
  · rw [(hg.table a i b h1).2]
    exact hg.placed _ _ (h a i b h1)
  · exact h1

/-- In the slot 511 they do so in all address spaces. -/
structure WindowAgreed (W : Nat) (dirs : List Nat) (s : Mmu) : Prop where
  slot : ∀ d ∈ dirs, s.placed (page_base ((s.tables (root s d)).physical 511)) = some W
  table : ∀ a i b, InWindow s W a → Links s a i b →
    s.placed (page_base ((s.tables a).physical i)) = some b

theorem WindowAgreed.grows (h : WindowAgreed W dirs s) (hs : Sound W dirs s) (hg : Grows W s s')
    (ha : AgreesIn W s s') (hd : s'.directories = s.directories) : WindowAgreed W dirs s' where
  slot d hdir := by
    have hroot : root s' d = root s d := by
      unfold root
      rw [hd]
    rw [hroot, (hg.table _ _ _ (hs.roots d hdir).2.1).2]
    exact hg.placed _ _ (h.slot d hdir)
  table a i b hin hl := by
    rcases ha a i b hin hl with h1 | h1
    · rw [(hg.table a i b h1).2]
      exact hg.placed _ _ (h.table a i b (hg.inWindow hs (hs.links _ _ _ h1).1 hin) h1)
    · exact h1

/-- No PDPT under the slots 0 to 510 of the PML4T `a` has an entry. -/
def NoPdt (s : Mmu) (a : Nat) : Prop :=
  ∀ i, i < 511 → present ((s.tables a).physical i) → Empty s ((s.tables a).next i)

/-- What `mmu_clone_directory` leaves, with the new directory `d'` for the directory `d`. -/
structure ClonedDirectory (W : Nat) (dirs : List Nat) (s : Mmu) (d d' : Nat) (s' : Mmu) :
    Prop where
  new : d' ∉ dirs
  sound : Sound W (d' :: dirs) s'
  outside : Outside W s s'
  fresh : Fresh s s'
  page : ∀ a i, present (s.pts a i) → s'.pts a i = s.pts a i
  taken : ∀ f, taken s.frames f → taken s'.frames f
  kept : Kept s s'
  covered : ∀ q, Covered s W q → Covered s' W q ∧ pt_of s' W q = pt_of s W q
  tables : ∀ x, Mapped s W x → ¬ IsTable s (window x) → ¬ IsTable s' (window x)
  others : ∀ d ∈ dirs, s'.directories d = s.directories d
  active : s'.active_directory = s.active_directory
  root_new : ¬ IsTable s (root s' d')
  target : ∀ a i b, Links s' a i b → Links s a i b ∨ ¬ IsTable s b ∨ (a = root s' d' ∧ i = 511)
  copied : ∀ i, i < 511 → CopiedEntry (Copies 2) s' (root s d) (root s' d') i
  shared : (s'.tables (root s' d')).physical 511 = (s.tables (root s d)).physical 511 ∧
    (s'.tables (root s' d')).next 511 = (s.tables (root s d)).next 511
  agrees : NoPdt s (root s d) → Agreed s → Agreed s'
  walk : WindowAgreed W dirs s → WindowAgreed W (d' :: dirs) s'

theorem Begun.keeps {directories : Nat → Directory} (h : Sound W dirs s) (hlocal : Local W s s1)
    (hbegun : Begun W dirs { s1 with directories } t p s4) (ha : IsTable s a)
    (hin : ¬ InWindow s W a) : s4.tables a = s.tables a ∧ s4.pts a = s.pts a ∧ a ≠ t := by
  have ha1 := hlocal.grows.isTable ha
  have hin1 : ¬ InWindow s1 W a := fun h1 => hin (hlocal.grows.inWindow h ha h1)
  obtain ⟨h1, h2⟩ := hlocal.outside a ha hin
  obtain ⟨h3, h4⟩ := hbegun.builds.outside a ha1 hin1
  refine ⟨h3.trans h1, h4.trans h2, ?_⟩
  rintro rfl
  exact hbegun.fresh ha1

theorem Begun.grown {directories : Nat → Directory}
    (hbegun : Begun W dirs { s1 with directories } t p s4) : Grows W s1 s4 := by
  have hg := hbegun.builds.grows
  exact ⟨hg.table, hg.target, hg.page, hg.placed, hg.new, hg.taken⟩

/-- Without PDTs to copy, the clone keeps the entries and the pointers together. -/
theorem Begun.agreed {directories : Nat → Directory} (h : Sound W dirs s) (hd : d ∈ dirs)
    (hlocal : Local W s s1) (hbegun : Begun W dirs { s1 with directories } t p s4)
    (hagrees : NoPdt s1 (root s d) → Agrees s1 s4) (hnone : NoPdt s (root s d))
    (hagreed : Agreed s) :
    Agreed (s4.set_entry t 511 ((s.tables (root s d)).physical 511) W) := by
  intro a i b hl
  have hempty : NoPdt s1 (root s d) := by
    have hroot1 := (hlocal.outside _ (root_table h hd) (root_outside h hd)).1
    intro i hi hp j hj
    rw [hroot1] at hp ⊢
    have hbelow := below_of_link h (links_next hp) (root_outside h hd) (Or.inl (by omega))
    rw [(hlocal.outside _ hbelow.table hbelow.outside).1]
    exact hnone i hi hp j hj
  have hagreed4 := (hagreed.grows hlocal.grows hlocal.agrees).grows hbegun.grown (hagrees hempty)
  rcases link_cases hl with ⟨rfl, rfl, rfl⟩ | ⟨hslot, h1⟩
  · rw [set_entry_self.1]
    exact (hlocal.grows.trans hbegun.grown).placed _ _ (hagreed _ _ _ (h.roots d hd).2.1)
  · rw [(set_entry_other hslot).1]
    exact hagreed4 a i b h1

/-- The window that the clone shares is the one that the entries of the old directories name. -/
theorem Begun.walks {directories : Nat → Directory} (h : Sound W dirs s) (hd : d ∈ dirs)
    (hlocal : Local W s s1) (hs1 : Sound W dirs s1)
    (hsame : ∀ x ∈ dirs, directories x = s1.directories x) (hroot : root s4 d' = t)
    (hbegun : Begun W dirs { s1 with directories } t p s4) (hwalk : WindowAgreed W dirs s) :
    WindowAgreed W (d' :: dirs)
      (s4.set_entry t 511 ((s.tables (root s d)).physical 511) W) := by
  have hg1 := hbegun.grown
  have houtside : ¬ InWindow s4 W t := hbegun.outside (sound_directories hs1 hsame)
  have hwalk1 := hwalk.grows h hlocal.grows hlocal.agrees.inWindow hlocal.directories
  refine ⟨fun x hx => ?_, fun a i b hin hl => ?_⟩
  · change s4.placed (page_base ((Mmu.tables _ (root s4 x)).physical 511)) = some W
    rcases List.mem_cons.mp hx with rfl | hx
    · rw [hroot, set_entry_self.1]
      exact (hlocal.grows.trans hg1).placed _ _ (hwalk.slot d hd)
    · have hrootx : root s4 x = root s x := by
        unfold root
        rw [hbegun.builds.directories]
        dsimp only
        rw [hsame x hx, hlocal.directories]
      obtain ⟨hsamex, -, hnex⟩ := hbegun.keeps h hlocal (root_table h hx) (root_outside h hx)
      rw [hrootx, (set_entry_other (fun hslot => hnex hslot.1)).1, hsamex]
      exact (hlocal.grows.trans hg1).placed _ _ (hwalk.slot x hx)
  · have hin4 := inWindow_of_link houtside hin
    have hslot : ¬ (a = t ∧ i = 511) := by
      rintro ⟨rfl, -⟩
      exact houtside hin4
    have hl4 := (links_other hslot).mp hl
    rw [(set_entry_other hslot).1]
    rcases hbegun.builds.window a i b hin4 hl4 with h1 | h1
    · rw [(hg1.table a i b h1).2]
      exact hg1.placed _ _
        (hwalk1.table a i b (hg1.inWindow hs1 (hs1.links _ _ _ h1).1 hin4) h1)
    · exact h1

/-- The end of the call: the loop has filled the slots, and the slot 511 is shared. -/
theorem cloned_directory (h : Sound W dirs s) (hd : d ∈ dirs) (hnew : d' ∉ dirs)
    (hlocal : Local W s s1) (hkept : Kept s s1) (hs1 : Sound W dirs s1) (hheap : d' < s1.heap_end)
    {directories : Nat → Directory} (hsame : ∀ x ∈ dirs, directories x = s1.directories x)
    (hdir : directories d' = { pml4t := t, physical := p })
    (hbegun : Begun W dirs { s1 with directories } t p s4)
    (hcopied : ∀ i, i < 511 → CopiedEntry (Copies 2) s4 (root s d) t i)
    (hno : ¬ present ((s4.tables t).physical 511))
    (hagrees : NoPdt s1 (root s d) → Agrees s1 s4) :
    ClonedDirectory W dirs s d d' (s4.set_entry t 511 ((s4.tables (root s d)).physical 511)
      ((s4.tables (root s d)).next 511)) := by
  have hg1 := hbegun.grown
  have hf1 : Fresh s1 s4 := ⟨hbegun.builds.fresh.frame, hbegun.builds.fresh.apart⟩
  have hg := hlocal.grows.trans hg1
  obtain ⟨hroot, -, hne⟩ := hbegun.keeps h hlocal (root_table h hd) (root_outside h hd)
  have hlink := (h.roots d hd).2.1
  have hdirectories : s4.directories = directories := hbegun.builds.directories
  have hdir' : s4.directories d' = { pml4t := t, physical := p } := by
    rw [hdirectories]
    exact hdir
  have hroot' : root s4 d' = t := by
    unfold root
    rw [hdir']
  have hwindow : IsTable s1 W := isTable_window hs1
  have htW : t ≠ W := by
    rintro rfl
    exact hbegun.fresh hwindow
  have hnot : ¬ IsTable s t := fun ht => hbegun.fresh (hlocal.grows.isTable ht)
  rw [hroot, hlink.2]
  refine ⟨hnew, ?_, ?_, fresh_link (hlocal.fresh.trans hf1 hlocal.grows hg1), hg.page, hg.taken,
    ?_, ?_, ?_, ?_, ?_, ?_, ?_, ?_, ?_, ?_, ?_⟩
  · have hsound := sound_root (d := d') (e := (((s.tables (root s d)).physical 511)))
      hbegun.builds.sound (by rw [hdir', hroot']; exact hbegun.placed)
      (by rw [hbegun.builds.heap_end]; exact hheap) (by rw [hroot']; exact hbegun.unlinked)
      (by rw [hroot']; exact htW) (by rw [hroot']; exact hno) hlink.1
    rw [hroot'] at hsound
    exact hsound
  · intro a ha hin
    obtain ⟨h1, h2, h3⟩ := hbegun.keeps h hlocal ha hin
    exact ⟨(if_neg h3).trans h1, h2⟩
  · exact hkept.trans (fun x hx => hbegun.kept x hx) hlocal.grows.taken
  · intro q hq
    obtain ⟨h1, h2⟩ := hg.covered hq
    obtain ⟨h3, h4⟩ := covered_of_link hno h1
    exact ⟨h3, h4.trans h2⟩
  · intro x hm hx
    exact hg.not_table hm hx
  · intro x hx
    exact (congrFun hdirectories x).trans ((hsame x hx).trans (congrFun hlocal.directories x))
  · exact hbegun.builds.active.trans hlocal.active
  · change ¬ IsTable s (root s4 d')
    rw [hroot']
    exact hnot
  · intro a i b hl
    change Links s a i b ∨ ¬ IsTable s b ∨ (a = root s4 d' ∧ i = 511)
    rw [hroot']
    rcases link_cases hl with ⟨ha, hi, -⟩ | ⟨-, h1⟩
    · exact Or.inr (Or.inr ⟨ha, hi⟩)
    · exact (hg.target a i b h1).imp_right Or.inl
  · intro i hi
    change CopiedEntry (Copies 2) _ (root s d) (root s4 d') i
    rw [hroot']
    exact (hcopied i hi).link hne (by omega) hbegun.unlinked
  · change ((_ : Mmu).tables (root s4 d')).physical 511 = _ ∧
      ((_ : Mmu).tables (root s4 d')).next 511 = _
    rw [hroot', set_entry_self.1, set_entry_self.2]
    exact ⟨rfl, hlink.2.symm⟩
  · exact hbegun.agreed h hd hlocal hagrees
  · exact hbegun.walks h hd hlocal hs1 hsame hroot'

theorem mmu_clone_directory.spec (h : Sound W dirs s) (hback : Backed W D s) (hd : d ∈ dirs)
    (fuel : Nat) :
    Spec (mmu_clone_directory fuel s d) anyhow (fun r => ClonedDirectory W dirs s d r.1 r.2) := by
  unfold mmu_clone_directory
  obtain ⟨m, hm⟩ : ∃ m, m = 511 := ⟨_, rfl⟩
  rw [← hm]
  unfold ksbrk
  rw [bind_assoc]
  refine spec_bind (ksbrk_physical.extends h fuel SIZEOF_DIRECTORY) ?_
  rintro ⟨d', phys, s1⟩ ⟨hext, hheap, hkept⟩
  dsimp only at hext hheap hkept ⊢
  rw [ok_bind]
  dsimp only
  have hbehind := hheap (by decide)
  obtain ⟨c, rfl, hend, -⟩ := hext.region (by decide)
  have hs1 := hext.sound
  have hnew : window c ∉ dirs := by
    intro hmem
    have := (h.roots _ hmem).1
    omega
  refine spec_bind (safe_allocation.spec (opens_allocate_pt fuel) hs1 fuel 2) ?_
  rintro ⟨t, p, s2⟩ hsafe
  dsimp only at hsafe ⊢
  have hbegun2 := begun_of_safe hsafe
  obtain ⟨directories, hdirs⟩ : ∃ directories, directories = fun x =>
      if x = window c then ({ pml4t := t, physical := p } : Directory) else s2.directories x :=
    ⟨_, rfl⟩
  rw [← hdirs]
  have hsame : ∀ x ∈ dirs, directories x = s1.directories x := by
    intro x hx
    have hne : x ≠ window c := by
      rintro rfl
      exact hnew hx
    rw [hdirs]
    exact (if_neg hne).trans (congrFun hbegun2.builds.directories x)
  have hbegun3 := begun_directories hbegun2 hsame
  have hne : d ≠ window c := by
    rintro rfl
    exact hnew hd
  have horig : (if d = window c then ({ pml4t := t, physical := p } : Directory)
      else s2.directories d).pml4t = root s d := by
    rw [if_neg hne, hbegun2.builds.directories, hext.makes.directories]
    rfl
  rw [horig]
  have hrootd : root s1 d = root s d := by
    unfold root
    rw [hext.makes.directories]
  have hempty : ∀ i, ¬ present ((s2.tables t).physical i) := by
    intro i
    rw [hsafe.new.tables]
    exact not_present_zero
  have hback1 : Backed W D s1 := hback.fresh hext.makes.grows hext.makes.fresh
  refine spec_bind (clone_entries.spec (clone_pdpt.spec fuel) steady_empty present_low_flags
    (sound_directories hs1 hsame) ⟨hback1.frame, hback1.window⟩
    ⟨hrootd ▸ root_table hs1 hd, hrootd ▸ root_outside hs1 hd⟩ hbegun3 hempty m
    (fun i hi => Or.inl (by omega))) ?_
  rintro s4 ⟨h4, hcopied, hrest, hag⟩
  rw [hm]
  refine cloned_directory h hd hnew hext.makes hkept hs1 ?_ hsame ?_ h4
    (fun i hi => hcopied i (by omega)) (hrest 511 (by omega)) (fun hno => ?_)
  · rw [hend]
    unfold window
    rw [show turns SIZEOF_DIRECTORY = 1 from rfl]
    omega
  · rw [hdirs]
    exact if_pos rfl
  · exact hag hsafe.searched.makes.agrees
      (fun i hi hp => ⟨low_flags_lt _, hno i (by omega) hp⟩)

end salsola.mmu
