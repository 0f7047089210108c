-- Memory of the kernel that no device has: each request leaves its pages where they are, and
-- each request but a store leaves its bytes as they are.
import Salsola.MmuMemory

open memory outcome runs

namespace salsola.mmu

variable {W : Nat} {dirs : List Nat} {live usable : Nat → Prop} {s s' : Mmu} {w w' : Spaces}
variable {a c d d' k n p x y fuel length : Nat} {boot : Boot} {request : Request}

/-! ## One page -/

/-- A page of the window that is mapped, and that neither a device has nor a table. -/
def Holds (W : Nat) (live : Nat → Prop) (s : Mmu) (x : Nat) : Prop :=
  x < WINDOW ∧ Mapped s W x ∧ ¬ live (window x) ∧ ¬ IsTable s (window x)

/-- A page stays where the words and the page tables of the window stay. -/
theorem page_stays (hm : Mapped s W x)
    (hpage : ∀ a i, present (s.pts a i) → s'.pts a i = s.pts a i)
    (hcov : ∀ q, Covered s W q → Covered s' W q ∧ pt_of s' W q = pt_of s W q) :
    page s' W x = page s W x := by
  have hcovered := hm.covered
  obtain ⟨hc, hpt⟩ := hcov _ hcovered
  unfold Mapped at hm
  rw [page_of_covered hcovered] at hm ⊢
  rw [page_of_covered hc, hpt]
  exact hpage _ _ hm

theorem Holds.no_device (h : Holds W live s x) (hs : Spaced W dirs live usable s) :
    ¬ Device W live s (pt_of s W (x / 512)) (x % 512) := by
  rintro ⟨y, hy, hpt, hi⟩
  obtain ⟨z, hyz, -, hm, -⟩ := hs.devices _ hy
  obtain rfl := window_inj hyz
  obtain rfl := page_slot_inj hs.sound h.2.1.covered hm.covered hpt hi
  exact h.2.2.1 hy

/-- The frame of the page is taken. -/
theorem Holds.taken (h : Holds W live s x) (hs : Spaced W dirs live usable s) :
    mmu.taken s.frames (page s W x / 0x1000) := by
  have hp := h.2.1
  unfold Mapped at hp
  rw [page_of_covered h.2.1.covered] at hp ⊢
  exact hs.backed.frame _ _ hp (h.no_device hs)

/-- Its frame holds no table. -/
theorem Holds.bare (h : Holds W live s x) (hs : Spaced W dirs live usable s) :
    s.placed (page_base (page s W x)) = none := by
  cases hplaced : s.placed (page_base (page s W x)) with
  | none => rfl
  | some t =>
    obtain ⟨y, hy, rfl, hm, hbase⟩ := (hs.sound.home _ _ hplaced).at_page
    have hlive : ¬ live (window y) := hs.table_not_live hplaced
    have hp := h.2.1
    unfold Mapped at hm hp
    have hcx := h.2.1.covered
    have hcy : Covered s W (y / 512) := Mapped.covered hm
    have hsame : page s W x / 0x1000 = page s W y / 0x1000 := by
      unfold page_base at hbase
      omega
    rw [page_of_covered hcx] at hp hsame
    rw [page_of_covered hcy] at hm hsame
    have hdevice : ¬ Device W live s (pt_of s W (y / 512)) (y % 512) := by
      rintro ⟨z, hz, hpt, hi⟩
      obtain ⟨z', hzz, -, hmz, -⟩ := hs.devices _ hz
      obtain rfl := window_inj hzz
      obtain rfl := page_slot_inj hs.sound hcy hmz.covered hpt hi
      exact hlive hz
    obtain ⟨hpt, hi⟩ := hs.owned _ _ _ _ hp (h.no_device hs) hm hdevice hsame
    obtain rfl := page_slot_inj hs.sound hcx hcy hpt hi
    exact absurd ⟨_, hplaced⟩ h.2.2.2

theorem window_slot (hx : x < WINDOW) (ha : a / 0x1000 * 0x1000 = window x) :
    pml4t_index a = 511 := by
  have hlow : a = window x + a % 0x1000 := by omega
  have hindex : index 3 a = index 3 (window x) := by
    rw [hlow]
    exact index_low 3 (window_aligned x) (Nat.mod_lt _ (by decide))
  exact hindex.trans (pml4t_index_window hx)

/-- Each directory leads there. -/
theorem Holds.page_entry (h : Holds W live s x) (hs : Sound W dirs s) (hd : d ∈ dirs)
    (ha : a / 0x1000 * 0x1000 = window x) : page_entry s d a = some (page s W x) := by
  have hlow : a = window x + a % 0x1000 := by omega
  have hp := h.2.1
  unfold Mapped at hp
  rw [page_of_covered h.2.1.covered] at hp ⊢
  have hl := h.2.1.covered.links
  have hindex : ∀ level, level < 4 → index level a = index level (window x) := by
    intro level hlevel
    rw [hlow]
    exact index_low level (window_aligned x) (Nat.mod_lt _ (by decide))
  have h3 : pml4t_index a = pml4t_index (window x) := hindex 3 (by decide)
  have h2 : pdpt_index a = pdpt_index (window x) := hindex 2 (by decide)
  have h1 : pdt_index a = pdt_index (window x) := hindex 1 (by decide)
  have h0 : pt_index a = pt_index (window x) := hindex 0 (by decide)
  refine page_entry_eq_some.mpr ⟨pt_of s W (x / 512), ?_, ?_, hp⟩
  · rw [h3, h2, h1, pml4t_index_window h.1, pdpt_index_window h.1, pdt_index_window]
    exact ⟨_, _, (hs.roots d hd).2.1, hl.1, hl.2⟩
  · rw [h0, pt_index_window]

theorem Holds.not_in_device (h : Holds W live s x) (hs : Spaced W dirs live usable s)
    (ha : a / 0x1000 * 0x1000 = window x) : ¬ InDevice live a := by
  rintro ⟨v, hv, hpage⟩
  obtain ⟨y, rfl, hy, -⟩ := hs.devices v hv
  have hx := h.1
  obtain rfl : y = x := by
    unfold window KERNEL_VMA WINDOW at *
    omega
  exact h.2.2.1 hv

/-- In each address space the CPU finds its bytes. -/
theorem Holds.place (h : Holds W live s x) (hs : Spaced W dirs live usable s) (hd : d ∈ dirs)
    (ha : a / 0x1000 * 0x1000 = window x) :
    place s d a = some (page_base (page s W x) + a % 0x1000) :=
  (place_eq_some (hs.sound.roots d hd).2.2 (hs.named hd (window_slot h.1 ha))).mpr
    ⟨_, h.page_entry hs.sound hd ha, h.bare hs, rfl⟩

theorem Holds.load (h : Holds W live s x) (hs : Spaced W dirs live usable s) (hd : d ∈ dirs)
    (ha : a / 0x1000 * 0x1000 = window x) :
    load s d a = some (s.ram (page_base (page s W x) + a % 0x1000)) := by
  unfold mmu.load
  rw [h.place hs hd ha]
  rfl

/-- A directory and its PML4T lie below 2 ^ 64. -/
theorem Sound.directory_lt (h : Sound W dirs s) (hd : d ∈ dirs) :
    d < 2 ^ 64 ∧ (s.directories d).physical < 2 ^ 64 := by
  obtain ⟨hlt, -, hplaced⟩ := h.roots d hd
  obtain ⟨t, ht, hcov⟩ := h.heap
  have hle := coveredBelow_le h hcov
  have hbelow := (h.home _ _ hplaced).below
  unfold LIMIT NUM_OF_FRAMES at *
  unfold window KERNEL_VMA at ht
  omega

/-! ## One request -/

/-- No request takes the page away. -/
theorem Spaces.step_holds (h : Spaced W w.dirs w.live usable w.state) (hall : w.allowed request)
    (hstep : w.step request = .ok w') (hx : Holds W w.live w.state x) :
    Holds W w'.live w'.state x ∧ page w'.state W x = page w.state W x := by
  obtain ⟨hlt, hm, hlive, hbare⟩ := hx
  have hkeep : ∀ {s' : Mmu} {live' : Nat → Prop}, page s' W x = page w.state W x →
      ¬ live' (window x) → ¬ IsTable s' (window x) →
      Holds W live' s' x ∧ page s' W x = page w.state W x := by
    intro s' live' hpage hno hbare'
    refine ⟨⟨hlt, ?_, hno, hbare'⟩, hpage⟩
    unfold Mapped
    rw [hpage]
    exact hm
  cases request with
  | ksbrk fuel length =>
    obtain ⟨⟨_, state⟩, h1, h2⟩ := bind_eq_ok.mp hstep
    cases h2
    obtain ⟨⟨rc, phys, s1⟩, h3, h4⟩ := bind_eq_ok.mp h1
    cases h4
    have hg := (spec_of_ok (ksbrk_physical.spec h.sound fuel length) h3).makes.grows
    exact hkeep (hg.page_eq hm) hlive (hg.not_table hm hbare)
  | allocate_pt fuel i j k =>
    obtain ⟨⟨_, state⟩, h1, h2⟩ := bind_eq_ok.mp hstep
    cases h2
    obtain ⟨hmade, -⟩ := spec_of_ok (allocate_pt.spec h.sound fuel i j k) h1
    exact hkeep (hmade.makes.grows.page_eq hm) hlive (hmade.makes.grows.not_table hm hbare)
  | page fuel address =>
    obtain ⟨⟨_, _, state⟩, h1, h2⟩ := bind_eq_ok.mp hstep
    cases h2
    obtain ⟨-, hmakes, -⟩ := spec_of_ok (check_makes h.sound fuel address) h1
    exact hkeep (hmakes.grows.page_eq hm) hlive (hmakes.grows.not_table hm hbare)
  | map_frames fuel src length =>
    obtain ⟨⟨virtual, state⟩, h1, h2⟩ := bind_eq_ok.mp hstep
    cases h2
    obtain ⟨c, hv, hshown⟩ := spec_of_ok (mmu_map_frames.spec h.sound fuel src length) h1
    dsimp only at hv hshown
    refine hkeep (hshown.grows.page_eq hm) ?_ (hshown.grows.not_table hm hbare)
    rintro (hold | hregion)
    · exact hlive hold
    · rw [hv] at hregion
      obtain ⟨k, hk, heq⟩ := region_window.mp hregion
      obtain rfl := window_inj heq
      exact (hshown.pages k hk).1 hm
  | unmap_frames virtual length =>
    obtain ⟨state, h1, h2⟩ := bind_eq_ok.mp hstep
    cases h2
    rcases Nat.eq_zero_or_pos (turns length) with hzero | hlen
    · unfold mmu_unmap_frames at h1
      rw [hzero] at h1
      cases h1
      exact hkeep rfl (fun hold => hlive hold.1) hbare
    · obtain ⟨c, rfl, hc, hpages⟩ := live_region h.devices hall hlen
      obtain ⟨-, hw⟩ := spec_of_ok (mmu_unmap_frames.spec h.sound hc hpages) h1
      refine hkeep (hw.page_out h.sound ?_) (fun hold => hlive hold.1) ?_
      · by_contra hin
        exact hlive (hall _ (region_window.mpr ⟨x - c, by omega, by congr 1; omega⟩))
      · unfold IsTable
        rw [hw.rest]
        exact hbare
  | clone fuel directory =>
    obtain ⟨⟨d', state⟩, h1, h2⟩ := bind_eq_ok.mp hstep
    cases h2
    have hclone := spec_of_ok (mmu_clone_directory.spec h.sound h.backed hall fuel) h1
    exact hkeep (page_stays hm hclone.page hclone.covered) hlive (hclone.tables x hm hbare)
  | set directory =>
    cases hstep
    exact ⟨⟨hlt, hm, hlive, hbare⟩, rfl⟩
  | store ram =>
    cases hstep
    exact ⟨⟨hlt, hm, hlive, hbare⟩, rfl⟩

/-- No request but a store writes to a frame that is taken. -/
theorem Spaces.step_kept (h : Spaced W w.dirs w.live usable w.state) (hall : w.allowed request)
    (hstep : w.step request = .ok w') (hno : ∀ ram, request ≠ .store ram) :
    Kept w.state w'.state := by
  cases request with
  | ksbrk fuel length =>
    obtain ⟨⟨_, state⟩, h1, h2⟩ := bind_eq_ok.mp hstep
    cases h2
    obtain ⟨⟨rc, phys, s1⟩, h3, h4⟩ := bind_eq_ok.mp h1
    cases h4
    obtain ⟨-, -, hkept⟩ := spec_of_ok (ksbrk_physical.extends h.sound fuel length) h3
    exact hkept
  | allocate_pt fuel i j k =>
    obtain ⟨⟨_, state⟩, h1, h2⟩ := bind_eq_ok.mp hstep
    cases h2
    obtain ⟨hmade, -⟩ := spec_of_ok (allocate_pt.spec h.sound fuel i j k) h1
    exact fun x _ => congrFun hmade.quiet.ram x
  | page fuel address =>
    obtain ⟨⟨_, _, state⟩, h1, h2⟩ := bind_eq_ok.mp hstep
    cases h2
    obtain ⟨-, -, hram⟩ := spec_of_ok (check_makes h.sound fuel address) h1
    exact fun x _ => congrFun hram x
  | map_frames fuel src length =>
    obtain ⟨⟨virtual, state⟩, h1, h2⟩ := bind_eq_ok.mp hstep
    cases h2
    obtain ⟨c, -, hshown⟩ := spec_of_ok (mmu_map_frames.spec h.sound fuel src length) h1
    exact fun x _ => congrFun hshown.quiet.ram x
  | unmap_frames virtual length =>
    obtain ⟨state, h1, h2⟩ := bind_eq_ok.mp hstep
    cases h2
    rcases Nat.eq_zero_or_pos (turns length) with hzero | hlen
    · unfold mmu_unmap_frames at h1
      rw [hzero] at h1
      cases h1
      exact fun x _ => rfl
    · obtain ⟨c, rfl, hc, hpages⟩ := live_region h.devices hall hlen
      obtain ⟨-, hw⟩ := spec_of_ok (mmu_unmap_frames.spec h.sound hc hpages) h1
      intro x _
      change state.ram x = _
      rw [hw.rest]
  | clone fuel directory =>
    obtain ⟨⟨d', state⟩, h1, h2⟩ := bind_eq_ok.mp hstep
    cases h2
    exact (spec_of_ok (mmu_clone_directory.spec h.sound h.backed hall fuel) h1).kept
  | set directory =>
    cases hstep
    exact fun x _ => rfl
  | store ram => exact absurd rfl (hno ram)

/-- The directories stay, and the active one is active until another is set. -/
theorem Spaces.step_directories (h : Spaced W w.dirs w.live usable w.state)
    (hall : w.allowed request) (hstep : w.step request = .ok w') :
    (∀ d ∈ w.dirs, d ∈ w'.dirs ∧ w'.state.directories d = w.state.directories d) ∧
      ((∀ d, request ≠ .set d) → w'.state.active_directory = w.state.active_directory) := by
  have hsame : ∀ {s' : Mmu}, s'.directories = w.state.directories →
      ∀ d ∈ w.dirs, d ∈ w.dirs ∧ s'.directories d = w.state.directories d :=
    fun heq d hd => ⟨hd, congrFun heq d⟩
  cases request with
  | ksbrk fuel length =>
    obtain ⟨⟨_, state⟩, h1, h2⟩ := bind_eq_ok.mp hstep
    cases h2
    obtain ⟨⟨rc, phys, s1⟩, h3, h4⟩ := bind_eq_ok.mp h1
    cases h4
    have hext := spec_of_ok (ksbrk_physical.spec h.sound fuel length) h3
    exact ⟨hsame hext.makes.directories, fun _ => hext.makes.active⟩
  | allocate_pt fuel i j k =>
    obtain ⟨⟨_, state⟩, h1, h2⟩ := bind_eq_ok.mp hstep
    cases h2
    obtain ⟨hmade, -⟩ := spec_of_ok (allocate_pt.spec h.sound fuel i j k) h1
    exact ⟨hsame hmade.makes.directories, fun _ => hmade.makes.active⟩
  | page fuel address =>
    obtain ⟨⟨_, _, state⟩, h1, h2⟩ := bind_eq_ok.mp hstep
    cases h2
    obtain ⟨-, hmakes, -⟩ := spec_of_ok (check_makes h.sound fuel address) h1
    exact ⟨hsame hmakes.directories, fun _ => hmakes.active⟩
  | map_frames fuel src length =>
    obtain ⟨⟨virtual, state⟩, h1, h2⟩ := bind_eq_ok.mp hstep
    cases h2
    obtain ⟨c, -, hshown⟩ := spec_of_ok (mmu_map_frames.spec h.sound fuel src length) h1
    exact ⟨hsame hshown.kept.1, fun _ => hshown.kept.2⟩
  | unmap_frames virtual length =>
    obtain ⟨state, h1, h2⟩ := bind_eq_ok.mp hstep
    cases h2
    rcases Nat.eq_zero_or_pos (turns length) with hzero | hlen
    · unfold mmu_unmap_frames at h1
      rw [hzero] at h1
      cases h1
      exact ⟨hsame rfl, fun _ => rfl⟩
    · obtain ⟨c, rfl, hc, hpages⟩ := live_region h.devices hall hlen
      obtain ⟨-, hw⟩ := spec_of_ok (mmu_unmap_frames.spec h.sound hc hpages) h1
      refine ⟨hsame ?_, fun _ => ?_⟩
      · rw [hw.rest]
      · change state.active_directory = _
        rw [hw.rest]
  | clone fuel directory =>
    obtain ⟨⟨d', state⟩, h1, h2⟩ := bind_eq_ok.mp hstep
    cases h2
    have hclone := spec_of_ok (mmu_clone_directory.spec h.sound h.backed hall fuel) h1
    exact ⟨fun d hd => ⟨List.mem_cons_of_mem _ hd, hclone.others d hd⟩, fun _ => hclone.active⟩
  | set directory =>
    cases hstep
    exact ⟨hsame rfl, fun hno => absurd rfl (hno directory)⟩
  | store ram =>
    cases hstep
    exact ⟨hsame rfl, fun _ => rfl⟩

/-- The bytes of the page stay, as the CPU sees them in all address spaces. -/
theorem Spaces.step_load (h : Spaced W w.dirs w.live usable w.state) (hall : w.allowed request)
    (hstep : w.step request = .ok w') (hno : ∀ ram, request ≠ .store ram)
    (hx : Holds W w.live w.state x) (ha : a / 0x1000 * 0x1000 = window x) (hd : d ∈ w.dirs)
    (hd' : d' ∈ w'.dirs) : load w'.state d' a = load w.state d a := by
  obtain ⟨hx', hpage⟩ := Spaces.step_holds h hall hstep hx
  have hs' := (Spaces.step_spaced h hall hstep).1
  rw [hx.load h hd ha, hx'.load hs' hd' ha, hpage]
  refine congrArg some (Spaces.step_kept h hall hstep hno _ ?_)
  have hframe := hx.taken h
  rw [show (page_base (page w.state W x) + a % 0x1000) / 0x1000 = page w.state W x / 0x1000 by
    unfold page_base
    omega]
  exact hframe

end salsola.mmu
