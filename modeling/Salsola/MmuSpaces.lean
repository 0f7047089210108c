-- The address spaces of the kernel in runs: from `mmu_init`, by `allocate_pt`, pages that are
-- mapped one by one, `mmu_clone_directory` and `mmu_set_directory`, in any order.
import Salsola.MmuCloned

open memory outcome runs

namespace salsola.mmu

variable {W : Nat} {dirs : List Nat} {s s' : Mmu} {boot : Boot} {a b c d e i j n p : Nat}
variable {fuel : Nat} {live usable : Nat → Prop}

/-! ## What the calls keep -/

/-- The words of the pages whose addresses are `live`. -/
def Device (W : Nat) (live : Nat → Prop) (s : Mmu) (a i : Nat) : Prop :=
  ∃ x, live (window x) ∧ WordOf s W x a i

/-- No two directories have one PML4T. -/
def Rooted (dirs : List Nat) (s : Mmu) : Prop :=
  ∀ d ∈ dirs, ∀ d' ∈ dirs, root s d = root s d' → d = d'

/-- What holds of the address spaces. `live` are the addresses of the pages that `mmu_map_frames`
has mapped. Each other page has a frame of its own, which is taken and `usable`, as all frames
are that are free. -/
structure Spaced (W : Nat) (dirs : List Nat) (live usable : Nat → Prop) (s : Mmu) : Prop where
  sound : Sound W dirs s
  devices : ∀ v, live v → ∃ x, v = window x ∧ x < WINDOW ∧ Mapped s W x ∧
    ¬ IsTable s (window x)
  backed : Backed W (Device W live s) s
  frame : ∀ a i, present (s.pts a i) → ¬ Device W live s a i → usable (s.pts a i / 0x1000)
  free : ∀ f, f < NUM_OF_FRAMES * 64 → ¬ taken s.frames f → usable f
  owned : ∀ a i b j, present (s.pts a i) → ¬ Device W live s a i → present (s.pts b j) →
    ¬ Device W live s b j → s.pts a i / 0x1000 = s.pts b j / 0x1000 → a = b ∧ i = j
  rooted : Rooted dirs s
  walk : WindowAgreed W dirs s

/-- Live pages keep their words when the page tables of the window stay. -/
theorem Spaced.device_iff (h : Spaced W dirs live usable s)
    (hcov : ∀ q, Covered s W q → Covered s' W q ∧ pt_of s' W q = pt_of s W q) :
    Device W live s' a i ↔ Device W live s a i := by
  have hpt : ∀ x, live (window x) → pt_of s' W (x / 512) = pt_of s W (x / 512) := by
    intro x hx
    obtain ⟨y, hxy, -, hm, -⟩ := h.devices _ hx
    obtain rfl := window_inj hxy
    exact (hcov _ hm.covered).2
  unfold Device WordOf
  constructor
  · rintro ⟨x, hx, ha, hi⟩
    exact ⟨x, hx, ha.trans (hpt x hx), hi⟩
  · rintro ⟨x, hx, ha, hi⟩
    exact ⟨x, hx, ha.trans (hpt x hx).symm, hi⟩

/-- A call that leaves the pages that were there, and puts new ones on fresh frames. -/
theorem Spaced.fresh {dirs' : List Nat} (h : Spaced W dirs live usable s) (hs : Sound W dirs' s')
    (hpage : ∀ a i, present (s.pts a i) → s'.pts a i = s.pts a i)
    (hcov : ∀ q, Covered s W q → Covered s' W q ∧ pt_of s' W q = pt_of s W q)
    (htable : ∀ x, Mapped s W x → ¬ IsTable s (window x) → ¬ IsTable s' (window x))
    (htaken : ∀ f, taken s.frames f → taken s'.frames f) (hf : Fresh s s')
    (hroots : Rooted dirs' s') (hwalk : WindowAgreed W dirs' s') :
    Spaced W dirs' live usable s' := by
  have hdevice : ∀ {a i}, Device W live s' a i ↔ Device W live s a i := h.device_iff hcov
  have hlive : ∀ v, live v → ∃ x, v = window x ∧ x < WINDOW ∧ Mapped s' W x ∧
      ¬ IsTable s' (window x) := by
    intro v hv
    obtain ⟨x, hvx, hx, hm, hno⟩ := h.devices v hv
    obtain ⟨h1, h2⟩ := hcov _ hm.covered
    refine ⟨x, hvx, hx, ?_, htable x hm hno⟩
    have hword := page_of_covered hm.covered
    unfold Mapped at hm ⊢
    rw [page_of_covered h1, h2, hpage _ _ (hword ▸ hm), ← hword]
    exact hm
  have hcases : ∀ a i, present (s'.pts a i) →
      (present (s.pts a i) ∧ s'.pts a i = s.pts a i) ∨ NewPage s s' a i := by
    intro a i hp
    by_cases hold : present (s.pts a i)
    · exact Or.inl ⟨hold, hpage a i hold⟩
    · exact Or.inr ⟨hp, hold⟩
  refine ⟨hs, hlive, ⟨?_, ?_⟩, ?_, ?_, ?_, hroots, hwalk⟩
  · intro a i hp hD
    rcases hcases a i hp with ⟨hold, heq⟩ | hnew
    · rw [heq]
      exact htaken _ (h.backed.frame a i hold (fun h1 => hD (hdevice.mpr h1)))
    · exact (hf.frame a i hnew).2.1
  · rintro a i ⟨x, hx, rfl, rfl⟩
    obtain ⟨y, hxy, -, hm, -⟩ := hlive _ hx
    obtain rfl := window_inj hxy
    exact hm.covered.inWindow
  · intro a i hp hD
    rcases hcases a i hp with ⟨hold, heq⟩ | hnew
    · rw [heq]
      exact h.frame a i hold (fun h1 => hD (hdevice.mpr h1))
    · obtain ⟨hfree, -, hlt⟩ := hf.frame a i hnew
      exact h.free _ hlt hfree
  · intro f hlt hfree
    exact h.free f hlt (fun h1 => hfree (htaken f h1))
  · intro a i b j hp hD hp' hD' hsame
    rw [hdevice] at hD hD'
    rcases hcases a i hp with ⟨hold, heq⟩ | hnew <;>
      rcases hcases b j hp' with ⟨hold', heq'⟩ | hnew'
    · rw [heq, heq'] at hsame
      exact h.owned a i b j hold hD hold' hD' hsame
    · rw [heq] at hsame
      exact absurd (hsame ▸ h.backed.frame a i hold hD) (hf.frame b j hnew').1
    · rw [heq'] at hsame
      exact absurd (hsame ▸ h.backed.frame b j hold' hD') (hf.frame a i hnew).1
    · exact hf.apart a i b j hnew hnew' hsame

theorem Rooted.same (h : Rooted dirs s) (hd : s'.directories = s.directories) :
    Rooted dirs s' := by
  unfold Rooted root at h ⊢
  rw [hd]
  exact h

theorem Spaced.makes (h : Spaced W dirs live usable s) (hs : Sound W dirs s') (hm : Makes W s s') :
    Spaced W dirs live usable s' :=
  h.fresh hs hm.grows.page (fun _ hc => hm.grows.covered hc)
    (fun _ hmapped hno => hm.grows.not_table hmapped hno) hm.grows.taken hm.fresh
    (h.rooted.same hm.directories)
    (h.walk.grows h.sound hm.grows hm.agrees.inWindow hm.directories)

theorem Agreed.makes (h : Agreed s) (hm : Makes W s s') : Agreed s' := h.grows hm.grows hm.agrees

theorem Spaced.clones {d' : Nat} (h : Spaced W dirs live usable s)
    (hc : ClonedDirectory W dirs s d d' s') : Spaced W (d' :: dirs) live usable s' := by
  refine h.fresh hc.sound hc.page hc.covered hc.tables hc.taken hc.fresh ?_ (hc.walk h.walk)
  have hold : ∀ x ∈ dirs, root s' x = root s x := by
    intro x hx
    unfold root
    rw [hc.others x hx]
  have hnew : ∀ x ∈ dirs, root s' x ≠ root s' d' := by
    intro x hx heq
    apply hc.root_new
    rw [← heq, hold x hx]
    exact root_table h.sound hx
  intro x hx y hy heq
  rcases List.mem_cons.mp hx with rfl | hxold <;> rcases List.mem_cons.mp hy with rfl | hyold
  · rfl
  · exact absurd heq.symm (hnew y hyold)
  · exact absurd heq (hnew x hxold)
  · rw [hold x hxold, hold y hyold] at heq
    exact h.rooted x hxold y hyold heq

/-- Another directory becomes active. -/
theorem Spaced.set (h : Spaced W dirs live usable s) (hd : d ∈ dirs) :
    Spaced W dirs live usable (mmu_set_directory s d) where
  sound :=
    { active := hd
      roots := h.sound.roots
      home := fun p a hp =>
        { aligned := (h.sound.home p a hp).aligned
          below := (h.sound.home p a hp).below
          taken := (h.sound.home p a hp).taken
          at_page := (h.sound.home p a hp).at_page }
      links := h.sound.links
      pages := h.sound.pages
      tree := h.sound.tree
      unrooted := h.sound.unrooted
      heap := h.sound.heap
      zero := h.sound.zero }
  devices := h.devices
  backed := ⟨h.backed.frame, h.backed.window⟩
  frame := h.frame
  free := h.free
  owned := h.owned
  rooted := h.rooted
  walk := ⟨h.walk.slot, h.walk.table⟩

/-- What runs in between leaves any bytes in the frames. -/
theorem Spaced.bytes (h : Spaced W dirs live usable s) (ram : Mem) (seed : Seed) :
    Spaced W dirs live usable { s with ram, seed } where
  sound := sound_ram h.sound ram seed
  devices := h.devices
  backed := ⟨h.backed.frame, h.backed.window⟩
  frame := h.frame
  free := h.free
  owned := h.owned
  rooted := h.rooted
  walk := ⟨h.walk.slot, h.walk.table⟩

theorem Spaced.store (h : Spaced W dirs live usable s) (ram : Mem) :
    Spaced W dirs live usable { s with ram } := h.bytes ram s.seed

/-! ## Pages for the frames of devices -/

/-- A call that writes words of the window: what was live there is not any more, or all of it
is. The other pages stay. -/
theorem Spaced.writes {live' : Nat → Prop} {entry : Nat → Nat} (h : Spaced W dirs live usable s)
    (hs : Sound W dirs s') (hw : Writes W s s' c n entry)
    (hlive : ∀ v, live' v → ∃ x, v = window x ∧ x < WINDOW ∧ Mapped s' W x ∧
      ¬ IsTable s' (window x))
    (hkept : ∀ x, live (window x) → live' (window x) ∨ c ≤ x ∧ x < c + n)
    (hwords : ∀ k, k < n → live' (window (c + k)) ∨ ¬ present (entry k)) :
    Spaced W dirs live' usable s' := by
  have hpt : ∀ q, pt_of s' W q = pt_of s W q := fun q => hw.pt_of_eq
  -- a page that is none of the written ones, and not live, was there before
  have hold : ∀ a i, present (s'.pts a i) → ¬ Device W live' s' a i →
      present (s.pts a i) ∧ s'.pts a i = s.pts a i ∧ ¬ Device W live s a i := by
    intro a i hp hD
    have hout : ∀ k, k < n → ¬ (a = pt_of s W ((c + k) / 512) ∧ i = (c + k) % 512) := by
      rintro k hk ⟨rfl, rfl⟩
      rcases hwords k hk with hl | hno
      · exact hD ⟨_, hl, (hpt _).symm, rfl⟩
      · rw [hw.word k hk] at hp
        exact hno hp
    have heq := hw.other a i hout
    refine ⟨heq ▸ hp, heq, ?_⟩
    rintro ⟨x, hx, rfl, rfl⟩
    rcases hkept x hx with h1 | ⟨h1, h2⟩
    · exact hD ⟨x, h1, (hpt _).symm, rfl⟩
    · refine hout (x - c) (by omega) ?_
      rw [show c + (x - c) = x by omega]
      exact ⟨rfl, rfl⟩
  refine ⟨hs, hlive, ⟨?_, ?_⟩, ?_, ?_, ?_, ?_, ?_⟩
  · intro a i hp hD
    obtain ⟨h1, heq, h2⟩ := hold a i hp hD
    rw [heq, hw.rest]
    exact h.backed.frame a i h1 h2
  · rintro a i ⟨x, hx, rfl, rfl⟩
    obtain ⟨y, hxy, -, hm, -⟩ := hlive _ hx
    obtain rfl := window_inj hxy
    exact hm.covered.inWindow
  · intro a i hp hD
    obtain ⟨h1, heq, h2⟩ := hold a i hp hD
    rw [heq]
    exact h.frame a i h1 h2
  · rw [hw.rest]
    exact h.free
  · intro a i b j hp hD hp' hD' hsame
    obtain ⟨h1, heq, h2⟩ := hold a i hp hD
    obtain ⟨h3, heq', h4⟩ := hold b j hp' hD'
    rw [heq, heq'] at hsame
    exact h.owned a i b j h1 h2 h3 h4 hsame
  · exact h.rooted.same (by rw [hw.rest])
  · rw [hw.rest]
    exact ⟨h.walk.slot, h.walk.table⟩

theorem Spaced.maps {v src length : Nat} (h : Spaced W dirs live usable s)
    (hcall : mmu_map_frames fuel s src length = .ok (v, s')) :
    Spaced W dirs (fun a => live a ∨ Region v length a) usable s' ∧ (Agreed s → Agreed s') := by
  obtain ⟨c, s1, hv, hc, hsearched, hs, hm⟩ :=
    spec_of_ok (mmu_map_frames.parts h.sound fuel src length) hcall
  dsimp only at hv hs hm
  subst hv
  have h1 := h.makes hsearched.sound hsearched.makes.toMakes
  constructor
  · refine h1.writes hs hm.toWrites ?_ (fun x hx => Or.inl (Or.inl hx))
      (fun k hk => Or.inl (Or.inr (region_window.mpr ⟨k, hk, rfl⟩)))
    rintro v (hv | hv)
    · obtain ⟨x, hvx, hx, hmapped, hno⟩ := h1.devices v hv
      exact ⟨x, hvx, hx, hm.grows.mapped hmapped, hm.grows.not_table hmapped hno⟩
    · obtain ⟨k, hk, rfl⟩ := region_window.mp hv
      obtain ⟨hmapped, hno⟩ := hm.shows hsearched.sound hk
      exact ⟨c + k, rfl, by omega, hmapped, hno⟩
  · intro hagreed
    have hagreed1 := hagreed.makes hsearched.makes.toMakes
    rw [hm.rest]
    exact hagreed1

theorem Spaced.unmaps {v length : Nat} (h : Spaced W dirs live usable s)
    (hregion : ∀ a, Region v length a → live a)
    (hcall : mmu_unmap_frames s v length = .ok s') :
    Spaced W dirs (fun a => live a ∧ ¬ Region v length a) usable s' ∧ (Agreed s → Agreed s') := by
  rcases Nat.eq_zero_or_pos (turns length) with hzero | hlen
  · unfold mmu_unmap_frames at hcall
    rw [hzero] at hcall
    cases hcall
    have hsame : (fun a => live a ∧ ¬ Region v length a) = live := by
      funext a
      apply propext
      refine ⟨fun ha => ha.1, fun ha => ⟨ha, ?_⟩⟩
      rintro ⟨k, hk, -⟩
      omega
    rw [hsame]
    exact ⟨h, id⟩
  · obtain ⟨c, rfl, hc, hpages⟩ := live_region h.devices hregion hlen
    obtain ⟨hs, hw⟩ := spec_of_ok (mmu_unmap_frames.spec h.sound hc hpages) hcall
    have hout : ∀ x, ¬ Region (window c) length (window x) → x < c ∨ c + turns length ≤ x := by
      intro x hno
      by_contra hin
      exact hno (region_window.mpr ⟨x - c, by omega, by congr 1; omega⟩)
    constructor
    · refine h.writes hs hw ?_ ?_ (fun k hk => Or.inr not_present_zero)
      · rintro v ⟨hv, hno⟩
        obtain ⟨x, rfl, hx, hm, hnot⟩ := h.devices v hv
        refine ⟨x, rfl, hx, ?_, ?_⟩
        · unfold Mapped
          rw [hw.page_out h.sound (hout x hno)]
          exact hm
        · unfold IsTable
          rw [hw.rest]
          exact hnot
      · intro x hx
        by_cases hin : Region (window c) length (window x)
        · obtain ⟨k, hk, heq⟩ := region_window.mp hin
          obtain rfl := window_inj heq
          exact Or.inr ⟨by omega, by omega⟩
        · exact Or.inl ⟨hx, hin⟩
    · intro hagreed
      rw [hw.rest]
      exact hagreed

/-! ## A page on a frame of its own -/

/-- `allocate_pt`, and a new page in the page table. -/
theorem check_makes (h : Sound W dirs s) (fuel address : Nat) :
    Spec (check_virtual_region_is_free (allocate_pt fuel) s address true false 0) anyhow
      (fun r => Sound W dirs r.2.2 ∧ Makes W s r.2.2 ∧ r.2.2.ram = s.ram) := by
  unfold check_virtual_region_is_free
  refine spec_bind (allocate_pt.spec h fuel _ _ _) ?_
  rintro ⟨_, s1⟩ ⟨hmade, t, -, hpath⟩
  dsimp only at hmade hpath ⊢
  obtain ⟨b, c, h1, h2, h3⟩ := hpath
  have hpt : s1.pt address = t := by
    unfold Mmu.pt
    dsimp only
    rw [h1.2, h2.2, h3.2]
  rw [hpt]
  by_cases hp : present (s1.pts t (pt_index address))
  · rw [if_neg (not_not.mpr hp)]
    exact ⟨hmade.sound, hmade.makes, hmade.quiet.ram⟩
  · rw [if_pos hp, if_pos rfl, if_neg Bool.false_ne_true]
    cases hget : get_frame s1.frames true 1 with
    | error e => trivial
    | ok r =>
      obtain ⟨p, frames⟩ := r
      obtain ⟨hs2, hm2⟩ := fresh_page (f := 0x3) hmade.sound
        (hmade.sound.links _ _ _ h3).2 hp hget (by decide)
      exact ⟨hs2, hmade.makes.trans hm2, hmade.quiet.ram⟩

/-! ## The start -/

/-- The frames that boot.s maps, and those that the pass over the memory map frees. -/
def Boot.released (boot : Boot) (f : Nat) : Prop := f < 511 ∨
  f < NUM_OF_FRAMES * 64 ∧
    ∀ frames, release_entries (fun _ => BitVec.allOnes 64) boot.entries = .ok frames →
      ¬ taken frames f

/-- The state before the `ksbrk` of `mmu_init`, from the one that the loops leave. -/
theorem before_ksbrk_eq (boot : Boot) (frames : Frames) :
    ∃ s frames', Inits (boot.loaded frames) s ∧
      boot.before_ksbrk frames = ({ s with frames := frames' } : Mmu).set_entry boot.root 0 0 0 :=
  ⟨init_pml4t (boot.loaded frames) boot.root, _, (init_pml4t.spec _ _).1, rfl⟩

theorem before_ksbrk_physical (boot : Boot) (frames : Frames) (h : ¬ (a = boot.root ∧ i = 0)) :
    ((boot.before_ksbrk frames).tables a).physical i = (boot.state.tables a).physical i := by
  obtain ⟨s, frames', hI, heq⟩ := before_ksbrk_eq boot frames
  obtain ⟨-, htables, -⟩ := loaded_rest boot frames
  rw [heq, (set_entry_other h).1]
  refine (hI.physical a i).trans ?_
  rw [htables]

/-- The frames that the entries of boot.s name. -/
theorem boot_base (boot : Boot) (a : Nat) :
    (a = boot.root → page_base ((boot.state.tables a).physical 511) = boot.PML4T + 0x2000) ∧
      (a = boot.W → page_base ((boot.state.tables a).physical 0) = boot.PML4T + 0x4000) ∧
      (a = boot.pdt → page_base ((boot.state.tables a).physical 0) = boot.PML4T + 0x6000) := by
  have haligned := boot.aligned
  have hbase : ∀ k, k % 0x1000 = 0 → page_base ((boot.PML4T + k) ||| 0x3) = boot.PML4T + k := by
    intro k hk
    have hsum : (boot.PML4T + k) % 0x1000 = 0 := by omega
    exact page_base_of_aligned (boot.PML4T + k) 0x3 hsum (by decide)
  have h1 := hbase 0x2000 rfl
  have h2 := hbase 0x4000 rfl
  have h3 := hbase 0x6000 rfl
  unfold Boot.root Boot.W Boot.pdt Boot.state
  dsimp only
  refine ⟨fun ha => ?_, fun ha => ?_, fun ha => ?_⟩
  · rw [if_pos ha]
    exact h1
  · rw [if_neg (by omega), if_pos ha]
    exact h2
  · rw [if_neg (by omega), if_neg (by omega), if_pos ha]
    exact h3

/-- The tables of boot.s lie there. -/
theorem boot_placed (boot : Boot) :
    boot.state.placed (boot.PML4T + 0x2000) = some boot.W ∧
      boot.state.placed (boot.PML4T + 0x4000) = some boot.pdt ∧
      boot.state.placed (boot.PML4T + 0x6000) = some boot.pt := by
  unfold Boot.W Boot.pdt Boot.pt Boot.state
  dsimp only
  refine ⟨?_, ?_, ?_⟩
  · rw [if_pos (Or.inr (Or.inl rfl))]
  · rw [if_pos (Or.inr (Or.inr (Or.inl rfl)))]
  · rw [if_pos (Or.inr (Or.inr (Or.inr rfl)))]

theorem agreed_before_ksbrk (boot : Boot) (frames : Frames) :
    Agreed (boot.before_ksbrk frames) := by
  have hbooted := booted_before_ksbrk boot frames
  obtain ⟨d1, d2, -⟩ := boot_apart boot
  obtain ⟨h1, h2, h3⟩ := boot_placed boot
  intro a i b hl
  obtain ⟨hb1, hb2, hb3⟩ := boot_base boot a
  rw [hbooted.placed]
  rcases (hbooted.links a i b).mp hl with ⟨ha, rfl, rfl⟩ | ⟨ha, rfl, rfl⟩ | ⟨ha, rfl, rfl⟩
  · rw [before_ksbrk_physical boot frames (by omega), hb1 ha]
    exact h1
  · rw [before_ksbrk_physical boot frames (fun hslot => d1 (ha.symm.trans hslot.1)), hb2 ha]
    exact h2
  · rw [before_ksbrk_physical boot frames (fun hslot => d2 (ha.symm.trans hslot.1)), hb3 ha]
    exact h3

/-- The loops of `mmu_init` free no frame. -/
theorem taken_before_ksbrk (boot : Boot) {frames : Frames} {f : Nat} (h : taken frames f) :
    taken (boot.before_ksbrk frames).frames f := by
  obtain ⟨-, -, -, -, -, -, -, hloaded⟩ := loaded_rest boot frames
  have hI := (init_pml4t.spec (boot.loaded frames) boot.root).1
  exact taken_mono _ _ _ (hI.taken f (hloaded.symm ▸ h))

/-- Where all entries name the tables that the pointers lead to, those of the slot 511 do. -/
theorem Agreed.window (h : Agreed s) (hs : Sound W dirs s) : WindowAgreed W dirs s :=
  ⟨fun d hd => h _ _ _ (hs.roots d hd).2.1, fun a i b _ hl => h a i b hl⟩

theorem Booted.spaced (h : Booted boot s) (hagreed : Agreed s)
    (hfree : ∀ f, f < NUM_OF_FRAMES * 64 → ¬ mmu.taken s.frames f → boot.released f) :
    Spaced boot.W [boot.orig_active_directory] (fun _ => False) boot.released s := by
  have hpages : ∀ a i, present (s.pts a i) →
      (a = boot.pt ∧ i < 511) ∧ s.pts a i = i * 0x1000 + 0x3 := by
    intro a i hp
    rw [h.pts] at hp ⊢
    by_cases hslot : a = boot.pt ∧ i < 511
    · exact ⟨hslot, boot_page boot hslot.1 hslot.2⟩
    · rw [boot_no_page boot hslot] at hp
      exact absurd hp not_present_zero
  refine ⟨h.sound, fun _ hF => hF.elim, ⟨?_, ?_⟩, ?_, hfree, ?_, ?_, hagreed.window h.sound⟩
  · intro a i hp _
    obtain ⟨⟨-, hi⟩, heq⟩ := hpages a i hp
    rw [heq, show (i * 0x1000 + 0x3) / 0x1000 = i by omega]
    exact h.taken i hi
  · rintro a i ⟨x, hF, -⟩
    exact hF.elim
  · intro a i hp _
    obtain ⟨⟨-, hi⟩, heq⟩ := hpages a i hp
    exact Or.inl (by omega)
  · intro a i b j hp _ hp' _ hsame
    obtain ⟨⟨rfl, -⟩, heq⟩ := hpages a i hp
    obtain ⟨⟨rfl, -⟩, heq'⟩ := hpages b j hp'
    exact ⟨rfl, by omega⟩
  · intro d hd d' hd' _
    exact (List.mem_singleton.mp hd).trans (List.mem_singleton.mp hd').symm

/-- The slots below 511 of the first directory are empty. -/
theorem Booted.no_pdt (h : Booted boot s) (hm : Local boot.W s s') :
    NoPdt s' (root s' boot.orig_active_directory) := by
  have hd := List.mem_singleton_self boot.orig_active_directory
  have hroot : root s boot.orig_active_directory = boot.root := by
    unfold root
    rw [h.directories]
    rfl
  have hroot' : root s' boot.orig_active_directory = root s boot.orig_active_directory := by
    unfold root
    rw [hm.directories]
  have hsame := (hm.outside _ (root_table h.sound hd) (root_outside h.sound hd)).1
  intro i hi hp
  rw [hroot', hsame, hroot] at hp
  obtain ⟨d1, d2, -⟩ := boot_apart boot
  rcases (h.links _ _ _).mp (links_next hp) with ⟨-, h511, -⟩ | ⟨heq, -⟩ | ⟨heq, -⟩
  · omega
  · exact absurd heq.symm d1
  · exact absurd heq.symm d2

theorem release_entries_ok (entries : List MemoryMapEntry) :
    Spec (release_entries (fun _ => BitVec.allOnes 64) entries) anyhow (fun frames =>
      release_entries (fun _ => BitVec.allOnes 64) entries = .ok frames) := by
  cases release_entries (fun _ => BitVec.allOnes 64) entries with
  | ok frames => rfl
  | error e => trivial

/-- `mmu_init` returns when the pass over the memory map does. -/
theorem mmu_init.passed (h : mmu_init fuel boot = .ok s) :
    ∃ frames, release_entries (fun _ => BitVec.allOnes 64) boot.entries = .ok frames := by
  rw [mmu_init_eq] at h
  obtain ⟨frames, hpass, -⟩ := bind_eq_ok.mp h
  exact ⟨frames, hpass⟩

/-- What `mmu_init` leaves of the address spaces. -/
theorem mmu_init.spaced (fuel : Nat) (boot : Boot) : Spec (mmu_init fuel boot) anyhow
    (fun s => Spaced boot.W [boot.orig_active_directory] (fun _ => False) boot.released s ∧
      Agreed s ∧ NoPdt s (root s boot.orig_active_directory)) := by
  rw [mmu_init_eq]
  refine spec_bind (release_entries_ok boot.entries) ?_
  intro frames hframes
  have hbooted := booted_before_ksbrk boot frames
  have hfree : ∀ f, f < NUM_OF_FRAMES * 64 → ¬ taken (boot.before_ksbrk frames).frames f →
      boot.released f := by
    intro f hlt hfree
    refine Or.inr ⟨hlt, fun frames' hframes' htaken => hfree ?_⟩
    rw [hframes] at hframes'
    cases hframes'
    exact taken_before_ksbrk boot htaken
  obtain ⟨t, ht, -⟩ := hbooted.heap
  refine spec_bind
    (ksbrk_nothing hbooted.sound hbooted.filled ht (Or.inl (fun _ => trivial))) ?_
  rintro ⟨_, _, s⟩ ⟨hg, -⟩
  have hsearched := hg.searched
  have hagreed := agreed_before_ksbrk boot frames
  exact ⟨(hbooted.spaced hagreed hfree).makes hsearched.sound hsearched.makes.toMakes,
    hagreed.makes hsearched.makes.toMakes,
    hbooted.no_pdt hsearched.makes⟩

/-! ## The runs -/

structure Spaces where
  state : Mmu
  /-- The directories that there are. -/
  dirs : List Nat
  /-- The addresses of the pages that `mmu_map_frames` has mapped and nobody has unmapped. -/
  live : Nat → Prop

/-- What the kernel asks of mmu.c. A call that comes to the entry 512 of a PDT, as
`allocate_next_pt` can, ends the run. -/
inductive Request
  | ksbrk (fuel length : Nat)
  | allocate_pt (fuel pml4t_index pdpt_index pdt_index : Nat)
  /-- A page that is mapped to a frame of its own, as `mmu_update_stack` does. -/
  | page (fuel address : Nat)
  | map_frames (fuel src length : Nat)
  | unmap_frames (virtual length : Nat)
  | clone (fuel directory : Nat)
  | set (directory : Nat)
  /-- What runs in between leaves any bytes in the frames. It keeps off the tables, the
  directories and the variables of mmu.c, which are not in `ram`. -/
  | store (ram : Mem)

def Spaces.step (w : Spaces) : Request → Result Spaces
  | .ksbrk fuel length => do
    let (_, state) ← mmu.ksbrk fuel w.state length
    .ok { w with state }
  | .allocate_pt fuel pml4t_index pdpt_index pdt_index => do
    let (_, state) ← mmu.allocate_pt fuel w.state pml4t_index pdpt_index pdt_index
    .ok { w with state }
  | .page fuel address => do
    let (_, _, state) ←
      check_virtual_region_is_free (mmu.allocate_pt fuel) w.state address true false 0
    .ok { w with state }
  | .map_frames fuel src length => do
    let (virtual, state) ← mmu_map_frames fuel w.state src length
    .ok { w with state, live := fun a => w.live a ∨ Region virtual length a }
  | .unmap_frames virtual length => do
    let state ← mmu_unmap_frames w.state virtual length
    .ok { w with state, live := fun a => w.live a ∧ ¬ Region virtual length a }
  | .clone fuel directory => do
    let (new_mmu_directory, state) ← mmu_clone_directory fuel w.state directory
    .ok { w with state, dirs := new_mmu_directory :: w.dirs }
  | .set directory => .ok { w with state := mmu_set_directory w.state directory }
  | .store ram => .ok { w with state := { w.state with ram } }

/-- A directory that is cloned or set is there, and only what `mmu_map_frames` has mapped is
unmapped. -/
def Spaces.allowed (w : Spaces) : Request → Prop
  | .unmap_frames virtual length => ∀ a, Region virtual length a → w.live a
  | .clone _ directory => directory ∈ w.dirs
  | .set directory => directory ∈ w.dirs
  | _ => True

def Spaces.starts (boot : Boot) (w : Spaces) : Prop :=
  (∃ fuel, mmu_init fuel boot = .ok w.state) ∧ w.dirs = [boot.orig_active_directory] ∧
    ∀ a, ¬ w.live a

/-- The address spaces that the requests reach from `mmu_init`. -/
abbrev Spaces.Reachable (boot : Boot) : Spaces → Prop :=
  Reach (Spaces.starts boot) Spaces.allowed Spaces.step

/-- No directory is cloned that has a PDT under its slots 0 to 510. -/
def Spaces.spared (w : Spaces) (request : Request) : Prop :=
  w.allowed request ∧
    ∀ fuel directory, request = .clone fuel directory → NoPdt w.state (root w.state directory)

/-- What one request keeps. -/
theorem Spaces.step_spaced {w w' : Spaces} {request : Request}
    (h : Spaced W w.dirs w.live usable w.state) (hall : w.allowed request)
    (hstep : w.step request = .ok w') :
    Spaced W w'.dirs w'.live usable w'.state ∧
      (w.spared request → Agreed w.state → Agreed w'.state) := by
  cases request with
  | ksbrk fuel length =>
    obtain ⟨⟨_, state⟩, h1, h2⟩ := bind_eq_ok.mp hstep
    cases h2
    obtain ⟨⟨rc, phys, s1⟩, h3, h4⟩ := bind_eq_ok.mp h1
    cases h4
    have hext := spec_of_ok (ksbrk_physical.spec h.sound fuel length) h3
    exact ⟨h.makes hext.sound hext.makes.toMakes, fun _ ha => ha.makes hext.makes.toMakes⟩
  | allocate_pt fuel i j k =>
    obtain ⟨⟨_, state⟩, h1, h2⟩ := bind_eq_ok.mp hstep
    cases h2
    obtain ⟨hmade, -⟩ := spec_of_ok (allocate_pt.spec h.sound fuel i j k) h1
    exact ⟨h.makes hmade.sound hmade.makes, fun _ ha => ha.makes hmade.makes⟩
  | page fuel address =>
    obtain ⟨⟨_, _, state⟩, h1, h2⟩ := bind_eq_ok.mp hstep
    cases h2
    obtain ⟨hs, hm, -⟩ := spec_of_ok (check_makes h.sound fuel address) h1
    exact ⟨h.makes hs hm, fun _ ha => ha.makes hm⟩
  | map_frames fuel src length =>
    obtain ⟨⟨virtual, state⟩, h1, h2⟩ := bind_eq_ok.mp hstep
    cases h2
    obtain ⟨h3, h4⟩ := h.maps h1
    exact ⟨h3, fun _ => h4⟩
  | unmap_frames virtual length =>
    obtain ⟨state, h1, h2⟩ := bind_eq_ok.mp hstep
    cases h2
    obtain ⟨h3, h4⟩ := h.unmaps hall h1
    exact ⟨h3, fun _ => h4⟩
  | clone fuel directory =>
    obtain ⟨⟨d', state⟩, h1, h2⟩ := bind_eq_ok.mp hstep
    cases h2
    have hclone := spec_of_ok (mmu_clone_directory.spec h.sound h.backed hall fuel) h1
    exact ⟨h.clones hclone, fun hspared => hclone.agrees (hspared.2 fuel directory rfl)⟩
  | set directory =>
    cases hstep
    exact ⟨h.set hall, fun _ ha => ha⟩
  | store ram =>
    cases hstep
    exact ⟨h.store ram, fun _ ha => ha⟩

/-- What `mmu_init` leaves. -/
theorem Spaces.starts.spaced {w : Spaces} (hw : Spaces.starts boot w) :
    Spaced boot.W w.dirs w.live boot.released w.state ∧ Agreed w.state := by
  obtain ⟨⟨fuel, hinit⟩, hdirs, hlive⟩ := hw
  obtain ⟨h1, h2, -⟩ := spec_of_ok (mmu_init.spaced fuel boot) hinit
  have hnone : w.live = fun _ => False := by
    funext a
    exact propext (iff_false_intro (hlive a))
  rw [hdirs, hnone]
  exact ⟨h1, h2⟩

theorem Spaces.Reachable.spaced {w : Spaces} (hw : Spaces.Reachable boot w) :
    Spaced boot.W w.dirs w.live boot.released w.state :=
  Reach.invariant (fun w => Spaced boot.W w.dirs w.live boot.released w.state)
    (fun _ hs => hs.spaced.1) (fun _ _ _ h hall hstep => (Spaces.step_spaced h hall hstep).1) hw

theorem Spaces.Reachable.passed {w : Spaces} (hw : Spaces.Reachable boot w) :
    ∃ frames, release_entries (fun _ => BitVec.allOnes 64) boot.entries = .ok frames :=
  Reach.invariant (fun _ => ∃ frames,
    release_entries (fun _ => BitVec.allOnes 64) boot.entries = .ok frames)
    (fun _ ⟨⟨_, hinit⟩, _⟩ => mmu_init.passed hinit) (fun _ _ _ h _ _ => h) hw

/-! ## The two walks -/

/-- The entry of the page at an address, in the address space of the directory `d`, if it is
present. -/
def page_entry (s : Mmu) (d address : Nat) : Option Nat :=
  let pml4t := s.tables (root s d)
  let pdpt := s.tables (pml4t.next (pml4t_index address))
  let pdt := s.tables (pdpt.next (pdpt_index address))
  let page := s.pts (pdt.next (pdt_index address)) (pt_index address)
  if present (pml4t.physical (pml4t_index address)) ∧
    present (pdpt.physical (pdpt_index address)) ∧
    present (pdt.physical (pdt_index address)) ∧ present page then some page else none

/-- `mmu_virtual_to_physical` goes to that page, when the directory is active. -/
theorem virtual_to_physical_eq (s : Mmu) (d address : Nat) :
    mmu_virtual_to_physical (mmu_set_directory s d) address =
      (page_entry s d address).map fun e => page_base e ||| (address &&& 0xFFF) := by
  have hpml4t : (mmu_set_directory s d).pml4t = root s d := rfl
  unfold mmu_virtual_to_physical page_entry
  dsimp only
  rw [hpml4t]
  unfold mmu_set_directory
  dsimp only
  generalize s.tables (root s d) = pml4t
  generalize s.tables (pml4t.next (pml4t_index address)) = pdpt
  generalize s.tables (pdpt.next (pdpt_index address)) = pdt
  by_cases h1 : present (pml4t.physical (pml4t_index address))
  swap
  · rw [if_pos h1, if_neg (fun h => h1 h.1)]
    rfl
  by_cases h2 : present (pdpt.physical (pdpt_index address))
  swap
  · rw [if_neg (not_not.mpr h1), if_pos h2, if_neg (fun h => h2 h.2.1)]
    rfl
  by_cases h3 : present (pdt.physical (pdt_index address))
  swap
  · rw [if_neg (not_not.mpr h1), if_neg (not_not.mpr h2), if_pos h3, if_neg (fun h => h3 h.2.2.1)]
    rfl
  rw [if_neg (not_not.mpr h1), if_neg (not_not.mpr h2), if_neg (not_not.mpr h3),
    if_neg (not_not.mpr h1)]
  by_cases h4 : present (s.pts (pdt.next (pdt_index address)) (pt_index address))
  · rw [if_neg (not_not.mpr h4), if_pos ⟨h1, h2, h3, h4⟩]
    rfl
  · rw [if_pos h4, if_neg (fun h => h4 h.2.2.2)]
    rfl

/-- The entry `i` of the table at the physical address `p`, as the hardware reads it. `entries`
says what the tables of the level hold, and what is no table is read from the memory. -/
def table_entry (s : Mmu) (entries : Nat → Nat → Nat) (p i : Nat) : Nat :=
  match s.placed p with
  | some a => entries a i
  | none => read s.ram (p + 8 * i) 8

/-- What the hardware makes of an address, when CR3 is `cr3`. It sees the arrays `physical` and
the pages, and none of the pointers. -/
def hardware_walk (s : Mmu) (cr3 address : Nat) : Option Nat :=
  let physical := fun a => (s.tables a).physical
  let pml4e := table_entry s physical cr3 (pml4t_index address)
  let pdpte := table_entry s physical (page_base pml4e) (pdpt_index address)
  let pde := table_entry s physical (page_base pdpte) (pdt_index address)
  let pte := table_entry s s.pts (page_base pde) (pt_index address)
  if ¬ present pml4e then none
  else if ¬ present pdpte then none
  else if ¬ present pde then none
  else if ¬ present pte then none
  else some (page_base pte ||| (address &&& 0xFFF))

theorem entry_at_placed {entries : Nat → Nat → Nat} (h : s.placed p = some a) :
    table_entry s entries p i = entries a i := by
  unfold table_entry
  rw [h]

/-- Each entry on the way to an address, from the PML4T `r` on, names the table that its pointer
leads to. -/
def Named (s : Mmu) (r address : Nat) : Prop :=
  ∀ b, Links s r (pml4t_index address) b →
    s.placed (page_base ((s.tables r).physical (pml4t_index address))) = some b ∧
    ∀ c, Links s b (pdpt_index address) c →
      s.placed (page_base ((s.tables b).physical (pdpt_index address))) = some c ∧
      ∀ t, Links s c (pdt_index address) t →
        s.placed (page_base ((s.tables c).physical (pdt_index address))) = some t

theorem Agreed.named (h : Agreed s) (r address : Nat) : Named s r address :=
  fun _ hb => ⟨h _ _ _ hb, fun _ hc => ⟨h _ _ _ hc, fun _ ht => h _ _ _ ht⟩⟩

/-- In the slot 511 this is so in every run. -/
theorem Spaced.named (h : Spaced W dirs live usable s) (hd : d ∈ dirs)
    (ha : pml4t_index a = 511) : Named s (root s d) a := by
  intro b hb
  rw [ha] at hb ⊢
  obtain rfl : W = b := (h.sound.roots d hd).2.1.2.symm.trans hb.2
  refine ⟨h.walk.slot d hd, fun c hc => ⟨h.walk.table _ _ _ (Or.inl rfl) hc, fun t ht => ?_⟩⟩
  exact h.walk.table _ _ _ (Or.inr (Or.inl ⟨_, hc⟩)) ht

/-- Where the entries name the tables that the pointers lead to, the hardware finds what
`mmu_virtual_to_physical` finds. -/
theorem hardware_walk_eq {address : Nat}
    (hroot : s.placed (s.directories d).physical = some (root s d))
    (h : Named s (root s d) address) :
    hardware_walk s (s.directories d).physical address =
      mmu_virtual_to_physical (mmu_set_directory s d) address := by
  rw [virtual_to_physical_eq]
  unfold hardware_walk page_entry
  dsimp only
  rw [entry_at_placed hroot]
  unfold Named at h
  generalize root s d = pml4t at h
  by_cases h1 : present ((s.tables pml4t).physical (pml4t_index address))
  swap
  · rw [if_pos h1, if_neg (fun h => h1 h.1)]
    rfl
  obtain ⟨hpdpt, h⟩ := h _ (links_next h1)
  rw [if_neg (not_not.mpr h1), entry_at_placed hpdpt]
  generalize (s.tables pml4t).next (pml4t_index address) = pdpt at h
  by_cases h2 : present ((s.tables pdpt).physical (pdpt_index address))
  swap
  · rw [if_pos h2, if_neg (fun h => h2 h.2.1)]
    rfl
  obtain ⟨hpdt, h⟩ := h _ (links_next h2)
  rw [if_neg (not_not.mpr h2), entry_at_placed hpdt]
  generalize (s.tables pdpt).next (pdpt_index address) = pdt at h
  by_cases h3 : present ((s.tables pdt).physical (pdt_index address))
  swap
  · rw [if_pos h3, if_neg (fun h => h3 h.2.2.1)]
    rfl
  rw [if_neg (not_not.mpr h3), entry_at_placed (h _ (links_next h3))]
  generalize (s.tables pdt).next (pdt_index address) = pt
  by_cases h4 : present (s.pts pt (pt_index address))
  · rw [if_neg (not_not.mpr h4), if_pos ⟨h1, h2, h3, h4⟩]
    rfl
  · rw [if_pos h4, if_neg (fun h => h4 h.2.2.2)]
    rfl

/-- What holds in the runs in which no directory is cloned that has a PDT below its slot 511. -/
theorem spared_agreed {w : Spaces} (hw : Reach (Spaces.starts boot) Spaces.spared Spaces.step w) :
    Spaced boot.W w.dirs w.live boot.released w.state ∧ Agreed w.state := by
  refine Reach.invariant
    (fun w => Spaced boot.W w.dirs w.live boot.released w.state ∧ Agreed w.state)
    (fun _ hs => hs.spaced) ?_ hw
  intro w request w' hinv hspared hstep
  obtain ⟨h1, h2⟩ := Spaces.step_spaced hinv.1 hspared.1 hstep
  exact ⟨h1, h2 hspared hinv.2⟩

/-- In every run in which no directory is cloned that has a PDT below its slot 511, each entry of
each table names the frame of the table that its pointer leads to, and in each address space
the hardware finds what `mmu_virtual_to_physical` finds. -/
theorem hardware_and_software_agree (boot : Boot) (w : Spaces)
    (hw : Reach (Spaces.starts boot) Spaces.spared Spaces.step w) :
    (∀ a i, present ((w.state.tables a).physical i) →
      w.state.placed (page_base ((w.state.tables a).physical i)) =
        some ((w.state.tables a).next i)) ∧
    ∀ d ∈ w.dirs,
      w.state.placed (w.state.directories d).physical = some (w.state.directories d).pml4t ∧
      ∀ address, hardware_walk w.state (w.state.directories d).physical address =
        mmu_virtual_to_physical (mmu_set_directory w.state d) address := by
  obtain ⟨hspaced, hagreed⟩ := spared_agreed hw
  refine ⟨fun a i hp => hagreed a i _ (links_next hp), fun d hd => ?_⟩
  have hroot := (hspaced.sound.roots d hd).2.2
  exact ⟨hroot, fun address => hardware_walk_eq hroot (hagreed.named _ address)⟩

/-! ## Clones on the small machine -/

theorem with_frames {frames : Frames} (h : s.frames = frames) : { s with frames } = s := by
  subst h
  rfl

/-- Where the pass over the memory map frees no frame that boot.s maps, the loops of `mmu_init`
leave the frames as they are. -/
theorem mmu_init_before {frames : Frames} (fuel : Nat)
    (hrelease : release_entries (fun _ => BitVec.allOnes 64) boot.entries = .ok frames)
    (hlow : ∀ i, i < 8 → frames i = BitVec.allOnes 64) : mmu_init fuel boot = (do
      let (_, _, s) ← ksbrk_physical fuel { boot.before_ksbrk frames with frames } 0
      .ok s) := by
  rw [mmu_init_eq, hrelease, ok_bind, with_frames (before_ksbrk_frames boot hlow)]

/-- What the small machine comes to `ksbrk` with. -/
def small_before : Mmu := { small_boot.before_ksbrk small_frames with frames := small_frames }

theorem small_init (fuel : Nat) : mmu_init fuel small_boot = (do
    let (_, _, s) ← ksbrk_physical fuel small_before 0
    .ok s) :=
  mmu_init_before fuel small_frames_released (fun i hi => small_frames_low ⟨i, hi⟩)

/-- Behind `mmu_init`, a clone of the empty address space, or a page at address 0, and then a
clone. -/
def small_clones : Result Bool := do
  let (_, _, s) ← ksbrk_physical 24 small_before 0
  let _ ← mmu_clone_directory 24 s small_boot.orig_active_directory
  let (_, _, mapped) ← check_virtual_region_is_free (allocate_pt 24) s 0 true false 0
  let (d, cloned) ← mmu_clone_directory 24 mapped small_boot.orig_active_directory
  .ok (page_entry cloned d 0).isSome

set_option maxRecDepth 100000 in
theorem small_clones_return :
    (match small_clones with | .ok found => found | .error _ => false) = true := by
  decide +kernel

/-- All of these calls return, and the last clone has a page at address 0. -/
theorem small_boot_clones : ∃ s, mmu_init 24 small_boot = .ok s ∧
    (∃ d cloned, mmu_clone_directory 24 s small_boot.orig_active_directory = .ok (d, cloned)) ∧
    ∃ free physical mapped d cloned,
      check_virtual_region_is_free (allocate_pt 24) s 0 true false 0 =
        .ok (free, physical, mapped) ∧
      mmu_clone_directory 24 mapped small_boot.orig_active_directory = .ok (d, cloned) ∧
      (page_entry cloned d 0).isSome = true := by
  have hreturn := small_clones_return
  cases hcalls : small_clones with
  | error e =>
    rw [hcalls] at hreturn
    cases hreturn
  | ok found =>
    rw [hcalls] at hreturn
    unfold small_clones at hcalls
    obtain ⟨⟨rc, physical, s⟩, h1, hcalls⟩ := bind_eq_ok.mp hcalls
    obtain ⟨⟨d, cloned⟩, h2, hcalls⟩ := bind_eq_ok.mp hcalls
    obtain ⟨⟨free, p, mapped⟩, h3, hcalls⟩ := bind_eq_ok.mp hcalls
    obtain ⟨⟨d', cloned'⟩, h4, hcalls⟩ := bind_eq_ok.mp hcalls
    refine ⟨s, ?_, ⟨d, cloned, h2⟩, free, p, mapped, d', cloned', h3, h4, ?_⟩
    · rw [small_init, h1]
      rfl
    · exact (Except.ok.inj hcalls).trans hreturn

/-- What a request makes of the address spaces. -/
theorem Spaces.step_clone {w : Spaces} {d' : Nat}
    (h : mmu_clone_directory fuel w.state d = .ok (d', s)) :
    w.step (.clone fuel d) = .ok { w with state := s, dirs := d' :: w.dirs } := by
  simp only [Spaces.step, h, ok_bind]

theorem Spaces.step_page {w : Spaces} {free : Bool} {physical : Option Nat}
    (h : check_virtual_region_is_free (allocate_pt fuel) w.state a true false 0 =
      .ok (free, physical, s)) : w.step (.page fuel a) = .ok { w with state := s } := by
  simp only [Spaces.step, h, ok_bind]

/-- What `mmu_init` leaves: one address space, and no page of a device. -/
def Spaces.init (boot : Boot) (s : Mmu) : Spaces :=
  { state := s, dirs := [boot.orig_active_directory], live := fun _ => False }

/-- A page of the address space that `mmu_init` leaves. -/
theorem Spaces.first_page {free : Bool} {physical : Option Nat}
    (hinit : mmu_init fuel boot = .ok s)
    (h : check_virtual_region_is_free (allocate_pt fuel) s a true false 0 =
      .ok (free, physical, s')) :
    Spaces.Reachable boot { Spaces.init boot s with state := s' } := by
  have hstart : Spaces.Reachable boot (Spaces.init boot s) :=
    .start ⟨⟨fuel, hinit⟩, rfl, fun _ => id⟩
  have hallowed : (Spaces.init boot s).allowed (.page fuel a) := trivial
  exact hstart.next hallowed (Spaces.step_page h)

/-- A clone of the address space that `mmu_init` leaves. -/
theorem Spaces.first_clone {d' : Nat} (hinit : mmu_init fuel boot = .ok s)
    (hclone : mmu_clone_directory fuel s boot.orig_active_directory = .ok (d', s')) :
    Reach (Spaces.starts boot) Spaces.spared Spaces.step
      { Spaces.init boot s with state := s', dirs := [d', boot.orig_active_directory] } := by
  have hstart : Reach (Spaces.starts boot) Spaces.spared Spaces.step (Spaces.init boot s) :=
    .start ⟨⟨fuel, hinit⟩, rfl, fun _ => id⟩
  refine hstart.next ⟨List.mem_singleton_self _, fun _ _ heq => ?_⟩ (Spaces.step_clone hclone)
  cases heq
  exact (spec_of_ok (mmu_init.spaced fuel boot) hinit).2.2

theorem hardware_and_software_agree_on_a_clone : ∃ s d cloned,
    mmu_init 24 small_boot = .ok s ∧
    mmu_clone_directory 24 s small_boot.orig_active_directory = .ok (d, cloned) ∧
    ∀ address, hardware_walk cloned (cloned.directories d).physical address =
      mmu_virtual_to_physical (mmu_set_directory cloned d) address := by
  obtain ⟨s, hinit, ⟨d, cloned, hclone⟩, -⟩ := small_boot_clones
  obtain ⟨-, hspaces⟩ :=
    hardware_and_software_agree small_boot _ (Spaces.first_clone hinit hclone)
  exact ⟨s, d, cloned, hinit, hclone, (hspaces d List.mem_cons_self).2⟩

end salsola.mmu
