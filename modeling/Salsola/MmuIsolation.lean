-- Address spaces do not mix: they share the window of the kernel and nothing else, and a clone
-- is an exact copy on frames of its own. Both are about the ways that the pointers lead. The CPU,
-- which walks the entries, goes the same ways in the slot 511, and below it where no directory
-- has been cloned that has a PDT there.
import Salsola.MmuSpaces

open memory outcome runs

namespace salsola.mmu

variable {W : Nat} {dirs : List Nat} {s s' : Mmu} {a b c c' d d' e i j k n r r' t t' : Nat}
variable {i' j' k' x : Nat} {live usable : Nat → Prop}

/-! ## The way to a page table -/

/-- The indices lead from the PML4T `r` to the PT `t`. -/
def Leads (s : Mmu) (r i j k t : Nat) : Prop := ∃ b c, Links s r i b ∧ Links s b j c ∧ Links s c k t

/-- A page that is present lies in a PT, and there is a way to it. -/
theorem page_entry_eq_some : page_entry s d a = some e ↔
    ∃ t, Leads s (root s d) (pml4t_index a) (pdpt_index a) (pdt_index a) t ∧
      s.pts t (pt_index a) = e ∧ present e := by
  unfold page_entry Leads
  dsimp only
  constructor
  · intro h
    split at h
    · rename_i hp
      obtain rfl := Option.some.inj h
      exact ⟨_, ⟨_, _, links_next hp.1, links_next hp.2.1, links_next hp.2.2.1⟩, rfl, hp.2.2.2⟩
    · cases h
  · rintro ⟨t, ⟨b, c, h1, h2, h3⟩, rfl, hp⟩
    obtain ⟨h1, rfl⟩ := h1
    obtain ⟨h2, rfl⟩ := h2
    obtain ⟨h3, rfl⟩ := h3
    exact if_pos ⟨h1, h2, h3, hp⟩

/-- There is one way to a PT, but that all directories have the slot 511. -/
theorem Leads.unique (h : Leads s r i j k t) (h' : Leads s r' i' j' k' t) (hs : Sound W dirs s) :
    (i = i' ∧ j = j' ∧ k = k') ∧ (i = 511 ∨ r = r') := by
  obtain ⟨b, c, h1, h2, h3⟩ := h
  obtain ⟨b', c', h1', h2', h3'⟩ := h'
  obtain ⟨rfl, hk⟩ := links_inj hs h3 h3' (linked_not_root hs h2)
  obtain ⟨rfl, hj⟩ := links_inj hs h2 h2' (linked_not_root hs h1)
  rcases hs.tree _ _ _ _ _ h1 h1' with ⟨hr, hi⟩ | ⟨hi, hi', -⟩
  · exact ⟨⟨hi, hj, hk⟩, Or.inr hr⟩
  · exact ⟨⟨hi.trans hi'.symm, hj, hk⟩, Or.inl hi⟩

/-- Addresses with one page have the same page number. -/
theorem one_page (hi : pml4t_index a = pml4t_index b) (hj : pdpt_index a = pdpt_index b)
    (hk : pdt_index a = pdt_index b) (hl : pt_index a = pt_index b) :
    a % 2 ^ 48 / 0x1000 = b % 2 ^ 48 / 0x1000 := by
  have ha := low_bits a
  have hb := low_bits b
  omega

/-- The address lies in a page whose address is `live`. -/
def InDevice (live : Nat → Prop) (a : Nat) : Prop :=
  ∃ v, live v ∧ v % 2 ^ 48 / 0x1000 = a % 2 ^ 48 / 0x1000

/-- Pages of devices lie in the slot 511. -/
theorem Spaced.device_slot (h : Spaced W dirs live usable s) (ha : InDevice live a) :
    pml4t_index a = 511 := by
  obtain ⟨v, hv, hpage⟩ := ha
  obtain ⟨x, rfl, hx, -⟩ := h.devices v hv
  have h511 := pml4t_index_window hx
  have hbits := low_bits (window x)
  have hbits' := low_bits a
  have h2 := index_lt 2 a
  have h1 := index_lt 1 a
  have h0 := index_lt 0 a
  have h2' := index_lt 2 (window x)
  have h1' := index_lt 1 (window x)
  have h0' := index_lt 0 (window x)
  rw [show index 2 a = pdpt_index a from rfl] at h2
  rw [show index 1 a = pdt_index a from rfl] at h1
  rw [show index 0 a = pt_index a from rfl] at h0
  rw [show index 2 (window x) = pdpt_index (window x) from rfl] at h2'
  rw [show index 1 (window x) = pdt_index (window x) from rfl] at h1'
  rw [show index 0 (window x) = pt_index (window x) from rfl] at h0'
  omega

/-- The word of a page that is none of a device. -/
theorem Spaced.no_device (h : Spaced W dirs live usable s) (hd : d ∈ dirs) (ha : ¬ InDevice live a)
    (hl : Leads s (root s d) (pml4t_index a) (pdpt_index a) (pdt_index a) t) :
    ¬ Device W live s t (pt_index a) := by
  rintro ⟨x, hx, rfl, hi⟩
  obtain ⟨y, hxy, hlt, hm, -⟩ := h.devices _ hx
  obtain rfl := window_inj hxy
  have hlinks := hm.covered.links
  have hl' : Leads s (root s d) 511 (x / 512 / 512) (x / 512 % 512) (pt_of s W (x / 512)) :=
    ⟨_, _, (h.sound.roots d hd).2.1, hlinks.1, hlinks.2⟩
  obtain ⟨⟨h3, h2, h1⟩, -⟩ := hl.unique hl' h.sound
  refine ha ⟨window x, hx, one_page ?_ ?_ ?_ ?_⟩
  · rw [pml4t_index_window hlt, h3]
  · rw [pdpt_index_window hlt, h2]
  · rw [pdt_index_window, h1]
  · rw [pt_index_window, hi]

/-- Two pages on one frame are one page, of one directory or of the slot 511. -/
theorem Spaced.page_unique (h : Spaced W dirs live usable s) (hd : d ∈ dirs) (hd' : d' ∈ dirs)
    {e' : Nat} (hna : ¬ InDevice live a) (hnb : ¬ InDevice live b)
    (ha : page_entry s d a = some e) (hb : page_entry s d' b = some e')
    (hsame : e / 0x1000 = e' / 0x1000) :
    a % 2 ^ 48 / 0x1000 = b % 2 ^ 48 / 0x1000 ∧ pml4t_index a = pml4t_index b ∧
      (pml4t_index a = 511 ∨ d = d') := by
  obtain ⟨t, hl, rfl, hp⟩ := page_entry_eq_some.mp ha
  obtain ⟨t', hl', rfl, hp'⟩ := page_entry_eq_some.mp hb
  obtain ⟨rfl, hpt⟩ :=
    h.owned _ _ _ _ hp (h.no_device hd hna hl) hp' (h.no_device hd' hnb hl') hsame
  obtain ⟨⟨hi, hj, hk⟩, hroot⟩ := hl.unique hl' h.sound
  exact ⟨one_page hi hj hk hpt, hi, hroot.imp_right (h.rooted d hd d' hd')⟩

/-- The slot 511 is the same in all directories. -/
theorem Sound.window_entry (h : Sound W dirs s) (hd : d ∈ dirs) (hd' : d' ∈ dirs)
    (ha : pml4t_index a = 511) : page_entry s d a = page_entry s d' a := by
  have hlink := (h.roots d hd).2.1
  have hlink' := (h.roots d' hd').2.1
  unfold page_entry
  dsimp only
  rw [ha, hlink.2, hlink'.2]
  simp only [hlink.1, hlink'.1]

/-- Where the entries on the way name the tables that the pointers lead to, the CPU finds the
page that the pointers lead to. -/
theorem walk_entry (hroot : s.placed (s.directories d).physical = some (root s d))
    (h : Named s (root s d) a) : hardware_walk s (s.directories d).physical a =
      (page_entry s d a).map fun e => page_base e + a % 0x1000 := by
  rw [hardware_walk_eq hroot h, virtual_to_physical_eq]
  congr 1
  funext e
  rw [and_low]
  exact or_flags _ _ (by unfold page_base; omega) (Nat.mod_lt _ (by decide))

/-- The CPU sees the slot 511 in the same way in all address spaces. -/
theorem Spaced.window_walk (h : Spaced W dirs live usable s) (hd : d ∈ dirs) (hd' : d' ∈ dirs)
    (ha : pml4t_index a = 511) : hardware_walk s (s.directories d).physical a =
      hardware_walk s (s.directories d').physical a := by
  rw [walk_entry (h.sound.roots d hd).2.2 (h.named hd ha),
    walk_entry (h.sound.roots d' hd').2.2 (h.named hd' ha), h.sound.window_entry hd hd' ha]

/-- In every run, all address spaces see the window of the kernel in the same way, by the pointers
and by the entries, and two pages that have one frame are one page, of one address space or of
that window, where neither is a page that `mmu_map_frames` has mapped. The pages are those that
the pointers lead to. They are those that the CPU finds as well in the runs in which no
directory is cloned that has a PDT below its slot 511. -/
theorem address_spaces_share_the_kernel_only (boot : Boot) (w : Spaces)
    (hw : Spaces.Reachable boot w) (d d' : Nat) (hd : d ∈ w.dirs) (hd' : d' ∈ w.dirs) :
    (∀ a, pml4t_index a = 511 → page_entry w.state d a = page_entry w.state d' a ∧
      hardware_walk w.state (w.state.directories d).physical a =
        hardware_walk w.state (w.state.directories d').physical a ∧
      hardware_walk w.state (w.state.directories d).physical a =
        mmu_virtual_to_physical (mmu_set_directory w.state d) a) ∧
    (∀ a b e e', ¬ InDevice w.live a → ¬ InDevice w.live b →
      page_entry w.state d a = some e → page_entry w.state d' b = some e' →
      e / 0x1000 = e' / 0x1000 →
      a % 2 ^ 48 / 0x1000 = b % 2 ^ 48 / 0x1000 ∧ (pml4t_index a = 511 ∨ d = d')) ∧
    (Reach (Spaces.starts boot) Spaces.spared Spaces.step w →
      ∀ a b p p', ¬ InDevice w.live a → ¬ InDevice w.live b →
        hardware_walk w.state (w.state.directories d).physical a = some p →
        hardware_walk w.state (w.state.directories d').physical b = some p' →
        p / 0x1000 = p' / 0x1000 →
        a % 2 ^ 48 / 0x1000 = b % 2 ^ 48 / 0x1000 ∧ (pml4t_index a = 511 ∨ d = d')) := by
  have hspaced := hw.spaced
  have hroot := (hspaced.sound.roots d hd).2.2
  have hroot' := (hspaced.sound.roots d' hd').2.2
  have hunique : ∀ a b e e', ¬ InDevice w.live a → ¬ InDevice w.live b →
      page_entry w.state d a = some e → page_entry w.state d' b = some e' →
      e / 0x1000 = e' / 0x1000 →
      a % 2 ^ 48 / 0x1000 = b % 2 ^ 48 / 0x1000 ∧ (pml4t_index a = 511 ∨ d = d') := by
    intro a b e e' hna hnb ha hb hsame
    obtain ⟨hpage, -, hspace⟩ := hspaced.page_unique hd hd' hna hnb ha hb hsame
    exact ⟨hpage, hspace⟩
  refine ⟨fun a ha => ?_, hunique, fun hspared a b p p' hna hnb ha hb => ?_⟩
  · exact ⟨hspaced.sound.window_entry hd hd' ha, hspaced.window_walk hd hd' ha,
      hardware_walk_eq hroot (hspaced.named hd ha)⟩
  obtain ⟨-, hagreed⟩ := spared_agreed hspared
  rw [walk_entry hroot (hagreed.named _ a)] at ha
  rw [walk_entry hroot' (hagreed.named _ b)] at hb
  obtain ⟨e, he, rfl⟩ := Option.map_eq_some_iff.mp ha
  obtain ⟨e', he', rfl⟩ := Option.map_eq_some_iff.mp hb
  intro hsame
  refine hunique a b e e' hna hnb he he' ?_
  unfold page_base at hsame
  omega

/-- A clone of the empty address space, and for the CPU too. -/
theorem the_kernel_is_shared_with_a_clone : ∃ s d cloned,
    mmu_init 24 small_boot = .ok s ∧
    mmu_clone_directory 24 s small_boot.orig_active_directory = .ok (d, cloned) ∧
    (∀ a, pml4t_index a = 511 → hardware_walk cloned (cloned.directories d).physical a =
      hardware_walk cloned (cloned.directories small_boot.orig_active_directory).physical a) ∧
    ∀ a b p p', hardware_walk cloned (cloned.directories d).physical a = some p →
      hardware_walk cloned (cloned.directories small_boot.orig_active_directory).physical b =
        some p' → p / 0x1000 = p' / 0x1000 →
      a % 2 ^ 48 / 0x1000 = b % 2 ^ 48 / 0x1000 ∧
        (pml4t_index a = 511 ∨ d = small_boot.orig_active_directory) := by
  obtain ⟨s, hinit, ⟨d, cloned, hclone⟩, -⟩ := small_boot_clones
  have hspared := Spaces.first_clone hinit hclone
  have hreach := hspared.weaken (fun _ _ hspared => hspared.1)
  obtain ⟨hkernel, -, hcpu⟩ := address_spaces_share_the_kernel_only small_boot _ hreach d
    small_boot.orig_active_directory List.mem_cons_self
    (List.mem_cons_of_mem _ List.mem_cons_self)
  have hno : ∀ a, ¬ InDevice (fun _ => False) a := fun _ ⟨_, hv, _⟩ => hv
  exact ⟨s, d, cloned, hinit, hclone, fun a ha => (hkernel a ha).2.1,
    fun a b p p' ha hb => hcpu hspared a b p p' (hno a) (hno b) ha hb⟩

/-! ## What a clone is -/

/-- Below the other slots than 511 a PT lies outside of the window. -/
theorem Leads.below (hl : Leads s (root s d) i j k t) (h : Sound W dirs s) (hd : d ∈ dirs)
    (hi : i ≠ 511) : Below W dirs s t := by
  obtain ⟨b, c, h1, h2, h3⟩ := hl
  have hb := below_of_link h h1 (root_outside h hd) (Or.inl hi)
  have hc := below_of_link h h2 hb.outside (Or.inr hb.not_root)
  exact below_of_link h h3 hc.outside (Or.inr hc.not_root)

/-- Tables outside of the window stay, so the ways below the other slots stay. -/
theorem Outside.leads (ho : Outside W s s') (h : Sound W dirs s) (hd : d ∈ dirs) (hi : i ≠ 511) :
    (Leads s' (root s d) i j k t ↔ Leads s (root s d) i j k t) ∧
      (Leads s (root s d) i j k t → s'.pts t = s.pts t) := by
  have hroot := (ho _ (root_table h hd) (root_outside h hd)).1
  have hsame : ∀ a i b, s'.tables a = s.tables a → (Links s' a i b ↔ Links s a i b) := by
    intro a i b heq
    unfold Links
    rw [heq]
  have hbelow : ∀ {b}, Links s (root s d) i b → Below W dirs s b :=
    fun hl => below_of_link h hl (root_outside h hd) (Or.inl hi)
  have hnext : ∀ {b j c}, Below W dirs s b → Links s b j c → Below W dirs s c :=
    fun hb hl => below_of_link h hl hb.outside (Or.inr hb.not_root)
  have htables : ∀ {b}, Below W dirs s b → s'.tables b = s.tables b :=
    fun hb => (ho _ hb.table hb.outside).1
  refine ⟨⟨?_, ?_⟩, ?_⟩
  · rintro ⟨b, c, h1, h2, h3⟩
    have h1 := (hsame _ _ _ hroot).mp h1
    have hb := hbelow h1
    have h2 := (hsame _ _ _ (htables hb)).mp h2
    have h3 := (hsame _ _ _ (htables (hnext hb h2))).mp h3
    exact ⟨b, c, h1, h2, h3⟩
  · rintro ⟨b, c, h1, h2, h3⟩
    have hb := hbelow h1
    exact ⟨b, c, (hsame _ _ _ hroot).mpr h1, (hsame _ _ _ (htables hb)).mpr h2,
      (hsame _ _ _ (htables (hnext hb h2))).mpr h3⟩
  · intro hl
    have ht := hl.below h hd hi
    exact (ho t ht.table ht.outside).2

/-- Where the tables outside of the window stay, the pages below the other slots than 511 do. -/
theorem Outside.page_entry (ho : Outside W s s') (h : Sound W dirs s)
    (hroot : root s' x = root s x) (hx : x ∈ dirs) (ha : pml4t_index a ≠ 511) :
    page_entry s' x a = page_entry s x a := by
  apply Option.ext
  intro e
  rw [page_entry_eq_some, page_entry_eq_some, hroot]
  constructor
  · rintro ⟨t, hl, hpage, hp⟩
    have hl := (ho.leads h hx ha).1.mp hl
    exact ⟨t, hl, by rw [← (ho.leads h hx ha).2 hl]; exact hpage, hp⟩
  · rintro ⟨t, hl, hpage, hp⟩
    exact ⟨t, (ho.leads h hx ha).1.mpr hl, by rw [(ho.leads h hx ha).2 hl]; exact hpage, hp⟩

/-- The pages of the address spaces that were there stay as they were. -/
theorem ClonedDirectory.old_entry (h : ClonedDirectory W dirs s d d' s') (hs : Sound W dirs s)
    (hx : x ∈ dirs) (ha : pml4t_index a ≠ 511) : page_entry s' x a = page_entry s x a := by
  refine h.outside.page_entry hs ?_ hx ha
  unfold root
  rw [h.others x hx]

theorem CopiedEntry.forth {copies : Mmu → Nat → Nat → Prop} (h : CopiedEntry copies s a b i)
    (hl : Links s a i c) : ∃ c', Links s b i c' ∧ copies s c c' := by
  obtain ⟨hp, rfl⟩ := hl
  exact ⟨_, links_next (h.1.mpr hp), h.2 hp⟩

theorem CopiedEntry.back {copies : Mmu → Nat → Nat → Prop} (h : CopiedEntry copies s a b i)
    (hl : Links s b i c') : ∃ c, Links s a i c ∧ copies s c c' := by
  obtain ⟨hp, rfl⟩ := hl
  exact ⟨_, links_next (h.1.mp hp), h.2 (h.1.mp hp)⟩

/-- A copy has the same ways, to copies of the PTs. -/
theorem CopiedEntry.leads (h : CopiedEntry (Copies 2) s r r' i) (hj : j < 512) (hk : k < 512) :
    (∀ t, Leads s r i j k t → ∃ t', Leads s r' i j k t' ∧ Copies 0 s t t') ∧
      ∀ t', Leads s r' i j k t' → ∃ t, Leads s r i j k t ∧ Copies 0 s t t' := by
  constructor
  · rintro t ⟨b, c, h1, h2, h3⟩
    obtain ⟨b', h1', hb⟩ := h.forth h1
    obtain ⟨c', h2', hc⟩ := (hb j hj).forth h2
    obtain ⟨t', h3', ht⟩ := (hc k hk).forth h3
    exact ⟨t', ⟨b', c', h1', h2', h3'⟩, ht⟩
  · rintro t' ⟨b', c', h1', h2', h3'⟩
    obtain ⟨b, h1, hb⟩ := h.back h1'
    obtain ⟨c, h2, hc⟩ := (hb j hj).back h2'
    obtain ⟨t, h3, ht⟩ := (hc k hk).back h3'
    exact ⟨t, ⟨b, c, h1, h2, h3⟩, ht⟩

/-- The PTs of a clone are new. -/
theorem ClonedDirectory.new_pt (h : ClonedDirectory W dirs s d d' s') (hs : Sound W dirs s)
    (hl : Leads s' (root s' d') i j k t) (hi : i ≠ 511) : ¬ IsTable s t := by
  obtain ⟨b, c, h1, h2, h3⟩ := hl
  have hnot : ∀ {a i b}, Links s' a i b → ¬ IsTable s a → (a = root s' d' → i ≠ 511) →
      ¬ IsTable s b := by
    intro a i b hlink ha hslot
    rcases h.target a i b hlink with h4 | h4 | ⟨h4, h5⟩
    · exact absurd (hs.links _ _ _ h4).1 ha
    · exact h4
    · exact absurd h5 (hslot h4)
  have hroot : ∀ {a i b}, Links s' a i b → b ≠ root s' d' :=
    fun hlink heq => linked_not_root h.sound hlink d' List.mem_cons_self heq.symm
  have hb := hnot h1 h.root_new (fun _ => hi)
  have hc := hnot h2 hb (fun heq => absurd heq (hroot h1))
  exact hnot h3 hc (fun heq => absurd heq (hroot h2))

/-- Each page of the original has its copy, on a frame that was free. -/
theorem Spaced.copied_page (hspaced : Spaced W dirs live usable s)
    (h : ClonedDirectory W dirs s d d' s') (hd : d ∈ dirs) (ha : pml4t_index a ≠ 511)
    (he : page_entry s d a = some e) :
    ∃ e', page_entry s' d' a = some e' ∧ e' % 0x1000 = e % 0x1000 ∧
      ¬ taken s.frames (e' / 0x1000) ∧ taken s'.frames (e' / 0x1000) ∧
      ∀ k, k < 0x1000 → s'.ram (page_base e' + k) = s.ram (page_base e + k) ∧
        s'.ram (page_base e + k) = s.ram (page_base e + k) := by
  have hs := hspaced.sound
  have hlow := index_lt 3 a
  rw [show index 3 a = pml4t_index a from rfl] at hlow
  obtain ⟨t, hl, rfl, hp⟩ := page_entry_eq_some.mp he
  have hl' := (h.outside.leads hs hd ha).1.mpr hl
  have hpts := (h.outside.leads hs hd ha).2 hl
  obtain ⟨t', ht', hcopy⟩ := ((h.copied _ (by omega : pml4t_index a < 511)).leads (index_lt 2 a)
    (index_lt 1 a)).1 t hl'
  have hsame := hcopy _ (index_lt 0 a)
  rw [show index 0 a = pt_index a from rfl, hpts] at hsame
  have hp' := hsame.present_iff.mpr hp
  have hnew : NewPage s s' t' (pt_index a) :=
    ⟨hp', fun hold => h.new_pt hs ht' ha (hs.pages _ _ hold)⟩
  obtain ⟨hfree, htaken, -⟩ := h.fresh.frame _ _ hnew
  refine ⟨_, page_entry_eq_some.mpr ⟨t', ht', rfl, hp'⟩, hsame.flags hp, hfree, htaken, ?_⟩
  intro k hk
  have hkept : s'.ram (page_base (s.pts t (pt_index a)) + k) =
      s.ram (page_base (s.pts t (pt_index a)) + k) := by
    apply h.kept
    have hframe : (page_base (s.pts t (pt_index a)) + k) / 0x1000 =
        s.pts t (pt_index a) / 0x1000 := by
      unfold page_base
      omega
    rw [hframe]
    exact hspaced.backed.outside (hl.below hs hd ha).outside hp
  exact ⟨(hsame.bytes hp k hk).trans hkept, hkept⟩

/-- Where the original has no page, the clone has none. -/
theorem ClonedDirectory.no_copy (h : ClonedDirectory W dirs s d d' s') (hs : Sound W dirs s)
    (hd : d ∈ dirs) (ha : pml4t_index a ≠ 511) (he : page_entry s d a = none) :
    page_entry s' d' a = none := by
  have hlow := index_lt 3 a
  rw [show index 3 a = pml4t_index a from rfl] at hlow
  rw [Option.eq_none_iff_forall_ne_some] at he ⊢
  intro e' he'
  obtain ⟨t', ht', rfl, hp'⟩ := page_entry_eq_some.mp he'
  obtain ⟨t, hl', hcopy⟩ := ((h.copied _ (by omega : pml4t_index a < 511)).leads (index_lt 2 a)
    (index_lt 1 a)).2 t' ht'
  have hl := (h.outside.leads hs hd ha).1.mp hl'
  have hsame := hcopy _ (index_lt 0 a)
  rw [show index 0 a = pt_index a from rfl, (h.outside.leads hs hd ha).2 hl] at hsame
  exact he _ (page_entry_eq_some.mpr ⟨t, hl, rfl, hsame.present_iff.mp hp'⟩)

/-- As the pointers lead, `mmu_clone_directory` makes an exact copy on frames of its own. In every
run, below the slot 511 each address space that was there keeps its pages, and the clone has the
pages of the original, with the same flags and the same bytes, each on a frame that was free and
that no other page has, but for pages that `mmu_map_frames` has mapped. The slot 511 is shared,
and no other page of it has a frame of a page elsewhere: the pages that `copy_frame` mapped are
gone. The CPU need not find the copies below the slot 511: `clone_pdpt` takes all bits of the old
entries for flags, so the new ones need not name its PDTs. -/
theorem a_clone_is_an_isolated_copy (boot : Boot) (w : Spaces) (hw : Spaces.Reachable boot w)
    (d : Nat) (hd : d ∈ w.dirs) (fuel d' : Nat) (s' : Mmu)
    (hcall : mmu_clone_directory fuel w.state d = .ok (d', s')) :
    (∀ a, pml4t_index a ≠ 511 →
      (∀ x ∈ w.dirs, page_entry s' x a = page_entry w.state x a) ∧
      (page_entry w.state d a = none → page_entry s' d' a = none) ∧
      ∀ e, page_entry w.state d a = some e → ∃ e', page_entry s' d' a = some e' ∧
        e' % 0x1000 = e % 0x1000 ∧
        ¬ taken w.state.frames (e' / 0x1000) ∧ taken s'.frames (e' / 0x1000) ∧
        (∀ k, k < 0x1000 → s'.ram (page_base e' + k) = w.state.ram (page_base e + k) ∧
          s'.ram (page_base e + k) = w.state.ram (page_base e + k)) ∧
        ∀ x ∈ d' :: w.dirs, ∀ b f, ¬ InDevice w.live b → page_entry s' x b = some f →
          f / 0x1000 = e' / 0x1000 → x = d' ∧ b % 2 ^ 48 / 0x1000 = a % 2 ^ 48 / 0x1000) ∧
    ((s'.tables (root s' d')).physical 511 = (s'.tables (root s' d)).physical 511 ∧
      (s'.tables (root s' d')).next 511 = (s'.tables (root s' d)).next 511) ∧
    ∀ x ∈ d' :: w.dirs, ∀ y ∈ d' :: w.dirs, ∀ a b e f, pml4t_index a = 511 →
      ¬ InDevice w.live a → pml4t_index b ≠ 511 → page_entry s' x a = some e →
      page_entry s' y b = some f → e / 0x1000 ≠ f / 0x1000 := by
  have hspaced := hw.spaced
  have hclone := spec_of_ok
    (mmu_clone_directory.spec hspaced.sound hspaced.backed hd fuel) hcall
  dsimp only at hclone
  have hspaced' := hspaced.clones hclone
  have hslot : ∀ {a}, pml4t_index a ≠ 511 → ¬ InDevice w.live a :=
    fun ha hdev => ha (hspaced.device_slot hdev)
  refine ⟨fun a ha => ⟨fun x hx => hclone.old_entry hspaced.sound hx ha,
    hclone.no_copy hspaced.sound hd ha, fun e he => ?_⟩, ?_, ?_⟩
  · obtain ⟨e', he', hflags, hfree, htaken, hbytes⟩ := hspaced.copied_page hclone hd ha he
    refine ⟨e', he', hflags, hfree, htaken, hbytes, ?_⟩
    intro x hx b f hnb hf hsame
    obtain ⟨hpage, hindex, hspace⟩ :=
      hspaced'.page_unique hx List.mem_cons_self hnb (hslot ha) hf he' hsame
    exact ⟨hspace.resolve_left (fun h511 => ha (hindex.symm.trans h511)), hpage⟩
  · have hroot : root s' d = root w.state d := by
      unfold root
      rw [hclone.others d hd]
    rw [hroot, (hclone.outside _ (root_table hspaced.sound hd)
      (root_outside hspaced.sound hd)).1]
    exact hclone.shared
  · intro x hx y hy a b e f ha hna hb he hf hsame
    obtain ⟨-, hindex, -⟩ := hspaced'.page_unique hx hy hna (hslot hb) he hf hsame
    exact hb (hindex.symm.trans ha)

/-- The page at address 0 of the small machine, and its copy. -/
theorem a_clone_on_the_small_machine : ∃ mapped d cloned,
    mmu_clone_directory 24 mapped small_boot.orig_active_directory = .ok (d, cloned) ∧
    ∃ e e', page_entry mapped small_boot.orig_active_directory 0 = some e ∧
      page_entry cloned d 0 = some e' ∧ ¬ taken mapped.frames (e' / 0x1000) ∧
      ∀ k, k < 0x1000 → cloned.ram (page_base e' + k) = mapped.ram (page_base e + k) := by
  obtain ⟨s, hinit, -, free, p, mapped, d, cloned, hmap, hclone, hfound⟩ := small_boot_clones
  obtain ⟨hcopied, -⟩ := a_clone_is_an_isolated_copy small_boot _
    (Spaces.first_page hinit hmap) small_boot.orig_active_directory (List.mem_singleton_self _)
    24 d cloned hclone
  obtain ⟨-, hnone, hsome⟩ := hcopied 0 (by decide)
  cases hpage : page_entry mapped small_boot.orig_active_directory 0 with
  | none =>
    rw [hnone hpage] at hfound
    cases hfound
  | some e =>
    obtain ⟨e', he', -, hfree, -, hbytes, -⟩ := hsome e hpage
    exact ⟨mapped, d, cloned, hclone, e, e', hpage, he', hfree, fun k hk => (hbytes k hk).1⟩

end salsola.mmu
