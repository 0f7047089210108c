-- The calls of the kernel on its page tables, in any order: `ksbrk`, `mmu_map_frames`,
-- and `mmu_unmap_frames` for what `mmu_map_frames` mapped.
import Salsola.MmuStart

open memory outcome

namespace salsola.mmu

variable {W : Nat} {dirs : List Nat} {s s' : Mmu} {a b c i j n p q x y o length : Nat}

/-! ## Translations of whole pages -/

theorem index_low (level : Nat) (ha : a % 0x1000 = 0) (ho : o < 0x1000) :
    index level (a + o) = index level a := by
  have h : ∀ b, b / 2 ^ (12 + 9 * level) = b / 2 ^ 12 / 2 ^ (9 * level) := by
    intro b
    rw [Nat.div_div_eq_div_mul, Nat.pow_add]
  rw [index_eq, index_eq, h, h, show (a + o) / 2 ^ 12 = a / 2 ^ 12 by omega]

/-- Within a page, the offset is kept. -/
theorem translate_low (s : Mmu) (ha : a % 0x1000 = 0) (ho : o < 0x1000) :
    mmu_virtual_to_physical s (a + o) = (mmu_virtual_to_physical s a).map (· + o) := by
  have h3 : pml4t_index (a + o) = pml4t_index a := index_low 3 ha ho
  have h2 : pdpt_index (a + o) = pdpt_index a := index_low 2 ha ho
  have h1 : pdt_index (a + o) = pdt_index a := index_low 1 ha ho
  have h0 : pt_index (a + o) = pt_index a := index_low 0 ha ho
  have hlow : ∀ e, page_base e ||| ((a + o) &&& 0xFFF) = (page_base e ||| (a &&& 0xFFF)) + o := by
    intro e
    have he : page_base e % 0x1000 = 0 := by
      unfold page_base
      omega
    rw [and_low, and_low, ha, Nat.or_zero, show (a + o) % 0x1000 = o by omega,
      or_flags _ _ he ho]
  unfold mmu_virtual_to_physical
  simp only [h3, h2, h1, h0, hlow]
  split
  · rfl
  · split
    · rfl
    · split
      · rfl
      · split <;> rfl

theorem window_aligned (x : Nat) : window x % 0x1000 = 0 := by
  unfold window KERNEL_VMA
  omega

/-- Every address of a page of the window is translated by the entry of the page. -/
theorem translate_page (h : Sound W dirs s) (hx : x < WINDOW) (ho : o < 0x1000) :
    mmu_virtual_to_physical s (window x + o) =
      if Mapped s W x then some (page_base (page s W x) + o) else none := by
  rw [translate_low s (window_aligned x) ho, translate_window h hx]
  split <;> rfl

/-- The address `off` bytes behind page `c`. -/
theorem window_off (c off : Nat) :
    window c + off = window (c + off / 0x1000) + off % 0x1000 := by
  unfold window
  omega

/-! ## The runs -/

structure World where
  state : Mmu
  /-- The addresses of the pages that `mmu_map_frames` has mapped and nobody has unmapped. -/
  live : Nat → Prop

inductive Call
  | ksbrk (fuel length : Nat)
  | map (fuel src length : Nat)
  | unmap (virtual length : Nat)

/-- `a` is the address of a page of the region. -/
def Region (virtual length a : Nat) : Prop := ∃ k, k < turns length ∧ a = virtual + k * PAGE_SIZE

def World.step (w : World) : Call → Result World
  | .ksbrk fuel length => do
    let (_, state) ← ksbrk fuel w.state length
    .ok { w with state }
  | .map fuel src length => do
    let (virtual, state) ← mmu_map_frames fuel w.state src length
    .ok { state, live := fun a => w.live a ∨ Region virtual length a }
  | .unmap virtual length => do
    let state ← mmu_unmap_frames w.state virtual length
    .ok { state, live := fun a => w.live a ∧ ¬ Region virtual length a }

/-- Only what `mmu_map_frames` has mapped is unmapped. -/
def World.allowed (w : World) : Call → Prop
  | .unmap virtual length => ∀ a, Region virtual length a → w.live a
  | _ => True

/-- What `mmu_init` leaves. -/
def Starts (boot : Boot) (w : World) : Prop :=
  (∃ fuel, mmu_init fuel boot = .ok w.state) ∧ ∀ a, ¬ w.live a

/-- The states that the calls reach from `mmu_init`. -/
abbrev Reachable (boot : Boot) : World → Prop := Reach (Starts boot) World.allowed World.step

/-- What holds in each of them. -/
structure Held (W : Nat) (dirs : List Nat) (w : World) : Prop where
  sound : Sound W dirs w.state
  filled : ∃ q, Filled w.state W q
  live : ∀ a, w.live a → ∃ x, a = window x ∧ x < WINDOW ∧ Mapped w.state W x ∧
    ¬ IsTable w.state (window x)

/-- A call that makes tables takes no page that is mapped. -/
theorem Grows.not_table (h : Grows W s s') (hm : Mapped s W x) (hno : ¬ IsTable s (window x)) :
    ¬ IsTable s' (window x) := by
  rintro ⟨p, hp⟩
  rcases h.new p _ hp with h1 | ⟨y, -, hy, hmy⟩
  · exact hno ⟨p, h1⟩
  · rw [window_inj hy] at hm
    exact hmy hm

theorem Held.grows {w : World} (h : Held W dirs w) (hs : Sound W dirs s')
    (hfilled : ∃ q, Filled s' W q) (hg : Grows W w.state s') :
    Held W dirs { w with state := s' } where
  sound := hs
  filled := hfilled
  live a ha := by
    obtain ⟨x, hax, hx, hm, hno⟩ := h.live a ha
    exact ⟨x, hax, hx, hg.mapped hm, hg.not_table hm hno⟩

theorem region_window :
    Region (window c) length a ↔ ∃ k, k < turns length ∧ a = window (c + k) := by
  unfold Region PAGE_SIZE
  simp only [window_add]

/-- What has been mapped lies in the window, page by page. -/
theorem live_region {live : Nat → Prop} {v : Nat} (hlive : ∀ a, live a → ∃ x, a = window x ∧
      x < WINDOW ∧ Mapped s W x ∧ ¬ IsTable s (window x))
    (hregion : ∀ a, Region v length a → live a) (hlen : 0 < turns length) :
    ∃ c, v = window c ∧ c + turns length ≤ WINDOW ∧ ∀ k, k < turns length →
      Mapped s W (c + k) ∧ ¬ IsTable s (window (c + k)) := by
  obtain ⟨c, hc, -⟩ := hlive v (hregion v ⟨0, hlen, by omega⟩)
  have hpages : ∀ k, k < turns length → c + k < WINDOW ∧ Mapped s W (c + k) ∧
      ¬ IsTable s (window (c + k)) := by
    intro k hk
    obtain ⟨x, hx, h1, h2, h3⟩ := hlive (v + k * PAGE_SIZE) (hregion _ ⟨k, hk, rfl⟩)
    have hxc : x = c + k := by
      apply window_inj
      rw [← hx, hc, window_add]
      rfl
    rw [hxc] at h1 h2 h3
    exact ⟨h1, h2, h3⟩
  refine ⟨c, hc, ?_, fun k hk => (hpages k hk).2⟩
  have := (hpages (turns length - 1) (by omega)).1
  omega

theorem Held.pages {w : World} {v : Nat} (h : Held W dirs w)
    (hlive : ∀ a, Region v length a → w.live a) (hlen : 0 < turns length) :
    ∃ c, v = window c ∧ c + turns length ≤ WINDOW ∧ ∀ k, k < turns length →
      Mapped w.state W (c + k) ∧ ¬ IsTable w.state (window (c + k)) :=
  live_region h.live hlive hlen

/-- `mmu_unmap_frames` for pages that hold no table. -/
theorem mmu_unmap_frames.spec (h : Sound W dirs s) (hc : c + turns length ≤ WINDOW)
    (hpages : ∀ k, k < turns length → Mapped s W (c + k) ∧ ¬ IsTable s (window (c + k))) :
    Spec (mmu_unmap_frames s (window c) length) (fun _ => False)
      (fun s' => Sound W dirs s' ∧ Writes W s s' c (turns length) (fun _ => 0)) :=
  unmap_pages.spec h hc (fun k hk => (hpages k hk).1.covered) (fun k hk => (hpages k hk).2)

/-- `ksbrk` leaves no gap between the page tables. -/
theorem Held.ksbrk_filled {w : World} {fuel rc phys : Nat} (h : Held W dirs w)
    (hcall : ksbrk_physical fuel w.state length = .ok (rc, phys, s')) :
    ∃ q, Filled s' W q := by
  obtain ⟨q, hF⟩ := h.filled
  rcases Nat.eq_zero_or_pos length with rfl | hpos
  · obtain ⟨t, ht, -⟩ := hF.heap_le h.sound
    exact ⟨_, (spec_of_ok (ksbrk_nothing h.sound hF ht (Or.inl fun _ => trivial)) hcall).2⟩
  · have hfilled :=
      spec_of_ok (ksbrk_physical.exact h.sound hF hpos (Or.inl fun _ => trivial)) hcall
    exact hfilled

theorem Held.step {w w' : World} {call : Call} (h : Held W dirs w) (hall : w.allowed call)
    (hstep : w.step call = .ok w') : Held W dirs w' := by
  cases call with
  | ksbrk fuel length =>
    obtain ⟨⟨rc, s1⟩, h1, h2⟩ := bind_eq_ok.mp hstep
    cases h2
    obtain ⟨⟨rc', phys, s2⟩, h3, h4⟩ := bind_eq_ok.mp h1
    cases h4
    have hext := spec_of_ok (ksbrk_physical.spec h.sound fuel length) h3
    exact h.grows hext.sound (h.ksbrk_filled h3) hext.makes.grows
  | map fuel src length =>
    obtain ⟨⟨v, s1⟩, h1, h2⟩ := bind_eq_ok.mp hstep
    cases h2
    obtain ⟨c, rfl, hshown⟩ := spec_of_ok (mmu_map_frames.spec h.sound fuel src length) h1
    obtain ⟨q, hF⟩ := h.filled
    have hfilled := spec_of_ok (mmu_map_frames.exact h.sound hF src (Or.inl fun _ => trivial)) h1
    refine ⟨hshown.sound, hfilled, ?_⟩
    rintro a (ha | ha)
    · exact (h.grows hshown.sound hfilled hshown.grows).live a ha
    · obtain ⟨k, hk, rfl⟩ := region_window.mp ha
      have hbelow := hshown.below
      refine ⟨c + k, rfl, by omega, ?_, hshown.no_table k hk⟩
      unfold Mapped
      rw [(hshown.pages k hk).2]
      exact present_or _ _ rfl
  | unmap v length =>
    obtain ⟨s1, h1, h2⟩ := bind_eq_ok.mp hstep
    cases h2
    rcases Nat.eq_zero_or_pos (turns length) with hzero | hlen
    · unfold mmu_unmap_frames at h1
      rw [hzero] at h1
      cases h1
      exact ⟨h.sound, h.filled, fun a ha => h.live a ha.1⟩
    · obtain ⟨c, rfl, hc, hpages⟩ := h.pages hall hlen
      obtain ⟨hs1, hw⟩ := spec_of_ok (mmu_unmap_frames.spec h.sound hc hpages) h1
      obtain ⟨q, hF⟩ := h.filled
      refine ⟨hs1, ⟨q, hF.of_tables hw.tables⟩, ?_⟩
      rintro a ⟨ha, hout⟩
      obtain ⟨x, rfl, hx, hm, hno⟩ := h.live a ha
      refine ⟨x, rfl, hx, ?_, ?_⟩
      · have hxc : x < c ∨ c + turns length ≤ x := by
          by_contra hin
          exact hout (region_window.mpr ⟨x - c, by omega, by congr 1; omega⟩)
        unfold Mapped
        rw [hw.page_out h.sound hxc]
        exact hm
      · unfold IsTable
        rw [hw.rest]
        exact hno

theorem Reachable.held {boot : Boot} {w : World} (hw : Reachable boot w) :
    Held boot.W [boot.orig_active_directory] w := by
  refine Reach.invariant _ ?_ (fun _ _ _ h hall hstep => h.step hall hstep) hw
  rintro w ⟨⟨fuel, hinit⟩, hno⟩
  obtain ⟨hsound, hfilled⟩ := spec_of_ok (mmu_init.spec fuel boot) hinit
  exact ⟨hsound, hfilled, fun a ha => absurd ha (hno a)⟩

/-! ## Fresh memory -/

/-- `ksbrk_physical` hands out pages that were not mapped, on frames that were free, and every
address that was translated is translated as before. -/
theorem ksbrk_hands_out_fresh_memory (boot : Boot) (w : World) (hw : Reachable boot w)
    (fuel length rc phys : Nat) (s' : Mmu) (hlength : 0 < length)
    (hcall : ksbrk_physical fuel w.state length = .ok (rc, phys, s')) :
    ∃ frame : Nat → Nat,
      (∀ off, off < turns length * PAGE_SIZE →
        mmu_virtual_to_physical w.state (rc + off) = none ∧
        mmu_virtual_to_physical s' (rc + off) =
          some (frame (off / PAGE_SIZE) * PAGE_SIZE + off % PAGE_SIZE)) ∧
      (∀ k, k < turns length → frame k < NUM_OF_FRAMES * 64 ∧ frame k ≠ 0 ∧
        ¬ taken w.state.frames (frame k) ∧ taken s'.frames (frame k)) ∧
      (∀ j k, j < turns length → k < turns length → frame j = frame k → j = k) ∧
      phys = frame 0 * PAGE_SIZE ∧ s'.heap_end = rc + turns length * PAGE_SIZE ∧
      ∀ a p, mmu_virtual_to_physical w.state a = some p →
        mmu_virtual_to_physical s' a = some p := by
  have hs := hw.held.sound
  have hext := spec_of_ok (ksbrk_physical.spec hs fuel length) hcall
  dsimp only at hext
  obtain ⟨c, rfl, hheap, hc, hphys, hpages⟩ := hext.region (turns_pos hlength)
  have hgrows := hext.makes.grows
  have hnew : ∀ k, k < turns length →
      NewPage w.state s' (pt_of s' boot.W ((c + k) / 512)) ((c + k) % 512) ∧
      s'.pts (pt_of s' boot.W ((c + k) / 512)) ((c + k) % 512) = page s' boot.W (c + k) := by
    intro k hk
    obtain ⟨hno, hyes⟩ := hpages k hk
    exact ⟨hgrows.new_page hs hyes hno, (page_of_covered hyes.covered).symm⟩
  refine ⟨fun k => page s' boot.W (c + k) / 0x1000, ?_, ?_, ?_, hphys, ?_, ?_⟩
  · intro off hoff
    unfold PAGE_SIZE at hoff ⊢
    obtain ⟨hno, hyes⟩ := hpages (off / 0x1000) (by omega)
    rw [window_off, translate_page hs (by omega) (by omega), if_neg hno,
      translate_page hext.sound (by omega) (by omega), if_pos hyes]
    exact ⟨rfl, rfl⟩
  · intro k hk
    obtain ⟨hn, heq⟩ := hnew k hk
    obtain ⟨h1, h2, h3⟩ := hext.makes.fresh.frame _ _ hn
    rw [heq] at h1 h2 h3
    refine ⟨h3, ?_, h1, h2⟩
    intro hzero
    dsimp only at hzero
    rw [hzero] at h1
    exact h1 hs.zero
  · intro j k hj hk heq
    obtain ⟨hnj, hej⟩ := hnew j hj
    obtain ⟨hnk, hek⟩ := hnew k hk
    obtain ⟨h1, h2⟩ := hext.makes.fresh.apart _ _ _ _ hnj hnk (by rw [hej, hek]; exact heq)
    have := page_slot_inj hext.sound (hpages j hj).2.covered (hpages k hk).2.covered h1 h2
    omega
  · rw [hheap, window_add]
    rfl
  · intro a p hp
    exact hgrows.translates ⟨hext.makes.directories, hext.makes.active⟩ hp

theorem small_boot_starts : ∃ s, mmu_init WINDOW small_boot = .ok s ∧
    Reachable small_boot { state := s, live := fun _ => False } ∧
    (∀ src length, 0 < turns length → turns length ≤ 512 →
      ∃ v s', mmu_map_frames WINDOW s src length = .ok (v, s')) ∧
    ∃ rc phys s', ksbrk_physical WINDOW s 0x2000 = .ok (rc, phys, s') := by
  obtain ⟨s, hinit, hmap, hksbrk⟩ := small_boot_calls
  exact ⟨s, hinit, .start ⟨⟨WINDOW, hinit⟩, fun _ => id⟩, hmap, hksbrk⟩

theorem ksbrk_hands_out_fresh_memory_at_the_start :
    ∃ s rc phys s', mmu_init WINDOW small_boot = .ok s ∧
      ksbrk_physical WINDOW s 0x2000 = .ok (rc, phys, s') ∧ s'.heap_end = rc + 0x2000 ∧
      mmu_virtual_to_physical s rc = none ∧ mmu_virtual_to_physical s' rc = some phys := by
  obtain ⟨s, hinit, hw, -, rc, phys, s', hcall⟩ := small_boot_starts
  obtain ⟨frame, hpages, -, -, hphys, hheap, -⟩ :=
    ksbrk_hands_out_fresh_memory small_boot _ hw WINDOW 0x2000 rc phys s' (by decide) hcall
  obtain ⟨h1, h2⟩ := hpages 0 (by decide)
  rw [Nat.zero_div, Nat.zero_mod, Nat.add_zero, ← hphys] at h2
  exact ⟨s, rc, phys, s', hinit, hcall, hheap, h1, h2⟩

/-! ## Map, translate, unmap -/

/-- The low 48 bits of an address, from the indices of the four levels. -/
theorem low_bits (a : Nat) : a % 2 ^ 48 = pml4t_index a * 2 ^ 39 + pdpt_index a * 2 ^ 30 +
    pdt_index a * 2 ^ 21 + pt_index a * 2 ^ 12 + a % 0x1000 := by
  have h3 := index_eq 3 a
  have h2 := index_eq 2 a
  have h1 := index_eq 1 a
  have h0 := index_eq 0 a
  rw [show index 3 a = pml4t_index a from rfl] at h3
  rw [show index 2 a = pdpt_index a from rfl] at h2
  rw [show index 1 a = pdt_index a from rfl] at h1
  rw [show index 0 a = pt_index a from rfl] at h0
  omega

/-- A page table of the window is linked by the slot 511 alone. -/
theorem path_window (h : Sound W dirs s) {d : Nat} (hq : Covered s W q)
    (h1 : Links s s.pml4t i b) (h2 : Links s b j c) (h3 : Links s c n d)
    (hd : d = pt_of s W q) (hn : n < 512) : i = 511 ∧ q = j * 512 + n := by
  have hi : i = 511 := by
    by_contra hi
    have hb := link_outside h h1 (root_outside h h.active) (Or.inl hi)
    have hc := link_outside h h2 hb (Or.inr (linked_not_root h h1))
    have hout := link_outside h h3 hc (Or.inr (linked_not_root h h2))
    rw [hd] at hout
    exact hout (Or.inr (Or.inr ⟨_, _, _, hq.links.1, hq.links.2⟩))
  subst hi
  have hbW : b = W := h1.2.symm.trans (next_root h)
  subst hbW
  have hjn : (j * 512 + n) / 512 = j ∧ (j * 512 + n) % 512 = n := by omega
  have hcov : Covered s b (j * 512 + n) := by
    unfold Covered
    rw [hjn.1, hjn.2, h2.2]
    exact ⟨h2.1, h3.1⟩
  have hpt : pt_of s b (j * 512 + n) = d := by
    unfold pt_of
    rw [hjn.1, hjn.2, h2.2]
    exact h3.2
  exact ⟨rfl, pt_of_inj h hq hcov (hd.symm.trans hpt.symm)⟩

/-- Writes to pages of the window leave the translation of every other address. -/
theorem Writes.translates {entry : Nat → Nat} (hw : Writes W s s' c n entry)
    (h : Sound W dirs s)
    (ha : ∀ off, off < n * 0x1000 → a % 2 ^ 48 ≠ (window c + off) % 2 ^ 48) :
    mmu_virtual_to_physical s' a = mmu_virtual_to_physical s a := by
  have hroot : s'.pml4t = s.pml4t := by
    rw [hw.rest]
    rfl
  unfold mmu_virtual_to_physical
  simp only [hroot, hw.tables, ite_not]
  split
  · rename_i h1
    split
    · rename_i h2
      split
      · rename_i h3
        rw [hw.other]
        rintro k hk ⟨hd, ht⟩
        have hlow := low_bits a
        obtain ⟨hi, hq⟩ := path_window h (hw.covered k hk) (links_next h1) (links_next h2)
          (links_next h3) hd (index_lt 1 a)
        apply ha (k * 0x1000 + a % 0x1000) (by omega)
        have hv : KERNEL_VMA % 2 ^ 48 = 511 * 2 ^ 39 := rfl
        rw [hlow, hi, ht]
        unfold window
        omega
      · rfl
    · rfl
  · rfl

/-- What is mapped is translated to the frames from the one of `src` on. -/
theorem Shown.translates {src off : Nat} (h : Shown W dirs s c n src s') (hoff : off < n * 0x1000) :
    mmu_virtual_to_physical s' (window c + off) =
      some (page_base (src + off / 0x1000 * 0x1000) + off % 0x1000) := by
  have hbelow := h.below
  obtain ⟨-, hpage⟩ := h.pages (off / 0x1000) (by omega)
  have hm : Mapped s' W (c + off / 0x1000) := by
    unfold Mapped
    rw [hpage]
    exact present_or _ _ rfl
  rw [window_off, translate_page h.sound (by omega) (by omega), if_pos hm, hpage,
    page_base_or _ _ (by decide)]

/-- What `mmu_map_frames` maps is translated to the frames from `src` on, and the translations
from before are kept. Whatever else has been called since, `mmu_unmap_frames` then returns, and
takes away the translations of the region and no other one. The page tables see the low 48 bits
of an address. -/
theorem map_translate_unmap (boot : Boot) (w : World) (hw : Reachable boot w) :
    (∀ fuel src length v s', src % PAGE_SIZE = 0 → 0 < length → src + length ≤ 2 ^ 64 →
      mmu_map_frames fuel w.state src length = .ok (v, s') →
      (∀ off, off < turns length * PAGE_SIZE →
        mmu_virtual_to_physical s' (v + off) = some (src + off)) ∧
      (∀ a p, mmu_virtual_to_physical w.state a = some p →
        mmu_virtual_to_physical s' a = some p) ∧
      World.step w (.map fuel src length) =
        .ok { state := s', live := fun a => w.live a ∨ Region v length a }) ∧
    (∀ v length, (∀ a, Region v length a → w.live a) →
      ∃ s', mmu_unmap_frames w.state v length = .ok s' ∧
        (∀ off, off < turns length * PAGE_SIZE → mmu_virtual_to_physical s' (v + off) = none) ∧
        ∀ a, (∀ off, off < turns length * PAGE_SIZE → a % 2 ^ 48 ≠ (v + off) % 2 ^ 48) →
          mmu_virtual_to_physical s' a = mmu_virtual_to_physical w.state a) := by
  have hheld := hw.held
  have hs := hheld.sound
  constructor
  · intro fuel src length v s' hsrc _ _ hcall
    obtain ⟨c, rfl, hshown⟩ := spec_of_ok (mmu_map_frames.spec hs fuel src length) hcall
    dsimp only at hshown
    refine ⟨?_, ?_, ?_⟩
    · intro off hoff
      unfold PAGE_SIZE at hoff hsrc
      rw [hshown.translates hoff]
      unfold page_base
      congr 1
      omega
    · intro a p hp
      exact hshown.grows.translates hshown.kept hp
    · simp only [World.step, hcall, ok_bind]
  · intro v length hlive
    rcases Nat.eq_zero_or_pos (turns length) with hzero | hlen
    · refine ⟨w.state, ?_, ?_, fun a _ => rfl⟩
      · unfold mmu_unmap_frames
        rw [hzero]
        rfl
      · intro off hoff
        rw [hzero, Nat.zero_mul] at hoff
        exact absurd hoff (Nat.not_lt_zero off)
    · obtain ⟨c, rfl, hc, hpages⟩ := hheld.pages hlive hlen
      obtain ⟨s', heq, hs', hwr⟩ := spec_returns (mmu_unmap_frames.spec hs hc hpages)
      refine ⟨s', heq, ?_, fun a ha => hwr.translates hs ha⟩
      intro off hoff
      unfold PAGE_SIZE at hoff
      have hpage := hwr.page_in (show off / 0x1000 < turns length by omega)
      have hm : ¬ Mapped s' boot.W (c + off / 0x1000) := by
        unfold Mapped
        rw [hpage]
        exact not_present_zero
      rw [window_off, translate_page hs' (by omega) (by omega), if_neg hm]

theorem map_translate_unmap_at_the_start :
    ∃ s v s' s'', mmu_init WINDOW small_boot = .ok s ∧
      mmu_map_frames WINDOW s 0x5000 0x2000 = .ok (v, s') ∧
      mmu_virtual_to_physical s' (v + 0x1001) = some 0x6001 ∧
      mmu_unmap_frames s' v 0x2000 = .ok s'' ∧ mmu_virtual_to_physical s'' (v + 0x1001) = none := by
  obtain ⟨s, hinit, hw, hmaps, -⟩ := small_boot_starts
  obtain ⟨v, s', hmap⟩ := hmaps 0x5000 0x2000 (by decide) (by decide)
  obtain ⟨hshown, -, hstep⟩ := (map_translate_unmap small_boot _ hw).1 WINDOW 0x5000 0x2000 v s'
    (by decide) (by decide) (by decide) hmap
  have hw' := hw.next (show World.allowed _ (.map WINDOW 0x5000 0x2000) from trivial) hstep
  obtain ⟨s'', hunmap, hgone, -⟩ := (map_translate_unmap small_boot _ hw').2 v 0x2000
    (fun _ ha => Or.inr ha)
  exact ⟨s, v, s', s'', hinit, hmap, hshown 0x1001 (by decide), hunmap, hgone 0x1001 (by decide)⟩

end salsola.mmu
