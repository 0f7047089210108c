-- The invariant of the page tables. Each table has a home, the page of the
-- kernel window that maps its frame, and the present entries form a tree of
-- tables below the directories, which share the slot 511.
import Salsola.Mmu
import Salsola.FramesLaws
import Mathlib.Data.Finset.Card
import Mathlib.Data.Finset.Range

open memory outcome

namespace salsola.mmu

/-! ## Entries and addresses -/

theorem present_iff (e : Nat) : present e ↔ e % 2 = 1 := by
  unfold present PAGE_FLAG_PRESENT
  rw [show (1 <<< 0 : Nat) = 1 from rfl, Nat.and_one_is_mod]
  omega

@[simp] theorem not_present_zero : ¬ present 0 := by simp [present_iff]

theorem or_frame (e f : Nat) (hf : f < 0x1000) : (e ||| f) / 0x1000 = e / 0x1000 := by
  have h : (e ||| f) / 2 ^ 12 = e / 2 ^ 12 ||| f / 2 ^ 12 := Nat.or_div_two_pow
  rw [show f / 2 ^ 12 = 0 by omega, Nat.or_zero] at h
  exact h

theorem or_flags (p f : Nat) (hp : p % 0x1000 = 0) (hf : f < 0x1000) : p ||| f = p + f := by
  have h := Nat.two_pow_add_eq_or_of_lt (i := 12) hf (p / 0x1000)
  rw [show 2 ^ 12 * (p / 0x1000) = p by omega] at h
  exact h.symm

theorem present_or (e f : Nat) (hf : f % 2 = 1) : present (e ||| f) := by
  rw [present_iff]
  have h : (e ||| f) % 2 ^ 1 = e % 2 ^ 1 ||| f % 2 ^ 1 := Nat.or_mod_two_pow
  rw [show (2 : Nat) ^ 1 = 2 from rfl] at h
  rw [h, hf]
  rcases Nat.mod_two_eq_zero_or_one e with h0 | h0 <;> rw [h0] <;> rfl

theorem and_low (e : Nat) : e &&& 0xFFF = e % 0x1000 := Nat.and_two_pow_sub_one_eq_mod e 12

theorem page_base_or (e f : Nat) (hf : f < 0x1000) : page_base (e ||| f) = page_base e := by
  unfold page_base
  rw [or_frame e f hf]

theorem page_base_of_aligned (p f : Nat) (hp : p % 0x1000 = 0) (hf : f < 0x1000) :
    page_base (p ||| f) = p := by
  rw [page_base_or p f hf]
  unfold page_base
  omega

/-- The index of an address at a level: 0 for a PT, up to 3 for the PML4T. -/
def index (level address : Nat) : Nat := (address >>> (12 + 9 * level)) &&& 0x1FF

theorem index_eq (level address : Nat) :
    index level address = address / 2 ^ (12 + 9 * level) % 512 := by
  unfold index
  rw [Nat.shiftRight_eq_div_pow]
  exact Nat.and_two_pow_sub_one_eq_mod _ 9

theorem index_lt (level address : Nat) : index level address < 512 := by
  rw [index_eq]
  omega

/-- The pages of the kernel window. -/
def WINDOW : Nat := 2 ^ 27

/-- The page tables of the kernel window. -/
def SLOTS : Nat := 2 ^ 18

/-- The address of page `x` of the kernel window. -/
def window (x : Nat) : Nat := KERNEL_VMA + x * 0x1000

theorem window_inj {x y : Nat} (h : window x = window y) : x = y := by
  unfold window at h
  omega

theorem window_add (x n : Nat) : window (x + n) = window x + n * 0x1000 := by
  unfold window
  ring

variable {x y q r : Nat}

theorem pml4t_index_window (hx : x < WINDOW) : pml4t_index (window x) = 511 := by
  have h := index_eq 3 (window x)
  rw [show index 3 (window x) = pml4t_index (window x) from rfl] at h
  unfold window KERNEL_VMA at *
  unfold WINDOW at hx
  omega

theorem pdpt_index_window (hx : x < WINDOW) : pdpt_index (window x) = x / 512 / 512 := by
  have h := index_eq 2 (window x)
  rw [show index 2 (window x) = pdpt_index (window x) from rfl] at h
  unfold window KERNEL_VMA at *
  unfold WINDOW at hx
  omega

theorem pdt_index_window (x : Nat) : pdt_index (window x) = x / 512 % 512 := by
  have h := index_eq 1 (window x)
  rw [show index 1 (window x) = pdt_index (window x) from rfl] at h
  unfold window KERNEL_VMA at *
  omega

theorem pt_index_window (x : Nat) : pt_index (window x) = x % 512 := by
  have h := index_eq 0 (window x)
  rw [show index 0 (window x) = pt_index (window x) from rfl] at h
  unfold window KERNEL_VMA at *
  omega

/-! ## Links between tables -/

variable {W : Nat} {dirs : List Nat} {s s' s'' : Mmu} {a b c i j p : Nat}

/-- The entry `i` of the table `a` is present, and its pointer is `b`. -/
def Links (s : Mmu) (a i b : Nat) : Prop :=
  present ((s.tables a).physical i) ∧ (s.tables a).next i = b

theorem links_next (h : present ((s.tables a).physical i)) :
    Links s a i ((s.tables a).next i) := ⟨h, rfl⟩

/-- A table has been placed at the pointer `a`. -/
def IsTable (s : Mmu) (a : Nat) : Prop := ∃ p, s.placed p = some a

/-- The PML4T of a directory. -/
def root (s : Mmu) (d : Nat) : Nat := (s.directories d).pml4t

/-- The pointer to the page table `q` of the window, whose PDPT is `W`. -/
def pt_of (s : Mmu) (W q : Nat) : Nat := (s.tables ((s.tables W).next (q / 512))).next (q % 512)

/-- The window has its page table `q`. -/
def Covered (s : Mmu) (W q : Nat) : Prop :=
  present ((s.tables W).physical (q / 512)) ∧
    present ((s.tables ((s.tables W).next (q / 512))).physical (q % 512))

instance (s : Mmu) (W q : Nat) : Decidable (Covered s W q) := by
  unfold Covered; infer_instance

/-- The entry of page `x` of the window, and 0 without a page table. -/
def page (s : Mmu) (W x : Nat) : Nat :=
  if Covered s W (x / 512) then s.pts (pt_of s W (x / 512)) (x % 512) else 0

/-- Page `x` of the window is mapped. -/
def Mapped (s : Mmu) (W x : Nat) : Prop := present (page s W x)

instance (s : Mmu) (W x : Nat) : Decidable (Mapped s W x) := by unfold Mapped; infer_instance

theorem Covered.links (h : Covered s W q) :
    Links s W (q / 512) ((s.tables W).next (q / 512)) ∧
      Links s ((s.tables W).next (q / 512)) (q % 512) (pt_of s W q) :=
  ⟨links_next h.1, links_next h.2⟩

theorem page_of_covered (h : Covered s W (x / 512)) :
    page s W x = s.pts (pt_of s W (x / 512)) (x % 512) := if_pos h

theorem Mapped.covered (h : Mapped s W x) : Covered s W (x / 512) := by
  unfold Mapped page at h
  by_contra hno
  rw [if_neg hno] at h
  exact not_present_zero h

/-- The tables of the window: its PDPT, and the PDTs and PTs below. -/
def InWindow (s : Mmu) (W a : Nat) : Prop :=
  a = W ∨ (∃ i, Links s W i a) ∨ ∃ i b j, Links s W i b ∧ Links s b j a

/-! ## The invariant -/

/-- The table at the pointer `a` lies in frames that are taken, from `p` on, and `a` is the
page of the window that maps them. -/
structure Home (s : Mmu) (W p a : Nat) : Prop where
  aligned : p % 0x1000 = 0
  below : p / 0x1000 < NUM_OF_FRAMES * 64
  taken : taken s.frames (p / 0x1000)
  at_page : ∃ x, x < WINDOW ∧ a = window x ∧ Mapped s W x ∧ page_base (page s W x) = p

/-- What holds of the page tables between two calls, for the directories `dirs`. -/
structure Sound (W : Nat) (dirs : List Nat) (s : Mmu) : Prop where
  active : s.active_directory ∈ dirs
  /-- The directories lie in the heap or in the kernel, and they share the slot 511. -/
  roots : ∀ d ∈ dirs, d < s.heap_end ∧ Links s (root s d) 511 W ∧
    s.placed (s.directories d).physical = some (root s d)
  home : ∀ p a, s.placed p = some a → Home s W p a
  links : ∀ a i b, Links s a i b → IsTable s a ∧ IsTable s b
  pages : ∀ a i, present (s.pts a i) → IsTable s a
  /-- No two entries point to one table, except for the slot 511. -/
  tree : ∀ a i b j c, Links s a i c → Links s b j c → (a = b ∧ i = j) ∨
    (i = 511 ∧ j = 511 ∧ (∃ d ∈ dirs, root s d = a) ∧ ∃ d ∈ dirs, root s d = b)
  unrooted : ∀ a i d, d ∈ dirs → ¬ Links s a i (root s d)
  /-- The pages below the end of the heap have their page tables. -/
  heap : ∃ h, s.heap_end = window h ∧ ∀ q, 512 * q < h → Covered s W q
  zero : taken s.frames 0

/-- A page of the window that is not mapped holds no table. -/
theorem not_table_of_unmapped (h : Sound W dirs s) (hx : ¬ Mapped s W x) :
    ¬ IsTable s (window x) := by
  rintro ⟨p, hp⟩
  obtain ⟨y, _, hy, hm, _⟩ := (h.home p _ hp).at_page
  have : x = y := window_inj hy
  subst this
  exact hx hm

/-- A link below the window ends at the window's PDPT only from a slot 511. -/
theorem window_links (h : Sound W dirs s) {d : Nat} (hd : d ∈ dirs) (hl : Links s a i W) :
    i = 511 ∧ ∃ d ∈ dirs, root s d = a := by
  rcases h.tree _ _ _ _ _ hl (h.roots d hd).2.1 with ⟨rfl, rfl⟩ | ⟨h1, _, h2, _⟩
  · exact ⟨rfl, d, hd, rfl⟩
  · exact ⟨h1, h2⟩

theorem window_not_root (h : Sound W dirs s) {d : Nat} (hd : d ∈ dirs) : root s d ≠ W := by
  intro hroot
  apply h.unrooted _ _ _ hd
  rw [hroot]
  exact (h.roots d hd).2.1

/-- Outside of the roots, two entries that point to one table are one entry. -/
theorem links_inj (h : Sound W dirs s) (hl : Links s a i c) (hl' : Links s b j c)
    (ha : ∀ d ∈ dirs, root s d ≠ a) : a = b ∧ i = j := by
  rcases h.tree _ _ _ _ _ hl hl' with h' | ⟨_, _, ⟨d, hd, hr⟩, _⟩
  · exact h'
  · exact absurd hr (ha d hd)

theorem linked_not_root (h : Sound W dirs s) (hl : Links s a i b) :
    ∀ d ∈ dirs, root s d ≠ b := by
  rintro d hd rfl
  exact h.unrooted _ _ _ hd hl

/-- Two page tables of the window are two tables. -/
theorem pt_of_inj (h : Sound W dirs s) (hq : Covered s W q) (hr : Covered s W r)
    (heq : pt_of s W q = pt_of s W r) : q = r := by
  have hw : ∀ d ∈ dirs, root s d ≠ W := fun d hd => window_not_root h hd
  have h2 := hq.links.2
  rw [heq] at h2
  obtain ⟨hpdt, hlow⟩ := links_inj h h2 hr.links.2 (linked_not_root h hq.links.1)
  have h1 := hq.links.1
  rw [hpdt] at h1
  obtain ⟨_, hhigh⟩ := links_inj h h1 hr.links.1 hw
  omega

/-- Two pages of the window are two words. -/
theorem page_slot_inj (h : Sound W dirs s) (hx : Covered s W (x / 512))
    (hy : Covered s W (y / 512)) (hpt : pt_of s W (x / 512) = pt_of s W (y / 512))
    (hi : x % 512 = y % 512) : x = y := by
  have := pt_of_inj h hx hy hpt
  omega

/-- There are as many page tables as frames at most, so the window never fills up. -/
theorem covered_lt (h : Sound W dirs s) (hq : ∀ r, r ≤ q → Covered s W r) :
    q < NUM_OF_FRAMES * 64 := by
  have hall : ∀ r, r ≤ q → ∃ p, s.placed p = some (pt_of s W r) := by
    intro r hr
    exact (h.links _ _ _ (hq r hr).links.2).2
  choose! home_of hhome using hall
  have hcard : (Finset.range (q + 1)).card ≤ (Finset.range (NUM_OF_FRAMES * 64)).card := by
    apply Finset.card_le_card_of_injOn (fun r => home_of r / 0x1000)
    · intro r hr
      simp only [Finset.coe_range, Set.mem_Iio] at hr ⊢
      exact (h.home _ _ (hhome r (by omega))).below
    · intro r hr r' hr' heq
      simp only [Finset.coe_range, Set.mem_Iio] at hr hr'
      have h1 := (h.home _ _ (hhome r (by omega))).aligned
      have h2 := (h.home _ _ (hhome r' (by omega))).aligned
      have hsame : home_of r = home_of r' := by
        simp only at heq
        omega
      have hpt := hhome r (by omega)
      rw [hsame, hhome r' (by omega)] at hpt
      exact (pt_of_inj h (hq r' (by omega)) (hq r (by omega)) (Option.some_inj.mp hpt)).symm
  simp only [Finset.card_range] at hcard
  omega

/-- The pages of the window below `x` have their page tables. -/
def CoveredBelow (s : Mmu) (W x : Nat) : Prop := ∀ q, 512 * q < x → Covered s W q

/-- The number of pages that the window can have at most. -/
def LIMIT : Nat := 512 * (NUM_OF_FRAMES * 64)

theorem coveredBelow_le (h : Sound W dirs s) (hx : CoveredBelow s W x) : x ≤ LIMIT := by
  by_contra hlt
  unfold LIMIT at hlt
  have := covered_lt (q := NUM_OF_FRAMES * 64) h (fun r hr => hx r (by omega))
  omega

/-! ## What a call may do -/

/-- Tables and pages that were there stay, and what is new is elsewhere. -/
structure Grows (W : Nat) (s s' : Mmu) : Prop where
  table : ∀ a i b, Links s a i b →
    Links s' a i b ∧ (s'.tables a).physical i = (s.tables a).physical i
  target : ∀ a i b, Links s' a i b → Links s a i b ∨ ¬ IsTable s b
  page : ∀ a i, present (s.pts a i) → s'.pts a i = s.pts a i
  placed : ∀ p a, s.placed p = some a → s'.placed p = some a
  new : ∀ p a, s'.placed p = some a → s.placed p = some a ∨
    ∃ x, x < WINDOW ∧ a = window x ∧ ¬ Mapped s W x
  taken : ∀ f, taken s.frames f → taken s'.frames f

/-- A page entry that the call has made. -/
def NewPage (s s' : Mmu) (a i : Nat) : Prop := present (s'.pts a i) ∧ ¬ present (s.pts a i)

/-- New pages have new frames, each its own. -/
structure Fresh (s s' : Mmu) : Prop where
  frame : ∀ a i, NewPage s s' a i → ¬ taken s.frames (s'.pts a i / 0x1000) ∧
    taken s'.frames (s'.pts a i / 0x1000) ∧ s'.pts a i / 0x1000 < NUM_OF_FRAMES * 64
  apart : ∀ a i b j, NewPage s s' a i → NewPage s s' b j →
    s'.pts a i / 0x1000 = s'.pts b j / 0x1000 → a = b ∧ i = j

/-- A new entry names the frame of the table that it points to. -/
def Agrees (s s' : Mmu) : Prop :=
  ∀ a i b, Links s' a i b →
    Links s a i b ∨ s'.placed (page_base ((s'.tables a).physical i)) = some b

/-- A call that makes tables, and changes nothing else. -/
structure Makes (W : Nat) (s s' : Mmu) : Prop where
  grows : Grows W s s'
  fresh : Fresh s s'
  agrees : Agrees s s'
  directories : s'.directories = s.directories
  active : s'.active_directory = s.active_directory

/-- The tables outside of the window stay as they are. -/
def Outside (W : Nat) (s s' : Mmu) : Prop :=
  ∀ a, IsTable s a → ¬ InWindow s W a → s'.tables a = s.tables a ∧ s'.pts a = s.pts a

/-- A call that makes tables of the window only. -/
structure Local (W : Nat) (s s' : Mmu) : Prop extends Makes W s s' where
  outside : Outside W s s'

/-- The heap and the bytes of the memory stay as they are. -/
structure Quiet (s s' : Mmu) : Prop where
  heap_end : s'.heap_end = s.heap_end
  ram : s'.ram = s.ram
  seed : s'.seed = s.seed

theorem grows_refl (W : Nat) (s : Mmu) : Grows W s s where
  table _ _ _ h := ⟨h, rfl⟩
  target _ _ _ h := Or.inl h
  page _ _ _ := rfl
  placed _ _ h := h
  new _ _ h := Or.inl h
  taken _ h := h

theorem fresh_of_pages (h : ∀ a i, present (s'.pts a i) → present (s.pts a i)) : Fresh s s' where
  frame a i hnew := absurd (h a i hnew.1) hnew.2
  apart a i _ _ hnew := absurd (h a i hnew.1) hnew.2

theorem local_refl (W : Nat) (s : Mmu) : Local W s s where
  grows := grows_refl W s
  fresh := fresh_of_pages (fun _ _ h => h)
  agrees _ _ _ h := Or.inl h
  directories := rfl
  active := rfl
  outside _ _ _ := ⟨rfl, rfl⟩

theorem quiet_refl (s : Mmu) : Quiet s s := ⟨rfl, rfl, rfl⟩

theorem Quiet.trans (h : Quiet s s') (h' : Quiet s' s'') : Quiet s s'' :=
  ⟨h'.1.trans h.1, h'.2.trans h.2, h'.3.trans h.3⟩

/-! ## What a growing store keeps -/

theorem Grows.isTable (h : Grows W s s') (ha : IsTable s a) : IsTable s' a := by
  obtain ⟨p, hp⟩ := ha
  exact ⟨p, h.placed p a hp⟩

theorem Grows.present (h : Grows W s s') (hp : present ((s.tables a).physical i)) :
    present ((s'.tables a).physical i) ∧ (s'.tables a).next i = (s.tables a).next i :=
  (h.table _ _ _ (links_next hp)).1

theorem Grows.covered (h : Grows W s s') (hc : Covered s W q) :
    Covered s' W q ∧ pt_of s' W q = pt_of s W q := by
  obtain ⟨h1, h1'⟩ := h.present hc.1
  obtain ⟨h2, h2'⟩ := h.present hc.2
  unfold Covered pt_of
  rw [h1']
  exact ⟨⟨h1, h2⟩, h2'⟩

theorem Grows.page_eq (h : Grows W s s') (hx : Mapped s W x) :
    mmu.page s' W x = mmu.page s W x := by
  have hc := hx.covered
  obtain ⟨hc', hpt⟩ := h.covered hc
  unfold Mapped at hx
  rw [page_of_covered hc] at hx ⊢
  rw [page_of_covered hc', hpt]
  exact h.page _ _ hx

theorem Grows.mapped (h : Grows W s s') (hx : Mapped s W x) : Mapped s' W x := by
  unfold Mapped
  rw [h.page_eq hx]
  exact hx

/-- A link to a table that was there is a link that was there. -/
theorem Grows.old_link (h : Grows W s s') (hl : Links s' a i b) (hb : IsTable s b) :
    Links s a i b := (h.target _ _ _ hl).resolve_right (fun hno => hno hb)

theorem Grows.trans (h : Grows W s s') (h' : Grows W s' s'') : Grows W s s'' where
  table a i b hl := by
    obtain ⟨h1, h2⟩ := h.table a i b hl
    obtain ⟨h3, h4⟩ := h'.table a i b h1
    exact ⟨h3, h4.trans h2⟩
  target a i b hl := by
    rcases h'.target a i b hl with h1 | h1
    · exact h.target a i b h1
    · exact Or.inr (fun hb => h1 (h.isTable hb))
  page a i hp := by
    have h1 := h.page a i hp
    rw [h'.page a i (by rw [h1]; exact hp), h1]
  placed p a hp := h'.placed p a (h.placed p a hp)
  new p a hp := by
    rcases h'.new p a hp with h1 | ⟨x, hx, ha, hm⟩
    · exact h.new p a h1
    · exact Or.inr ⟨x, hx, ha, fun hm' => hm (h.mapped hm')⟩
  taken f hf := h'.taken f (h.taken f hf)

theorem Fresh.trans (h : Fresh s s') (h' : Fresh s' s'') (hg : Grows W s s')
    (hg' : Grows W s' s'') : Fresh s s'' := by
  -- a new page is new in one of the two calls
  have hcases : ∀ a i, NewPage s s'' a i →
      (NewPage s s' a i ∧ s''.pts a i = s'.pts a i) ∨ NewPage s' s'' a i := by
    intro a i hnew
    by_cases hmid : mmu.present (s'.pts a i)
    · exact Or.inl ⟨⟨hmid, hnew.2⟩, hg'.page a i hmid⟩
    · exact Or.inr ⟨hnew.1, hmid⟩
  constructor
  · intro a i hnew
    rcases hcases a i hnew with ⟨h1, h2⟩ | h1
    · rw [h2]
      obtain ⟨h3, h4, h5⟩ := h.frame a i h1
      exact ⟨h3, hg'.taken _ h4, h5⟩
    · obtain ⟨h3, h4, h5⟩ := h'.frame a i h1
      exact ⟨fun ht => h3 (hg.taken _ ht), h4, h5⟩
  · intro a i b j hnew hnew' heq
    rcases hcases a i hnew with ⟨h1, h2⟩ | h1 <;> rcases hcases b j hnew' with ⟨h3, h4⟩ | h3
    · rw [h2, h4] at heq
      exact h.apart a i b j h1 h3 heq
    · rw [h2] at heq
      have := (h.frame a i h1).2.1
      rw [heq] at this
      exact absurd this (h'.frame b j h3).1
    · rw [h4] at heq
      have := (h.frame b j h3).2.1
      rw [← heq] at this
      exact absurd this (h'.frame a i h1).1
    · exact h'.apart a i b j h1 h3 heq

theorem Agrees.trans (h : Agrees s s') (h' : Agrees s' s'') (hg' : Grows W s' s'') :
    Agrees s s'' := by
  intro a i b hl
  rcases h' a i b hl with h1 | h1
  · rcases h a i b h1 with h2 | h2
    · exact Or.inl h2
    · apply Or.inr
      rw [(hg'.table a i b h1).2]
      exact hg'.placed _ _ h2
  · exact Or.inr h1

theorem Makes.trans (h : Makes W s s') (h' : Makes W s' s'') : Makes W s s'' where
  grows := h.grows.trans h'.grows
  fresh := h.fresh.trans h'.fresh h.grows h'.grows
  agrees := h.agrees.trans h'.agrees h'.grows
  directories := h'.directories.trans h.directories
  active := h'.active.trans h.active

/-- A table that was outside of the window stays outside. -/
theorem Grows.inWindow (h : Grows W s s') (hs : Sound W dirs s) (ha : IsTable s a)
    (hin : InWindow s' W a) : InWindow s W a := by
  rcases hin with rfl | ⟨i, hl⟩ | ⟨i, b, j, hl, hl'⟩
  · exact Or.inl rfl
  · exact Or.inr (Or.inl ⟨i, h.old_link hl ha⟩)
  · have hl2 := h.old_link hl' ha
    have hl1 := h.old_link hl (hs.links _ _ _ hl2).1
    exact Or.inr (Or.inr ⟨i, b, j, hl1, hl2⟩)

theorem Outside.trans (h : Outside W s s') (h' : Outside W s' s'') (hg : Grows W s s')
    (hs : Sound W dirs s) : Outside W s s'' := by
  intro a ha hout
  obtain ⟨h1, h2⟩ := h a ha hout
  obtain ⟨h3, h4⟩ := h' a (hg.isTable ha) (fun hin => hout (hg.inWindow hs ha hin))
  exact ⟨h3.trans h1, h4.trans h2⟩

theorem Local.trans (h : Local W s s') (h' : Local W s' s'') (hs : Sound W dirs s) :
    Local W s s'' where
  toMakes := h.toMakes.trans h'.toMakes
  outside := h.outside.trans h'.outside h.grows hs

end salsola.mmu
