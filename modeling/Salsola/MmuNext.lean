-- What `allocate_next_pt` prepares: the page tables of two addresses in one PDT. Each
-- one that is missing takes a free page of the window, and nothing else changes.
import Salsola.MmuRuns

open memory outcome runs

namespace salsola.mmu

variable {W : Nat} {dirs : List Nat} {s s' s'' : Mmu} {a b c d i j k n p q r t v x y : Nat}
variable {halts : Halt → Prop} {fuel : Nat}

/-! ## The tables of an address -/

/-- The PDPT of an address, by the pointers. -/
def Mmu.pdpt (s : Mmu) (address : Nat) : Nat := (s.tables s.pml4t).next (pml4t_index address)

/-- The PDT of an address, by the pointers. -/
def Mmu.pdt (s : Mmu) (address : Nat) : Nat :=
  (s.tables (s.pdpt address)).next (pdpt_index address)

def HasPdt (s : Mmu) (address : Nat) : Prop :=
  present ((s.tables s.pml4t).physical (pml4t_index address)) ∧
    present ((s.tables (s.pdpt address)).physical (pdpt_index address))

def HasPt (s : Mmu) (address : Nat) : Prop :=
  HasPdt s address ∧ present ((s.tables (s.pdt address)).physical (pdt_index address))

instance (s : Mmu) (address : Nat) : Decidable (HasPt s address) := by
  unfold HasPt HasPdt; infer_instance

theorem HasPdt.links (h : HasPdt s a) :
    Links s s.pml4t (pml4t_index a) (s.pdpt a) ∧ Links s (s.pdpt a) (pdpt_index a) (s.pdt a) :=
  ⟨links_next h.1, links_next h.2⟩

theorem HasPt.link (h : HasPt s a) : Links s (s.pdt a) (pdt_index a) (s.pt a) := links_next h.2

theorem hasPt_of_links (h1 : Links s s.pml4t (pml4t_index a) b) (h2 : Links s b (pdpt_index a) c)
    (h3 : Links s c (pdt_index a) d) : HasPt s a ∧ s.pdt a = c ∧ s.pt a = d := by
  obtain ⟨h1, rfl⟩ := h1
  obtain ⟨h2, rfl⟩ := h2
  obtain ⟨h3, rfl⟩ := h3
  exact ⟨⟨⟨h1, h2⟩, h3⟩, rfl, rfl⟩

/-- The translation of an address, from the word of its page. -/
def translated (word address : Nat) : Option Nat :=
  if present word then some (page_base word ||| (address &&& 0xFFF)) else none

theorem translate_absent (h : ¬ HasPt s v) : mmu_virtual_to_physical s v = none := by
  unfold mmu_virtual_to_physical
  dsimp only
  by_cases h1 : present ((s.tables s.pml4t).physical (pml4t_index v))
  · rw [if_neg (not_not.mpr h1)]
    by_cases h2 : present ((s.tables (s.pdpt v)).physical (pdpt_index v))
    · have h3 : ¬ present ((s.tables (s.pdt v)).physical (pdt_index v)) :=
        fun h3 => h ⟨⟨h1, h2⟩, h3⟩
      unfold Mmu.pdpt at h2
      unfold Mmu.pdt Mmu.pdpt at h3
      rw [if_neg (not_not.mpr h2), if_pos h3]
    · unfold Mmu.pdpt at h2
      rw [if_pos h2]
  · rw [if_pos h1]

theorem translate_present (h : HasPt s v) :
    mmu_virtual_to_physical s v = translated (s.pts (s.pt v) (pt_index v)) v := by
  obtain ⟨⟨h1, h2⟩, h3⟩ := h
  unfold Mmu.pdt at h3
  unfold Mmu.pdpt at h2 h3
  unfold mmu_virtual_to_physical translated Mmu.pt
  dsimp only
  rw [if_neg (not_not.mpr h1), if_neg (not_not.mpr h2), if_neg (not_not.mpr h3),
    if_neg (not_not.mpr h1), ite_not]

/-- The tables of a page of the window that has its page table. -/
theorem hasPt_window (h : Sound W dirs s) (hx : x < WINDOW) (hc : Covered s W (x / 512)) :
    HasPt s (window x) ∧ s.pt (window x) = pt_of s W (x / 512) := by
  obtain ⟨h1, h2⟩ := hc.links
  have hroot : Links s s.pml4t (pml4t_index (window x)) W := by
    rw [pml4t_index_window hx]
    exact ⟨present_root h, next_root h⟩
  have hpdt : Links s W (pdpt_index (window x)) ((s.tables W).next (x / 512 / 512)) := by
    rw [pdpt_index_window hx]
    exact h1
  rw [← pdt_index_window] at h2
  obtain ⟨hpt, -, heq⟩ := hasPt_of_links hroot hpdt h2
  exact ⟨hpt, heq⟩

/-! ## A PDT of the active directory -/

/-- The PDT `t` of the active directory. -/
structure IsPdt (s : Mmu) (i j t : Nat) : Prop where
  linked : ∃ b, Links s s.pml4t i b ∧ Links s b j t

theorem HasPdt.isPdt (h : HasPdt s a) : IsPdt s (pml4t_index a) (pdpt_index a) (s.pdt a) :=
  ⟨_, h.links⟩

theorem IsPdt.ne_root (h : IsPdt s i j t) (hs : Sound W dirs s) : t ≠ s.pml4t := by
  obtain ⟨b, -, hl⟩ := h.linked
  exact Ne.symm (linked_not_root hs hl _ hs.active)

/-- It is no PDPT. -/
theorem IsPdt.ne_pdpt (h : IsPdt s i j t) (hs : Sound W dirs s) (hb : Links s s.pml4t k b) :
    b ≠ t := by
  rintro rfl
  obtain ⟨c, hc, hl⟩ := h.linked
  have hroot := linked_not_root hs hc
  rcases hs.tree _ _ _ _ _ hb hl with ⟨heq, -⟩ | ⟨-, -, -, d, hd, heq⟩
  · exact hroot _ hs.active heq
  · exact hroot d hd heq

theorem IsPdt.isTable (h : IsPdt s i j t) (hs : Sound W dirs s) : IsTable s t := by
  obtain ⟨b, -, hl⟩ := h.linked
  exact (hs.links _ _ _ hl).2

theorem IsPdt.grows (h : IsPdt s i j t) (hm : Makes W s s') : IsPdt s' i j t := by
  obtain ⟨b, h1, h2⟩ := h.linked
  refine ⟨b, ?_, (hm.grows.table _ _ _ h2).1⟩
  rw [hm.pml4t]
  exact (hm.grows.table _ _ _ h1).1

/-- In the window, the page table of its slot covers the slot. -/
theorem IsPdt.slot (h : IsPdt s i j t) (hs : Sound W dirs s) (hl : Links s W (q / 512) t) :
    i = 511 ∧ q / 512 = j := by
  obtain ⟨b, h1, h2⟩ := h.linked
  obtain ⟨rfl, heq⟩ := links_inj hs hl h2 (fun d hd => window_not_root hs hd)
  obtain ⟨hi, -⟩ := window_links hs hs.active h1
  exact ⟨hi, heq⟩

/-- The entries of the tables stay as they are, but for the entry `k` of the PDT `t`. -/
def Keeps (s s' : Mmu) (t k : Nat) : Prop :=
  ∀ b i, IsTable s b → ¬ (b = t ∧ i = k) →
    (s'.tables b).physical i = (s.tables b).physical i ∧ (s'.tables b).next i = (s.tables b).next i

/-- So every address keeps its PDT. -/
theorem IsPdt.keeps (h : IsPdt s i j t) (hs : Sound W dirs s) (hroot : s'.pml4t = s.pml4t)
    (hk : Keeps s s' t k) (v : Nat) :
    (HasPdt s' v ↔ HasPdt s v) ∧ (HasPdt s v → s'.pdt v = s.pdt v) := by
  have htop := hk s.pml4t (pml4t_index v) (root_table hs hs.active)
    (fun heq => h.ne_root hs heq.1.symm)
  have hpdpt : s'.pdpt v = s.pdpt v := by
    unfold Mmu.pdpt
    rw [hroot]
    exact htop.2
  have hlow : present ((s.tables s.pml4t).physical (pml4t_index v)) →
      (s'.tables (s.pdpt v)).physical (pdpt_index v) =
        (s.tables (s.pdpt v)).physical (pdpt_index v) ∧
      (s'.tables (s.pdpt v)).next (pdpt_index v) = (s.tables (s.pdpt v)).next (pdpt_index v) := by
    intro hp
    have hl : Links s s.pml4t (pml4t_index v) (s.pdpt v) := links_next hp
    exact hk _ _ (hs.links _ _ _ hl).2 (fun heq => h.ne_pdpt hs hl heq.1)
  constructor
  · unfold HasPdt
    rw [hroot, htop.1, hpdpt]
    exact and_congr_right (fun hp => by rw [(hlow hp).1])
  · intro hp
    unfold Mmu.pdt
    rw [hpdpt]
    exact (hlow hp.1).2

/-! ## One page table more -/

/-- A table that is missing in `s`. -/
def NewTable (s s' : Mmu) (a : Nat) : Prop := IsTable s' a ∧ ¬ IsTable s a

/-- The PDT `t` has its page table `k`, and nothing else has changed but the words and the
translations of the page that it lies in. -/
structure Supplied (W : Nat) (dirs : List Nat) (s : Mmu) (t k : Nat) (s' : Mmu) : Prop where
  made : Made W dirs s s'
  link : ∃ d, Links s' t k d ∧ ∀ b, IsTable s' b → IsTable s b ∨ b = d
  entries : Keeps s s' t k
  words : ∀ b i, IsTable s b → s'.pts b i = s.pts b i ∨
    ∃ n, NewTable s s' n ∧ HasPt s n ∧ b = s.pt n ∧ i = pt_index n
  translations : ∀ v, mmu_virtual_to_physical s' v = mmu_virtual_to_physical s v ∨
    ∃ n, NewTable s s' n ∧ v % 2 ^ 48 / 0x1000 = n % 2 ^ 48 / 0x1000

theorem supplied_refl (h : Sound W dirs s) (hp : present ((s.tables t).physical k)) :
    Supplied W dirs s t k s where
  made := made_refl h
  link := ⟨_, links_next hp, fun _ hb => Or.inl hb⟩
  entries _ _ _ _ := ⟨rfl, rfl⟩
  words _ _ _ := Or.inl rfl
  translations _ := Or.inl rfl

/-- What the new page table takes: a free page below `512 * q`, and a frame. -/
structure Takes (W q : Nat) (s : Mmu) (t k c : Nat) (s' : Mmu) : Prop where
  below : c < 512 * q
  free : Free s W c
  left : ∀ y, Free s' W y ↔ Free s W y ∧ y ≠ c
  covered : ∀ r, Covered s' W r ↔ Covered s W r ∨ (Links s W (r / 512) t ∧ r % 512 = k)
  frames : ∃ p, get_frame s.frames true 1 = .ok (p, s'.frames)

theorem InPlace.tables (hin : InPlace W dirs s 1 c p s') (hb : IsTable s' b) :
    IsTable s b ∨ b = window c := by
  obtain ⟨p', hp'⟩ := hb
  rcases hin.makes.grows.new p' b hp' with h1 | ⟨x, -, rfl, hm⟩
  · exact Or.inl ⟨p', h1⟩
  · obtain ⟨y, -, hxy, hmy, -⟩ := (hin.sound.home p' _ hp').at_page
    obtain rfl := window_inj hxy
    have hin := ((hin.mapped x).mp hmy).resolve_left hm
    exact Or.inr (by rw [show x = c by omega])

section link

variable {s1 : Mmu}

/-- The page table is in place, and its entry is still to be written. -/
theorem IsPdt.links (h : IsPdt s i j t) (hs : Sound W dirs s) (hin : InPlace W dirs s 1 c p s1)
    (hno : ¬ present ((s.tables t).physical k)) :
    Made W dirs s (s1.set_entry t k (p ||| 0x3) (window c)) ∧
      Keeps s (s1.set_entry t k (p ||| 0x3) (window c)) t k := by
  have ht := h.isTable hs
  have hno1 : ¬ present ((s1.tables t).physical k) := by
    rw [hin.entry ht]
    exact hno
  obtain ⟨h1, h2⟩ := link_new hs hin.sound hin.makes.toMakes hin.new ht hno1
  refine ⟨⟨h1, h2, hin.quiet.heap_end, hin.quiet.ram, hin.quiet.seed⟩, ?_⟩
  intro b i hb hslot
  rw [(set_entry_other hslot).1, (set_entry_other hslot).2, hin.entry hb]
  exact ⟨rfl, rfl⟩

theorem InPlace.new_table (hin : InPlace W dirs s 1 c p s1) :
    NewTable s (s1.set_entry t k (p ||| 0x3) (window c)) (window c) :=
  ⟨⟨p, hin.new.placed⟩, hin.new.fresh⟩

/-- The words of the tables stay, but for the one that maps the new page table. -/
theorem InPlace.word_kept (hin : InPlace W dirs s 1 c p s1) (hb : IsTable s b)
    (hno : ¬ (b = pt_of s W (c / 512) ∧ i = c % 512)) : s1.pts b i = s.pts b i := by
  apply hin.words
  · rintro rfl
    exact hin.new.fresh hb
  · intro k hk hslot
    obtain rfl : k = 0 := by omega
    exact hno hslot

/-- Only the addresses of a page of the window go through its word. -/
theorem same_page (hs : Sound W dirs s) (hc : c < WINDOW) (hcov : Covered s W (c / 512))
    (hp : HasPt s v) (hpt : s.pt v = pt_of s W (c / 512)) (hi : pt_index v = c % 512) :
    v % 2 ^ 48 / 0x1000 = window c % 2 ^ 48 / 0x1000 := by
  obtain ⟨h1, h2⟩ := hp.1.links
  obtain ⟨htop, hslot⟩ := path_window hs hcov h1 h2 hp.link hpt (index_lt 1 v)
  have hv := low_bits v
  rw [htop, hi] at hv
  have hbase : KERNEL_VMA = 2 ^ 48 * 65535 + 511 * 2 ^ 39 := rfl
  unfold WINDOW at hc
  unfold window
  omega

theorem IsPdt.translates (h : IsPdt s i j t) (hs : Sound W dirs s)
    (hin : InPlace W dirs s 1 c p s1) (hno : ¬ present ((s.tables t).physical k))
    (hc : c < WINDOW) (hcov : Covered s W (c / 512)) (v : Nat) :
    mmu_virtual_to_physical (s1.set_entry t k (p ||| 0x3) (window c)) v =
        mmu_virtual_to_physical s v ∨
      v % 2 ^ 48 / 0x1000 = window c % 2 ^ 48 / 0x1000 := by
  obtain ⟨hmade, hkeeps⟩ := h.links hs hin hno
  obtain ⟨hpdt, hsame⟩ := h.keeps hs hmade.makes.pml4t hkeeps v
  have habsent : ¬ HasPt (s1.set_entry t k (p ||| 0x3) (window c)) v → ¬ HasPt s v →
      mmu_virtual_to_physical (s1.set_entry t k (p ||| 0x3) (window c)) v =
        mmu_virtual_to_physical s v := by
    intro h1 h2
    rw [translate_absent h1, translate_absent h2]
  by_cases hd : HasPdt s v
  · have hpdt' := hsame hd
    by_cases hslot : s.pdt v = t ∧ pdt_index v = k
    · -- the address had no page table, and has an empty one
      obtain ⟨rfl, rfl⟩ := hslot
      have hbefore : ¬ HasPt s v := fun hp => hno hp.2
      have hpt : HasPt (s1.set_entry (s.pdt v) (pdt_index v) (p ||| 0x3) (window c)) v := by
        refine ⟨hpdt.mpr hd, ?_⟩
        rw [hpdt', set_entry_self.1]
        exact present_or _ _ rfl
      have hnew : (s1.set_entry (s.pdt v) (pdt_index v) (p ||| 0x3) (window c)).pt v =
          window c := by
        show ((s1.set_entry (s.pdt v) (pdt_index v) (p ||| 0x3) (window c)).tables
          (Mmu.pdt _ v)).next (pdt_index v) = window c
        rw [hpdt', set_entry_self.2]
      have hempty : (s1.set_entry (s.pdt v) (pdt_index v) (p ||| 0x3) (window c)).pts (window c) =
          fun _ => 0 := hin.new.pts
      left
      rw [translate_absent hbefore, translate_present hpt, hnew, hempty]
      exact if_neg not_present_zero
    · obtain ⟨hphys, hnext⟩ :=
        hkeeps (s.pdt v) (pdt_index v) (hs.links _ _ _ hd.links.2).2 hslot
      by_cases hp : HasPt s v
      · have hp' : HasPt (s1.set_entry t k (p ||| 0x3) (window c)) v := by
          refine ⟨hpdt.mpr hd, ?_⟩
          rw [hpdt', hphys]
          exact hp.2
        have hpt : (s1.set_entry t k (p ||| 0x3) (window c)).pt v = s.pt v := by
          show ((s1.set_entry t k (p ||| 0x3) (window c)).tables (Mmu.pdt _ v)).next
            (pdt_index v) = s.pt v
          rw [hpdt', hnext]
          rfl
        by_cases hword : s.pt v = pt_of s W (c / 512) ∧ pt_index v = c % 512
        · exact Or.inr (same_page hs hc hcov hp hword.1 hword.2)
        · left
          have hkept := hin.word_kept (hs.links _ _ _ hp.link).2 hword
          rw [translate_present hp', translate_present hp, hpt]
          exact congrArg (fun word => translated word v) hkept
      · refine Or.inl (habsent (fun hp' => hp ⟨hd, ?_⟩) hp)
        rw [← hphys, ← hpdt']
        exact hp'.2
  · exact Or.inl (habsent (fun hp' => hd (hpdt.mp hp'.1)) (fun hp => hd hp.1))

/-- The page table of an address of the window that a new link covers. -/
theorem IsPdt.supplies (h : IsPdt s i j t) (hs : Sound W dirs s)
    (hin : InPlace W dirs s 1 c p s1) (hno : ¬ present ((s.tables t).physical k))
    (hc : c < WINDOW) (hcov : Covered s W (c / 512)) :
    Supplied W dirs s t k (s1.set_entry t k (p ||| 0x3) (window c)) := by
  obtain ⟨hmade, hkeeps⟩ := h.links hs hin hno
  refine ⟨hmade, ⟨window c, (links_self (present_or _ _ rfl)).mpr rfl, ?_⟩, hkeeps, ?_, ?_⟩
  · exact fun b hb => hin.tables hb
  · intro b i hb
    by_cases hword : b = pt_of s W (c / 512) ∧ i = c % 512
    · obtain ⟨hpt, heq⟩ := hasPt_window hs hc hcov
      refine Or.inr ⟨window c, hin.new_table, hpt, ?_, ?_⟩
      · rw [heq]
        exact hword.1
      · rw [pt_index_window]
        exact hword.2
    · exact Or.inl (hin.word_kept hb hword)
  · intro v
    exact (h.translates hs hin hno hc hcov v).imp_right (fun hv => ⟨_, hin.new_table, hv⟩)

/-- A new page table covers its slot, if it is one of the window. -/
theorem IsPdt.covers (h : IsPdt s i j t) (hs : Sound W dirs s)
    (hin : InPlace W dirs s 1 c p s1) (hno : ¬ present ((s.tables t).physical k)) (r : Nat) :
    (Covered (s1.set_entry t k (p ||| 0x3) (window c)) W r ↔
        Covered s W r ∨ (Links s W (r / 512) t ∧ r % 512 = k)) ∧
      (Links s W (r / 512) t → r % 512 = k →
        pt_of (s1.set_entry t k (p ||| 0x3) (window c)) W r = window c) := by
  obtain ⟨-, hkeeps⟩ := h.links hs hin hno
  have hW : W ≠ t := h.ne_pdpt hs ⟨present_root hs, next_root hs⟩
  have htop := hkeeps W (r / 512) (isTable_window hs) (fun heq => hW heq.1)
  constructor
  · unfold Covered
    rw [htop.1, htop.2]
    by_cases hslot : Links s W (r / 512) t ∧ r % 512 = k
    · obtain ⟨⟨h1, h2⟩, rfl⟩ := hslot
      rw [h2, set_entry_self.1]
      exact iff_of_true ⟨h1, present_or _ _ rfl⟩ (Or.inr ⟨⟨h1, h2⟩, rfl⟩)
    · rw [or_iff_left hslot]
      refine and_congr_right (fun h1 => ?_)
      have hpdt := (hs.links _ _ _ (links_next h1)).2
      rw [(hkeeps _ (r % 512) hpdt (fun heq => hslot ⟨⟨h1, heq.1⟩, heq.2⟩)).1]
  · rintro ⟨-, h2⟩ rfl
    unfold pt_of
    rw [htop.2, h2, set_entry_self.2]

theorem IsPdt.takes (h : IsPdt s i j t) (hs : Sound W dirs s)
    (hin : InPlace W dirs s 1 c p s1) (hno : ¬ present ((s.tables t).physical k))
    (hc : c < 512 * q) (hfree : Free s W c) :
    Takes W q s t k c (s1.set_entry t k (p ||| 0x3) (window c)) := by
  have hcov := fun r => (h.covers hs hin hno r).1
  have hno1 : ¬ present ((s1.tables t).physical k) := by
    rw [hin.entry (h.isTable hs)]
    exact hno
  refine ⟨hc, hfree, fun y => ?_, hcov, p, hin.frames⟩
  have hmapped : Mapped (s1.set_entry t k (p ||| 0x3) (window c)) W y ↔
      Mapped s W y ∨ (c ≤ y ∧ y < c + 1) := by
    refine (mapped_link hno1 ?_).trans (hin.mapped y)
    intro r hnew hold
    rw [hin.covered hs] at hold
    obtain ⟨hl, hk⟩ := ((hcov r).mp hnew).resolve_left hold
    rw [(h.covers hs hin hno r).2 hl hk]
    exact hin.new.pts
  have hheap : (s1.set_entry t k (p ||| 0x3) (window c)).heap_end = s.heap_end :=
    hin.quiet.heap_end
  unfold Free
  rw [hmapped, hheap, not_or, and_assoc, show (¬ (c ≤ y ∧ y < c + 1)) = (y ≠ c) by
    apply propext; omega]

end link

/-! ## allocate_pt for a page table of a PDT -/

/-- The calls may stop for any reason, or a page table that is missing finds a free page below
`512 * q`, and a frame. -/
def Stocked (halts : Halt → Prop) (fuel : Nat) (s : Mmu) (W q t k : Nat) : Prop :=
  (∀ e, halts e) ∨ (WINDOW ≤ fuel ∧ (¬ present ((s.tables t).physical k) →
    (∃ x, x < 512 * q ∧ Free s W x) ∧ ∃ r, get_frame s.frames true 1 = .ok r))

theorem IsPdt.allocates (h : IsPdt s i j t) (hs : Sound W dirs s) (hi : i < 512) (hj : j < 512)
    (hk : k < 512) (hq : CoveredBelow s W (512 * q)) (hnq : ¬ Covered s W q)
    (hstock : Stocked halts fuel s W q t k) :
    Spec (allocate_pt fuel s i j k) halts (fun r => Supplied W dirs s t k r.2 ∧
      (present ((s.tables t).physical k) → r.2 = s) ∧
      (¬ present ((s.tables t).physical k) → ∃ c, Takes W q s t k c r.2)) := by
  have hle := coveredBelow_le hs hq
  have hqs : q < SLOTS := by
    unfold LIMIT NUM_OF_FRAMES at hle
    unfold SLOTS
    omega
  have hspin : halts .spin ∨ 0 < fuel := by
    rcases hstock with hall | ⟨hfuel, -⟩
    · exact Or.inl (hall .spin)
    · unfold WINDOW at hfuel
      exact Or.inr (by omega)
  cases fuel with
  | zero => exact hspin.resolve_right (Nat.lt_irrefl 0)
  | succ fuel =>
    obtain ⟨b, hb, ht⟩ := h.linked
    unfold allocate_pt
    rw [allocate_table_present hi hb.1, ok_bind]
    dsimp only
    rw [hb.2, allocate_table_present hj ht.1, ok_bind, if_neg (by omega), ht.2]
    by_cases hp : present ((s.tables t).physical k)
    · rw [if_pos hp]
      exact ⟨supplied_refl hs hp, fun _ => rfl, fun hno => absurd hp hno⟩
    · rw [if_neg hp, allocate_table_absent hk hp]
      have hready : Ready halts (fuel + 1) s W [(512 * q, 1)] := by
        refine hstock.imp_right ?_
        rintro ⟨hfuel, hroom⟩
        obtain ⟨⟨x, hx, hfree⟩, ⟨f, frames⟩, hget⟩ := hroom hp
        have hrun : IsRun (Free s W) x 1 := by
          intro y h1 h2
          obtain rfl : y = x := by omega
          exact hfree
        obtain ⟨c, hc⟩ := hrun.firstRun hx
        exact ⟨hfuel, ⟨_, placed_one hc⟩, _, _, hget, trivial⟩
      refine spec_bind (spec_bind (safe_first hs hqs hq hnq Nat.one_pos (need_pos s W q) hready)
        ?_ : Spec _ halts (fun s' => Supplied W dirs s t k s' ∧ ∃ c, Takes W q s t k c s')) ?_
      · rintro ⟨_, f, s1⟩ ⟨c, hc, rfl, hin⟩
        dsimp only at hin ⊢
        have hbelow := hc.below
        have hfree := hc.run c (le_refl c) (by omega)
        have hcov := hq (c / 512) (by omega)
        have hcw : c < WINDOW := by
          unfold SLOTS at hqs
          unfold WINDOW
          omega
        exact ⟨h.supplies hs hin hp hcw hcov, c, h.takes hs hin hp hbelow hfree⟩
      · rintro s' ⟨hsupplied, htakes⟩
        exact ⟨hsupplied, fun hyes => absurd hyes hp, fun _ => htakes⟩

/-! ## allocate_next_pt -/

/-- The page tables of the address and of the one 2 MiB behind it are there. Their entries have
changed, if they were missing, and the word and the translations of the page that each new one
lies in, and nothing else. -/
structure Prepared (s : Mmu) (address : Nat) (s' : Mmu) : Prop where
  tables : HasPt s' address ∧ HasPt s' (address + 0x200000)
  new : ∀ b, IsTable s' b → IsTable s b ∨ b = s'.pt address ∨ b = s'.pt (address + 0x200000)
  entries : ∀ b i, IsTable s b → ¬ (b = s'.pdt address ∧ i = pdt_index address) →
    ¬ (b = s'.pdt (address + 0x200000) ∧ i = pdt_index (address + 0x200000)) →
    (s'.tables b).physical i = (s.tables b).physical i ∧ (s'.tables b).next i = (s.tables b).next i
  words : ∀ b i, IsTable s b → s'.pts b i = s.pts b i ∨
    ∃ n, NewTable s s' n ∧ HasPt s n ∧ b = s.pt n ∧ i = pt_index n
  translations : ∀ v, mmu_virtual_to_physical s' v = mmu_virtual_to_physical s v ∨
    ∃ n, NewTable s s' n ∧ v % 2 ^ 48 / 0x1000 = n % 2 ^ 48 / 0x1000

/-- How many of the two page tables are missing. -/
def missing (s : Mmu) (address : Nat) : Nat :=
  (if HasPt s address then 0 else 1) + (if HasPt s (address + 0x200000) then 0 else 1)

/-- The address is one of the page table `q` of the window. -/
def InSlot (address q : Nat) : Prop :=
  pml4t_index address = 511 ∧ pdpt_index address * 512 + pdt_index address = q

/-- The page tables that are missing find free pages below the first page table `q` that the
window misses. Where the first of them is `q` itself, it brings room for the second one. -/
def RoomForNext (s : Mmu) (W address : Nat) : Prop :=
  ∀ q, CoveredBelow s W (512 * q) → ¬ Covered s W q →
    (0 < missing s address → ∃ x, x < 512 * q ∧ Free s W x) ∧
    (missing s address = 2 → ¬ InSlot address q →
      ∃ x y, x ≠ y ∧ (x < 512 * q ∧ Free s W x) ∧ y < 512 * q ∧ Free s W y)

theorem next_indices (hlt : pdt_index a + 1 < 512) :
    pml4t_index (a + 0x200000) = pml4t_index a ∧ pdpt_index (a + 0x200000) = pdpt_index a ∧
      pdt_index (a + 0x200000) = pdt_index a + 1 := by
  have h3 := index_eq 3 a
  have h2 := index_eq 2 a
  have h1 := index_eq 1 a
  have h3' := index_eq 3 (a + 0x200000)
  have h2' := index_eq 2 (a + 0x200000)
  have h1' := index_eq 1 (a + 0x200000)
  change pml4t_index a = _ at h3
  change pdpt_index a = _ at h2
  change pdt_index a = _ at h1
  change pml4t_index (a + 0x200000) = _ at h3'
  change pdpt_index (a + 0x200000) = _ at h2'
  change pdt_index (a + 0x200000) = _ at h1'
  omega

theorem pdt_index_lt (a : Nat) : pdt_index a < 512 := index_lt 1 a

/-- A page table that is no new one belongs to the address as before. -/
theorem HasPt.old (hs : Sound W dirs s) (hm : Makes W s s') (hp : HasPt s' a)
    (ht : IsTable s (s'.pt a)) : HasPt s a ∧ s.pt a = s'.pt a := by
  obtain ⟨h1, h2⟩ := hp.1.links
  have o3 := hm.grows.old_link hp.link ht
  have o2 := hm.grows.old_link h2 (hs.links _ _ _ o3).1
  have o1 := hm.grows.old_link h1 (hs.links _ _ _ o2).1
  rw [hm.pml4t] at o1
  obtain ⟨hold, -, heq⟩ := hasPt_of_links o1 o2 o3
  exact ⟨hold, heq⟩

section next

variable {s1 s2 : Mmu}

theorem NewTable.later (h : NewTable s s1 n) (hg : Grows W s1 s2) : NewTable s s2 n :=
  ⟨hg.isTable h.1, h.2⟩

theorem NewTable.earlier (h : NewTable s1 s2 n) (hg : Grows W s s1) : NewTable s s2 n :=
  ⟨h.1, fun hn => h.2 (hg.isTable hn)⟩

theorem prepared_of_supplied (hs : Sound W dirs s) (hd : HasPdt s a)
    (hlt : pdt_index a + 1 < 512) (h1 : Supplied W dirs s (s.pdt a) (pdt_index a) s1)
    (h2 : Supplied W dirs s1 (s.pdt a) (pdt_index a + 1) s2) : Prepared s a s2 := by
  obtain ⟨htop, hmid, hlow⟩ := next_indices hlt
  have hg1 := h1.made.makes.grows
  have hg2 := h2.made.makes.grows
  have hm := (h1.made.trans h2.made).makes
  obtain ⟨la, lb⟩ := hd.links
  have la := (hm.grows.table _ _ _ la).1
  have lb := (hm.grows.table _ _ _ lb).1
  rw [← hm.pml4t] at la
  obtain ⟨d1, l1, hnew1⟩ := h1.link
  obtain ⟨d2, l2, hnew2⟩ := h2.link
  have l1 := (hg2.table _ _ _ l1).1
  obtain ⟨hpt, hpdt, heq⟩ := hasPt_of_links la lb l1
  rw [← htop] at la
  rw [← hmid] at lb
  rw [← hlow] at l2
  obtain ⟨hpt', hpdt', heq'⟩ := hasPt_of_links la lb l2
  refine ⟨⟨hpt, hpt'⟩, ?_, ?_, ?_, ?_⟩
  · intro b hb
    rw [heq, heq']
    rcases hnew2 b hb with hb | hb
    · exact (hnew1 b hb).imp_right Or.inl
    · exact Or.inr (Or.inr hb)
  · intro b i hb hno hno'
    rw [hpdt] at hno
    rw [hpdt', hlow] at hno'
    obtain ⟨e1, e2⟩ := h1.entries b i hb hno
    obtain ⟨e3, e4⟩ := h2.entries b i (hg1.isTable hb) hno'
    exact ⟨e3.trans e1, e4.trans e2⟩
  · intro b i hb
    rcases h2.words b i (hg1.isTable hb) with e2 | ⟨n, hn, hp, rfl, hi⟩
    · rw [e2]
      rcases h1.words b i hb with e1 | ⟨n, hn, hrest⟩
      · exact Or.inl e1
      · exact Or.inr ⟨n, hn.later hg2, hrest⟩
    · obtain ⟨hold, heq⟩ := hp.old hs h1.made.makes hb
      exact Or.inr ⟨n, hn.earlier hg1, hold, heq.symm, hi⟩
  · intro v
    rcases h2.translations v with e2 | ⟨n, hn, hv⟩
    · rw [e2]
      exact (h1.translations v).imp_right (fun ⟨n, hn, hv⟩ => ⟨n, hn.later hg2, hv⟩)
    · exact Or.inr ⟨n, hn.earlier hg1, hv⟩

theorem missing_pos : 0 < missing s a ↔ ¬ HasPt s a ∨ ¬ HasPt s (a + 0x200000) := by
  unfold missing
  by_cases h1 : HasPt s a <;> by_cases h2 : HasPt s (a + 0x200000) <;> simp [h1, h2]

theorem missing_two : missing s a = 2 ↔ ¬ HasPt s a ∧ ¬ HasPt s (a + 0x200000) := by
  unfold missing
  by_cases h1 : HasPt s a <;> by_cases h2 : HasPt s (a + 0x200000) <;> simp [h1, h2]

/-- Both page tables are entries of one PDT. -/
theorem hasPt_next (hd : HasPdt s a) (hlt : pdt_index a + 1 < 512) :
    HasPt s (a + 0x200000) ↔ present ((s.tables (s.pdt a)).physical (pdt_index a + 1)) := by
  obtain ⟨htop, hmid, hlow⟩ := next_indices hlt
  have hdir : HasPdt s (a + 0x200000) := by
    unfold HasPdt Mmu.pdpt
    rw [htop, hmid]
    exact hd
  have hpdt : s.pdt (a + 0x200000) = s.pdt a := by
    unfold Mmu.pdt Mmu.pdpt
    rw [htop, hmid]
  unfold HasPt
  rw [hpdt, hlow]
  exact and_iff_right hdir

theorem first_missing (hs : Sound W dirs s) :
    ∃ q, CoveredBelow s W (512 * q) ∧ ¬ Covered s W q := by
  have hex : ∃ q, ¬ Covered s W q := by
    by_contra hno
    push Not at hno
    exact absurd (covered_lt hs (fun r _ => hno r)) (Nat.lt_irrefl _)
  refine ⟨Nat.find hex, fun r hr => ?_, Nat.find_spec hex⟩
  exact not_not.mp (Nat.find_min hex (by omega))

/-- A new page table elsewhere leaves the first one that the window misses. -/
theorem Takes.still_missing (h : Takes W q s (s.pdt a) (pdt_index a) c s1) (hs : Sound W dirs s)
    (hd : HasPdt s a) (hnq : ¬ Covered s W q) (hno : ¬ InSlot a q) : ¬ Covered s1 W q := by
  rw [h.covered]
  rintro (hc | ⟨hl, hk⟩)
  · exact hnq hc
  · obtain ⟨htop, hmid⟩ := hd.isPdt.slot hs hl
    exact hno ⟨htop, by omega⟩

/-- Behind a new page table of the window there is a free page for the next one. -/
theorem Takes.room_behind (h : Takes W q s (s.pdt a) (pdt_index a) c s1) (hs : Sound W dirs s)
    (hd : HasPdt s a) (hq : CoveredBelow s W (512 * q)) (hnq : ¬ Covered s W q)
    (hin : InSlot a q) {q1 : Nat} (hg : Grows W s s1) (hnq1 : ¬ Covered s1 W q1) :
    ∃ x, x < 512 * q1 ∧ Free s1 W x := by
  have hbelow := h.below
  have hmid := pdt_index_lt a
  have hW : s.pdpt a = W := by
    unfold Mmu.pdpt
    rw [hin.1]
    exact next_root hs
  have hl : Links s W (q / 512) (s.pdt a) := by
    have h2 := hd.links.2
    rw [hW, show pdpt_index a = q / 512 by have := hin.2; omega] at h2
    exact h2
  have hcov : Covered s1 W q := (h.covered q).mpr (Or.inr ⟨hl, by have := hin.2; omega⟩)
  have hgt : q < q1 := by
    by_contra hle
    rcases Nat.lt_or_eq_of_le (Nat.le_of_not_lt hle) with hlt | rfl
    · exact hnq1 (hg.covered (hq q1 (by omega))).1
    · exact hnq1 hcov
  obtain ⟨t, ht, hheap⟩ := hs.heap
  have htq : t ≤ 512 * q := by
    by_contra hlt
    exact hnq (hheap q (by omega))
  refine ⟨512 * q, by omega, (h.left _).mpr ⟨⟨?_, fun hm => hnq ?_⟩, by omega⟩⟩
  · exact heap_le_window (le_of_eq ht) htq
  · have := hm.covered
    rw [show 512 * q / 512 = q by omega] at this
    exact this

theorem allocate_next_pt.prepares (hs : Sound W dirs s) (hfuel : WINDOW ≤ fuel) (hd : HasPdt s a)
    (henough : Enough s.frames (List.replicate (missing s a) 1)) (hlt : pdt_index a + 1 < 512)
    (hroom : RoomForNext s W a) :
    ∃ s', allocate_next_pt fuel s a = .ok s' ∧ Prepared s a s' := by
  obtain ⟨q, hq, hnq⟩ := first_missing hs
  obtain ⟨hone, htwo⟩ := hroom q hq hnq
  have hframe : 0 < missing s a → ∃ r, get_frame s.frames true 1 = .ok r := by
    intro hpos
    obtain ⟨m, hm⟩ := Nat.exists_eq_add_of_lt hpos
    rw [show missing s a = m + 1 by omega] at henough
    obtain ⟨p, frames, hget, -⟩ := henough
    exact ⟨_, hget⟩
  have hstock : Stocked (fun _ => False) fuel s W q (s.pdt a) (pdt_index a) := by
    refine Or.inr ⟨hfuel, fun hno => ?_⟩
    have hpos := missing_pos.mpr (Or.inl fun hp : HasPt s a => hno hp.2)
    exact ⟨hone hpos, hframe hpos⟩
  obtain ⟨⟨b1, s1⟩, hcall1, hsup1, hsame, htakes⟩ := spec_returns
    (hd.isPdt.allocates hs (index_lt 3 a) (index_lt 2 a) (pdt_index_lt a) hq hnq hstock)
  dsimp only at hsup1 hsame htakes
  have hg1 := hsup1.made.makes.grows
  -- the second page table finds what it needs in the state that the first one leaves
  have hsecond : ∃ q1, CoveredBelow s1 W (512 * q1) ∧ ¬ Covered s1 W q1 ∧
      Stocked (fun _ => False) fuel s1 W q1 (s.pdt a) (pdt_index a + 1) := by
    have hmiss : ¬ present ((s1.tables (s.pdt a)).physical (pdt_index a + 1)) →
        ¬ HasPt s (a + 0x200000) := by
      intro hno hp
      exact hno (hg1.present ((hasPt_next hd hlt).mp hp)).1
    by_cases hp : HasPt s a
    · obtain rfl := hsame hp.2
      refine ⟨q, hq, hnq, Or.inr ⟨hfuel, fun hno => ?_⟩⟩
      have hpos := missing_pos.mpr (Or.inr (hmiss hno))
      exact ⟨hone hpos, hframe hpos⟩
    · obtain ⟨c, hc⟩ := htakes (fun hp' => hp ⟨hd, hp'⟩)
      have hframe1 : ¬ HasPt s (a + 0x200000) → ∃ r, get_frame s1.frames true 1 = .ok r := by
        intro hno
        rw [missing_two.mpr ⟨hp, hno⟩] at henough
        obtain ⟨p, frames, hget, p', frames', hget', -⟩ := henough
        obtain ⟨p1, hget1⟩ := hc.frames
        rw [hget] at hget1
        cases hget1
        exact ⟨_, hget'⟩
      by_cases hin : InSlot a q
      · obtain ⟨q1, hq1, hnq1⟩ := first_missing hsup1.made.sound
        refine ⟨q1, hq1, hnq1, Or.inr ⟨hfuel, fun hno => ⟨?_, hframe1 (hmiss hno)⟩⟩⟩
        exact hc.room_behind hs hd hq hnq hin hg1 hnq1
      · refine ⟨q, fun r hr => (hg1.covered (hq r hr)).1, hc.still_missing hs hd hnq hin,
          Or.inr ⟨hfuel, fun hno => ⟨?_, hframe1 (hmiss hno)⟩⟩⟩
        obtain ⟨x, y, hxy, ⟨hx, hfx⟩, hy, hfy⟩ :=
          htwo (missing_two.mpr ⟨hp, hmiss hno⟩) hin
        by_cases hxc : x = c
        · exact ⟨y, hy, (hc.left y).mpr ⟨hfy, by omega⟩⟩
        · exact ⟨x, hx, (hc.left x).mpr ⟨hfx, hxc⟩⟩
  obtain ⟨q1, hq1, hnq1, hstock1⟩ := hsecond
  obtain ⟨⟨b2, s2⟩, hcall2, hsup2, -⟩ := spec_returns
    ((hd.isPdt.grows hsup1.made.makes).allocates hsup1.made.sound (index_lt 3 a) (index_lt 2 a)
      hlt hq1 hnq1 hstock1)
  refine ⟨s2, ?_, prepared_of_supplied hs hd hlt hsup1 hsup2⟩
  unfold allocate_next_pt
  rw [hcall1, ok_bind]
  dsimp only
  rw [hcall2, ok_bind]

theorem allocate_next_pt.needs (hs : Sound W dirs s) (hd : HasPdt s a)
    (hcall : allocate_next_pt fuel s a = .ok s') :
    pdt_index a + 1 < 512 ∧ RoomForNext s W a := by
  obtain ⟨⟨b1, s1⟩, hcall1, hrest⟩ := bind_eq_ok.mp hcall
  obtain ⟨⟨b2, s2⟩, hcall2, -⟩ := bind_eq_ok.mp hrest
  have hfirst := fun q (hq : CoveredBelow s W (512 * q)) (hnq : ¬ Covered s W q) =>
    spec_of_ok (hd.isPdt.allocates hs (index_lt 3 a) (index_lt 2 a) (pdt_index_lt a) hq hnq
      (Or.inl fun e => trivial : Stocked anyhow _ _ _ _ _ _)) hcall1
  obtain ⟨q0, hq0, hnq0⟩ := first_missing hs
  have hmade := (hfirst q0 hq0 hnq0).1.made
  obtain ⟨-, d, hpath⟩ := spec_of_ok (allocate_pt.spec hmade.sound fuel _ _ _) hcall2
  have hlt := hpath.below.2.2
  have hsecond := fun q (hq : CoveredBelow s1 W (512 * q)) (hnq : ¬ Covered s1 W q) =>
    spec_of_ok ((hd.isPdt.grows hmade.makes).allocates hmade.sound (index_lt 3 a) (index_lt 2 a)
      hlt hq hnq (Or.inl fun e => trivial : Stocked anyhow _ _ _ _ _ _)) hcall2
  refine ⟨hlt, fun q hq hnq => ⟨fun hpos => ?_, fun htwo hno => ?_⟩⟩
  · obtain ⟨-, hsame, htakes⟩ := hfirst q hq hnq
    dsimp only at hsame htakes
    by_cases hp : HasPt s a
    · have hp' := (missing_pos.mp hpos).resolve_left (not_not.mpr hp)
      rw [hasPt_next hd hlt] at hp'
      obtain rfl := hsame hp.2
      obtain ⟨c, hc⟩ := (hsecond q hq hnq).2.2 hp'
      exact ⟨c, hc.below, hc.free⟩
    · obtain ⟨c, hc⟩ := htakes (fun hp' => hp ⟨hd, hp'⟩)
      exact ⟨c, hc.below, hc.free⟩
  · obtain ⟨hp, hp'⟩ := missing_two.mp htwo
    rw [hasPt_next hd hlt] at hp'
    obtain ⟨hsup, -, htakes⟩ := hfirst q hq hnq
    obtain ⟨c, hc⟩ := htakes (fun hp' => hp ⟨hd, hp'⟩)
    dsimp only at hsup hc
    have habsent : ¬ present ((s1.tables (s.pdt a)).physical (pdt_index a + 1)) := by
      rw [(hsup.entries _ _ (hd.isPdt.isTable hs) (fun heq => by omega)).1]
      exact hp'
    obtain ⟨c', hc'⟩ := (hsecond q (fun r hr => (hmade.makes.grows.covered (hq r hr)).1)
      (hc.still_missing hs hd hnq hno)).2.2 habsent
    obtain ⟨hfree, hne⟩ := (hc.left c').mp hc'.free
    exact ⟨c, c', Ne.symm hne, ⟨hc.below, hc.free⟩, hc'.below, hfree⟩

end next

/-- The next page tables are prepared, in every state that the invariant allows and for every
address with a PDT, exactly when the address is not one of the last page table of its PDT and
the window has room for what is missing. -/
theorem the_next_page_tables_are_prepared_iff (W : Nat) (dirs : List Nat) (s : Mmu)
    (hs : Sound W dirs s) (fuel : Nat) (hfuel : WINDOW ≤ fuel) (a : Nat) (hd : HasPdt s a)
    (henough : Enough s.frames (List.replicate (missing s a) 1)) :
    (∃ s', allocate_next_pt fuel s a = .ok s' ∧ Prepared s a s') ↔
      pdt_index a ≠ 511 ∧ RoomForNext s W a := by
  have hlast := pdt_index_lt a
  constructor
  · rintro ⟨s', hcall, -⟩
    obtain ⟨hlt, hroom⟩ := allocate_next_pt.needs hs hd hcall
    exact ⟨by omega, hroom⟩
  · rintro ⟨hne, hroom⟩
    exact allocate_next_pt.prepares hs hfuel hd henough (by omega) hroom

theorem small_boot_enough {frames : Frames} (hserve : (serve frames [1, 1, 1]).isSome) (s : Mmu)
    (a : Nat) : Enough frames (List.replicate (missing s a) 1) := by
  obtain ⟨last, hlast⟩ := Option.isSome_iff_exists.mp hserve
  have hle : missing s a ≤ 2 := by
    unfold missing
    split <;> split <;> omega
  have hsplit :
      List.replicate (missing s a) 1 ++ List.replicate (3 - missing s a) 1 = [1, 1, 1] := by
    rw [List.replicate_append_replicate, show missing s a + (3 - missing s a) = 3 by omega]
    rfl
  have hall := (served_of_serve hlast).enough_all
  rw [← hsplit] at hall
  exact hall.left

/-- The page table behind the ones that `mmu_init` leaves. -/
theorem the_next_page_tables_are_prepared_at_the_start :
    ∃ s s', mmu_init WINDOW small_boot = .ok s ∧
      allocate_next_pt WINDOW s (window 512) = .ok s' ∧ Prepared s (window 512) s' := by
  obtain ⟨s, frames, hinit, hsound, hfilled, hspace, hserve⟩ := small_boot_returns
  have hfree : Free s small_boot.W = fun y => 512 ≤ y := congrArg Space.free hspace
  have hframes : s.frames = frames := congrArg Space.frames hspace
  have hcov : Covered s small_boot.W (512 / 512) := (hfilled.covered _).mpr (by decide)
  have hd : HasPdt s (window 512) := (hasPt_window hsound (by decide) hcov).1.1
  have hroom : RoomForNext s small_boot.W (window 512) := by
    intro q hq hnq
    rw [hfilled.covered] at hnq
    rw [hfree]
    exact ⟨fun _ => ⟨512, by omega, by decide⟩,
      fun _ _ => ⟨512, 513, by decide, ⟨by omega, by decide⟩, by omega, by decide⟩⟩
  have hlow : pdt_index (window 512) ≠ 511 := by
    rw [pdt_index_window]
    decide
  obtain ⟨s', hcall, hprepared⟩ := (the_next_page_tables_are_prepared_iff _ _ s hsound WINDOW
    (Nat.le_refl _) (window 512) hd (by rw [hframes]; exact small_boot_enough hserve s _)).mpr
    ⟨hlow, hroom⟩
  exact ⟨s, s', hinit, hcall, hprepared⟩

/-- Behind the last page table of a PDT, `allocate_next_pt` asks for the entry 512 of the PDT
and not for the first one of the next PDT. -/
theorem the_last_page_table_has_no_next :
    ¬ ∀ (W : Nat) (dirs : List Nat) (s : Mmu) (a : Nat), Sound W dirs s → HasPdt s a →
      a + 0x200000 < 2 ^ 64 → Enough s.frames (List.replicate (missing s a) 1) →
      ∃ fuel s', allocate_next_pt fuel s a = .ok s' ∧ Prepared s a s' := by
  intro h
  obtain ⟨s, frames, -, hsound, hfilled, hspace, hserve⟩ := small_boot_returns
  have hframes : s.frames = frames := congrArg Space.frames hspace
  have hcov : Covered s small_boot.W (0 / 512) := (hfilled.covered _).mpr (by decide)
  have hd : HasPdt s (window (511 * 512)) := by
    have hfirst := (hasPt_window hsound (by decide) hcov).1.1
    unfold HasPdt Mmu.pdpt at hfirst ⊢
    rw [pml4t_index_window (by decide), pdpt_index_window (by decide)] at hfirst ⊢
    exact hfirst
  obtain ⟨fuel, s', hcall, -⟩ := h _ _ s (window (511 * 512)) hsound hd (by decide)
    (by rw [hframes]; exact small_boot_enough hserve s _)
  have hlt := (allocate_next_pt.needs hsound hd hcall).1
  rw [pdt_index_window] at hlt
  exact absurd hlt (by decide)

end salsola.mmu
