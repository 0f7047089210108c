-- The state that mmu_init leaves. The loops over the tables of boot.s set the
-- pointers and mark the frames, and change nothing else.
import Salsola.MmuProgress

open memory outcome runs

namespace salsola.mmu

variable {s s' s'' : Mmu} {a b i j n p q x : Nat} {Q : Mmu → Nat → Prop} {child : Mmu → Nat → Mmu}

/-! ## The loops over the tables -/

/-- The pointer of the entry is the physical address plus `KERNEL_VMA`. -/
def Pointed (s : Mmu) (a i : Nat) : Prop :=
  (s.tables a).next i = page_base ((s.tables a).physical i + KERNEL_VMA)

/-- All entries name one of the first 512 frames. -/
def Low (s : Mmu) : Prop :=
  (∀ a i, (s.tables a).physical i < 0x200000) ∧ ∀ a i, s.pts a i < 0x200000

/-- What the loops may do. -/
structure Inits (s s' : Mmu) : Prop where
  rest : s' = { s with tables := s'.tables, frames := s'.frames }
  physical : ∀ a i, (s'.tables a).physical i = (s.tables a).physical i
  next : ∀ a i, (s'.tables a).next i = (s.tables a).next i ∨ Pointed s' a i
  taken : ∀ f, taken s.frames f → taken s'.frames f
  full : ∀ i, s.frames i = BitVec.allOnes 64 → s'.frames i = BitVec.allOnes 64
  words : Low s → ∀ i, 8 ≤ i → s'.frames i = s.frames i

theorem inits_refl (s : Mmu) : Inits s s where
  rest := rfl
  physical _ _ := rfl
  next _ _ := Or.inl rfl
  taken _ h := h
  full _ h := h
  words _ _ _ := rfl

theorem Inits.pts (h : Inits s s') : s'.pts = s.pts := by rw [h.rest]

theorem Inits.low (h : Inits s s') (hl : Low s) : Low s' := by
  unfold Low
  simp only [h.physical, h.pts]
  exact hl

theorem Inits.pointed (h : Inits s s') (hp : Pointed s a i) : Pointed s' a i := by
  rcases h.next a i with h1 | h1
  · unfold Pointed at hp ⊢
    rw [h1, h.physical]
    exact hp
  · exact h1

theorem Inits.trans (h : Inits s s') (h' : Inits s' s'') : Inits s s'' where
  rest := by rw [h'.rest, h.rest]
  physical a i := (h'.physical a i).trans (h.physical a i)
  next a i := by
    rcases h'.next a i with h1 | h1
    · rcases h.next a i with h2 | h2
      · exact Or.inl (h1.trans h2)
      · exact Or.inr (h'.pointed h2)
    · exact Or.inr h1
  taken f hf := h'.taken f (h.taken f hf)
  full i hi := h'.full i (h.full i hi)
  words hl i hi := (h'.words (h.low hl) i hi).trans (h.words hl i hi)

/-- A mark changes one word, and a full word stays full. -/
theorem set_frame_words (frames : Frames) (p i : Nat) :
    (frames i = BitVec.allOnes 64 → (set_frame frames p true).2 i = BitVec.allOnes 64) ∧
      (i ≠ p / 0x1000 / 64 → (set_frame frames p true).2 i = frames i) := by
  unfold set_frame
  dsimp only
  split
  · exact ⟨id, fun _ => rfl⟩
  · unfold Frames.set
    simp only [if_true]
    refine ⟨fun hfull => ?_, fun hne => if_neg hne⟩
    split
    · rename_i hi
      rw [← hi, hfull, BitVec.allOnes_or]
    · exact hfull

theorem inits_mark (s : Mmu) {p : Nat} (hp : Low s → p < 0x200000) :
    Inits s { s with frames := (set_frame s.frames p true).2 } where
  rest := rfl
  physical _ _ := rfl
  next _ _ := Or.inl rfl
  taken f hf := taken_mono s.frames p f hf
  full i hi := (set_frame_words s.frames p i).1 hi
  words hl i hi := (set_frame_words s.frames p i).2 (by have := hp hl; omega)

theorem inits_entry (s : Mmu) (a i : Nat) :
    Inits s (s.set_entry a i ((s.tables a).physical i)
      (page_base ((s.tables a).physical i + KERNEL_VMA))) where
  rest := rfl
  physical b j := by
    by_cases hslot : b = a ∧ j = i
    · rw [hslot.1, hslot.2]
      exact set_entry_self.1
    · exact (set_entry_other hslot).1
  next b j := by
    by_cases hslot : b = a ∧ j = i
    · right
      unfold Pointed
      rw [hslot.1, hslot.2, set_entry_self.1]
      exact set_entry_self.2
    · exact Or.inl (set_entry_other hslot).2
  taken _ hf := hf
  full _ hf := hf
  words _ _ _ := rfl

/-- The loops keep what has been reached. -/
def Stable (Q : Mmu → Nat → Prop) : Prop := ∀ s s' b, Inits s s' → Q s b → Q s' b

/-- The loop over the table `b` reaches `Q`. -/
def Visits (Q : Mmu → Nat → Prop) (child : Mmu → Nat → Mmu) : Prop :=
  ∀ s b, Inits s (child s b) ∧ Q (child s b) b

/-- The first `n` entries have their pointers, and the tables below have been visited. -/
def Entries (Q : Mmu → Nat → Prop) (n : Nat) (s : Mmu) (a : Nat) : Prop :=
  ∀ i, i < n → present ((s.tables a).physical i) → Pointed s a i ∧ Q s ((s.tables a).next i)

theorem stable_entries (hQ : Stable Q) (n : Nat) : Stable (Entries Q n) := by
  intro s s' a h hs i hi hp
  rw [h.physical] at hp
  obtain ⟨h1, h2⟩ := hs i hi hp
  have h3 := h.pointed h1
  have hnext : (s'.tables a).next i = (s.tables a).next i := by
    unfold Pointed at h1 h3
    rw [h3, h1, h.physical]
  rw [hnext]
  exact ⟨h3, hQ s s' _ h h2⟩

theorem present_pointer (e : Nat) : present (e + KERNEL_VMA) ↔ present e := by
  rw [present_iff, present_iff]
  unfold KERNEL_VMA
  omega

theorem init_entries.spec (hQ : Stable Q) (hchild : Visits Q child) (mark : Bool) (a n : Nat)
    (s : Mmu) :
    Inits s (init_entries mark child a s n) ∧ Entries Q n (init_entries mark child a s n) a := by
  induction n with
  | zero =>
    refine ⟨inits_refl s, ?_⟩
    intro i hi
    exact absurd hi (Nat.not_lt_zero i)
  | succ n ih =>
    unfold init_entries
    generalize init_entries mark child a s n = s1 at ih ⊢
    obtain ⟨h1, he1⟩ := ih
    dsimp only
    -- the frame is marked
    obtain ⟨s2, hs2⟩ : ∃ s2, s2 = if mark then
        { s1 with frames := (set_frame s1.frames
          (page_base ((s1.tables a).physical n)) true).2 } else s1 := ⟨_, rfl⟩
    rw [← hs2]
    have h2 : Inits s1 s2 := by
      rw [hs2]
      cases mark with
      | true =>
        apply inits_mark
        intro hl
        have := hl.1 a n
        unfold page_base
        omega
      | false => exact inits_refl s1
    have hphys := h2.physical a n
    have he2 := stable_entries hQ n _ _ _ h2 he1
    rw [← hphys]
    by_cases hp : present ((s2.tables a).physical n + KERNEL_VMA)
    · rw [if_neg (not_not.mpr hp)]
      have h3 := inits_entry s2 a n
      obtain ⟨h4, hq4⟩ := hchild (s2.set_entry a n ((s2.tables a).physical n)
        (page_base ((s2.tables a).physical n + KERNEL_VMA)))
        (page_base ((s2.tables a).physical n + KERNEL_VMA))
      refine ⟨((h1.trans h2).trans h3).trans h4, ?_⟩
      have hpointed : Pointed (s2.set_entry a n ((s2.tables a).physical n)
          (page_base ((s2.tables a).physical n + KERNEL_VMA))) a n := by
        unfold Pointed
        rw [set_entry_self.1]
        exact set_entry_self.2
      intro i hi hpi
      by_cases hin : i = n
      · subst hin
        have h5 := h4.pointed hpointed
        refine ⟨h5, ?_⟩
        unfold Pointed at h5
        rw [h5, h4.physical, set_entry_self.1]
        exact hq4
      · exact stable_entries hQ n _ _ _ (h3.trans h4) he2 i (by omega) hpi
    · rw [if_pos hp]
      refine ⟨h1.trans h2, ?_⟩
      intro i hi hpi
      by_cases hin : i = n
      · subst hin
        rw [← present_pointer] at hpi
        exact absurd hpi hp
      · exact he2 i (by omega) hpi

theorem visits_entries (hQ : Stable Q) (hchild : Visits Q child) (mark : Bool) :
    Visits (Entries Q 512) (fun s a => init_entries mark child a s 512) :=
  fun s a => init_entries.spec hQ hchild mark a 512 s

/-- The frames of the first `n` pages of a PT are taken. -/
def Marked (n : Nat) (s : Mmu) (pt : Nat) : Prop :=
  ∀ k, k < n → s.pts pt k / 0x1000 < NUM_OF_FRAMES * 64 → taken s.frames (s.pts pt k / 0x1000)

theorem Inits.pml4t (h : Inits s s') : s'.pml4t = s.pml4t := by
  rw [h.rest]
  rfl

theorem stable_marked (n : Nat) : Stable (Marked n) := by
  intro s s' pt h hs k hk hlt
  rw [h.pts] at hlt ⊢
  exact h.taken _ (hs k hk hlt)

theorem init_pages.spec (pt n : Nat) (s : Mmu) :
    Inits s (init_pages pt s n) ∧ Marked n (init_pages pt s n) pt := by
  induction n with
  | zero =>
    refine ⟨inits_refl s, ?_⟩
    intro k hk
    exact absurd hk (Nat.not_lt_zero k)
  | succ n ih =>
    unfold init_pages
    generalize init_pages pt s n = s1 at ih ⊢
    obtain ⟨h1, hm1⟩ := ih
    have h2 : Inits s1 { s1 with
        frames := (set_frame s1.frames (page_base (s1.pts pt n)) true).2 } := by
      apply inits_mark
      intro hl
      have := hl.2 pt n
      unfold page_base
      omega
    refine ⟨h1.trans h2, ?_⟩
    intro k hk hlt
    by_cases hkn : k = n
    · subst hkn
      have hbase : page_base (s1.pts pt k) / 0x1000 = s1.pts pt k / 0x1000 := by
        unfold page_base
        omega
      have := taken_set_frame s1.frames (page_base (s1.pts pt k))
      rw [hbase] at this
      exact this hlt
    · exact stable_marked n _ _ _ h2 hm1 k (by omega) hlt

theorem visits_pt : Visits (Marked 512) init_pt := fun s pt => init_pages.spec pt 512 s

theorem init_pml4t.spec (s : Mmu) (pml4t : Nat) :
    Inits s (init_pml4t s pml4t) ∧
      Entries (Entries (Entries (Marked 512) 512) 512) 512 (init_pml4t s pml4t) pml4t := by
  have hpt := stable_marked 512
  have hpdt := stable_entries hpt 512
  have hpdpt := stable_entries hpdt 512
  exact visits_entries hpdpt (visits_entries hpdt (visits_entries hpt visits_pt true) true) false
    s pml4t

/-! ## The tables of boot.s -/

/-- The PML4T of boot.s. -/
def Boot.root (boot : Boot) : Nat := boot.PML4T + KERNEL_VMA

/-- The PDPT of the kernel window. -/
def Boot.W (boot : Boot) : Nat := boot.PML4T + 0x2000 + KERNEL_VMA

def Boot.pdt (boot : Boot) : Nat := boot.PML4T + 0x4000 + KERNEL_VMA

def Boot.pt (boot : Boot) : Nat := boot.PML4T + 0x6000 + KERNEL_VMA

theorem boot_apart (boot : Boot) : boot.W ≠ boot.root ∧ boot.pdt ≠ boot.root ∧
    boot.pdt ≠ boot.W ∧ boot.pt ≠ boot.root ∧ boot.pt ≠ boot.W ∧ boot.pt ≠ boot.pdt := by
  unfold Boot.root Boot.W Boot.pdt Boot.pt
  omega

theorem boot_pointer (boot : Boot) {k : Nat} (hk : k % 0x1000 = 0) :
    page_base (((boot.PML4T + k) ||| 0x3) + KERNEL_VMA) = boot.PML4T + k + KERNEL_VMA := by
  have := boot.aligned
  rw [or_flags _ _ (by omega) (by decide)]
  unfold page_base KERNEL_VMA
  omega

/-- The entries of boot.s that are present. -/
theorem boot_present (boot : Boot) (a i : Nat) : present ((boot.state.tables a).physical i) ↔
    (a = boot.root ∧ (i = 0 ∨ i = 511)) ∨ (a = boot.W ∧ i = 0) ∨ (a = boot.pdt ∧ i = 0) := by
  have hpresent : ∀ e, present (e ||| 0x3) := fun e => present_or e _ rfl
  unfold Boot.root Boot.W Boot.pdt Boot.state
  dsimp only
  by_cases h1 : a = boot.PML4T + KERNEL_VMA
  · subst h1
    by_cases hi : i = 0 ∨ i = 511 <;> simp [hi, hpresent]
  · by_cases h2 : a = boot.PML4T + 0x2000 + KERNEL_VMA
    · subst h2
      by_cases hi : i = 0 <;> simp [hi, hpresent]
    · by_cases h3 : a = boot.PML4T + 0x4000 + KERNEL_VMA
      · subst h3
        by_cases hi : i = 0 <;> simp [hi, hpresent]
      · simp [h1, h2, h3]

/-- What these entries hold, as pointers. -/
theorem boot_entry (boot : Boot) (a : Nat) :
    (a = boot.root → page_base ((boot.state.tables a).physical 511 + KERNEL_VMA) = boot.W) ∧
      (a = boot.W → page_base ((boot.state.tables a).physical 0 + KERNEL_VMA) = boot.pdt) ∧
      (a = boot.pdt → page_base ((boot.state.tables a).physical 0 + KERNEL_VMA) = boot.pt) := by
  have h1 := boot_pointer boot (k := 0x2000) rfl
  have h2 := boot_pointer boot (k := 0x4000) rfl
  have h3 := boot_pointer boot (k := 0x6000) rfl
  unfold Boot.root Boot.W Boot.pdt Boot.pt Boot.state
  dsimp only
  refine ⟨fun ha => ?_, fun ha => ?_, fun ha => ?_⟩
  · rw [if_pos ha]
    exact h1
  · rw [if_neg (by omega), if_pos ha]
    exact h2
  · rw [if_neg (by omega), if_neg (by omega), if_pos ha]
    exact h3

/-- What the loops of `mmu_init` leave: the tables of boot.s with their pointers. -/
structure Booted (boot : Boot) (s : Mmu) : Prop where
  links : ∀ a i b, Links s a i b ↔ (a = boot.root ∧ i = 511 ∧ b = boot.W) ∨
    (a = boot.W ∧ i = 0 ∧ b = boot.pdt) ∨ (a = boot.pdt ∧ i = 0 ∧ b = boot.pt)
  pts : s.pts = boot.state.pts
  placed : s.placed = boot.state.placed
  directories : s.directories = boot.state.directories
  active : s.active_directory = boot.orig_active_directory
  heap_end : s.heap_end = align_up boot.kernel_end 0x1000 + 0x1000
  taken : ∀ f, f < 511 → taken s.frames f

/-- The state before the loops. -/
def Boot.loaded (boot : Boot) (frames : Frames) : Mmu :=
  { boot.state with heap_end := align_up boot.kernel_end 0x1000 + 0x1000, frames }

/-- `mmu_init` up to its call of `ksbrk`. -/
def Boot.before_ksbrk (boot : Boot) (frames : Frames) : Mmu :=
  let s := init_pml4t (boot.loaded frames) boot.root
  ({ s with frames := (set_frame s.frames boot.PML4T true).2 } : Mmu).set_entry boot.root 0 0 0

/-- The PT of boot.s maps each page to the frame with its number. -/
theorem boot_page (boot : Boot) {a k : Nat} (ha : a = boot.pt) (hk : k < 511) :
    boot.state.pts a k = k * 0x1000 + 0x3 := if_pos ⟨ha, hk⟩

theorem boot_no_page (boot : Boot) {a k : Nat} (ha : ¬ (a = boot.pt ∧ k < 511)) :
    boot.state.pts a k = 0 := if_neg ha

/-- The loops keep the rest of the state that they start from. -/
theorem loaded_rest (boot : Boot) (frames : Frames) : (boot.loaded frames).pml4t = boot.root ∧
    (boot.loaded frames).tables = boot.state.tables ∧
    (boot.loaded frames).pts = boot.state.pts ∧
    (boot.loaded frames).placed = boot.state.placed ∧
    (boot.loaded frames).directories = boot.state.directories ∧
    (boot.loaded frames).active_directory = boot.orig_active_directory ∧
    (boot.loaded frames).heap_end = align_up boot.kernel_end 0x1000 + 0x1000 ∧
    (boot.loaded frames).frames = frames :=
  ⟨rfl, rfl, rfl, rfl, rfl, rfl, rfl, rfl⟩

/-- A change of the frames and of one entry keeps the rest. -/
theorem rest_of_entry (s : Mmu) (frames : Frames) (a i e n : Nat) :
    ∀ s', ({ s with frames } : Mmu).set_entry a i e n = s' → s'.pts = s.pts ∧
      s'.placed = s.placed ∧ s'.directories = s.directories ∧
      s'.active_directory = s.active_directory ∧ s'.heap_end = s.heap_end ∧ s'.frames = frames := by
  rintro _ rfl
  exact ⟨rfl, rfl, rfl, rfl, rfl, rfl⟩

theorem links_frames (s : Mmu) (frames : Frames) : Links { s with frames } a i b ↔ Links s a i b :=
  Iff.rfl

theorem booted_before_ksbrk (boot : Boot) (frames : Frames) :
    Booted boot (boot.before_ksbrk frames) := by
  unfold Boot.before_ksbrk
  dsimp only
  obtain ⟨hroot, htables, hpts0, hplaced, hdirs, hactive, hend, -⟩ := loaded_rest boot frames
  generalize boot.loaded frames = s0 at *
  obtain ⟨hI, hE⟩ := init_pml4t.spec s0 boot.root
  generalize init_pml4t s0 boot.root = s1 at hI hE
  have hphys : ∀ a i, (s1.tables a).physical i = (boot.state.tables a).physical i := by
    intro a i
    rw [hI.physical, htables]
  have hpresent : ∀ a i, present ((s1.tables a).physical i) ↔
      (a = boot.root ∧ (i = 0 ∨ i = 511)) ∨ (a = boot.W ∧ i = 0) ∨ (a = boot.pdt ∧ i = 0) := by
    intro a i
    rw [hphys]
    exact boot_present boot a i
  -- down the three levels
  obtain ⟨h1, hE1⟩ := hE 511 (by decide) ((hpresent _ _).mpr (Or.inl ⟨rfl, Or.inr rfl⟩))
  have hW : (s1.tables boot.root).next 511 = boot.W := by
    unfold Pointed at h1
    rw [h1, hphys]
    exact (boot_entry boot _).1 rfl
  rw [hW] at hE1
  obtain ⟨h2, hE2⟩ := hE1 0 (by decide) ((hpresent _ _).mpr (Or.inr (Or.inl ⟨rfl, rfl⟩)))
  have hpdt : (s1.tables boot.W).next 0 = boot.pdt := by
    unfold Pointed at h2
    rw [h2, hphys]
    exact (boot_entry boot _).2.1 rfl
  rw [hpdt] at hE2
  obtain ⟨h3, hE3⟩ := hE2 0 (by decide) ((hpresent _ _).mpr (Or.inr (Or.inr ⟨rfl, rfl⟩)))
  have hpt : (s1.tables boot.pdt).next 0 = boot.pt := by
    unfold Pointed at h3
    rw [h3, hphys]
    exact (boot_entry boot _).2.2 rfl
  rw [hpt] at hE3
  have hpts : s1.pts = boot.state.pts := hI.pts.trans hpts0
  have hmarked : ∀ f, f < 511 → taken s1.frames f := by
    intro f hf
    have hpage : s1.pts boot.pt f = f * 0x1000 + 0x3 := by
      rw [hpts, boot_page boot rfl hf]
    have hframe := hE3 f (by omega)
    rw [hpage, show (f * 0x1000 + 0x3) / 0x1000 = f by omega] at hframe
    exact hframe (by unfold NUM_OF_FRAMES; omega)
  generalize hframes : (set_frame s1.frames boot.PML4T true).2 = frames'
  obtain ⟨r1, r2, r3, r4, r5, r6⟩ := rest_of_entry s1 frames' boot.root 0 0 0 _ rfl
  exact
    { links := by
        intro a i b
        obtain ⟨d1, d2, d3, -⟩ := boot_apart boot
        by_cases hslot : a = boot.root ∧ i = 0
        · obtain ⟨rfl, rfl⟩ := hslot
          refine iff_of_false ?_ ?_
          · rintro ⟨hp, -⟩
            rw [set_entry_self.1] at hp
            exact not_present_zero hp
          · rintro (⟨-, h, -⟩ | ⟨h, -⟩ | ⟨h, -⟩)
            · cases h
            · exact d1 h.symm
            · exact d2 h.symm
        · rw [links_other hslot, links_frames]
          unfold Links
          rw [hpresent]
          constructor
          · rintro ⟨⟨rfl, rfl | rfl⟩ | ⟨rfl, rfl⟩ | ⟨rfl, rfl⟩, rfl⟩
            · exact absurd ⟨rfl, rfl⟩ hslot
            · exact Or.inl ⟨rfl, rfl, hW⟩
            · exact Or.inr (Or.inl ⟨rfl, rfl, hpdt⟩)
            · exact Or.inr (Or.inr ⟨rfl, rfl, hpt⟩)
          · rintro (⟨rfl, rfl, rfl⟩ | ⟨rfl, rfl, rfl⟩ | ⟨rfl, rfl, rfl⟩)
            · exact ⟨Or.inl ⟨rfl, Or.inr rfl⟩, hW⟩
            · exact ⟨Or.inr (Or.inl ⟨rfl, rfl⟩), hpdt⟩
            · exact ⟨Or.inr (Or.inr ⟨rfl, rfl⟩), hpt⟩
      pts := r1.trans hpts
      placed := r2.trans (by rw [hI.rest]; exact hplaced)
      directories := r3.trans (by rw [hI.rest]; exact hdirs)
      active := r4.trans (by rw [hI.rest]; exact hactive)
      heap_end := r5.trans (by rw [hI.rest]; exact hend)
      taken := by
        intro f hf
        rw [r6, ← hframes]
        exact taken_mono s1.frames boot.PML4T f (hmarked f hf) }

theorem boot_low (boot : Boot) {s : Mmu} (ht : s.tables = boot.state.tables)
    (hp : s.pts = boot.state.pts) : Low s := by
  have haligned := boot.aligned
  have hmapped := boot.mapped
  have hflags : ∀ k, k % 0x1000 = 0 → (boot.PML4T + k) ||| 0x3 = boot.PML4T + k + 0x3 :=
    fun k hk => or_flags _ _ (by omega) (by decide)
  unfold Low
  rw [ht, hp]
  constructor
  · intro a i
    unfold Boot.state
    dsimp only
    rw [hflags _ (by decide), hflags _ (by decide), hflags _ (by decide)]
    split
    · dsimp only
      split <;> omega
    · split
      · dsimp only
        split <;> omega
      · split
        · dsimp only
          split <;> omega
        · exact Nat.zero_lt_succ _
  · intro a i
    by_cases hslot : a = boot.pt ∧ i < 511
    · rw [boot_page boot hslot.1 hslot.2]
      omega
    · rw [boot_no_page boot hslot]
      omega

theorem boot_pml4t_lt (boot : Boot) : boot.PML4T < 0x200000 := by
  have := boot.mapped
  omega

/-- A mark below 512 keeps a bitmap whose first 512 frames are taken. -/
theorem mark_low {frames frames' : Frames} {p : Nat} (hp : p < 0x200000)
    (hfull : ∀ i, i < 8 → frames i = BitVec.allOnes 64)
    (hones : ∀ i, frames i = BitVec.allOnes 64 → frames' i = BitVec.allOnes 64)
    (hwords : ∀ i, 8 ≤ i → frames' i = frames i) : (set_frame frames' p true).2 = frames := by
  funext i
  obtain ⟨h1, h2⟩ := set_frame_words frames' p i
  by_cases hi : i < 8
  · rw [h1 (hones i (hfull i hi)), hfull i hi]
  · rw [h2 (by omega), hwords i (by omega)]

/-- The loops mark frames below 512 only, so the bitmap stays as it is when these are taken. -/
theorem before_ksbrk_frames (boot : Boot) {frames : Frames}
    (hfull : ∀ i, i < 8 → frames i = BitVec.allOnes 64) :
    (boot.before_ksbrk frames).frames = frames := by
  unfold Boot.before_ksbrk
  dsimp only
  obtain ⟨-, htables, hpts, -, -, -, -, hframes⟩ := loaded_rest boot frames
  generalize boot.loaded frames = s0 at *
  obtain ⟨hI, -⟩ := init_pml4t.spec s0 boot.root
  generalize init_pml4t s0 boot.root = s1 at hI
  have hwords := hI.words (boot_low boot htables hpts)
  have hones := hI.full
  rw [hframes] at hwords hones
  have hmark := mark_low (boot_pml4t_lt boot) hfull hones hwords
  generalize (set_frame s1.frames boot.PML4T true).2 = frames' at hmark
  obtain ⟨-, -, -, -, -, hlast⟩ := rest_of_entry s1 frames' boot.root 0 0 0 _ rfl
  rw [hlast, hmark]

/-! ## The invariant at the start -/

section

variable {boot : Boot} {s : Mmu}

theorem Booted.covered (h : Booted boot s) (q : Nat) : Covered s boot.W q ↔ q = 0 := by
  obtain ⟨d1, d2, d3, -⟩ := boot_apart boot
  constructor
  · intro hc
    obtain ⟨h1, h2⟩ := hc.links
    rcases (h.links _ _ _).mp h1 with ⟨ha, -⟩ | ⟨-, hi, hb⟩ | ⟨ha, -⟩
    · exact absurd ha d1
    · rw [hb] at h2
      rcases (h.links _ _ _).mp h2 with ⟨ha, -⟩ | ⟨ha, -⟩ | ⟨-, hj, -⟩
      · exact absurd ha d2
      · exact absurd ha d3
      · omega
    · exact absurd ha.symm d3
  · rintro rfl
    obtain ⟨h1, h1'⟩ := (h.links boot.W 0 boot.pdt).mpr (Or.inr (Or.inl ⟨rfl, rfl, rfl⟩))
    obtain ⟨h2, -⟩ := (h.links boot.pdt 0 boot.pt).mpr (Or.inr (Or.inr ⟨rfl, rfl, rfl⟩))
    exact ⟨h1, by rw [h1']; exact h2⟩

theorem Booted.page (h : Booted boot s) {x : Nat} (hx : x < 511) :
    page s boot.W x = x * 0x1000 + 0x3 := by
  have hc : Covered s boot.W (x / 512) := by
    rw [h.covered]
    omega
  have hzero : x / 512 = 0 := by omega
  obtain ⟨-, h1⟩ := (h.links boot.W 0 boot.pdt).mpr (Or.inr (Or.inl ⟨rfl, rfl, rfl⟩))
  obtain ⟨-, h2⟩ := (h.links boot.pdt 0 boot.pt).mpr (Or.inr (Or.inr ⟨rfl, rfl, rfl⟩))
  have hpt : pt_of s boot.W 0 = boot.pt := by
    unfold pt_of
    rw [Nat.zero_div, Nat.zero_mod, h1, h2]
  rw [page_of_covered hc, hzero, hpt, h.pts, Nat.mod_eq_of_lt (by omega), boot_page boot rfl hx]

/-- After the loops, exactly the first 511 pages of the window are mapped. -/
theorem Booted.mapped (h : Booted boot s) (x : Nat) : Mapped s boot.W x ↔ x < 511 := by
  constructor
  · intro hm
    have hc := hm.covered
    rw [h.covered] at hc
    by_contra hx
    obtain rfl : x = 511 := by omega
    have hcov := hm.covered
    unfold Mapped at hm
    rw [page_of_covered hcov, h.pts, boot_no_page boot (by omega)] at hm
    exact not_present_zero hm
  · intro hx
    unfold Mapped
    rw [h.page hx, present_iff]
    omega

theorem Booted.is_table (h : Booted boot s) (a : Nat) : IsTable s a ↔
    a = boot.root ∨ a = boot.W ∨ a = boot.pdt ∨ a = boot.pt := by
  unfold IsTable Boot.root Boot.W Boot.pdt Boot.pt
  rw [h.placed]
  unfold Boot.state
  dsimp only
  constructor
  · rintro ⟨p, hp⟩
    split at hp
    · rename_i hcases
      simp only [Option.some.injEq] at hp
      omega
    · cases hp
  · rintro (rfl | rfl | rfl | rfl)
    · exact ⟨boot.PML4T, if_pos (Or.inl rfl)⟩
    · exact ⟨boot.PML4T + 0x2000, if_pos (Or.inr (Or.inl rfl))⟩
    · exact ⟨boot.PML4T + 0x4000, if_pos (Or.inr (Or.inr (Or.inl rfl)))⟩
    · exact ⟨boot.PML4T + 0x6000, if_pos (Or.inr (Or.inr (Or.inr rfl)))⟩

/-- The heap starts behind the kernel, in the pages that have their page table. -/
theorem Booted.heap (h : Booted boot s) :
    ∃ t, s.heap_end = window t ∧ 0 < t ∧ t ≤ 512 ∧ boot.orig_active_directory < s.heap_end := by
  have hk := boot.kernel
  have hd := boot.directory
  have halign : boot.kernel_end ≤ align_up boot.kernel_end 0x1000 ∧
      align_up boot.kernel_end 0x1000 % 0x1000 = 0 ∧
      align_up boot.kernel_end 0x1000 < boot.kernel_end + 0x1000 := by
    unfold align_up
    split <;> omega
  have hv : KERNEL_VMA % 0x1000 = 0 := rfl
  rw [h.heap_end]
  refine ⟨(align_up boot.kernel_end 0x1000 + 0x1000 - KERNEL_VMA) / 0x1000, ?_, ?_, ?_, ?_⟩
  · unfold window
    omega
  · omega
  · omega
  · omega

theorem Booted.sound (h : Booted boot s) : Sound boot.W [boot.orig_active_directory] s := by
  obtain ⟨d1, d2, d3, d4, d5, d6⟩ := boot_apart boot
  have hroot : ∀ d, root s d = boot.root := by
    intro d
    unfold root
    rw [h.directories]
    rfl
  exact
    { active := by simp [h.active]
      roots := by
        intro d hd
        obtain ⟨t, -, -, -, hlt⟩ := h.heap
        rw [List.mem_singleton] at hd
        subst hd
        refine ⟨hlt, ?_, ?_⟩
        · rw [hroot, h.links]
          exact Or.inl ⟨rfl, rfl, rfl⟩
        · rw [hroot, h.placed, h.directories]
          exact if_pos (Or.inl rfl)
      home := by
        intro p a hp
        have haligned := boot.aligned
        have hmapped := boot.mapped
        have hcases : (p = boot.PML4T ∨ p = boot.PML4T + 0x2000 ∨ p = boot.PML4T + 0x4000 ∨
            p = boot.PML4T + 0x6000) ∧ a = p + KERNEL_VMA := by
          rw [h.placed] at hp
          unfold Boot.state at hp
          dsimp only at hp
          split at hp
          · rename_i hcases
            exact ⟨hcases, (Option.some.inj hp).symm⟩
          · cases hp
        obtain ⟨hcases, rfl⟩ := hcases
        have hlt : p / 0x1000 < 511 := by omega
        refine ⟨by omega, by unfold NUM_OF_FRAMES; omega, h.taken _ hlt, p / 0x1000, ?_, ?_,
          (h.mapped _).mpr hlt, ?_⟩
        · unfold WINDOW
          omega
        · unfold window
          omega
        · rw [h.page hlt]
          unfold page_base
          omega
      links := by
        intro a i b hl
        rw [h.is_table, h.is_table]
        rcases (h.links a i b).mp hl with ⟨ha, -, hb⟩ | ⟨ha, -, hb⟩ | ⟨ha, -, hb⟩ <;>
          simp [ha, hb]
      pages := by
        intro a i hp
        rw [h.is_table]
        by_contra hno
        rw [h.pts, boot_no_page boot (fun ha => hno (by simp [ha.1]))] at hp
        exact not_present_zero hp
      tree := by
        intro a i b j c hl hl'
        left
        rcases (h.links a i c).mp hl with ⟨ha, hi, hc⟩ | ⟨ha, hi, hc⟩ | ⟨ha, hi, hc⟩ <;>
          rcases (h.links b j c).mp hl' with ⟨hb, hj, hc'⟩ | ⟨hb, hj, hc'⟩ | ⟨hb, hj, hc'⟩ <;>
          omega
      unrooted := by
        intro a i d _ hl
        rw [hroot] at hl
        rcases (h.links _ _ _).mp hl with ⟨-, -, hb⟩ | ⟨-, -, hb⟩ | ⟨-, -, hb⟩
        · exact d1 hb.symm
        · exact d2 hb.symm
        · exact d4 hb.symm
      heap := by
        obtain ⟨t, ht, -, hle, -⟩ := h.heap
        refine ⟨t, ht, fun q hq => ?_⟩
        rw [h.covered]
        omega
      zero := h.taken 0 (by decide) }

theorem Booted.filled (h : Booted boot s) : Filled s boot.W 1 where
  covered q := by
    rw [h.covered]
    omega
  pdts i := by
    obtain ⟨d1, -, d3, -⟩ := boot_apart boot
    constructor
    · intro hp
      rcases (h.links _ _ _).mp (links_next hp) with ⟨ha, -⟩ | ⟨-, hi, -⟩ | ⟨ha, -⟩
      · exact absurd ha d1
      · omega
      · exact absurd ha.symm d3
    · intro hi
      obtain rfl : i = 0 := by omega
      exact ((h.links boot.W 0 boot.pdt).mpr (Or.inr (Or.inl ⟨rfl, rfl, rfl⟩))).1

end

theorem pml4t_frames (s : Mmu) (frames : Frames) : ({ s with frames } : Mmu).pml4t = s.pml4t := rfl

/-- The end of `mmu_init`, behind the loops. -/
theorem mmu_init_end (fuel p root : Nat) (s : Mmu) (hs : s.pml4t = root) :
    (do
      let s := { s with frames := (set_frame s.frames p true).2 }
      let s := s.set_entry s.pml4t 0 0 0
      let (_, s) ← ksbrk fuel s 0
      .ok s : Result Mmu) = (do
      let (_, _, s) ← ksbrk_physical fuel
        (({ s with frames := (set_frame s.frames p true).2 } : Mmu).set_entry root 0 0 0) 0
      .ok s) := by
  dsimp only
  rw [pml4t_frames, hs]
  unfold ksbrk
  rw [bind_assoc]
  congr 1

/-- `mmu_init` is the release of the frames, the loops, and a `ksbrk` for nothing. -/
theorem mmu_init_eq (fuel : Nat) (boot : Boot) : mmu_init fuel boot = (do
    let frames ← release_entries (fun _ => BitVec.allOnes 64) boot.entries
    let (_, _, s) ← ksbrk_physical fuel (boot.before_ksbrk frames) 0
    .ok s) := by
  unfold mmu_init Boot.before_ksbrk
  dsimp only
  congr 1
  funext frames
  have hloaded : ({ boot.state with
      heap_end := align_up boot.kernel_end 0x1000 + 0x1000, frames } : Mmu) = boot.loaded frames :=
    rfl
  have hroot : ({ boot.state with
      heap_end := align_up boot.kernel_end 0x1000 + 0x1000 } : Mmu).pml4t = boot.root := rfl
  rw [hloaded, hroot]
  have hpml4t := (init_pml4t.spec (boot.loaded frames) boot.root).1.pml4t
  rw [(loaded_rest boot frames).1] at hpml4t
  generalize init_pml4t (boot.loaded frames) boot.root = s1 at hpml4t ⊢
  exact mmu_init_end fuel boot.PML4T boot.root s1 hpml4t

/-- `mmu_init` leaves tables that are sound, and the window has its first page tables. -/
theorem mmu_init.spec (fuel : Nat) (boot : Boot) : Spec (mmu_init fuel boot) anyhow
    (fun s => Sound boot.W [boot.orig_active_directory] s ∧ ∃ q, Filled s boot.W q) := by
  rw [mmu_init_eq]
  have hframes : Spec (release_entries (fun _ => BitVec.allOnes 64) boot.entries) anyhow
      (fun _ => True) := spec_anyhow _ (fun _ => trivial)
  refine spec_bind hframes ?_
  intro frames _
  have hbooted := booted_before_ksbrk boot frames
  have hsound := hbooted.sound
  obtain ⟨t, ht, -⟩ := hbooted.heap
  refine spec_bind (ksbrk_nothing hsound hbooted.filled ht (Or.inl (fun _ => trivial))) ?_
  rintro ⟨_, _, s⟩ ⟨hg, hF⟩
  exact ⟨hg.searched.sound, _, hF⟩

end salsola.mmu
