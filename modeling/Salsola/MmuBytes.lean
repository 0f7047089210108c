-- The bytes in the frames have no say in what happens to the page tables: with other bytes each
-- call of mmu.c goes the same way, to the same tables.
import Salsola.MmuKept

open memory outcome runs

namespace salsola.mmu

variable {α β : Type} {ap : AllocatePt} {s t : Mmu} {ram : Mem} {seed : Seed}

/-! ## Other bytes -/

def Mmu.bytes (s : Mmu) (ram : Mem) (seed : Seed) : Mmu := { s with ram, seed }

@[simp] theorem bytes_tables : (s.bytes ram seed).tables = s.tables := rfl
@[simp] theorem bytes_pts : (s.bytes ram seed).pts = s.pts := rfl
@[simp] theorem bytes_directories : (s.bytes ram seed).directories = s.directories := rfl
@[simp] theorem bytes_heap_end : (s.bytes ram seed).heap_end = s.heap_end := rfl
@[simp] theorem bytes_frames : (s.bytes ram seed).frames = s.frames := rfl
@[simp] theorem bytes_pml4t : (s.bytes ram seed).pml4t = s.pml4t := rfl
@[simp] theorem bytes_pt (a : Nat) : (s.bytes ram seed).pt a = s.pt a := rfl

@[simp] theorem bytes_virtual_to_physical (a : Nat) :
    mmu_virtual_to_physical (s.bytes ram seed) a = mmu_virtual_to_physical s a := rfl

/-- The page tables are the same, and the bytes in the frames are any. -/
def Alike (s t : Mmu) : Prop := ∃ ram seed, t = s.bytes ram seed

/-- The same value beside related ones. -/
def Beside (R : β → β → Prop) (a b : α × β) : Prop := a.1 = b.1 ∧ R a.2 b.2

/-- An `allocate_pt` that does not look at the bytes. -/
def Blind (ap : AllocatePt) : Prop :=
  ∀ s t i j k, Alike s t → Mirrors (Beside Alike) (ap s i j k) (ap t i j k)

/-! ## The circle of allocate_pt -/

theorem check_mirrors (hap : Blind ap) (h : Alike s t) (address : Nat) (allocate use_frame : Bool)
    (frame : Nat) : Mirrors (Beside (Beside Alike))
      (check_virtual_region_is_free ap s address allocate use_frame frame)
      (check_virtual_region_is_free ap t address allocate use_frame frame) := by
  unfold check_virtual_region_is_free
  refine (hap s t _ _ _ h).bind ?_
  rintro ⟨b, s1⟩ ⟨_, _⟩ ⟨rfl, ram, seed, rfl⟩
  simp only [bytes_pts, bytes_pt, bytes_frames]
  refine mirrors_ite (fun _ => mirrors_ite (fun _ => ?_) fun _ => ?_) fun _ => ?_
  · refine mirrors_ite (fun _ => ?_) fun _ => ?_
    all_goals
      refine (mirrors_refl _).bind ?_
      rintro ⟨f, frames⟩ _ rfl
      exact mirrors_ok ⟨rfl, rfl, ram, seed, rfl⟩
  all_goals exact mirrors_ok ⟨rfl, rfl, ram, seed, rfl⟩

theorem region_mirrors (hap : Blind ap) (h : Alike s t) (address n : Nat) :
    Mirrors (Beside Alike) (region_is_free ap s address n) (region_is_free ap t address n) := by
  induction n generalizing s t address with
  | zero => exact mirrors_ok ⟨rfl, h⟩
  | succ n ih =>
    unfold region_is_free
    refine (check_mirrors hap h address false false 0).bind ?_
    rintro ⟨free, p, s1⟩ ⟨_, _, t1⟩ ⟨rfl, -, h1⟩
    exact mirrors_ite (fun _ => ih h1 _) fun _ => mirrors_ok ⟨rfl, h1⟩

theorem find_mirrors (hap : Blind ap) (h : Alike s t) (length fuel offset : Nat) :
    Mirrors (Beside Alike) (find_from ap length fuel s offset)
      (find_from ap length fuel t offset) := by
  induction fuel generalizing s t offset with
  | zero => exact mirrors_error
  | succ fuel ih =>
    obtain ⟨ram, seed, rfl⟩ := h
    unfold find_from
    rw [bytes_heap_end]
    refine (region_mirrors hap ⟨ram, seed, rfl⟩ _ _).bind ?_
    rintro ⟨free, s1⟩ ⟨_, _⟩ ⟨rfl, ram, seed, rfl⟩
    dsimp only
    rw [bytes_heap_end]
    exact mirrors_ite (fun _ => mirrors_ok ⟨rfl, ram, seed, rfl⟩) fun _ => ih ⟨ram, seed, rfl⟩ _

theorem map_pages_mirrors (hap : Blind ap) (h : Alike s t) (ptr phys_ptr n : Nat) :
    Mirrors Alike (map_pages ap s ptr phys_ptr n) (map_pages ap t ptr phys_ptr n) := by
  induction n generalizing s t ptr phys_ptr with
  | zero => exact mirrors_ok h
  | succ n ih =>
    unfold map_pages
    refine (check_mirrors hap h ptr true true phys_ptr).bind ?_
    rintro ⟨free, p, s1⟩ ⟨_, _, t1⟩ ⟨rfl, -, h1⟩
    refine (mirrors_refl _).bind ?_
    rintro _ _ -
    exact ih h1 _ _

theorem safe_allocation_mirrors (hap : Blind ap) (h : Alike s t) (fuel length : Nat) :
    Mirrors (Beside (Beside Alike)) (safe_allocation ap fuel s length)
      (safe_allocation ap fuel t length) := by
  obtain ⟨ram, seed, rfl⟩ := h
  unfold safe_allocation
  rw [bytes_frames]
  refine (mirrors_refl _).bind ?_
  rintro ⟨p, frames⟩ _ rfl
  have h1 : Alike { s with frames } { s.bytes ram seed with frames } := ⟨ram, seed, rfl⟩
  refine (find_mirrors hap h1 length fuel 0).bind ?_
  rintro ⟨a, s2⟩ ⟨_, t2⟩ ⟨rfl, h2⟩
  refine (map_pages_mirrors hap h2 a p _).bind ?_
  rintro s3 _ ⟨ram, seed, rfl⟩
  exact mirrors_ok ⟨rfl, rfl, ram, seed, rfl⟩

theorem allocate_table_mirrors (hap : Blind ap) (h : Alike s t) (fuel a i size : Nat) :
    Mirrors Alike (allocate_table ap fuel s a i size) (allocate_table ap fuel t a i size) := by
  obtain ⟨ram, seed, rfl⟩ := h
  unfold allocate_table
  rw [bytes_tables]
  refine mirrors_ite (fun _ => mirrors_error) fun _ => mirrors_ite (fun _ => ?_) fun _ => ?_
  · refine (safe_allocation_mirrors hap ⟨ram, seed, rfl⟩ fuel size).bind ?_
    rintro ⟨next, physical, s1⟩ ⟨_, _, _⟩ ⟨rfl, rfl, ram, seed, rfl⟩
    exact mirrors_ok ⟨ram, seed, rfl⟩
  · exact mirrors_ok ⟨ram, seed, rfl⟩

theorem blind_allocate_pt (fuel : Nat) : Blind (allocate_pt fuel) := by
  induction fuel with
  | zero => exact fun _ _ _ _ _ _ => mirrors_error
  | succ fuel ih =>
    rintro s _ i j k ⟨ram, seed, rfl⟩
    unfold allocate_pt
    rw [bytes_pml4t]
    refine (allocate_table_mirrors ih ⟨ram, seed, rfl⟩ fuel _ i _).bind ?_
    rintro s1 _ ⟨ram, seed, rfl⟩
    rw [bytes_tables, bytes_pml4t]
    refine (allocate_table_mirrors ih ⟨ram, seed, rfl⟩ fuel _ j _).bind ?_
    rintro s2 _ ⟨ram, seed, rfl⟩
    rw [bytes_tables]
    refine mirrors_ite (fun _ => mirrors_error) fun _ => mirrors_ite (fun _ => ?_) fun _ => ?_
    · exact mirrors_ok ⟨rfl, ram, seed, rfl⟩
    · refine (allocate_table_mirrors ih ⟨ram, seed, rfl⟩ fuel _ k _).bind ?_
      exact fun s3 t3 h3 => mirrors_ok ⟨rfl, h3⟩

/-! ## The calls of the kernel -/

theorem allocate_next_pt_mirrors (h : Alike s t) (fuel address : Nat) :
    Mirrors Alike (allocate_next_pt fuel s address) (allocate_next_pt fuel t address) := by
  unfold allocate_next_pt
  refine (blind_allocate_pt fuel _ _ _ _ _ h).bind ?_
  rintro ⟨b, s1⟩ ⟨_, t1⟩ ⟨rfl, h1⟩
  refine (blind_allocate_pt fuel _ _ _ _ _ h1).bind ?_
  rintro ⟨b, s2⟩ ⟨_, t2⟩ ⟨rfl, h2⟩
  exact mirrors_ok h2

theorem map_frames_mirrors (h : Alike s t) (fuel src length : Nat) :
    Mirrors (Beside Alike) (mmu_map_frames fuel s src length)
      (mmu_map_frames fuel t src length) := by
  unfold mmu_map_frames
  refine (find_mirrors (blind_allocate_pt fuel) h length fuel 0).bind ?_
  rintro ⟨virtual, s1⟩ ⟨_, t1⟩ ⟨rfl, h1⟩
  refine (map_pages_mirrors (blind_allocate_pt fuel) h1 virtual src _).bind ?_
  exact fun s2 t2 h2 => mirrors_ok ⟨rfl, h2⟩

theorem unmap_pages_mirrors (h : Alike s t) (p n : Nat) :
    Mirrors Alike (unmap_pages s p n) (unmap_pages t p n) := by
  induction n generalizing s t p with
  | zero => exact mirrors_ok h
  | succ n ih =>
    obtain ⟨ram, seed, rfl⟩ := h
    unfold unmap_pages
    rw [bytes_pt]
    refine (mirrors_refl _).bind ?_
    exact fun _ _ _ => ih ⟨ram, seed, rfl⟩ _

theorem ksbrk_pages_mirrors (hap : Blind ap) (h : Alike s t) (r n : Nat) :
    Mirrors (Beside Alike) (ksbrk_pages ap s r n) (ksbrk_pages ap t r n) := by
  induction n generalizing s t r with
  | zero => exact mirrors_ok ⟨rfl, h⟩
  | succ n ih =>
    obtain ⟨ram, seed, rfl⟩ := h
    unfold ksbrk_pages
    rw [bytes_heap_end]
    refine (check_mirrors hap ⟨ram, seed, rfl⟩ _ true false 0).bind ?_
    rintro ⟨free, p, s1⟩ ⟨_, _, _⟩ ⟨rfl, rfl, ram, seed, rfl⟩
    refine (mirrors_refl _).bind ?_
    exact fun _ _ _ => ih ⟨ram, seed, rfl⟩ _

/-- A fill of pages writes bytes only. -/
theorem alike_fill (h : Alike s t) (buffer n : Nat) :
    Alike (fill_pages s buffer n) (fill_pages t buffer n) := by
  obtain ⟨ram, seed, rfl⟩ := h
  obtain ⟨ram1, seed1, h1⟩ := fill_pages_eq s buffer n
  obtain ⟨ram2, seed2, h2⟩ := fill_pages_eq (s.bytes ram seed) buffer n
  rw [h1, h2]
  exact ⟨ram2, seed2, rfl⟩

theorem ksbrk_physical_mirrors (h : Alike s t) (fuel length : Nat) :
    Mirrors (Beside (Beside Alike)) (ksbrk_physical fuel s length)
      (ksbrk_physical fuel t length) := by
  unfold ksbrk_physical
  refine (find_mirrors (blind_allocate_pt fuel) h length fuel 0).bind ?_
  rintro ⟨a, s1⟩ ⟨_, _⟩ ⟨rfl, ram, seed, rfl⟩
  have h1 : Alike { s1 with heap_end := a } { s1.bytes ram seed with heap_end := a } :=
    ⟨ram, seed, rfl⟩
  refine (allocate_next_pt_mirrors h1 fuel a).bind ?_
  intro s2 t2 h2
  refine mirrors_ite (fun _ => ?_) fun _ => ?_
  · exact mirrors_ok ⟨rfl, rfl, h2⟩
  · refine (find_mirrors (blind_allocate_pt fuel) h2 length fuel 0).bind ?_
    rintro ⟨a, s3⟩ ⟨_, _⟩ ⟨rfl, ram, seed, rfl⟩
    have h3 : Alike { s3 with heap_end := a } { s3.bytes ram seed with heap_end := a } :=
      ⟨ram, seed, rfl⟩
    refine (ksbrk_pages_mirrors (blind_allocate_pt fuel) h3 0 _).bind ?_
    rintro ⟨r, s4⟩ ⟨_, t4⟩ ⟨rfl, h4⟩
    exact mirrors_ok ⟨rfl, rfl, alike_fill h4 _ _⟩

theorem ksbrk_mirrors (h : Alike s t) (fuel length : Nat) :
    Mirrors (Beside Alike) (ksbrk fuel s length) (ksbrk fuel t length) := by
  refine (ksbrk_physical_mirrors h fuel length).bind ?_
  rintro ⟨rc, p, s1⟩ ⟨_, _, t1⟩ ⟨rfl, -, h1⟩
  exact mirrors_ok ⟨rfl, h1⟩

/-! ## Copies of a directory -/

theorem copy_frame_mirrors (h : Alike s t) (fuel physical_dst physical_src : Nat) :
    Mirrors Alike (copy_frame fuel s physical_dst physical_src)
      (copy_frame fuel t physical_dst physical_src) := by
  unfold copy_frame
  refine (map_frames_mirrors h fuel physical_dst _).bind ?_
  rintro ⟨dst, s1⟩ ⟨_, t1⟩ ⟨rfl, h1⟩
  refine (map_frames_mirrors h1 fuel physical_src _).bind ?_
  rintro ⟨src, s2⟩ ⟨_, _⟩ ⟨rfl, ram, seed, rfl⟩
  simp only [bytes_virtual_to_physical]
  refine (mirrors_refl _).bind fun _ _ _ => (mirrors_refl _).bind fun _ _ _ => ?_
  have h2 : ∀ m m', Alike { s2 with ram := m } { s2.bytes ram seed with ram := m' } :=
    fun m m' => ⟨m', seed, rfl⟩
  refine (unmap_pages_mirrors (h2 _ _) dst _).bind ?_
  exact fun s3 t3 h3 => unmap_pages_mirrors h3 src _

theorem clone_pages_mirrors (h : Alike s t) (fuel orig_pt new_pt n : Nat) :
    Mirrors Alike (clone_pages fuel orig_pt new_pt s n) (clone_pages fuel orig_pt new_pt t n) := by
  induction n with
  | zero => exact mirrors_ok h
  | succ n ih =>
    unfold clone_pages
    refine ih.bind ?_
    rintro s1 _ ⟨ram, seed, rfl⟩
    simp only [bytes_pts, bytes_frames]
    refine mirrors_ite (fun _ => ?_) fun _ => ?_
    · exact mirrors_ok ⟨ram, seed, rfl⟩
    · refine (mirrors_refl _).bind ?_
      rintro ⟨f, frames⟩ _ rfl
      exact copy_frame_mirrors ⟨ram, seed, rfl⟩ fuel _ _

/-- A function that copies a table, and does not look at the bytes. -/
def BlindClone (clone : Clone) : Prop :=
  ∀ s t orig, Alike s t → Mirrors (Beside (Beside Alike)) (clone s orig) (clone t orig)

theorem clone_entries_mirrors {clone : Clone} (hclone : BlindClone clone) (h : Alike s t)
    (flags : Nat → Nat) (orig new n : Nat) :
    Mirrors Alike (clone_entries clone flags orig new s n)
      (clone_entries clone flags orig new t n) := by
  induction n with
  | zero => exact mirrors_ok h
  | succ n ih =>
    unfold clone_entries
    refine ih.bind ?_
    rintro s1 _ ⟨ram, seed, rfl⟩
    simp only [bytes_tables]
    refine mirrors_ite (fun _ => ?_) fun _ => ?_
    · exact mirrors_ok ⟨ram, seed, rfl⟩
    · refine (hclone _ _ _ ⟨ram, seed, rfl⟩).bind ?_
      rintro ⟨next, physical, s2⟩ ⟨_, _, _⟩ ⟨rfl, rfl, ram, seed, rfl⟩
      exact mirrors_ok ⟨ram, seed, rfl⟩

theorem blind_clone_pt (fuel : Nat) : BlindClone (clone_pt fuel) := by
  intro s t orig h
  unfold clone_pt
  refine (safe_allocation_mirrors (blind_allocate_pt fuel) h fuel _).bind ?_
  rintro ⟨new, physical, s1⟩ ⟨_, _, t1⟩ ⟨rfl, rfl, h1⟩
  refine (clone_pages_mirrors h1 fuel orig new 512).bind ?_
  exact fun s2 t2 h2 => mirrors_ok ⟨rfl, rfl, h2⟩

theorem blind_clone_pdt (fuel : Nat) : BlindClone (clone_pdt fuel) := by
  intro s t orig h
  unfold clone_pdt
  refine (safe_allocation_mirrors (blind_allocate_pt fuel) h fuel _).bind ?_
  rintro ⟨new, physical, s1⟩ ⟨_, _, t1⟩ ⟨rfl, rfl, h1⟩
  refine (clone_entries_mirrors (blind_clone_pt fuel) h1 low_flags orig new 512).bind ?_
  exact fun s2 t2 h2 => mirrors_ok ⟨rfl, rfl, h2⟩

theorem blind_clone_pdpt (fuel : Nat) : BlindClone (clone_pdpt fuel) := by
  intro s t orig h
  unfold clone_pdpt
  refine (safe_allocation_mirrors (blind_allocate_pt fuel) h fuel _).bind ?_
  rintro ⟨new, physical, s1⟩ ⟨_, _, t1⟩ ⟨rfl, rfl, h1⟩
  refine (clone_entries_mirrors (blind_clone_pdt fuel) h1 int_flags orig new 512).bind ?_
  exact fun s2 t2 h2 => mirrors_ok ⟨rfl, rfl, h2⟩

/-- With other bytes in the frames a clone goes the same way. -/
theorem clone_directory_mirrors (h : Alike s t) (fuel directory : Nat) :
    Mirrors (Beside Alike) (mmu_clone_directory fuel s directory)
      (mmu_clone_directory fuel t directory) := by
  unfold mmu_clone_directory
  refine (ksbrk_mirrors h fuel _).bind ?_
  rintro ⟨d, s1⟩ ⟨_, t1⟩ ⟨rfl, h1⟩
  refine (safe_allocation_mirrors (blind_allocate_pt fuel) h1 fuel _).bind ?_
  rintro ⟨pml4t, physical, s2⟩ ⟨_, _, _⟩ ⟨rfl, rfl, ram, seed, rfl⟩
  refine (clone_entries_mirrors (blind_clone_pdpt fuel) ⟨ram, seed, rfl⟩ low_flags _ pml4t
    511).bind ?_
  rintro s3 _ ⟨ram, seed, rfl⟩
  exact mirrors_ok ⟨rfl, ram, seed, rfl⟩

end salsola.mmu
