-- The memory-map pass of mmu_init: which frames it frees. Its loop goes from
-- the start of an entry in steps of a page, and its variable has 32 bits.
import Salsola.Mmu

namespace salsola.mmu

variable {frames : Frames} {entries : List MemoryMapEntry} {e : MemoryMapEntry}
  {limit p todo a f : Nat}

/-! ## The calls of set_frame -/

/-- The addresses that the loop over one entry passes to `set_frame(…, false)`. -/
def release_calls (limit p : Nat) : Nat → List Nat
  | 0 => []
  | todo + 1 =>
    if p < limit then
      if NUM_OF_FRAMES ≤ p / 0x1000 / 64 then [p]
      else p :: release_calls limit ((p + 0x1000) % 2 ^ 32) todo
    else []

/-- The entries that the pass reads frames from, up to the first with a failing assert. -/
def read_entries : List MemoryMapEntry → List MemoryMapEntry
  | [] => []
  | entry :: entries =>
    if MULTIBOOT_MEMORY_AVAILABLE ≠ entry.type then read_entries entries
    else entry :: if 0 = entry.zero then read_entries entries else []

def entry_calls (entry : MemoryMapEntry) : List Nat :=
  release_calls ((entry.addr + entry.len) % 2 ^ 64) (entry.addr % 2 ^ 32) 0x4001

/-- All calls of the pass. -/
def pass_calls (entries : List MemoryMapEntry) : List Nat :=
  (read_entries entries).flatMap entry_calls

/-- The bitmap after some calls. -/
def release_all (frames : Frames) (calls : List Nat) : Frames :=
  calls.foldl (fun frames a => (set_frame frames a false).2) frames

theorem release_frames_eq (frames : Frames) (limit p todo : Nat) :
    release_frames frames limit p todo = release_all frames (release_calls limit p todo) := by
  induction todo generalizing frames p with
  | zero => rfl
  | succ todo ih =>
    unfold release_frames release_calls
    by_cases hp : p < limit
    · rw [if_pos hp, if_pos hp]
      by_cases hout : NUM_OF_FRAMES ≤ p / 0x1000 / 64
      · simp [set_frame, hout, release_all]
      · have hset : (set_frame frames p false).1 = true := by simp [set_frame, hout]
        simp only [hset, not_true, if_false, hout]
        exact ih _ _
    · rw [if_neg hp, if_neg hp]
      rfl

/-- When the pass comes to its end, it has made its calls and nothing else. -/
theorem release_entries.spec (frames : Frames) (entries : List MemoryMapEntry) :
    outcome.Spec (release_entries frames entries) (fun e => e = .assert)
      (fun frames' => frames' = release_all frames (pass_calls entries)) := by
  induction entries generalizing frames with
  | nil => rfl
  | cons entry entries ih =>
    unfold release_entries pass_calls read_entries
    by_cases htype : MULTIBOOT_MEMORY_AVAILABLE ≠ entry.type
    · rw [if_pos htype, if_pos htype]
      exact ih frames
    · rw [if_neg htype, if_neg htype]
      by_cases hzero : 0 = entry.zero
      · rw [assert_of hzero, if_pos hzero]
        refine outcome.spec_post (ih _) ?_
        rintro _ rfl
        rw [release_frames_eq, List.flatMap_cons, release_all, release_all, release_all,
          List.foldl_append]
        rfl
      · rw [assert_fails hzero]
        rfl

/-! ## The frames of one entry -/

/-- Frame `f` lies in the entry, with all its bytes. -/
def Inside (entry : MemoryMapEntry) (f : Nat) : Prop :=
  entry.addr ≤ f * 4096 ∧ f * 4096 + 4096 ≤ entry.addr + entry.len

/-- Frame `f` lies in an entry of memory that is available. -/
def Usable (entries : List MemoryMapEntry) (f : Nat) : Prop :=
  ∃ e ∈ entries, e.type = MULTIBOOT_MEMORY_AVAILABLE ∧ Inside e f

/-- Every frame that the pass frees may be handed out. -/
def FreesUsable (entries : List MemoryMapEntry) : Prop :=
  ∀ a ∈ pass_calls entries, a / 4096 < 16384 → Usable entries (a / 4096)

/-- The loop calls with each page-sized step below the limit and in the bitmap. -/
theorem mem_release_calls (hp : p < 2 ^ 32) (htodo : 16384 < p / 4096 + todo)
    (ha : a / 4096 < 16384) :
    a ∈ release_calls limit p todo ↔ ∃ k, a = p + k * 4096 ∧ a < limit := by
  induction todo generalizing p with
  | zero =>
    refine iff_of_false List.not_mem_nil ?_
    rintro ⟨k, rfl, -⟩
    omega
  | succ todo ih =>
    unfold release_calls NUM_OF_FRAMES
    by_cases hlimit : p < limit
    · rw [if_pos hlimit]
      by_cases hout : 256 ≤ p / 0x1000 / 64
      · rw [if_pos hout]
        refine iff_of_false ?_ ?_
        · intro hmem
          rw [List.mem_singleton] at hmem
          omega
        · rintro ⟨k, rfl, -⟩
          omega
      · rw [if_neg hout, Nat.mod_eq_of_lt (by omega), List.mem_cons,
          ih (by omega) (by omega)]
        constructor
        · rintro (rfl | ⟨k, rfl, hk⟩)
          · exact ⟨0, by omega, hlimit⟩
          · exact ⟨k + 1, by ring, hk⟩
        · rintro ⟨k, rfl, hk⟩
          rcases k with _ | k
          · exact Or.inl (by omega)
          · exact Or.inr ⟨k, by ring, hk⟩
    · rw [if_neg hlimit]
      refine iff_of_false List.not_mem_nil ?_
      rintro ⟨k, rfl, hk⟩
      omega

/-- The loop over the entry frees frame `f`. -/
def Frees (entry : MemoryMapEntry) (f : Nat) : Prop :=
  entry.addr % 2 ^ 32 / 4096 ≤ f ∧
    f * 4096 + entry.addr % 2 ^ 32 % 4096 < entry.addr + entry.len

theorem frees_iff (h : e.addr + e.len < 2 ^ 64) (hf : f < 16384) :
    (∃ a ∈ entry_calls e, a / 4096 = f) ↔ Frees e f := by
  have hmem : ∀ a, a / 4096 < 16384 →
      (a ∈ entry_calls e ↔ ∃ k, a = e.addr % 2 ^ 32 + k * 4096 ∧ a < e.addr + e.len) := by
    intro a ha
    unfold entry_calls
    rw [mem_release_calls (Nat.mod_lt _ (by decide)) (by omega) ha, Nat.mod_eq_of_lt h]
  unfold Frees
  generalize e.addr % 2 ^ 32 = start at hmem ⊢
  constructor
  · rintro ⟨a, ha, rfl⟩
    obtain ⟨k, rfl, hlt⟩ := (hmem a hf).mp ha
    omega
  · rintro ⟨h1, h2⟩
    refine ⟨f * 4096 + start % 4096, ?_, by omega⟩
    rw [hmem _ (by omega)]
    exact ⟨f - start / 4096, by omega, h2⟩

/-- A frame that the entry frees sticks out of it. From 4 GiB on every frame does: the start of
the entry is cut to 32 bits. Below, it is the first page when the entry starts in its middle, or
the last page when the entry ends before the page does. -/
def Sticks (entry : MemoryMapEntry) (f : Nat) : Prop :=
  if entry.addr < 2 ^ 32 then
    (0 < entry.len ∧ entry.addr % 4096 ≠ 0 ∧ f = entry.addr / 4096) ∨
      (0 < entry.len % 4096 ∧ entry.addr % 4096 + entry.len % 4096 < 4096 ∧
        f = (entry.addr + entry.len) / 4096)
  else entry.addr % 2 ^ 32 / 4096 ≤ f

theorem sticks_iff (hf : f < 16384) : Sticks e f ↔ Frees e f ∧ ¬ Inside e f := by
  unfold Sticks Frees Inside
  by_cases hlow : e.addr < 2 ^ 32
  · rw [if_pos hlow, Nat.mod_eq_of_lt hlow]
    omega
  · rw [if_neg hlow]
    omega

/-! ## The pass -/

theorem read_entries_sub (h : e ∈ read_entries entries) :
    e ∈ entries ∧ e.type = MULTIBOOT_MEMORY_AVAILABLE := by
  induction entries with
  | nil => cases h
  | cons entry entries ih =>
    unfold read_entries at h
    by_cases htype : MULTIBOOT_MEMORY_AVAILABLE ≠ entry.type
    · rw [if_pos htype] at h
      exact ⟨List.mem_cons_of_mem _ (ih h).1, (ih h).2⟩
    · rw [if_neg htype] at h
      rcases List.mem_cons.mp h with rfl | h
      · exact ⟨List.mem_cons_self, (not_not.mp htype).symm⟩
      · split at h
        · exact ⟨List.mem_cons_of_mem _ (ih h).1, (ih h).2⟩
        · cases h

/-- The pass frees usable memory only, exactly when each frame that sticks out of its entry lies
in another one. -/
theorem the_pass_frees_usable_memory_iff_no_frame_sticks_out (entries : List MemoryMapEntry)
    (h : ∀ e ∈ entries, e.addr + e.len < 2 ^ 64) :
    FreesUsable entries ↔
      ∀ e ∈ read_entries entries, ∀ f < 16384, Sticks e f → Usable entries f := by
  constructor
  · intro hfrees e he f hf hsticks
    obtain ⟨hmem, -⟩ := read_entries_sub he
    obtain ⟨a, ha, rfl⟩ := (frees_iff (h e hmem) hf).mpr ((sticks_iff hf).mp hsticks).1
    exact hfrees a (List.mem_flatMap.mpr ⟨e, he, ha⟩) hf
  · intro hsticks a ha hf
    obtain ⟨e, he, hae⟩ := List.mem_flatMap.mp ha
    obtain ⟨hmem, htype⟩ := read_entries_sub he
    by_cases hin : Inside e (a / 4096)
    · exact ⟨e, hmem, htype, hin⟩
    · have hfrees := (frees_iff (h e hmem) hf).mp ⟨a, hae, rfl⟩
      exact hsticks e he _ hf ((sticks_iff hf).mpr ⟨hfrees, hin⟩)

/-- One entry of whole pages, the megabyte behind the first one. -/
theorem the_pass_frees_usable_memory_of_whole_pages :
    FreesUsable [⟨0x100000, 0x100000, 1, 0⟩] := by
  refine (the_pass_frees_usable_memory_iff_no_frame_sticks_out _ (by simp)).mpr ?_
  intro e he f _ hsticks
  obtain rfl := List.mem_singleton.mp (read_entries_sub he).1
  unfold Sticks at hsticks
  dsimp only at hsticks
  rw [if_pos (by decide)] at hsticks
  omega

/-- The memory below 639 KiB, which ends in the middle of frame 159. -/
theorem the_pass_frees_half_a_page_too_much :
    ¬ ∀ entries : List MemoryMapEntry, (∀ e ∈ entries, e.addr + e.len < 2 ^ 64) →
      FreesUsable entries := by
  intro h
  have hbios := h [⟨0, 0x9fc00, 1, 0⟩] (by simp)
  obtain ⟨a, ha, hf⟩ :=
    (frees_iff (e := ⟨0, 0x9fc00, 1, 0⟩) (f := 159) (by decide) (by decide)).mpr
      (by unfold Frees; decide)
  have hcall : a ∈ pass_calls [⟨0, 0x9fc00, 1, 0⟩] :=
    List.mem_flatMap.mpr ⟨_, List.mem_cons_self, ha⟩
  obtain ⟨e, he, -, -, hend⟩ := hbios a hcall (by omega)
  rw [List.mem_singleton] at he
  subst he
  rw [hf] at hend
  exact absurd hend (by decide)

end salsola.mmu
