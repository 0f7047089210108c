-- Where the pages lie: in memory that the boot loader calls available, as far as the bitmap can
-- tell the frames apart.
import Salsola.MmuIsolation
import Salsola.MemoryMap

open memory outcome runs

namespace salsola.mmu

variable {frames : Frames} {calls : List Nat} {entries : List MemoryMapEntry} {boot : Boot}
variable {f g : Nat}

/-- One mask stands for both frames: they share a word of the bitmap, and the shift takes the
bit modulo 32. -/
def Alias (f g : Nat) : Prop := f / 64 = g / 64 ∧ f % 32 = g % 32

/-- A bit is cleared by a call that covers it. -/
theorem release_all_clears (hset : bit frames g = true)
    (hclear : bit (release_all frames calls) g ≠ true) :
    ∃ a ∈ calls, a / 0x1000 < NUM_OF_FRAMES * 64 ∧ Covers (a / 0x1000) g := by
  induction calls generalizing frames with
  | nil => exact absurd hset hclear
  | cons a calls ih =>
    by_cases hlt : a / 0x1000 < NUM_OF_FRAMES * 64
    · by_cases hcov : Covers (a / 0x1000) g
      · exact ⟨a, List.mem_cons_self, hlt, hcov⟩
      · have hbit : bit (set_frame frames a false).2 g = true := by
          rw [(set_frame_bit frames a g false hlt).2, if_neg hcov]
          exact hset
        obtain ⟨b, hb, hrest⟩ := ih hbit hclear
        exact ⟨b, List.mem_cons_of_mem a hb, hrest⟩
    · have hbit : bit (set_frame frames a false).2 g = true := by
        rw [set_frame_outside frames a false hlt]
        exact hset
      obtain ⟨b, hb, hrest⟩ := ih hbit hclear
      exact ⟨b, List.mem_cons_of_mem a hb, hrest⟩

/-- A mask that covers the low bit of a frame stands for the frame. -/
theorem alias_of_covers (h : Covers g (f / 64 * 64 + f % 32)) : Alias f g := by
  unfold Covers at h
  unfold Alias
  omega

/-- The pass frees a frame with a call for the frame or its alias. -/
theorem released_by_a_call
    (hpass : release_entries (fun _ => BitVec.allOnes 64) entries = .ok frames)
    (hfree : ¬ taken frames f) :
    ∃ a ∈ pass_calls entries, a / 0x1000 < NUM_OF_FRAMES * 64 ∧ Alias f (a / 0x1000) := by
  have hframes := spec_of_ok (release_entries.spec (fun _ => BitVec.allOnes 64) entries) hpass
  have hset : bit (fun _ => BitVec.allOnes 64) (f / 64 * 64 + f % 32) = true := by
    unfold bit
    rw [BitVec.getLsbD_allOnes, decide_eq_true_iff]
    omega
  have hclear : bit frames (f / 64 * 64 + f % 32) ≠ true :=
    fun hbit => hfree ((taken_iff frames f).mpr ⟨_, covers_some f, hbit⟩)
  rw [hframes] at hclear
  obtain ⟨a, ha, hlt, hcov⟩ := release_all_clears hset hclear
  exact ⟨a, ha, hlt, alias_of_covers hcov⟩

/-- Where the pass over the memory map frees usable memory only, each page that the pointers of an
address space lead to has one of the frames that boot.s maps, or a frame whose mask stands for a
usable one, but for the pages that `mmu_map_frames` has mapped. This holds in every run. -/
theorem pages_lie_in_usable_memory (boot : Boot) (hfrees : FreesUsable boot.entries)
    (w : Spaces) (hw : Spaces.Reachable boot w) (d : Nat) (hd : d ∈ w.dirs) (a e : Nat)
    (hna : ¬ InDevice w.live a) (he : page_entry w.state d a = some e) :
    e / 0x1000 < 511 ∨ ∃ g, Alias (e / 0x1000) g ∧ Usable boot.entries g := by
  obtain ⟨t, hl, rfl, hp⟩ := page_entry_eq_some.mp he
  have hspaced := hw.spaced
  refine (hspaced.frame _ _ hp (hspaced.no_device hd hna hl)).imp_right (fun hreleased => ?_)
  obtain ⟨frames, hpass⟩ := hw.passed
  obtain ⟨b, hb, hlt, halias⟩ := released_by_a_call hpass (hreleased.2 frames hpass)
  exact ⟨b / 0x1000, halias, hfrees b hb hlt⟩

theorem small_boot_frees : FreesUsable small_boot.entries := by
  intro a ha hf
  obtain ⟨e, he, hae⟩ := List.mem_flatMap.mp ha
  obtain ⟨hmem, htype⟩ := read_entries_sub he
  refine ⟨e, hmem, htype, ?_⟩
  obtain rfl : e = { addr := 0x200000, len := 0x20000, type := 1, zero := 0 } :=
    List.mem_singleton.mp hmem
  have hfrees := (frees_iff (by decide) hf).mp ⟨a, hae, rfl⟩
  unfold Frees at hfrees
  unfold Inside
  dsimp only at hfrees ⊢
  omega

/-- The page at address 0 of the small machine. -/
theorem a_page_of_the_small_machine_lies_in_usable_memory :
    ∃ s free physical mapped, mmu_init 24 small_boot = .ok s ∧
      check_virtual_region_is_free (allocate_pt 24) s 0 true false 0 =
        .ok (free, physical, mapped) ∧
      ∀ e, page_entry mapped small_boot.orig_active_directory 0 = some e →
        e / 0x1000 < 511 ∨ ∃ g, Alias (e / 0x1000) g ∧ Usable small_boot.entries g := by
  obtain ⟨s, hinit, -, free, p, mapped, -, -, hmap, -⟩ := small_boot_clones
  have hmapped := Spaces.first_page hinit hmap
  refine ⟨s, free, p, mapped, hinit, hmap, fun e he => ?_⟩
  refine pages_lie_in_usable_memory small_boot small_boot_frees _ hmapped
    small_boot.orig_active_directory (List.mem_singleton_self _) 0 e ?_ he
  rintro ⟨v, hv, -⟩
  exact hv

end salsola.mmu
