-- mmu_init returns on a machine with memory, and what it leaves: the window behind
-- its first two page tables is free.
import Salsola.MmuInit

open memory outcome runs

namespace salsola.mmu

variable {W : Nat} {dirs : List Nat} {boot : Boot} {frames frames' : Frames}

/-! ## Requests -/

/-- Serve the requests one after the other. -/
def serve (frames : Frames) : List Nat → Option Frames
  | [] => some frames
  | count :: counts =>
    match get_frame frames true count with
    | .ok (_, frames) => serve frames counts
    | .error _ => none

theorem served_of_serve {counts : List Nat} (h : serve frames counts = some frames') :
    Served frames counts frames' := by
  induction counts generalizing frames with
  | nil =>
    obtain rfl := Option.some.inj h
    exact .nil _
  | cons count counts ih =>
    unfold serve at h
    cases hget : get_frame frames true count with
    | error e =>
      rw [hget] at h
      cases h
    | ok r =>
      rw [hget] at h
      exact .cons hget (ih h)

/-! ## The window behind the page tables -/

/-- The window is free from page `c` on, and has its first `q` page tables. -/
def Space.since (c q : Nat) (frames : Frames) : Space where
  free := fun y => c ≤ y
  frames := frames
  filled := q

theorem firstRun_since (c n : Nat) (hn : 0 < n) : FirstRun (fun y => c ≤ y) (c + n) c n where
  below := Nat.le_refl _
  run _ hk _ := hk
  first r hr hrun := by
    have := hrun r (Nat.le_refl r) (by omega)
    omega

/-- Below the end of its page tables a region needs no new ones. -/
theorem opens_since (c q : Nat) (frames : Frames) {e : Nat} (he : e ≤ 512 * q) :
    (Space.since c q frames).Opens e (Space.since c q frames) where
  places := by
    rw [show span (Space.since c q frames).filled e = [] from span_nil he]
    exact .nil _
  frames := by
    rw [show span (Space.since c q frames).filled e = [] from span_nil he]
    exact .nil _
  filled := (cover_le he).symm

/-- The next page table goes to the first page that is free. -/
theorem opens_next (c q : Nat) (hq : q % 512 ≠ 0) (hc : c < 512 * q)
    (hserved : Served frames [1] frames') :
    (Space.since c q frames).Opens (512 * q + 1) (Space.since (c + 1) (q + 1) frames') := by
  have hspan : span q (512 * q + 1) = [(512 * q, 1)] := by
    rw [span_one rfl]
    unfold slot_demands
    rw [if_neg hq]
    rfl
  refine ⟨?_, ?_, ?_⟩
  · have hrun : FirstRun (fun y => c ≤ y) (512 * q) c 1 :=
      (firstRun_since c 1 Nat.one_pos).raise hc
    have hleft : (fun y => c ≤ y ∧ ¬ (c ≤ y ∧ y < c + 1)) = fun y => c + 1 ≤ y := by
      funext y
      apply propext
      omega
    have hplaced := placed_one hrun
    rw [hleft] at hplaced
    rw [show span (Space.since c q frames).filled (512 * q + 1) = [(512 * q, 1)] from hspan]
    exact hplaced
  · rw [show span (Space.since c q frames).filled (512 * q + 1) = [(512 * q, 1)] from hspan]
    exact hserved
  · have hcover : cover q (512 * q + 1) = q + 1 := by
      unfold cover
      omega
    exact hcover.symm

theorem maps_since (c q : Nat) (frames : Frames) {n : Nat} (hn : 0 < n) (h : c + n ≤ 512 * q) :
    (Space.since c q frames).Maps n :=
  ⟨c, _, firstRun_since c n hn, opens_since c q frames h, fun _ hk _ => hk⟩

/-- A call of `ksbrk` that starts in the last page table there is. -/
theorem brings_since {c q n : Nat} (hq : q % 512 ≠ 0) (hc : c / 512 + 1 = q) (hn : 0 < n)
    (hsmall : c + n ≤ 512 * q) (hserved : Served frames [1] frames')
    (henough : Enough frames' (List.replicate n 1)) :
    (Space.since c q frames).Brings n := by
  have hfrom : (Space.since c q frames).from c = Space.since c q frames := by
    unfold Space.from Space.since
    simp
  refine ⟨c, _, _, c + 1, _, firstRun_since c n hn, opens_since c q frames hsmall, by omega, ?_,
    firstRun_since (c + 1) n hn, opens_since (c + 1) (q + 1) frames' (by omega),
    fun _ hk _ => hk, henough⟩
  rw [hfrom, show next_end c = 512 * q + 1 by unfold next_end; rw [hc]]
  exact opens_next c q hq (by omega) hserved

/-! ## mmu_init -/

/-- With a kernel that leaves a page behind the heap, and a free frame, `mmu_init` returns. -/
theorem mmu_init_returns (hkernel : boot.kernel_end ≤ KERNEL_VMA + 510 * 0x1000)
    (hrelease : release_entries (fun _ => BitVec.allOnes 64) boot.entries = .ok frames)
    (hfull : ∀ i, i < 8 → frames i = BitVec.allOnes 64) (hserved : Served frames [1] frames') :
    ∃ s, mmu_init WINDOW boot = .ok s ∧ Sound boot.W [boot.orig_active_directory] s ∧
      Filled s boot.W 2 ∧ space s boot.W 2 = Space.since 512 2 frames' := by
  have hbooted := booted_before_ksbrk boot frames
  have hframes := before_ksbrk_frames boot hfull
  obtain ⟨t, ht, hpos, -⟩ := hbooted.heap
  have htsmall : t ≤ 511 := by
    have hend := hbooted.heap_end
    have halign : align_up boot.kernel_end 0x1000 < boot.kernel_end + 0x1000 := by
      unfold align_up
      split <;> omega
    rw [ht] at hend
    unfold window at hend
    omega
  have hfree : space (boot.before_ksbrk frames) boot.W 1 = Space.since 511 1 frames := by
    unfold space Space.since
    rw [hframes]
    congr 1
    funext y
    unfold Free
    rw [ht, hbooted.mapped]
    apply propext
    constructor
    · rintro ⟨-, hy⟩
      omega
    · intro hy
      refine ⟨?_, by omega⟩
      unfold window
      omega
  have hopens : (space (boot.before_ksbrk frames) boot.W 1).Opens (next_end t)
      (Space.since 512 2 frames') := by
    rw [hfree, show next_end t = 512 * 1 + 1 by unfold next_end; omega]
    exact opens_next 511 1 (by decide) (by decide) hserved
  have hgo : Goes (fun _ => False) WINDOW (t / 512 % 512 ≠ 511 ∧
      ∃ sp, (space (boot.before_ksbrk frames) boot.W 1).Opens (next_end t) sp) :=
    .inr ⟨Nat.le_refl _, by omega, _, hopens⟩
  obtain ⟨⟨rc, physical, s⟩, hreturns, hgrown, hfilled⟩ :=
    spec_returns (ksbrk_nothing hbooted.sound hbooted.filled ht hgo)
  have hcover : cover 1 (next_end t) = 2 := by
    unfold cover next_end
    omega
  have hafter := hgrown.opens
  rw [hcover] at hfilled hafter
  refine ⟨s, ?_, hgrown.searched.sound, hfilled, hafter.unique hopens⟩
  rw [mmu_init_eq, hrelease, ok_bind, hreturns]
  rfl

/-! ## A small machine -/

/-- A machine with 32 frames behind the ones that boot.s maps, and a page behind its kernel. -/
def small_boot : Boot where
  PML4T := 0x100000
  kernel_end := KERNEL_VMA + 0x1fd000
  orig_active_directory := KERNEL_VMA + 0x110000
  entries := [{ addr := 0x200000, len := 0x20000, type := 1, zero := 0 }]
  ram := fun _ => 0
  seed := ⟨0, 0, 0, 0⟩
  aligned := by decide
  mapped := by decide
  kernel := by decide
  directory := by decide

/-- Its frames, when `mmu_init` has released them. -/
def small_frames : Frames := release_frames (fun _ => BitVec.allOnes 64) 0x220000 0x200000 0x4001

theorem small_frames_released :
    release_entries (fun _ => BitVec.allOnes 64) small_boot.entries = .ok small_frames := by
  unfold small_boot release_entries
  rw [if_neg (by decide), assert_of rfl]
  rfl

theorem small_frames_serve : (serve small_frames [1, 1, 1, 1]).isSome = true := by decide +kernel

theorem small_frames_low : ∀ i : Fin 8, small_frames i.val = BitVec.allOnes 64 := by
  decide +kernel

/-- `mmu_init` returns on the small machine, and leaves frames for three more requests. -/
theorem small_boot_returns :
    ∃ s frames, mmu_init WINDOW small_boot = .ok s ∧
      Sound small_boot.W [small_boot.orig_active_directory] s ∧ Filled s small_boot.W 2 ∧
      space s small_boot.W 2 = Space.since 512 2 frames ∧ (serve frames [1, 1, 1]).isSome := by
  have hserve := small_frames_serve
  unfold serve at hserve
  cases hget : get_frame small_frames true 1 with
  | error e =>
    rw [hget] at hserve
    cases hserve
  | ok r =>
    rw [hget] at hserve
    obtain ⟨s, hinit, hsound, hfilled, hspace⟩ := mmu_init_returns (by decide)
      small_frames_released (fun i hi => small_frames_low ⟨i, hi⟩) (.cons hget (.nil _))
    exact ⟨s, r.2, hinit, hsound, hfilled, hspace, hserve⟩

theorem goes_surely {P : Prop} (h : P) : Goes (fun _ => False) WINDOW P :=
  .inr ⟨Nat.le_refl _, h⟩

/-- There a search returns for up to 513 pages. -/
theorem small_boot_search {s : Mmu} {frames : Frames} (hsound : Sound W dirs s)
    (hfilled : Filled s W 2) (hspace : space s W 2 = Space.since 512 2 frames)
    (hserve : (serve frames [1, 1, 1]).isSome) {length : Nat} (hpos : 0 < turns length)
    (hle : turns length ≤ 513) :
    FirstRun (Free s W) (512 + turns length) 512 (turns length) ∧ ∃ v s',
      mmu_find_free_virtual_region (allocate_pt WINDOW) WINDOW s length = .ok (v, s') := by
  have hfree : Free s W = fun y => 512 ≤ y := congrArg Space.free hspace
  have hrun : FirstRun (Free s W) (512 + turns length) 512 (turns length) := by
    rw [hfree]
    exact firstRun_since 512 _ hpos
  have hopens : ∃ sp, (space s W 2).Opens (512 + turns length) sp := by
    rw [hspace]
    by_cases hsmall : turns length ≤ 512
    · exact ⟨_, opens_since 512 2 frames (by omega)⟩
    · obtain ⟨last, hlast⟩ := Option.isSome_iff_exists.mp hserve
      cases served_of_serve hlast with
      | cons hget _ =>
        rw [show 512 + turns length = 512 * 2 + 1 by omega]
        exact ⟨_, opens_next 512 2 (by decide) (by decide) (.cons hget (.nil _))⟩
  obtain ⟨⟨v, s'⟩, hreturns, -⟩ := spec_returns
    (search_exact hsound hfilled hpos hrun ((goes_surely hopens).ready id))
  exact ⟨hrun, v, s', hreturns⟩

/-- There `mmu_map_frames` returns for up to 512 pages, and `ksbrk_physical` for two pages. -/
theorem small_boot_calls :
    ∃ s, mmu_init WINDOW small_boot = .ok s ∧
      (∀ src length, 0 < turns length → turns length ≤ 512 →
        ∃ v s', mmu_map_frames WINDOW s src length = .ok (v, s')) ∧
      ∃ rc phys s', ksbrk_physical WINDOW s 0x2000 = .ok (rc, phys, s') := by
  obtain ⟨s, frames, hinit, hsound, hfilled, hspace, hserve⟩ := small_boot_returns
  refine ⟨s, hinit, ?_, ?_⟩
  · intro src length hpos hle
    have hmaps := maps_since 512 2 frames hpos (by omega)
    rw [← hspace] at hmaps
    obtain ⟨⟨v, s'⟩, hreturns, -⟩ :=
      spec_returns (mmu_map_frames.exact hsound hfilled src (goes_surely fun _ => hmaps))
    exact ⟨v, s', hreturns⟩
  · obtain ⟨last, hlast⟩ := Option.isSome_iff_exists.mp hserve
    have hserved := served_of_serve hlast
    cases hserved with
    | cons hget hserved =>
      have hbrings : (Space.since 512 2 frames).Brings (turns 0x2000) :=
        brings_since (by decide) (by decide) (by decide) (by decide) (.cons hget (.nil _))
          hserved.enough_all
      rw [← hspace] at hbrings
      obtain ⟨⟨rc, phys, s'⟩, hreturns, -⟩ :=
        spec_returns (ksbrk_physical.exact hsound hfilled (by decide) (goes_surely hbrings))
      exact ⟨rc, phys, s', hreturns⟩

end salsola.mmu
