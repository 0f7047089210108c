-- The stack of the kernel. mmu_update_stack maps it behind the slot 511, so that each clone of
-- the directory has a stack of its own, as the pointers lead. A clone has a PDT there, so the CPU,
-- which walks the entries, need not find it.
import Salsola.MmuIsolation

open memory outcome runs

namespace salsola.mmu

variable {W : Nat} {dirs : List Nat} {live usable : Nat → Prop} {s s' : Mmu} {boot : Boot}
variable {a c d e k n o t x fuel : Nat} {w w' : Spaces}

/-! ## mmu_update_stack -/

def NEW_STACK : Nat := 0xffffff8000000000

def stack_size : Nat := 0x8000

/-- The loop of `mmu_update_stack`, for the first `n` pages. -/
def stack_pages (fuel : Nat) (s : Mmu) : Nat → Result Mmu
  | 0 => .ok s
  | n + 1 => do
    let s ← stack_pages fuel s n
    let (was_free, _, s) ← check_virtual_region_is_free (allocate_pt fuel) s
      (NEW_STACK - (n + 1) * PAGE_SIZE) true false 0
    assert (was_free = true)
    .ok s

/-- The loop starts one page below the new stack and stops one page before its size. -/
def mmu_update_stack (fuel : Nat) (s : Mmu) : Result Mmu :=
  stack_pages fuel s (stack_size / PAGE_SIZE - 1)

/-- The address of the page `n` of the stack, from its end down. -/
def stack_page (n : Nat) : Nat := NEW_STACK - (n + 1) * PAGE_SIZE

theorem stack_slot (hn : n < 7) : pml4t_index (stack_page n) = 510 := by
  change index 3 (stack_page n) = 510
  rw [index_eq]
  unfold stack_page NEW_STACK PAGE_SIZE
  omega

theorem stack_page_aligned (n : Nat) (hn : n < 7) : stack_page n % 0x1000 = 0 := by
  unfold stack_page NEW_STACK PAGE_SIZE
  omega

/-- All addresses of a page have its entry. -/
theorem page_entry_low (s : Mmu) (d : Nat) (ha : a % 0x1000 = 0) (ho : o < 0x1000) :
    page_entry s d (a + o) = page_entry s d a := by
  have h3 : pml4t_index (a + o) = pml4t_index a := index_low 3 ha ho
  have h2 : pdpt_index (a + o) = pdpt_index a := index_low 2 ha ho
  have h1 : pdt_index (a + o) = pdt_index a := index_low 1 ha ho
  have h0 : pt_index (a + o) = pt_index a := index_low 0 ha ho
  unfold page_entry
  rw [h3, h2, h1, h0]

/-! ## Pages that stay -/

theorem Writes.outside {entry : Nat → Nat} (hw : Writes W s s' c n entry) : Outside W s s' := by
  intro a _ hout
  refine ⟨congrFun hw.tables a, funext (fun i => hw.other a i ?_)⟩
  rintro k hk ⟨rfl, -⟩
  exact hout (hw.covered k hk).inWindow

/-- More tables and pages leave a page as it is. -/
theorem Makes.page_entry (hm : Makes W s s') (he : page_entry s x a = some e) :
    page_entry s' x a = some e := by
  obtain ⟨t, ⟨b, c, h1, h2, h3⟩, rfl, hp⟩ := page_entry_eq_some.mp he
  have hroot : root s' x = root s x := by
    unfold root
    rw [hm.directories]
  refine page_entry_eq_some.mpr ⟨t, ⟨b, c, ?_, (hm.grows.table _ _ _ h2).1,
    (hm.grows.table _ _ _ h3).1⟩, hm.grows.page _ _ hp, hp⟩
  rw [hroot]
  exact (hm.grows.table _ _ _ h1).1

/-- No request takes a page below the slot 511 from an address space. -/
theorem Spaces.step_page_entry {request : Request} (h : Spaced W w.dirs w.live usable w.state)
    (hall : w.allowed request) (hstep : w.step request = .ok w') (hx : x ∈ w.dirs)
    (ha : pml4t_index a ≠ 511) (he : page_entry w.state x a = some e) :
    page_entry w'.state x a = some e := by
  cases request with
  | ksbrk fuel length =>
    obtain ⟨⟨_, state⟩, h1, h2⟩ := bind_eq_ok.mp hstep
    cases h2
    obtain ⟨⟨rc, phys, s1⟩, h3, h4⟩ := bind_eq_ok.mp h1
    cases h4
    exact (spec_of_ok (ksbrk_physical.spec h.sound fuel length) h3).makes.toMakes.page_entry he
  | allocate_pt fuel i j k =>
    obtain ⟨⟨_, state⟩, h1, h2⟩ := bind_eq_ok.mp hstep
    cases h2
    exact (spec_of_ok (allocate_pt.spec h.sound fuel i j k) h1).1.makes.page_entry he
  | page fuel address =>
    obtain ⟨⟨_, _, state⟩, h1, h2⟩ := bind_eq_ok.mp hstep
    cases h2
    exact (spec_of_ok (check_makes h.sound fuel address) h1).2.1.page_entry he
  | map_frames fuel src length =>
    obtain ⟨⟨virtual, state⟩, h1, h2⟩ := bind_eq_ok.mp hstep
    cases h2
    obtain ⟨c, s1, -, -, hsearched, -, hm⟩ :=
      spec_of_ok (mmu_map_frames.parts h.sound fuel src length) h1
    dsimp only at hm ⊢
    rw [hm.toWrites.outside.page_entry hsearched.sound (by rw [hm.rest]; rfl) hx ha]
    exact hsearched.makes.toMakes.page_entry he
  | unmap_frames virtual length =>
    obtain ⟨state, h1, h2⟩ := bind_eq_ok.mp hstep
    cases h2
    rcases Nat.eq_zero_or_pos (turns length) with hzero | hlen
    · unfold mmu_unmap_frames at h1
      rw [hzero] at h1
      cases h1
      exact he
    · obtain ⟨c, rfl, hc, hpages⟩ := live_region h.devices hall hlen
      obtain ⟨-, hw⟩ := spec_of_ok (mmu_unmap_frames.spec h.sound hc hpages) h1
      dsimp only
      rw [hw.outside.page_entry h.sound (by rw [hw.rest]; rfl) hx ha]
      exact he
  | clone fuel directory =>
    obtain ⟨⟨d', state⟩, h1, h2⟩ := bind_eq_ok.mp hstep
    cases h2
    have hclone := spec_of_ok (mmu_clone_directory.spec h.sound h.backed hall fuel) h1
    dsimp only at hclone ⊢
    rw [hclone.old_entry h.sound hx ha]
    exact he
  | set directory =>
    cases hstep
    exact he
  | store ram =>
    cases hstep
    exact he

/-! ## The stack in every run -/

/-- A page that the call has looked at is there in the end. -/
theorem check_presents (h : Sound W dirs s) (fuel address : Nat) :
    Spec (check_virtual_region_is_free (allocate_pt fuel) s address true false 0) anyhow
      (fun r => r.2.2.active_directory = s.active_directory ∧
        ∃ e, page_entry r.2.2 s.active_directory address = some e) := by
  unfold check_virtual_region_is_free
  refine spec_bind (allocate_pt.spec h fuel _ _ _) ?_
  rintro ⟨_, s1⟩ ⟨hmade, t, -, b, c, h1, h2, h3⟩
  dsimp only at hmade h1 h2 h3 ⊢
  have hroot : s1.pml4t = root s1 s.active_directory := by
    unfold Mmu.pml4t root
    rw [hmade.makes.active]
  have hpt : s1.pt address = t := by
    unfold Mmu.pt
    dsimp only
    rw [h1.2, h2.2, h3.2]
  rw [hpt]
  rw [hroot] at h1
  by_cases hp : present (s1.pts t (pt_index address))
  · rw [if_neg (not_not.mpr hp)]
    exact ⟨hmade.makes.active, _, page_entry_eq_some.mpr ⟨t, ⟨b, c, h1, h2, h3⟩, rfl, hp⟩⟩
  · rw [if_pos hp, if_pos rfl, if_neg Bool.false_ne_true]
    cases hget : get_frame s1.frames true 1 with
    | error e => trivial
    | ok r =>
      obtain ⟨p, frames⟩ := r
      refine ⟨hmade.makes.active, _,
        page_entry_eq_some.mpr ⟨t, ⟨b, c, h1, h2, h3⟩, rfl, ?_⟩⟩
      change present ((Mmu.set_page _ t (pt_index address) (p ||| 0x3)).pts t (pt_index address))
      rw [set_page_self]
      exact present_or _ _ rfl

/-- The pages of the stack are there in the address space `d`. -/
def HasStack (s : Mmu) (d n : Nat) : Prop :=
  ∀ k, k < n → ∃ e, page_entry s d (stack_page k) = some e

/-- The loop of `mmu_update_stack` is a run. -/
theorem stack_pages.spec (hw : Spaces.Reachable boot w) (hn : n ≤ 7) :
    Spec (stack_pages fuel w.state n) anyhow (fun s =>
      Spaces.Reachable boot { w with state := s } ∧
      s.active_directory = w.state.active_directory ∧ HasStack s w.state.active_directory n) := by
  induction n with
  | zero => exact ⟨hw, rfl, fun k hk => absurd hk (Nat.not_lt_zero k)⟩
  | succ n ih =>
    unfold stack_pages
    refine spec_bind (ih (by omega)) ?_
    rintro s1 ⟨hw1, hactive1, hstack1⟩
    have hspaced := hw1.spaced
    cases hcheck : check_virtual_region_is_free (allocate_pt fuel) s1
      (NEW_STACK - (n + 1) * PAGE_SIZE) true false 0 with
    | error e => trivial
    | ok r =>
      obtain ⟨was_free, physical, s2⟩ := r
      obtain ⟨hactive2, hpage⟩ := spec_of_ok (check_presents hspaced.sound fuel _) hcheck
      dsimp only at hactive2 hpage
      have hstep := Spaces.step_page (w := { w with state := s1 }) hcheck
      have hallowed : Spaces.allowed { w with state := s1 }
          (.page fuel (NEW_STACK - (n + 1) * PAGE_SIZE)) := trivial
      have hw2 := hw1.next hallowed hstep
      rw [ok_bind]
      dsimp only
      by_cases hfree : was_free = true
      · rw [assert_of hfree, ok_bind]
        refine ⟨hw2, hactive2.trans hactive1, fun k hk => ?_⟩
        rcases Nat.lt_succ_iff_lt_or_eq.mp hk with hk | rfl
        · obtain ⟨e, he⟩ := hstack1 k hk
          have hslot := stack_slot (n := k) (by omega)
          refine ⟨e, Spaces.step_page_entry hspaced hallowed hstep ?_ (by omega) he⟩
          rw [← hactive1]
          exact hspaced.sound.active
        · rw [← hactive1]
          exact hpage
      · rw [assert_fails hfree]
        trivial

/-- What `mmu_init` and `mmu_update_stack` leave. -/
def Spaces.stacked (boot : Boot) (w : Spaces) : Prop :=
  (∃ fuel s, mmu_init fuel boot = .ok s ∧ mmu_update_stack fuel s = .ok w.state) ∧
    w.dirs = [boot.orig_active_directory] ∧ ∀ a, ¬ w.live a

/-- What one request keeps of the stacks: a clone gets a copy. -/
theorem Spaces.step_stack {request : Request} (h : Spaced W w.dirs w.live usable w.state)
    (hall : w.allowed request) (hstep : w.step request = .ok w')
    (hstack : ∀ d ∈ w.dirs, HasStack w.state d 7) : ∀ d ∈ w'.dirs, HasStack w'.state d 7 := by
  have hold : ∀ d ∈ w.dirs, HasStack w'.state d 7 := by
    intro d hd k hk
    obtain ⟨e, he⟩ := hstack d hd k hk
    have hslot := stack_slot hk
    exact ⟨e, Spaces.step_page_entry h hall hstep hd (by omega) he⟩
  cases request with
  | clone fuel directory =>
    obtain ⟨⟨d', state⟩, h1, h2⟩ := bind_eq_ok.mp hstep
    cases h2
    have hclone := spec_of_ok (mmu_clone_directory.spec h.sound h.backed hall fuel) h1
    intro d hd k hk
    rcases List.mem_cons.mp hd with rfl | hd
    · obtain ⟨e, he⟩ := hstack directory hall k hk
      have hslot := stack_slot hk
      obtain ⟨e', he', -⟩ := h.copied_page hclone hall (by omega) he
      exact ⟨e', he'⟩
    · exact hold d hd k hk
  | ksbrk => obtain ⟨_, _, h2⟩ := bind_eq_ok.mp hstep; cases h2; exact hold
  | allocate_pt => obtain ⟨_, _, h2⟩ := bind_eq_ok.mp hstep; cases h2; exact hold
  | page => obtain ⟨_, _, h2⟩ := bind_eq_ok.mp hstep; cases h2; exact hold
  | map_frames => obtain ⟨_, _, h2⟩ := bind_eq_ok.mp hstep; cases h2; exact hold
  | unmap_frames => obtain ⟨_, _, h2⟩ := bind_eq_ok.mp hstep; cases h2; exact hold
  | set => cases hstep; exact hold
  | store => cases hstep; exact hold

theorem Spaces.stacked.reach (hw : Spaces.stacked boot w) :
    Spaces.Reachable boot w ∧ ∀ d ∈ w.dirs, HasStack w.state d 7 := by
  obtain ⟨⟨fuel, s, hinit, hcall⟩, hdirs, hlive⟩ := hw
  have hstart : Spaces.Reachable boot { w with state := s } := .start ⟨⟨fuel, hinit⟩, hdirs, hlive⟩
  obtain ⟨hreach, -, hstack⟩ :=
    spec_of_ok (stack_pages.spec hstart (Nat.le_refl 7)) hcall
  have hactive := hstart.spaced.sound.active
  refine ⟨hreach, fun d hd => ?_⟩
  dsimp only at hactive hstack
  rw [hdirs, List.mem_singleton] at hactive hd
  rw [hd, ← hactive]
  exact hstack

/-- As the pointers lead, each address space has a stack of its own. In every run behind `mmu_init`
and `mmu_update_stack`, all addresses of the stack have a page in each address space, and no
other page of any of them has its frame, but for pages that `mmu_map_frames` has mapped. -/
theorem every_task_has_a_stack_of_its_own (boot : Boot) (w : Spaces)
    (hw : Reach (Spaces.stacked boot) Spaces.allowed Spaces.step w) (d : Nat) (hd : d ∈ w.dirs)
    (a : Nat) (hlow : NEW_STACK - (stack_size - PAGE_SIZE) ≤ a) (hhigh : a < NEW_STACK) :
    ∃ e, page_entry w.state d a = some e ∧
      ∀ x ∈ w.dirs, ∀ b f, ¬ InDevice w.live b → page_entry w.state x b = some f →
        f / 0x1000 = e / 0x1000 → x = d ∧ b % 2 ^ 48 / 0x1000 = a % 2 ^ 48 / 0x1000 := by
  have hboth : Spaces.Reachable boot w ∧ ∀ d ∈ w.dirs, HasStack w.state d 7 := by
    refine Reach.invariant (fun w => Spaces.Reachable boot w ∧ ∀ d ∈ w.dirs, HasStack w.state d 7)
      (fun _ hs => hs.reach) ?_ hw
    intro w request w' hinv hall hstep
    exact ⟨hinv.1.next hall hstep, Spaces.step_stack hinv.1.spaced hall hstep hinv.2⟩
  obtain ⟨hreach, hstack⟩ := hboth
  have hspaced := hreach.spaced
  unfold NEW_STACK stack_size PAGE_SIZE at hlow
  unfold NEW_STACK at hhigh
  obtain ⟨k, hk, ho⟩ : ∃ k, k < 7 ∧ a = stack_page k + a % 0x1000 := by
    refine ⟨(NEW_STACK - 1 - a) / 0x1000, ?_, ?_⟩
    · unfold NEW_STACK
      omega
    · unfold stack_page NEW_STACK PAGE_SIZE
      omega
  obtain ⟨e, he⟩ := hstack d hd k hk
  have hpage : page_entry w.state d a = some e := by
    rw [ho, page_entry_low _ _ (stack_page_aligned k hk) (Nat.mod_lt _ (by decide))]
    exact he
  have hslot : pml4t_index a ≠ 511 := by
    have hindex := index_eq 3 a
    change pml4t_index a = _ at hindex
    omega
  refine ⟨e, hpage, fun x hx b f hnb hf hsame => ?_⟩
  obtain ⟨heq, hindex, hspace⟩ := hspaced.page_unique hx hd hnb
    (fun hdev => hslot (hspaced.device_slot hdev)) hf hpage hsame
  exact ⟨hspace.resolve_left (fun h511 => hslot (hindex.symm.trans h511)), heq⟩

/-! ## The stack on the small machine -/

/-- Behind `mmu_init` and `mmu_update_stack`, a clone. -/
def small_stacks : Result Bool := do
  let (_, _, s) ← ksbrk_physical 24 small_before 0
  let stacked ← mmu_update_stack 24 s
  let (d, cloned) ← mmu_clone_directory 24 stacked small_boot.orig_active_directory
  .ok (page_entry cloned d (NEW_STACK - 1)).isSome

set_option maxRecDepth 100000 in
theorem small_stacks_return :
    (match small_stacks with | .ok found => found | .error _ => false) = true := by
  decide +kernel

/-- What `mmu_init` and `mmu_update_stack` leave. -/
theorem Spaces.init_stacked (hinit : mmu_init fuel boot = .ok s)
    (hstack : mmu_update_stack fuel s = .ok s') :
    Spaces.stacked boot { Spaces.init boot s with state := s' } :=
  ⟨⟨fuel, s, hinit, hstack⟩, rfl, fun _ => id⟩

theorem a_clone_has_a_stack_of_its_own : ∃ s stacked d cloned,
    mmu_init 24 small_boot = .ok s ∧ mmu_update_stack 24 s = .ok stacked ∧
    mmu_clone_directory 24 stacked small_boot.orig_active_directory = .ok (d, cloned) ∧
    ∃ e, page_entry cloned d (NEW_STACK - 1) = some e ∧
      ∀ b f, page_entry cloned small_boot.orig_active_directory b = some f →
        f / 0x1000 = e / 0x1000 → small_boot.orig_active_directory = d := by
  have hreturn := small_stacks_return
  cases hcalls : small_stacks with
  | error e =>
    rw [hcalls] at hreturn
    cases hreturn
  | ok found =>
    unfold small_stacks at hcalls
    obtain ⟨⟨rc, physical, s⟩, h1, hcalls⟩ := bind_eq_ok.mp hcalls
    obtain ⟨stacked, h2, hcalls⟩ := bind_eq_ok.mp hcalls
    obtain ⟨⟨d, cloned⟩, h3, -⟩ := bind_eq_ok.mp hcalls
    have hinit : mmu_init 24 small_boot = .ok s := by
      rw [small_init, h1]
      rfl
    have hstart : Reach (Spaces.stacked small_boot) Spaces.allowed Spaces.step _ :=
      .start (Spaces.init_stacked hinit h2)
    have hcloned := hstart.next (i := .clone 24 _) (List.mem_singleton_self _)
      (Spaces.step_clone h3)
    obtain ⟨e, he, hown⟩ := every_task_has_a_stack_of_its_own small_boot _ hcloned d
      List.mem_cons_self (NEW_STACK - 1) (by decide) (by decide)
    refine ⟨s, stacked, d, cloned, hinit, h2, h3, e, he, fun b f hf hsame => ?_⟩
    refine (hown small_boot.orig_active_directory
      (List.mem_cons_of_mem _ (List.mem_singleton_self _)) b f ?_ hf hsame).1
    rintro ⟨v, hv, -⟩
    exact hv

end salsola.mmu
