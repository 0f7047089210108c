-- When the calls of the kernel on its page tables return: the page tables that are
-- missing find their frames, and room that the call does not need itself.
import Salsola.MmuFree

open memory outcome runs

namespace salsola.mmu

variable {W : Nat} {dirs : List Nat} {s s' : Mmu} {c n q v src length fuel : Nat} {boot : Boot}
  {w w' : World} {call : Call} {calls : List Call}

/-! ## Runs that go through -/

/-- The call after which the kernel goes on with the others. -/
def World.run (w : World) : List Call → Result World
  | [] => .ok w
  | call :: calls => do
    let w ← w.step call
    w.run calls

/-- What a call needs: its loops get turns enough, and the window and the bitmap have what it
draws on, where it draws on it. -/
def World.Provided (boot : Boot) (w : World) : Call → Prop
  | .ksbrk fuel length => WINDOW ≤ fuel ∧ ∃ q, Filled w.state boot.W q ∧
    if length = 0 then ∃ t, w.state.heap_end = window t ∧ t / 512 % 512 ≠ 511 ∧
      ∃ sp, (space w.state boot.W q).Opens (next_end t) sp
    else (space w.state boot.W q).Brings (turns length)
  | .map fuel _ length => WINDOW ≤ fuel ∧ ∃ q, Filled w.state boot.W q ∧
    (0 < turns length → (space w.state boot.W q).Maps (turns length))
  | .unmap _ _ => True

/-- Each call of a run finds what it needs. -/
def World.ProvidedAll (boot : Boot) (w : World) : List Call → Prop
  | [] => True
  | call :: calls => w.allowed call ∧ w.Provided boot call ∧
    ∀ w', w.step call = .ok w' → w'.ProvidedAll boot calls

/-- A call that finds what it needs returns. -/
theorem Reachable.step_returns (hw : Reachable boot w) (hall : w.allowed call)
    (hprovided : w.Provided boot call) : ∃ w', w.step call = .ok w' := by
  have hheld := hw.held
  have hs := hheld.sound
  cases call with
  | ksbrk fuel length =>
    obtain ⟨hfuel, q, hF, hneeds⟩ := hprovided
    have hreturns : ∃ r, ksbrk_physical fuel w.state length = .ok r := by
      by_cases hzero : length = 0
      · rw [if_pos hzero] at hneeds
        obtain ⟨t, ht, hlast, hopens⟩ := hneeds
        have hgo : Goes (fun _ => False) fuel (t / 512 % 512 ≠ 511 ∧
            ∃ sp, (space w.state boot.W q).Opens (next_end t) sp) := .inr ⟨hfuel, hlast, hopens⟩
        obtain ⟨r, hr, -⟩ := spec_returns (ksbrk_nothing hs hF ht hgo)
        rw [hzero]
        exact ⟨r, hr⟩
      · rw [if_neg hzero] at hneeds
        have hgo : Goes (fun _ => False) fuel
            ((space w.state boot.W q).Brings (turns length)) := .inr ⟨hfuel, hneeds⟩
        obtain ⟨r, hr, -⟩ := spec_returns (ksbrk_physical.exact hs hF (by omega) hgo)
        exact ⟨r, hr⟩
    obtain ⟨r, hr⟩ := hreturns
    unfold World.step ksbrk
    simp only [hr, ok_bind]
    exact ⟨_, rfl⟩
  | map fuel src length =>
    obtain ⟨hfuel, q, hF, hneeds⟩ := hprovided
    have hgo : Goes (fun _ => False) fuel
        (0 < turns length → (space w.state boot.W q).Maps (turns length)) := .inr ⟨hfuel, hneeds⟩
    obtain ⟨r, hr, -⟩ := spec_returns (mmu_map_frames.exact hs hF src hgo)
    unfold World.step
    simp only [hr, ok_bind]
    exact ⟨_, rfl⟩
  | unmap v length =>
    obtain ⟨s', hr⟩ := hheld.unmap_returns hall
    unfold World.step
    simp only [hr, ok_bind]
    exact ⟨_, rfl⟩

theorem Reachable.run_returns (hw : Reachable boot w) (hprovided : w.ProvidedAll boot calls) :
    ∃ w', w.run calls = .ok w' := by
  induction calls generalizing w with
  | nil => exact ⟨w, rfl⟩
  | cons call calls ih =>
    obtain ⟨hall, hprov, hrest⟩ := hprovided
    obtain ⟨w1, hstep⟩ := hw.step_returns hall hprov
    unfold World.run
    rw [hstep, ok_bind]
    exact ih (hw.next hall hstep) (hrest w1 hstep)

/-- From what `mmu_init` leaves, every sequence of calls goes through whose calls find what they
need: no search goes on forever, and no assertion fails. -/
theorem provided_calls_return (boot : Boot) (w : World) (hw : Starts boot w) (calls : List Call)
    (hprovided : w.ProvidedAll boot calls) : ∃ w', w.run calls = .ok w' :=
  have hstart : Reachable boot w := .start hw
  hstart.run_returns hprovided

/-- The last region crosses into a page table that is missing, and that goes to the gap. -/
theorem provided_calls_return_behind_a_gap :
    ∃ s w', mmu_init WINDOW small_boot = .ok s ∧
      World.run { state := s, live := fun _ => False } [.map WINDOW 0x5000 0x1000,
        .map WINDOW 0x5000 0x1000, .unmap (window 512) 0x1000, .map WINDOW 0x5000 0x1FF000] =
          .ok w' := by
  obtain ⟨s, w1, w2, w3, frames, hinit, ⟨hF, hsp⟩, hstep1, ⟨hF1, hsp1⟩, hstep2, hall, hstep3,
    ⟨hF3, hsp3⟩, hserve⟩ := small_gap
  have hmaps : (space s small_boot.W 2).Maps (turns 0x1000) := by
    rw [hsp]
    exact maps_since 512 2 frames (by decide) (by decide)
  have hmaps1 : (space w1.state small_boot.W 2).Maps (turns 0x1000) := by
    rw [hsp1]
    exact maps_since 513 2 frames (by decide) (by decide)
  have hmaps3 : (space w3.state small_boot.W 2).Maps (turns 0x1FF000) := by
    obtain ⟨last, hlast⟩ := Option.isSome_iff_exists.mp hserve
    cases served_of_serve hlast with
    | cons hget _ =>
      rw [hsp3]
      exact ⟨514, _, firstRun_gap (by decide),
        opens_gap (by decide) (by decide) (.cons hget (.nil _)), fun _ hk _ => hk⟩
  obtain ⟨w', hrun⟩ := provided_calls_return small_boot { state := s, live := fun _ => False }
    ⟨⟨WINDOW, hinit⟩, fun _ => id⟩ [.map WINDOW 0x5000 0x1000, .map WINDOW 0x5000 0x1000,
      .unmap (window 512) 0x1000, .map WINDOW 0x5000 0x1FF000] (by
    refine ⟨trivial, ⟨Nat.le_refl _, 2, hF, fun _ => hmaps⟩, fun w hw => ?_⟩
    obtain rfl := Except.ok.inj (hstep1.symm.trans hw)
    refine ⟨trivial, ⟨Nat.le_refl _, 2, hF1, fun _ => hmaps1⟩, fun w hw => ?_⟩
    obtain rfl := Except.ok.inj (hstep2.symm.trans hw)
    refine ⟨hall, trivial, fun w hw => ?_⟩
    obtain rfl := Except.ok.inj (hstep3.symm.trans hw)
    exact ⟨trivial, ⟨Nat.le_refl _, 2, hF3, fun _ => hmaps3⟩, fun _ _ => trivial⟩)
  exact ⟨s, w', hinit, hrun⟩

/-! ## A call that does not go through -/

/-- `mmu_map_frames` comes back only if the page tables that were missing for its region found
room below it. -/
theorem map_needs_room (h : Sound W dirs s) (hF : Filled s W q) (hn : 0 < turns length)
    (hrun : FirstRun (Free s W) (c + turns length) c (turns length))
    (hcall : mmu_map_frames fuel s src length = .ok (v, s')) : Room s W q c (turns length) := by
  obtain ⟨⟨v1, s1⟩, hsearch, hrest⟩ := bind_eq_ok.mp hcall
  obtain ⟨s2, hmap, -⟩ := bind_eq_ok.mp hrest
  obtain ⟨rfl, h1, hbelow, hiff⟩ := search_keeps_region h hF hn hrun hsearch
  have hready : Ready anyhow fuel s W (span q (c + turns length)) := Or.inl fun _ => trivial
  obtain ⟨-, -, hF1⟩ := spec_of_ok (search_exact h hF hn hrun hready) hsearch
  have hcovered : ∀ k, k < turns length → Covered s1 W ((c + k) / 512) := by
    intro k hk
    rw [hF1.covered]
    unfold cover
    omega
  have hmapped : Spec (map_pages (allocate_pt fuel) s1 (window c) src (turns length)) anyhow
      (fun s2 => Sound W dirs s2 ∧ Maps W s1 s2 c (turns length) src) :=
    map_covered (idle_allocate_pt fuel (Or.inl trivial)) h1 hcovered hbelow (Or.inl trivial)
  obtain ⟨-, hmaps⟩ := spec_of_ok hmapped hmap
  exact hiff.mp hmaps.unmapped

/-- With frames for all the page tables that it needs, the kernel does not map 513 pages that
start at the last page table there is: the next page table takes the first of them. -/
theorem mapping_fails_in_front_of_a_missing_table :
    ¬ ∀ (boot : Boot) (w : World) (_ : Reachable boot w) (src length : Nat),
      (∀ q c, Filled w.state boot.W q →
        FirstRun (Free w.state boot.W) (c + turns length) c (turns length) →
        Enough w.state.frames ((span q (c + turns length)).map Prod.snd)) →
      ∃ fuel v s', mmu_map_frames fuel w.state src length = .ok (v, s') := by
  intro h
  obtain ⟨s, frames, hinit, hsound, hfilled, hspace, hserve⟩ := small_boot_returns
  have hw : Reachable small_boot { state := s, live := fun _ => False } :=
    .start ⟨⟨WINDOW, hinit⟩, fun _ => id⟩
  have hn : 0 < turns 0x201000 := by decide
  obtain ⟨hrun, -⟩ := small_boot_search hsound hfilled hspace hserve hn (by decide)
  have hspan : span 2 (512 + turns 0x201000) = [(1024, 1)] := by decide
  have hframes : s.frames = frames := congrArg Space.frames hspace
  have henough : ∀ q c, Filled s small_boot.W q →
      FirstRun (Free s small_boot.W) (c + turns 0x201000) c (turns 0x201000) →
      Enough s.frames ((span q (c + turns 0x201000)).map Prod.snd) := by
    intro q c hq hc
    obtain rfl := hq.unique hfilled
    obtain rfl := hc.unique hrun
    rw [hspan, hframes]
    obtain ⟨last, hlast⟩ := Option.isSome_iff_exists.mp hserve
    cases served_of_serve hlast with
    | cons hget _ => exact ⟨_, _, hget, trivial⟩
  obtain ⟨fuel, v, s', hcall⟩ := h small_boot _ hw 0 0x201000 henough
  obtain ⟨left, hplaced⟩ := map_needs_room hsound hfilled hn hrun hcall
  rw [hspan] at hplaced
  cases hplaced with
  | @cons _ _ _ _ p _ hfirst _ =>
    have hfree : Free s small_boot.W = fun y => 512 ≤ y := congrArg Space.free hspace
    have hbelow := hfirst.below
    have hpage := hfirst.run p (le_refl p) (by omega)
    rw [hfree] at hpage
    omega

end salsola.mmu
