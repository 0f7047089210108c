-- The memory that runs in the address spaces, as the CPU finds it: below the slot 511 each has
-- bytes of its own, and the bytes of the slot 511 are shared.
import Salsola.MmuIsolation

open memory outcome runs

namespace salsola.mmu

variable {W : Nat} {dirs : List Nat} {live usable : Nat → Prop} {s s' : Mmu} {boot : Boot}
variable {a b d e p x : Nat} {v : UInt8}

/-! ## Bytes at addresses -/

/-- Where the CPU finds the byte of an address, when it runs in the address space `d`, whose PML4T
is in CR3 then. A frame with the entries of a table is no place for it: the tables are not in
`ram`, and a store there makes other translations. -/
def place (s : Mmu) (d a : Nat) : Option Nat :=
  match hardware_walk s (s.directories d).physical a with
  | none => none
  | some p => if (s.placed (page_base p)).isSome then none else some p

/-- The byte at an address of the address space `d`. -/
def load (s : Mmu) (d a : Nat) : Option UInt8 := (place s d a).map s.ram

/-- A byte is stored there. -/
def store (s : Mmu) (d a : Nat) (v : UInt8) : Option Mmu :=
  (place s d a).map fun p => { s with ram := Function.update s.ram p v }

/-- Where the entries on the way name the tables that the pointers lead to, the place is in the
page that the pointers lead to. -/
theorem place_eq_some (hroot : s.placed (s.directories d).physical = some (root s d))
    (h : Named s (root s d) a) : place s d a = some p ↔ ∃ e, page_entry s d a = some e ∧
      s.placed (page_base e) = none ∧ p = page_base e + a % 0x1000 := by
  unfold place
  rw [walk_entry hroot h]
  cases hpage : page_entry s d a with
  | none =>
    simp only [Option.map_none]
    constructor
    · intro hnone
      cases hnone
    · rintro ⟨e, he, -⟩
      cases he
  | some e =>
    have hbase : page_base (page_base e + a % 0x1000) = page_base e := by
      unfold page_base
      omega
    simp only [Option.map_some, hbase]
    cases hplaced : s.placed (page_base e) with
    | none =>
      rw [if_neg (by simp)]
      constructor
      · intro hp
        exact ⟨e, rfl, hplaced, (Option.some.inj hp).symm⟩
      · rintro ⟨e', he', -, rfl⟩
        obtain rfl := Option.some.inj he'
        rfl
    | some t =>
      rw [if_pos (by simp)]
      constructor
      · intro hnone
        cases hnone
      · rintro ⟨e', he', hno, -⟩
        obtain rfl := Option.some.inj he'
        rw [hplaced] at hno
        cases hno

/-- The hardware ignores the upper bits of an address. -/
theorem page_entry_congr (s : Mmu) (d : Nat) (h : a % 2 ^ 48 = b % 2 ^ 48) :
    page_entry s d a = page_entry s d b := by
  have hindex : ∀ level, level < 4 → index level a = index level b := by
    intro level hlevel
    rw [index_eq, index_eq]
    rcases (by omega : level = 0 ∨ level = 1 ∨ level = 2 ∨ level = 3) with rfl | rfl | rfl | rfl <;>
      omega
  have h3 : pml4t_index a = pml4t_index b := hindex 3 (by decide)
  have h2 : pdpt_index a = pdpt_index b := hindex 2 (by decide)
  have h1 : pdt_index a = pdt_index b := hindex 1 (by decide)
  have h0 : pt_index a = pt_index b := hindex 0 (by decide)
  unfold page_entry
  rw [h3, h2, h1, h0]

/-- Bytes in the frames make no difference to the way. -/
theorem place_ram (hroot : s.placed (s.directories d).physical = some (root s d))
    (h : Named s (root s d) a) (ram : Mem) : place { s with ram } d a = place s d a := by
  apply Option.ext
  intro p
  have hroot' : ({ s with ram } : Mmu).placed (s.directories d).physical =
      some (root { s with ram } d) := hroot
  have h' : Named { s with ram } (root { s with ram } d) a := h
  rw [place_eq_some hroot' h', place_eq_some hroot h]
  rfl

/-- The pages of tables are none that `mmu_map_frames` has mapped. -/
theorem Spaced.table_not_live (h : Spaced W dirs live usable s) (hp : s.placed p = some a) :
    ¬ live a := by
  intro hv
  obtain ⟨x, rfl, -, -, hno⟩ := h.devices _ hv
  exact hno ⟨p, hp⟩

/-- A page below the slot 511 holds no table. -/
theorem Spaced.no_table (h : Spaced W dirs live usable s) (hd : d ∈ dirs)
    (ha : pml4t_index a ≠ 511) (he : page_entry s d a = some e) :
    s.placed (page_base e) = none := by
  cases hplaced : s.placed (page_base e) with
  | none => rfl
  | some t =>
    obtain ⟨x, hx, rfl, hm, hbase⟩ := (h.sound.home _ _ hplaced).at_page
    have hna : ¬ InDevice live a := fun hdev => ha (h.device_slot hdev)
    have hlive : ¬ live (window x) := h.table_not_live hplaced
    have hpage : page_entry s d (window x) = some (page s W x) := by
      have hc := hm.covered
      unfold Mapped at hm
      rw [page_of_covered hc] at hm ⊢
      refine page_entry_eq_some.mpr ⟨pt_of s W (x / 512), ?_, ?_, hm⟩
      · rw [pml4t_index_window hx, pdpt_index_window hx, pdt_index_window]
        exact ⟨_, _, (h.sound.roots d hd).2.1, hc.links.1, hc.links.2⟩
      · rw [pt_index_window]
    have hnb : ¬ InDevice live (window x) := by
      rintro ⟨v, hv, hsame⟩
      obtain ⟨y, rfl, hy, -⟩ := h.devices v hv
      obtain rfl : y = x := by
        unfold window KERNEL_VMA WINDOW at *
        omega
      exact hlive hv
    have hsame : e / 0x1000 = page s W x / 0x1000 := by
      unfold page_base at hbase
      omega
    obtain ⟨-, hindex, -⟩ := h.page_unique hd hd hna hnb he hpage hsame
    exact absurd (hindex.trans (pml4t_index_window hx)) ha

/-- What a store does to a load, where the entries on both ways name the tables that the pointers
lead to. -/
theorem Spaced.load_store (h : Spaced W dirs live usable s) (hd : d ∈ dirs) (hx : x ∈ dirs)
    (hna : ¬ InDevice live a) (hnb : ¬ InDevice live b) (hga : Named s (root s d) a)
    (hgb : Named s (root s x) b) (hstore : mmu.store s d a v = some s') :
    load s' x b = if a % 2 ^ 48 = b % 2 ^ 48 ∧ (pml4t_index a = 511 ∨ d = x) then some v
      else load s x b := by
  have hroot := (h.sound.roots d hd).2.2
  have hroot' := (h.sound.roots x hx).2.2
  obtain ⟨p, hp, rfl⟩ := Option.map_eq_some_iff.mp hstore
  obtain ⟨e, he, hbare, hpe⟩ := (place_eq_some hroot hga).mp hp
  unfold load
  rw [place_ram hroot' hgb]
  by_cases hcond : a % 2 ^ 48 = b % 2 ^ 48 ∧ (pml4t_index a = 511 ∨ d = x)
  · obtain ⟨hab, hspace⟩ := hcond
    rw [if_pos ⟨hab, hspace⟩]
    have hb : page_entry s x b = some e := by
      rw [← page_entry_congr s x hab]
      rcases hspace with h511 | rfl
      · rw [← h.sound.window_entry hd hx h511]
        exact he
      · exact he
    have hpb : p = page_base e + b % 0x1000 := by omega
    rw [(place_eq_some hroot' hgb).mpr ⟨e, hb, hbare, hpb⟩, Option.map_some]
    exact congrArg some (Function.update_self _ _ _)
  · rw [if_neg hcond]
    cases hq : place s x b with
    | none => rfl
    | some q =>
      obtain ⟨e', hb, -, hqe⟩ := (place_eq_some hroot' hgb).mp hq
      rw [Option.map_some, Option.map_some]
      -- two addresses on one byte are on one page, so they are one address
      have hne : q ≠ p := by
        intro heq
        have hframe : e / 0x1000 = e' / 0x1000 ∧ a % 0x1000 = b % 0x1000 := by
          unfold page_base at hpe hqe
          omega
        obtain ⟨hab, -, hspace⟩ := h.page_unique hd hx hna hnb he hb hframe.1
        exact hcond ⟨by omega, hspace⟩
      exact congrArg some (Function.update_of_ne hne _ _)

/-- A store is seen at its address alone: in its own address space below the slot 511, and in
each one above. This is what the CPU finds in every run in which no directory is cloned that has
a PDT below its slot 511, and for addresses in that slot in every run, for all pages that
`mmu_map_frames` has not mapped. Below the slot 511 every page takes a store. -/
theorem a_store_is_seen_in_its_place (boot : Boot) (w : Spaces) (hw : Spaces.Reachable boot w)
    (d : Nat) (hd : d ∈ w.dirs) (a : Nat) (hna : ¬ InDevice w.live a) (v : UInt8) :
    (Reach (Spaces.starts boot) Spaces.spared Spaces.step w → pml4t_index a ≠ 511 →
      (page_entry w.state d a).isSome = true → (store w.state d a v).isSome = true) ∧
    ∀ s', store w.state d a v = some s' → ∀ x ∈ w.dirs, ∀ b, ¬ InDevice w.live b →
      Reach (Spaces.starts boot) Spaces.spared Spaces.step w ∨
        (pml4t_index a = 511 ∧ pml4t_index b = 511) →
      load s' x b = if a % 2 ^ 48 = b % 2 ^ 48 ∧ (pml4t_index a = 511 ∨ d = x) then some v
        else load w.state x b := by
  have hspaced := hw.spaced
  constructor
  · intro hspared ha hpage
    obtain ⟨-, hagreed⟩ := spared_agreed hspared
    obtain ⟨e, he⟩ := Option.isSome_iff_exists.mp hpage
    have hplace := (place_eq_some (hspaced.sound.roots d hd).2.2 (hagreed.named _ a)).mpr
      ⟨e, he, hspaced.no_table hd ha he, rfl⟩
    unfold store
    rw [hplace]
    rfl
  · intro s' hstore x hx b hnb hcpu
    have hnamed : Named w.state (root w.state d) a ∧ Named w.state (root w.state x) b := by
      rcases hcpu with hspared | ⟨ha, hb⟩
      · obtain ⟨-, hagreed⟩ := spared_agreed hspared
        exact ⟨hagreed.named _ a, hagreed.named _ b⟩
      · exact ⟨hspaced.named hd ha, hspaced.named hx hb⟩
    exact hspaced.load_store hd hx hna hnb hnamed.1 hnamed.2 hstore

/-- A clone of the empty address space, and then a page at address 0 of the original. -/
def small_stores : Result Bool := do
  let (_, _, s) ← ksbrk_physical 24 small_before 0
  let (d, cloned) ← mmu_clone_directory 24 s small_boot.orig_active_directory
  let (_, _, mapped) ← check_virtual_region_is_free (allocate_pt 24) cloned 0 true false 0
  .ok ((place mapped small_boot.orig_active_directory 0).isSome &&
    (place mapped d KERNEL_VMA).isSome)

set_option maxRecDepth 100000 in
theorem small_stores_return :
    (match small_stores with | .ok found => found | .error _ => false) = true := by
  decide +kernel

/-- All of these calls return. -/
theorem small_boot_stores : ∃ s d cloned free physical mapped, mmu_init 24 small_boot = .ok s ∧
    mmu_clone_directory 24 s small_boot.orig_active_directory = .ok (d, cloned) ∧
    check_virtual_region_is_free (allocate_pt 24) cloned 0 true false 0 =
      .ok (free, physical, mapped) ∧
    (place mapped small_boot.orig_active_directory 0).isSome = true ∧
    (place mapped d KERNEL_VMA).isSome = true := by
  have hreturn := small_stores_return
  cases hcalls : small_stores with
  | error e =>
    rw [hcalls] at hreturn
    cases hreturn
  | ok found =>
    rw [hcalls] at hreturn
    unfold small_stores at hcalls
    obtain ⟨⟨rc, physical, s⟩, h1, hcalls⟩ := bind_eq_ok.mp hcalls
    obtain ⟨⟨d, cloned⟩, h2, hcalls⟩ := bind_eq_ok.mp hcalls
    obtain ⟨⟨free, q, mapped⟩, h3, hcalls⟩ := bind_eq_ok.mp hcalls
    have hboth := (Except.ok.inj hcalls).trans hreturn
    rw [Bool.and_eq_true] at hboth
    refine ⟨s, d, cloned, free, q, mapped, ?_, h2, h3, hboth⟩
    rw [small_init, h1]
    rfl

/-- A store at address 0 that the clone does not see, and one of the clone to the kernel's memory,
which the original sees. -/
theorem a_store_to_the_kernel_is_seen_in_a_clone : ∃ w d,
    Reach (Spaces.starts small_boot) Spaces.spared Spaces.step w ∧
    w.dirs = [d, small_boot.orig_active_directory] ∧
    (∃ s', store w.state small_boot.orig_active_directory 0 7 = some s' ∧
      load s' small_boot.orig_active_directory 0 = some 7 ∧ load s' d 0 = load w.state d 0) ∧
    ∃ s', store w.state d KERNEL_VMA 7 = some s' ∧
      load s' small_boot.orig_active_directory KERNEL_VMA = some 7 := by
  obtain ⟨s, d, cloned, free, q, mapped, hinit, hclone, hmap, h1, h2⟩ := small_boot_stores
  have hcloned := Spaces.first_clone hinit hclone
  have hallowed : Spaces.spared { Spaces.init small_boot s with
      state := cloned, dirs := [d, small_boot.orig_active_directory] } (.page 24 0) :=
    ⟨trivial, fun _ _ heq => by cases heq⟩
  have hmapped := hcloned.next hallowed (Spaces.step_page hmap)
  have hreach := hmapped.weaken (fun _ _ hspared => hspared.1)
  have hno : ∀ a, ¬ InDevice (fun _ => False) a := fun _ ⟨_, hv, _⟩ => hv
  have horig : small_boot.orig_active_directory ∈ [d, small_boot.orig_active_directory] :=
    List.mem_cons_of_mem _ (List.mem_singleton_self _)
  have hne : small_boot.orig_active_directory ≠ d := by
    rintro heq
    have hspaced := (spec_of_ok (mmu_init.spaced 24 small_boot) hinit).1
    exact (spec_of_ok (mmu_clone_directory.spec hspaced.sound hspaced.backed
      (List.mem_singleton_self _) 24) hclone).new (heq ▸ List.mem_singleton_self _)
  obtain ⟨p, hp⟩ := Option.isSome_iff_exists.mp h1
  obtain ⟨p', hp'⟩ := Option.isSome_iff_exists.mp h2
  have hlow := (a_store_is_seen_in_its_place small_boot _ hreach _ horig 0 (hno 0) 7).2
    _ (congrArg (Option.map _) hp)
  have hhigh := (a_store_is_seen_in_its_place small_boot _ hreach d List.mem_cons_self
    KERNEL_VMA (hno _) 7).2 _ (congrArg (Option.map _) hp')
  refine ⟨_, d, hmapped, rfl, ⟨_, congrArg (Option.map _) hp, ?_, ?_⟩,
    _, congrArg (Option.map _) hp', ?_⟩
  · rw [hlow _ horig 0 (hno 0) (Or.inl hmapped)]
    exact if_pos ⟨rfl, Or.inr rfl⟩
  · rw [hlow d List.mem_cons_self 0 (hno 0) (Or.inl hmapped)]
    refine if_neg ?_
    rintro ⟨-, h511 | heq⟩
    · exact absurd h511 (by decide)
    · exact hne heq
  · rw [hhigh _ horig KERNEL_VMA (hno _) (Or.inl hmapped)]
    exact if_pos ⟨rfl, Or.inl (by decide)⟩

end salsola.mmu
