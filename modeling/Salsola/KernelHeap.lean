-- The heap on the page tables: the `ksbrk` that `kmalloc` asks is the one of mmu.c, and between
-- the calls of the clients of the heap the page tables serve other requests.
import Salsola.HeapRegions
import Salsola.MmuKept

open memory blocks outcome runs

namespace salsola.kernel

open mmu (Mmu Spaced Holds window WINDOW turns load store NUM_OF_FRAMES)
open heap (Region)

variable {W : Nat} {dirs : List Nat} {live usable : Nat → Prop} {s s' : Mmu} {fuel : Nat}
variable {base rs news : List Region} {p length x y : Nat}

/-! ## ksbrk for the heap -/

/-- The page tables after the calls of `ksbrk` that gave these regions, newest first. -/
def replay (fuel : Nat) (s : Mmu) : List Region → Option Mmu
  | [] => some s
  | (p, length) :: rs =>
    match replay fuel s rs with
    | none => none
    | some s =>
      match mmu.ksbrk fuel s length with
      | .ok (rc, s) => if rc = p ∧ 0 < length then some s else none
      | .error _ => none

/-- The regions that came behind `base`. -/
def newer (base rs : List Region) : List Region := rs.take (rs.length - base.length)

/-- What `ksbrk` gives, when the page tables were `s` with the regions `base`. The heap never
asks for the length 0. -/
def sbrk (fuel : Nat) (s : Mmu) (base : List Region) : heap.Sbrk := fun rs length =>
  if newer base rs ++ base = rs ∧ 0 < length then
    match replay fuel s (newer base rs) with
    | none => none
    | some s =>
      match mmu.ksbrk fuel s length with
      | .ok (rc, _) => some rc
      | .error _ => none
  else none

theorem newer_append (news base : List Region) : newer base (news ++ base) = news := by
  unfold newer
  rw [List.length_append, Nat.add_sub_cancel]
  exact List.take_left

theorem sbrk_some (h : sbrk fuel s base rs length = some p) :
    ∃ news s1 s2, rs = news ++ base ∧ 0 < length ∧ replay fuel s news = some s1 ∧
      mmu.ksbrk fuel s1 length = .ok (p, s2) := by
  unfold sbrk at h
  split at h
  · rename_i hcond
    split at h
    · cases h
    · rename_i s1 hs1
      split at h
      · rename_i rc s2 hs2
        obtain rfl := Option.some.inj h
        exact ⟨_, s1, s2, hcond.1.symm, hcond.2, hs1, hs2⟩
      · cases h
  · cases h

/-- The calls that the heap has made can be replayed. -/
theorem replays_of_asked (h : heap.Asked (sbrk fuel s base) base rs) :
    ∃ news s', rs = news ++ base ∧ replay fuel s news = some s' := by
  induction h with
  | none => exact ⟨[], s, rfl, rfl⟩
  | @more rs p length _ hask hp ih =>
    obtain ⟨news, s1, s2, rfl, hlen, hs1, hs2⟩ := sbrk_some hask
    refine ⟨(p, length) :: news, s2, rfl, ?_⟩
    unfold replay
    rw [hs1]
    dsimp only
    rw [hs2]
    exact if_pos ⟨rfl, hlen⟩

theorem replay_one (hcall : mmu.ksbrk fuel s length = .ok (p, s')) (hlen : 0 < length) :
    replay fuel s [(p, length)] = some s' := by
  unfold replay replay
  dsimp only
  rw [hcall]
  exact if_pos ⟨rfl, hlen⟩

/-! ## The pages of the heap -/

def page_number (p : Nat) : Nat := (p - mmu.KERNEL_VMA) / 0x1000

def region_pages (r : Region) : List Nat :=
  (List.range (turns r.2)).map (page_number r.1 + ·)

def pages (rs : List Region) : List Nat := rs.flatMap region_pages

/-- The regions lie on pages of the window, and each page belongs to one of them. -/
structure Grounds (W : Nat) (live : Nat → Prop) (s : Mmu) (rs : List Region) : Prop where
  starts : ∀ r ∈ rs, r.1 = window (page_number r.1) ∧ 0 < r.2
  holds : ∀ x ∈ pages rs, Holds W live s x
  nodup : (pages rs).Nodup

theorem mem_region_pages {r : Region} :
    x ∈ region_pages r ↔ ∃ k, k < turns r.2 ∧ x = page_number r.1 + k := by
  unfold region_pages
  simp only [List.mem_map, List.mem_range]
  exact ⟨fun ⟨k, hk, heq⟩ => ⟨k, hk, heq.symm⟩, fun ⟨k, hk, heq⟩ => ⟨k, hk, heq.symm⟩⟩

theorem mem_pages : x ∈ pages rs ↔ ∃ r ∈ rs, x ∈ region_pages r := by
  unfold pages
  exact List.mem_flatMap

theorem page_number_window (c : Nat) : page_number (window c) = c := by
  unfold page_number window
  omega

/-- An address of a region lies in one of its pages. -/
theorem Grounds.page_of (h : Grounds W live s rs) {r : Region} (hr : r ∈ rs) {a : Nat}
    (h1 : r.1 ≤ a) (h2 : a < r.1 + r.2) :
    ∃ x ∈ region_pages r, a / 0x1000 * 0x1000 = window x := by
  obtain ⟨hstart, -⟩ := h.starts r hr
  refine ⟨page_number r.1 + (a - r.1) / 0x1000, mem_region_pages.mpr ⟨_, ?_, rfl⟩, ?_⟩
  · unfold turns
    omega
  · generalize page_number r.1 = c at hstart ⊢
    unfold window mmu.KERNEL_VMA at *
    omega

/-- Two regions share no address. -/
theorem Grounds.apart (h : Grounds W live s ((p, length) :: rs)) :
    ∀ r ∈ rs, Apart (r.1, r.1 + r.2) (p, p + length) := by
  intro r hr
  by_contra hno
  unfold Apart at hno
  dsimp only at hno
  have hmem := List.mem_cons_of_mem (p, length) hr
  obtain ⟨-, hlen⟩ := h.starts _ List.mem_cons_self
  obtain ⟨-, hpos⟩ := h.starts r hmem
  dsimp only at hlen
  obtain ⟨a, h1, h2, h3, h4⟩ :
      ∃ a, p ≤ a ∧ a < p + length ∧ r.1 ≤ a ∧ a < r.1 + r.2 :=
    ⟨max p r.1, by omega, by omega, by omega, by omega⟩
  obtain ⟨x, hx, hax⟩ := h.page_of List.mem_cons_self h1 h2
  obtain ⟨y, hy, hay⟩ := h.page_of hmem h3 h4
  obtain rfl := mmu.window_inj (hax.symm.trans hay)
  have hnodup := h.nodup
  unfold pages at hnodup
  rw [List.flatMap_cons, List.nodup_append] at hnodup
  exact hnodup.2.2 x hx x (mem_pages.mpr ⟨r, hr, hy⟩) rfl

theorem region_bytes_le (rs : List Region) :
    heap.region_bytes rs ≤ 0x1000 * (pages rs).length := by
  induction rs with
  | nil => exact Nat.zero_le _
  | cons r rs ih =>
    obtain ⟨p, length⟩ := r
    have hregion : (region_pages (p, length)).length = turns length := by
      unfold region_pages
      rw [List.length_map, List.length_range]
    have hsplit : (pages ((p, length) :: rs)).length = turns length + (pages rs).length := by
      unfold pages
      rw [List.flatMap_cons, List.length_append, hregion]
    rw [heap.region_bytes_cons, hsplit]
    unfold turns
    omega

/-- There are as many pages as frames at most. -/
theorem Grounds.pages_le (h : Grounds W live s rs) (hs : Spaced W dirs live usable s)
    (hlow : ∀ f, usable f → f < NUM_OF_FRAMES * 64) :
    (pages rs).length ≤ NUM_OF_FRAMES * 64 := by
  have hword : ∀ x ∈ pages rs, mmu.present (s.pts (mmu.pt_of s W (x / 512)) (x % 512)) := by
    intro x hx
    have hm := (h.holds x hx).2.1
    unfold mmu.Mapped at hm
    rw [mmu.page_of_covered (h.holds x hx).2.1.covered] at hm
    exact hm
  have hinj : ∀ x ∈ pages rs, ∀ y ∈ pages rs,
      s.pts (mmu.pt_of s W (x / 512)) (x % 512) / 0x1000 =
        s.pts (mmu.pt_of s W (y / 512)) (y % 512) / 0x1000 → x = y := by
    intro x hx y hy hsame
    obtain ⟨h1, h2⟩ := hs.owned _ _ _ _ (hword x hx) ((h.holds x hx).no_device hs)
      (hword y hy) ((h.holds y hy).no_device hs) hsame
    exact mmu.page_slot_inj hs.sound (h.holds x hx).2.1.covered (h.holds y hy).2.1.covered h1 h2
  have hframes : (pages rs).map (fun x => s.pts (mmu.pt_of s W (x / 512)) (x % 512) / 0x1000) ⊆
      List.range (NUM_OF_FRAMES * 64) := by
    intro f hf
    obtain ⟨x, hx, rfl⟩ := List.mem_map.mp hf
    rw [List.mem_range]
    exact hlow _ (hs.frame _ _ (hword x hx) ((h.holds x hx).no_device hs))
  have hnodup := h.nodup.map_on hinj
  have hle := (hnodup.subperm hframes).length_le
  rw [List.length_map, List.length_range] at hle
  exact hle

/-- Bytes in the frames make no difference to the pages. -/
theorem Grounds.bytes (h : Grounds W live s rs) (ram : Mem) (seed : Seed) :
    Grounds W live { s with ram, seed } rs := ⟨h.starts, h.holds, h.nodup⟩

/-! ## Calls of ksbrk -/

/-- `ksbrk` gives the heap pages that no region has. -/
theorem Grounds.ksbrk (h : Grounds W live s rs) (hs : Spaced W dirs live usable s)
    (hlen : 0 < length) (hcall : mmu.ksbrk fuel s length = .ok (p, s')) :
    Spaced W dirs live usable s' ∧ Grounds W live s' ((p, length) :: rs) ∧
      s'.directories = s.directories ∧ s'.active_directory = s.active_directory := by
  obtain ⟨⟨rc, phys, s1⟩, h1, h2⟩ := bind_eq_ok.mp hcall
  cases h2
  have hext := spec_of_ok (mmu.ksbrk_physical.spec hs.sound fuel length) h1
  obtain ⟨c, rfl, -, hbelow, -, hpages⟩ := hext.region (mmu.turns_pos hlen)
  have hg := hext.makes.grows
  have hnew : ∀ x ∈ region_pages (window c, length), ∃ k, k < turns length ∧ x = c + k := by
    intro x hx
    have hk := mem_region_pages.mp hx
    rw [page_number_window] at hk
    exact hk
  refine ⟨hs.makes hext.sound hext.makes.toMakes, ⟨?_, ?_, ?_⟩, hext.makes.directories,
    hext.makes.active⟩
  · intro r hr
    rcases List.mem_cons.mp hr with rfl | hr
    · exact ⟨by rw [page_number_window], hlen⟩
    · exact h.starts r hr
  · intro x hx
    obtain ⟨r, hr, hxr⟩ := mem_pages.mp hx
    rcases List.mem_cons.mp hr with rfl | hr
    · obtain ⟨k, hk, rfl⟩ := hnew x hxr
      refine ⟨by omega, (hpages k hk).2, fun hlive => (hpages k hk).1 ?_, hext.bare c k rfl hk⟩
      obtain ⟨y, hy, -, hm, -⟩ := hs.devices _ hlive
      exact mmu.window_inj hy ▸ hm
    · obtain ⟨hlt, hm, hno, hbare⟩ := h.holds x (mem_pages.mpr ⟨r, hr, hxr⟩)
      exact ⟨hlt, hg.mapped hm, hno, hg.not_table hm hbare⟩
  · unfold pages
    rw [List.flatMap_cons, List.nodup_append]
    refine ⟨?_, h.nodup, ?_⟩
    · exact List.nodup_range.map (fun _ _ heq => Nat.add_left_cancel heq)
    · rintro x hx y hy rfl
      obtain ⟨k, hk, rfl⟩ := hnew x hx
      exact (hpages k hk).1 (h.holds _ hy).2.1

theorem Grounds.replay (h : Grounds W live s base) (hs : Spaced W dirs live usable s)
    (hcalls : replay fuel s news = some s') :
    Spaced W dirs live usable s' ∧ Grounds W live s' (news ++ base) ∧
      s'.directories = s.directories ∧ s'.active_directory = s.active_directory := by
  induction news generalizing s' with
  | nil =>
    obtain rfl := Option.some.inj hcalls
    exact ⟨hs, h, rfl, rfl⟩
  | cons r news ih =>
    obtain ⟨p, length⟩ := r
    unfold kernel.replay at hcalls
    split at hcalls
    · cases hcalls
    · rename_i s1 hs1
      obtain ⟨hspaced, hgrounds, hdirs, hactive⟩ := ih hs1
      split at hcalls
      · rename_i rc s2 hs2
        split at hcalls
        · rename_i hcond
          obtain rfl := Option.some.inj hcalls
          obtain ⟨rfl, hlen⟩ := hcond
          obtain ⟨h1, h2, h3, h4⟩ := hgrounds.ksbrk hspaced hlen hs2
          exact ⟨h1, h2, h3.trans hdirs, h4.trans hactive⟩
        · cases hcalls
      · cases hcalls

/-- The `ksbrk` of mmu.c is one that the heap can use. -/
theorem sbrk_fresh (h : Grounds W live s base) (hs : Spaced W dirs live usable s)
    (hlow : ∀ f, usable f → f < NUM_OF_FRAMES * 64) : heap.Fresh (sbrk fuel s base) := by
  intro rs length p hp
  obtain ⟨news, s1, s2, rfl, hlen, hs1, hs2⟩ := sbrk_some hp
  obtain ⟨hspaced1, hgrounds1, -⟩ := h.replay hs hs1
  obtain ⟨hspaced2, hgrounds2, -⟩ := hgrounds1.ksbrk hspaced1 hlen hs2
  obtain ⟨hstart, -⟩ := hgrounds2.starts _ List.mem_cons_self
  have hlast := (hgrounds2.holds _ (mem_pages.mpr ⟨_, List.mem_cons_self, mem_region_pages.mpr
    ⟨turns length - 1, by have := mmu.turns_pos hlen; dsimp only; omega, rfl⟩⟩)).1
  dsimp only at hstart hlast
  have hbytes := region_bytes_le ((p, length) :: (news ++ base))
  have hcount := hgrounds2.pages_le hspaced2 hlow
  rw [heap.region_bytes_cons] at hbytes
  refine ⟨?_, ?_, hgrounds2.apart, ?_⟩
  · rw [hstart]
    exact mmu.window_pos _
  · generalize page_number p = c at hstart hlast
    unfold window mmu.KERNEL_VMA at hstart
    unfold WINDOW turns at hlast
    omega
  · unfold NUM_OF_FRAMES at hcount
    omega

/-! ## The bytes of the heap -/

/-- The byte at an address, where the CPU finds it, and 0 where it finds none. -/
def seen (s : Mmu) : Mem := fun a => (load s s.active_directory a).getD 0

/-- The CPU stores the bytes of `mem` at these addresses. -/
def put (mem : Mem) (s : Mmu) : List Nat → Result Mmu
  | [] => .ok s
  | a :: as =>
    match store s s.active_directory a (mem a) with
    | none => .error .fault
    | some s => put mem s as

def addresses (rs : List Region) : List Nat := rs.flatMap fun r => List.range' r.1 r.2

theorem mem_addresses {a : Nat} : a ∈ addresses rs ↔ ∃ r ∈ rs, r.1 ≤ a ∧ a < r.1 + r.2 := by
  unfold addresses
  simp only [List.mem_flatMap, List.mem_range'_1]

/-- Each address of a region lies in a page of the heap. -/
theorem Grounds.page_of_address (h : Grounds W live s rs) {a : Nat} (ha : a ∈ addresses rs) :
    ∃ x, Holds W live s x ∧ a / 0x1000 * 0x1000 = window x := by
  obtain ⟨r, hr, h1, h2⟩ := mem_addresses.mp ha
  obtain ⟨x, hx, hax⟩ := h.page_of hr h1 h2
  exact ⟨x, h.holds x (mem_pages.mpr ⟨r, hr, hx⟩), hax⟩

/-- In pages of the window the CPU finds each byte, and no two addresses share one. -/
theorem put.spec (h : Spaced W dirs live usable s) (mem : Mem) {as : List Nat}
    (has : ∀ a ∈ as, ∃ x, Holds W live s x ∧ a / 0x1000 * 0x1000 = window x) :
    ∃ ram, put mem s as = .ok { s with ram } ∧
      ∀ b ∈ as, load { s with ram } s.active_directory b = some (mem b) := by
  -- what is stored early stays, as the later bytes have other places
  suffices hall : ∃ ram, put mem s as = .ok { s with ram } ∧
      ∀ b y, Holds W live s y → b / 0x1000 * 0x1000 = window y →
        load { s with ram } s.active_directory b =
          if b ∈ as then some (mem b) else load s s.active_directory b by
    obtain ⟨ram, hput, hload⟩ := hall
    refine ⟨ram, hput, fun b hb => ?_⟩
    obtain ⟨y, hy, hby⟩ := has b hb
    rw [hload b y hy hby, if_pos hb]
  induction as generalizing s with
  | nil => exact ⟨s.ram, rfl, fun b y _ _ => by rw [if_neg (List.not_mem_nil)]⟩
  | cons a as ih =>
    obtain ⟨x, hx, hax⟩ := has a List.mem_cons_self
    have hd := h.sound.active
    have hplace := hx.place h hd hax
    obtain ⟨ram1, hstore⟩ :
        ∃ ram1, store s s.active_directory a (mem a) = some { s with ram := ram1 } := by
      unfold store
      rw [hplace]
      exact ⟨_, rfl⟩
    obtain ⟨s1, hs1⟩ : ∃ s1, s1 = { s with ram := ram1 } := ⟨_, rfl⟩
    rw [← hs1] at hstore
    have h1 : Spaced W dirs live usable s1 := hs1 ▸ h.store _
    have hholds : ∀ y, Holds W live s y → Holds W live s1 y := by
      rw [hs1]
      exact fun y hy => hy
    obtain ⟨ram, hput, hload⟩ := ih h1 (fun b hb =>
      have ⟨y, hy, hby⟩ := has b (List.mem_cons_of_mem _ hb)
      ⟨y, hholds y hy, hby⟩)
    have hrest : { s1 with ram } = { s with ram } ∧ s1.active_directory = s.active_directory := by
      rw [hs1]
      exact ⟨rfl, rfl⟩
    rw [hrest.1] at hput hload
    rw [hrest.2] at hload
    refine ⟨ram, ?_, fun b y hy hby => ?_⟩
    · unfold put
      rw [hstore]
      exact hput
    · have hat := h.load_store hd hd (hx.not_in_device h hax) (hy.not_in_device h hby)
        (h.named hd (mmu.window_slot hx.1 hax)) (h.named hd (mmu.window_slot hy.1 hby)) hstore
      have hsame : a % 2 ^ 48 = b % 2 ^ 48 ↔ b = a := by
        have h2 := hx.1
        have h3 := hy.1
        unfold window mmu.KERNEL_VMA WINDOW at *
        omega
      rw [hload b y (hholds y hy) hby, hat]
      by_cases hb : b ∈ as
      · rw [if_pos hb, if_pos (List.mem_cons_of_mem _ hb)]
      · rw [if_neg hb]
        by_cases hba : b = a
        · rw [if_pos ⟨hsame.mpr hba, Or.inr rfl⟩, if_pos (hba ▸ List.mem_cons_self), hba]
        · rw [if_neg (fun hc => hba (hsame.mp hc.1)), if_neg (by simp [hba, hb])]

end salsola.kernel
