-- Runs of the heap: the calls of the clients in any order, with stores of the clients to
-- their own payloads in between. The heap stays laid out, it keeps the data of the clients,
-- and it forgets bytes in a few places only.
import Salsola.HeapMoves

open memory blocks outcome

namespace salsola.heap

/-- Requests are below this. -/
def LIMIT : Nat := 2 ^ 32 - 24

structure World where
  now : Heap
  /-- The size last requested for each live pointer. -/
  live : Nat → Option Nat

inductive Call
  | kmalloc (s : Nat)
  | kfree (p : Nat)
  | krealloc (p s : Nat)
  | kcalloc (nelem elsize : Nat)
  | krecalloc (p nelem elsize : Nat)
  /-- A client stores a byte. -/
  | store (x : Nat) (v : UInt8)

/-- The pointer passed in, and 0 when there is none. -/
def Call.arg : Call → Nat
  | .kfree p => p
  | .krealloc p _ => p
  | .krecalloc p _ _ => p
  | _ => 0

/-- After a call that gave `rc` for `s` bytes in the place of `p`. -/
def World.gave (w : World) (h : Heap) (p rc s : Nat) : World where
  now := h
  live := if rc = 0 then w.live else Function.update (Function.update w.live p none) rc (some s)

def World.step (ksbrk : Sbrk) (w : World) : Call → Result World
  | .kmalloc s => do
    let (rc, h) ← heap.kmalloc ksbrk w.now s
    .ok (w.gave h 0 rc s)
  | .kfree p => do
    let h ← heap.kfree w.now p
    .ok { now := h, live := Function.update w.live p none }
  | .krealloc p s => do
    let (rc, h) ← heap.krealloc ksbrk w.now p s
    .ok (w.gave h p rc s)
  | .kcalloc nelem elsize => do
    let (rc, h) ← heap.kcalloc ksbrk w.now nelem elsize
    .ok (w.gave h 0 rc (nelem * elsize))
  | .krecalloc p nelem elsize => do
    let (rc, h) ← heap.krecalloc ksbrk w.now p nelem elsize
    .ok (w.gave h p rc (nelem * elsize))
  | .store x v =>
    .ok { w with now := { w.now with mem := Function.update w.now.mem x v } }

/-- `p` is NULL or a live pointer. -/
def World.Holds (w : World) (p : Nat) : Prop := p = 0 ∨ ∃ n, w.live p = some n

/-- Requests are below the limit, pointers are live, and stores go to payloads. -/
def World.Allows (w : World) : Call → Prop
  | .kmalloc s => s < LIMIT
  | .kfree p => w.Holds p
  | .krealloc p s => w.Holds p ∧ s < LIMIT
  | .kcalloc nelem elsize => nelem * elsize < LIMIT
  | .krecalloc p nelem elsize => w.Holds p ∧ nelem * elsize < LIMIT
  | .store x _ => ∃ p n, w.live p = some n ∧ p ≤ x ∧ x < p + n

/-- A heap that no one has called yet. -/
def Unused (h : Heap) : Prop := h.head = 0 ∧ h.final = 0 ∧ h.regions = []

/-- No pointer is live, and the heap is unused or as `kmalloc_init` leaves it. -/
def Starts (ksbrk : Sbrk) (w : World) : Prop :=
  (∀ p, w.live p = none) ∧
    (Unused w.now ∨ ∃ h, Unused h ∧ kmalloc_init ksbrk h = .ok (true, w.now))

/-- The worlds that calls reach. -/
abbrev Run (ksbrk : Sbrk) : World → Prop := Reach (Starts ksbrk) World.Allows (World.step ksbrk)

/-! ## One step -/

/-- The heap is good, and its blocks in use are the live pointers. -/
structure World.Good (w : World) : Prop where
  laid : ∃ arenas, heap.Good w.now arenas w.now.blocks
  live : Matches w.live w.now.blocks

/-- The heap is in the bytes of its regions, and no other byte is. -/
theorem Good.congr {h h' : Heap} {arenas : List Arena} {bs : List Block}
    (hg : heap.Good h arenas bs) (hmem : ∀ r ∈ h.regions, Agree h.mem h'.mem r.1 (r.1 + r.2))
    (hhead : h'.head = h.head) (hfinal : h'.final = h.final) (hregs : h'.regions = h.regions) :
    heap.Good h' arenas bs := by
  have hagree : ∀ b ∈ bs, Agree h.mem h'.mem b.addr (b.addr + HEADER) := by
    intro b hb x h1 h2
    obtain ⟨lo, hi, hA, h3, h4⟩ := hg.laid.inside b hb
    rw [Block.stop_eq] at h4
    obtain ⟨r, hr, h5, h6⟩ := hg.built.covered _ (List.mem_of_getElem? hA) x
      (by dsimp only; omega) (by dsimp only; omega)
    exact hmem r hr x h5 h6
  exact
    { chain := hhead ▸ hg.chain.congr hagree
      final := hfinal.trans hg.final
      laid := hg.laid
      built := hregs ▸ hg.built
      spots := hg.spots
      fits := hregs ▸ hg.fits
      small := hregs ▸ hg.small }

theorem World.Good.congr {w w' : World} (hw : w.Good)
    (hmem : ∀ r ∈ w.now.regions, Agree w.now.mem w'.now.mem r.1 (r.1 + r.2))
    (hhead : w'.now.head = w.now.head) (hfinal : w'.now.final = w.now.final)
    (hregs : w'.now.regions = w.now.regions) (hlive : w'.live = w.live) : w'.Good := by
  obtain ⟨arenas, hg⟩ := hw.laid
  have hg' := hg.congr hmem hhead hfinal hregs
  refine ⟨⟨arenas, hg'.blocks.symm ▸ hg'⟩, ?_⟩
  rw [hg'.blocks, hlive]
  exact hw.live

/-- A call that forgets no byte. -/
def World.Clean (ksbrk : Sbrk) (w : World) : Call → Prop
  | .kmalloc s => heap.Clean ksbrk w.now.regions w.now.blocks s
  | .kfree p => FreeTidy w.now.blocks p
  | .krealloc p s =>
    (p = 0 → heap.Clean ksbrk w.now.regions w.now.blocks s) ∧
    (p ≠ 0 → s = get_mem_size w.now p ∨ (get_mem_size w.now p < s ∧
      heap.Clean ksbrk w.now.regions w.now.blocks s ∧ MoveTidy w.now.blocks p s))
  | .kcalloc nelem elsize => heap.Clean ksbrk w.now.regions w.now.blocks (nelem * elsize)
  | .krecalloc p nelem elsize =>
    heap.Clean ksbrk w.now.regions w.now.blocks (nelem * elsize) ∧
    MoveTidy w.now.blocks p (nelem * elsize)
  | .store _ _ => True

/-- The worlds that clean calls reach. -/
abbrev CleanRun (ksbrk : Sbrk) : World → Prop :=
  Reach (Starts ksbrk) (fun w c => w.Allows c ∧ w.Clean ksbrk c) (World.step ksbrk)

variable {h h' : Heap} {arenas : List Arena} {bs bs' : List Block} {ksbrk : Sbrk} {w w' : World}
  {c : Call} {s rc p : Nat} {live' : Nat → Option Nat}

theorem good_unused (hu : Unused h) : Good h [] [] where
  chain := hu.1
  final := hu.2.1
  laid := laid_nil
  built := hu.2.2 ▸ Built.none
  spots := by simp
  fits := by simp
  small := by rw [hu.2.2]; simp

theorem good_start (hf : Fresh ksbrk) (hw : Starts ksbrk w) :
    w.Good ∧ lost w.now w.now.blocks = 0 := by
  obtain ⟨hlive, hu | ⟨h, hu, hinit⟩⟩ := hw
  · have hg := good_unused hu
    refine ⟨⟨⟨[], hg.blocks.symm ▸ hg⟩, ?_⟩, ?_⟩
    · rw [hg.blocks]
      intro p n
      simp [hlive, usedBlocks]
    · unfold lost
      rw [hu.2.2]
      simp
  · obtain ⟨_, p, _, hregs, _, hg⟩ := spec_of_ok (kmalloc_init.spec hf (good_unused hu)) hinit
    refine ⟨⟨⟨_, hg.blocks.symm ▸ hg⟩, ?_⟩, ?_⟩
    · rw [hg.blocks]
      intro p n
      simp [hlive, usedBlocks, whole]
    · have hN : HEADER ≤ NEW_ALLOC_SIZE := by decide
      unfold lost
      rw [hg.blocks, hregs, hu.2.2]
      simp only [region_bytes_cons, region_bytes_nil, total_cons, total_nil, whole]
      omega

/-- What a call leaves of the world. -/
structure Stepped (ksbrk : Sbrk) (w w' : World) (c : Call) : Prop where
  good : w'.Good
  kept : (∀ x v, c ≠ .store x v) → ∀ p n, w.live p = some n → p ≠ c.arg →
    w'.live p = some n ∧ Agree w.now.mem w'.now.mem (p - HEADER) (p + n)
  lost : heap.lost w.now w.now.blocks ≤ heap.lost w'.now w'.now.blocks
  clean : w.Clean ksbrk c → heap.lost w'.now w'.now.blocks = heap.lost w.now w.now.blocks

/-- From what a call did to the blocks to what it did to the world. -/
theorem Did.stepped (hd : Did w.now h' live' w.now.blocks bs' c.arg) (hm : w.Good)
    (hw : w' = { now := h', live := live' })
    (hclean : w.Clean ksbrk c → heap.lost h' bs' = heap.lost w.now w.now.blocks) :
    Stepped ksbrk w w' c := by
  obtain ⟨arenas', hg'⟩ := hd.good
  subst hw
  refine ⟨⟨⟨arenas', hg'.blocks.symm ▸ hg'⟩, hg'.blocks.symm ▸ hd.live⟩, ?_,
    hg'.blocks.symm ▸ hd.lost, hg'.blocks.symm ▸ hclean⟩
  intro _ p n hp hne
  obtain ⟨b, hb, rfl, rfl⟩ := (hm.live p n).mp hp
  obtain ⟨hb', ha⟩ := hd.kept b hb hne
  exact ⟨hd.live.at hb', ha.sub (by omega) (le_refl _)⟩

theorem gave_eq (hrc : rc ≠ 0) (w : World) (h : Heap) (p s : Nat) :
    w.gave h p rc s =
      { now := h, live := Function.update (Function.update w.live p none) rc (some s) } := by
  unfold World.gave
  rw [if_neg hrc]

/-- A store of a client changes no header and no size. -/
theorem store_stepped (hw : w.Good) {x : Nat} {v : UInt8}
    (hx : ∃ p n, w.live p = some n ∧ p ≤ x ∧ x < p + n) :
    Stepped ksbrk w { w with now := { w.now with mem := Function.update w.now.mem x v } }
      (.store x v) := by
  obtain ⟨arenas, hg⟩ := hw.laid
  obtain ⟨p, n, hp, h1, h2⟩ := hx
  obtain ⟨b, hb, rfl, rfl⟩ := (hw.live p n).mp hp
  obtain ⟨l, r, hl⟩ := List.append_of_mem (mem_usedBlocks.mp hb).1
  rw [hl] at hg
  have ho : Only w.now { w.now with mem := Function.update w.now.mem x v } (b.addr + HEADER)
      (b.addr + HEADER + b.size) :=
    fun y hy => Function.update_of_ne (by omega) _ _
  have hag := ho.agree (a := b.addr) (b := b.addr + HEADER) (by omega)
  obtain ⟨hg', _⟩ := hg.change_one { w.now with mem := Function.update w.now.mem x v } b
    (ho.wider (by omega) (le_refl _)) ((hg.header (by simp)).congr hag) (fields_congr hag).2.2.2
    rfl rfl rfl (le_refl _) (hg.laid.last_free b (by simp)) rfl rfl rfl
  have hblocks := hg'.blocks.trans hl.symm
  refine ⟨⟨⟨arenas, ?_⟩, ?_⟩, fun hno => absurd rfl (hno x v), ?_, fun _ => ?_⟩
  · rw [hblocks, hl]
    exact hg'
  · rw [hblocks]
    exact hw.live
  · rw [hblocks]
    exact le_refl _
  · rw [hblocks]
    rfl

theorem step.spec (hf : Fresh ksbrk) (hw : w.Good) (hc : w.Allows c) :
    Spec (w.step ksbrk c) (· = .ksbrk) (fun w' => Stepped ksbrk w w' c) := by
  obtain ⟨arenas, hg⟩ := hw.laid
  have hm := hw.live
  cases c with
  | kmalloc s =>
    refine spec_bind (kmalloc.spec hf hg hc) ?_
    rintro ⟨rc, h1⟩ ⟨bs1, hserved, hclean⟩
    refine (hserved.did hm 0).stepped hw ?_ (fun hcl => (hclean hcl).2)
    rw [gave_eq hserved.nonzero, update_live_null hm]
  | kfree p =>
    rcases hc with rfl | ⟨n, hn⟩
    · have hnull : Function.update w.live 0 none = w.live :=
        Function.update_eq_self_iff.mpr hm.null.symm
      refine spec_bind (show Spec (kfree w.now 0) _ (· = w.now) from rfl) ?_
      rintro _ rfl
      have hd : Did w.now w.now w.live w.now.blocks w.now.blocks 0 :=
        ⟨⟨arenas, hg⟩, hm, fun b hb _ => ⟨hb, agree_refl _ _ _⟩, le_refl _⟩
      exact hd.stepped hw (by rw [hnull]) (fun _ => rfl)
    · obtain ⟨b, hb, rfl, rfl⟩ := (hm p n).mp hn
      obtain ⟨hbs, hbf⟩ := mem_usedBlocks.mp hb
      obtain ⟨l, r, hl⟩ := List.append_of_mem hbs
      have hg' := hg
      rw [hl] at hg'
      obtain ⟨h1, bs1, heq, hfr⟩ := kfree.spec hg' hbf
      have hd := hfr.did hg' hbf (hl ▸ hm)
      rw [← hl] at hd
      refine spec_bind (show Spec (kfree w.now (b.addr + HEADER)) _ (· = h1) by rw [heq]; rfl) ?_
      rintro _ rfl
      refine hd.stepped hw rfl (fun hcl => ?_)
      have := hfr.keeps_all (hl ▸ hcl)
      rw [this, hl]
  | krealloc p s =>
    refine spec_bind (krealloc.spec hf hg hm hc.1 hc.2) ?_
    rintro ⟨rc, h1⟩ ⟨hrc, bs1, hd, _, hclean⟩
    exact hd.stepped hw (gave_eq hrc w h1 p s) (fun hcl => hclean hcl.1 hcl.2)
  | kcalloc nelem elsize =>
    refine spec_bind (kcalloc.spec hf hg hc) ?_
    rintro ⟨rc, h1⟩ ⟨bs1, hserved, _, hclean⟩
    refine (hserved.did hm 0).stepped hw ?_ hclean
    rw [gave_eq hserved.nonzero, update_live_null hm]
  | krecalloc p nelem elsize =>
    refine spec_bind (krecalloc.spec hf hg hm hc.1 hc.2) ?_
    rintro ⟨rc, h1⟩ ⟨hrc, bs1, hd, _, _, hclean⟩
    exact hd.stepped hw (gave_eq hrc w h1 p _) (fun hcl => hclean hcl.1 hcl.2)
  | store x v => exact store_stepped hw hc

theorem run_good (hf : Fresh ksbrk) (hr : Run ksbrk w) : w.Good :=
  hr.invariant World.Good (fun _ hs => (good_start hf hs).1)
    (fun _ _ _ hw hc hs => (spec_of_ok (step.spec hf hw hc) hs).good)

/-! ## A first run -/

/-- A `ksbrk` that puts each region behind all earlier ones. -/
def bump : Sbrk := fun rs len =>
  let p := rs.foldr (fun r m => max (r.1 + r.2) m) 0x1000
  if p + len ≤ 2 ^ 64 ∧ len + region_bytes rs < 2 ^ 32 then some p else none

theorem bump_fresh : Fresh bump := by
  intro rs len p hp
  unfold bump at hp
  simp only [Option.ite_none_right_eq_some, Option.some.injEq] at hp
  obtain ⟨⟨h1, h2⟩, rfl⟩ := hp
  have hmax : ∀ rs : List Region, 0x1000 ≤ rs.foldr (fun r m => max (r.1 + r.2) m) 0x1000 ∧
      ∀ r ∈ rs, r.1 + r.2 ≤ rs.foldr (fun r m => max (r.1 + r.2) m) 0x1000 := by
    intro rs
    induction rs with
    | nil => simp
    | cons r rs ih =>
      simp only [List.foldr_cons, List.mem_cons]
      refine ⟨by omega, ?_⟩
      rintro q (rfl | hq)
      · omega
      · have := ih.2 q hq
        omega
  refine ⟨by have := (hmax rs).1; omega, h1, fun r hr => ?_, h2⟩
  exact Or.inl ((hmax rs).2 r hr)

/-- A memory of zeros, before the first call. -/
def blank : Heap where
  mem := fun _ => 0
  head := 0
  final := 0
  total_heap_size := 0
  seed := { s0 := 1, s1 := 2, s2 := 3, s3 := 4 }
  regions := []

/-- The world after `kmalloc_init`. -/
def boot : World where
  now :=
    match kmalloc_init bump blank with
    | .ok (_, h) => h
    | .error _ => blank
  live := fun _ => none

theorem boot_init : kmalloc_init bump blank = .ok (true, boot.now) := by
  have hfirst : bump [] NEW_ALLOC_SIZE = some 0x1000 := by decide
  have hinit : ∃ h, kmalloc_init bump blank = .ok (true, h) := by
    unfold kmalloc_init call_ksbrk
    rw [show blank.regions = [] from rfl, hfirst]
    exact ⟨_, rfl⟩
  obtain ⟨h, hh⟩ := hinit
  unfold boot
  rw [hh]

theorem blank_unused : Unused blank := ⟨rfl, rfl, rfl⟩

theorem boot_starts : Starts bump boot :=
  ⟨fun _ => rfl, Or.inr ⟨blank, blank_unused, boot_init⟩⟩

theorem boot_good : ∃ p, Good boot.now [(p, p + NEW_ALLOC_SIZE)] [whole p NEW_ALLOC_SIZE 0] := by
  have hspec := kmalloc_init.spec bump_fresh (good_unused blank_unused)
  rw [boot_init] at hspec
  obtain ⟨_, p, _, _, _, hg⟩ := hspec
  exact ⟨p, hg⟩

theorem boot_tidy (need p : Nat) : Tidy need [whole p NEW_ALLOC_SIZE 0] := by
  intro l b r hl _ _ hlast
  have hb : b ∈ [whole p NEW_ALLOC_SIZE 0] := by rw [hl]; simp
  rw [List.mem_singleton.mp hb] at hlast
  cases hlast

/-- The first `kmalloc` after `kmalloc_init` splits the only block. -/
theorem boot_kmalloc :
    ∃ rc w, boot.step bump (.kmalloc 16) = .ok w ∧ w.live rc = some 16 ∧ Run bump w ∧
      CleanRun bump w ∧ ∃ p, rc = p + HEADER ∧ boot.now.blocks = [whole p NEW_ALLOC_SIZE 0] ∧
        w.now.blocks = [(whole p NEW_ALLOC_SIZE 0).used 16,
          (whole p NEW_ALLOC_SIZE 0).rest HEADER 16] := by
  obtain ⟨p, hg⟩ := boot_good
  have hroom : Room (16 + HEADER) [whole p NEW_ALLOC_SIZE 0] := by
    refine ⟨_, List.mem_singleton_self _, rfl, ?_⟩
    show 16 + HEADER ≤ NEW_ALLOC_SIZE - HEADER
    decide
  obtain ⟨rc, h1, bs1, heq, hserved, htidy⟩ := kmalloc_room bump hg (by decide) hroom
  obtain ⟨l, b, r, hl, hf, rfl⟩ := htidy (boot_tidy _ p)
  obtain ⟨rfl, rfl, rfl⟩ : l = [] ∧ b = whole p NEW_ALLOC_SIZE 0 ∧ r = [] := by
    cases l with
    | nil => simpa using hl.symm
    | cons c l => simp at hl
  obtain ⟨⟨arenas1, hg1⟩, hblock, _, _⟩ := hserved.alloc
  have hrc : rc = p + HEADER := by
    obtain ⟨l, u, r, hl, hrc, hus, huf, _⟩ := hblock
    have hu : u ∈ usedBlocks [(whole p NEW_ALLOC_SIZE 0).used 16,
        (whole p NEW_ALLOC_SIZE 0).rest HEADER 16] := by
      rw [mem_usedBlocks]
      exact ⟨by rw [List.nil_append] at hl; rw [hl]; simp, huf⟩
    have : u = (whole p NEW_ALLOC_SIZE 0).used 16 := by
      simpa [usedBlocks, Block.used, Block.rest, whole] using hu
    rw [hrc, this]
    rfl
  have hstep : boot.step bump (.kmalloc 16) = .ok (boot.gave h1 0 rc 16) := by
    show (heap.kmalloc bump boot.now 16 >>= _) = _
    rw [heq]
    rfl
  have hclean : boot.Clean bump (.kmalloc 16) := by
    show heap.Clean bump boot.now.regions boot.now.blocks 16
    rw [hg.blocks]
    refine ⟨boot_tidy _ p, ?_⟩
    intro rs' bs' hb hfull
    obtain ⟨_, rfl⟩ : boot.now.regions = rs' ∧ [whole p NEW_ALLOC_SIZE 0] = bs' := by
      simpa [booted] using hb
    obtain ⟨b, hb, hbf, hbs⟩ := hroom
    have := hfull b hb hbf
    omega
  have hallow : boot.Allows (.kmalloc 16) := by
    show 16 < LIMIT
    decide
  refine ⟨rc, boot.gave h1 0 rc 16, hstep, ?_, .next (.start boot_starts) hallow hstep,
    .next (.start boot_starts) ⟨hallow, hclean⟩ hstep, p, hrc, hg.blocks, ?_⟩
  · rw [gave_eq hserved.nonzero]
    exact Function.update_self ..
  · rw [gave_eq hserved.nonzero]
    exact hg1.blocks

/-- The only free block of two is the last one, so `kmalloc` splits that. -/
theorem two_tidy (need : Nat) {b c : Block} (hb : b.free = false) (hc : c.last = true) :
    Tidy need [b, c] := by
  intro l d r hl _ hf hlast
  have hd : d ∈ [b, c] := by rw [hl]; simp
  rcases List.mem_pair.mp hd with rfl | rfl
  · rw [hb] at hf
    cases hf
  · rw [hc] at hlast
    cases hlast

theorem two_split {b c d : Block} {l r : List Block} (hb : b.free = false) (hd : d.free = true)
    (hl : [b, c] = l ++ d :: r) : l = [b] ∧ d = c ∧ r = [] := by
  match l with
  | [] =>
    obtain ⟨rfl, _⟩ := List.cons.inj hl
    rw [hb] at hd
    cases hd
  | [x] =>
    obtain ⟨hx, hl⟩ := List.cons.inj hl
    obtain ⟨hc, hr⟩ := List.cons.inj hl
    exact ⟨by rw [hx], hc.symm, hr.symm⟩
  | _ :: _ :: _ =>
    have := congrArg List.length hl
    simp at this

/-- After two calls of `kmalloc` there are two live blocks, and room for the first to grow
behind the second. -/
theorem boot_two_blocks :
    ∃ p q w w', boot.step bump (.kmalloc 16) = .ok w ∧ w.step bump (.kmalloc 8) = .ok w' ∧
      w'.live p = some 16 ∧ w'.live q = some 8 ∧ q ≠ p ∧ Run bump w' ∧
        ∃ rc h', krealloc bump w'.now p 32 = .ok (rc, h') ∧ rc ≠ p := by
  obtain ⟨_, w, hs, hl, hr, _, p, rfl, _, hblocks⟩ := boot_kmalloc
  have hw := run_good bump_fresh hr
  obtain ⟨arenas, hg⟩ := hw.laid
  rw [hblocks] at hg
  have hsize : 8 + HEADER ≤ NEW_ALLOC_SIZE - HEADER - 16 - HEADER := by decide
  have hsize' : 32 + HEADER ≤ NEW_ALLOC_SIZE - HEADER - 16 - HEADER - 8 - HEADER := by decide
  obtain ⟨q, h', _, heq, hserved, htidy⟩ := kmalloc_room bump hg (by decide)
    ⟨(whole p NEW_ALLOC_SIZE 0).rest HEADER 16, by simp, rfl, hsize⟩
  obtain ⟨_, _, _, hsplit, hfree, rfl⟩ := htidy (two_tidy _ rfl rfl)
  obtain ⟨rfl, rfl, rfl⟩ := two_split rfl hfree hsplit
  have hs' : w.step bump (.kmalloc 8) = .ok (w.gave h' 0 q 8) := by
    show (heap.kmalloc bump w.now 8 >>= _) = _
    rw [heq]
    rfl
  have hallow : w.Allows (.kmalloc 8) := by
    show 8 < LIMIT
    decide
  have hr' : Run bump (w.gave h' 0 q 8) := .next hr hallow hs'
  have hlive : (w.gave h' 0 q 8).live = Function.update w.live q (some 8) := by
    rw [gave_eq hserved.nonzero, update_live_null hw.live]
  obtain ⟨arenas', hg'⟩ := hserved.alloc.good
  obtain ⟨u, hq, _, _, hmem, hap⟩ := hserved.alloc.block_mem
  have hfirst : (whole p NEW_ALLOC_SIZE 0).used 16 ∈
      usedBlocks [(whole p NEW_ALLOC_SIZE 0).used 16,
        (whole p NEW_ALLOC_SIZE 0).rest HEADER 16] := by
    rw [mem_usedBlocks]
    exact ⟨by simp, rfl⟩
  have hne : q ≠ p + HEADER := by
    have hapart : p + HEADER + 16 ≤ u.addr ∨ u.addr + HEADER + u.size ≤ p := hap _ hfirst
    omega
  have hm := (run_good bump_fresh hr').live
  rw [show (w.gave h' 0 q 8).now.blocks = _ from hg'.blocks] at hm
  refine ⟨p + HEADER, q, w, _, hs, hs', ?_, ?_, hne, hr', ?_⟩
  · rw [hlive, Function.update_of_ne hne.symm, hl]
  · rw [hlive, Function.update_self]
  · have hlt : ((whole p NEW_ALLOC_SIZE 0).used 16).size < 32 := by
      show 16 < 32
      decide
    have hin := (hmem _).mpr (Or.inr hfirst)
    have hroom : Room (32 + HEADER) [(whole p NEW_ALLOC_SIZE 0).used 16,
        ((whole p NEW_ALLOC_SIZE 0).rest HEADER 16).used 8,
        ((whole p NEW_ALLOC_SIZE 0).rest HEADER 16).rest HEADER 8] :=
      ⟨((whole p NEW_ALLOC_SIZE 0).rest HEADER 16).rest HEADER 8, by simp, rfl, hsize'⟩
    obtain ⟨rc, h3, hok, hmoved⟩ := krealloc_room bump hg' hm hin hlt (by decide) hroom
    exact ⟨rc, h3, hok, hmoved⟩

/-! ## The layout -/

/-- The headers, the regions and the live pointers of a heap fit together. An arena is a
region, with the regions that were joined to its end. -/
structure LaidOut (w : World) (arenas : List Arena) : Prop where
  /-- The list is finite, each header carries the magic value and its own fields. -/
  list : Seg w.now w.now.head w.now.blocks 0
  ends_at_final : w.now.final = end_addr w.now.blocks
  built : Built w.now.regions arenas
  inside : ∀ b ∈ w.now.blocks, ∃ a ∈ arenas, In HEADER a b
  disjoint : w.now.blocks.Pairwise
    (fun b c => Apart (b.addr, b.stop HEADER) (c.addr, c.stop HEADER))
  ordered : ∀ a ∈ arenas,
    w.now.blocks.Pairwise (fun b c => In HEADER a b → In HEADER a c → b.stop HEADER ≤ c.addr)
  /-- The last header of an arena, and no other one, carries `IS_FINAL`, and it is free. -/
  last : ∀ a ∈ arenas, ∃ l b r, w.now.blocks = l ++ b :: r ∧ In HEADER a b ∧ b.last = true ∧
    b.free = true ∧ (∀ c ∈ l, In HEADER a c → c.last = false) ∧ ∀ c ∈ r, ¬ In HEADER a c
  live : ∀ p n, w.live p = some n →
    ∃! b, b ∈ w.now.blocks ∧ b.free = false ∧ b.addr + HEADER = p ∧ b.size = n

theorem World.Good.laid_out (hw : w.Good) : ∃ arenas, LaidOut w arenas := by
  obtain ⟨arenas, hg⟩ := hw.laid
  have hH : 0 < HEADER := by decide
  have hin : ∀ {b : Block} {i : Nat} {a : Arena}, b ∈ w.now.blocks → arenas[i]? = some a →
      (In HEADER a b ↔ b.arena = i) := fun hb ha => hg.laid.in_iff hH hb ha
  refine ⟨arenas, hg.chain, hg.final, hg.built, ?_, hg.laid.apart_blocks, ?_, ?_, ?_⟩
  · intro b hb
    obtain ⟨lo, hi, hA, h1, h2⟩ := hg.laid.inside b hb
    exact ⟨(lo, hi), List.mem_of_getElem? hA, h1, h2⟩
  · intro a ha
    obtain ⟨i, hi⟩ := List.mem_iff_getElem?.mp ha
    refine hg.laid.before.imp_of_mem ?_
    intro b c hb hc hbc h1 h2
    rw [hin hb hi] at h1
    rw [hin hc hi] at h2
    rcases hbc with hlt | ⟨_, _, hle⟩
    · omega
    · exact hle
  · intro a ha
    obtain ⟨i, hi⟩ := List.mem_iff_getElem?.mp ha
    obtain ⟨b, hb, hba, hbl⟩ := hg.laid.each_arena (List.getElem?_eq_some_iff.mp hi).1
    obtain ⟨l, r, hlr⟩ := List.append_of_mem hb
    have hbefore := hg.laid.before
    rw [hlr, List.pairwise_append, List.pairwise_cons] at hbefore
    obtain ⟨_, ⟨hr, _⟩, hl⟩ := hbefore
    refine ⟨l, b, r, hlr, (hin hb hi).mpr hba, hbl, hg.laid.last_free b hb hbl, ?_, ?_⟩
    · intro c hc hca
      rw [hin (by rw [hlr]; simp [hc]) hi] at hca
      rcases hl c hc b (by simp) with hlt | ⟨_, hf, _⟩
      · omega
      · exact hf
    · intro c hc hca
      rw [hin (by rw [hlr]; simp [hc]) hi] at hca
      rcases hr c hc with hlt | ⟨_, hf, _⟩
      · omega
      · rw [hbl] at hf
        cases hf
  · intro p n hp
    obtain ⟨b, hb, rfl, rfl⟩ := (hw.live p n).mp hp
    obtain ⟨hbs, hbf⟩ := mem_usedBlocks.mp hb
    refine ⟨b, ⟨hbs, hbf, rfl, rfl⟩, ?_⟩
    rintro c ⟨hc, _, hca, _⟩
    exact hg.addr_inj hc hbs (by omega)

/-- In each run the heap stays laid out, and a call that does not return is one that waits
for `ksbrk`: no assertion fails, nothing faults and no loop is endless. -/
theorem the_heap_stays_laid_out (hf : Fresh ksbrk) (hr : Run ksbrk w) :
    (∃ arenas, LaidOut w arenas) ∧
      ∀ c e, w.Allows c → w.step ksbrk c = .error e → e = .ksbrk :=
  ⟨(run_good hf hr).laid_out, fun c e hc he => by
    have hspec := step.spec hf (run_good hf hr) hc
    rw [he] at hspec
    exact hspec⟩

theorem the_heap_stays_laid_out_after_a_kmalloc :
    ∃ rc w, boot.step bump (.kmalloc 16) = .ok w ∧ w.live rc = some 16 ∧
      (∃ arenas, LaidOut w arenas) ∧
        ∀ c e, w.Allows c → w.step bump c = .error e → e = .ksbrk := by
  obtain ⟨rc, w, hs, hl, hr, _⟩ := boot_kmalloc
  exact ⟨rc, w, hs, hl, the_heap_stays_laid_out bump_fresh hr⟩

/-! ## The data of the clients -/

/-- The recorded size of a live pointer is the size last requested for it. -/
theorem World.Good.size_of_live (hw : w.Good) {n : Nat} (hp : w.live p = some n) :
    get_mem_size w.now p = n := by
  obtain ⟨arenas, hg⟩ := hw.laid
  obtain ⟨b, hb, rfl, rfl⟩ := (hw.live p n).mp hp
  exact hg.get_mem_size (mem_usedBlocks.mp hb).1

/-- What a call did gives the new pointer its size. -/
theorem Did.size_of_new {arg n : Nat} (hd : Did h h' live' bs bs' arg) (hl : live' rc = some n) :
    get_mem_size h' rc = n := by
  obtain ⟨arenas, hg⟩ := hd.good
  obtain ⟨b, hb, rfl, rfl⟩ := (hd.live rc n).mp hl
  exact hg.get_mem_size (mem_usedBlocks.mp hb).1

/-- Each call leaves the sizes and the bytes of all other live blocks alone. A block that
moves takes its bytes along, and `krecalloc` fills the rest with zeros. Only `ksbrk` keeps a
call from returning. -/
theorem client_data_survives (hf : Fresh ksbrk) (hr : Run ksbrk w) :
    (∀ c, w.Allows c → (∀ x v, c ≠ .store x v) →
      Spec (w.step ksbrk c) (· = .ksbrk) fun w' => ∀ p n, w.live p = some n → p ≠ c.arg →
        w'.live p = some n ∧ get_mem_size w'.now p = get_mem_size w.now p ∧
          ∀ i, i < n → w'.now.mem (p + i) = w.now.mem (p + i)) ∧
    (∀ p s, w.Holds p → s < LIMIT →
      Spec (krealloc ksbrk w.now p s) (· = .ksbrk) fun (rc, h') =>
        rc ≠ 0 ∧ get_mem_size h' rc = s ∧
          ∀ i, i < min (get_mem_size w.now p) s → h'.mem (rc + i) = w.now.mem (p + i)) ∧
    ∀ p nelem elsize, w.Holds p → nelem * elsize < LIMIT →
      Spec (krecalloc ksbrk w.now p nelem elsize) (· = .ksbrk) fun (rc, h') =>
        rc ≠ 0 ∧ get_mem_size h' rc = nelem * elsize ∧
        (∀ i, i < min (get_mem_size w.now p) (nelem * elsize) →
          h'.mem (rc + i) = w.now.mem (p + i)) ∧
        ∀ i, min (get_mem_size w.now p) (nelem * elsize) ≤ i → i < nelem * elsize →
          h'.mem (rc + i) = 0 := by
  have hw := run_good hf hr
  obtain ⟨arenas, hg⟩ := hw.laid
  refine ⟨?_, ?_, ?_⟩
  · intro c hc hno
    refine spec_post (step.spec hf hw hc) ?_
    intro w' hstep p n hp hne
    obtain ⟨hp', ha⟩ := hstep.kept hno p n hp hne
    refine ⟨hp', ?_, fun i hi => ha _ (by omega) (by omega)⟩
    rw [hw.size_of_live hp, hstep.good.size_of_live hp']
  · intro p s hp hs
    refine spec_post (krealloc.spec hf hg hw.live hp hs) ?_
    rintro ⟨rc, h'⟩ ⟨hrc, bs', hd, hmoves, _⟩
    exact ⟨hrc, hd.size_of_new (Function.update_self ..), hmoves⟩
  · intro p nelem elsize hp hs
    refine spec_post (krecalloc.spec hf hg hw.live hp hs) ?_
    rintro ⟨rc, h'⟩ ⟨hrc, bs', hd, hmoves, hzero, _⟩
    exact ⟨hrc, hd.size_of_new (Function.update_self ..), hmoves, hzero⟩

/-- The second of two blocks keeps its bytes while the first grows into a third place. -/
theorem client_data_survives_a_growth :
    ∃ p q rc w w' w'', boot.step bump (.kmalloc 16) = .ok w ∧
      w.step bump (.kmalloc 8) = .ok w' ∧ w'.live p = some 16 ∧ w'.live q = some 8 ∧
      w'.step bump (.krealloc p 32) = .ok w'' ∧ rc ≠ p ∧ get_mem_size w''.now rc = 32 ∧
      (∀ i, i < 16 → w''.now.mem (rc + i) = w'.now.mem (p + i)) ∧
      w''.live q = some 8 ∧ ∀ i, i < 8 → w''.now.mem (q + i) = w'.now.mem (q + i) := by
  obtain ⟨p, q, w, w', hs, hs', hp, hq, hqp, hr, rc, h', hok, hmoved⟩ := boot_two_blocks
  obtain ⟨hstep, hmove, _⟩ := client_data_survives bump_fresh hr
  obtain ⟨hrc, hsize, hbytes⟩ := spec_of_ok (hmove p 32 (Or.inr ⟨16, hp⟩) (by decide)) hok
  have hs'' : w'.step bump (.krealloc p 32) = .ok (w'.gave h' p rc 32) := by
    show (heap.krealloc bump w'.now p 32 >>= _) = _
    rw [hok]
    rfl
  have hallow : w'.Allows (.krealloc p 32) := ⟨Or.inr ⟨16, hp⟩, by decide⟩
  obtain ⟨hq', _, hkept⟩ :=
    spec_of_ok (hstep (.krealloc p 32) hallow (by simp)) hs'' q 8 hq hqp
  rw [(run_good bump_fresh hr).size_of_live hp] at hbytes
  exact ⟨p, q, rc, w, w', _, hs, hs', hp, hq, hs'', hmoved, hsize, hbytes, hq', hkept⟩

/-! ## Lost bytes -/

theorem clean_run_lost (hf : Fresh ksbrk) (hr : CleanRun ksbrk w) :
    w.Good ∧ lost w.now w.now.blocks = 0 := by
  refine hr.invariant (fun w => w.Good ∧ lost w.now w.now.blocks = 0)
    (fun _ hs => good_start hf hs) ?_
  intro w c w' ⟨hw, hlost⟩ hc hs
  have hstep := spec_of_ok (step.spec hf hw hc.1) hs
  exact ⟨hstep.good, (hstep.clean hc.2).trans hlost⟩

/-- The free bytes before and after a `kmalloc` that needs no growth, and its `kfree`. -/
theorem kmalloc_kfree_free (hf : Fresh ksbrk) (hw : w.Good) (hs : s < LIMIT)
    (h1 : kmalloc ksbrk w.now s = .ok (rc, h)) (hfit : h.regions = w.now.regions)
    (h2 : kfree h rc = .ok h') : freeBytes h'.blocks + HEADER = freeBytes w.now.blocks := by
  obtain ⟨arenas, hg⟩ := hw.laid
  obtain ⟨bs1, hserved, _⟩ := spec_of_ok (kmalloc.spec hf hg hs) h1
  obtain ⟨⟨arenas1, hg1⟩, ⟨l, u, r, rfl, rfl, rfl, huf, _⟩, _, _⟩ := hserved.alloc
  obtain ⟨h3, bs3, heq, hfr⟩ := kfree.spec hg1 huf
  obtain rfl : h3 = h' := Except.ok.inj (heq.symm.trans h2)
  obtain ⟨arenas3, hg3⟩ := hfr.good
  have hfree := hserved.free hfit
  rw [freeBytes_append, freeBytes_used huf] at hfree
  rw [hg3.blocks, hfr.merges.freeBytes, freeBytes_append, freeBytes_free rfl]
  simp only
  omega

/-- When each call of a run is clean, the headers account for all bytes of `ksbrk`. A
`kmalloc` that needs no growth and its `kfree` always leave one header less of free bytes. -/
theorem clean_calls_lose_no_byte (hf : Fresh ksbrk) :
    (∀ w, CleanRun ksbrk w → total HEADER w.now.blocks = region_bytes w.now.regions) ∧
    ∀ w s rc h h', Run ksbrk w → s < LIMIT → kmalloc ksbrk w.now s = .ok (rc, h) →
      h.regions = w.now.regions → kfree h rc = .ok h' →
        freeBytes h'.blocks + HEADER = freeBytes w.now.blocks := by
  constructor
  · intro w hr
    obtain ⟨hw, hlost⟩ := clean_run_lost hf hr
    obtain ⟨arenas, hg⟩ := hw.laid
    have := hg.fits
    unfold lost at hlost
    omega
  · intro w s rc h h' hr hs h1 hfit h2
    exact kmalloc_kfree_free hf (run_good hf hr) hs h1 hfit h2

theorem clean_calls_lose_no_byte_in_a_kmalloc :
    ∃ w, boot.step bump (.kmalloc 16) = .ok w ∧
      total HEADER w.now.blocks = region_bytes w.now.regions := by
  obtain ⟨rc, w, hs, _, _, hclean, _⟩ := boot_kmalloc
  exact ⟨w, hs, (clean_calls_lose_no_byte bump_fresh).1 w hclean⟩

/-- After `kmalloc(16)` and its `kfree` the bytes of one header are gone. -/
theorem a_kfree_loses_a_header :
    ∃ rc w w', boot.step bump (.kmalloc 16) = .ok w ∧ w.step bump (.kfree rc) = .ok w' ∧
      Run bump w' ∧ total HEADER w'.now.blocks ≠ region_bytes w'.now.regions ∧
        freeBytes w'.now.blocks ≠ freeBytes boot.now.blocks := by
  obtain ⟨rc, w, hs, hl, hr, hclean, p, rfl, hboot, hblocks⟩ := boot_kmalloc
  have hN : 2 * HEADER + 16 ≤ NEW_ALLOC_SIZE := by decide
  obtain ⟨hw, hlost⟩ := clean_run_lost bump_fresh hclean
  obtain ⟨arenas, hg⟩ := hw.laid
  have hfits := hg.fits
  rw [hblocks] at hg hlost hfits
  obtain ⟨h', bs', heq, hfr⟩ := 
    kfree.spec (l := []) (b := (whole p NEW_ALLOC_SIZE 0).used 16) hg rfl
  obtain ⟨arenas', hg'⟩ := hfr.good
  have hbs := hfr.absorbs _ [] rfl rfl
  have hstep : w.step bump (.kfree (p + HEADER)) =
      .ok { now := h', live := Function.update w.live (p + HEADER) none } := by
    show (kfree w.now (p + HEADER) >>= _) = _
    rw [show p + HEADER = ((whole p NEW_ALLOC_SIZE 0).used 16).addr + HEADER from rfl, heq]
    rfl
  have hallow : w.Allows (.kfree (p + HEADER)) := Or.inr ⟨16, hl⟩
  refine ⟨p + HEADER, w, _, hs, hstep, .next hr hallow hstep, ?_, ?_⟩
  · rw [hg'.blocks, hbs, hfr.regions]
    unfold lost at hlost
    simp only [total_append, total_cons, total_nil, Block.used, Block.rest, Block.merge,
      whole] at hlost hfits ⊢
    rw [header_eq] at *
    omega
  · rw [hg'.blocks, hbs, hboot, List.nil_append, freeBytes_free rfl, freeBytes_free rfl]
    simp only [Block.used, Block.rest, Block.merge, whole, freeBytes_nil]
    rw [header_eq] at *
    omega

end salsola.heap
