-- Growth of the heap: a region of `ksbrk` opens an arena, or joins the last one.
import Salsola.HeapSearch

open memory blocks outcome

namespace salsola.heap

variable {h h' h'' : Heap} {arenas : List Arena} {bs bs' l r : List Block} {b : Block}
  {ksbrk : Sbrk} {p len s : Nat}

/-- Each region that `ksbrk` gives is a range of addresses apart from all earlier ones, and
together they have less than 4 GiB. -/
def Fresh (ksbrk : Sbrk) : Prop :=
  ∀ rs len p, ksbrk rs len = some p → 0 < p ∧ p + len ≤ 2 ^ 64 ∧
    (∀ r ∈ rs, Apart (r.1, r.1 + r.2) (p, p + len)) ∧ len + region_bytes rs < 2 ^ 32

/-- The header bytes and payloads that no block counts any more. -/
def lost (h : Heap) (bs : List Block) : Nat := region_bytes h.regions - total HEADER bs

/-- The blocks in use stay, and no lost byte comes back. -/
structure Evolves (h h' : Heap) (bs bs' : List Block) : Prop where
  used : usedBlocks bs' = usedBlocks bs
  kept : Kept bs h h'
  lost : lost h bs ≤ lost h' bs'

theorem Evolves.trans {bs'' : List Block} (he : Evolves h h' bs bs')
    (he' : Evolves h' h'' bs' bs'') : Evolves h h'' bs bs'' :=
  ⟨he'.used.trans he.used, he.kept.trans he'.kept he.used, he.lost.trans he'.lost⟩

theorem evolves_of_merges (hm : Merges bs bs') (hk : Kept bs h h') (hr : h'.regions = h.regions) :
    Evolves h h' bs bs' := by
  refine ⟨hm.used, hk, ?_⟩
  have := hm.total_le (H := HEADER)
  unfold lost
  rw [hr]
  omega

theorem call_ksbrk.spec (hf : Fresh ksbrk) :
    Spec (call_ksbrk ksbrk h len) (· = .ksbrk) (fun (p, h') => 0 < p ∧
      ksbrk h.regions len = some p ∧
      h' = { h.fill p (align_up len 0x1000) with regions := (p, len) :: h.regions }) := by
  unfold call_ksbrk
  split
  · rfl
  · rename_i p hp
    have hpos := (hf _ _ _ hp).1
    rw [if_neg (by omega)]
    exact ⟨hpos, hp, rfl⟩

/-! ## A new arena, and a longer one -/

/-- The block that a new arena starts with. -/
def whole (p len arena : Nat) : Block :=
  { addr := p, size := len - HEADER, free := true, last := true, arena }

theorem Good.opens (h' : Heap) (hg : Good h arenas bs) (hp : 0 < p) (hlen : HEADER ≤ len)
    (htop : p + len ≤ 2 ^ 64) (hap : ∀ x ∈ h.regions, Apart (x.1, x.1 + x.2) (p, p + len))
    (hsmall : len + region_bytes h.regions < 2 ^ 32) (hseg : Seg h' h'.head bs p)
    (hb : Header h' (whole p len arenas.length)) (hnext : h'.next p = 0) (hfinal : h'.final = p)
    (hregs : h'.regions = (p, len) :: h.regions) :
    Good h' (arenas ++ [(p, p + len)]) (bs ++ [whole p len arenas.length]) where
  chain := seg_append.mpr ⟨p, hseg, rfl, hb, hnext⟩
  final := by rw [end_addr_concat]; exact hfinal
  laid := by
    have hlen' : 0 < len := by rw [header_eq] at hlen; omega
    refine hg.laid.add (p, p + len) (len - HEADER) (by simp only; omega) ?_
    exact fun x hx => hg.built.apart hlen' hap x hx (hg.spots x hx).2.1
  built := hregs ▸ hg.built.opens
  spots := by
    intro a ha
    rcases List.mem_append.mp ha with ha | ha
    · exact hg.spots a ha
    · rw [List.mem_singleton] at ha
      subst ha
      rw [header_eq] at hlen
      exact ⟨hp, by simp only; omega, htop⟩
  fits := by
    have := hg.fits
    simp only [total_append, total_cons, total_nil, hregs, region_bytes_cons, whole]
    omega
  small := by rw [hregs, region_bytes_cons]; exact hsmall

/-- The last block of the heap, with the arena that it stands in. -/
theorem Good.top (hg : Good h arenas (bs ++ [b])) :
    ∃ as lo hi, arenas = as ++ [(lo, hi)] ∧ lo ≤ b.addr ∧ b.addr + HEADER + b.size ≤ hi ∧
      b.free = true := by
  obtain ⟨hlast, harena⟩ := hg.laid.top b (by simp)
  obtain ⟨lo, hi, hA, h1, h2⟩ := hg.laid.inside b (by simp)
  have hne : arenas ≠ [] := by rintro rfl; simp at harena
  obtain ⟨as, a, rfl⟩ := List.eq_nil_or_concat' arenas |>.resolve_left hne
  have hidx : b.arena = as.length := by simpa using harena
  rw [hidx] at hA
  simp only [List.getElem?_concat_length, Option.some.injEq] at hA
  subst hA
  exact ⟨as, lo, hi, rfl, h1, h2, hg.laid.last_free b (by simp) hlast⟩

/-- A region that starts where the last block ends starts at the end of its arena. -/
theorem Good.joins (h' : Heap) (hg : Good h arenas (bs ++ [b])) (hlen : HEADER ≤ len)
    (hp : p = b.addr + HEADER + b.size) (htop : p + len ≤ 2 ^ 64)
    (hap : ∀ x ∈ h.regions, Apart (x.1, x.1 + x.2) (p, p + len))
    (hsmall : len + region_bytes h.regions < 2 ^ 32)
    (hseg : Seg h' h'.head bs b.addr) (hb : Header h' { b with size := b.size + (len - HEADER) })
    (hnext : h'.next b.addr = 0) (hfinal : h'.final = b.addr)
    (hregs : h'.regions = (p, len) :: h.regions) :
    ∃ arenas', Good h' arenas' (bs ++ [{ b with size := b.size + (len - HEADER) }]) := by
  obtain ⟨as, lo, hi, rfl, h1, h2, hfree⟩ := hg.top
  have hlen' : 0 < len := by rw [header_eq] at hlen; omega
  have hspot := hg.spots (lo, hi) (by simp)
  have hout := hg.built.apart hlen' hap
  have hhi : p = hi := by
    have := hout (lo, hi) (by simp) hspot.2.1
    simp only [Apart, header_eq] at *
    omega
  have hlaid : Laid HEADER (as ++ [(lo, hi + len)])
      (bs ++ [{ b with size := b.size + (len - HEADER) }]) := by
    refine hg.laid.extend (by omega) (by omega) ?_
    intro x hx
    have hx1 := hout x (by simp [hx]) (hg.spots x (by simp [hx])).2.1
    have hx2 : Apart x (lo, hi) := by
      have := hg.laid.apart
      rw [List.pairwise_append] at this
      exact this.2.2 x hx (lo, hi) (by simp)
    have hx3 := (hg.spots x (by simp [hx])).2.1
    simp only [Apart] at *
    omega
  refine ⟨as ++ [(lo, hi + len)], ?_, by rw [end_addr_concat]; exact hfinal, hlaid, ?_, ?_, ?_, ?_⟩
  · exact seg_append.mpr ⟨b.addr, hseg, rfl, hb, hnext⟩
  · rw [hregs, hhi]
    exact hg.built.joins
  · intro a ha
    rcases List.mem_append.mp ha with ha | ha
    · exact hg.spots a (by simp [ha])
    · rw [List.mem_singleton] at ha
      subst ha
      simp only at hspot ⊢
      exact ⟨hspot.1, by omega, by omega⟩
  · have := hg.fits
    simp only [total_append, total_cons, total_nil, hregs, region_bytes_cons] at this ⊢
    omega
  · rw [hregs, region_bytes_cons]
    exact hsmall

/-- Blocks of the chain keep their headers when a new region is filled. -/
theorem Good.fill_apart (hg : Good h arenas bs) (hlen : 0 < len)
    (hap : ∀ x ∈ h.regions, Apart (x.1, x.1 + x.2) (p, p + len)) (hb : b ∈ bs) :
    b.addr + HEADER + b.size ≤ p ∨ p + len ≤ b.addr := by
  obtain ⟨lo, hi, hA, h1, h2⟩ := hg.laid.inside b hb
  have hmem := List.mem_of_getElem? hA
  have := hg.built.apart hlen hap (lo, hi) hmem (hg.spots _ hmem).2.1
  simp only [Apart, Block.stop_eq] at *
  omega

/-! ## `kmalloc_init` and `add_heap_memory` -/

theorem flag_bits_whole (p len arena : Nat) :
    flag_bits (whole p len arena) = IS_FREE ||| IS_FINAL := by
  simp [flag_bits, whole, IS_FREE, IS_FINAL]

/-- The header of a new arena, once its four fields are written. -/
theorem header_whole {size : Nat} (hsize : size = len - HEADER) (hm : h.magic p = MAGIC)
    (hz : h.size p = size) (hf : h.flags p = IS_FREE ||| IS_FINAL) (arena : Nat) :
    Header h (whole p len arena) :=
  ⟨hm, hz.trans hsize, hf.trans (flag_bits_whole p len arena).symm⟩

/-- `kmalloc_init` opens the first arena. -/
theorem kmalloc_init.spec (hf : Fresh ksbrk) (hg : Good h [] []) :
    Spec (kmalloc_init ksbrk h) (· = .ksbrk) (fun (ok, h') => ok = true ∧
      ∃ p, ksbrk h.regions NEW_ALLOC_SIZE = some p ∧
        h'.regions = (p, NEW_ALLOC_SIZE) :: h.regions ∧ h'.head ≠ 0 ∧
        Good h' [(p, p + NEW_ALLOC_SIZE)] [whole p NEW_ALLOC_SIZE 0]) := by
  unfold kmalloc_init
  refine spec_bind (call_ksbrk.spec hf) ?_
  rintro ⟨p, h1⟩ ⟨hpos, hp, rfl⟩
  obtain ⟨_, htop, hap, hsmall⟩ := hf _ _ _ hp
  simp only
  rw [if_neg (by omega)]
  have hN : HEADER ≤ NEW_ALLOC_SIZE := by decide
  have hs : NEW_ALLOC_SIZE - HEADER < 2 ^ 32 := by decide
  generalize NEW_ALLOC_SIZE = len at *
  set h2 : Heap := { h.fill p (align_up len 4096) with
    regions := (p, len) :: h.regions
    head := p
    total_heap_size := u32 ((h.fill p (align_up len 4096)).total_heap_size + (len - HEADER)) }
  set h3 := (((h2.set_magic p MAGIC).set_size p (len - HEADER)).set_flags p
    (IS_FREE ||| IS_FINAL)).set_next p 0 with hh3
  have hheader : Header h3 (whole p len 0) := by
    refine header_whole rfl ?_ ?_ ?_ 0
    · simp [hh3]
    · simp [hh3, size_set_size _ _ hs]
    · simp [hh3, flags_set_flags _ _ (show IS_FREE ||| IS_FINAL < 256 by decide)]
  have hnext : h3.next p = 0 := next_set_next _ _ (by decide)
  have hhead : h3.head = p := rfl
  have hregs : h3.regions = (p, len) :: h.regions := rfl
  clear_value h3
  have hgood := hg.opens { h3 with final := p } hpos hN htop hap hsmall hhead
    ⟨hheader.magic, hheader.size, hheader.flags⟩ hnext rfl hregs
  exact ⟨rfl, p, hp, hregs, by show h3.head ≠ 0; omega, hgood⟩

theorem allocation_size_eq (hs : s < 2 ^ 32 - 24) :
    ∃ k, allocation_size s = k * 0x1000 ∧ s + 2 * HEADER ≤ k * 0x1000 ∧ k * 0x1000 < 2 ^ 34 := by
  unfold allocation_size delta_page u64
  simp only [header_eq, show NEW_ALLOC_SIZE = 0x40000 from rfl]
  refine ⟨max (s + 24) 0x40000 / 0x1000 + 1 + 0x40, ?_, ?_, ?_⟩ <;> omega

/-- What a growth makes of the blocks. -/
inductive Grows (len : Nat) : List Block → List Block → Prop
  | opens {bs : List Block} (p arena : Nat) : Grows len bs (bs ++ [whole p len arena])
  | joins {bs : List Block} {b : Block} : b.free = true →
      Grows len (bs ++ [b]) (bs ++ [{ b with size := b.size + (len - HEADER) }])

theorem Grows.used (hgr : Grows len bs bs') : usedBlocks bs' = usedBlocks bs := by
  cases hgr with
  | opens p arena => rw [usedBlocks_append, usedBlocks_free rfl]; simp [usedBlocks]
  | joins hf => simp [usedBlocks, hf]

theorem Grows.room (hgr : Grows len bs bs') (hlen : s + 2 * HEADER ≤ len) :
    Room (s + HEADER) bs' := by
  cases hgr with
  | opens p arena => exact ⟨whole p len arena, by simp, rfl, by simp only [whole]; omega⟩
  | joins hf =>
    exact ⟨_, List.mem_append_right _ (List.mem_singleton_self _), hf, by simp only; omega⟩

theorem Grows.total_le (hgr : Grows len bs bs') (hlen : HEADER ≤ len) :
    total HEADER bs' ≤ len + total HEADER bs := by
  cases hgr with
  | opens p arena => simp only [total_append, total_cons, total_nil, whole]; omega
  | joins hf => simp only [total_append, total_cons, total_nil]; omega

/-- Where the last block ends. -/
def end_stop (bs : List Block) : Nat := (bs.getLast?.map (Block.stop HEADER)).getD 0

/-- The heap when `ksbrk` gave a region that is not yet part of it. -/
structure Widened (h h' : Heap) (bs : List Block) (p len : Nat) : Prop where
  good : ∃ arenas, Good h arenas bs
  region : 0 < p ∧ p + len ≤ 2 ^ 64 ∧ (∀ x ∈ h.regions, Apart (x.1, x.1 + x.2) (p, p + len)) ∧
    len + region_bytes h.regions < 2 ^ 32
  length : HEADER ≤ len
  only : Only h h' p (p + len)
  head : h'.head = h.head
  final : h'.final = h.final
  regions : h'.regions = (p, len) :: h.regions

/-- What a growth leaves. -/
structure Grown (h h' : Heap) (bs bs' : List Block) (p len : Nat) : Prop where
  grows : Grows len bs bs'
  good : ∃ arenas, Good h' arenas bs'
  kept : Kept bs h h'
  regions : h'.regions = (p, len) :: h.regions
  head : h'.head = h.head
  apart : p ≠ end_stop bs → ∃ arena, bs' = bs ++ [whole p len arena]

theorem Widened.out (hw : Widened h h' bs p len) (hb : b ∈ bs) :
    b.addr + HEADER + b.size ≤ p ∨ p + len ≤ b.addr := by
  obtain ⟨arenas, hg⟩ := hw.good
  have hlen := hw.length
  rw [header_eq] at hlen
  exact hg.fill_apart (by omega) hw.region.2.2.1 hb

/-- The last block takes the region in. -/
theorem Widened.joins (hw : Widened h h' (bs ++ [b]) p len) (hp : p = b.addr + HEADER + b.size) :
    Grown h (h'.set_size b.addr (u32 (h'.size b.addr + (len - HEADER)))) (bs ++ [b])
      (bs ++ [{ b with size := b.size + (len - HEADER) }]) p len := by
  obtain ⟨arenas, hg⟩ := hw.good
  obtain ⟨hpos, htop, hap, hsmall⟩ := hw.region
  obtain ⟨hseg, hb, hnext⟩ := hg.at
  obtain ⟨_, _, _, _, _, _, hfree⟩ := hg.top
  have hkeep : ∀ c ∈ bs ++ [b], Agree h.mem h'.mem c.addr (c.addr + HEADER + c.size) :=
    fun c hc => hw.only.agree (hw.out hc)
  obtain ⟨h1, h2, h3, h4⟩ := fields_congr ((hkeep b (by simp)).sub (le_refl _) (by omega))
  have hsum : b.size + (len - HEADER) < 2 ^ 32 := by
    have := hg.fits
    simp only [total_append, total_cons, total_nil] at this
    omega
  have hu32 : u32 (h'.size b.addr + (len - HEADER)) = b.size + (len - HEADER) := by
    rw [h2, hb.size]
    exact Nat.mod_eq_of_lt hsum
  rw [hu32]
  have ho := only_set_size h' b.addr (b.size + (len - HEADER))
  have hapart : ∀ c ∈ bs, Agree h.mem (h'.set_size b.addr (b.size + (len - HEADER))).mem c.addr
      (c.addr + HEADER + c.size) := by
    intro c hc
    have := hg.apart (x := c) (by simp [hc])
    exact (hkeep c (by simp [hc])).trans (ho.agree (by omega))
  have hb' : Header (h'.set_size b.addr (b.size + (len - HEADER)))
      { b with size := b.size + (len - HEADER) } :=
    ⟨by simp [h1, hb.magic], size_set_size _ _ hsum, by simp [h3, hb.flags, flag_bits]⟩
  have hgood := hg.joins (h'.set_size b.addr (b.size + (len - HEADER))) hw.length hp
    htop hap hsmall
    (by
      show Seg _ h'.head bs b.addr
      rw [hw.head]
      exact hseg.congr (fun c hc => (hapart c hc).sub (le_refl _) (by omega)))
    hb' (by simpa [h4] using hnext) (hw.final.trans (hg.final.trans (end_addr_concat bs b)))
    hw.regions
  refine ⟨.joins hfree, hgood, kept_of ?_ hapart, hw.regions, hw.head, ?_⟩
  · rw [usedBlocks_append, usedBlocks_free hfree]
    exact List.append_nil _
  · intro hno
    refine absurd ?_ hno
    simp [end_stop, Block.stop, hp]

/-- The region gets a header, and the last block leads to it. -/
theorem Widened.opens (hw : Widened h h' (bs ++ [b]) p len) {h'' : Heap}
    (hh : h'' = (((h'.set_size p (len - HEADER)).set_flags p (IS_FREE ||| IS_FINAL)).set_next p
      0).set_magic p MAGIC) :
    ∃ arena, Grown h { h''.set_next b.addr p with final := p } (bs ++ [b])
      (bs ++ [b] ++ [whole p len arena]) p len := by
  obtain ⟨arenas, hg⟩ := hw.good
  obtain ⟨hpos, htop, hap, hsmall⟩ := hw.region
  obtain ⟨hseg, hb, _⟩ := hg.at
  obtain ⟨_, _, _, _, _, _, hfree⟩ := hg.top
  have hlen := hw.length
  have hs : len - HEADER < 2 ^ 32 := by omega
  have ho : Only h h'' p (p + len) := by
    rw [hh]
    refine hw.only.trans (Only.wider ?_ (le_refl p) (by omega : p + HEADER ≤ p + len))
    exact (((only_set_size _ _ _).trans (only_set_flags _ _ _)).trans (only_set_next _ _ _)).trans
      (only_set_magic _ _ _)
  have hheader : Header h'' (whole p len arenas.length) := by
    refine header_whole rfl ?_ ?_ ?_ _
    · simp [hh]
    · simp [hh, size_set_size _ _ hs]
    · simp [hh, flags_set_flags _ _ (show IS_FREE ||| IS_FINAL < 256 by decide)]
  have hnext : h''.next p = 0 := by
    simp [hh, next_set_next _ _ (show 0 < 2 ^ 64 by decide)]
  have hhead : h''.head = h.head := by rw [hh]; exact hw.head
  have hregs : h''.regions = (p, len) :: h.regions := by rw [hh]; exact hw.regions
  clear hh
  have hkeep : ∀ c ∈ bs ++ [b], Agree h.mem h''.mem c.addr (c.addr + HEADER + c.size) :=
    fun c hc => ho.agree (hw.out hc)
  have hlink := only_set_next h'' b.addr p
  have hbout := hw.out (b := b) (by simp)
  have hapart : ∀ c ∈ bs, Agree h.mem (h''.set_next b.addr p).mem c.addr
      (c.addr + HEADER + c.size) := by
    intro c hc
    have := hg.apart (x := c) (by simp [hc])
    exact (hkeep c (by simp [hc])).trans (hlink.agree (by omega))
  obtain ⟨h1, h2, h3, h4⟩ := fields_congr (hlink.agree (a := p) (b := p + HEADER) (by omega))
  have hb'' := hb.congr ((hkeep b (by simp)).sub (le_refl _) (by omega))
  have hseg' : Seg (h''.set_next b.addr p) h.head (bs ++ [b]) p := by
    refine seg_append.mpr ⟨b.addr, hseg.congr (fun c hc => ?_), rfl, ?_, ?_⟩
    · exact (hapart c hc).sub (le_refl _) (by omega)
    · exact ⟨by simp [hb''.magic], by simp [hb''.size], by simp [hb''.flags]⟩
    · exact next_set_next _ _ (by rw [header_eq] at hlen; omega)
  have hgood := hg.opens { h''.set_next b.addr p with final := p } hpos hlen htop hap
    hsmall (by show Seg _ h''.head _ _; rw [hhead]; exact hseg'.congr (fun _ _ => agree_refl _ _ _))
    ⟨h1.trans hheader.magic, h2.trans hheader.size, h3.trans hheader.flags⟩ (h4.trans hnext) rfl
    hregs
  refine ⟨arenas.length, .opens p _, ⟨_, hgood⟩, kept_of ?_ hapart, hregs, hhead,
    fun _ => ⟨_, rfl⟩⟩
  rw [usedBlocks_append, usedBlocks_free hfree]
  exact List.append_nil _

theorem add_region.spec (hw : Widened h h' bs p len) (hne : bs ≠ []) (hlen : len < 2 ^ 34) :
    ∃ h'' bs', add_region h' p len = .ok (true, h'') ∧ Grown h h'' bs bs' p len := by
  obtain ⟨bs, b, rfl⟩ := List.eq_nil_or_concat' bs |>.resolve_left hne
  obtain ⟨arenas, hg⟩ := hw.good
  obtain ⟨hpos, htop, hap, hsmall⟩ := hw.region
  have hbpos := hg.spot (b := b) (by simp)
  have hfinal : h'.final = b.addr := hw.final.trans (hg.final.trans (end_addr_concat bs b))
  obtain ⟨_, _, _, _, _, _, hfree⟩ := hg.top
  have hb := hg.header (b := b) (by simp)
  have hkeep := (hw.only.agree (hw.out (b := b) (by simp))).sub (le_refl _)
    (by omega : b.addr + HEADER ≤ b.addr + HEADER + b.size)
  have hb' := hb.congr hkeep
  have hH := hw.length
  have hsub : sub64 len HEADER = len - HEADER := by
    unfold sub64
    rw [header_eq] at *
    omega
  have hflag : IS_FREE &&& h'.flags b.addr ≠ 0 := by
    rw [Nat.and_comm, hb'.flags]
    intro h0
    rw [flag_bits_free, hfree] at h0
    cases h0
  unfold add_region
  rw [hfinal, if_neg (by omega), hsub]
  by_cases hjoin : p = u64 (b.addr + HEADER + h'.size b.addr)
  · rw [if_pos ⟨hflag, hjoin⟩]
    have hpe : p = b.addr + HEADER + b.size := by
      rw [hb'.size] at hjoin
      unfold u64 at hjoin
      omega
    exact ⟨_, _, rfl, hw.joins hpe⟩
  · rw [if_neg (fun hc => hjoin hc.2)]
    have hu32 : u32 (len - HEADER) = len - HEADER := Nat.mod_eq_of_lt (by omega)
    rw [hu32]
    obtain ⟨arena, hgrown⟩ := hw.opens rfl
    refine ⟨_, _, ?_, hgrown⟩
    simp only
    rw [show ((((h'.set_size p (len - HEADER)).set_flags p (IS_FREE ||| IS_FINAL)).set_next p
      0).set_magic p MAGIC).final = b.addr from hfinal]

/-- `add_heap_memory` makes room for `s` bytes and one more header. -/
theorem add_heap_memory.spec (hf : Fresh ksbrk) (hg : Good h arenas bs) (hne : bs ≠ [])
    (hs : s < 2 ^ 32 - 24) :
    Spec (add_heap_memory ksbrk h s) (· = .ksbrk) (fun (ok, h') => ok = true ∧
      ∃ p bs', ksbrk h.regions (allocation_size s) = some p ∧
        Grown h h' bs bs' p (allocation_size s) ∧ Room (s + HEADER) bs') := by
  obtain ⟨k, hk, hk1, hk2⟩ := allocation_size_eq hs
  have halign : align_up (k * 0x1000) 0x1000 = k * 0x1000 := if_pos (by omega)
  unfold add_heap_memory
  rw [hk]
  generalize k * 0x1000 = len at *
  refine spec_bind (call_ksbrk.spec hf) ?_
  rintro ⟨p, h1⟩ ⟨hpos, hp, rfl⟩
  have hfresh := hf _ _ _ hp
  rw [halign]
  simp only
  rw [if_neg (by omega)]
  have hw : Widened h { h.fill p len with
      regions := (p, len) :: h.regions
      total_heap_size := u32 ((h.fill p len).total_heap_size + sub64 len HEADER) } bs p len :=
    ⟨⟨arenas, hg⟩, hfresh, by omega, fun x hx => only_fill h p len x hx, rfl, rfl, rfl⟩
  obtain ⟨h2, bs', heq, hgrown⟩ := add_region.spec hw hne hk2
  rw [heq]
  exact ⟨rfl, p, bs', hp, hgrown, hgrown.grows.room hk1⟩

end salsola.heap
