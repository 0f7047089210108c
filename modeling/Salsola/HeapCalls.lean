-- The calls of the clients, on a good heap. Each one keeps the chain laid out and
-- the bytes of the blocks in use. An allocation gives a block of its own.
import Salsola.HeapGrowth

open memory blocks outcome

namespace salsola.heap

variable {h h' h'' h1 h2 : Heap} {arenas : List Arena} {bs bs' l r r' xs ys : List Block}
  {b : Block} {ksbrk : Sbrk} {s rc fuel : Nat}

/-! ## A split -/

theorem Good.is_final (hg : Good h arenas (l ++ b :: r)) : b.addr = h.final ↔ r = [] := by
  rw [hg.final, end_addr_append _ (by simp)]
  constructor
  · intro heq
    by_contra hne
    obtain ⟨n, r, rfl⟩ := List.exists_cons_of_ne_nil hne
    obtain ⟨c, hc, hce⟩ := end_addr_mem hne
    have := hg.apart (x := c) (by simp only [List.mem_append]; exact Or.inr hc)
    rw [end_addr_cons_cons, hce] at heq
    rw [header_eq] at this
    omega
  · rintro rfl
    rfl

theorem Good.final_behind (hg : Good h arenas (l ++ b :: r)) (hr : r ≠ []) :
    h.final = end_addr r := by
  rw [hg.final, show l ++ b :: r = (l ++ [b]) ++ r by simp, end_addr_append _ hr]

/-- The heap when the header of the rest is written, and that of `b` is still as it was. -/
structure Cut (h h' : Heap) (b : Block) (s : Nat) : Prop where
  header : Header h' (b.rest HEADER s)
  next : h'.next (b.rest HEADER s).addr = h.next b.addr
  only : Only h h' (b.rest HEADER s).addr ((b.rest HEADER s).addr + HEADER)
  head : h'.head = h.head
  final : h'.final = if b.addr = h.final then (b.rest HEADER s).addr else h.final
  regions : h'.regions = h.regions

/-- The first writes of a split go to the header of the rest, at `w`. -/
def cut (h : Heap) (a n w : Nat) : Heap :=
  let h := h.set_flags w (h.flags a)
  let h := h.set_next w (h.next a)
  let h := h.set_size w (u32 (sub64 (sub64 (h.size a) n) HEADER))
  let h := h.set_magic w MAGIC
  if a = h.final then { h with final := w } else h

theorem cut.spec (hb : Header h b) (hs : s + HEADER ≤ b.size) (hsize : b.size < 2 ^ 32) :
    Cut h (cut h b.addr s (b.rest HEADER s).addr) b s := by
  have hw : (b.rest HEADER s).addr = b.addr + HEADER + s := rfl
  have hsub : u32 (sub64 (sub64 b.size s) HEADER) = b.size - s - HEADER := by
    unfold sub64 u32
    rw [header_eq] at *
    omega
  have hlt : b.size - s - HEADER < 2 ^ 32 := by omega
  unfold cut
  generalize hwe : (b.rest HEADER s).addr = w at *
  -- what is read at `b` in between is as before: all writes go to the header at `w`
  have ho1 := only_set_flags h w (h.flags b.addr)
  have hn1 := (fields_congr (ho1.agree (a := b.addr) (b := b.addr + HEADER) (by omega))).2.2.2
  simp only [hn1]
  have ho2 := ho1.trans (only_set_next (h.set_flags w (h.flags b.addr)) w (h.next b.addr))
  have hz2 := (fields_congr (ho2.agree (a := b.addr) (b := b.addr + HEADER) (by omega))).2.1
  rw [hz2, hb.size, hsub, hb.flags]
  rw [hb.flags] at ho2
  set h3 := (((h.set_flags w (flag_bits b)).set_next w (h.next b.addr)).set_size w
    (b.size - s - HEADER)).set_magic w MAGIC with hh3
  have hm : h3.magic w = MAGIC := magic_set_magic _ _
  have hz : h3.size w = b.size - s - HEADER := by simp [hh3, size_set_size _ _ hlt]
  have hfl : h3.flags w = flag_bits b := by simp [hh3, flags_set_flags _ _ (flag_bits_lt b)]
  have hheader : Header h3 (b.rest HEADER s) :=
    ⟨by rw [hwe]; exact hm, by rw [hwe]; exact hz, by rw [hwe]; exact hfl⟩
  have hnext : h3.next w = h.next b.addr := by simp [hh3, next_set_next _ _ (next_lt _ _)]
  have honly : Only h h3 w (w + HEADER) :=
    (ho2.trans (only_set_size _ _ _)).trans (only_set_magic _ _ _)
  have hfinal : h3.final = h.final := rfl
  rw [hfinal]
  split
  · rename_i hif
    exact ⟨⟨hheader.magic, hheader.size, hheader.flags⟩, by rw [hwe]; exact hnext,
      by rw [hwe]; exact honly, rfl, by rw [if_pos hif, hwe], rfl⟩
  · rename_i hif
    exact ⟨hheader, by rw [hwe]; exact hnext, by rw [hwe]; exact honly, rfl,
      by rw [if_neg hif]; exact hfinal, rfl⟩

/-- The last writes of a split go to the header of the block that is handed out. -/
def handed (h : Heap) (a s w : Nat) : Heap :=
  (((h.set_size a s).set_flags a 0).set_next a w).set_magic a MAGIC

theorem Good.handed (l xs ys r : List Block) (h2 : Heap)
    (hg : Good h arenas (l ++ (b :: xs ++ r))) (hs : s < 2 ^ 32)
    (hroom : s + HEADER ≤ b.size)
    (hlaid : Laid HEADER arenas (l ++ (b.used s :: ys ++ r)))
    (ho : Only h h2 (b.rest HEADER s).addr ((b.rest HEADER s).addr + HEADER))
    (hseg : ∀ k, Seg h (h.next b.addr) xs k → Seg h2 (b.rest HEADER s).addr ys k)
    (hhead : h2.head = h.head) (hfinal : h2.final = end_addr (b.used s :: ys ++ r))
    (hregs : h2.regions = h.regions) (htotal : total HEADER ys + s ≤ total HEADER xs + b.size) :
    Good (heap.handed h2 b.addr s (b.rest HEADER s).addr) arenas (l ++ (b.used s :: ys ++ r)) ∧
      ∀ c ∈ l ++ r, Agree h.mem (heap.handed h2 b.addr s (b.rest HEADER s).addr).mem c.addr
        (c.addr + HEADER + c.size) := by
  have hspot := hg.spot (b := b) (by simp)
  have hw : (b.rest HEADER s).addr = b.addr + HEADER + s := rfl
  generalize (b.rest HEADER s).addr = w at *
  have ho3 : Only h2 (heap.handed h2 b.addr s w) b.addr (b.addr + HEADER) :=
    (((only_set_size _ _ _).trans (only_set_flags _ _ _)).trans (only_set_next _ _ _)).trans
      (only_set_magic _ _ _)
  have hused : Header (heap.handed h2 b.addr s w) (b.used s) := by
    refine ⟨?_, ?_, ?_⟩
    · simp [heap.handed, Block.used]
    · simp [heap.handed, Block.used, size_set_size _ _ hs]
    · simp [heap.handed, Block.used, flag_bits, flags_set_flags _ _ (show 0 < 256 by decide)]
  have hnext : (heap.handed h2 b.addr s w).next b.addr = w := by
    simp [heap.handed, next_set_next _ _ (show w < 2 ^ 64 by rw [header_eq] at *; omega)]
  have hap : ∀ c ∈ ys, c.addr + HEADER ≤ b.addr ∨ b.addr + HEADER ≤ c.addr := by
    intro c hc
    have hp := hlaid.apart_blocks
    rw [List.pairwise_append, List.cons_append, List.pairwise_cons] at hp
    have := hp.2.1.1 c (by simp [hc])
    simp only [Block.stop_eq, Block.used] at this
    omega
  refine Good.change l (b :: xs) (b.used s :: ys) r _ hg hlaid ?_ ?_ hhead ?_ hregs ?_
  · intro x hx
    have hxb := hx b (by simp)
    rw [ho3 x (by omega), ho x (by omega)]
  · rintro p k ⟨hp, _, hk⟩
    refine ⟨hp, hused, ?_⟩
    show Seg _ ((heap.handed h2 b.addr s w).next b.addr) ys k
    rw [hnext]
    exact (hseg k hk).congr (fun c hc => ho3.agree (hap c hc))
  · show h2.final = _
    rw [hfinal, end_addr_append l (by simp)]
  · simp only [total_cons, Block.used]
    omega

/-- What a split leaves: the block that is handed out, and behind it the rest, which may
have taken in the free block behind it. -/
structure Split (h h' : Heap) (arenas : List Arena) (l : List Block) (b : Block) (r : List Block)
    (s : Nat) (r' : List Block) : Prop where
  good : Good h' arenas (l ++ b.used s :: r')
  merges : Merges (b.rest HEADER s :: r) r'
  kept : Kept (l ++ b :: r) h h'
  regions : h'.regions = h.regions
  tidy : (b.last = false → ∀ n ∈ r.head?, n.free = false) → r' = b.rest HEADER s :: r

theorem split_entry_eq (h : Heap) (a n : Nat) :
    split_entry h a n = (do
      let (_, h) ←
      merge_headers (cut h a n (u64 (u64 (a + HEADER) + n))) (u64 (u64 (a + HEADER) + n))
      .ok (u64 (a + HEADER), handed h a (u32 n) (u64 (u64 (a + HEADER) + n)))) := rfl

theorem split_entry.spec (hg : Good h arenas (l ++ b :: r)) (hf : b.free = true)
    (hs : s + HEADER ≤ b.size) :
    ∃ h' r', split_entry h b.addr s = .ok (b.addr + HEADER, h') ∧ Split h h' arenas l b r s r' := by
  obtain ⟨_, hb, hr⟩ := hg.at
  have hspot := hg.spot (b := b) (by simp)
  have hsize := hg.size_lt (b := b) (by simp)
  have hsmall : s < 2 ^ 32 := by omega
  have hrc : u64 (b.addr + HEADER) = b.addr + HEADER :=
    Nat.mod_eq_of_lt (by rw [header_eq] at *; omega)
  have hnew : u64 (b.addr + HEADER + s) = (b.rest HEADER s).addr :=
    Nat.mod_eq_of_lt (by rw [header_eq] at *; omega)
  have hw : (b.rest HEADER s).addr = b.addr + HEADER + s := rfl
  have hz : (b.rest HEADER s).size = b.size - s - HEADER := rfl
  have hlaid1 : Laid HEADER arenas (l ++ ([b] ++ r)) := hg.laid
  have hsplit : Laid HEADER arenas (l ++ (b.used s :: [b.rest HEADER s] ++ r)) :=
    hlaid1.refit (refit_split hf hs)
  have hcut := cut.spec hb hs (by omega)
  rw [split_entry_eq, hrc, hnew, show u32 s = s from Nat.mod_eq_of_lt hsmall]
  generalize cut h b.addr s (b.rest HEADER s).addr = h1 at hcut
  have hpos : 0 < (b.rest HEADER s).addr := by omega
  -- the split without a merge
  have hstay : merge_headers h1 (b.rest HEADER s).addr = .ok (false, h1) →
      ∃ h', (do
        let (_, h) ← merge_headers h1 (b.rest HEADER s).addr
        .ok (b.addr + HEADER, handed h b.addr s (b.rest HEADER s).addr)) =
          (.ok (b.addr + HEADER, h') : Result (Nat × Heap)) ∧
        Split h h' arenas l b r s (b.rest HEADER s :: r) := by
    intro heq
    have hfinal : h1.final = end_addr (b.used s :: [b.rest HEADER s] ++ r) := by
      rw [hcut.final]
      by_cases hr0 : r = []
      · rw [if_pos (hg.is_final.mpr hr0), hr0]
        rfl
      · rw [if_neg (fun hc => hr0 (hg.is_final.mp hc)), hg.final_behind hr0,
          end_addr_append _ hr0]
    obtain ⟨hgood, hkeep⟩ := Good.handed l [] [b.rest HEADER s] r h1 hg hsmall hs hsplit hcut.only
      (by
        rintro k hk
        exact ⟨rfl, hcut.header, hcut.next.trans hk⟩)
      hcut.head hfinal hcut.regions (by simp only [total_cons, total_nil, hz]; omega)
    refine ⟨_, by rw [heq]; rfl, hgood, .refl, kept_of ?_ hkeep, hcut.regions, fun _ => rfl⟩
    rw [usedBlocks_append, usedBlocks_free hf, usedBlocks_append]
  cases hl : b.last with
  | true =>
    obtain ⟨h', heq, hsp⟩ := hstay (merge_headers_last hcut.header hpos hl)
    exact ⟨h', _, heq, hsp⟩
  | false =>
    obtain ⟨n, r, rfl, -, -⟩ := hg.laid.next_of_not_last hl
    have hnap := hg.apart (x := n) (by simp)
    have hn : Header h1 n := hr.2.1.congr (hcut.only.agree (by omega))
    have hnpos := (hg.spot (b := n) (by simp)).1
    have hmerge := merge_headers_beside hcut.header hn (hcut.next.trans hr.1) hpos hnpos hf hl
    cases hnf : n.free with
    | false =>
      rw [hnf] at hmerge
      obtain ⟨h', heq, hsp⟩ := hstay hmerge
      exact ⟨h', _, heq, hsp⟩
    | true =>
      rw [hnf, if_pos rfl] at hmerge
      have hfits := hg.fits
      have hregs := hg.small
      simp only [total_append, total_cons] at hfits
      have ha := absorbed.spec hcut.header hn (by omega) hl (by omega)
      generalize absorbed h1 (b.rest HEADER s).addr n.addr = h2 at ha hmerge
      have hstep : MergeStep (b.rest HEADER s :: n :: r) ((b.rest HEADER s).merge n :: r) :=
        .merge [] r hf hl hnf
      have hlaid : Laid HEADER arenas (l ++ (b.used s :: [(b.rest HEADER s).merge n] ++ r)) := by
        have := (hstep.behind (l ++ [b.used s])).laid (by simpa using hsplit)
        simpa using this
      have hfin1 : h1.final = end_addr (n :: r) := by
        rw [hcut.final, if_neg (fun hc => by simpa using hg.is_final.mp hc),
          hg.final_behind (by simp)]
      have hfinal : h2.final = end_addr (b.used s :: [(b.rest HEADER s).merge n] ++ r) := by
        have hnfin : n.addr = h1.final ↔ r = [] := by
          rw [hfin1, ← hg.final_behind (by simp)]
          exact Good.is_final (l := l ++ [b]) (by simpa using hg)
        rw [ha.final]
        by_cases hr0 : r = []
        · rw [if_pos (hnfin.mpr hr0), hr0]
          rfl
        · rw [if_neg (fun hc => hr0 (hnfin.mp hc)), hfin1, end_addr_append _ hr0,
            show n :: r = [n] ++ r from rfl, end_addr_append _ hr0]
      obtain ⟨hgood, hkeep⟩ := Good.handed l [n] [(b.rest HEADER s).merge n] r h2
        (by simpa using hg) hsmall hs hlaid
        (hcut.only.trans ha.only)
        (by
          rintro k ⟨_, _, hk⟩
          refine ⟨rfl, ha.header, ?_⟩
          have hnn := (fields_congr (hcut.only.agree (a := n.addr) (b := n.addr + HEADER)
            (by omega))).2.2.2
          exact ha.next.trans (hnn.trans hk))
        (ha.head.trans hcut.head) hfinal (ha.regions.trans hcut.regions)
        (by simp only [total_cons, total_nil, Block.merge, hz]; omega)
      refine ⟨handed h2 b.addr s (b.rest HEADER s).addr, (b.rest HEADER s).merge n :: r,
        by rw [hmerge]; rfl, by simpa using hgood, .single hstep, kept_of ?_ hkeep,
        ha.regions.trans hcut.regions, ?_⟩
      · rw [usedBlocks_append, usedBlocks_free hf, usedBlocks_free hnf, usedBlocks_append]
      · intro hno
        have := hno hl n (by simp)
        rw [hnf] at this
        cases this

/-! ## Allocation -/

/-- What an allocation leaves: `rc` is the payload of a block of its own with `s` bytes. -/
structure Allocated (h h' : Heap) (bs bs' : List Block) (s rc : Nat) : Prop where
  good : ∃ arenas, Good h' arenas bs'
  block : ∃ l u r, bs' = l ++ u :: r ∧ rc = u.addr + HEADER ∧ u.size = s ∧ u.free = false ∧
    usedBlocks (l ++ r) = usedBlocks bs
  kept : Kept bs h h'
  lost : lost h bs ≤ lost h' bs'

/-- The first free block with room is split where it stands, or no block has room and the
list grows at its end. -/
def Placed (s : Nat) (bs bs' : List Block) : Prop :=
  (∃ l b r, bs = l ++ b :: r ∧ b.free = true ∧ s + HEADER ≤ b.size ∧ Full (s + HEADER) l ∧
    bs' = l ++ b.used s :: b.rest HEADER s :: r) ∨
  (Full (s + HEADER) bs ∧ ∃ t, bs' = bs ++ t)

/-- The regions and the blocks that the first search meets: those of the heap, or those
that `kmalloc_init` makes. -/
def booted (ksbrk : Sbrk) (rs : List Region) (bs : List Block) :
    Option (List Region × List Block) :=
  if bs = [] then
    (ksbrk rs NEW_ALLOC_SIZE).map
      (fun p => ((p, NEW_ALLOC_SIZE) :: rs, [whole p NEW_ALLOC_SIZE 0]))
  else some (rs, bs)

/-- An allocation of `s` bytes that forgets no byte: the search has nothing to merge up to
the block that it takes, and a new region does not start where the last block ends. -/
structure Clean (ksbrk : Sbrk) (rs : List Region) (bs : List Block) (s : Nat) : Prop where
  tidy : Tidy (s + HEADER) bs
  opens : ∀ rs' bs', booted ksbrk rs bs = some (rs', bs') → Full (s + HEADER) bs' →
    ksbrk rs' (allocation_size s) ≠ some (end_stop bs')

/-- A write to the new block leaves an allocation what it is. -/
theorem Allocated.write (ha : Allocated h h' bs bs' s rc) (ho : Only h' h'' rc (rc + s))
    (hhead : h''.head = h'.head) (hfinal : h''.final = h'.final)
    (hregs : h''.regions = h'.regions) : Allocated h h'' bs bs' s rc := by
  obtain ⟨arenas, hg⟩ := ha.good
  obtain ⟨l, u, r, rfl, rfl, rfl, huf, hused⟩ := ha.block
  have hu := hg.header (b := u) (by simp)
  have hag := ho.agree (a := u.addr) (b := u.addr + HEADER) (by omega)
  obtain ⟨hgood, hkeep⟩ := hg.change_one h'' u (ho.wider (by omega) (by omega))
    (hu.congr hag) (fields_congr hag).2.2.2 rfl rfl rfl (le_refl _) (hg.laid.last_free u (by simp))
    hhead hfinal hregs
  refine ⟨⟨arenas, hgood⟩, ⟨l, u, r, rfl, rfl, rfl, huf, hused⟩, ?_, ?_⟩
  · have hk : Kept (l ++ r) h' h'' := kept_of rfl hkeep
    exact ha.kept.trans hk hused
  · have := ha.lost
    unfold heap.lost at this ⊢
    rw [hregs]
    exact this

/-- An allocation after changes that keep the blocks in use. -/
theorem Evolves.allocated (he : Evolves h h' bs bs') {bs'' : List Block}
    (ha : Allocated h' h'' bs' bs'' s rc) : Allocated h h'' bs bs'' s rc := by
  obtain ⟨l, u, r, h1, h2, h3, h4, hused⟩ := ha.block
  exact ⟨ha.good, ⟨l, u, r, h1, h2, h3, h4, hused.trans he.used⟩, he.kept.trans ha.kept he.used,
    he.lost.trans ha.lost⟩

theorem Good.head_ne (hg : Good h arenas bs) (hne : bs ≠ []) : h.head ≠ 0 := by
  obtain ⟨b, r, rfl⟩ := List.exists_cons_of_ne_nil hne
  have := (hg.spot (b := b) (by simp)).1
  rw [hg.chain.1]
  omega

/-- The search and the split of what it finds. -/
theorem Searched.split {e : Nat} (hsr : Searched (s + HEADER) h h1 arenas [] bs bs' e)
    (hl : bs' = l ++ b :: r) (hf : b.free = true) (hs : s + HEADER ≤ b.size)
    (hfull : Full (s + HEADER) l) :
    ∃ h2 bs2, split_entry h1 b.addr s = .ok (b.addr + HEADER, h2) ∧
      Allocated h h2 bs bs2 s (b.addr + HEADER) ∧ h2.regions = h.regions ∧
      freeBytes bs2 + (s + HEADER) = freeBytes bs ∧
      (Tidy (s + HEADER) bs → bs2 = l ++ b.used s :: b.rest HEADER s :: r ∧ bs = l ++ b :: r ∧
        heap.lost h2 bs2 = heap.lost h bs) := by
  subst hl
  obtain ⟨h2, r', heq, hsp⟩ := split_entry.spec hsr.good hf hs
  have hregs := hsp.regions.trans hsr.regions
  have he := evolves_of_merges hsr.merges hsr.kept hsr.regions
  have htotal := (hsp.merges).total_le (H := HEADER)
  simp only [total_cons, Block.rest] at htotal
  refine ⟨h2, _, heq, he.allocated ⟨⟨arenas, hsp.good⟩, ⟨l, b.used s, r', rfl, rfl, rfl, rfl, ?_⟩,
    hsp.kept, ?_⟩, hregs, ?_, ?_⟩
  · rw [usedBlocks_append, hsp.merges.used, usedBlocks_append,
      usedBlocks_free (b := b.rest HEADER s) hf, usedBlocks_free hf]
  · unfold heap.lost
    rw [hsp.regions]
    simp only [total_append, total_cons, Block.used]
    omega
  · have hfree := hsp.merges.freeBytes
    rw [← hsr.merges.freeBytes, freeBytes_append, freeBytes_append,
      freeBytes_used (b := b.used s) rfl, freeBytes_free hf, hfree,
      freeBytes_free (b := b.rest HEADER s) hf]
    simp only [Block.rest]
    omega
  · intro ht
    have hbs := hsr.tidy (by simp [Full]) ht
    have hr := hsp.tidy (fun hlast => ht l b r hbs.symm hfull hf hlast)
    refine ⟨by rw [hr], hbs.symm, ?_⟩
    unfold heap.lost
    rw [hregs, ← hbs, hr]
    simp only [total_append, total_cons, Block.used, Block.rest]
    omega

/-- The request as the search sees it. -/
theorem need_eq (hs : s < 2 ^ 32 - 24) : u32 (u32 s + HEADER) = s + HEADER := by
  unfold u32
  rw [header_eq]
  omega

/-- What a call that allocates leaves. -/
structure Served (h h' : Heap) (bs bs' : List Block) (s rc : Nat) : Prop where
  alloc : Allocated h h' bs bs' s rc
  nonzero : rc ≠ 0
  regions : h.regions <:+ h'.regions
  free : h'.regions = h.regions → freeBytes bs' + (s + HEADER) = freeBytes bs

theorem Served.write (hs : Served h h' bs bs' s rc) (ho : Only h' h'' rc (rc + s))
    (hhead : h''.head = h'.head) (hfinal : h''.final = h'.final)
    (hregs : h''.regions = h'.regions) : Served h h'' bs bs' s rc :=
  ⟨hs.alloc.write ho hhead hfinal hregs, hs.nonzero, hregs ▸ hs.regions, hregs ▸ hs.free⟩

theorem Served.fill (hs : Served h h' bs bs' s rc) : Served h (h'.fill rc s) bs bs' s rc :=
  hs.write (only_fill h' rc s) rfl rfl rfl

/-- A call that allocates, after a growth. -/
theorem Served.after (hs : Served h' h'' bs' bs s rc) {bs0 : List Block} {p len : Nat}
    (he : Evolves h h' bs0 bs') (hr : h'.regions = (p, len) :: h.regions) :
    Served h h'' bs0 bs s rc := by
  have hsuf := hs.regions
  rw [hr] at hsuf
  refine ⟨he.allocated hs.alloc, hs.nonzero, (List.suffix_cons _ _).trans hsuf, ?_⟩
  intro heq
  have := hsuf.length_le
  rw [heq, List.length_cons] at this
  omega

/-- A heap with room for the block does not grow. -/
theorem int_kmalloc_room (ksbrk : Sbrk) (fuel : Nat) (hg : Good h arenas bs) (hs : s < 2 ^ 32 - 24)
    (hroom : Room (s + HEADER) bs) :
    ∃ rc h' bs', int_kmalloc ksbrk (fuel + 1) h s = .ok (rc, h') ∧ Served h h' bs bs' s rc ∧
      (Tidy (s + HEADER) bs → heap.lost h' bs' = heap.lost h bs ∧
        ∃ l b r, bs = l ++ b :: r ∧ b.free = true ∧ s + HEADER ≤ b.size ∧ Full (s + HEADER) l ∧
          bs' = l ++ b.used s :: b.rest HEADER s :: r) := by
  have hne : bs ≠ [] := by
    obtain ⟨b, hb, _⟩ := hroom
    exact List.ne_nil_of_mem hb
  obtain ⟨e, h1, bs1, heq, hsr⟩ := hg.search (s + HEADER)
  rcases hsr.first with ⟨_, hfull⟩ | ⟨l, b, r, hl, rfl, hf, hsize, hfull⟩
  · obtain ⟨b, hb, hf, hle⟩ := hsr.merges.room hroom
    have := hfull b hb hf
    omega
  · obtain ⟨h2, bs2, hsplit, ha, hregs, hfree, htidy⟩ := hsr.split hl hf hsize hfull
    have hbpos : b.addr ≠ 0 := by
      have := (hsr.good.spot (b := b) (by rw [hl]; simp)).1
      omega
    refine ⟨b.addr + HEADER, h2, bs2, ?_,
      ⟨ha, by omega, hregs ▸ List.suffix_refl _, fun _ => hfree⟩, ?_⟩
    · unfold int_kmalloc
      rw [find_free_entry_eq (hg.head_ne hne), need_eq hs, heq, ok_bind]
      simp only
      rw [if_neg hbpos, hsplit]
    · intro ht
      obtain ⟨h3, h4, h5⟩ := htidy ht
      exact ⟨h5, l, b, r, h4, hf, hsize, hfull, h3⟩

theorem Grown.evolves {p len : Nat} (hgr : Grown h h' bs bs' p len) (hlen : HEADER ≤ len) :
    Evolves h h' bs bs' := by
  refine ⟨hgr.grows.used, hgr.kept, ?_⟩
  have := hgr.grows.total_le hlen
  unfold heap.lost
  rw [hgr.regions, region_bytes_cons]
  omega

/-- An allocation from a heap with blocks. -/
theorem int_kmalloc_more (hf : Fresh ksbrk) (hg : Good h arenas bs) (hne : bs ≠ [])
    (hs : s < 2 ^ 32 - 24) :
    Spec (int_kmalloc ksbrk (fuel + 2) h s) (· = .ksbrk) (fun (rc, h') => ∃ bs',
      Served h h' bs bs' s rc ∧
        (Tidy (s + HEADER) bs → (Full (s + HEADER) bs →
            ksbrk h.regions (allocation_size s) ≠ some (end_stop bs)) →
          Placed s bs bs' ∧ heap.lost h' bs' = heap.lost h bs)) := by
  obtain ⟨k, hk, hk1, _⟩ := allocation_size_eq hs
  have hlen : HEADER ≤ allocation_size s := by omega
  obtain ⟨e, h1, bs1, heq, hsr⟩ := hg.search (s + HEADER)
  unfold int_kmalloc
  rw [find_free_entry_eq (hg.head_ne hne), need_eq hs, heq, ok_bind]
  rcases hsr.first with ⟨rfl, hfull⟩ | ⟨l, b, r, hl, rfl, hbf, hsize, hfull⟩
  · -- no block has room: the heap grows, and the second search finds room
    simp only [if_pos]
    refine spec_bind (add_heap_memory.spec hf hsr.good (hsr.merges.ne_nil hne) hs) ?_
    rintro ⟨ok, h2⟩ ⟨rfl, p, bs2, hp, hgr, hroom⟩
    obtain ⟨arenas2, hg2⟩ := hgr.good
    obtain ⟨rc, h3, bs3, heq3, hserved, htidy⟩ := int_kmalloc_room ksbrk fuel hg2 hs hroom
    simp only [if_pos]
    rw [heq3, ok_bind]
    simp only
    rw [if_neg hserved.nonzero]
    have he : Evolves h h2 bs bs2 :=
      (evolves_of_merges hsr.merges hsr.kept hsr.regions).trans (hgr.evolves hlen)
    have hregs2 : h2.regions = (p, allocation_size s) :: h.regions := by
      rw [hgr.regions, hsr.regions]
    refine ⟨bs3, (hserved.after he hregs2).fill, ?_⟩
    intro ht hopen
    have hbs := hsr.tidy (by simp [Full]) ht
    subst hbs
    rw [hsr.regions] at hp
    have hpe : p ≠ end_stop bs1 := by
      rintro rfl
      exact hopen hfull hp
    obtain ⟨arena, rfl⟩ := hgr.apart hpe
    obtain ⟨hlost, l, b, r, hl, hbf, hsize, _, rfl⟩ :=
      htidy (ht.concat (fun b hb => (hg.laid.top b hb).1) _)
    obtain ⟨rfl, rfl, rfl⟩ := hfull.last_only hl hbf hsize
    refine ⟨Or.inr ⟨hfull, _, rfl⟩, ?_⟩
    unfold heap.lost at hlost ⊢
    rw [hregs2] at hlost
    simp only [region_bytes_cons, total_append, total_cons, total_nil, whole] at hlost ⊢
    show region_bytes h3.regions - _ = _
    omega
  · obtain ⟨h2, bs2, hsplit, ha, hregs, hfree, htidy⟩ := hsr.split hl hbf hsize hfull
    have hbpos : b.addr ≠ 0 := by
      have := (hsr.good.spot (b := b) (by rw [hl]; simp)).1
      omega
    simp only
    rw [if_neg hbpos, hsplit]
    refine ⟨bs2, ⟨ha, by omega, hregs ▸ List.suffix_refl _, fun _ => hfree⟩, ?_⟩
    intro ht _
    obtain ⟨h3, h4, h5⟩ := htidy ht
    exact ⟨Or.inl ⟨l, b, r, h4, hbf, hsize, hfull, h3⟩, h5⟩

/-- A heap without blocks is as `kmalloc_init` leaves it when the search starts. -/
theorem int_kmalloc_boot (hhead : h.head = 0) (hinit : kmalloc_init ksbrk h = .ok (true, h1))
    (hhead1 : h1.head ≠ 0) :
    int_kmalloc ksbrk (fuel + 1) h s = int_kmalloc ksbrk (fuel + 1) h1 s := by
  have hfind : find_free_entry ksbrk h (u32 s) = find_free_entry ksbrk h1 (u32 s) := by
    rw [find_free_entry_eq hhead1]
    unfold find_free_entry
    rw [if_pos hhead, hinit]
    rfl
  unfold int_kmalloc
  rw [hfind]

/-- `int_kmalloc` stops only inside of `ksbrk`. It gives a block of its own with `s` bytes. -/
theorem int_kmalloc.spec (hf : Fresh ksbrk) (hg : Good h arenas bs) (hs : s < 2 ^ 32 - 24) :
    Spec (int_kmalloc ksbrk (fuel + 2) h s) (· = .ksbrk) (fun (rc, h') => ∃ bs',
      Served h h' bs bs' s rc ∧
        (Clean ksbrk h.regions bs s → Placed s bs bs' ∧ heap.lost h' bs' = heap.lost h bs)) := by
  by_cases hne : bs = []
  · subst hne
    obtain rfl := hg.laid.none rfl
    have hinit := kmalloc_init.spec hf hg
    cases heq : kmalloc_init ksbrk h with
    | error e =>
      rw [heq] at hinit
      unfold int_kmalloc find_free_entry
      rw [if_pos (show h.head = 0 from hg.chain), heq]
      exact hinit
    | ok r =>
      rw [heq] at hinit
      obtain ⟨ok, h1⟩ := r
      obtain ⟨rfl, p, hp, hregs, hhead, hg1⟩ := hinit
      rw [int_kmalloc_boot hg.chain heq hhead]
      have he : Evolves h h1 [] [whole p NEW_ALLOC_SIZE 0] := by
        refine ⟨rfl, fun b hb => by simp [usedBlocks] at hb, ?_⟩
        unfold heap.lost
        rw [hregs, region_bytes_cons]
        simp only [total_cons, total_nil, whole]
        have : HEADER ≤ NEW_ALLOC_SIZE := by decide
        omega
      refine spec_post (int_kmalloc_more hf hg1 (by simp) hs) ?_
      rintro ⟨rc, h2⟩ ⟨bs2, hserved, hclean⟩
      refine ⟨bs2, hserved.after he hregs, ?_⟩
      intro hc
      obtain ⟨_, hlost⟩ := hclean
        (by
          intro l b r hl _ _ hlast
          have hb : b = whole p NEW_ALLOC_SIZE 0 := by
            have : b ∈ [whole p NEW_ALLOC_SIZE 0] := by rw [hl]; simp
            exact List.mem_singleton.mp this
          rw [hb] at hlast
          cases hlast)
        (by
          intro hfull
          rw [hregs]
          exact hc.opens _ _ (by simp [booted, hp]) hfull)
      refine ⟨Or.inr ⟨by simp [Full], bs2, rfl⟩, hlost.trans ?_⟩
      unfold heap.lost
      rw [hregs, region_bytes_cons]
      simp only [total_cons, total_nil, whole]
      have : HEADER ≤ NEW_ALLOC_SIZE := by decide
      omega
  · refine spec_post (int_kmalloc_more hf hg hne hs) ?_
    rintro ⟨rc, h2⟩ ⟨bs2, hserved, hclean⟩
    exact ⟨bs2, hserved, fun hc => hclean hc.tidy
      (fun hfull => hc.opens _ _ (by simp [booted, hne]) hfull)⟩

theorem fuel_eq : FUEL = (2 ^ 32 - 2) + 2 := by decide

theorem kmalloc.spec (hf : Fresh ksbrk) (hg : Good h arenas bs) (hs : s < 2 ^ 32 - 24) :
    Spec (kmalloc ksbrk h s) (· = .ksbrk) (fun (rc, h') => ∃ bs',
      Served h h' bs bs' s rc ∧
        (Clean ksbrk h.regions bs s → Placed s bs bs' ∧ heap.lost h' bs' = heap.lost h bs)) := by
  unfold kmalloc
  rw [fuel_eq]
  refine spec_bind (int_kmalloc.spec hf hg hs) ?_
  rintro ⟨rc, h1⟩ ⟨bs1, hserved, hclean⟩
  simp only
  rw [if_neg hserved.nonzero]
  exact ⟨bs1, hserved.fill, hclean⟩

/-- A heap with room for the block gives it without a call of `ksbrk`. -/
theorem kmalloc_room (ksbrk : Sbrk) (hg : Good h arenas bs) (hs : s < 2 ^ 32 - 24)
    (hroom : Room (s + HEADER) bs) :
    ∃ rc h' bs', kmalloc ksbrk h s = .ok (rc, h') ∧ Served h h' bs bs' s rc ∧
      (Tidy (s + HEADER) bs → ∃ l b r, bs = l ++ b :: r ∧ b.free = true ∧
        bs' = l ++ b.used s :: b.rest HEADER s :: r) := by
  obtain ⟨rc, h1, bs1, heq, hserved, htidy⟩ := int_kmalloc_room ksbrk (FUEL - 1) hg hs hroom
  refine ⟨rc, h1.fill rc s, bs1, ?_, hserved.fill, ?_⟩
  · unfold kmalloc
    rw [show FUEL = FUEL - 1 + 1 by decide, heq, ok_bind]
    exact if_neg hserved.nonzero
  · intro ht
    obtain ⟨_, l, b, r, h2, h3, _, _, h4⟩ := htidy ht
    exact ⟨l, b, r, h2, h3, h4⟩

/-! ## A free -/

/-- What `kfree` leaves of a block `b` between `l` and `r`. -/
structure Freed (h h' : Heap) (l : List Block) (b : Block) (r bs' : List Block) : Prop where
  good : ∃ arenas, Good h' arenas bs'
  merges : Merges (l ++ { b with free := true } :: r) bs'
  kept : Kept (l ++ r) h h'
  regions : h'.regions = h.regions
  clean : (∀ n ∈ r.head?, n.free = false) → bs' = l ++ { b with free := true } :: r
  absorbs : ∀ n r', r = n :: r' → n.free = true →
    bs' = l ++ ({ b with free := true } : Block).merge n :: r'

theorem kfree.spec (hg : Good h arenas (l ++ b :: r)) (hf : b.free = false) :
    ∃ h' bs', kfree h (b.addr + HEADER) = .ok h' ∧ Freed h h' l b r bs' := by
  have hspot := hg.spot (b := b) (by simp)
  have hb := hg.header (b := b) (by simp)
  have hsub : sub64 (b.addr + HEADER) HEADER = b.addr := by
    unfold sub64
    rw [header_eq] at *
    omega
  have hl : b.last = false := by
    cases hl : b.last with
    | false => rfl
    | true => rw [hg.laid.last_free b (by simp) hl] at hf; cases hf
  unfold kfree
  rw [if_neg (by rw [header_eq]; omega), hsub]
  simp only
  rw [assert_of hb.magic, ok_bind, assert_of (by rw [hb.flags]; exact (flag_bits_free b).mpr hf),
    ok_bind, hb.size]
  -- the payload is overwritten, and then the flag is set
  have ho1 := only_fill h (b.addr + HEADER) b.size
  have hag1 := ho1.agree (a := b.addr) (b := b.addr + HEADER) (by omega)
  obtain ⟨hg1, hk1⟩ := hg.change_one (h.fill (b.addr + HEADER) b.size) b
    (ho1.wider (by omega) (le_refl _)) (hb.congr hag1) (fields_congr hag1).2.2.2 rfl rfl rfl
    (le_refl _) (hg.laid.last_free b (by simp)) rfl rfl rfl
  have hregs1 : (h.fill (b.addr + HEADER) b.size).regions = h.regions := rfl
  generalize h.fill (b.addr + HEADER) b.size = h1 at *
  have hb1 := hg1.header (b := b) (by simp)
  rw [hb1.flags, flag_bits_freed]
  have hb2 : Header (h1.set_flags b.addr (flag_bits { b with free := true }))
      { b with free := true } :=
    ⟨by simp [hb1.magic], by simp [hb1.size], flags_set_flags _ _ (flag_bits_lt _)⟩
  obtain ⟨hg2, hk2⟩ := hg1.change_one
    (h1.set_flags b.addr (flag_bits { b with free := true })) { b with free := true }
    ((only_set_flags _ _ _).wider (le_refl _) (by omega)) hb2 (by simp) rfl rfl rfl (le_refl _)
    (fun _ => rfl) rfl rfl rfl
  have hregs2 : (h1.set_flags b.addr (flag_bits { b with free := true })).regions = h.regions :=
    hregs1
  generalize h1.set_flags b.addr (flag_bits { b with free := true }) = h2 at *
  have hkept1 : Kept (l ++ r) h h1 := kept_of rfl hk1
  have hkept2 : Kept (l ++ r) h1 h2 := kept_of rfl hk2
  have hk : Kept (l ++ r) h h2 := hkept1.trans hkept2 rfl
  by_cases hstay : ∀ n ∈ r.head?, n.free = false
  · refine ⟨h2, _, ?_, ⟨_, hg2⟩, .refl, hk, hregs2, fun _ => rfl, ?_⟩
    · rw [hg2.merge_stays (b := { b with free := true }) (fun _ _ => hstay)]
      rfl
    · rintro n r rfl hn
      rw [hstay n (by simp)] at hn
      cases hn
  · push Not at hstay
    obtain ⟨n, hn, hnf⟩ := hstay
    obtain ⟨m, r, rfl, -, -⟩ := hg.laid.next_of_not_last hl
    simp only [List.head?_cons, Option.mem_def, Option.some.injEq] at hn
    subst hn
    have hmf : m.free = true := by simpa using hnf
    obtain ⟨h3, heq, hg3, hk3, hregs3⟩ := hg2.merge rfl hl hmf
    refine ⟨h3, _, ?_, ⟨_, hg3⟩, .single (.merge l r rfl hl hmf), ?_, hregs3.trans hregs2, ?_, ?_⟩
    · rw [show b.addr = ({ b with free := true } : Block).addr from rfl, heq]
      rfl
    · refine hk.trans hk3 ?_
      rw [usedBlocks_append, usedBlocks_append, usedBlocks_free rfl]
    · intro hno
      have := hno m (by simp)
      rw [hmf] at this
      cases this
    · rintro n r' heq' _
      obtain ⟨rfl, rfl⟩ := List.cons.inj heq'
      rfl

end salsola.heap
