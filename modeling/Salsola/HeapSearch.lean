-- The search for a free block. It walks the chain and merges free neighbours on
-- its way. It gives the first free block with room, and keeps the blocks in use.
import Salsola.HeapChain

open memory blocks outcome

namespace salsola.heap

variable {h h' h'' : Heap} {arenas : List Arena} {bs bs' l r r' : List Block} {b n : Block}
  {need e p fuel : Nat}

/-- The blocks in use keep their headers and their payloads. -/
def Kept (bs : List Block) (h h' : Heap) : Prop :=
  ∀ b ∈ usedBlocks bs, Agree h.mem h'.mem b.addr (b.addr + HEADER + b.size)

theorem kept_refl (bs : List Block) (h : Heap) : Kept bs h h := fun _ _ => agree_refl _ _ _

theorem Kept.trans (hk : Kept bs h h') (hk' : Kept bs' h' h'')
    (hu : usedBlocks bs' = usedBlocks bs) : Kept bs h h'' :=
  fun b hb => (hk b hb).trans (hk' b (hu ▸ hb))

/-- It is enough to keep all blocks of a list with the same blocks in use. -/
theorem kept_of (hu : usedBlocks bs = usedBlocks bs')
    (hk : ∀ b ∈ bs', Agree h.mem h'.mem b.addr (b.addr + HEADER + b.size)) : Kept bs h h' :=
  fun b hb => hk b (mem_usedBlocks.mp (hu ▸ hb)).1

/-! ## One merge -/

theorem next_header_next (hb : Header h b) (hn : Header h n) (hnext : h.next b.addr = n.addr)
    (hpos : 0 < n.addr) : next_header h b.addr = .ok n.addr := by
  unfold next_header
  rw [assert_of hb.magic, ok_bind, hnext, if_pos (by omega), assert_of hn.magic, ok_bind]

theorem next_header_end (hb : Header h b) (hnext : h.next b.addr = 0) :
    next_header h b.addr = .ok 0 := by
  unfold next_header
  rw [assert_of hb.magic, ok_bind, hnext, if_neg (by simp)]

/-- In a chain, `next_header` gives where the block leads. -/
theorem Seg.next_header {q : Nat} (hs : Seg h q (b :: r) 0) (hpos : ∀ c ∈ r, 0 < c.addr) :
    next_header h b.addr = .ok (h.next b.addr) := by
  obtain ⟨_, hb, hr⟩ := hs
  cases r with
  | nil => rw [next_header_end hb hr]; exact congrArg _ hr.symm
  | cons n r =>
    rw [next_header_next hb hr.2.1 hr.1 (hpos n (by simp))]
    exact congrArg _ hr.1.symm

theorem Good.next_header (hg : Good h arenas (l ++ b :: r)) :
    next_header h b.addr = .ok (h.next b.addr) := by
  obtain ⟨_, hb, hr⟩ := hg.at
  exact Seg.next_header ⟨rfl, hb, hr⟩ (fun c hc => (hg.spot (by simp [hc])).1)

theorem merge_headers_used (hb : Header h b) (hf : b.free = false) :
    merge_headers h b.addr = .ok (false, h) := by
  unfold merge_headers
  rw [if_pos (by rw [hb.flags]; exact (flag_bits_free b).mpr hf)]

/-- A header that carries `IS_FINAL` takes in no other one. -/
theorem merge_headers_final {a : Nat} (hpos : a ≠ 0) (hflag : h.flags a &&& IS_FINAL ≠ 0) :
    merge_headers h a = .ok (false, h) := by
  unfold merge_headers
  split
  · rfl
  · unfold next_close_header
    rw [assert_of hpos, ok_bind, if_pos hflag, ok_bind, if_pos rfl]

theorem merge_headers_last (hb : Header h b) (hpos : 0 < b.addr) (hl : b.last = true) :
    merge_headers h b.addr = .ok (false, h) := by
  apply merge_headers_final (by omega)
  rw [hb.flags]
  intro h0
  rw [flag_bits_final, hl] at h0
  cases h0

/-- The heap after the header at `b` took in the one at `n`. -/
def absorbed (h : Heap) (b n : Nat) : Heap :=
  let h := h.set_size b (u32 (h.size b + h.size n))
  let h := h.set_flags b (h.flags b ||| (h.flags n &&& IS_FINAL))
  let h := h.set_next b (h.next n)
  if n = h.final then { h with final := b } else h

theorem merge_headers_beside (hb : Header h b) (hn : Header h n) (hnext : h.next b.addr = n.addr)
    (hpb : 0 < b.addr) (hpn : 0 < n.addr) (hf : b.free = true) (hl : b.last = false) :
    merge_headers h b.addr =
      .ok (if n.free then (true, absorbed h b.addr n.addr) else (false, h)) := by
  have hfb : ¬ h.flags b.addr &&& IS_FREE = 0 := by
    rw [hb.flags, flag_bits_free, hf]
    simp
  have hlb : ¬ h.flags b.addr &&& IS_FINAL ≠ 0 := by
    rw [hb.flags, not_not]
    exact (flag_bits_final b).mpr hl
  have hclose : next_close_header h b.addr = .ok n.addr := by
    unfold next_close_header
    rw [assert_of (by omega : b.addr ≠ 0), ok_bind, if_neg hlb, next_header_next hb hn hnext hpn]
  unfold merge_headers
  rw [if_neg hfb, hclose, ok_bind, if_neg (by omega : ¬ n.addr = 0)]
  cases hfn : n.free with
  | false =>
    rw [if_pos (by rw [hn.flags]; exact (flag_bits_free n).mpr hfn)]
    rfl
  | true =>
    rw [if_neg (by rw [hn.flags, flag_bits_free, hfn]; simp)]
    rfl

/-- What a merge writes: the header of `b`, and `final`. -/
structure Absorbed (h h' : Heap) (b n : Block) : Prop where
  header : Header h' (b.merge n)
  next : h'.next b.addr = h.next n.addr
  only : Only h h' b.addr (b.addr + HEADER)
  head : h'.head = h.head
  final : h'.final = if n.addr = h.final then b.addr else h.final
  regions : h'.regions = h.regions

theorem absorbed.spec (hb : Header h b) (hn : Header h n)
    (hap : b.addr + HEADER ≤ n.addr ∨ n.addr + HEADER ≤ b.addr) (hl : b.last = false)
    (hsize : b.size + n.size < 2 ^ 32) : Absorbed h (absorbed h b.addr n.addr) b n := by
  have hs : u32 (h.size b.addr + h.size n.addr) = b.size + n.size := by
    rw [hb.size, hn.size]
    exact Nat.mod_eq_of_lt hsize
  unfold absorbed
  rw [hs]
  -- the three writes go to the header of `b`, so the header of `n` reads as before
  set h1 := h.set_size b.addr (b.size + n.size) with hh1
  have ho1 : Only h h1 b.addr (b.addr + HEADER) := only_set_size _ _ _
  obtain ⟨_, _, hfn1, hnn1⟩ :=
    fields_congr (ho1.agree (a := n.addr) (b := n.addr + HEADER) (by omega))
  have hfb1 : h1.flags b.addr = flag_bits b := by simp [hh1, hb.flags]
  have hflags : h1.flags b.addr ||| (h1.flags n.addr &&& IS_FINAL) = flag_bits (b.merge n) := by
    rw [hfb1, hfn1, hn.flags]
    exact flag_bits_merge hl
  simp only [hflags]
  set h2 := h1.set_flags b.addr (flag_bits (b.merge n)) with hh2
  have ho2 : Only h h2 b.addr (b.addr + HEADER) := ho1.trans (only_set_flags _ _ _)
  obtain ⟨_, _, _, hnn2⟩ := fields_congr (ho2.agree (a := n.addr) (b := n.addr + HEADER) (by omega))
  rw [hnn2]
  set h3 := h2.set_next b.addr (h.next n.addr) with hh3
  have ho3 : Only h h3 b.addr (b.addr + HEADER) := ho2.trans (only_set_next _ _ _)
  have hheader : Header h3 (b.merge n) := by
    refine ⟨?_, ?_, ?_⟩
    · simp [hh3, hh2, hh1, Block.merge, hb.magic]
    · simp [hh3, hh2, hh1, Block.merge, size_set_size _ _ hsize]
    · simp [hh3, hh2, Block.merge, flags_set_flags _ _ (flag_bits_lt _)]
  have hnext : h3.next b.addr = h.next n.addr := next_set_next _ _ (next_lt _ _)
  have hfinal : h3.final = h.final := rfl
  rw [hfinal]
  split
  · rename_i hn
    exact ⟨⟨hheader.magic, hheader.size, hheader.flags⟩, hnext, ho3, rfl, (if_pos hn).symm, rfl⟩
  · rename_i hn
    exact ⟨hheader, hnext, ho3, rfl, (if_neg hn).symm, rfl⟩

/-- `merge_headers` does nothing at a block that may not take in the one behind it. -/
theorem Seg.merge_stays {q : Nat} (hs : Seg h q (b :: r) 0) (hpos : ∀ c ∈ b :: r, 0 < c.addr)
    (hstay : b.free = true → b.last = false → ∀ n ∈ r.head?, n.free = false) :
    merge_headers h b.addr = .ok (false, h) := by
  obtain ⟨_, hb, hr⟩ := hs
  have hpb := hpos b (by simp)
  cases hf : b.free with
  | false => exact merge_headers_used hb hf
  | true =>
    cases hl : b.last with
    | true => exact merge_headers_last hb hpb hl
    | false =>
      cases r with
      | nil =>
        have hlast : ¬ h.flags b.addr &&& IS_FINAL ≠ 0 := by
          rw [hb.flags, not_not]
          exact (flag_bits_final b).mpr hl
        have hclose : next_close_header h b.addr = .ok 0 := by
          unfold next_close_header
          rw [assert_of (by omega : b.addr ≠ 0), ok_bind, if_neg hlast, next_header_end hb hr]
        unfold merge_headers
        rw [hclose, ok_bind, if_pos rfl]
        split <;> rfl
      | cons n r =>
        rw [merge_headers_beside hb hr.2.1 hr.1 hpb (hpos n (by simp)) hf hl,
          hstay hf hl n (by simp)]
        rfl

theorem Good.merge_stays (hg : Good h arenas (l ++ b :: r))
    (hstay : b.free = true → b.last = false → ∀ n ∈ r.head?, n.free = false) :
    merge_headers h b.addr = .ok (false, h) := by
  obtain ⟨_, hb, hr⟩ := hg.at
  exact Seg.merge_stays ⟨rfl, hb, hr⟩ (fun c hc => (hg.spot (List.mem_append_right l hc)).1) hstay

/-- `merge_headers` at a free block with a free block behind it. -/
theorem Good.merge (hg : Good h arenas (l ++ b :: n :: r)) (hf : b.free = true)
    (hl : b.last = false) (hn : n.free = true) :
    ∃ h', merge_headers h b.addr = .ok (true, h') ∧ Good h' arenas (l ++ b.merge n :: r) ∧
      Kept (l ++ b :: n :: r) h h' ∧ h'.regions = h.regions := by
  obtain ⟨_, hb, hnext, hnh, _⟩ := hg.at
  have hpb := (hg.spot (b := b) (by simp)).1
  have hpn := (hg.spot (b := n) (by simp)).1
  have hap := hg.apart (x := n) (by simp)
  have hfits := hg.fits
  have hsmall := hg.small
  simp only [total_append, total_cons] at hfits
  have ha := absorbed.spec hb hnh (by omega) hl (by omega)
  refine ⟨_, by rw [merge_headers_beside hb hnh hnext hpb hpn hf hl, hn]; rfl, ?_⟩
  generalize absorbed h b.addr n.addr = h' at ha
  have hmerge : MergeStep (l ++ b :: n :: r) (l ++ b.merge n :: r) := .merge l r hf hl hn
  have hfinal : h'.final = end_addr (l ++ b.merge n :: r) := by
    rw [ha.final, hg.final]
    cases r with
    | nil => simp [end_addr, Block.merge]
    | cons m r =>
      have hend : end_addr (l ++ b :: n :: m :: r) = end_addr (m :: r) := by
        rw [end_addr_append _ (by simp)]
        simp
      obtain ⟨c, hc, hce⟩ := end_addr_mem (List.cons_ne_nil m r)
      have hapc := Good.apart (l := l ++ [b]) (b := n) (r := m :: r) (by simpa using hg)
        (x := c) (by simp only [List.mem_append]; exact Or.inr hc)
      have hne : n.addr ≠ c.addr := by rw [header_eq] at hapc; omega
      rw [hend, hce, if_neg hne, end_addr_append _ (by simp), end_addr_cons_cons, hce]
  obtain ⟨hgood, hkeep⟩ := Good.change l [b, n] [b.merge n] r h' hg (hmerge.laid hg.laid)
    (fun x hx => ha.only x (by have := hx b (by simp); omega))
    (by
      rintro p k ⟨h1, _, _, _, h2⟩
      exact ⟨h1, ha.header, ha.next.trans h2⟩)
    ha.head hfinal ha.regions (by simp only [total_cons, total_nil, Block.merge]; omega)
  refine ⟨hgood, kept_of ?_ hkeep, ha.regions⟩
  rw [usedBlocks_append, usedBlocks_free hf, usedBlocks_free hn, usedBlocks_append]

/-! ## All merges at one block -/

/-- What the merges at `b` leave of `b` and of the blocks behind it. -/
structure Gathered (h h' : Heap) (arenas : List Arena) (l : List Block) (b : Block)
    (r : List Block) (b' : Block) (r' : List Block) : Prop where
  good : Good h' arenas (l ++ b' :: r')
  merges : Merges (b :: r) (b' :: r')
  addr : b'.addr = b.addr
  free : b'.free = b.free
  length : r'.length ≤ r.length
  kept : Kept (l ++ b :: r) h h'
  regions : h'.regions = h.regions
  tidy : (b.free = true → b.last = false → ∀ n ∈ r.head?, n.free = false) → b' = b ∧ r' = r

theorem merge_all.spec (hg : Good h arenas (l ++ b :: r)) (hfuel : r.length < fuel) :
    ∃ h' b' r', merge_all fuel h b.addr = .ok h' ∧ Gathered h h' arenas l b r b' r' := by
  induction fuel generalizing h b r with
  | zero => omega
  | succ fuel ih =>
    unfold merge_all
    by_cases hstay : b.free = true → b.last = false → ∀ n ∈ r.head?, n.free = false
    · refine ⟨h, b, r, by rw [hg.merge_stays hstay, ok_bind]; rfl, hg, .refl, rfl, rfl, le_refl _,
        kept_refl _ _, rfl, fun _ => ⟨rfl, rfl⟩⟩
    · push Not at hstay
      obtain ⟨hf, hl, n, hn, hnf⟩ := hstay
      obtain ⟨m, r, rfl, -, -⟩ := hg.laid.next_of_not_last hl
      simp only [List.head?_cons, Option.mem_def, Option.some.injEq] at hn
      subst hn
      have hnf : m.free = true := by simpa using hnf
      obtain ⟨h1, heq, hg1, hk1, hr1⟩ := hg.merge hf hl hnf
      obtain ⟨h2, b', r', heq2, ha⟩ := ih (b := b.merge m) hg1 (by simp at hfuel; omega)
      have hstep : MergeStep (b :: m :: r) (b.merge m :: r) := .merge [] r hf hl hnf
      refine ⟨h2, b', r', by rw [heq, ok_bind]; exact heq2, ha.good, ha.merges.head hstep, ha.addr,
        ha.free, ?_, hk1.trans ha.kept (hstep.behind l).used, ha.regions.trans hr1, ?_⟩
      · have := ha.length
        simp only [List.length_cons]
        omega
      · intro hstay
        have := hstay hf hl m (by simp)
        rw [hnf] at this
        cases this

/-! ## The search -/

/-- No free block of the list has room for `need` bytes. -/
def Full (need : Nat) (bs : List Block) : Prop := ∀ b ∈ bs, b.free = true → b.size < need

/-- Up to the first free block with room for `need` bytes, and with it, no free block has
a free block behind it in its arena. -/
def Tidy (need : Nat) (bs : List Block) : Prop :=
  ∀ l b r, bs = l ++ b :: r → Full need l → b.free = true → b.last = false →
    ∀ n ∈ r.head?, n.free = false

/-- The block at `e` is the first free one with room in `bs`, or there is none and `e` is 0. -/
def First (need e : Nat) (bs : List Block) : Prop :=
  (e = 0 ∧ Full need bs) ∨
    ∃ l b r, bs = l ++ b :: r ∧ e = b.addr ∧ b.free = true ∧ need ≤ b.size ∧ Full need l

theorem full_append : Full need (l ++ r) ↔ Full need l ∧ Full need r := by
  simp only [Full, List.mem_append]
  constructor
  · exact fun hf => ⟨fun b hb => hf b (Or.inl hb), fun b hb => hf b (Or.inr hb)⟩
  · rintro ⟨hl, hr⟩ b (hb | hb)
    · exact hl b hb
    · exact hr b hb

theorem full_singleton : Full need [b] ↔ (b.free = true → b.size < need) := by simp [Full]

/-- A block at the end of the list, behind the last one of an arena, leaves it tidy. -/
theorem Tidy.concat (ht : Tidy need bs) (hlast : ∀ b ∈ bs.getLast?, b.last = true) (c : Block) :
    Tidy need (bs ++ [c]) := by
  intro l b r heq hl hf hb
  rcases List.eq_nil_or_concat' r with rfl | ⟨r, d, rfl⟩
  · simp
  · have heq' : bs ++ [c] = (l ++ b :: r) ++ [d] := by simpa using heq
    obtain ⟨rfl, rfl⟩ := List.append_inj' heq' rfl |>.imp_right (fun h => List.singleton_inj.mp h)
    cases r with
    | nil =>
      have := hlast b (by simp)
      rw [hb] at this
      cases this
    | cons n r => simpa using ht l b (n :: r) rfl hl hf hb

/-- When only the last block has room, a block with room is the last one. -/
theorem Full.last_only {c : Block} (hfull : Full need bs) (heq : bs ++ [c] = l ++ b :: r)
    (hf : b.free = true) (hs : need ≤ b.size) : l = bs ∧ b = c ∧ r = [] := by
  rcases List.eq_nil_or_concat' r with rfl | ⟨r, d, rfl⟩
  · obtain ⟨h1, h2⟩ := List.append_inj' heq rfl
    exact ⟨h1.symm, (List.singleton_inj.mp h2).symm, rfl⟩
  · have heq' : bs ++ [c] = (l ++ b :: r) ++ [d] := by simpa using heq
    obtain ⟨rfl, _⟩ := List.append_inj' heq' rfl
    have := hfull b (by simp) hf
    omega

theorem First.cons (hb : b.free = true → b.size < need) (hf : First need e bs) :
    First need e (b :: bs) := by
  rcases hf with ⟨he, hfull⟩ | ⟨l, c, r, rfl, he, hcf, hcs, hfull⟩
  · exact Or.inl ⟨he, by simpa [Full] using ⟨hb, hfull⟩⟩
  · exact Or.inr ⟨b :: l, c, r, rfl, he, hcf, hcs, by simpa [Full] using ⟨hb, hfull⟩⟩

/-- What the search makes of the blocks `r` behind the blocks `l`. -/
structure Searched (need : Nat) (h h' : Heap) (arenas : List Arena) (l r r' : List Block)
    (e : Nat) : Prop where
  good : Good h' arenas (l ++ r')
  merges : Merges r r'
  kept : Kept (l ++ r) h h'
  regions : h'.regions = h.regions
  first : First need e r'
  tidy : Full need l → Tidy need (l ++ r) → r' = r

/-- The search goes on behind a block that it passes by. -/
theorem Searched.cons (hs : Searched need h h' arenas (l ++ [b]) r r' e)
    (hb : b.free = true → b.size < need) : Searched need h h' arenas l (b :: r) (b :: r') e where
  good := by simpa using hs.good
  merges := hs.merges.behind [b]
  kept := by simpa using hs.kept
  regions := hs.regions
  first := hs.first.cons hb
  tidy := by
    intro hl ht
    rw [hs.tidy (full_append.mpr ⟨hl, full_singleton.mpr hb⟩) (by simpa using ht)]

/-- The search goes on after merges at the block in front. -/
theorem Gathered.searched {b' : Block} {r1 : List Block} (hga : Gathered h h' arenas l b r b' r1)
    (hs : Searched need h' h'' arenas l (b' :: r1) r' e) :
    Searched need h h'' arenas l (b :: r) r' e where
  good := hs.good
  merges := hga.merges.trans hs.merges
  kept := hga.kept.trans hs.kept (hga.merges.behind l).used
  regions := hs.regions.trans hga.regions
  first := hs.first
  tidy := by
    intro hl ht
    obtain ⟨rfl, rfl⟩ := hga.tidy (fun hf hlast => ht l b r rfl hl hf hlast)
    exact hs.tidy hl ht

/-- The search stops at a free block with room. -/
theorem searched_here (hg : Good h arenas (l ++ b :: r)) (hf : b.free = true)
    (hs : need ≤ b.size) : Searched need h h arenas l (b :: r) (b :: r) b.addr where
  good := hg
  merges := .refl
  kept := kept_refl _ _
  regions := rfl
  first := Or.inr ⟨[], b, r, rfl, rfl, hf, hs, by simp [Full]⟩
  tidy := fun _ _ => rfl

/-- `find_loop` never stops at an assertion and always ends. -/
theorem find_loop.spec (hg : Good h arenas (l ++ r)) (hp : Seg h p r 0) (hfuel : r.length < fuel) :
    ∃ e h' r', find_loop need fuel h p = .ok (e, h') ∧ Searched need h h' arenas l r r' e := by
  induction fuel generalizing h l r p with
  | zero => omega
  | succ fuel ih =>
    cases r with
    | nil =>
      rw [seg_nil] at hp
      subst hp
      exact ⟨0, h, [], rfl, hg, .refl, kept_refl _ _, rfl, Or.inl ⟨rfl, by simp [Full]⟩,
        fun _ _ => rfl⟩
    | cons b r =>
      obtain ⟨rfl, hb, hr⟩ := hp
      have hpos := (hg.spot (b := b) (by simp)).1
      simp only [List.length_cons] at hfuel
      unfold find_loop
      rw [if_neg (by omega : ¬ b.addr = 0), assert_of hb.magic, ok_bind]
      by_cases hf : b.free = true
      · rw [if_neg (by rw [hb.flags, flag_bits_free, hf]; simp), hb.size]
        by_cases hroom : b.size < need
        · rw [if_pos hroom]
          have hlen : r.length < FUEL := by
            have := hg.length_lt
            simp only [List.length_append, List.length_cons] at this
            omega
          obtain ⟨h1, b', r1, heq, hga⟩ := merge_all.spec hg hlen
          rw [heq, ok_bind, ← hga.addr, (hga.good.header (b := b') (by simp)).size]
          have hf' : b'.free = true := hga.free.trans hf
          by_cases hroom' : need ≤ b'.size
          · rw [if_pos hroom']
            exact ⟨_, _, _, rfl, hga.searched (searched_here hga.good hf' hroom')⟩
          · rw [if_neg hroom', hga.good.next_header, ok_bind]
            obtain ⟨e, h2, r2, heq2, hs⟩ := ih (l := l ++ [b']) (r := r1)
              (by simpa using hga.good) hga.good.at.2.2 (by have := hga.length; omega)
            exact ⟨e, h2, b' :: r2, heq2, hga.searched (hs.cons (fun _ => by omega))⟩
        · rw [if_neg hroom]
          exact ⟨_, _, _, rfl, searched_here hg hf (by omega)⟩
      · rw [if_pos (by rw [hb.flags, flag_bits_free]; simpa using hf), hg.next_header, ok_bind]
        obtain ⟨e, h2, r2, heq2, hs⟩ := ih (l := l ++ [b]) (r := r) (by simpa using hg) hr
          (by omega)
        exact ⟨e, h2, b :: r2, heq2, hs.cons (fun hf' => absurd hf' hf)⟩

theorem find_free_entry_eq {ksbrk : Sbrk} {s : Nat} (hhead : h.head ≠ 0) :
    find_free_entry ksbrk h s = find_loop (u32 (s + HEADER)) FUEL h h.head := by
  unfold find_free_entry
  exact if_neg hhead

/-- The search from the head of the list. -/
theorem Good.search (hg : Good h arenas bs) (need : Nat) :
    ∃ e h' bs', find_loop need FUEL h h.head = .ok (e, h') ∧
      Searched need h h' arenas [] bs bs' e :=
  find_loop.spec hg hg.chain hg.length_lt

end salsola.heap
