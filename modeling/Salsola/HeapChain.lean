-- What the headers in memory say: a chain of blocks from `head` to `final`, laid out in
-- the regions that `ksbrk` gave. And how the chain survives a change of a few headers.
import Salsola.Kmalloc
import Salsola.Lib.Blocks

open memory blocks

namespace salsola.heap

theorem header_eq : HEADER = 24 := rfl

/-! ## The fields of a header -/

/-- `h'` and `h` have the same memory, but from `lo` up to `hi`. -/
def Only (h h' : Heap) (lo hi : Nat) : Prop := ∀ x, x < lo ∨ hi ≤ x → h'.mem x = h.mem x

theorem Only.trans {h h' h'' : Heap} {lo hi : Nat} (ho : Only h h' lo hi)
    (ho' : Only h' h'' lo hi) : Only h h'' lo hi :=
  fun x hx => (ho' x hx).trans (ho x hx)

theorem Only.wider {h h' : Heap} {lo hi lo' hi' : Nat} (ho : Only h h' lo hi) (hlo : lo' ≤ lo)
    (hhi : hi ≤ hi') : Only h h' lo' hi' :=
  fun x hx => ho x (by omega)

theorem Only.agree {h h' : Heap} {lo hi a b : Nat} (ho : Only h h' lo hi)
    (hab : b ≤ lo ∨ hi ≤ a) : Agree h.mem h'.mem a b :=
  fun x h1 h2 => ho x (by omega)

theorem only_set_magic (h : Heap) (a v : Nat) : Only h (h.set_magic a v) a (a + HEADER) :=
  fun x hx => write_outside _ _ _ (by rw [header_eq] at hx; omega)

theorem only_set_size (h : Heap) (a v : Nat) : Only h (h.set_size a v) a (a + HEADER) :=
  fun x hx => write_outside _ _ _ (by rw [header_eq] at hx; omega)

theorem only_set_flags (h : Heap) (a v : Nat) : Only h (h.set_flags a v) a (a + HEADER) :=
  fun x hx => write_outside _ _ _ (by rw [header_eq] at hx; omega)

theorem only_set_next (h : Heap) (a v : Nat) : Only h (h.set_next a v) a (a + HEADER) :=
  fun x hx => write_outside _ _ _ (by rw [header_eq] at hx; omega)

theorem only_fill (h : Heap) (p len : Nat) : Only h (h.fill p len) p (p + len) :=
  fun _ hx => prng_outside _ _ _ _ _ hx

@[simp] theorem fields_set_magic (h : Heap) (a v : Nat) :
    (h.set_magic a v).size a = h.size a ∧ (h.set_magic a v).flags a = h.flags a ∧
      (h.set_magic a v).next a = h.next a := by
  refine ⟨?_, ?_, ?_⟩ <;> exact read_write_other _ _ (by omega)

@[simp] theorem fields_set_size (h : Heap) (a v : Nat) :
    (h.set_size a v).magic a = h.magic a ∧ (h.set_size a v).flags a = h.flags a ∧
      (h.set_size a v).next a = h.next a := by
  refine ⟨?_, ?_, ?_⟩ <;> exact read_write_other _ _ (by omega)

@[simp] theorem fields_set_flags (h : Heap) (a v : Nat) :
    (h.set_flags a v).magic a = h.magic a ∧ (h.set_flags a v).size a = h.size a ∧
      (h.set_flags a v).next a = h.next a := by
  refine ⟨?_, ?_, ?_⟩ <;> exact read_write_other _ _ (by omega)

@[simp] theorem fields_set_next (h : Heap) (a v : Nat) :
    (h.set_next a v).magic a = h.magic a ∧ (h.set_next a v).size a = h.size a ∧
      (h.set_next a v).flags a = h.flags a := by
  refine ⟨?_, ?_, ?_⟩ <;> exact read_write_other _ _ (by omega)

@[simp] theorem magic_set_magic (h : Heap) (a : Nat) : (h.set_magic a MAGIC).magic a = MAGIC :=
  read_write_self _ _ _ _ (by decide)

theorem size_set_size (h : Heap) (a : Nat) {v : Nat} (hv : v < 2 ^ 32) :
    (h.set_size a v).size a = v := read_write_self _ _ _ _ hv

theorem flags_set_flags (h : Heap) (a : Nat) {v : Nat} (hv : v < 256) :
    (h.set_flags a v).flags a = v := read_write_self _ _ _ _ hv

theorem next_set_next (h : Heap) (a : Nat) {v : Nat} (hv : v < 2 ^ 64) :
    (h.set_next a v).next a = v := read_write_self _ _ _ _ hv

theorem size_lt (h : Heap) (a : Nat) : h.size a < 2 ^ 32 := read_lt _ _ 4

theorem next_lt (h : Heap) (a : Nat) : h.next a < 2 ^ 64 := read_lt _ _ 8

theorem fields_congr {h h' : Heap} {a : Nat} (ha : Agree h.mem h'.mem a (a + HEADER)) :
    h'.magic a = h.magic a ∧ h'.size a = h.size a ∧ h'.flags a = h.flags a ∧
      h'.next a = h.next a := by
  rw [header_eq] at ha
  refine ⟨read_congr (ha.sub ?_ ?_), read_congr (ha.sub ?_ ?_), read_congr (ha.sub ?_ ?_),
    read_congr (ha.sub ?_ ?_)⟩ <;> omega

/-! ## Headers and chains -/

/-- The byte `flags` of a block. -/
def flag_bits (b : Block) : Nat := (if b.free then IS_FREE else 0) + if b.last then IS_FINAL else 0

theorem flag_bits_lt (b : Block) : flag_bits b < 256 := by
  cases hf : b.free <;> cases hl : b.last <;> simp [flag_bits, hf, hl, IS_FREE, IS_FINAL]

theorem flag_bits_free (b : Block) : flag_bits b &&& IS_FREE = 0 ↔ b.free = false := by
  cases hf : b.free <;> cases hl : b.last <;> simp [flag_bits, hf, hl, IS_FREE, IS_FINAL]

theorem flag_bits_final (b : Block) : flag_bits b &&& IS_FINAL = 0 ↔ b.last = false := by
  cases hf : b.free <;> cases hl : b.last <;> simp [flag_bits, hf, hl, IS_FREE, IS_FINAL]

theorem flag_bits_merge {b n : Block} (hb : b.last = false) :
    flag_bits b ||| (flag_bits n &&& IS_FINAL) = flag_bits (b.merge n) := by
  cases hf : b.free <;> cases hn : n.free <;> cases hl : n.last <;>
    simp [flag_bits, Block.merge, hf, hb, hn, hl, IS_FREE, IS_FINAL]

theorem flag_bits_freed (b : Block) :
    flag_bits b ||| IS_FREE = flag_bits { b with free := true } := by
  cases hf : b.free <;> cases hl : b.last <;> simp [flag_bits, hf, hl, IS_FREE, IS_FINAL]

/-- The header of `b` stands in memory. -/
structure Header (h : Heap) (b : Block) : Prop where
  magic : h.magic b.addr = MAGIC
  size : h.size b.addr = b.size
  flags : h.flags b.addr = flag_bits b

/-- From `p` on, the headers in memory are those of the blocks, and the last one leads to `q`. -/
def Seg (h : Heap) (p : Nat) : List Block → Nat → Prop
  | [], q => p = q
  | b :: bs, q => p = b.addr ∧ Header h b ∧ Seg h (h.next b.addr) bs q

@[simp] theorem seg_nil {h : Heap} {p q : Nat} : Seg h p [] q ↔ p = q := Iff.rfl

@[simp] theorem seg_cons {h : Heap} {b : Block} {bs : List Block} {p q : Nat} :
    Seg h p (b :: bs) q ↔ p = b.addr ∧ Header h b ∧ Seg h (h.next b.addr) bs q := Iff.rfl

theorem seg_append {h : Heap} {l r : List Block} {p q : Nat} :
    Seg h p (l ++ r) q ↔ ∃ k, Seg h p l k ∧ Seg h k r q := by
  induction l generalizing p with
  | nil => simp
  | cons b l ih =>
    simp only [List.cons_append, seg_cons, ih]
    constructor
    · rintro ⟨h1, h2, k, h3, h4⟩
      exact ⟨k, ⟨h1, h2, h3⟩, h4⟩
    · rintro ⟨k, ⟨h1, h2, h3⟩, h4⟩
      exact ⟨h1, h2, k, h3, h4⟩

theorem Header.congr {h h' : Heap} {b : Block} (hb : Header h b)
    (ha : Agree h.mem h'.mem b.addr (b.addr + HEADER)) : Header h' b := by
  obtain ⟨h1, h2, h3, _⟩ := fields_congr ha
  exact ⟨h1.trans hb.magic, h2.trans hb.size, h3.trans hb.flags⟩

theorem Seg.congr {h h' : Heap} {bs : List Block} {p q : Nat} (hs : Seg h p bs q)
    (ha : ∀ b ∈ bs, Agree h.mem h'.mem b.addr (b.addr + HEADER)) : Seg h' p bs q := by
  induction bs generalizing p with
  | nil => exact hs
  | cons b bs ih =>
    obtain ⟨h1, h2, h3⟩ := hs
    have hb := ha b (by simp)
    refine ⟨h1, h2.congr hb, ?_⟩
    rw [(fields_congr hb).2.2.2]
    exact ih h3 (fun c hc => ha c (by simp [hc]))

theorem Seg.header {h : Heap} {bs : List Block} {p q : Nat} (hs : Seg h p bs q) {b : Block}
    (hb : b ∈ bs) : Header h b := by
  obtain ⟨l, r, rfl⟩ := List.append_of_mem hb
  obtain ⟨_, _, hs⟩ := seg_append.mp hs
  exact hs.2.1

/-- The address of the last block, and 0 when there is none. -/
def end_addr (bs : List Block) : Nat := (bs.getLast?.map Block.addr).getD 0

@[simp] theorem end_addr_nil : end_addr [] = 0 := rfl

@[simp] theorem end_addr_concat (bs : List Block) (b : Block) : end_addr (bs ++ [b]) = b.addr := by
  simp [end_addr]

theorem end_addr_append (l : List Block) {r : List Block} (hr : r ≠ []) :
    end_addr (l ++ r) = end_addr r := by
  simp [end_addr, List.getLast?_append_of_ne_nil _ hr]

@[simp] theorem end_addr_cons_cons (b n : Block) (r : List Block) :
    end_addr (b :: n :: r) = end_addr (n :: r) := by
  simp [end_addr]

theorem end_addr_mem {bs : List Block} (h : bs ≠ []) : ∃ b ∈ bs, end_addr bs = b.addr := by
  obtain ⟨l, b, rfl⟩ := List.eq_nil_or_concat'  bs |>.resolve_left h
  exact ⟨b, by simp, by simp⟩

/-- The blocks from `p` on, read from the headers. The first one is in the arena `arena`. -/
def walk : Nat → Heap → Nat → Nat → List Block
  | 0, _, _, _ => []
  | fuel + 1, h, p, arena =>
    if p = 0 then []
    else
      let b : Block := {
        addr := p
        size := h.size p
        free := h.flags p &&& IS_FREE ≠ 0
        last := h.flags p &&& IS_FINAL ≠ 0
        arena }
      b :: walk fuel h (h.next p) (if b.last then arena + 1 else arena)

/-- The blocks of the chain that starts at `head`. -/
def Heap.blocks (h : Heap) : List Block := walk FUEL h h.head 0

theorem Header.free_bit {h : Heap} {b : Block} (hb : Header h b) :
    decide (h.flags b.addr &&& IS_FREE ≠ 0) = b.free := by
  rw [hb.flags]
  cases hf : b.free with
  | false => simpa using (flag_bits_free b).mpr hf
  | true => simp [flag_bits_free, hf]

theorem Header.last_bit {h : Heap} {b : Block} (hb : Header h b) :
    decide (h.flags b.addr &&& IS_FINAL ≠ 0) = b.last := by
  rw [hb.flags]
  cases hl : b.last with
  | false => simpa using (flag_bits_final b).mpr hl
  | true => simp [flag_bits_final, hl]

/-- A walk reads back the blocks of a chain. -/
theorem walk_eq {h : Heap} {bs : List Block} {p k fuel : Nat} (hs : Seg h p bs 0)
    (hc : bs.IsChain (Next HEADER)) (hk : ∀ b ∈ bs.head?, b.arena = k)
    (hpos : ∀ b ∈ bs, 0 < b.addr) (hfuel : bs.length < fuel) : walk fuel h p k = bs := by
  induction bs generalizing p k fuel with
  | nil =>
    rw [seg_nil] at hs
    cases fuel with
    | zero => rfl
    | succ fuel => exact if_pos hs
  | cons b bs ih =>
    obtain ⟨rfl, hb, hrest⟩ := hs
    have hb0 := hpos b (by simp)
    obtain rfl := hk b (by simp)
    simp only [List.length_cons] at hfuel
    obtain ⟨fuel, rfl⟩ : ∃ n, fuel = n + 1 := ⟨fuel - 1, by omega⟩
    unfold walk
    rw [if_neg (by omega)]
    simp only [hb.free_bit, hb.last_bit, hb.size]
    congr 1
    refine ih hrest hc.tail ?_ (fun c hc => hpos c (by simp [hc])) (by omega)
    intro n hn
    obtain ⟨r, rfl⟩ : ∃ r, bs = n :: r := List.head?_eq_some_iff.mp hn
    rcases (List.isChain_cons_cons.mp hc).1 with ⟨hl, ha⟩ | ⟨hl, ha, _⟩
    · rw [if_pos hl]
      exact ha
    · rw [hl]
      exact ha

/-! ## The regions and the arenas -/

def region_bytes : List Region → Nat
  | [] => 0
  | (_, len) :: rs => len + region_bytes rs

@[simp] theorem region_bytes_nil : region_bytes [] = 0 := rfl

@[simp] theorem region_bytes_cons (p len : Nat) (rs : List Region) :
    region_bytes ((p, len) :: rs) = len + region_bytes rs := rfl

/-- The arenas that the regions make: each region opens one, or joins the last one. -/
inductive Built : List Region → List Arena → Prop
  | none : Built [] []
  | opens {rs : List Region} {arenas : List Arena} {p len : Nat} : Built rs arenas →
      Built ((p, len) :: rs) (arenas ++ [(p, p + len)])
  | joins {rs : List Region} {arenas : List Arena} {lo hi len : Nat} :
      Built rs (arenas ++ [(lo, hi)]) → Built ((hi, len) :: rs) (arenas ++ [(lo, hi + len)])

/-- Each address of an arena is one of a region. -/
theorem Built.covered {rs : List Region} {arenas : List Arena} (hb : Built rs arenas) :
    ∀ a ∈ arenas, ∀ x, a.1 ≤ x → x < a.2 → ∃ r ∈ rs, r.1 ≤ x ∧ x < r.1 + r.2 := by
  induction hb with
  | none => simp
  | @opens rs arenas p len _ ih =>
    intro a ha x h1 h2
    rcases List.mem_append.mp ha with ha | ha
    · obtain ⟨r, hr, hx⟩ := ih a ha x h1 h2
      exact ⟨r, by simp [hr], hx⟩
    · rw [List.mem_singleton] at ha
      subst ha
      exact ⟨(p, len), by simp, h1, h2⟩
  | @joins rs arenas lo hi len _ ih =>
    intro a ha x h1 h2
    rcases List.mem_append.mp ha with ha | ha
    · obtain ⟨r, hr, hx⟩ := ih a (by simp [ha]) x h1 h2
      exact ⟨r, by simp [hr], hx⟩
    · rw [List.mem_singleton] at ha
      subst ha
      by_cases hx : x < hi
      · obtain ⟨r, hr, hx⟩ := ih (lo, hi) (by simp) x h1 hx
        exact ⟨r, by simp [hr], hx⟩
      · exact ⟨(hi, len), by simp, by omega, h2⟩

/-- A region that is apart from all earlier ones is apart from their arenas. -/
theorem Built.apart {rs : List Region} {arenas : List Arena} (hb : Built rs arenas) {p len : Nat}
    (hlen : 0 < len) (hr : ∀ r ∈ rs, Apart (r.1, r.1 + r.2) (p, p + len)) :
    ∀ a ∈ arenas, a.1 < a.2 → Apart a (p, p + len) := by
  intro a ha hne
  by_contra hap
  have hap' : p < a.2 ∧ a.1 < p + len := by
    unfold Apart at hap
    simp only at hap
    omega
  obtain ⟨r, hmem, h1, h2⟩ := hb.covered a ha (max p a.1) (by omega) (by omega)
  have := hr r hmem
  unfold Apart at this
  simp only at this
  omega

/-! ## The invariant -/

/-- The chain of the blocks stands in memory, laid out in the arenas. -/
structure Good (h : Heap) (arenas : List Arena) (bs : List Block) : Prop where
  chain : Seg h h.head bs 0
  final : h.final = end_addr bs
  laid : Laid HEADER arenas bs
  built : Built h.regions arenas
  spots : ∀ a ∈ arenas, 0 < a.1 ∧ a.1 < a.2 ∧ a.2 ≤ 2 ^ 64
  fits : total HEADER bs ≤ region_bytes h.regions
  small : region_bytes h.regions < 2 ^ 32

section

variable {h h' : Heap} {arenas : List Arena} {bs l r xs ys : List Block} {b : Block}

theorem Good.spot (hg : Good h arenas bs) (hb : b ∈ bs) :
    0 < b.addr ∧ b.addr + HEADER + b.size ≤ 2 ^ 64 := by
  obtain ⟨lo, hi, hA, h1, h2⟩ := hg.laid.inside b hb
  obtain ⟨h3, _, h4⟩ := hg.spots _ (List.mem_of_getElem? hA)
  rw [Block.stop_eq] at h2
  simp only at h3 h4
  exact ⟨by omega, by omega⟩

theorem size_le_total (hb : b ∈ bs) : HEADER + b.size ≤ total HEADER bs := by
  obtain ⟨l, r, rfl⟩ := List.append_of_mem hb
  simp only [total_append, total_cons]
  omega

theorem length_le_total (bs : List Block) : HEADER * bs.length ≤ total HEADER bs := by
  induction bs with
  | nil => simp
  | cons b bs ih =>
    rw [total_cons, List.length_cons, Nat.mul_succ]
    omega

theorem Good.size_lt (hg : Good h arenas bs) (hb : b ∈ bs) : b.size + HEADER < 2 ^ 32 := by
  have h1 := size_le_total hb
  have h2 := hg.fits
  have h3 := hg.small
  omega

theorem Good.length_lt (hg : Good h arenas bs) : bs.length < FUEL := by
  have h1 := length_le_total bs
  have h2 := hg.fits
  have h3 := hg.small
  rw [header_eq] at h1 h2
  unfold FUEL
  omega

/-- The blocks are those that a walk over the headers reads. -/
theorem Good.blocks (hg : Good h arenas bs) : h.blocks = bs :=
  walk_eq hg.chain hg.laid.chain hg.laid.first (fun _ hb => (hg.spot hb).1) hg.length_lt

theorem Good.header (hg : Good h arenas bs) (hb : b ∈ bs) : Header h b := hg.chain.header hb

/-- The blocks around `b` are apart from it. -/
theorem Good.apart (hg : Good h arenas (l ++ b :: r)) {x : Block} (hx : x ∈ l ++ r) :
    x.addr + HEADER + x.size ≤ b.addr ∨ b.addr + HEADER + b.size ≤ x.addr := by
  have hp := hg.laid.apart_blocks
  rw [List.pairwise_append, List.pairwise_cons] at hp
  obtain ⟨_, ⟨hr, _⟩, hl⟩ := hp
  rcases List.mem_append.mp hx with hx | hx
  · exact hl x hx b (by simp)
  · exact (hr x hx).symm

/-- What leads to `b`, what stands behind it, and where `b` leads. -/
theorem Good.at (hg : Good h arenas (l ++ b :: r)) :
    Seg h h.head l b.addr ∧ Header h b ∧ Seg h (h.next b.addr) r 0 := by
  obtain ⟨k, h1, h2, h3, h4⟩ := seg_append.mp hg.chain
  subst h2
  exact ⟨h1, h3, h4⟩

/-- Some neighbours are changed in place, to blocks that lead from the same start to the
same end. The heap stays good, and the other blocks stay as they are. -/
theorem Good.change (l xs ys r : List Block) (h' : Heap) (hg : Good h arenas (l ++ (xs ++ r)))
    (hlaid : Laid HEADER arenas (l ++ (ys ++ r)))
    (hmem : ∀ x, (∀ b ∈ xs, x < b.addr ∨ b.addr + HEADER + b.size ≤ x) → h'.mem x = h.mem x)
    (hseg : ∀ p k, Seg h p xs k → Seg h' p ys k)
    (hhead : h'.head = h.head) (hfinal : h'.final = end_addr (l ++ (ys ++ r)))
    (hregs : h'.regions = h.regions) (htotal : total HEADER ys ≤ total HEADER xs) :
    Good h' arenas (l ++ (ys ++ r)) ∧
      ∀ b ∈ l ++ r, Agree h.mem h'.mem b.addr (b.addr + HEADER + b.size) := by
  have hp := hg.laid.apart_blocks
  rw [List.pairwise_append, List.pairwise_append] at hp
  obtain ⟨_, ⟨_, _, hxr⟩, hlx⟩ := hp
  have hkeep : ∀ b ∈ l ++ r, Agree h.mem h'.mem b.addr (b.addr + HEADER + b.size) := by
    intro b hb x h1 h2
    apply hmem
    intro c hc
    rcases List.mem_append.mp hb with hb | hb
    · have := hlx b hb c (by simp [hc])
      simp only [Block.stop_eq] at this
      omega
    · have := hxr c hc b hb
      simp only [Block.stop_eq] at this
      omega
  have hkeep' : ∀ b ∈ l ++ r, Agree h.mem h'.mem b.addr (b.addr + HEADER) :=
    fun b hb => (hkeep b hb).sub (le_refl _) (by omega)
  refine ⟨⟨?_, hfinal, hlaid, hregs ▸ hg.built, hg.spots, ?_, hregs ▸ hg.small⟩, hkeep⟩
  · obtain ⟨k, hl, hxs⟩ := seg_append.mp hg.chain
    obtain ⟨k', hxs, hr⟩ := seg_append.mp hxs
    rw [hhead]
    exact seg_append.mpr ⟨k, hl.congr (fun b hb => hkeep' b (by simp [hb])),
      seg_append.mpr ⟨k', hseg k k' hxs, hr.congr (fun b hb => hkeep' b (by simp [hb]))⟩⟩
  · have := hg.fits
    simp only [total_append] at this ⊢
    rw [hregs]
    omega

/-- A change inside of one block that leaves it at its place in the chain. -/
theorem Good.change_one (h' : Heap) (b' : Block) (hg : Good h arenas (l ++ b :: r))
    (ho : Only h h' b.addr (b.addr + HEADER + b.size)) (hb' : Header h' b')
    (hnext : h'.next b.addr = h.next b.addr) (haddr : b'.addr = b.addr)
    (harena : b'.arena = b.arena) (hlast : b'.last = b.last) (hsize : b'.size ≤ b.size)
    (hfree : b.last = true → b'.free = true)
    (hhead : h'.head = h.head) (hfinal : h'.final = h.final) (hregs : h'.regions = h.regions) :
    Good h' arenas (l ++ b' :: r) ∧
      ∀ c ∈ l ++ r, Agree h.mem h'.mem c.addr (c.addr + HEADER + c.size) := by
  refine Good.change l [b] [b'] r h' hg
    (hg.laid.refit (refit_one haddr harena hlast hsize hfree)) ?_ ?_ hhead ?_ hregs ?_
  · exact fun x hx => ho x (hx b (by simp))
  · rintro p k ⟨h1, _, h2⟩
    exact ⟨h1.trans haddr.symm, hb', by rw [haddr, hnext]; exact h2⟩
  · rw [hfinal, hg.final]
    cases r with
    | nil => simp [end_addr, haddr]
    | cons n r => simp [end_addr_append]
  · simp only [total_cons, total_nil]
    omega

end

end salsola.heap
