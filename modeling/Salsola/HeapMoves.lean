-- What the calls of the clients do to the blocks in use, and the calls that are made of
-- others: `krealloc`, `kcalloc` and `krecalloc`.
import Salsola.HeapCalls
import Mathlib.Logic.Function.Basic

open memory blocks outcome

namespace salsola.heap

variable {h h' h'' h1 h2 : Heap} {arenas : List Arena} {bs bs' bs'' l r : List Block} {b u : Block}
  {ksbrk : Sbrk} {s rc p : Nat} {live live' live'' : Nat → Option Nat}

/-! ## The blocks in use -/

/-- The live pointers are the payloads of the blocks in use, with their sizes. -/
def Matches (live : Nat → Option Nat) (bs : List Block) : Prop :=
  ∀ p n, live p = some n ↔ ∃ b ∈ usedBlocks bs, p = b.addr + HEADER ∧ n = b.size

/-- Blocks with one address are one block. -/
theorem Good.addr_inj (hg : Good h arenas bs) {c : Block} (hb : b ∈ bs) (hc : c ∈ bs)
    (ha : b.addr = c.addr) : b = c := by
  obtain ⟨l, r, rfl⟩ := List.append_of_mem hb
  by_contra hne
  have hc' : c ∈ l ++ r := by
    simp only [List.mem_append, List.mem_cons] at hc ⊢
    rcases hc with hc | rfl | hc
    · exact Or.inl hc
    · exact absurd rfl hne
    · exact Or.inr hc
  have := hg.apart hc'
  rw [header_eq] at this
  omega

/-- A block stands at one place of the list. -/
theorem Good.not_mem (hg : Good h arenas (l ++ b :: r)) : b ∉ l ++ r := by
  intro hb
  have := hg.apart hb
  rw [header_eq] at this
  omega

theorem Good.unique (hg : Good h arenas (l ++ b :: r)) {l' r' : List Block}
    (heq : l ++ b :: r = l' ++ b :: r') : l = l' ∧ r = r' := by
  have hnot := hg.not_mem
  simp only [List.mem_append, not_or] at hnot
  obtain ⟨h1, _, h2⟩ := (List.append_cons_inj_of_notMem hnot.1 hnot.2).mp heq
  exact ⟨h1, h2⟩

theorem Matches.at (hm : Matches live bs) (hb : b ∈ usedBlocks bs) :
    live (b.addr + HEADER) = some b.size := (hm _ _).mpr ⟨b, hb, rfl, rfl⟩

/-- No block has its payload at 0. -/
theorem Matches.null (hm : Matches live bs) : live 0 = none := by
  cases h0 : live 0 with
  | none => rfl
  | some n =>
    obtain ⟨b, _, hp, _⟩ := (hm 0 n).mp h0
    rw [header_eq] at hp
    omega

theorem Matches.add (hm : Matches live bs)
    (hu : ∀ c, c ∈ usedBlocks bs' ↔ c = u ∨ c ∈ usedBlocks bs)
    (hne : ∀ c ∈ usedBlocks bs, c.addr ≠ u.addr) :
    Matches (Function.update live (u.addr + HEADER) (some u.size)) bs' := by
  intro p n
  by_cases hp : p = u.addr + HEADER
  · subst hp
    rw [Function.update_self]
    constructor
    · intro h
      exact ⟨u, (hu u).mpr (Or.inl rfl), rfl, (Option.some.inj h).symm⟩
    · rintro ⟨c, hc, hca, rfl⟩
      rcases (hu c).mp hc with rfl | hc
      · rfl
      · exact absurd (by omega) (hne c hc)
  · rw [Function.update_of_ne hp, hm]
    constructor
    · rintro ⟨c, hc, h⟩
      exact ⟨c, (hu c).mpr (Or.inr hc), h⟩
    · rintro ⟨c, hc, hca, h⟩
      rcases (hu c).mp hc with rfl | hc
      · exact absurd hca hp
      · exact ⟨c, hc, hca, h⟩

theorem Matches.drop (hm : Matches live bs)
    (hu : ∀ c, c ∈ usedBlocks bs' ↔ c ∈ usedBlocks bs ∧ c ≠ b)
    (hinj : ∀ c ∈ usedBlocks bs, c.addr = b.addr → c = b) :
    Matches (Function.update live (b.addr + HEADER) none) bs' := by
  intro p n
  by_cases hp : p = b.addr + HEADER
  · subst hp
    rw [Function.update_self]
    constructor
    · rintro ⟨⟩
    · rintro ⟨c, hc, hca, _⟩
      obtain ⟨hc, hcb⟩ := (hu c).mp hc
      exact absurd (hinj c hc (by omega)) hcb
  · rw [Function.update_of_ne hp, hm]
    constructor
    · rintro ⟨c, hc, hca, h⟩
      refine ⟨c, (hu c).mpr ⟨hc, ?_⟩, hca, h⟩
      rintro rfl
      exact hp hca
    · rintro ⟨c, hc, h⟩
      exact ⟨c, ((hu c).mp hc).1, h⟩

/-! ## What a call did -/

/-- A call turned the heap `h` with the blocks `bs` into `h'` with `bs'`. Only the block
with the payload `arg` may change. -/
structure Did (h h' : Heap) (live' : Nat → Option Nat) (bs bs' : List Block) (arg : Nat) :
    Prop where
  good : ∃ arenas, Good h' arenas bs'
  live : Matches live' bs'
  kept : ∀ b ∈ usedBlocks bs, b.addr + HEADER ≠ arg →
    b ∈ usedBlocks bs' ∧ Agree h.mem h'.mem b.addr (b.addr + HEADER + b.size)
  lost : heap.lost h bs ≤ heap.lost h' bs'

theorem Did.trans {arg : Nat} (hd : Did h h' live' bs bs' arg)
    (hd' : Did h' h'' live'' bs' bs'' arg) : Did h h'' live'' bs bs'' arg := by
  refine ⟨hd'.good, hd'.live, ?_, hd.lost.trans hd'.lost⟩
  intro b hb hne
  obtain ⟨hb', ha⟩ := hd.kept b hb hne
  obtain ⟨hb'', ha'⟩ := hd'.kept b hb' hne
  exact ⟨hb'', ha.trans ha'⟩

/-- The new block of an allocation. -/
theorem Allocated.block_mem (ha : Allocated h h' bs bs' s rc) :
    ∃ u, rc = u.addr + HEADER ∧ u.size = s ∧ u ∈ usedBlocks bs' ∧
      (∀ c, c ∈ usedBlocks bs' ↔ c = u ∨ c ∈ usedBlocks bs) ∧
      ∀ c ∈ usedBlocks bs,
        c.addr + HEADER + c.size ≤ u.addr ∨ u.addr + HEADER + u.size ≤ c.addr := by
  obtain ⟨arenas, hg⟩ := ha.good
  obtain ⟨l, u, r, rfl, hrc, hs, hf, hused⟩ := ha.block
  have hmem : ∀ c, c ∈ usedBlocks (l ++ u :: r) ↔ c = u ∨ c ∈ usedBlocks bs := by
    intro c
    rw [← hused, usedBlocks_append, usedBlocks_append, usedBlocks_used hf]
    simp only [List.mem_append, List.mem_cons]
    tauto
  refine ⟨u, hrc, hs, (hmem u).mpr (Or.inl rfl), hmem, ?_⟩
  intro c hc
  rw [← hused] at hc
  exact hg.apart (mem_usedBlocks.mp hc).1

theorem Served.did (hs : Served h h' bs bs' s rc) (hm : Matches live bs) (arg : Nat) :
    Did h h' (Function.update live rc (some s)) bs bs' arg := by
  obtain ⟨u, rfl, rfl, _, hmem, hap⟩ := hs.alloc.block_mem
  refine ⟨hs.alloc.good, hm.add hmem ?_, ?_, hs.alloc.lost⟩
  · intro c hc heq
    have := hap c hc
    rw [header_eq] at this
    omega
  · exact fun b hb _ => ⟨(hmem b).mpr (Or.inr hb), hs.alloc.kept b hb⟩

theorem Freed.did (hfr : Freed h h' l b r bs') (hg : Good h arenas (l ++ b :: r))
    (hf : b.free = false) (hm : Matches live (l ++ b :: r)) :
    Did h h' (Function.update live (b.addr + HEADER) none) (l ++ b :: r) bs' (b.addr + HEADER) := by
  have hused : usedBlocks bs' = usedBlocks (l ++ r) := by
    rw [hfr.merges.used, usedBlocks_append, usedBlocks_free rfl, usedBlocks_append]
  have hnot := hg.not_mem
  have hmem : ∀ c, c ∈ usedBlocks bs' ↔ c ∈ usedBlocks (l ++ b :: r) ∧ c ≠ b := by
    intro c
    rw [hused, mem_usedBlocks, mem_usedBlocks]
    constructor
    · rintro ⟨hc, hcf⟩
      refine ⟨⟨?_, hcf⟩, ?_⟩
      · simp only [List.mem_append, List.mem_cons] at hc ⊢
        tauto
      · rintro rfl
        exact hnot hc
    · rintro ⟨⟨hc, hcf⟩, hne⟩
      refine ⟨?_, hcf⟩
      simp only [List.mem_append, List.mem_cons] at hc ⊢
      tauto
  refine ⟨hfr.good, hm.drop hmem ?_, ?_, ?_⟩
  · exact fun c hc heq => hg.addr_inj (mem_usedBlocks.mp hc).1 (by simp) heq
  · intro c hc hne
    have hcb : c ≠ b := by
      rintro rfl
      exact hne rfl
    have hc' := (hmem c).mpr ⟨hc, hcb⟩
    exact ⟨hc', hfr.kept c (hused ▸ hc')⟩
  · have := hfr.merges.total_le (H := HEADER)
    unfold heap.lost
    rw [hfr.regions]
    simp only [total_append, total_cons] at this ⊢
    omega

/-- No free block stands behind the block with the payload `p`. -/
def FreeTidy (bs : List Block) (p : Nat) : Prop :=
  ∀ l b n r, bs = l ++ b :: n :: r → b.addr + HEADER = p → n.free = false

theorem Freed.keeps_all (hfr : Freed h h' l b r bs')
    (ht : FreeTidy (l ++ b :: r) (b.addr + HEADER)) :
    heap.lost h' bs' = heap.lost h (l ++ b :: r) := by
  have hbs := hfr.clean (by
    intro n hn
    obtain ⟨r, rfl⟩ : ∃ r', r = n :: r' := List.head?_eq_some_iff.mp hn
    exact ht l b n r rfl rfl)
  unfold heap.lost
  rw [hfr.regions, hbs]
  simp

/-! ## A block moves -/

/-- Behind the block with the payload `p` no free block stands, but for the one that an
allocation of `s` bytes takes. -/
def MoveTidy (bs : List Block) (p s : Nat) : Prop :=
  ∀ l b n r, bs = l ++ b :: n :: r → b.addr + HEADER = p → n.free = true →
    Full (s + HEADER) l ∧ s + HEADER ≤ n.size

/-- After an allocation in its place, no free block stands behind a block that may move. -/
theorem Placed.free_tidy (hp : Placed s bs bs') (hg : Good h arenas bs)
    (hg' : ∃ arenas, Good h' arenas bs') (hb : b ∈ usedBlocks bs)
    (ht : MoveTidy bs (b.addr + HEADER) s) : FreeTidy bs' (b.addr + HEADER) := by
  obtain ⟨arenas', hg'⟩ := hg'
  obtain ⟨hb, hbf⟩ := mem_usedBlocks.mp hb
  -- it is enough to look behind `b` at one of its places
  have hone : ∀ x y, bs' = x ++ b :: y → (∀ n ∈ y.head?, n.free = false) →
      FreeTidy bs' (b.addr + HEADER) := by
    rintro x y rfl hy l c n r heq hca
    have hc : c = b := hg'.addr_inj (by rw [heq]; simp) (by simp) (by omega)
    subst hc
    obtain ⟨_, rfl⟩ := hg'.unique heq
    exact hy n (by simp)
  rcases hp with ⟨l, e, r, rfl, hef, hes, hfull, rfl⟩ | ⟨hfull, t, rfl⟩
  · have hbe : b ≠ e := by
      rintro rfl
      rw [hef] at hbf
      cases hbf
    simp only [List.mem_append, List.mem_cons, hbe, false_or] at hb
    rcases hb with hb | hb
    · obtain ⟨x, y, rfl⟩ := List.append_of_mem hb
      refine hone x (y ++ e.used s :: e.rest HEADER s :: r) (by simp) ?_
      intro n hn
      cases y with
      | nil =>
        obtain rfl : e.used s = n := by simpa using hn
        rfl
      | cons m y =>
        obtain rfl : m = n := by simpa using hn
        by_contra hmf
        have hm := ht x b m (y ++ e :: r) (by simp) rfl (by simpa using hmf)
        have := hfull m (by simp) (by simpa using hmf)
        omega
    · obtain ⟨x, y, rfl⟩ := List.append_of_mem hb
      refine hone (l ++ e.used s :: e.rest HEADER s :: x) y (by simp) ?_
      intro n hn
      obtain ⟨y, rfl⟩ : ∃ y', y = n :: y' := List.head?_eq_some_iff.mp hn
      by_contra hnf
      have hm := ht (l ++ e :: x) b n y (by simp) rfl (by simpa using hnf)
      have := hm.1 e (by simp) hef
      omega
  · obtain ⟨x, y, rfl⟩ := List.append_of_mem hb
    refine hone x (y ++ t) (by simp) ?_
    intro n hn
    cases y with
    | nil =>
      have hlast := hg.laid.top b (by simp)
      rw [hg.laid.last_free b (by simp) hlast.1] at hbf
      cases hbf
    | cons m y =>
      obtain rfl : m = n := by simpa using hn
      by_contra hmf
      have hm := ht x b m y rfl rfl (by simpa using hmf)
      have := hfull m (by simp) (by simpa using hmf)
      omega

/-- The end of `krealloc` and `krecalloc`: a new block was allocated, its payload was
written, and the old block is freed. -/
theorem Served.move (hs : Served h h1 bs bs' s rc) (hg : Good h arenas bs) (hm : Matches live bs)
    (hb : b ∈ usedBlocks bs) (ho : Only h1 h2 rc (rc + s)) (hhead : h2.head = h1.head)
    (hfinal : h2.final = h1.final) (hregs : h2.regions = h1.regions) :
    ∃ h3 bs3, kfree h2 (b.addr + HEADER) = .ok h3 ∧
      Did h h3 (Function.update (Function.update live (b.addr + HEADER) none) rc (some s)) bs bs3
        (b.addr + HEADER) ∧
      Agree h2.mem h3.mem rc (rc + s) ∧
      (Placed s bs bs' ∧ heap.lost h1 bs' = heap.lost h bs → MoveTidy bs (b.addr + HEADER) s →
        heap.lost h3 bs3 = heap.lost h bs) := by
  have hs2 := hs.write ho hhead hfinal hregs
  have hd2 := hs2.did hm (b.addr + HEADER)
  obtain ⟨u, hrc, rfl, huused, hmem, hap⟩ := hs2.alloc.block_mem
  obtain ⟨hb', hbf⟩ := mem_usedBlocks.mp ((hmem b).mpr (Or.inr hb))
  obtain ⟨arenas2, hg2⟩ := hs2.alloc.good
  have hub : u ≠ b := by
    rintro rfl
    have := hap u hb
    rw [header_eq] at this
    omega
  obtain ⟨l, r, rfl⟩ := List.append_of_mem hb'
  obtain ⟨h3, bs3, heq, hfr⟩ := kfree.spec hg2 hbf
  have hd3 := hfr.did hg2 hbf hd2.live
  refine ⟨h3, bs3, heq, ?_, ?_, ?_⟩
  · have hcomm : Function.update (Function.update live rc (some u.size)) (b.addr + HEADER) none =
        Function.update (Function.update live (b.addr + HEADER) none) rc (some u.size) := by
      refine Function.update_comm ?_ _ _ _
      have := hap b hb
      rw [header_eq] at *
      omega
    rw [← hcomm]
    exact hd2.trans hd3
  · have := (hd3.kept u huused (by
      have := hap b hb
      rw [header_eq] at *
      omega)).2
    rw [hrc]
    exact this.sub (by omega) (le_refl _)
  · rintro ⟨hpl, hlost⟩ hmt
    have hft := hpl.free_tidy hg ⟨arenas2, hg2⟩ hb hmt
    rw [hfr.keeps_all hft, ← hlost]
    unfold heap.lost
    rw [hregs]

/-! ## `krealloc`, `kcalloc` and `krecalloc` -/

theorem get_mem_size_null (h : Heap) : get_mem_size h 0 = 0 := rfl

theorem Good.get_mem_size (hg : Good h arenas bs) (hb : b ∈ bs) :
    get_mem_size h (b.addr + HEADER) = b.size := by
  have hspot := hg.spot hb
  have hsub : sub64 (b.addr + HEADER) HEADER = b.addr := by
    unfold sub64
    rw [header_eq] at *
    omega
  unfold heap.get_mem_size
  rw [if_neg (by rw [header_eq]; omega), hsub, (hg.header hb).size]

/-- The bytes that a call moves from `p` to `rc`. -/
def Moves (h h' : Heap) (p rc n : Nat) : Prop := ∀ i, i < n → h'.mem (rc + i) = h.mem (p + i)

/-- A smaller size is written into the header, and nothing else happens. -/
theorem Good.shrink (hg : Good h arenas (l ++ b :: r)) (hm : Matches live (l ++ b :: r))
    (hf : b.free = false) (hs : s ≤ b.size) :
    Did h (h.set_size b.addr s)
      (Function.update (Function.update live (b.addr + HEADER) none) (b.addr + HEADER) (some s))
      (l ++ b :: r) (l ++ { b with size := s } :: r) (b.addr + HEADER) := by
  have hsize := hg.size_lt (b := b) (by simp)
  have hb := hg.header (b := b) (by simp)
  have ho := only_set_size h b.addr s
  obtain ⟨hg', hk⟩ := hg.change_one (h.set_size b.addr s) { b with size := s }
    (ho.wider (le_refl _) (by omega))
    ⟨by simp [hb.magic], size_set_size _ _ (by omega), by simp [hb.flags, flag_bits]⟩ (by simp) rfl
    rfl rfl hs (hg.laid.last_free b (by simp)) rfl rfl rfl
  have hnot := hg.not_mem
  have hdrop : Matches (Function.update live (b.addr + HEADER) none) (l ++ r) := by
    refine hm.drop ?_ (fun c hc heq => hg.addr_inj (mem_usedBlocks.mp hc).1 (by simp) heq)
    intro c
    rw [usedBlocks_append, usedBlocks_append, usedBlocks_used hf]
    simp only [List.mem_append, List.mem_cons]
    constructor
    · intro hc
      refine ⟨by tauto, ?_⟩
      rintro rfl
      apply hnot
      rw [← List.mem_append, ← usedBlocks_append] at hc
      exact (mem_usedBlocks.mp hc).1
    · tauto
  refine ⟨⟨arenas, hg'⟩, ?_, ?_, ?_⟩
  · refine hdrop.add (u := { b with size := s }) ?_ ?_
    · intro c
      rw [usedBlocks_append, usedBlocks_append, usedBlocks_used (by exact hf)]
      simp only [List.mem_append, List.mem_cons]
      tauto
    · intro c hc heq
      have := hg.apart (mem_usedBlocks.mp hc).1
      simp only at heq
      rw [header_eq] at this
      omega
  · intro c hc hne
    have hcb : c ≠ b := by
      rintro rfl
      exact hne rfl
    rw [usedBlocks_append, usedBlocks_used hf] at hc
    have hc' : c ∈ usedBlocks (l ++ r) := by
      rw [usedBlocks_append]
      simp only [List.mem_append, List.mem_cons, hcb, false_or] at hc ⊢
      exact hc
    refine ⟨?_, hk c (mem_usedBlocks.mp hc').1⟩
    rw [mem_usedBlocks] at hc' ⊢
    refine ⟨?_, hc'.2⟩
    simp only [List.mem_append, List.mem_cons] at hc' ⊢
    tauto
  · unfold heap.lost
    show _ ≤ region_bytes h.regions - _
    simp only [total_append, total_cons]
    omega

theorem update_live_null (hm : Matches live bs) (rc s : Nat) :
    Function.update (Function.update live 0 none) rc (some s) =
          Function.update live rc (some s) := by
  have hnull : Function.update live 0 none = live := Function.update_eq_self_iff.mpr hm.null.symm
  rw [hnull]

/-- `krealloc` gives a block of its own with `s` bytes, and the bytes of the old one. -/
theorem krealloc.spec (hf : Fresh ksbrk) (hg : Good h arenas bs) (hm : Matches live bs)
    (hp : p = 0 ∨ ∃ n, live p = some n) (hs : s < 2 ^ 32 - 24) :
    Spec (krealloc ksbrk h p s) (· = .ksbrk) (fun (rc, h') => rc ≠ 0 ∧ ∃ bs',
      Did h h' (Function.update (Function.update live p none) rc (some s)) bs bs' p ∧
      Moves h h' p rc (min (get_mem_size h p) s) ∧
      ((p = 0 → Clean ksbrk h.regions bs s) → (p ≠ 0 → s = get_mem_size h p ∨
          (get_mem_size h p < s ∧ Clean ksbrk h.regions bs s ∧ MoveTidy bs p s)) →
        heap.lost h' bs' = heap.lost h bs)) := by
  unfold krealloc
  by_cases hp0 : p = 0
  · subst hp0
    rw [if_pos rfl]
    refine spec_post (kmalloc.spec hf hg hs) ?_
    rintro ⟨rc, h'⟩ ⟨bs', hserved, hclean⟩
    refine ⟨hserved.nonzero, bs', ?_, ?_, fun hc _ => (hclean (hc rfl)).2⟩
    · rw [update_live_null hm]
      exact hserved.did hm 0
    · intro i hi
      rw [get_mem_size_null] at hi
      omega
  · obtain ⟨n, hn⟩ := hp.resolve_left hp0
    obtain ⟨b, hb, rfl, rfl⟩ := (hm p n).mp hn
    obtain ⟨hbs, hbf⟩ := mem_usedBlocks.mp hb
    rw [if_neg hp0, hg.get_mem_size hbs]
    simp only
    have hsize := hg.size_lt hbs
    have hspot := hg.spot hbs
    by_cases heq : b.size = s
    · rw [if_pos heq]
      refine ⟨hp0, bs, ⟨⟨arenas, hg⟩, ?_, fun c hc _ => ⟨hc, agree_refl _ _ _⟩, le_refl _⟩,
        fun _ _ => rfl, fun _ _ => rfl⟩
      rw [Function.update_idem, Function.update_eq_self_iff.mpr (by rw [hm.at hb, heq])]
      exact hm
    · rw [if_neg heq]
      by_cases hlt : s < b.size
      · rw [if_pos hlt]
        have hsub : sub64 (b.addr + HEADER) HEADER = b.addr := by
          unfold sub64
          rw [header_eq] at *
          omega
        rw [hsub, show u32 s = s from Nat.mod_eq_of_lt (by omega)]
        obtain ⟨l, r, rfl⟩ := List.append_of_mem hbs
        refine ⟨hp0, _, hg.shrink hm hbf (by omega), ?_, ?_⟩
        · intro i hi
          show (h.set_size b.addr s).mem (b.addr + HEADER + i) = h.mem (b.addr + HEADER + i)
          exact only_set_size h b.addr s _ (by omega)
        · intro _ hc
          rcases hc hp0 with hc | ⟨hc, _⟩
          · omega
          · omega
      · rw [if_neg hlt]
        refine spec_bind (kmalloc.spec hf hg hs) ?_
        rintro ⟨rc, h1⟩ ⟨bs1, hserved, hclean⟩
        simp only
        rw [if_neg hserved.nonzero]
        obtain ⟨u, hrc, hus, _, _, hap⟩ := hserved.alloc.block_mem
        have hapb := hap b hb
        have hmin : min b.size s = b.size := by omega
        rw [hmin]
        have hcopy := memcpy_copied h1.mem rc (b.addr + HEADER) b.size (by omega)
        generalize memcpy h1.mem rc (b.addr + HEADER) b.size = m2 at hcopy
        have ho : Only h1 { h1 with mem := m2 } rc (rc + s) := fun x hx => hcopy.2 x (by omega)
        obtain ⟨h3, bs3, hfree, hd, hag, hlost⟩ := hserved.move hg hm hb ho rfl rfl rfl
        rw [hfree]
        refine ⟨hserved.nonzero, bs3, hd, ?_, ?_⟩
        · intro i hi
          rw [hag _ (by omega) (by omega)]
          refine (hcopy.1 i hi).trans ?_
          exact hserved.alloc.kept b hb _ (by omega) (by omega)
        · intro _ hc
          obtain ⟨_, hc, hmt⟩ := (hc hp0).resolve_left (by omega)
          exact hlost (hclean hc) hmt

/-- A heap with room for the larger block moves it there without a call of `ksbrk`. -/
theorem krealloc_room (ksbrk : Sbrk) (hg : Good h arenas bs) (hm : Matches live bs)
    (hb : b ∈ usedBlocks bs) (hlt : b.size < s) (hs : s < 2 ^ 32 - 24)
    (hroom : Room (s + HEADER) bs) :
    ∃ rc h', krealloc ksbrk h (b.addr + HEADER) s = .ok (rc, h') ∧ rc ≠ b.addr + HEADER := by
  obtain ⟨rc, h1, bs1, heq, hserved, _⟩ := kmalloc_room ksbrk hg hs hroom
  obtain ⟨u, hrc, hus, _, _, hap⟩ := hserved.alloc.block_mem
  have hapb := hap b hb
  have hH : 0 < HEADER := by decide
  have hcopy := memcpy_copied h1.mem rc (b.addr + HEADER) b.size (by omega)
  have ho : Only h1 { h1 with mem := memcpy h1.mem rc (b.addr + HEADER) b.size } rc (rc + s) :=
    fun x hx => hcopy.2 x (by omega)
  obtain ⟨h3, _, hfree, _⟩ := hserved.move hg hm hb ho rfl rfl rfl
  refine ⟨rc, h3, ?_, by omega⟩
  unfold krealloc
  rw [if_neg (by omega), hg.get_mem_size (mem_usedBlocks.mp hb).1]
  simp only
  rw [if_neg (by omega), if_neg (by omega), heq, ok_bind]
  simp only
  rw [if_neg hserved.nonzero, show min b.size s = b.size by omega, hfree]
  rfl

/-- A request whose bytes fit in a `size_t` is not turned down. -/
theorem overflows_false {nelem elsize : Nat} (hs : nelem * elsize < 2 ^ 32 - 24) :
    overflows nelem elsize = false := by
  unfold overflows
  rw [decide_eq_false_iff_not]
  rintro ⟨_, hpos, hlt⟩
  rw [Nat.div_lt_iff_lt_mul hpos, Nat.mul_comm] at hlt
  unfold SIZE_MAX at hlt
  omega

theorem only_memset (h : Heap) (p n : Nat) :
    Only h { h with mem := memset h.mem p 0 n } p (p + n) := by
  intro x hx
  show memset h.mem p 0 n x = _
  rw [memset_byte, if_neg (by omega)]

/-- `kcalloc` gives a block of its own with bytes that are all zero. -/
theorem kcalloc.spec (hf : Fresh ksbrk) (hg : Good h arenas bs) {nelem elsize : Nat}
    (hs : nelem * elsize < 2 ^ 32 - 24) :
    Spec (kcalloc ksbrk h nelem elsize) (· = .ksbrk) (fun (rc, h') => ∃ bs',
      Served h h' bs bs' (nelem * elsize) rc ∧ (∀ i, i < nelem * elsize → h'.mem (rc + i) = 0) ∧
      (Clean ksbrk h.regions bs (nelem * elsize) → heap.lost h' bs' = heap.lost h bs)) := by
  have hu : u64 (nelem * elsize) = nelem * elsize := Nat.mod_eq_of_lt (by omega)
  unfold kcalloc
  rw [overflows_false hs, if_neg (by simp), hu, fuel_eq]
  generalize nelem * elsize = s at *
  refine spec_bind (int_kmalloc.spec hf hg hs) ?_
  rintro ⟨rc, h1⟩ ⟨bs1, hserved, hclean⟩
  simp only
  rw [if_neg hserved.nonzero]
  refine ⟨bs1, hserved.write (only_memset h1 rc s) rfl rfl rfl, ?_, fun hc => (hclean hc).2⟩
  intro i hi
  show memset h1.mem rc 0 s (rc + i) = 0
  rw [memset_byte, if_pos (by omega)]

/-- `krecalloc` gives a block of its own, with the bytes of the old one and then zeros. -/
theorem krecalloc.spec (hf : Fresh ksbrk) (hg : Good h arenas bs) (hm : Matches live bs)
    (hp : p = 0 ∨ ∃ n, live p = some n) {nelem elsize : Nat} (hs : nelem * elsize < 2 ^ 32 - 24) :
    Spec (krecalloc ksbrk h p nelem elsize) (· = .ksbrk) (fun (rc, h') => rc ≠ 0 ∧ ∃ bs',
      Did h h' (Function.update (Function.update live p none) rc (some (nelem * elsize))) bs bs' p ∧
      Moves h h' p rc (min (get_mem_size h p) (nelem * elsize)) ∧
      (∀ i, min (get_mem_size h p) (nelem * elsize) ≤ i → i < nelem * elsize →
        h'.mem (rc + i) = 0) ∧
      (Clean ksbrk h.regions bs (nelem * elsize) → MoveTidy bs p (nelem * elsize) →
        heap.lost h' bs' = heap.lost h bs)) := by
  have hu : u64 (nelem * elsize) = nelem * elsize := Nat.mod_eq_of_lt (by omega)
  have hno := overflows_false hs
  unfold krecalloc
  rw [hno, if_neg (by simp)]
  by_cases hp0 : p = 0
  · subst hp0
    rw [if_pos rfl]
    refine spec_post (kcalloc.spec hf hg hs) ?_
    rintro ⟨rc, h'⟩ ⟨bs', hserved, hzero, hclean⟩
    refine ⟨hserved.nonzero, bs', ?_, ?_, fun i _ hi => hzero i hi, fun hc _ => hclean hc⟩
    · rw [update_live_null hm]
      exact hserved.did hm 0
    · intro i hi
      rw [get_mem_size_null] at hi
      omega
  · obtain ⟨n, hn⟩ := hp.resolve_left hp0
    obtain ⟨b, hb, rfl, rfl⟩ := (hm p n).mp hn
    obtain ⟨hbs, hbf⟩ := mem_usedBlocks.mp hb
    rw [if_neg hp0, hg.get_mem_size hbs, hu, fuel_eq]
    simp only
    generalize nelem * elsize = s at *
    refine spec_bind (int_kmalloc.spec hf hg hs) ?_
    rintro ⟨rc, h1⟩ ⟨bs1, hserved, hclean⟩
    simp only
    rw [if_neg hserved.nonzero]
    obtain ⟨arenas1, hg1⟩ := hserved.alloc.good
    obtain ⟨u, hrc, hus, _, hmem, hap⟩ := hserved.alloc.block_mem
    have hapb := hap b hb
    rw [hg1.get_mem_size (mem_usedBlocks.mp ((hmem b).mpr (Or.inr hb))).1]
    -- the zeros, then the copy, and both stay inside of the new payload
    have hzero := only_memset h1 rc s
    have hcopy := memcpy_copied (memset h1.mem rc 0 s) rc (b.addr + HEADER) (min b.size s)
      (by omega)
    generalize memcpy (memset h1.mem rc 0 s) rc (b.addr + HEADER) (min b.size s) = m2 at hcopy
    have ho : Only h1 { h1 with mem := m2 } rc (rc + s) :=
      fun x hx => (hcopy.2 x (by omega)).trans (hzero x hx)
    obtain ⟨h3, bs3, hfree, hd, hag, hlost⟩ := hserved.move hg hm hb ho rfl rfl rfl
    rw [hfree]
    refine ⟨hserved.nonzero, bs3, hd, ?_, ?_, fun hc hmt => hlost (hclean hc) hmt⟩
    · intro i hi
      rw [hag _ (by omega) (by omega)]
      refine (hcopy.1 i hi).trans ((hzero _ (by omega)).trans ?_)
      exact hserved.alloc.kept b hb _ (by omega) (by omega)
    · intro i hi1 hi2
      rw [hag _ (by omega) (by omega)]
      refine (hcopy.2 _ (by omega)).trans ?_
      rw [memset_byte, if_pos (by omega)]

end salsola.heap
