-- The search for a free block is complete. It reads the headers and nothing else, so it
-- finds the first run of free headers with room in any list of headers, however the
-- blocks behind them are laid out.
import Salsola.HeapSearch

open memory blocks outcome

namespace salsola.heap

variable {h h' h'' : Heap} {bs bs' l r r' : List Block} {b b' n : Block} {need e p fuel : Nat}

/-- A list of headers: they stand in memory, in a chain from `head`, and share no byte. -/
structure Listed (h : Heap) (bs : List Block) : Prop where
  chain : Seg h h.head bs 0
  apart : bs.Pairwise fun a b => a.addr + HEADER ≤ b.addr ∨ b.addr + HEADER ≤ a.addr
  pos : ∀ b ∈ bs, 0 < b.addr
  sizes : total 0 bs < 2 ^ 32 - HEADER
  -- the list ends before a walk over it counts as endless
  few : bs.length < FUEL

/-- The blocks in use keep their headers. -/
def HeadersKept (bs : List Block) (h h' : Heap) : Prop :=
  ∀ b ∈ usedBlocks bs, Agree h.mem h'.mem b.addr (b.addr + HEADER)

theorem HeadersKept.trans (hk : HeadersKept bs h h') (hk' : HeadersKept bs' h' h'')
    (hu : usedBlocks bs' = usedBlocks bs) : HeadersKept bs h h'' :=
  fun b hb => (hk b hb).trans (hk' b (hu ▸ hb))

theorem headersKept_refl (bs : List Block) (h : Heap) : HeadersKept bs h h :=
  fun _ _ => agree_refl _ _ _

/-- No run of free blocks goes on from `b` into the list behind it. -/
def Closed (b : Block) (r : List Block) : Prop :=
  b.free = true → b.last = false → ∀ n ∈ r.head?, n.free = false

theorem Listed.at (hl : Listed h (l ++ b :: r)) : Seg h b.addr (b :: r) 0 := by
  obtain ⟨k, _, rfl, hb, hr⟩ := seg_append.mp hl.chain
  exact ⟨rfl, hb, hr⟩

theorem Listed.tail_pos (hl : Listed h (l ++ r)) : ∀ c ∈ r, 0 < c.addr :=
  fun c hc => hl.pos c (List.mem_append_right l hc)

/-! ## Merges in a list of headers -/

theorem Listed.merge (hl : Listed h (l ++ b :: n :: r)) (hf : b.free = true)
    (hlast : b.last = false) (hn : n.free = true) :
    ∃ h', merge_headers h b.addr = .ok (true, h') ∧ Listed h' (l ++ b.merge n :: r) ∧
      HeadersKept (l ++ b :: n :: r) h h' := by
  obtain ⟨_, hb, hnext, hnh, hr⟩ := hl.at
  have hpos := hl.tail_pos
  have happ := hl.apart
  simp only [List.pairwise_append, List.pairwise_cons, List.mem_cons] at happ
  obtain ⟨happl, ⟨happb, happn, happr⟩, hcross⟩ := happ
  have hsizes := hl.sizes
  simp only [total_append, total_cons] at hsizes
  have ha := absorbed.spec hb hnh (happb n (Or.inl rfl)) hlast (by omega)
  refine ⟨_, by
    rw [merge_headers_beside hb hnh hnext (hpos b (by simp)) (hpos n (by simp)) hf hlast, hn]
    rfl, ?_⟩
  generalize absorbed h b.addr n.addr = h' at ha
  -- the write goes to the header of `b` alone
  have hkeep : ∀ c ∈ l ++ n :: r, Agree h.mem h'.mem c.addr (c.addr + HEADER) := by
    intro c hc
    apply ha.only.agree
    rcases List.mem_append.mp hc with hc | hc
    · exact hcross c hc b (Or.inl rfl)
    · exact (happb c (List.mem_cons.mp hc)).symm
  obtain ⟨k, hsl, rfl, _⟩ := seg_append.mp hl.chain
  refine ⟨⟨?_, ?_, ?_, ?_, ?_⟩, ?_⟩
  · rw [ha.head]
    have hbehind : Seg h' (h'.next b.addr) r 0 := by
      rw [ha.next]
      exact hr.congr (fun c hc => hkeep c (by simp [hc]))
    exact seg_append.mpr ⟨b.addr, hsl.congr (fun c hc => hkeep c (by simp [hc])), rfl, ha.header,
      hbehind⟩
  · simp only [List.pairwise_append, List.pairwise_cons, List.mem_cons]
    refine ⟨happl, ⟨fun c hc => happb c (Or.inr hc), happr⟩, ?_⟩
    rintro c hc d (rfl | hd)
    · exact hcross c hc b (Or.inl rfl)
    · exact hcross c hc d (Or.inr (Or.inr hd))
  · intro c hc
    rcases List.mem_append.mp hc with hc | hc
    · exact hl.pos c (by simp [hc])
    · rcases List.mem_cons.mp hc with rfl | hc
      · exact hpos b (by simp)
      · exact hpos c (by simp [hc])
  · have := (MergeStep.merge l r hf hlast hn).total (H := 0)
    have := hl.sizes
    omega
  · have := hl.few
    simp only [List.length_append, List.length_cons] at this ⊢
    omega
  · intro c hc
    obtain ⟨hc, hcf⟩ := mem_usedBlocks.mp hc
    apply hkeep
    simp only [List.mem_append, List.mem_cons] at hc ⊢
    rcases hc with hc | rfl | hc
    · exact Or.inl hc
    · rw [hf] at hcf
      cases hcf
    · exact Or.inr hc

/-- What the merges at `b` leave of it and of the list behind it: a run that ends there. -/
structure Collected (h h' : Heap) (l : List Block) (b : Block) (r : List Block) (b' : Block)
    (r' : List Block) : Prop where
  listed : Listed h' (l ++ b' :: r')
  merges : Merges (b :: r) (b' :: r')
  addr : b'.addr = b.addr
  free : b'.free = b.free
  length : r'.length ≤ r.length
  kept : HeadersKept (l ++ b :: r) h h'
  closed : Closed b' r'

theorem Listed.merge_all (hl : Listed h (l ++ b :: r)) (hfuel : r.length < fuel) :
    ∃ h' b' r', merge_all fuel h b.addr = .ok h' ∧ Collected h h' l b r b' r' := by
  induction fuel generalizing h b r with
  | zero => omega
  | succ fuel ih =>
    unfold heap.merge_all
    by_cases hstay : Closed b r
    · refine ⟨h, b, r, ?_, hl, .refl, rfl, rfl, le_refl _, headersKept_refl _ _, hstay⟩
      rw [hl.at.merge_stays hl.tail_pos hstay, ok_bind]
      rfl
    · unfold Closed at hstay
      push Not at hstay
      obtain ⟨hf, hlast, n, hn, hnf⟩ := hstay
      obtain ⟨r, rfl⟩ : ∃ k, r = n :: k := List.head?_eq_some_iff.mp hn
      have hnf : n.free = true := by simpa using hnf
      obtain ⟨h1, heq, hl1, hk1⟩ := hl.merge hf hlast hnf
      obtain ⟨h2, b', r', heq2, ha⟩ := ih (b := b.merge n) hl1 (by simp at hfuel; omega)
      have hstep : MergeStep (b :: n :: r) (b.merge n :: r) := .merge [] r hf hlast hnf
      refine ⟨h2, b', r', by rw [heq, ok_bind]; exact heq2, ha.listed, ha.merges.head hstep,
        ha.addr, ha.free, ?_, hk1.trans ha.kept (hstep.behind l).used, ha.closed⟩
      have := ha.length
      simp only [List.length_cons]
      omega

/-! ## The search over the runs -/

/-- `e` is the first header of the first run with room in `bs`, and has the room itself; or
there is no such run, and `e` is 0. -/
def FirstRunAt (need e : Nat) (bs : List Block) : Prop :=
  (e = 0 ∧ ∀ run ∈ freeRuns none bs, run.2 < need) ∨
    ∃ run, (freeRuns none bs).find? (fun run => need ≤ run.2) = some run ∧ run.1 = e ∧
      ∃ b ∈ bs, b.addr = e ∧ b.free = true ∧ need ≤ b.size

theorem firstRunAt_used (hb : b.free = false) (hf : FirstRunAt need e bs) :
    FirstRunAt need e (b :: bs) := by
  unfold FirstRunAt
  rw [freeRuns_used hb, Option.toList_none, List.nil_append]
  rcases hf with hf | ⟨run, h1, h2, c, hc, h3⟩
  · exact Or.inl hf
  · exact Or.inr ⟨run, h1, h2, c, by simp [hc], h3⟩

/-- A free block at which a run ends is a run of its own. -/
theorem freeRuns_closed (hb : b.free = true) (hc : Closed b r) :
    freeRuns none (b :: r) = (b.addr, b.size) :: freeRuns none r := by
  cases hl : b.last with
  | true => exact freeRuns_last hb hl none
  | false => exact (freeRuns_free hb hl none).trans (freeRuns_some _ _ (hc hb hl))

/-- The search passes by a run without room. The merges behind it do not matter to the run. -/
theorem firstRunAt_passed (hb : b.free = true) (hc : Closed b r) (hm : Merges r r')
    (hs : b.size < need) (hf : FirstRunAt need e r') : FirstRunAt need e (b :: r') := by
  have hruns : freeRuns none (b :: r') = (b.addr, b.size) :: freeRuns none r' := by
    rw [← List.singleton_append, (hm.behind [b]).runs none, List.singleton_append,
      freeRuns_closed hb hc, hm.runs none]
  unfold FirstRunAt
  rw [hruns]
  rcases hf with ⟨h0, hf⟩ | ⟨run, h1, h2, c, hc, h3⟩
  · exact Or.inl ⟨h0, List.forall_mem_cons.mpr ⟨hs, hf⟩⟩
  · exact Or.inr ⟨run, by simpa [List.find?_cons, hs] using h1, h2, c, by simp [hc], h3⟩

/-- The search stops at a free header with room: its run has room, too. -/
theorem firstRunAt_here (hb : b.free = true) (hs : need ≤ b.size) :
    FirstRunAt need b.addr (b :: bs) := by
  have hruns : ∃ m rs, freeRuns none (b :: bs) = (b.addr, m) :: rs ∧ b.size ≤ m := by
    cases hl : b.last with
    | true => exact ⟨b.size, _, freeRuns_last hb hl none, le_refl _⟩
    | false =>
      rw [freeRuns_free hb hl none]
      exact freeRuns_grows _ _
  obtain ⟨m, rs, heq, hm⟩ := hruns
  refine Or.inr ⟨(b.addr, m), ?_, rfl, b, by simp, rfl, hb, hs⟩
  rw [heq, List.find?_cons_of_pos]
  simpa using hs.trans hm

/-- What the search makes of the headers `r` behind the headers `l`. -/
structure Completed (need : Nat) (h h' : Heap) (l r r' : List Block) (e : Nat) : Prop where
  listed : Listed h' (l ++ r')
  merges : Merges r r'
  kept : HeadersKept (l ++ r) h h'
  first : FirstRunAt need e r'

/-- The search goes on behind a header that it passes by. -/
theorem Completed.cons (hc : Completed need h h' (l ++ [b]) r r' e)
    (hf : FirstRunAt need e r' → FirstRunAt need e (b :: r')) :
    Completed need h h' l (b :: r) (b :: r') e where
  listed := by simpa using hc.listed
  merges := hc.merges.behind [b]
  kept := by simpa using hc.kept
  first := hf hc.first

/-- The search goes on after the merges at the header in front. -/
theorem Collected.completed {r1 : List Block} (hco : Collected h h' l b r b' r1)
    (hc : Completed need h' h'' l (b' :: r1) r' e) : Completed need h h'' l (b :: r) r' e where
  listed := hc.listed
  merges := hco.merges.trans hc.merges
  kept := hco.kept.trans hc.kept (hco.merges.behind l).used
  first := hc.first

theorem completed_here (hl : Listed h (l ++ b :: r)) (hf : b.free = true) (hs : need ≤ b.size) :
    Completed need h h l (b :: r) (b :: r) b.addr :=
  ⟨hl, .refl, headersKept_refl _ _, firstRunAt_here hf hs⟩

/-- The search ends at the first header of the first run with room, or at the end. A run that
it goes on behind is one header by then, so the next one starts a run of its own. -/
theorem Listed.find_loop (hl : Listed h (l ++ r)) (hp : Seg h p r 0) (hfuel : r.length < fuel)
    (need : Nat) :
    ∃ e h' r', find_loop need fuel h p = .ok (e, h') ∧ Completed need h h' l r r' e := by
  induction fuel generalizing h l r p with
  | zero => omega
  | succ fuel ih =>
    cases r with
    | nil =>
      rw [seg_nil] at hp
      subst hp
      exact ⟨0, h, [], rfl, hl, .refl, headersKept_refl _ _, Or.inl ⟨rfl, by simp [freeRuns]⟩⟩
    | cons b r =>
      obtain ⟨rfl, hb, hr⟩ := hp
      have hpos := hl.tail_pos
      have hpb := hpos b (by simp)
      simp only [List.length_cons] at hfuel
      unfold heap.find_loop
      rw [if_neg (by omega : ¬ b.addr = 0), assert_of hb.magic, ok_bind]
      cases hf : b.free with
      | false =>
        rw [if_pos (by rw [hb.flags]; exact (flag_bits_free b).mpr hf),
          hl.at.next_header (fun c hc => hpos c (by simp [hc])), ok_bind]
        obtain ⟨e, h2, r2, heq, hc⟩ := ih (l := l ++ [b]) (r := r) (by simpa using hl) hr (by omega)
        exact ⟨e, h2, b :: r2, heq, hc.cons (firstRunAt_used hf)⟩
      | true =>
        rw [if_neg (by rw [hb.flags, flag_bits_free, hf]; simp), hb.size]
        by_cases hroom : b.size < need
        · rw [if_pos hroom]
          have hlen : r.length < FUEL := by
            have := hl.few
            simp only [List.length_append, List.length_cons] at this
            omega
          obtain ⟨h1, b', r1, heq, hco⟩ := hl.merge_all hlen
          have hat := hco.listed.at
          have hf' : b'.free = true := hco.free.trans hf
          rw [heq, ok_bind, ← hco.addr, hat.2.1.size]
          by_cases hroom' : need ≤ b'.size
          · rw [if_pos hroom']
            exact ⟨_, _, _, rfl, hco.completed (completed_here hco.listed hf' hroom')⟩
          · rw [if_neg hroom', hat.next_header
              (fun c hc => hco.listed.tail_pos c (by simp [hc])), ok_bind]
            obtain ⟨e, h2, r2, heq2, hc⟩ := ih (l := l ++ [b']) (r := r1)
              (by simpa using hco.listed) hat.2.2 (by have := hco.length; omega)
            exact ⟨e, h2, b' :: r2, heq2, hco.completed
              (hc.cons (firstRunAt_passed hf' hco.closed hc.merges (by omega)))⟩
        · rw [if_neg hroom]
          exact ⟨_, _, _, rfl, completed_here hl hf (by omega)⟩

/-! ## The whole search -/

/-- `find_free_entry` gives 0 just when no run of free headers within a region has room, else the
first header of the first run with room, which is free and has the room by itself. On its way it
changes no header in use, and the sum of no run. -/
theorem the_search_finds_the_first_run_with_room (ksbrk : Sbrk) (h : Heap) (bs : List Block)
    (s : Nat) (hl : Listed h bs) (hne : bs ≠ []) (hs : s < 2 ^ 32 - HEADER) :
    ∃ e h' bs', find_free_entry ksbrk h s = .ok (e, h') ∧ Listed h' bs' ∧
      (e = 0 ↔ ∀ run ∈ freeRuns none bs, run.2 < s + HEADER) ∧
      (e ≠ 0 → (∃ n, (freeRuns none bs).find? (fun run => s + HEADER ≤ run.2) = some (e, n)) ∧
        ∃ b ∈ bs', b.addr = e ∧ b.free = true ∧ s + HEADER ≤ b.size) ∧
      HeadersKept bs h h' ∧ usedBlocks bs' = usedBlocks bs ∧
      freeRuns none bs' = freeRuns none bs := by
  obtain ⟨b, r, rfl⟩ := List.exists_cons_of_ne_nil hne
  have hhead : h.head ≠ 0 := by
    have := hl.pos b (by simp)
    rw [hl.chain.1]
    omega
  have hneed : u32 (s + HEADER) = s + HEADER := Nat.mod_eq_of_lt (by omega)
  obtain ⟨e, h', bs', heq, hc⟩ := Listed.find_loop (l := []) hl hl.chain hl.few (s + HEADER)
  have hruns := hc.merges.runs none
  have hfirst := hc.first
  unfold FirstRunAt at hfirst
  rw [hruns] at hfirst
  refine ⟨e, h', bs', ?_, hc.listed, ?_, ?_, hc.kept, hc.merges.used, hruns⟩
  · rw [find_free_entry_eq hhead, hneed]
    exact heq
  · constructor
    · rintro rfl
      rcases hfirst with ⟨-, hnone⟩ | ⟨run, -, -, c, hc', h0, -⟩
      · exact hnone
      · have := hc.listed.pos c hc'
        omega
    · intro hnone
      rcases hfirst with ⟨h0, -⟩ | ⟨run, hrun, -⟩
      · exact h0
      · have hroom := List.find?_some hrun
        have hlt := hnone run (List.mem_of_find?_eq_some hrun)
        simp only [decide_eq_true_eq] at hroom
        omega
  · intro he
    rcases hfirst with ⟨h0, -⟩ | ⟨⟨a, n⟩, hrun, rfl, hfound⟩
    · exact absurd h0 he
    · exact ⟨⟨n, hrun⟩, hfound⟩

/-- Two free headers, for 20 bytes each. -/
def two_blocks : List Block :=
  [{ addr := 0x1000, size := 20, free := true, last := false, arena := 0 },
    { addr := 0x102c, size := 20, free := true, last := true, arena := 0 }]

/-- The two headers in memory. -/
def two_free : Heap :=
  let h : Heap := { mem := fun _ => 0, head := 0x1000, final := 0x102c, total_heap_size := 0,
                    seed := ⟨0, 0, 0, 0⟩, regions := [] }
  let h := (h.set_magic 0x1000 MAGIC).set_size 0x1000 20
  let h := (h.set_flags 0x1000 IS_FREE).set_next 0x1000 0x102c
  let h := (h.set_magic 0x102c MAGIC).set_size 0x102c 20
  h.set_flags 0x102c (IS_FREE ||| IS_FINAL)

theorem two_free_listed : Listed two_free two_blocks where
  chain := ⟨rfl, ⟨by decide, by decide, by decide⟩, by decide, ⟨by decide, by decide, by decide⟩,
    (by decide : two_free.next 0x102c = 0)⟩
  apart := by decide
  pos := by decide
  sizes := by decide
  few := by decide

/-- Neither header has room for 10 bytes and a header more, but their run has. -/
theorem the_search_joins_two_headers :
    ∃ h', find_free_entry (fun _ _ => none) two_free 10 = .ok (0x1000, h') := by
  obtain ⟨e, h', bs', heq, -, hzero, hfirst, -⟩ :=
    the_search_finds_the_first_run_with_room (fun _ _ => none) two_free two_blocks 10
      two_free_listed (by decide) (by decide)
  have hruns : freeRuns none two_blocks = [(0x1000, 40)] := rfl
  rw [hruns] at hzero hfirst
  have he : e ≠ 0 := by
    intro h0
    exact absurd (hzero.mp h0 (0x1000, 40) (by simp)) (by decide)
  obtain ⟨⟨n, hfind⟩, -⟩ := hfirst he
  rw [List.find?_cons_of_pos (by decide)] at hfind
  cases hfind
  exact ⟨h', heq⟩

end salsola.heap
