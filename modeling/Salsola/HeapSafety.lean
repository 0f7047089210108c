-- Where kmalloc puts a payload: inside the free chunk that it splits, as long
-- as the request and the 24 bytes of a header fit in 32 bits together.
import Salsola.HeapRuns

open memory blocks outcome

namespace salsola.heap

/-- A call of `int_kmalloc` for `s` bytes on `h` comes to split the free entry `e` of `h1`. -/
inductive Splits (ksbrk : Sbrk) (s : Nat) : Heap → Nat → Heap → Prop
  | found {h h1 : Heap} {e : Nat} : find_free_entry ksbrk h (u32 s) = .ok (e, h1) → e ≠ 0 →
      Splits ksbrk s h e h1
  | grown {h h1 h2 h3 : Heap} {e : Nat} : find_free_entry ksbrk h (u32 s) = .ok (0, h1) →
      add_heap_memory ksbrk h1 s = .ok (true, h2) → Splits ksbrk s h2 e h3 →
      Splits ksbrk s h e h3

/-- The payload at `p` and the header behind it are apart from the `n` bytes at `a`. -/
def Clear (p s a n : Nat) : Prop := a + n ≤ p ∨ p + s + HEADER ≤ a

/-- What a client expects of a pointer to `s` bytes from `kmalloc`, after a call that left `h'`. -/
structure Safe (ksbrk : Sbrk) (w : World) (s p : Nat) (h' : Heap) : Prop where
  size : get_mem_size h' p = s
  /-- The payload and the next header lie in the payload of the free entry that was split, and
  touch no other header. -/
  inside : ∃ e h1, Splits ksbrk s w.now e h1 ∧ h1.flags e &&& IS_FREE ≠ 0 ∧ p = e + HEADER ∧
    s + HEADER ≤ h1.size e ∧ ∀ b ∈ h1.blocks, b.addr ≠ e → Clear p s b.addr HEADER
  live : ∀ q n, w.live q = some n → Clear p s (q - HEADER) (HEADER + n)

variable {h h' h1 : Heap} {arenas : List Arena} {bs : List Block} {ksbrk : Sbrk} {w : World}
  {s p e fuel : Nat}

/-- A pointer comes from a split. -/
theorem int_kmalloc_splits (heq : int_kmalloc ksbrk fuel h s = .ok (p, h')) (hp : p ≠ 0) :
    ∃ e h1, Splits ksbrk s h e h1 ∧ p = u64 (e + HEADER) := by
  induction fuel generalizing h p h' with
  | zero => cases heq
  | succ fuel ih =>
    unfold int_kmalloc at heq
    obtain ⟨⟨e, h1⟩, hfind, heq⟩ := bind_eq_ok.mp heq
    dsimp only at heq
    by_cases he : e = 0
    · subst he
      rw [if_pos rfl] at heq
      obtain ⟨⟨ok, h2⟩, hadd, heq⟩ := bind_eq_ok.mp heq
      dsimp only at heq
      cases ok with
      | false =>
        cases heq
        exact absurd rfl hp
      | true =>
        obtain ⟨⟨rc, h3⟩, hrec, heq⟩ := bind_eq_ok.mp heq
        dsimp only at heq
        by_cases hrc : rc = 0
        · rw [if_pos hrc] at heq
          cases heq
          exact absurd rfl hp
        · rw [if_neg hrc] at heq
          cases heq
          obtain ⟨e, h4, hsplits, hpe⟩ := ih hrec hrc
          exact ⟨e, h4, .grown hfind hadd hsplits, hpe⟩
    · rw [if_neg he, split_entry_eq] at heq
      obtain ⟨⟨merged, h2⟩, -, heq⟩ := bind_eq_ok.mp heq
      cases heq
      exact ⟨e, h1, .found hfind he, rfl⟩

theorem kmalloc_splits (heq : kmalloc ksbrk h s = .ok (p, h')) (hp : p ≠ 0) :
    ∃ e h1, Splits ksbrk s h e h1 ∧ p = u64 (e + HEADER) := by
  unfold kmalloc at heq
  obtain ⟨⟨rc, h1⟩, hrec, heq⟩ := bind_eq_ok.mp heq
  dsimp only at heq
  by_cases hrc : rc = 0
  · rw [if_pos hrc] at heq
    cases heq
    exact absurd rfl hp
  · rw [if_neg hrc] at heq
    cases heq
    exact int_kmalloc_splits hrec hrc

/-- The entry that is split is a free block with room, among the same blocks in use. -/
theorem find_free_entry.spec (hf : Fresh ksbrk) (hg : Good h arenas bs) (hs : s < LIMIT)
    (heq : find_free_entry ksbrk h (u32 s) = .ok (e, h1)) :
    ∃ arenas1 bs1, Good h1 arenas1 bs1 ∧ bs1 ≠ [] ∧ usedBlocks bs1 = usedBlocks bs ∧
      First (s + HEADER) e bs1 := by
  by_cases hne : bs = []
  · subst hne
    obtain rfl := hg.laid.none rfl
    unfold find_free_entry at heq
    rw [if_pos (show h.head = 0 from hg.chain)] at heq
    obtain ⟨⟨ok, h2⟩, hinit, heq⟩ := bind_eq_ok.mp heq
    obtain ⟨rfl, p, -, -, -, hg2⟩ := spec_of_ok (kmalloc_init.spec hf hg) hinit
    dsimp only at heq
    obtain ⟨e', h3, bs3, hfind, hsr⟩ := hg2.search (s + HEADER)
    rw [if_pos rfl, need_eq hs, hfind] at heq
    cases heq
    refine ⟨_, bs3, hsr.good, hsr.merges.ne_nil (by simp), ?_, hsr.first⟩
    rw [hsr.merges.used]
    rfl
  · obtain ⟨e', h3, bs3, hfind, hsr⟩ := hg.search (s + HEADER)
    rw [find_free_entry_eq (hg.head_ne hne), need_eq hs, hfind] at heq
    cases heq
    exact ⟨_, bs3, hsr.good, hsr.merges.ne_nil hne, hsr.merges.used, hsr.first⟩

theorem Splits.spec (hsp : Splits ksbrk s h e h1) (hf : Fresh ksbrk) (hg : Good h arenas bs)
    (hs : s < LIMIT) :
    ∃ arenas1 l b r, Good h1 arenas1 (l ++ b :: r) ∧ b.addr = e ∧ b.free = true ∧
      s + HEADER ≤ b.size ∧ usedBlocks (l ++ b :: r) = usedBlocks bs := by
  induction hsp generalizing arenas bs with
  | found hfind he =>
    obtain ⟨arenas1, bs1, hg1, -, hused, hfirst⟩ := find_free_entry.spec hf hg hs hfind
    rcases hfirst with ⟨h0, -⟩ | ⟨l, b, r, rfl, rfl, hbf, hsize, -⟩
    · exact absurd h0 he
    · exact ⟨arenas1, l, b, r, hg1, rfl, hbf, hsize, hused⟩
  | grown hfind hadd hsp ih =>
    obtain ⟨arenas1, bs1, hg1, hne, hused, -⟩ := find_free_entry.spec hf hg hs hfind
    obtain ⟨-, p, bs2, -, hgr, -⟩ := spec_of_ok (add_heap_memory.spec hf hg1 hne hs) hadd
    obtain ⟨arenas2, hg2⟩ := hgr.good
    obtain ⟨arenas3, l, b, r, hg3, hb, hbf, hsize, hused3⟩ := ih hg2
    exact ⟨arenas3, l, b, r, hg3, hb, hbf, hsize, hused3.trans (hgr.grows.used.trans hused)⟩

/-- The new header has the flags of the entry that is split. -/
theorem cut_flags (h : Heap) (a n k : Nat) : (cut h a n k).flags k = h.flags a := by
  have hset : ∀ x y, ((((h.set_flags k (h.flags a)).set_next k x).set_size k y).set_magic k
      MAGIC).flags k = h.flags a := by
    intro x y
    simp
    exact flags_set_flags h k (read_lt h.mem (a + 12) 1)
  unfold cut
  dsimp only
  split
  · exact hset _ _
  · exact hset _ _

/-! ## The limit -/

theorem mem_others {l r : List Block} {b c : Block} (hc : c ∈ l ++ b :: r) (hne : c ≠ b) :
    c ∈ l ++ r := by
  rw [List.mem_append, List.mem_cons] at hc
  rw [List.mem_append]
  rcases hc with hl | heq | hr
  · exact Or.inl hl
  · exact absurd heq hne
  · exact Or.inr hr

theorem safe_of_lt (hf : Fresh ksbrk) (hw : w.Good) (hs : s < LIMIT)
    (heq : kmalloc ksbrk w.now s = .ok (p, h')) (hp : p ≠ 0) : Safe ksbrk w s p h' := by
  obtain ⟨arenas, hg⟩ := hw.laid
  obtain ⟨bs', hserved, -⟩ := spec_of_ok (kmalloc.spec hf hg hs) heq
  obtain ⟨⟨arenas', hg'⟩, ⟨l', u, r', rfl, hpu, hsize', -, -⟩, -, -⟩ := hserved.alloc
  obtain ⟨e, h1, hsplits, hpe⟩ := kmalloc_splits heq hp
  obtain ⟨arenas1, l, b, r, hg1, rfl, hbf, hsize, hused⟩ := hsplits.spec hf hg hs
  have hspot := hg1.spot (b := b) (by simp)
  have hpb : p = b.addr + HEADER := by
    rw [hpe]
    exact Nat.mod_eq_of_lt (by rw [header_eq] at *; omega)
  have hheader := hg1.header (b := b) (by simp)
  refine ⟨?_, ⟨b.addr, h1, hsplits, ?_, hpb, by rw [hheader.size]; exact hsize, ?_⟩, ?_⟩
  · rw [hpu, hg'.get_mem_size (by simp), hsize']
  · rw [hheader.flags, Ne, flag_bits_free, hbf]
    decide
  · intro c hc hne
    rw [hg1.blocks] at hc
    have := hg1.apart (mem_others hc (fun heq => hne (congrArg Block.addr heq)))
    unfold Clear
    rw [header_eq] at *
    omega
  · intro q n hq
    obtain ⟨c, hc, rfl, rfl⟩ := (hw.live q n).mp hq
    rw [← hused] at hc
    obtain ⟨hmem, hcf⟩ := mem_usedBlocks.mp hc
    have hne : c ≠ b := by
      rintro rfl
      rw [hbf] at hcf
      cases hcf
    have := hg1.apart (mem_others hmem hne)
    unfold Clear
    rw [header_eq] at *
    omega

/-- In each run in which all requests so far were below the limit, a pointer that `kmalloc` gives
is safe exactly when the request is below the limit. -/
theorem kmalloc_is_safe_iff_the_header_fits (hf : Fresh ksbrk) (hr : Run ksbrk w)
    (heq : kmalloc ksbrk w.now s = .ok (p, h')) (hp : p ≠ 0) :
    Safe ksbrk w s p h' ↔ s < LIMIT := by
  constructor
  · intro hsafe
    obtain ⟨e, h1, -, -, -, hroom, -⟩ := hsafe.inside
    have hsize := size_lt h1 e
    unfold LIMIT
    rw [header_eq] at hroom
    omega
  · intro hs
    exact safe_of_lt hf (run_good hf hr) hs heq hp

theorem kmalloc_is_safe_iff_the_header_fits_for_16_bytes :
    ∃ p h', kmalloc bump boot.now 16 = .ok (p, h') ∧ p ≠ 0 ∧ Safe bump boot 16 p h' := by
  obtain ⟨rc, w, hstep, -⟩ := boot_kmalloc
  obtain ⟨⟨p, h'⟩, heq, -⟩ := bind_eq_ok.mp hstep
  have hp : p ≠ 0 := by
    obtain ⟨a, hg⟩ := boot_good
    obtain ⟨bs, hserved, -⟩ := spec_of_ok (kmalloc.spec bump_fresh hg (by decide)) heq
    exact hserved.nonzero
  exact ⟨p, h', heq, hp,
    (kmalloc_is_safe_iff_the_header_fits bump_fresh (.start boot_starts) heq hp).mpr (by decide)⟩

/-- A request for 4 GiB finds the first block, and gets a pointer. -/
theorem a_huge_request_is_not_safe :
    ∃ p h', kmalloc bump boot.now (2 ^ 32) = .ok (p, h') ∧ p ≠ 0 ∧
      ¬ Safe bump boot (2 ^ 32) p h' := by
  have hinit := kmalloc_init.spec bump_fresh (good_unused blank_unused)
  rw [boot_init] at hinit
  obtain ⟨-, a, ha, -, -, hg⟩ := hinit
  have ha : a = 0x1000 := by
    have hfirst : bump blank.regions NEW_ALLOC_SIZE = some 0x1000 := by decide
    exact Option.some.inj (ha.symm.trans hfirst)
  obtain ⟨e, h1, bs1, hfind, hsr⟩ := hg.search HEADER
  obtain rfl := hsr.tidy (fun b hb => by cases hb) (boot_tidy _ a)
  have hb := hsr.good.header (List.mem_singleton_self _)
  have he : e = 0x1000 := by
    rcases hsr.first with ⟨-, hfull⟩ | ⟨l, b, r, hl, he, -⟩
    · exact absurd (hfull _ (List.mem_singleton_self _) rfl)
        (by decide : ¬ NEW_ALLOC_SIZE - HEADER < HEADER)
    · have hmem : b ∈ [whole a NEW_ALLOC_SIZE 0] := by
        rw [hl]
        exact List.mem_append_right _ List.mem_cons_self
      rw [he, List.mem_singleton.mp hmem]
      exact ha
  -- the new header lies 4 GiB behind the block, and says that it is the last one
  have hmerge : merge_headers (cut h1 e (2 ^ 32) (0x1018 + 2 ^ 32)) (0x1018 + 2 ^ 32) =
      .ok (false, cut h1 e (2 ^ 32) (0x1018 + 2 ^ 32)) := by
    apply merge_headers_final (by decide)
    have hflags : h1.flags e = IS_FREE ||| IS_FINAL := by
      rw [he, ← ha]
      exact hb.flags.trans (flag_bits_whole a NEW_ALLOC_SIZE 0)
    rw [cut_flags, hflags]
    decide
  have hreturns : ∃ h2, kmalloc bump boot.now (2 ^ 32) = .ok (0x1018, h2) := by
    have hneed : u32 (u32 (2 ^ 32) + HEADER) = HEADER := by decide
    have hfuel : FUEL = FUEL - 1 + 1 := by decide
    have hplace : u64 (e + HEADER) = 0x1018 ∧ u64 (0x1018 + 2 ^ 32) = 0x1018 + 2 ^ 32 := by
      rw [he]
      decide
    unfold kmalloc
    rw [hfuel, int_kmalloc, find_free_entry_eq (hg.head_ne (List.cons_ne_nil _ _)), hneed, hfind,
      ok_bind]
    dsimp only
    rw [if_neg (by rw [he]; decide), split_entry_eq, hplace.1, hplace.2, hmerge]
    exact ⟨_, rfl⟩
  obtain ⟨h2, heq⟩ := hreturns
  refine ⟨0x1018, h2, heq, by decide, ?_⟩
  intro hsafe
  obtain ⟨e, h1, -, -, -, hroom, -⟩ := hsafe.inside
  have hsize := size_lt h1 e
  rw [header_eq] at hroom
  omega

end salsola.heap
