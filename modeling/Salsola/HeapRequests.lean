-- A request of a client ends: one growth of the heap makes room for it. The calls for
-- arrays turn a request down exactly when its bytes do not fit in a `size_t`.
import Salsola.HeapSafety

open memory blocks outcome

namespace salsola.heap

variable {h h' h1 : Heap} {arenas : List Arena} {bs bs' : List Block} {ksbrk : Sbrk} {w : World}
  {s rc p fuel nmemb size : Nat}

/-! ## One growth -/

/-- `ksbrk` comes back where a request asks it: for the first region of an unused heap, and
for a growth after a search that found nothing. -/
structure Answers (ksbrk : Sbrk) (h : Heap) (s : Nat) : Prop where
  first : h.head = 0 → (ksbrk h.regions NEW_ALLOC_SIZE).isSome
  growth : ∀ h1, find_free_entry ksbrk h (u32 s) = .ok (0, h1) →
    (ksbrk h1.regions (allocation_size s)).isSome

theorem call_ksbrk_returns {len : Nat} (hk : (ksbrk h.regions len).isSome) :
    ∃ r, call_ksbrk ksbrk h len = .ok r := by
  obtain ⟨p, hp⟩ := Option.isSome_iff_exists.mp hk
  unfold call_ksbrk
  rw [hp]
  dsimp only
  split
  · exact ⟨_, rfl⟩
  · exact ⟨_, rfl⟩

theorem kmalloc_init_returns (hk : (ksbrk h.regions NEW_ALLOC_SIZE).isSome) :
    ∃ r, kmalloc_init ksbrk h = .ok r := by
  obtain ⟨⟨p, h1⟩, heq⟩ := call_ksbrk_returns hk
  unfold kmalloc_init
  rw [heq, ok_bind]
  dsimp only
  split
  · exact ⟨_, rfl⟩
  · exact ⟨_, rfl⟩

/-- The search of a good heap returns when the first region comes. -/
theorem Good.find_free_entry_returns (hf : Fresh ksbrk) (hg : Good h arenas bs) (hs : s < LIMIT)
    (hk : h.head = 0 → (ksbrk h.regions NEW_ALLOC_SIZE).isSome) :
    ∃ e h1, find_free_entry ksbrk h (u32 s) = .ok (e, h1) := by
  by_cases hne : bs = []
  · subst hne
    have hhead : h.head = 0 := hg.chain
    obtain rfl := hg.laid.none rfl
    obtain ⟨⟨ok, h2⟩, hinit⟩ := kmalloc_init_returns (hk hhead)
    obtain ⟨rfl, p, -, -, -, hg2⟩ := spec_of_ok (kmalloc_init.spec hf hg) hinit
    obtain ⟨e, h3, bs3, hfind, -⟩ := hg2.search (s + HEADER)
    refine ⟨e, h3, ?_⟩
    unfold find_free_entry
    rw [if_pos hhead, hinit, ok_bind]
    dsimp only
    rw [if_pos rfl, need_eq hs, hfind]
  · obtain ⟨e, h3, bs3, hfind, -⟩ := hg.search (s + HEADER)
    refine ⟨e, h3, ?_⟩
    rw [find_free_entry_eq (hg.head_ne hne), need_eq hs, hfind]

/-- A good heap with room is searched with success. -/
theorem Good.finds (ksbrk : Sbrk) (hg : Good h arenas bs) (hs : s < LIMIT)
    (hroom : Room (s + HEADER) bs) :
    ∃ e h1, find_free_entry ksbrk h (u32 s) = .ok (e, h1) ∧ e ≠ 0 ∧
      h1.regions = h.regions := by
  have hne : bs ≠ [] := by
    obtain ⟨b, hb, -⟩ := hroom
    exact List.ne_nil_of_mem hb
  obtain ⟨e, h1, bs1, heq, hsr⟩ := hg.search (s + HEADER)
  refine ⟨e, h1, ?_, ?_, hsr.regions⟩
  · rw [find_free_entry_eq (hg.head_ne hne), need_eq hs, heq]
  · rcases hsr.first with ⟨-, hfull⟩ | ⟨l, b, r, hl, rfl, -⟩
    · obtain ⟨b, hb, hbf, hle⟩ := hsr.merges.room hroom
      have := hfull b hb hbf
      omega
    · have := hsr.good.spot (b := b) (by rw [hl]; simp)
      omega

theorem add_region_returns (h : Heap) (p len : Nat) : add_region h p len ≠ .error .ksbrk := by
  unfold add_region
  split
  · simp
  · split <;> simp

/-- A growth that `ksbrk` answers makes room. -/
theorem Good.grows (hf : Fresh ksbrk) (hg : Good h arenas bs) (hne : bs ≠ []) (hs : s < LIMIT)
    (hk : (ksbrk h.regions (allocation_size s)).isSome) :
    ∃ h2 bs2 p, add_heap_memory ksbrk h s = .ok (true, h2) ∧ (∃ arenas2, Good h2 arenas2 bs2) ∧
      Room (s + HEADER) bs2 ∧ h2.regions = (p, allocation_size s) :: h.regions := by
  have hspec := add_heap_memory.spec hf hg hne hs
  have hreturns : ∃ r, add_heap_memory ksbrk h s = .ok r := by
    cases heq : add_heap_memory ksbrk h s with
    | ok r => exact ⟨r, rfl⟩
    | error e =>
      -- the only way out is a `ksbrk` that does not come back
      rw [heq] at hspec
      obtain rfl : e = .ksbrk := hspec
      obtain ⟨⟨p, h2⟩, hcall⟩ := call_ksbrk_returns hk
      unfold add_heap_memory at heq
      dsimp only at heq
      rw [hcall, ok_bind] at heq
      dsimp only at heq
      split at heq
      · cases heq
      · exact absurd heq (add_region_returns _ _ _)
  obtain ⟨⟨ok, h2⟩, heq⟩ := hreturns
  obtain ⟨rfl, p, bs2, -, hgr, hroom⟩ := spec_of_ok hspec heq
  exact ⟨h2, bs2, p, heq, hgr.good, hroom, hgr.regions⟩

theorem merge_headers_regions {m : Bool} (heq : merge_headers h p = .ok (m, h')) :
    h'.regions = h.regions := by
  unfold merge_headers at heq
  split at heq
  · cases heq
    rfl
  · obtain ⟨n, -, heq⟩ := bind_eq_ok.mp heq
    split at heq
    · cases heq
      rfl
    · split at heq
      · cases heq
        rfl
      · cases heq
        split
        · rfl
        · rfl

theorem split_entry_regions (heq : split_entry h p s = .ok (rc, h')) : h'.regions = h.regions := by
  rw [split_entry_eq] at heq
  obtain ⟨⟨m, h2⟩, hmerge, heq⟩ := bind_eq_ok.mp heq
  have hcut : ∀ a n k, (cut h a n k).regions = h.regions := by
    intro a n k
    unfold cut
    dsimp only
    split
    · rfl
    · rfl
  cases heq
  exact (merge_headers_regions hmerge).trans (hcut _ _ _)

theorem int_kmalloc_found {e : Nat} (hfind : find_free_entry ksbrk h (u32 s) = .ok (e, h1))
    (he : e ≠ 0) (fuel : Nat) : int_kmalloc ksbrk (fuel + 1) h s = split_entry h1 e s := by
  unfold int_kmalloc
  rw [hfind, ok_bind]
  exact if_neg he

theorem int_kmalloc_grown {h2 h3 : Heap} (hfind : find_free_entry ksbrk h (u32 s) = .ok (0, h1))
    (hadd : add_heap_memory ksbrk h1 s = .ok (true, h2))
    (hrec : int_kmalloc ksbrk fuel h2 s = .ok (rc, h3)) (hrc : rc ≠ 0) :
    int_kmalloc ksbrk (fuel + 1) h s = .ok (rc, h3.fill rc s) := by
  unfold int_kmalloc
  rw [hfind, ok_bind]
  dsimp only
  rw [if_pos rfl, hadd, ok_bind]
  dsimp only
  rw [if_pos rfl, hrec, ok_bind]
  exact if_neg hrc

/-- In each run, a request whose search finds nothing finds an entry after one growth, and a
request gets memory with one growth at most. -/
theorem a_request_takes_one_growth (hf : Fresh ksbrk) (hr : Run ksbrk w) (hs : s < LIMIT)
    (hk : Answers ksbrk w.now s) :
    ∃ e h1, find_free_entry ksbrk w.now (u32 s) = .ok (e, h1) ∧
      (e = 0 → ∃ h2 e2 h3, add_heap_memory ksbrk h1 s = .ok (true, h2) ∧
        find_free_entry ksbrk h2 (u32 s) = .ok (e2, h3) ∧ e2 ≠ 0) ∧
      ∃ rc h', (∀ fuel, int_kmalloc ksbrk (fuel + 2) w.now s = .ok (rc, h')) ∧ rc ≠ 0 ∧
        (e ≠ 0 → h'.regions = h1.regions) ∧
        (e = 0 → ∃ p, h'.regions = (p, allocation_size s) :: h1.regions) := by
  obtain ⟨arenas, hg⟩ := (run_good hf hr).laid
  obtain ⟨e, h1, hfind⟩ := hg.find_free_entry_returns hf hs hk.first
  obtain ⟨arenas1, bs1, hg1, hne, -, hfirst⟩ := find_free_entry.spec hf hg hs hfind
  refine ⟨e, h1, hfind, ?_⟩
  by_cases he : e = 0
  · subst he
    obtain ⟨h2, bs2, p, hadd, ⟨arenas2, hg2⟩, hroom, hregs2⟩ :=
      hg1.grows hf hne hs (hk.growth h1 hfind)
    obtain ⟨e2, h3, hfind2, he2, hregs3⟩ := hg2.finds ksbrk hs hroom
    obtain ⟨rc, h4, bs4, hrec, hserved, -⟩ := int_kmalloc_room ksbrk 0 hg2 hs hroom
    have hsplit : split_entry h3 e2 s = .ok (rc, h4) := by
      rw [← int_kmalloc_found hfind2 he2 0]
      exact hrec
    refine ⟨fun _ => ⟨h2, e2, h3, hadd, hfind2, he2⟩, rc, h4.fill rc s, ?_, hserved.nonzero,
      fun h0 => absurd rfl h0, fun _ => ⟨p, ?_⟩⟩
    · intro fuel
      refine int_kmalloc_grown hfind hadd ?_ hserved.nonzero
      rw [int_kmalloc_found hfind2 he2]
      exact hsplit
    · show h4.regions = _
      rw [split_entry_regions hsplit, hregs3, hregs2]
  · have hsplit : ∃ rc h', split_entry h1 e s = .ok (rc, h') ∧ rc ≠ 0 := by
      rcases hfirst with ⟨h0, -⟩ | ⟨l, b, r, rfl, rfl, hbf, hsize, -⟩
      · exact absurd h0 he
      · obtain ⟨h2, r2, heq, -⟩ := split_entry.spec hg1 hbf hsize
        exact ⟨_, h2, heq, by rw [header_eq]; omega⟩
    obtain ⟨rc, h', heq, hrc⟩ := hsplit
    refine ⟨fun h0 => absurd h0 he, rc, h', ?_, hrc, fun _ => split_entry_regions heq,
      fun h0 => absurd h0 he⟩
    intro fuel
    rw [int_kmalloc_found hfind he]
    exact heq

/-- The first block has 256 KiB, so a request for 1 MiB makes the heap grow. -/
theorem a_request_for_a_mebibyte_takes_one_growth :
    ∃ h1, find_free_entry bump boot.now (u32 (2 ^ 20)) = .ok (0, h1) ∧
      ∃ rc h', (∀ fuel, int_kmalloc bump (fuel + 2) boot.now (2 ^ 20) = .ok (rc, h')) ∧ rc ≠ 0 := by
  have hinit := kmalloc_init.spec bump_fresh (good_unused blank_unused)
  rw [boot_init] at hinit
  obtain ⟨-, p, hp, hregs, hhead, hg⟩ := hinit
  have hfirst : bump blank.regions NEW_ALLOC_SIZE = some 0x1000 := by decide
  obtain rfl : 0x1000 = p := Option.some.inj (hfirst.symm.trans hp)
  obtain ⟨e, h1, bs1, hfind, hsr⟩ := hg.search (2 ^ 20 + HEADER)
  obtain rfl : e = 0 := by
    rcases hsr.first with ⟨h0, -⟩ | ⟨l, b, r, hl, -, -, hsize, -⟩
    · exact h0
    · have hsmall := hsr.merges.total_le (H := HEADER)
      rw [hl] at hsmall
      simp only [total_append, total_cons, total_nil, whole, header_eq,
        show NEW_ALLOC_SIZE = 0x40000 from rfl] at hsmall
      omega
  have hfind : find_free_entry bump boot.now (u32 (2 ^ 20)) = .ok (0, h1) := by
    rw [find_free_entry_eq hhead, need_eq (by decide), hfind]
  have hanswers : Answers bump boot.now (2 ^ 20) := by
    refine ⟨fun h0 => absurd h0 hhead, fun h2 heq => ?_⟩
    rw [hfind] at heq
    cases heq
    rw [hsr.regions, hregs]
    decide
  obtain ⟨e, h2, heq, -, rc, h', hret, hrc, -⟩ :=
    a_request_takes_one_growth bump_fresh (.start boot_starts) (by decide) hanswers
  exact ⟨h1, hfind, rc, h', hret, hrc⟩

/-! ## The calls for arrays -/

/-- The guard is exact, although a screen on the two halves comes before its division. -/
theorem overflows_iff (nmemb size : Nat) : overflows nmemb size = true ↔ 2 ^ 64 ≤ nmemb * size := by
  unfold overflows MUL_NO_OVERFLOW SIZE_MAX
  rw [decide_eq_true_iff]
  constructor
  · rintro ⟨-, hpos, hlt⟩
    rw [Nat.div_lt_iff_lt_mul hpos, Nat.mul_comm] at hlt
    omega
  · intro hle
    refine ⟨?_, ?_, ?_⟩
    · -- two numbers below the screen have a product below its square
      by_contra hsmall
      have hn : nmemb ≤ 2 ^ 32 - 1 := by omega
      have hs : size ≤ 2 ^ 32 - 1 := by omega
      have hmul := Nat.mul_le_mul hn hs
      omega
    · apply Nat.pos_of_ne_zero
      rintro rfl
      omega
    · have hpos : 0 < nmemb := by
        apply Nat.pos_of_ne_zero
        rintro rfl
        omega
      rw [Nat.div_lt_iff_lt_mul hpos, Nat.mul_comm]
      omega

/-- What `kcalloc` does with a number of bytes. -/
def kcalloc_bytes (ksbrk : Sbrk) (h : Heap) (n : Nat) : Result (Nat × Heap) := do
  let (rc, h) ← int_kmalloc ksbrk FUEL h n
  if rc = 0 then .ok (0, h) else .ok (rc, { h with mem := memset h.mem rc 0 n })

/-- What `krecalloc` does with a number of bytes. -/
def krecalloc_bytes (ksbrk : Sbrk) (h : Heap) (ptr n : Nat) : Result (Nat × Heap) := do
  if ptr = 0 then kcalloc_bytes ksbrk h n
  else
    let (rc, h) ← int_kmalloc ksbrk FUEL h n
    if rc = 0 then .ok (0, h)
    else
      let to_copy := min (get_mem_size h ptr) n
      let h := { h with mem := memset h.mem rc 0 n }
      let h := { h with mem := memcpy h.mem rc ptr to_copy }
      let h ← kfree h ptr
      .ok (rc, h)

theorem not_overflows (hn : ¬ 2 ^ 64 ≤ nmemb * size) :
    overflows nmemb size = false ∧ u64 (nmemb * size) = nmemb * size := by
  constructor
  · rw [← Bool.not_eq_true, overflows_iff]
    exact hn
  · exact Nat.mod_eq_of_lt (by omega)

theorem kcalloc_eq (ksbrk : Sbrk) (h : Heap) (nelem elsize : Nat) :
    kcalloc ksbrk h nelem elsize =
      if 2 ^ 64 ≤ nelem * elsize then .ok (0, h) else kcalloc_bytes ksbrk h (nelem * elsize) := by
  unfold kcalloc
  by_cases hle : 2 ^ 64 ≤ nelem * elsize
  · rw [if_pos hle, if_pos ((overflows_iff _ _).mpr hle)]
  · obtain ⟨hno, hu⟩ := not_overflows hle
    rw [if_neg hle, if_neg (by rw [hno]; simp), hu]
    rfl

/-- The calls for arrays turn a request down exactly when its number of bytes is not below
2^64, and any other request goes on with the true number of bytes. -/
theorem the_array_guard_is_exact (ksbrk : Sbrk) (h : Heap) (ptr nmemb size : Nat) :
    (overflows nmemb size = true ↔ 2 ^ 64 ≤ nmemb * size) ∧
    kreallocarray ksbrk h ptr nmemb size =
      (if 2 ^ 64 ≤ nmemb * size then .ok (0, h) else krealloc ksbrk h ptr (nmemb * size)) ∧
    krecalloc ksbrk h ptr nmemb size =
      (if 2 ^ 64 ≤ nmemb * size then .ok (0, h)
        else krecalloc_bytes ksbrk h ptr (nmemb * size)) ∧
    kcalloc ksbrk h nmemb size =
      (if 2 ^ 64 ≤ nmemb * size then .ok (0, h) else kcalloc_bytes ksbrk h (nmemb * size)) := by
  refine ⟨overflows_iff nmemb size, ?_, ?_, kcalloc_eq ksbrk h nmemb size⟩
  · unfold kreallocarray
    by_cases hle : 2 ^ 64 ≤ nmemb * size
    · rw [if_pos hle, if_pos ((overflows_iff _ _).mpr hle)]
    · obtain ⟨hno, hu⟩ := not_overflows hle
      rw [if_neg hle, if_neg (by rw [hno]; simp), hu]
  · unfold krecalloc
    by_cases hle : 2 ^ 64 ≤ nmemb * size
    · rw [if_pos hle, if_pos ((overflows_iff _ _).mpr hle)]
    · obtain ⟨hno, hu⟩ := not_overflows hle
      rw [if_neg hle, if_neg (by rw [hno]; simp), hu]
      unfold krecalloc_bytes
      by_cases hptr : ptr = 0
      · rw [if_pos hptr, if_pos hptr, kcalloc_eq, if_neg hle]
      · rw [if_neg hptr, if_neg hptr]

end salsola.heap
