-- Where the regions of the heap come from: each is one that `ksbrk` gave for those before it,
-- and nothing but a call of `ksbrk` adds one.
import Salsola.HeapRequests

open memory blocks outcome

namespace salsola.heap

variable {h : Heap} {ksbrk : Sbrk} {w w' : World} {rs rs' rs'' : List Region} {p s len : Nat}

/-- From the regions `rs` calls of `ksbrk` lead to these ones. -/
inductive Asked (ksbrk : Sbrk) (rs : List Region) : List Region → Prop
  | none : Asked ksbrk rs rs
  | more {rs' : List Region} {p len : Nat} : Asked ksbrk rs rs' → ksbrk rs' len = some p →
      p ≠ 0 → Asked ksbrk rs ((p, len) :: rs')

theorem Asked.trans (h : Asked ksbrk rs rs') (h' : Asked ksbrk rs' rs'') :
    Asked ksbrk rs rs'' := by
  induction h' with
  | none => exact h
  | more _ hask hp ih => exact ih.more hask hp

/-! ## One call -/

/-- A call whose new regions come from `ksbrk`. -/
def Asks {α : Type} (ksbrk : Sbrk) (h : Heap) (heap : α → Heap) (x : Result α) : Prop :=
  Spec x (fun _ => True) (fun r => Asked ksbrk h.regions (heap r).regions)

theorem Asks.of_ok {α : Type} {heap : α → Heap} {x : Result α} {r : α} (hask : Asks ksbrk h heap x)
    (hx : x = .ok r) : Asked ksbrk h.regions (heap r).regions := by
  subst hx
  exact hask

theorem Asks.bind {α β : Type} {heap : α → Heap} {heap' : β → Heap} {x : Result α}
    {f : α → Result β} (hx : Asks ksbrk h heap x) (hf : ∀ r, Asks ksbrk (heap r) heap' (f r)) :
    Asks ksbrk h heap' (x >>= f) :=
  spec_bind hx (fun r hr => spec_post (hf r) (fun _ hr' => hr.trans hr'))

/-- A call that gives a heap with the same regions. -/
theorem asks_ok {α : Type} {heap : α → Heap} {r : α} (heq : (heap r).regions = h.regions) :
    Asks ksbrk h heap (.ok r) := by
  change Asked ksbrk h.regions (heap r).regions
  rw [heq]
  exact .none

theorem asks_error {α : Type} {heap : α → Heap} {e : Halt} :
    Asks ksbrk h heap (.error e : Result α) := trivial

/-- A test that the heap has no part in. -/
theorem Asks.test {α β : Type} {heap : β → Heap} {x : Result α} {f : α → Result β}
    (hf : ∀ r, Asks ksbrk h heap (f r)) : Asks ksbrk h heap (x >>= f) := by
  cases x with
  | ok r => exact hf r
  | error e => exact asks_error

/-- The test reads a heap with the same regions. -/
theorem Asks.of_eq {α : Type} {heap : α → Heap} {x : Result α} (h' : Heap)
    (hx : Asks ksbrk h' heap x) (heq : h'.regions = h.regions) : Asks ksbrk h heap x := by
  unfold Asks at hx ⊢
  rw [← heq]
  exact hx

theorem call_ksbrk_asks (ksbrk : Sbrk) (h : Heap) (len : Nat) :
    Asks ksbrk h Prod.snd (call_ksbrk ksbrk h len) := by
  unfold call_ksbrk
  split
  · exact asks_error
  · rename_i p hp
    split
    · exact asks_ok rfl
    · rename_i hne
      exact Asked.none.more hp hne

theorem kmalloc_init_asks (ksbrk : Sbrk) (h : Heap) :
    Asks ksbrk h Prod.snd (kmalloc_init ksbrk h) := by
  unfold kmalloc_init
  refine (call_ksbrk_asks ksbrk h _).bind ?_
  rintro ⟨p, h1⟩
  dsimp only
  split <;> exact asks_ok rfl

theorem add_heap_memory_asks (ksbrk : Sbrk) (h : Heap) (min_desired : Nat) :
    Asks ksbrk h Prod.snd (add_heap_memory ksbrk h min_desired) := by
  unfold add_heap_memory
  refine (call_ksbrk_asks ksbrk h _).bind ?_
  rintro ⟨p, h1⟩
  dsimp only
  split
  · exact asks_ok rfl
  · unfold add_region
    split
    · exact asks_error
    · split <;> exact asks_ok rfl

theorem merge_headers_asks (ksbrk : Sbrk) (h : Heap) (p : Nat) :
    Asks ksbrk h Prod.snd (merge_headers h p) := by
  cases heq : merge_headers h p with
  | ok r => exact asks_ok (merge_headers_regions heq)
  | error e => exact asks_error

theorem merge_all_asks (ksbrk : Sbrk) (fuel : Nat) (h : Heap) (p : Nat) :
    Asks ksbrk h id (merge_all fuel h p) := by
  induction fuel generalizing h with
  | zero => exact asks_error
  | succ fuel ih =>
    unfold merge_all
    refine (merge_headers_asks ksbrk h p).bind ?_
    rintro ⟨merged, h1⟩
    dsimp only
    split
    · exact ih h1
    · exact asks_ok rfl

theorem find_loop_asks (ksbrk : Sbrk) (s fuel : Nat) (h : Heap) (p : Nat) :
    Asks ksbrk h Prod.snd (find_loop s fuel h p) := by
  induction fuel generalizing h p with
  | zero => exact asks_error
  | succ fuel ih =>
    unfold find_loop
    split
    · exact asks_ok rfl
    · refine Asks.test (fun _ => ?_)
      split
      · exact Asks.test (fun p => ih h p)
      · split
        · refine (merge_all_asks ksbrk FUEL h p).bind ?_
          intro h1
          dsimp only [id]
          split
          · exact asks_ok rfl
          · exact Asks.test (fun p => ih h1 p)
        · exact asks_ok rfl

theorem find_free_entry_asks (ksbrk : Sbrk) (h : Heap) (s : Nat) :
    Asks ksbrk h Prod.snd (find_free_entry ksbrk h s) := by
  unfold find_free_entry
  dsimp only
  split
  · refine (kmalloc_init_asks ksbrk h).bind ?_
    rintro ⟨ok, h1⟩
    dsimp only
    split
    · exact find_loop_asks ksbrk _ _ h1 _
    · exact asks_ok rfl
  · exact find_loop_asks ksbrk _ _ h _

theorem int_kmalloc_asks (ksbrk : Sbrk) (fuel : Nat) (h : Heap) (s : Nat) :
    Asks ksbrk h Prod.snd (int_kmalloc ksbrk fuel h s) := by
  induction fuel generalizing h with
  | zero => exact asks_error
  | succ fuel ih =>
    unfold int_kmalloc
    refine (find_free_entry_asks ksbrk h (u32 s)).bind ?_
    rintro ⟨free_entry, h1⟩
    dsimp only
    split
    · refine (add_heap_memory_asks ksbrk h1 s).bind ?_
      rintro ⟨ok, h2⟩
      dsimp only
      split
      · refine (ih h2).bind ?_
        rintro ⟨rc, h3⟩
        dsimp only
        split <;> exact asks_ok rfl
      · exact asks_ok rfl
    · cases hsplit : split_entry h1 free_entry s with
      | ok r => exact asks_ok (split_entry_regions hsplit)
      | error e => exact asks_error

/-! ## The calls of the clients -/

theorem kmalloc_asks (ksbrk : Sbrk) (h : Heap) (s : Nat) :
    Asks ksbrk h Prod.snd (kmalloc ksbrk h s) := by
  unfold kmalloc
  refine (int_kmalloc_asks ksbrk FUEL h s).bind ?_
  rintro ⟨rc, h1⟩
  dsimp only
  split <;> exact asks_ok rfl

theorem fill_regions (h : Heap) (p len : Nat) : (h.fill p len).regions = h.regions := rfl

theorem kfree_asks (ksbrk : Sbrk) (h : Heap) (p : Nat) : Asks ksbrk h id (kfree h p) := by
  unfold kfree
  split
  · exact asks_ok rfl
  · refine Asks.test (fun _ => Asks.test (fun _ => ?_))
    have hfill := fill_regions h p (h.size (sub64 p HEADER))
    dsimp only
    generalize h.fill p (h.size (sub64 p HEADER)) = h1 at hfill ⊢
    refine Asks.of_eq (h1.set_flags _ _) ((merge_headers_asks ksbrk _ _).bind ?_) hfill
    rintro ⟨merged, h2⟩
    exact asks_ok rfl

theorem set_size_regions (h : Heap) (a v : Nat) : (h.set_size a v).regions = h.regions := rfl

theorem krealloc_asks (ksbrk : Sbrk) (h : Heap) (p s : Nat) :
    Asks ksbrk h Prod.snd (krealloc ksbrk h p s) := by
  unfold krealloc
  dsimp only
  split
  · exact kmalloc_asks ksbrk h s
  · split
    · exact asks_ok rfl
    · split
      · exact asks_ok (set_size_regions h (sub64 p HEADER) (u32 s))
      · refine (kmalloc_asks ksbrk h s).bind ?_
        rintro ⟨rc, h1⟩
        dsimp only
        split
        · exact asks_ok rfl
        · generalize memcpy h1.mem rc p _ = mem
          exact Asks.of_eq { h1 with mem }
            ((kfree_asks ksbrk { h1 with mem } p).bind (fun _ => asks_ok rfl)) rfl

theorem kcalloc_asks (ksbrk : Sbrk) (h : Heap) (nelem elsize : Nat) :
    Asks ksbrk h Prod.snd (kcalloc ksbrk h nelem elsize) := by
  unfold kcalloc
  split
  · exact asks_ok rfl
  · refine (int_kmalloc_asks ksbrk FUEL h _).bind ?_
    rintro ⟨rc, h1⟩
    dsimp only
    split <;> exact asks_ok rfl

theorem krecalloc_asks (ksbrk : Sbrk) (h : Heap) (p nelem elsize : Nat) :
    Asks ksbrk h Prod.snd (krecalloc ksbrk h p nelem elsize) := by
  unfold krecalloc
  split
  · exact asks_ok rfl
  · split
    · exact kcalloc_asks ksbrk h nelem elsize
    · refine (int_kmalloc_asks ksbrk FUEL h _).bind ?_
      rintro ⟨rc, h1⟩
      dsimp only
      split
      · exact asks_ok rfl
      · generalize memcpy (memset h1.mem rc 0 _) rc p _ = mem
        exact Asks.of_eq { h1 with mem }
          ((kfree_asks ksbrk { h1 with mem } p).bind (fun _ => asks_ok rfl)) rfl

/-- What a call adds to the regions comes from `ksbrk`. -/
theorem World.step_asks (ksbrk : Sbrk) (w : World) (c : Call) :
    Asks ksbrk w.now World.now (w.step ksbrk c) := by
  cases c with
  | kmalloc s => exact (kmalloc_asks ksbrk w.now s).bind (fun _ => asks_ok rfl)
  | kfree p => exact (kfree_asks ksbrk w.now p).bind (fun _ => asks_ok rfl)
  | krealloc p s => exact (krealloc_asks ksbrk w.now p s).bind (fun _ => asks_ok rfl)
  | kcalloc nelem elsize =>
    exact (kcalloc_asks ksbrk w.now nelem elsize).bind (fun _ => asks_ok rfl)
  | krecalloc p nelem elsize =>
    exact (krecalloc_asks ksbrk w.now p nelem elsize).bind (fun _ => asks_ok rfl)
  | store x v => exact asks_ok rfl

/-- A heap with room for the block asks for nothing. -/
theorem kmalloc_room_regions {h' : Heap} {arenas : List Arena} {bs : List Block} {rc : Nat}
    (hg : Good h arenas bs) (hs : s < LIMIT) (hroom : Room (s + HEADER) bs)
    (heq : kmalloc ksbrk h s = .ok (rc, h')) : h'.regions = h.regions := by
  obtain ⟨e, h1, hfind, he, hregs⟩ := hg.finds ksbrk hs hroom
  unfold kmalloc at heq
  rw [show FUEL = FUEL - 1 + 1 by decide, int_kmalloc_found hfind he] at heq
  obtain ⟨⟨rc1, h2⟩, hsplit, heq⟩ := bind_eq_ok.mp heq
  have hregs2 := (split_entry_regions hsplit).trans hregs
  dsimp only at heq
  split at heq
  · cases heq
    exact hregs2
  · cases heq
    exact (fill_regions h2 _ s).trans hregs2

end salsola.heap
