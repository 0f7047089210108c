-- The walk of mmu_init over the tags that the boot loader leaves. The number of
-- the entries of a memory map is computed with the size that the tag gives,
-- but their addresses with the size of the struct.
import Salsola.MemoryMap

open memory outcome

namespace salsola.mmu

def MULTIBOOT_TAG_TYPE_END : Nat := 0
def MULTIBOOT_TAG_TYPE_MMAP : Nat := 6

/-- `sizeof(struct multiboot_tag_mmap)`, up to its `entries`. -/
def SIZEOF_TAG_MMAP : Nat := 16

/-- `sizeof(multiboot_memory_map_t)` -/
def SIZEOF_ENTRY : Nat := 24

/-- The entry in the bytes from `a` on. -/
def entry_at (m : Mem) (a : Nat) : MemoryMapEntry where
  addr := read m a 8
  len := read m (a + 8) 8
  type := read m (a + 16) 4
  zero := read m (a + 20) 4

/-- `(tag->size + 7) & ~7` on 32 bits. -/
def padded_size (size : Nat) : Nat := (size + 7) % 2 ^ 32 / 8 * 8

/-- A memory map that the walk has read: the address of its tag, and of each entry. -/
structure ReadMap where
  tag : Nat
  entries : List Nat

/-- What the walk leaves: the tags that it has read, the memory maps among them, and the bitmap. -/
structure Walk where
  tags : List Nat
  maps : List ReadMap
  frames : Frames

/-- The loop over the entries from `i` on, `todo` of them. -/
def walk_entries (m : Mem) (entries i : Nat) (frames : Frames) :
    Nat → Result (List Nat × Frames)
  | 0 => .ok ([], frames)
  | todo + 1 => do
    let entry := entries + i * SIZEOF_ENTRY
    let frames ← release_entries frames [entry_at m entry]
    let (rest, frames) ← walk_entries m entries (i + 1) frames todo
    .ok (entry :: rest, frames)

/-- The number of entries, as the walk computes it. -/
def entries_count (size entry_size : Nat) : Result Nat :=
  if entry_size = 0 then .error .fault
  else .ok ((size + 2 ^ 64 - SIZEOF_TAG_MMAP) % 2 ^ 64 / entry_size % 2 ^ 32)

/-- The loop over the tags, from `tag` on. -/
def walk_tags (m : Mem) : Nat → Nat → Frames → Result Walk
  | 0, _, _ => .error .spin
  | fuel + 1, tag, frames =>
    let type := read m tag 4
    let size := read m (tag + 4) 4
    if type = MULTIBOOT_TAG_TYPE_END then .ok ⟨[tag], [], frames⟩
    else if type ≠ MULTIBOOT_TAG_TYPE_MMAP then do
      let w ← walk_tags m fuel (tag + padded_size size) frames
      .ok { w with tags := tag :: w.tags }
    else do
      let count ← entries_count size (read m (tag + 8) 4)
      let (entries, frames) ← walk_entries m (tag + SIZEOF_TAG_MMAP) 0 frames count
      let w ← walk_tags m fuel (tag + padded_size size) frames
      .ok { w with tags := tag :: w.tags, maps := ⟨tag, entries⟩ :: w.maps }

/-- The walk of `mmu_init`. The first tag lies behind the eight bytes of the header. -/
def walk (m : Mem) (fuel addr : Nat) (frames : Frames) : Result Walk :=
  walk_tags m fuel (addr + 8) frames

/-! ## Well-formed blocks -/

/-- A tag of the block, and what is in it when it is a memory map. -/
structure Tag where
  type : Nat
  size : Nat
  entry_size : Nat
  n : Nat

/-- A memory map of `n` entries, the first 24 bytes of each as the header states them: the field
behind the type is zero. -/
structure MapAt (m : Mem) (a : Nat) (t : Tag) : Prop where
  entry_size : read m (a + 8) 4 = t.entry_size
  size : t.size = 16 + t.n * t.entry_size
  stride : t.entry_size % 8 = 0 ∧ 24 ≤ t.entry_size
  zero : ∀ i < t.n, read m (a + 16 + i * t.entry_size + 20) 4 = 0

/-- The tag stands at `a`. A block is smaller than 4 GiB, since its size has 32 bits. -/
structure TagAt (m : Mem) (a : Nat) (t : Tag) : Prop where
  type : read m a 4 = t.type ∧ t.type ≠ 0
  size : read m (a + 4) 4 = t.size ∧ 8 ≤ t.size ∧ t.size + 7 < 2 ^ 32
  map : t.type = 6 → MapAt m a t

/-- The address behind a tag, at the next multiple of 8. -/
def Tag.behind (t : Tag) (a : Nat) : Nat := a + (t.size + 7) / 8 * 8

/-- From `a` on stand the tags, one behind the other, and an end tag. -/
def Block (m : Mem) : Nat → List Tag → Prop
  | a, [] => read m a 4 = 0
  | a, t :: ts => TagAt m a t ∧ Block m (t.behind a) ts

/-- Where the tags start, the end tag too. -/
def starts : Nat → List Tag → List Nat
  | a, [] => [a]
  | a, t :: ts => a :: starts (t.behind a) ts

/-- Where the entries of the memory maps are. -/
def maps_of : Nat → List Tag → List ReadMap
  | _, [] => []
  | a, t :: ts =>
    if t.type = 6 then
      ⟨a, (List.range t.n).map fun i => a + (16 + i * t.entry_size)⟩ :: maps_of (t.behind a) ts
    else maps_of (t.behind a) ts

/-- The walk ends, reads each tag once and at its start, and each entry at its place. -/
def VisitsAll (m : Mem) (addr : Nat) (frames : Frames) (ts : List Tag) : Prop :=
  ∃ fuel w, walk m fuel addr frames = .ok w ∧ w.tags = starts (addr + 8) ts ∧
    w.maps = maps_of (addr + 8) ts

/-- The entries lie as far apart as the struct is long, or there is one at most. -/
def Strided (t : Tag) : Prop := t.type = 6 → t.n ≤ 1 ∨ t.entry_size = 24

variable {m : Mem} {a addr : Nat} {t : Tag} {ts : List Tag} {frames : Frames} {w : Walk}

/-! ## One memory map -/

theorem count_eq (h : MapAt m a t) (ht : TagAt m a t) :
    entries_count t.size t.entry_size = .ok t.n := by
  have hsize := ht.size.2.2
  have hstride := h.stride.2
  have hbytes : t.n * 24 ≤ t.n * t.entry_size := Nat.mul_le_mul_left _ hstride
  rw [h.size] at hsize
  unfold entries_count SIZEOF_TAG_MMAP
  rw [if_neg (by omega), h.size,
    show (16 + t.n * t.entry_size + 2 ^ 64 - 16) % 2 ^ 64 = t.n * t.entry_size by omega,
    Nat.mul_div_cancel _ (by omega), Nat.mod_eq_of_lt (by omega)]

/-- The entries that are read lie 24 bytes apart. -/
theorem walk_entries_places (m : Mem) (entries i todo : Nat) (frames : Frames) :
    Spec (walk_entries m entries i frames todo) (fun _ => True)
      (fun r => r.1 = (List.range todo).map fun k => entries + (i + k) * 24) := by
  induction todo generalizing i frames with
  | zero => rfl
  | succ todo ih =>
    unfold walk_entries
    have hone : Spec (release_entries frames [entry_at m (entries + i * SIZEOF_ENTRY)])
        (fun _ => True) (fun _ => True) := by
      cases release_entries frames [entry_at m (entries + i * SIZEOF_ENTRY)] <;> trivial
    refine spec_bind hone fun frames1 _ => spec_bind (ih (i + 1) frames1) ?_
    rintro ⟨rest, frames2⟩ rfl
    rw [List.range_succ_eq_map, List.map_cons, List.map_map]
    refine congrArg₂ List.cons rfl (List.map_congr_left fun k _ => ?_)
    simp only [Function.comp_apply]
    rw [show i + 1 + k = i + k.succ by omega]

/-- No assert fires where the field behind the type is zero. -/
theorem walk_entries_returns (entries i todo : Nat) (frames : Frames)
    (hzero : ∀ k < todo, read m (entries + (i + k) * 24 + 20) 4 = 0) :
    ∃ r, walk_entries m entries i frames todo = .ok r := by
  induction todo generalizing i frames with
  | zero => exact ⟨_, rfl⟩
  | succ todo ih =>
    have hfirst : ∃ frames1, release_entries frames
        [entry_at m (entries + i * SIZEOF_ENTRY)] = .ok frames1 := by
      have hz : 0 = (entry_at m (entries + i * SIZEOF_ENTRY)).zero :=
        (hzero 0 (Nat.succ_pos _)).symm
      unfold release_entries
      split
      · exact ⟨_, rfl⟩
      · rw [assert_of hz]
        exact ⟨_, rfl⟩
    obtain ⟨frames1, hframes1⟩ := hfirst
    obtain ⟨r, hr⟩ := ih (i + 1) frames1 (fun k hk => by
      have := hzero (k + 1) (by omega)
      rw [show i + (k + 1) = i + 1 + k by omega] at this
      exact this)
    unfold walk_entries
    dsimp only
    rw [hframes1, ok_bind, hr]
    exact ⟨_, rfl⟩

/-! ## The tags -/

theorem behind_eq (h : TagAt m a t) : a + padded_size t.size = t.behind a := by
  have := h.size.2.2
  unfold padded_size Tag.behind
  rw [Nat.mod_eq_of_lt this]

/-- The tags are read at their starts. -/
theorem walk_tags_places (fuel : Nat) (frames : Frames) (h : Block m a ts) :
    Spec (walk_tags m fuel a frames) (fun _ => True) (fun w => w.tags = starts a ts ∧
      (w.maps = maps_of a ts ↔ ∀ t ∈ ts, Strided t)) := by
  induction ts generalizing fuel a frames with
  | nil =>
    cases fuel with
    | zero => trivial
    | succ fuel =>
      have hend : read m a 4 = MULTIBOOT_TAG_TYPE_END := h
      unfold walk_tags
      dsimp only
      rw [if_pos hend]
      exact ⟨rfl, by simp [maps_of]⟩
  | cons t ts ih =>
    obtain ⟨ht, hrest⟩ := h
    cases fuel with
    | zero => trivial
    | succ fuel =>
      have hnot : ¬ t.type = MULTIBOOT_TAG_TYPE_END := ht.type.2
      unfold walk_tags
      dsimp only
      rw [ht.type.1, ht.size.1, if_neg hnot, behind_eq ht]
      by_cases hmap : t.type = 6
      · have hm := ht.map hmap
        have hmmap : ¬ t.type ≠ MULTIBOOT_TAG_TYPE_MMAP := not_not.mpr hmap
        rw [if_neg hmmap, hm.entry_size, count_eq hm ht, ok_bind]
        refine spec_bind (walk_entries_places m _ 0 _ frames) ?_
        rintro ⟨entries, frames1⟩ rfl
        refine spec_bind (ih fuel frames1 hrest) ?_
        rintro w ⟨htags, hmaps⟩
        refine ⟨by rw [htags]; rfl, ?_⟩
        unfold maps_of
        rw [if_pos hmap, List.cons.injEq, hmaps, List.forall_mem_cons]
        refine and_congr_left fun _ => ?_
        rw [ReadMap.mk.injEq, and_iff_right rfl]
        -- the second entry tells the two distances apart
        unfold Strided
        constructor
        · intro heq _
          by_cases hone : t.n ≤ 1
          · exact Or.inl hone
          · right
            have hsecond := List.map_inj_left.mp heq 1 (List.mem_range.mpr (by omega))
            unfold SIZEOF_TAG_MMAP at hsecond
            omega
        · intro hstrided
          apply List.map_congr_left
          intro k hk
          have hk := List.mem_range.mp hk
          unfold SIZEOF_TAG_MMAP
          rcases hstrided hmap with hone | heq
          · obtain rfl : k = 0 := by omega
            omega
          · rw [heq]
            omega
      · have hmmap : t.type ≠ MULTIBOOT_TAG_TYPE_MMAP := hmap
        rw [if_pos hmmap]
        refine spec_bind (ih fuel frames hrest) ?_
        rintro w ⟨htags, hmaps⟩
        refine ⟨by rw [htags]; rfl, ?_⟩
        unfold maps_of
        rw [if_neg hmap, hmaps, List.forall_mem_cons]
        exact (and_iff_right (fun h6 => absurd h6 hmap)).symm

/-- The walk over maps whose entries are where it looks ends. -/
theorem walk_tags_returns (frames : Frames) (h : Block m a ts) (hs : ∀ t ∈ ts, Strided t) :
    ∃ w, walk_tags m (ts.length + 1) a frames = .ok w := by
  induction ts generalizing a frames with
  | nil =>
    have hend : read m a 4 = MULTIBOOT_TAG_TYPE_END := h
    unfold walk_tags
    dsimp only
    rw [if_pos hend]
    exact ⟨_, rfl⟩
  | cons t ts ih =>
    obtain ⟨ht, hrest⟩ := h
    have hnot : ¬ t.type = MULTIBOOT_TAG_TYPE_END := ht.type.2
    have hs' : ∀ t ∈ ts, Strided t := fun t ht => hs t (List.mem_cons_of_mem _ ht)
    rw [List.length_cons]
    unfold walk_tags
    dsimp only
    rw [ht.type.1, ht.size.1, if_neg hnot, behind_eq ht]
    by_cases hmap : t.type = 6
    · have hm := ht.map hmap
      have hzero : ∀ k < t.n, read m (a + SIZEOF_TAG_MMAP + (0 + k) * 24 + 20) 4 = 0 := by
        intro k hk
        have hk0 := hm.zero k hk
        rw [Nat.zero_add]
        rcases hs t List.mem_cons_self hmap with hone | heq
        · obtain rfl : k = 0 := by omega
          rw [Nat.zero_mul] at hk0 ⊢
          exact hk0
        · rw [heq] at hk0
          exact hk0
      obtain ⟨⟨entries, frames1⟩, hentries⟩ := walk_entries_returns _ 0 _ frames hzero
      obtain ⟨w, hw⟩ := ih frames1 hrest hs'
      have hmmap : ¬ t.type ≠ MULTIBOOT_TAG_TYPE_MMAP := not_not.mpr hmap
      rw [if_neg hmmap, hm.entry_size, count_eq hm ht, ok_bind, hentries, ok_bind]
      dsimp only
      rw [hw]
      exact ⟨_, rfl⟩
    · obtain ⟨w, hw⟩ := ih frames hrest hs'
      have hmmap : t.type ≠ MULTIBOOT_TAG_TYPE_MMAP := hmap
      rw [if_pos hmmap, hw]
      exact ⟨_, rfl⟩

/-! ## What the pass frees -/

theorem release_entries_cons (frames : Frames) (e : MemoryMapEntry) (es : List MemoryMapEntry) :
    release_entries frames (e :: es) =
      release_entries frames [e] >>= fun frames => release_entries frames es := by
  rw [release_entries, release_entries]
  by_cases htype : MULTIBOOT_MEMORY_AVAILABLE ≠ e.type
  · rw [if_pos htype, if_pos htype]
    rfl
  · rw [if_neg htype, if_neg htype]
    dsimp only
    by_cases hzero : 0 = e.zero
    · rw [assert_of hzero]
      rfl
    · rw [assert_fails hzero]
      rfl

theorem release_entries_append (frames : Frames) (es es' : List MemoryMapEntry) :
    release_entries frames (es ++ es') =
      release_entries frames es >>= fun frames => release_entries frames es' := by
  induction es generalizing frames with
  | nil => rfl
  | cons e es ih =>
    rw [List.cons_append, release_entries_cons, release_entries_cons frames e es, bind_assoc]
    exact congrArg _ (funext ih)

theorem walk_entries_frames (m : Mem) (entries i todo : Nat) (frames : Frames) :
    Spec (walk_entries m entries i frames todo) (fun _ => True)
      (fun r => release_entries frames (r.1.map (entry_at m)) = .ok r.2) := by
  induction todo generalizing i frames with
  | zero => rfl
  | succ todo ih =>
    unfold walk_entries
    dsimp only
    cases hfirst : release_entries frames [entry_at m (entries + i * SIZEOF_ENTRY)] with
    | error e => trivial
    | ok frames1 =>
      rw [ok_bind]
      refine spec_bind (ih (i + 1) frames1) ?_
      rintro ⟨rest, frames2⟩ hrest
      change release_entries frames (entry_at m _ :: rest.map (entry_at m)) = _
      rw [release_entries_cons, hfirst, ok_bind]
      exact hrest

/-- The entries that the walk reads go to the pass, one by one. -/
theorem walk_tags_frames (m : Mem) (fuel a : Nat) (frames : Frames) :
    Spec (walk_tags m fuel a frames) (fun _ => True) (fun w =>
      release_entries frames ((w.maps.flatMap ReadMap.entries).map (entry_at m)) =
        .ok w.frames) := by
  induction fuel generalizing a frames with
  | zero => trivial
  | succ fuel ih =>
    unfold walk_tags
    dsimp only
    by_cases hend : read m a 4 = MULTIBOOT_TAG_TYPE_END
    · rw [if_pos hend]
      rfl
    · rw [if_neg hend]
      by_cases hmap : read m a 4 ≠ MULTIBOOT_TAG_TYPE_MMAP
      · rw [if_pos hmap]
        refine spec_bind (ih _ frames) ?_
        intro w hw
        exact hw
      · rw [if_neg hmap]
        cases entries_count (read m (a + 4) 4) (read m (a + 8) 4) with
        | error e => trivial
        | ok count =>
          rw [ok_bind]
          refine spec_bind (walk_entries_frames m _ 0 count frames) ?_
          rintro ⟨entries, frames1⟩ hentries
          refine spec_bind (ih _ frames1) ?_
          intro w hw
          change release_entries frames ((entries ++ w.maps.flatMap ReadMap.entries).map
            (entry_at m)) = _
          rw [List.map_append, release_entries_append, hentries, ok_bind]
          exact hw

/-! ## The walk -/

/-- The walk visits every tag and every entry at its place, exactly when the entries of each
memory map lie 24 bytes apart, or there is one at most. -/
theorem the_walk_visits_all_iff_entries_are_24_bytes (frames : Frames)
    (h : Block m (addr + 8) ts) :
    VisitsAll m addr frames ts ↔ ∀ t ∈ ts, Strided t := by
  constructor
  · rintro ⟨fuel, w, hw, -, hmaps⟩
    exact (spec_of_ok (walk_tags_places fuel frames h) hw).2.mp hmaps
  · intro hs
    obtain ⟨w, hw⟩ := walk_tags_returns frames h hs
    obtain ⟨htags, hmaps⟩ := spec_of_ok (walk_tags_places _ frames h) hw
    exact ⟨_, w, hw, htags, hmaps.mpr hs⟩

/-- A map of two entries of 24 bytes each, behind it the end tag. -/
theorem the_walk_visits_two_entries_of_24_bytes :
    VisitsAll (fun x => if x = 8 then 6 else if x = 12 then 64 else if x = 16 then 24 else 0) 0
      (fun _ => 0) [⟨6, 64, 24, 2⟩] := by
  have hblock : Block (fun x => if x = 8 then 6 else if x = 12 then 64 else if x = 16 then 24
      else 0) (0 + 8) [⟨6, 64, 24, 2⟩] :=
    ⟨⟨by decide, by decide, fun _ => ⟨by decide, by decide, by decide, by decide⟩⟩, rfl⟩
  refine (the_walk_visits_all_iff_entries_are_24_bytes (fun _ => 0) hblock).mpr ?_
  intro t ht _
  obtain rfl := List.mem_singleton.mp ht
  exact Or.inr rfl

/-- The second of two entries of 32 bytes is read at the end of the first. -/
theorem the_walk_misses_the_second_entry_of_32_bytes :
    ¬ ∀ (m : Mem) (addr : Nat) (frames : Frames) (ts : List Tag),
      Block m (addr + 8) ts → VisitsAll m addr frames ts := by
  intro h
  have hblock : Block (fun x => if x = 8 then 6 else if x = 12 then 80 else if x = 16 then 32
      else 0) (0 + 8) [⟨6, 80, 32, 2⟩] :=
    ⟨⟨by decide, by decide, fun _ => ⟨by decide, by decide, by decide, by decide⟩⟩, rfl⟩
  obtain ⟨fuel, w, hw, -, hmaps⟩ := h _ 0 (fun _ => 0) _ hblock
  have hstrided := (spec_of_ok (walk_tags_places fuel _ hblock) hw).2.mp hmaps _
    List.mem_cons_self rfl
  exact absurd hstrided (by decide)

end salsola.mmu
