-- What the clone functions do: each makes a table of its own, and fills it with copies of
-- what the table of the original has.
import Salsola.MmuCopies

open memory outcome runs

namespace salsola.mmu

variable {W : Nat} {dirs : List Nat} {s0 s s' s'' : Mmu}
variable {a b c e e' f i j k l n new orig p phys t x : Nat} {ram ram' : Mem} {fuel : Nat}
variable {D : Nat → Nat → Prop}

/-! ## Copies -/

/-- The page with the entry `e'` is a copy of the one with the entry `e`. -/
structure SamePage (ram : Mem) (e e' : Nat) : Prop where
  present_iff : present e' ↔ present e
  flags : present e → e' % 0x1000 = e % 0x1000
  bytes : present e → ∀ k, k < 0x1000 → ram (page_base e' + k) = ram (page_base e + k)

/-- The entry `i` of the table `b` is a copy of the one of the table `a`, where `copies` says so of
the tables below. -/
def CopiedEntry (copies : Mmu → Nat → Nat → Prop) (s : Mmu) (a b i : Nat) : Prop :=
  (present ((s.tables b).physical i) ↔ present ((s.tables a).physical i)) ∧
  (present ((s.tables a).physical i) → copies s ((s.tables a).next i) ((s.tables b).next i))

/-- The table `b` is a copy of the table `a`, with `l` levels of tables below. -/
def Copies : Nat → Mmu → Nat → Nat → Prop
  | 0, s, a, b => ∀ i, i < 512 → SamePage s.ram (s.pts a i) (s.pts b i)
  | l + 1, s, a, b => ∀ i, i < 512 → CopiedEntry (Copies l) s a b i

/-- Each page has a frame that is taken, but for the words `D` of the window's page tables. -/
structure Backed (W : Nat) (D : Nat → Nat → Prop) (s : Mmu) : Prop where
  frame : ∀ a i, present (s.pts a i) → ¬ D a i → taken s.frames (s.pts a i / 0x1000)
  window : ∀ a i, D a i → InWindow s W a

theorem Backed.outside (h : Backed W D s) (ha : ¬ InWindow s W a) (hp : present (s.pts a i)) :
    taken s.frames (s.pts a i / 0x1000) :=
  h.frame a i hp (fun hD => ha (h.window a i hD))

theorem Kept.trans (h : Kept s s') (h' : Kept s' s'')
    (ht : ∀ f, taken s.frames f → taken s'.frames f) : Kept s s'' :=
  fun x hx => (h' x (ht _ hx)).trans (h x hx)

theorem kept_of_ram (h : s'.ram = s.ram) : Kept s s' := fun x _ => by rw [h]

theorem Grows.into_window (h : Grows W s s') (hin : InWindow s W a) : InWindow s' W a := by
  rcases hin with rfl | ⟨i, hl⟩ | ⟨i, b, j, hl, hl'⟩
  · exact Or.inl rfl
  · exact Or.inr (Or.inl ⟨i, (h.table _ _ _ hl).1⟩)
  · exact Or.inr (Or.inr ⟨i, b, j, (h.table _ _ _ hl).1, (h.table _ _ _ hl').1⟩)

theorem Backed.fresh (h : Backed W D s) (hg : Grows W s s') (hf : Fresh s s') :
    Backed W D s' where
  frame a i hp hD := by
    by_cases hold : present (s.pts a i)
    · rw [hg.page a i hold]
      exact hg.taken _ (h.frame a i hold hD)
    · exact (hf.frame a i ⟨hp, hold⟩).2.1
  window a i hD := hg.into_window (h.window a i hD)

theorem SamePage.keeps (h : SamePage ram e e')
    (hkeep : ∀ x, x / 0x1000 = e / 0x1000 ∨ x / 0x1000 = e' / 0x1000 → ram' x = ram x) :
    SamePage ram' e e' where
  present_iff := h.present_iff
  flags := h.flags
  bytes hp k hk := by
    have h1 : (page_base e' + k) / 0x1000 = e' / 0x1000 := by
      unfold page_base
      omega
    have h2 : (page_base e + k) / 0x1000 = e / 0x1000 := by
      unfold page_base
      omega
    rw [hkeep _ (Or.inr h1), hkeep _ (Or.inl h2)]
    exact h.bytes hp k hk

/-- A copy stays a copy when the bytes of its two frames stay. -/
theorem SamePage.kept_taken (h : SamePage s.ram (s0.pts a i) (s.pts b j))
    (hbuilds : Builds W dirs s0 s) (hb0 : Backed W D s0) (ha : ¬ InWindow s0 W a)
    (hb : ¬ InWindow s W b)
    (hkeep : ∀ x, taken s.frames (x / 0x1000) → ram' x = s.ram x) :
    SamePage ram' (s0.pts a i) (s.pts b j) := by
  by_cases hp : present (s0.pts a i)
  · refine h.keeps ?_
    rintro x (hx | hx)
    · exact hkeep x (hx ▸ hbuilds.grows.taken _ (hb0.outside ha hp))
    · exact hkeep x (hx ▸ (hb0.fresh hbuilds.grows hbuilds.fresh).outside hb
        (h.present_iff.mpr hp))
  · exact ⟨h.present_iff, fun h1 => absurd h1 hp, fun h1 => absurd h1 hp⟩

/-- A table outside of the window that is no root. -/
structure Below (W : Nat) (dirs : List Nat) (s : Mmu) (a : Nat) : Prop where
  table : IsTable s a
  outside : ¬ InWindow s W a
  not_root : ∀ d ∈ dirs, root s d ≠ a

theorem below_of_link (hs : Sound W dirs s) (hl : Links s a i b) (hout : ¬ InWindow s W a)
    (hi : i ≠ 511 ∨ ∀ d ∈ dirs, root s d ≠ a) : Below W dirs s b :=
  ⟨(hs.links _ _ _ hl).2, link_outside hs hl hout hi, linked_not_root hs hl⟩

/-- Where nothing changes but new tables and free frames, a copied entry stays a copy, if that
is so for the tables below. -/
theorem CopiedEntry.builds (h : CopiedEntry (Copies l) s a b i) (hbuilds : Builds W dirs s s')
    (hs : Sound W dirs s) (ha : IsTable s a ∧ ¬ InWindow s W a) (hb : Below W dirs s b)
    (hi : i ≠ 511 ∨ ∀ d ∈ dirs, root s d ≠ a)
    (hbelow : ∀ c c', Copies l s c c' → Below W dirs s c → Below W dirs s c' → Copies l s' c c') :
    CopiedEntry (Copies l) s' a b i := by
  obtain ⟨htablea, -⟩ := hbuilds.outside a ha.1 ha.2
  obtain ⟨htableb, -⟩ := hbuilds.outside b hb.table hb.outside
  unfold CopiedEntry
  rw [htablea, htableb]
  refine ⟨h.1, fun hp => ?_⟩
  exact hbelow _ _ (h.2 hp) (below_of_link hs (links_next hp) ha.2 hi)
    (below_of_link hs (links_next (h.1.mpr hp)) hb.outside (Or.inr hb.not_root))

theorem Copies.builds (h : Copies l s a b) (hbuilds : Builds W dirs s s') (hkept : Kept s s')
    (hs : Sound W dirs s) (hback : Backed W D s) (ha : Below W dirs s a) (hb : Below W dirs s b) :
    Copies l s' a b := by
  induction l generalizing a b with
  | zero =>
    obtain ⟨-, hptsa⟩ := hbuilds.outside a ha.table ha.outside
    obtain ⟨-, hptsb⟩ := hbuilds.outside b hb.table hb.outside
    intro i hi
    rw [hptsa, hptsb]
    by_cases hp : present (s.pts a i)
    · refine (h i hi).keeps ?_
      rintro x (hx | hx)
      · exact hkept x (hx ▸ hback.outside ha.outside hp)
      · exact hkept x (hx ▸ hback.outside hb.outside ((h i hi).present_iff.mpr hp))
    · exact ⟨(h i hi).present_iff, fun h1 => absurd h1 hp, fun h1 => absurd h1 hp⟩
  | succ l ih =>
    intro i hi
    exact CopiedEntry.builds (h i hi) hbuilds hs ⟨ha.table, ha.outside⟩ hb (Or.inr ha.not_root)
      (fun c c' hc => ih hc)

/-- An entry of a table that nothing points to is no part of a copy. -/
theorem Copies.link (h : Copies l s a b) (hne : a ≠ t ∧ b ≠ t) (hun : ∀ c j, ¬ Links s c j t) :
    Copies l (s.set_entry t i e n) a b := by
  induction l generalizing a b with
  | zero => exact h
  | succ l ih =>
    have htablea : (s.set_entry t i e n).tables a = s.tables a := if_neg hne.1
    have htableb : (s.set_entry t i e n).tables b = s.tables b := if_neg hne.2
    intro j hj
    obtain ⟨hiff, hcopy⟩ := h j hj
    unfold CopiedEntry
    rw [htablea, htableb]
    refine ⟨hiff, fun hp => ih (hcopy hp) ⟨?_, ?_⟩⟩
    · rintro rfl
      exact hun _ _ (links_next hp)
    · rintro rfl
      exact hun _ _ (links_next (hiff.mpr hp))

/-! ## A table that is being filled -/

/-- Since `s0` the call has made the table `new`, at the physical address `phys`, and nothing
points to it yet. -/
structure Begun (W : Nat) (dirs : List Nat) (s0 : Mmu) (new phys : Nat) (s : Mmu) : Prop where
  builds : Builds W dirs s0 s
  kept : Kept s0 s
  fresh : ¬ IsTable s0 new
  placed : s.placed phys = some new
  aligned : phys % 0x1000 = 0
  unlinked : ∀ a i, ¬ Links s a i new

theorem Begun.isTable (h : Begun W dirs s0 new phys s) : IsTable s new := ⟨phys, h.placed⟩

theorem Begun.outside (h : Begun W dirs s0 new phys s) (hs0 : Sound W dirs s0) :
    ¬ InWindow s W new := by
  rintro (rfl | ⟨i, hl⟩ | ⟨_, _, j, _, hl⟩)
  · exact h.fresh (isTable_window hs0)
  · exact h.unlinked _ _ hl
  · exact h.unlinked _ _ hl

theorem Begun.not_root (h : Begun W dirs s0 new phys s) (hs0 : Sound W dirs s0) :
    ∀ d ∈ dirs, root s d ≠ new := by
  rintro d hd rfl
  apply h.fresh
  have hroot := root_table hs0 hd
  unfold root at hroot ⊢
  rw [h.builds.directories]
  exact hroot

/-- The table is still alone when a call has left what was there. -/
theorem Begun.goes_on (h : Begun W dirs s0 new phys s) (hs0 : Sound W dirs s0)
    (hb : Builds W dirs s s') (hk : Kept s0 s') : Begun W dirs s0 new phys s' where
  builds := h.builds.trans hb hs0
  kept := hk
  fresh := h.fresh
  placed := hb.grows.placed _ _ h.placed
  aligned := h.aligned
  unlinked a i hl := h.unlinked a i (hb.grows.old_link hl h.isTable)

theorem begun_of_safe {n : Nat} (h : Safe W dirs s0 n a p s) : Begun W dirs s0 a p s where
  builds := h.searched.builds
  kept := kept_of_ram h.searched.quiet.ram
  fresh := h.new.fresh
  placed := h.new.placed
  aligned := h.new.aligned
  unlinked := h.new.unlinked

/-- The table that is being filled gets a page on a frame that was free. -/
theorem Begun.page (h : Begun W dirs s0 new phys s) {frames : Frames}
    (hno : ¬ present (s.pts new i)) (hget : get_frame s.frames true 1 = .ok (p, frames))
    (hf : f < 0x1000) :
    Begun W dirs s0 new phys (({ s with frames } : Mmu).set_page new i (p ||| f)) := by
  obtain ⟨hsound, hmakes⟩ := fresh_page h.builds.sound h.isTable hno hget hf
  refine ⟨⟨hsound, h.builds.grows.trans hmakes.grows,
    h.builds.fresh.trans hmakes.fresh h.builds.grows hmakes.grows, ?_, h.builds.directories,
    h.builds.active, h.builds.heap_end, h.builds.window⟩,
    h.kept, h.fresh, h.placed, h.aligned, h.unlinked⟩
  intro b hb hout
  have hne : b ≠ new := by
    rintro rfl
    exact h.fresh hb
  obtain ⟨h1, h2⟩ := h.builds.outside b hb hout
  refine ⟨h1, ?_⟩
  rw [← h2]
  funext j
  exact set_page_other (fun hslot => hne hslot.1)

/-- What a clone function does, for a table with `l` levels below: a copy of the table, whose new
entries name the tables that they point to, if `agrees` says so. -/
def Clones (W : Nat) (dirs : List Nat) (D : Nat → Nat → Prop) (l : Nat)
    (agrees : Mmu → Nat → Prop) (clone : Clone) : Prop :=
  ∀ s orig, Sound W dirs s → Backed W D s → Below W dirs s orig →
    Spec (clone s orig) anyhow (fun r => Begun W dirs s r.1 r.2.1 r.2.2 ∧
      Copies l r.2.2 orig r.1 ∧ (agrees s orig → Agrees s r.2.2))

/-! ## The pages of a PT -/

theorem memcpy_frame (ram : Mem) {p q : Nat} (hp : p % 0x1000 = 0) (hq : q % 0x1000 = 0) :
    (∀ k, k < 0x1000 → memcpy ram p q PAGE_SIZE (p + k) = ram (q + k)) ∧
      ∀ x, x / 0x1000 ≠ p / 0x1000 → memcpy ram p q PAGE_SIZE x = ram x := by
  obtain ⟨hin, hother⟩ := memcpy_copied ram p q PAGE_SIZE (by unfold PAGE_SIZE; omega)
  refine ⟨hin, fun x hx => hother x ?_⟩
  unfold PAGE_SIZE
  omega

/-- One page is copied to a frame that was free. -/
theorem Begun.copies_page (h : Begun W dirs s0 new phys s) (hs0 : Sound W dirs s0)
    (hb0 : Backed W D s0) (hout : ¬ InWindow s0 W orig) (ha : Agrees s0 s)
    (hp : present (s0.pts orig i)) (hno : ¬ present (s.pts new i)) {frames : Frames}
    (hget : get_frame s.frames true 1 = .ok (p, frames)) :
    Spec (copy_frame fuel (({ s with frames } : Mmu).set_page new i
        (p ||| (s0.pts orig i &&& 0xFFF))) p (s0.pts orig i)) anyhow (fun s' =>
      Begun W dirs s0 new phys s' ∧ Agrees s0 s' ∧
      SamePage s'.ram (s0.pts orig i) (s'.pts new i) ∧
      (∀ j, j ≠ i → s'.pts new j = s.pts new j) ∧
      ∀ x, taken s.frames (x / 0x1000) → s'.ram x = s.ram x) := by
  obtain ⟨e, he⟩ : ∃ e, e = s0.pts orig i := ⟨_, rfl⟩
  rw [← he] at hp ⊢
  have hlow : e &&& 0xFFF < 0x1000 := by
    rw [and_low]
    omega
  have hbegun := h.page hno hget hlow
  obtain ⟨r, hr, -, -, hfree, -⟩ := get_frame_taken hget
  have haligned : p % 0x1000 = 0 := by omega
  have huntaken : ¬ taken s.frames (p / 0x1000) := by
    rw [hr, Nat.mul_div_cancel _ (by decide)]
    exact hfree r (Nat.le_refl r) (by omega)
  have htaken : taken s.frames (e / 0x1000) := by
    rw [he] at hp ⊢
    exact h.builds.grows.taken _ (hb0.outside hout hp)
  obtain ⟨s1, hs1⟩ : ∃ s1, s1 = ({ s with frames } : Mmu).set_page new i (p ||| (e &&& 0xFFF)) :=
    ⟨_, rfl⟩
  rw [← hs1] at hbegun ⊢
  have hram : s1.ram = s.ram := by rw [hs1]; rfl
  have hpts : ∀ j, s1.pts new j = if j = i then p ||| (e &&& 0xFFF) else s.pts new j := by
    intro j
    rw [hs1, set_page_pts]
    simp
  have htables : s1.tables = s.tables := by rw [hs1]; rfl
  have hplaced : s1.placed = s.placed := by rw [hs1]; rfl
  refine spec_post (copy_frame.spec hbegun.builds.sound fuel p e) ?_
  rintro s' ⟨hb, hag, hcopy⟩
  have hbase : page_base p = p := by unfold page_base; omega
  have hsrc : page_base e / 0x1000 = e / 0x1000 := by unfold page_base; omega
  rw [hbase, hram] at hcopy
  have hne : p / 0x1000 ≠ page_base e / 0x1000 := by
    rw [hsrc]
    intro heq
    exact huntaken (heq ▸ htaken)
  obtain ⟨hbytes, hother⟩ :=
    memcpy_frame s.ram haligned (by unfold page_base; omega : page_base e % 0x1000 = 0)
  rw [← hcopy] at hbytes hother
  have hkeep : ∀ x, taken s.frames (x / 0x1000) → s'.ram x = s.ram x := by
    intro x hx
    apply hother
    rintro heq
    exact huntaken (heq ▸ hx)
  have hkept : Kept s0 s' := fun x hx =>
    (hkeep x (h.builds.grows.taken _ hx)).trans (h.kept x hx)
  obtain ⟨-, hsame⟩ := hb.outside new hbegun.isTable (hbegun.outside hs0)
  have hentry : s'.pts new i = p ||| (e &&& 0xFFF) := by
    rw [hsame, hpts, if_pos rfl]
  refine ⟨hbegun.goes_on hs0 hb hkept, ?_, ?_, ?_, hkeep⟩
  · have hag1 : Agrees s0 s1 := by
      intro a i b hl
      unfold Links at hl
      rw [htables] at hl
      rw [htables, hplaced]
      exact ha a i b hl
    exact hag1.trans hag hb.grows
  · have hflags : (p ||| (e &&& 0xFFF)) = p + e % 0x1000 := by
      rw [or_flags _ _ haligned hlow, and_low]
    have hnewbase : page_base (p + e % 0x1000) = p := by
      unfold page_base
      omega
    rw [hentry, hflags]
    refine ⟨?_, fun _ => by omega, fun _ k hk => ?_⟩
    · rw [present_iff, present_iff]
      omega
    · rw [hnewbase, hbytes k hk]
      refine (hother _ ?_).symm
      unfold page_base at hne ⊢
      omega
  · intro j hj
    rw [hsame, hpts, if_neg hj]

/-- The loop of `clone_pt`. -/
theorem clone_pages.spec (hs0 : Sound W dirs s0) (hb0 : Backed W D s0) (horig : IsTable s0 orig)
    (hout : ¬ InWindow s0 W orig) (h : Begun W dirs s0 new phys s) (ha : Agrees s0 s)
    (hempty : ∀ i, ¬ present (s.pts new i)) (n : Nat) :
    Spec (clone_pages fuel orig new s n) anyhow (fun s' =>
      Begun W dirs s0 new phys s' ∧ Agrees s0 s' ∧
      (∀ i, i < n → SamePage s'.ram (s0.pts orig i) (s'.pts new i)) ∧
      ∀ i, n ≤ i → ¬ present (s'.pts new i)) := by
  induction n with
  | zero => exact ⟨h, ha, fun i hi => absurd hi (Nat.not_lt_zero i), fun i _ => hempty i⟩
  | succ n ih =>
    unfold clone_pages
    refine spec_bind ih ?_
    rintro s1 ⟨h1, ha1, hsame, hrest⟩
    dsimp only
    obtain ⟨-, horigpts⟩ := h1.builds.outside orig horig hout
    rw [horigpts]
    have hpresent : present (s0.pts orig n &&& 0xFFF) ↔ present (s0.pts orig n) := by
      rw [present_iff, present_iff, and_low]
      omega
    by_cases hp : present (s0.pts orig n)
    · rw [if_neg (not_not.mpr (hpresent.mpr hp))]
      cases hget : get_frame s1.frames true 1 with
      | error e => trivial
      | ok r =>
        obtain ⟨p, frames⟩ := r
        rw [ok_bind]
        dsimp only
        obtain ⟨r, hr, -⟩ := get_frame_taken hget
        have hbase : page_base (p ||| (s0.pts orig n &&& 0xFFF)) = p :=
          page_base_of_aligned _ _ (by omega) (by rw [and_low]; omega)
        have hne : ¬ (orig = new ∧ n = n) := fun heq => h.fresh (heq.1 ▸ horig)
        rw [set_page_self, hbase, set_page_other hne, show ({ s1 with frames } : Mmu).pts orig n =
          s0.pts orig n from congrFun horigpts n]
        refine spec_post (h1.copies_page hs0 hb0 hout ha1 hp (hrest n (Nat.le_refl n)) hget) ?_
        rintro s2 ⟨h2, ha2, hcopy, hother, hkeep⟩
        refine ⟨h2, ha2, fun i hi => ?_, fun i hi => ?_⟩
        · rcases Nat.lt_succ_iff_lt_or_eq.mp hi with hi | rfl
          · rw [hother i (by omega)]
            exact (hsame i hi).kept_taken h1.builds hb0 hout (h1.outside hs0) hkeep
          · exact hcopy
        · rw [hother i (by omega)]
          exact hrest i (by omega)
    · rw [if_pos (fun h2 => hp (hpresent.mp h2))]
      refine ⟨h1, ha1, fun i hi => ?_, fun i hi => hrest i (by omega)⟩
      rcases Nat.lt_succ_iff_lt_or_eq.mp hi with hi | rfl
      · exact hsame i hi
      · exact ⟨iff_of_false (hrest i (Nat.le_refl i)) hp, fun h2 => absurd h2 hp,
          fun h2 => absurd h2 hp⟩

theorem clone_pt.spec (fuel : Nat) : Clones W dirs D 0 (fun _ _ => True) (clone_pt fuel) := by
  intro s orig hs hback horig
  unfold clone_pt
  -- the number of turns gets a name
  obtain ⟨m, hm⟩ : ∃ m, m = 512 := ⟨_, rfl⟩
  rw [← hm]
  refine spec_bind (safe_allocation.spec (opens_allocate_pt fuel) hs fuel 1) ?_
  rintro ⟨new, phys, s1⟩ hsafe
  dsimp only at hsafe ⊢
  have hempty : ∀ i, ¬ present (s1.pts new i) := by
    intro i
    rw [hsafe.new.pts]
    exact not_present_zero
  refine spec_bind (clone_pages.spec hs hback horig.table horig.outside (begun_of_safe hsafe)
    hsafe.searched.makes.agrees hempty m) ?_
  rintro s2 ⟨h2, hag, hsame, -⟩
  refine ⟨h2, ?_, fun _ => hag⟩
  obtain ⟨-, hpts⟩ := h2.builds.outside orig horig.table horig.outside
  intro i hi
  rw [hpts]
  exact hsame i (hm ▸ hi)

/-! ## The entries of a table -/

/-- The table that is being filled gets an entry for a table that nothing points to. -/
theorem Begun.link (h : Begun W dirs s0 new phys s) (hs0 : Sound W dirs s0)
    (hno : ¬ present ((s.tables new).physical i)) (hn : Begun W dirs s' n p s)
    (hs' : Sound W dirs s') (hn0 : ¬ IsTable s0 n) (hne : n ≠ new) :
    Begun W dirs s0 new phys (s.set_entry new i e n) where
  builds :=
    { sound := sound_link h.builds.sound h.isTable hn.isTable hno hn.unlinked (hn.not_root hs')
      grows := grows_link h.builds.grows hno hn0
      fresh := fresh_link h.builds.fresh
      outside := by
        intro b hb hout
        have hnew : b ≠ new := by
          rintro rfl
          exact h.fresh hb
        obtain ⟨h1, h2⟩ := h.builds.outside b hb hout
        exact ⟨(if_neg hnew).trans h1, h2⟩
      directories := h.builds.directories
      active := h.builds.active
      heap_end := h.builds.heap_end
      window := h.builds.window.link (h.outside hs0) }
  kept := h.kept
  fresh := h.fresh
  placed := h.placed
  aligned := h.aligned
  unlinked b j hl := by
    rcases link_cases hl with ⟨-, -, heq⟩ | ⟨-, h1⟩
    · exact hne heq.symm
    · exact h.unlinked b j h1

theorem Below.builds (h : Below W dirs s a) (hb : Builds W dirs s s') (hs : Sound W dirs s) :
    Below W dirs s' a where
  table := hb.grows.isTable h.table
  outside hin := h.outside (hb.grows.inWindow hs h.table hin)
  not_root d hd heq := h.not_root d hd (by
    unfold root at heq ⊢
    rw [← heq, hb.directories])

theorem Begun.below (h : Begun W dirs s0 new phys s) (hs0 : Sound W dirs s0) :
    Below W dirs s new := ⟨h.isTable, h.outside hs0, h.not_root hs0⟩

/-- The entry of a table that nothing points to is no part of the other entries. -/
theorem CopiedEntry.link (h : CopiedEntry (Copies l) s a b j) (ha : a ≠ t) (hb : ¬ (b = t ∧ j = i))
    (hun : ∀ c j, ¬ Links s c j t) : CopiedEntry (Copies l) (s.set_entry t i e n) a b j := by
  obtain ⟨hpa, hna⟩ := set_entry_other (s := s) (e := e) (n := n) (b := a) (j := j) (a := t)
    (i := i) (fun hslot => ha hslot.1)
  obtain ⟨hpb, hnb⟩ := set_entry_other (s := s) (e := e) (n := n) hb
  unfold CopiedEntry
  rw [hpa, hna, hpb, hnb]
  refine ⟨h.1, fun hp => (h.2 hp).link ⟨?_, ?_⟩ hun⟩
  · intro heq
    exact hun a j (heq ▸ links_next hp)
  · intro heq
    exact hun b j (heq ▸ links_next (h.1.mpr hp))

/-- What `agrees` says of a table stays true. -/
def Steady (W : Nat) (dirs : List Nat) (agrees : Mmu → Nat → Prop) : Prop :=
  ∀ s s' a, Builds W dirs s s' → Below W dirs s a → agrees s a → agrees s' a

/-- The loops over the entries of a table. -/
theorem clone_entries.spec {agrees : Mmu → Nat → Prop} {clone : Clone} {flags : Nat → Nat}
    (hclone : Clones W dirs D l agrees clone) (hsteady : Steady W dirs agrees)
    (hflags : ∀ e, present (flags e) ↔ present e) (hs0 : Sound W dirs s0) (hb0 : Backed W D s0)
    (ho : IsTable s0 orig ∧ ¬ InWindow s0 W orig) (h : Begun W dirs s0 new phys s)
    (hempty : ∀ i, ¬ present ((s.tables new).physical i)) (n : Nat)
    (hroot : ∀ i, i < n → i ≠ 511 ∨ ∀ d ∈ dirs, root s0 d ≠ orig) :
    Spec (clone_entries clone flags orig new s n) anyhow (fun s' =>
      Begun W dirs s0 new phys s' ∧ (∀ i, i < n → CopiedEntry (Copies l) s' orig new i) ∧
      (∀ i, n ≤ i → ¬ present ((s'.tables new).physical i)) ∧
      (Agrees s0 s → (∀ i, i < n → present ((s0.tables orig).physical i) →
        flags ((s0.tables orig).physical i) < 0x1000 ∧ agrees s0 ((s0.tables orig).next i)) →
        Agrees s0 s')) := by
  induction n with
  | zero =>
    exact ⟨h, fun i hi => absurd hi (Nat.not_lt_zero i), fun i _ => hempty i, fun ha _ => ha⟩
  | succ n ih =>
    unfold clone_entries
    refine spec_bind (ih (fun i hi => hroot i (by omega))) ?_
    rintro s1 ⟨h1, hcopied, hrest, hag1⟩
    dsimp only
    obtain ⟨horig, -⟩ := h1.builds.outside orig ho.1 ho.2
    rw [horig]
    by_cases hp : present ((s0.tables orig).physical n)
    · rw [if_neg (not_not.mpr ((hflags _).mpr hp))]
      have hs1 := h1.builds.sound
      have hchild0 := below_of_link hs0 (links_next hp) ho.2 (hroot n (by omega))
      refine spec_bind (hclone s1 _ hs1 (hb0.fresh h1.builds.grows h1.builds.fresh)
        (hchild0.builds h1.builds hs0)) ?_
      rintro ⟨next, p, s2⟩ ⟨hnext, hcopies, hag2⟩
      dsimp only at hnext hcopies hag2 ⊢
      obtain ⟨htable, -⟩ := hnext.builds.outside new h1.isTable (h1.outside hs0)
      have hold : ¬ IsTable s0 next := fun ht => hnext.fresh (h1.builds.grows.isTable ht)
      have hne : next ≠ new := by
        rintro rfl
        exact hnext.fresh h1.isTable
      have horig' : orig ≠ new := by
        rintro rfl
        exact h1.fresh ho.1
      have hchild : (s0.tables orig).next n ≠ new := by
        intro heq
        exact h1.fresh (heq ▸ hchild0.table)
      have h2 := h1.goes_on hs0 hnext.builds
        (h1.kept.trans hnext.kept h1.builds.grows.taken)
      have hno : ¬ present ((s2.tables new).physical n) := by
        rw [htable]
        exact hrest n (Nat.le_refl n)
      obtain ⟨horig2, -⟩ := h2.builds.outside orig ho.1 ho.2
      refine ⟨h2.link hs0 hno hnext hs1 hold hne, fun i hi => ?_, fun i hi => ?_, fun ha hall => ?_⟩
      · rcases Nat.lt_succ_iff_lt_or_eq.mp hi with hi | rfl
        · -- an entry that was copied before
          have horigs1 : IsTable s1 orig ∧ ¬ InWindow s1 W orig :=
            ⟨h1.builds.grows.isTable ho.1,
              fun hin => ho.2 (h1.builds.grows.inWindow hs0 ho.1 hin)⟩
          have hroots1 : i ≠ 511 ∨ ∀ d ∈ dirs, root s1 d ≠ orig := by
            refine (hroot i (by omega)).imp_right (fun hno d hd => ?_)
            unfold root
            rw [h1.builds.directories]
            exact hno d hd
          have hcopied2 := (hcopied i hi).builds hnext.builds hs1 horigs1 (h1.below hs0) hroots1
            (fun c c' hc => hc.builds hnext.builds hnext.kept hs1
              (hb0.fresh h1.builds.grows h1.builds.fresh))
          exact hcopied2.link horig' (by omega) h2.unlinked
        · -- the new one
          have hself := set_entry_self (s := s2) (a := new) (i := i) (n := next)
            (e := p ||| flags ((s0.tables orig).physical i))
          obtain ⟨hsp, hsn⟩ := set_entry_other (s := s2) (a := new) (i := i) (n := next) (j := i)
            (e := p ||| flags ((s0.tables orig).physical i)) (fun hslot => horig' hslot.1)
          unfold CopiedEntry
          rw [hself.1, hself.2, hsp, hsn, horig2]
          refine ⟨iff_of_true (present_or _ _ ((present_iff _).mp ((hflags _).mpr hp))) hp,
            fun _ => hcopies.link ⟨hchild, hne⟩ h2.unlinked⟩
      · rw [(set_entry_other (by omega)).1, htable]
        exact hrest i (by omega)
      · obtain ⟨hlow, hagrees⟩ := hall n (by omega) hp
        have ha1 := hag1 ha (fun i hi => hall i (by omega))
        refine agrees_link (ha1.trans (hag2 ?_) hnext.builds.grows) ?_
        · exact hsteady s0 s1 _ h1.builds hchild0 hagrees
        · rw [page_base_of_aligned _ _ hnext.aligned hlow]
          exact hnext.placed
    · rw [if_pos (fun h2 => hp ((hflags _).mp h2))]
      refine ⟨h1, fun i hi => ?_, fun i hi => hrest i (by omega), fun ha hall => ?_⟩
      · rcases Nat.lt_succ_iff_lt_or_eq.mp hi with hi | rfl
        · exact hcopied i hi
        · unfold CopiedEntry
          rw [horig]
          exact ⟨iff_of_false (hrest i (Nat.le_refl i)) hp, fun h2 => absurd h2 hp⟩
      · exact hag1 ha (fun i hi => hall i (by omega))

/-! ## The tables -/

/-- A clone function for a table above tables that `clone` copies. -/
theorem clones_table {agrees : Mmu → Nat → Prop} {clone : Clone} {flags : Nat → Nat}
    (hclone : Clones W dirs D l agrees clone) (hsteady : Steady W dirs agrees)
    (hflags : ∀ e, present (flags e) ↔ present e) (fuel : Nat) :
    Clones W dirs D (l + 1) (fun s a => ∀ i, i < 512 → present ((s.tables a).physical i) →
      flags ((s.tables a).physical i) < 0x1000 ∧ agrees s ((s.tables a).next i))
      (fun s orig => safe_allocation (allocate_pt fuel) fuel s SIZEOF_TABLE >>= fun r =>
        clone_entries clone flags orig r.1 r.2.2 512 >>= fun s => .ok (r.1, r.2.1, s)) := by
  intro s orig hs hback horig
  obtain ⟨m, hm⟩ : ∃ m, m = 512 := ⟨_, rfl⟩
  rw [← hm]
  refine spec_bind (safe_allocation.spec (opens_allocate_pt fuel) hs fuel 2) ?_
  rintro ⟨new, phys, s1⟩ hsafe
  dsimp only at hsafe ⊢
  have hempty : ∀ i, ¬ present ((s1.tables new).physical i) := by
    intro i
    rw [hsafe.new.tables]
    exact not_present_zero
  refine spec_bind (clone_entries.spec hclone hsteady hflags hs hback
    ⟨horig.table, horig.outside⟩ (begun_of_safe hsafe) hempty m
    (fun i _ => Or.inr horig.not_root)) ?_
  rintro s2 ⟨h2, hcopied, -, hag⟩
  refine ⟨h2, fun i hi => hcopied i (hm ▸ hi), fun hall => ?_⟩
  exact hag hsafe.searched.makes.agrees (fun i hi => hall i hi)

theorem Clones.imp {agrees agrees' : Mmu → Nat → Prop} {clone : Clone}
    (h : Clones W dirs D l agrees clone) (himp : ∀ s a, agrees' s a → agrees s a) :
    Clones W dirs D l agrees' clone :=
  fun s orig hs hback horig => spec_post (h s orig hs hback horig)
    (fun _ hr => ⟨hr.1, hr.2.1, fun hag => hr.2.2 (himp s orig hag)⟩)

theorem present_low_flags (e : Nat) : present (low_flags e) ↔ present e := by
  unfold low_flags
  rw [present_iff, present_iff, and_low]
  omega

theorem low_flags_lt (e : Nat) : low_flags e < 0x1000 := by
  unfold low_flags
  rw [and_low]
  omega

/-- The sign of an `int` leaves the flags. -/
theorem present_int_flags (e : Nat) : present (int_flags e) ↔ present e := by
  have hbit : (int_flags e).testBit 0 = e.testBit 0 := by
    unfold int_flags
    rw [BitVec.testBit_toNat, BitVec.getLsbD_signExtend, BitVec.getLsbD_ofNat]
    simp
  rw [Nat.testBit_zero, Nat.testBit_zero] at hbit
  rw [present_iff, present_iff, ← decide_eq_decide]
  exact hbit

theorem clone_pdt.spec (fuel : Nat) : Clones W dirs D 1 (fun _ _ => True) (clone_pdt fuel) :=
  (clones_table (clone_pt.spec fuel) (fun _ _ _ _ _ h => h) present_low_flags fuel).imp
    (fun _ _ _ _ _ _ => ⟨low_flags_lt _, trivial⟩)

/-- A PDPT without entries. -/
def Empty (s : Mmu) (a : Nat) : Prop := ∀ i, i < 512 → ¬ present ((s.tables a).physical i)

theorem clone_pdpt.spec (fuel : Nat) : Clones W dirs D 2 Empty (clone_pdpt fuel) :=
  (clones_table (clone_pdt.spec fuel) (fun _ _ _ _ _ h => h) present_int_flags fuel).imp
    (fun _ _ hempty i hi hp => absurd hp (hempty i hi))

theorem steady_empty : Steady W dirs Empty := by
  intro s s' a hb ha hempty i hi
  rw [(hb.outside a ha.table ha.outside).1]
  exact hempty i hi

end salsola.mmu
