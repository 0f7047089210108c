-- The kernel in runs: requests to the page tables and calls of the heap, in any order. The bytes
-- of the heap are those that the CPU finds in the frames. The heap stays laid out, on pages that
-- all address spaces have and that no other page shares.
import Salsola.KernelHeap
import Salsola.MmuBytes

open memory blocks outcome runs

namespace salsola.kernel

open mmu (Mmu Boot Spaces Request Spaced Holds window WINDOW turns load place page_entry InDevice)
open heap (Region)

/-! ## The machine -/

/-- The page tables with the frames, and the variables of kmalloc.c. `live` is as in a run of the
heap. -/
structure Kernel where
  spaces : Spaces
  head : Nat
  final : Nat
  total_heap_size : Nat
  regions : List Region
  live : Nat → Option Nat

/-- The heap, in the memory that the CPU sees. -/
def Kernel.world (k : Kernel) : heap.World where
  now :=
    { mem := seen k.spaces.state
      head := k.head
      final := k.final
      total_heap_size := k.total_heap_size
      seed := k.spaces.state.seed
      regions := k.regions }
  live := k.live

inductive Event
  | request (request : Request)
  | kmalloc_init (fuel : Nat)
  | call (fuel : Nat) (call : heap.Call)

/-- What the heap asks when it is called now. -/
def Kernel.sbrk (k : Kernel) (fuel : Nat) : heap.Sbrk :=
  kernel.sbrk fuel k.spaces.state k.regions

/-- The heap has gone on to `world`, and the page tables to where the `ksbrk` for the new regions
leaves them. The bytes of the heap go to the frames, those that `ksbrk` has filled in with them. -/
def Kernel.after (k : Kernel) (fuel : Nat) (world : heap.World) : Result Kernel :=
  match replay fuel k.spaces.state (newer k.regions world.now.regions) with
  | none => .error .ksbrk
  | some state => do
    let state ← put world.now.mem state (addresses world.now.regions)
    .ok
      { spaces := { k.spaces with state := { state with seed := world.now.seed } }
        head := world.now.head
        final := world.now.final
        total_heap_size := world.now.total_heap_size
        regions := world.now.regions
        live := world.live }

def Kernel.step (k : Kernel) : Event → Result Kernel
  | .request request => do
    let spaces ← k.spaces.step request
    .ok { k with spaces }
  | .kmalloc_init fuel => do
    let (ok, now) ← heap.kmalloc_init (k.sbrk fuel) k.world.now
    assert ok
    k.after fuel { k.world with now }
  | .call fuel call => do
    let world ← k.world.step (k.sbrk fuel) call
    k.after fuel world

/-- What runs in between stores nothing in the regions of the heap. The heap is called as its
clients may call it, and their stores to their blocks are calls of it. `kmalloc_init` is called
before all of them. -/
def Kernel.allowed (k : Kernel) : Event → Prop
  | .request request => k.spaces.allowed request ∧ ∀ ram, request = .store ram →
    ∀ a ∈ addresses k.regions, seen { k.spaces.state with ram } a = seen k.spaces.state a
  | .kmalloc_init _ => heap.Unused k.world.now ∧ ∀ p, k.world.live p = none
  | .call _ call => k.world.Allows call

def Kernel.starts (boot : Boot) (k : Kernel) : Prop :=
  Spaces.starts boot k.spaces ∧ heap.Unused k.world.now ∧ ∀ p, k.world.live p = none

/-- The kernels that events reach from `mmu_init`, and a heap that nobody has called. -/
abbrev Kernel.Reachable (boot : Boot) : Kernel → Prop :=
  Reach (Kernel.starts boot) Kernel.allowed Kernel.step

/-! ## The invariant -/

variable {k k' : Kernel} {boot : Boot} {event : Event} {world : heap.World} {arenas : List Arena}
variable {fuel d d' e f a b x : Nat} {s : Mmu} {halt : Halt}

structure Kernel.Good (boot : Boot) (k : Kernel) : Prop where
  spaced : Spaced boot.W k.spaces.dirs k.spaces.live boot.released k.spaces.state
  grounds : Grounds boot.W k.spaces.live k.spaces.state k.regions
  laid : k.world.Good

theorem released_lt (h : boot.released f) : f < mmu.NUM_OF_FRAMES * 64 := by
  rcases h with h | h
  · exact Nat.lt_of_lt_of_le h (by decide)
  · exact h.1

theorem Kernel.Good.fresh (h : k.Good boot) (fuel : Nat) : heap.Fresh (k.sbrk fuel) :=
  sbrk_fresh h.grounds h.spaced (fun _ hf => released_lt hf)

/-- The kernel `k'` has followed the heap to `world`, whose bytes the CPU finds. -/
structure Followed (k : Kernel) (fuel : Nat) (world : heap.World) (k' : Kernel) : Prop where
  spaces : ∃ state ram,
    replay fuel k.spaces.state (newer k.regions world.now.regions) = some state ∧
    k'.spaces = { k.spaces with state := { state with ram, seed := world.now.seed } }
  head : k'.head = world.now.head
  final : k'.final = world.now.final
  regions : k'.regions = world.now.regions
  live : k'.live = world.live
  mem : ∀ r ∈ world.now.regions, Agree world.now.mem k'.world.now.mem r.1 (r.1 + r.2)

theorem Kernel.Good.after (h : k.Good boot) (hw : world.Good)
    (hasked : heap.Asked (k.sbrk fuel) k.regions world.now.regions) :
    ∃ k', k.after fuel world = .ok k' ∧ k'.Good boot ∧ Followed k fuel world k' := by
  obtain ⟨news, state, heq, hreplay⟩ := replays_of_asked hasked
  obtain ⟨hspaced, hgrounds, -⟩ := h.grounds.replay h.spaced hreplay
  rw [← heq] at hgrounds
  have hnewer : newer k.regions world.now.regions = news := by
    rw [heq]
    exact newer_append news _
  obtain ⟨ram, hput, hload⟩ := put.spec hspaced world.now.mem (fun a => hgrounds.page_of_address)
  obtain ⟨k', hk'⟩ : ∃ k' : Kernel, k' =
      { spaces := { k.spaces with state := { state with ram, seed := world.now.seed } }
        head := world.now.head
        final := world.now.final
        total_heap_size := world.now.total_heap_size
        regions := world.now.regions
        live := world.live } := ⟨_, rfl⟩
  have hafter : k.after fuel world = .ok k' := by
    unfold Kernel.after
    rw [hnewer, hreplay]
    dsimp only
    rw [hput, ok_bind, hk']
  have hfollowed : Followed k fuel world k' := by
    rw [hk']
    refine ⟨⟨state, ram, hnewer ▸ hreplay, rfl⟩, rfl, rfl, rfl, rfl, fun r hr a h1 h2 => ?_⟩
    change seen { state with ram } a = _
    unfold seen
    rw [hload a (mem_addresses.mpr ⟨r, hr, h1, h2⟩)]
    rfl
  refine ⟨k', hafter, ⟨?_, ?_, ?_⟩, hfollowed⟩
  · rw [hk']
    exact hspaced.bytes ram _
  · rw [hk']
    exact hgrounds.bytes ram _
  · exact hw.congr hfollowed.mem hfollowed.head hfollowed.final hfollowed.regions hfollowed.live

theorem Followed.keeps (hf : Followed k fuel world k') (h : k.Good boot) :
    k'.spaces.dirs = k.spaces.dirs ∧
      k'.spaces.state.directories = k.spaces.state.directories ∧
      k'.spaces.state.active_directory = k.spaces.state.active_directory := by
  obtain ⟨state, ram, hreplay, hspaces⟩ := hf.spaces
  obtain ⟨-, -, hdirs, hactive⟩ := h.grounds.replay h.spaced hreplay
  rw [hspaces]
  exact ⟨rfl, hdirs, hactive⟩

/-- A request leaves the bytes of the heap. -/
theorem Kernel.Good.request_seen {spaces : Spaces} {request : Request} (h : k.Good boot)
    (hall : k.allowed (.request request)) (hstep : k.spaces.step request = .ok spaces)
    (ha : a ∈ addresses k.regions) : seen spaces.state a = seen k.spaces.state a := by
  obtain ⟨x, hx, hax⟩ := h.grounds.page_of_address ha
  by_cases hstore : ∃ ram, request = .store ram
  · obtain ⟨ram, rfl⟩ := hstore
    cases hstep
    exact hall.2 ram rfl a ha
  · have hno : ∀ ram, request ≠ .store ram := fun ram heq => hstore ⟨ram, heq⟩
    have hspaced := (Spaces.step_spaced h.spaced hall.1 hstep).1
    unfold seen
    rw [Spaces.step_load h.spaced hall.1 hstep hno hx hax h.spaced.sound.active
      hspaced.sound.active]

/-- A request leaves the pages of the heap. -/
theorem Kernel.Good.request {spaces : Spaces} {request : Request} (h : k.Good boot)
    (hall : k.allowed (.request request)) (hstep : k.spaces.step request = .ok spaces) :
    Kernel.Good boot { k with spaces } where
  spaced := (Spaces.step_spaced h.spaced hall.1 hstep).1
  grounds :=
    { starts := h.grounds.starts
      holds := fun x hx => (Spaces.step_holds h.spaced hall.1 hstep (h.grounds.holds x hx)).1
      nodup := h.grounds.nodup }
  laid := h.laid.congr (fun r hr _ h1 h2 =>
    h.request_seen hall hstep (mem_addresses.mpr ⟨r, hr, h1, h2⟩)) rfl rfl rfl rfl

/-- `kmalloc_init` finds no heap, and leaves one. -/
theorem Kernel.Good.kmalloc_init {ok : Bool} {now : heap.Heap} (h : k.Good boot)
    (hall : k.allowed (.kmalloc_init fuel))
    (hcall : heap.kmalloc_init (k.sbrk fuel) k.world.now = .ok (ok, now)) :
    ∃ k', k.step (.kmalloc_init fuel) = .ok k' ∧ k'.Good boot ∧
      Followed k fuel { k.world with now } k' := by
  obtain ⟨hunused, hlive⟩ := hall
  obtain ⟨rfl, -⟩ :=
    spec_of_ok (heap.kmalloc_init.spec (h.fresh fuel) (heap.good_unused hunused)) hcall
  have hstart : heap.Starts (k.sbrk fuel) { k.world with now } :=
    ⟨hlive, Or.inr ⟨_, hunused, hcall⟩⟩
  obtain ⟨k', hafter, hgood, hfollowed⟩ := h.after (heap.good_start (h.fresh fuel) hstart).1
    ((heap.kmalloc_init_asks (k.sbrk fuel) k.world.now).of_ok hcall)
  refine ⟨k', ?_, hgood, hfollowed⟩
  unfold Kernel.step
  dsimp only
  rw [hcall, ok_bind]
  dsimp only
  rw [assert_of rfl, ok_bind]
  exact hafter

theorem Kernel.Good.call {call : heap.Call} (h : k.Good boot) (hall : k.allowed (.call fuel call))
    (hcall : k.world.step (k.sbrk fuel) call = .ok world) :
    ∃ k', k.step (.call fuel call) = .ok k' ∧ k'.Good boot ∧ Followed k fuel world k' := by
  obtain ⟨k', hafter, hgood, hfollowed⟩ := h.after
    (spec_of_ok (heap.step.spec (h.fresh fuel) h.laid hall) hcall).good
    ((heap.World.step_asks (k.sbrk fuel) k.world call).of_ok hcall)
  refine ⟨k', ?_, hgood, hfollowed⟩
  unfold Kernel.step
  dsimp only
  rw [hcall, ok_bind]
  exact hafter

/-- What an event does, if it is no request: it returns, or it waits for `ksbrk`. -/
theorem Kernel.step.spec (h : k.Good boot) (hall : k.allowed event)
    (hno : ∀ request, event ≠ .request request) :
    Spec (k.step event) (· = .ksbrk) (fun k' => k'.Good boot) := by
  cases event with
  | request request => exact absurd rfl (hno request)
  | kmalloc_init fuel =>
    cases hcall : heap.kmalloc_init (k.sbrk fuel) k.world.now with
    | error e =>
      have hinit := heap.kmalloc_init.spec (h.fresh fuel) (heap.good_unused hall.1)
      rw [hcall] at hinit
      unfold Kernel.step
      dsimp only
      rw [hcall]
      exact hinit
    | ok r =>
      obtain ⟨k', hstep, hgood, -⟩ := h.kmalloc_init hall hcall
      rw [hstep]
      exact hgood
  | call fuel call =>
    cases hcall : k.world.step (k.sbrk fuel) call with
    | error e =>
      have hspec := heap.step.spec (h.fresh fuel) h.laid hall
      rw [hcall] at hspec
      unfold Kernel.step
      dsimp only
      rw [hcall]
      exact hspec
    | ok world =>
      obtain ⟨k', hstep, hgood, -⟩ := h.call hall hcall
      rw [hstep]
      exact hgood

theorem Kernel.Good.step (h : k.Good boot) (hall : k.allowed event)
    (hstep : k.step event = .ok k') : k'.Good boot := by
  cases event with
  | request request =>
    obtain ⟨spaces, h1, h2⟩ := bind_eq_ok.mp hstep
    cases h2
    exact h.request hall h1
  | kmalloc_init fuel => exact spec_of_ok (Kernel.step.spec h hall (by simp)) hstep
  | call fuel call => exact spec_of_ok (Kernel.step.spec h hall (by simp)) hstep

theorem Kernel.starts.good (h : Kernel.starts boot k) : k.Good boot := by
  obtain ⟨hspaces, hunused, hlive⟩ := h
  have hgrounds : Grounds boot.W k.spaces.live k.spaces.state k.regions := by
    rw [show k.regions = [] from hunused.2.2]
    exact ⟨by simp, by simp [pages], List.nodup_nil⟩
  have hspaced := hspaces.spaced.1
  have hfresh : heap.Fresh (k.sbrk 0) := sbrk_fresh hgrounds hspaced (fun _ hf => released_lt hf)
  exact ⟨hspaced, hgrounds, (heap.good_start hfresh ⟨hlive, Or.inl hunused⟩).1⟩

theorem Kernel.Reachable.good (hk : Kernel.Reachable boot k) : k.Good boot :=
  hk.invariant (Kernel.Good boot) (fun _ hs => hs.good)
    (fun _ _ _ h hall hstep => h.step hall hstep)

/-! ## What stays -/

/-- An event keeps the directories, and the blocks that it is not called for. -/
theorem Kernel.Good.step_keeps (h : k.Good boot) (hall : k.allowed event)
    (hstep : k.step event = .ok k') :
    (∀ d ∈ k.spaces.dirs, d ∈ k'.spaces.dirs ∧
      k'.spaces.state.directories d = k.spaces.state.directories d) ∧
    ((∀ d, event ≠ .request (.set d)) →
      k'.spaces.state.active_directory = k.spaces.state.active_directory) ∧
    ∀ p n, k.world.live p = some n → (∀ fuel c, event = .call fuel c → p ≠ c.arg) →
      k'.world.live p = some n := by
  cases event with
  | request request =>
    obtain ⟨spaces, h1, h2⟩ := bind_eq_ok.mp hstep
    cases h2
    obtain ⟨hdirs, hactive⟩ := Spaces.step_directories h.spaced hall.1 h1
    exact ⟨hdirs, fun hno => hactive (fun d heq => hno d (heq ▸ rfl)), fun p n hp _ => hp⟩
  | kmalloc_init fuel =>
    obtain ⟨⟨ok, now⟩, h1, -⟩ := bind_eq_ok.mp hstep
    obtain ⟨k1, hstep1, -, hfollowed⟩ := h.kmalloc_init hall h1
    obtain rfl := Except.ok.inj (hstep1.symm.trans hstep)
    obtain ⟨hdirs, hsame, hactive⟩ := hfollowed.keeps h
    refine ⟨fun d hd => ⟨hdirs ▸ hd, congrFun hsame d⟩, fun _ => hactive, fun p n hp _ => ?_⟩
    rw [hall.2 p] at hp
    cases hp
  | call fuel call =>
    obtain ⟨world, h1, -⟩ := bind_eq_ok.mp hstep
    obtain ⟨k1, hstep1, -, hfollowed⟩ := h.call hall h1
    obtain rfl := Except.ok.inj (hstep1.symm.trans hstep)
    obtain ⟨hdirs, hsame, hactive⟩ := hfollowed.keeps h
    refine ⟨fun d hd => ⟨hdirs ▸ hd, congrFun hsame d⟩, fun _ => hactive, fun p n hp hne => ?_⟩
    change k1.live p = some n
    rw [hfollowed.live]
    by_cases hstore : ∃ x v, call = .store x v
    · obtain ⟨x, v, rfl⟩ := hstore
      cases h1
      exact hp
    · have hstepped := spec_of_ok (heap.step.spec (h.fresh fuel) h.laid hall) h1
      exact (hstepped.kept (fun x v heq => hstore ⟨x, v, heq⟩) p n hp (hne fuel call rfl)).1

/-- The heap has asked for one region. -/
theorem Followed.one {length p : Nat} (hf : Followed k fuel world k')
    (hcall : mmu.ksbrk fuel k.spaces.state length = .ok (p, s)) (hlen : 0 < length)
    (hregs : world.now.regions = (p, length) :: k.regions) :
    ∃ ram seed, k'.spaces = { k.spaces with state := s.bytes ram seed } := by
  obtain ⟨state, ram, hreplay, hspaces⟩ := hf.spaces
  have hnewer : newer k.regions world.now.regions = [(p, length)] := by
    rw [hregs]
    exact newer_append [(p, length)] _
  rw [hnewer, replay_one hcall hlen] at hreplay
  obtain rfl := Option.some.inj hreplay
  exact ⟨ram, _, hspaces⟩

/-- The heap has asked for nothing. -/
theorem Followed.none (hf : Followed k fuel world k') (hregs : world.now.regions = k.regions) :
    ∃ ram seed, k'.spaces = { k.spaces with state := k.spaces.state.bytes ram seed } := by
  obtain ⟨state, ram, hreplay, hspaces⟩ := hf.spaces
  have hnewer : newer k.regions world.now.regions = [] := by
    rw [hregs]
    exact newer_append [] _
  rw [hnewer] at hreplay
  obtain rfl := Option.some.inj hreplay
  exact ⟨ram, _, hspaces⟩

/-! ## A roomy machine -/

/-- The small machine with 160 frames more. -/
def roomy_boot : Boot :=
  { mmu.small_boot with entries := [{ addr := 0x200000, len := 0xC0000, type := 1, zero := 0 }] }

def roomy_frames : mmu.Frames :=
  mmu.release_frames (fun _ => BitVec.allOnes 64) 0x2C0000 0x200000 0x4001

theorem roomy_frames_released :
    mmu.release_entries (fun _ => BitVec.allOnes 64) roomy_boot.entries = .ok roomy_frames := by
  unfold roomy_boot mmu.release_entries
  rw [if_neg (by decide), assert_of rfl]
  rfl

theorem roomy_frames_low : ∀ i : Fin 8, roomy_frames i.val = BitVec.allOnes 64 := by
  decide +kernel

/-- What the roomy machine comes to `ksbrk` with. -/
def roomy_before : Mmu := { roomy_boot.before_ksbrk roomy_frames with frames := roomy_frames }

/-- Behind `mmu_init`, the region of `kmalloc_init`, and a clone. -/
def roomy_calls : Result Bool := do
  let (_, _, s) ← mmu.ksbrk_physical 24 roomy_before 0
  let (_, s) ← mmu.ksbrk 24 s heap.NEW_ALLOC_SIZE
  let _ ← mmu.mmu_clone_directory 24 s roomy_boot.orig_active_directory
  .ok true

set_option maxRecDepth 100000 in
theorem roomy_calls_return :
    (match roomy_calls with | .ok done => done | .error _ => false) = true := by
  decide +kernel

theorem roomy_boot_calls : ∃ s rc s', mmu.mmu_init 24 roomy_boot = .ok s ∧
    mmu.ksbrk 24 s heap.NEW_ALLOC_SIZE = .ok (rc, s') ∧
    ∃ d cloned, mmu.mmu_clone_directory 24 s' roomy_boot.orig_active_directory =
      .ok (d, cloned) := by
  have hreturn := roomy_calls_return
  cases hcalls : roomy_calls with
  | error e =>
    rw [hcalls] at hreturn
    cases hreturn
  | ok done =>
    unfold roomy_calls at hcalls
    obtain ⟨⟨_, _, s⟩, h1, hcalls⟩ := bind_eq_ok.mp hcalls
    obtain ⟨⟨rc, s'⟩, h2, hcalls⟩ := bind_eq_ok.mp hcalls
    obtain ⟨⟨d, cloned⟩, h3, -⟩ := bind_eq_ok.mp hcalls
    refine ⟨s, rc, s', ?_, h2, d, cloned, h3⟩
    rw [mmu.mmu_init_before 24 roomy_frames_released (fun i hi => roomy_frames_low ⟨i, hi⟩)]
    show (mmu.ksbrk_physical 24 roomy_before 0 >>= _) = _
    rw [h1]
    rfl

/-- The kernel behind its `mmu_init`. -/
def Kernel.init (boot : Boot) (s : Mmu) : Kernel where
  spaces := Spaces.init boot s
  head := 0
  final := 0
  total_heap_size := 0
  regions := []
  live := fun _ => none

theorem init_starts (hinit : mmu.mmu_init fuel boot = .ok s) :
    Kernel.starts boot (Kernel.init boot s) :=
  ⟨⟨⟨fuel, hinit⟩, rfl, fun _ => id⟩, ⟨rfl, rfl, rfl⟩, fun _ => rfl⟩

/-- `kmalloc_init` behind `mmu_init`, when `ksbrk` returns. -/
theorem first_region {rc : Nat} {s' : Mmu} (hinit : mmu.mmu_init fuel boot = .ok s)
    (hcall : mmu.ksbrk fuel s heap.NEW_ALLOC_SIZE = .ok (rc, s')) :
    ∃ k, (Kernel.init boot s).step (.kmalloc_init fuel) = .ok k ∧ Kernel.Reachable boot k ∧
      (∃ ram seed, k.spaces = { Spaces.init boot s with state := s'.bytes ram seed }) ∧
      heap.Good k.world.now [(rc, rc + heap.NEW_ALLOC_SIZE)]
        [heap.whole rc heap.NEW_ALLOC_SIZE 0] := by
  have hgood := (init_starts hinit).good
  have hallowed : (Kernel.init boot s).allowed (.kmalloc_init fuel) :=
    ⟨⟨rfl, rfl, rfl⟩, fun _ => rfl⟩
  have hasks : (Kernel.init boot s).sbrk fuel [] heap.NEW_ALLOC_SIZE = some rc := by
    unfold Kernel.sbrk sbrk
    rw [if_pos ⟨rfl, by decide⟩, show newer _ [] = [] from rfl]
    unfold replay
    dsimp only
    rw [show (Kernel.init boot s).spaces.state = s from rfl, hcall]
  have hanswer : ((Kernel.init boot s).sbrk fuel (Kernel.init boot s).world.now.regions
      heap.NEW_ALLOC_SIZE).isSome = true := Option.isSome_iff_exists.mpr ⟨rc, hasks⟩
  obtain ⟨⟨ok, now⟩, hr⟩ := heap.kmalloc_init_returns hanswer
  obtain ⟨rfl, p, hp, hregs, -, hg⟩ :=
    spec_of_ok (heap.kmalloc_init.spec (hgood.fresh fuel) (heap.good_unused hallowed.1)) hr
  obtain rfl : rc = p := Option.some.inj (hasks.symm.trans hp)
  obtain ⟨k, hstep, -, hfollowed⟩ := hgood.kmalloc_init hallowed hr
  exact ⟨k, hstep, .next (.start (init_starts hinit)) hallowed hstep,
    hfollowed.one hcall (by decide) hregs,
    hg.congr hfollowed.mem hfollowed.head hfollowed.final hfollowed.regions⟩

/-! ## The memory of the heap -/

/-- An address of an arena lies in a page of the heap. -/
theorem Kernel.Good.page_of (h : k.Good boot) (hl : heap.LaidOut k.world arenas) {r : Arena}
    (hr : r ∈ arenas) (h1 : r.1 ≤ a) (h2 : a < r.2) :
    ∃ x, Holds boot.W k.spaces.live k.spaces.state x ∧ a / 0x1000 * 0x1000 = window x := by
  obtain ⟨q, hq, h3, h4⟩ := hl.built.covered r hr a h1 h2
  obtain ⟨x, hx, ha⟩ := h.grounds.page_of hq h3 h4
  exact ⟨x, h.grounds.holds x (mem_pages.mpr ⟨q, hq, hx⟩), ha⟩

/-- In every run of requests to the page tables and calls of the heap, the heap is laid out in its
arenas, in the bytes that the CPU finds in the frames. Each address of an arena has one page, and
the CPU finds its byte in one place, in all address spaces. No other page has its frame but those
that `mmu_map_frames` has mapped, as the pointers of the tables lead. A call of the heap that does
not return waits for `ksbrk`. -/
theorem the_heap_lies_on_frames_of_its_own (boot : Boot) (k : Kernel)
    (hk : Kernel.Reachable boot k) :
    (∃ arenas, heap.LaidOut k.world arenas ∧
      ∀ r ∈ arenas, ∀ a, r.1 ≤ a → a < r.2 → ∃ e,
        (∀ d ∈ k.spaces.dirs, page_entry k.spaces.state d a = some e ∧
          place k.spaces.state d a = some (mmu.page_base e + a % 0x1000)) ∧
        ∀ d ∈ k.spaces.dirs, ∀ b e', ¬ InDevice k.spaces.live b →
          page_entry k.spaces.state d b = some e' → e' / 0x1000 = e / 0x1000 →
          b % 2 ^ 48 / 0x1000 = a % 2 ^ 48 / 0x1000) ∧
    ∀ event halt, k.allowed event → (∀ request, event ≠ .request request) →
      k.step event = .error halt → halt = .ksbrk := by
  have hgood := hk.good
  refine ⟨?_, fun event halt hall hno herr => ?_⟩
  · obtain ⟨arenas, hlaid⟩ := hgood.laid.laid_out
    refine ⟨arenas, hlaid, fun r hr a h1 h2 => ?_⟩
    obtain ⟨x, hx, hax⟩ := hgood.page_of hlaid hr h1 h2
    refine ⟨mmu.page k.spaces.state boot.W x, fun d hd => ?_, fun d hd b e' hnb hb hsame => ?_⟩
    · exact ⟨hx.page_entry hgood.spaced.sound hd hax, hx.place hgood.spaced hd hax⟩
    · exact (hgood.spaced.page_unique hd hd hnb (hx.not_in_device hgood.spaced hax) hb
        (hx.page_entry hgood.spaced.sound hd hax) hsame).1
  · have hspec := Kernel.step.spec hgood hall hno
    rw [herr] at hspec
    exact hspec

/-- The heap of the roomy machine, behind its `kmalloc_init`. -/
theorem the_heap_lies_on_frames_of_its_own_at_the_start : ∃ s k,
    mmu.mmu_init 24 roomy_boot = .ok s ∧
    (Kernel.init roomy_boot s).step (.kmalloc_init 24) = .ok k ∧
    ∃ arenas, heap.LaidOut k.world arenas ∧ ∀ r ∈ arenas, ∀ a, r.1 ≤ a → a < r.2 →
      ∃ p, ∀ d ∈ k.spaces.dirs, place k.spaces.state d a = some p := by
  obtain ⟨s, rc, s', hinit, hksbrk, -⟩ := roomy_boot_calls
  obtain ⟨k, hstep, hreach, -⟩ := first_region hinit hksbrk
  obtain ⟨⟨arenas, hlaid, hpages⟩, -⟩ := the_heap_lies_on_frames_of_its_own roomy_boot k hreach
  refine ⟨s, k, hinit, hstep, arenas, hlaid, fun r hr a h1 h2 => ?_⟩
  obtain ⟨e, he, -⟩ := hpages r hr a h1 h2
  exact ⟨_, fun d hd => (he d hd).2⟩

/-- Requests to the page tables, without the stores of what runs in between. -/
def Quietly (w : Spaces) (request : Request) : Prop :=
  w.allowed request ∧ ∀ ram, request ≠ .store ram

/-- No run of requests to the page tables changes a byte of the heap, in any address space that
there was before or that there is then. -/
theorem requests_leave_the_heap_alone (boot : Boot) (k : Kernel) (hk : Kernel.Reachable boot k)
    (arenas : List Arena) (hl : heap.LaidOut k.world arenas) (w : Spaces)
    (hw : Reach (· = k.spaces) Quietly Spaces.step w) :
    ∀ r ∈ arenas, ∀ a, r.1 ≤ a → a < r.2 → ∀ d ∈ k.spaces.dirs, ∀ d' ∈ w.dirs,
      (load w.state d' a).isSome = true ∧ load w.state d' a = load k.spaces.state d a := by
  intro r hr a h1 h2 d hd
  have hgood := hk.good
  obtain ⟨x, hx, hax⟩ := hgood.page_of hl hr h1 h2
  have hinv : Spaced boot.W w.dirs w.live boot.released w.state ∧
      Holds boot.W w.live w.state x ∧ ∀ d' ∈ w.dirs,
        load w.state d' a = load k.spaces.state d a := by
    refine hw.invariant (fun w => Spaced boot.W w.dirs w.live boot.released w.state ∧
      Holds boot.W w.live w.state x ∧ ∀ d' ∈ w.dirs,
        load w.state d' a = load k.spaces.state d a) ?_ ?_
    · rintro _ rfl
      refine ⟨hgood.spaced, hx, fun d' hd' => ?_⟩
      rw [hx.load hgood.spaced hd' hax, hx.load hgood.spaced hd hax]
    · rintro w request w' ⟨hspaced, hholds, hsame⟩ ⟨hall, hno⟩ hstep
      refine ⟨(Spaces.step_spaced hspaced hall hstep).1,
        (Spaces.step_holds hspaced hall hstep hholds).1, fun d' hd' => ?_⟩
      have hactive := hspaced.sound.active
      rw [Spaces.step_load hspaced hall hstep hno hholds hax hactive hd']
      exact hsame _ hactive
  obtain ⟨hspaced, hholds, hsame⟩ := hinv
  intro d' hd'
  refine ⟨?_, hsame d' hd'⟩
  rw [hholds.load hspaced hd' hax]
  rfl

/-- Behind `kmalloc_init` the directory is cloned. -/
theorem requests_leave_the_heap_alone_behind_a_clone : ∃ s k w arenas,
    mmu.mmu_init 24 roomy_boot = .ok s ∧
    (Kernel.init roomy_boot s).step (.kmalloc_init 24) = .ok k ∧
    k.spaces.step (.clone 24 roomy_boot.orig_active_directory) = .ok w ∧
    heap.LaidOut k.world arenas ∧ arenas ≠ [] ∧
    ∀ r ∈ arenas, ∀ a, r.1 ≤ a → a < r.2 → ∀ d ∈ k.spaces.dirs,
      ∀ d' ∈ w.dirs, (load w.state d' a).isSome = true ∧
        load w.state d' a = load k.spaces.state d a := by
  obtain ⟨s, rc, s', hinit, hksbrk, d, cloned, hclone⟩ := roomy_boot_calls
  obtain ⟨k, hstep, hreach, ⟨ram, seed, hspaces⟩, hg⟩ := first_region hinit hksbrk
  obtain ⟨arenas, hlaid⟩ := hreach.good.laid.laid_out
  -- the bytes of the heap are no matter for the clone
  obtain ⟨⟨_, t⟩, hclone', -⟩ :=
    mmu.clone_directory_mirrors ⟨ram, seed, rfl⟩ 24 roomy_boot.orig_active_directory _ hclone
  have hstate : k.spaces.state = s'.bytes ram seed := by rw [hspaces]
  rw [← hstate] at hclone'
  have hquiet : Quietly k.spaces (.clone 24 roomy_boot.orig_active_directory) := by
    refine ⟨?_, by simp⟩
    rw [hspaces]
    exact List.mem_singleton_self _
  have hnone : ∀ {rs : List Region} {arenas : List Arena}, heap.Built rs arenas →
      (rs = [] ↔ arenas = []) := by
    intro rs arenas hbuilt
    cases hbuilt <;> simp
  have harenas : arenas ≠ [] := fun hnil =>
    absurd ((hnone hg.built).mp ((hnone hlaid.built).mpr hnil)) (List.cons_ne_nil _ _)
  exact ⟨s, k, _, arenas, hinit, hstep, Spaces.step_clone hclone', hlaid, harenas,
    requests_leave_the_heap_alone roomy_boot k hreach arenas hlaid _
      (.next (.start rfl) hquiet (Spaces.step_clone hclone'))⟩

end salsola.kernel
