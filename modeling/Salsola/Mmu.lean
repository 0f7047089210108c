-- The page tables of amd64, as mmu.c computes them. A table is kept by its
-- pointer, the virtual address that the kernel uses for it, and `placed` says
-- which table lies in a frame. The functions call one another in a circle, so
-- `allocate_pt` counts the depth of the circle with `fuel`, and the functions
-- on the circle take `allocate_pt` as an argument.
import Salsola.Frames
import Salsola.StringC
import Salsola.Prng

open memory

namespace salsola.mmu

/-! ## The data -/

def PAGE_FLAG_PRESENT : Nat := 1 <<< 0

/-- The lowest address of the top-level slot 511, which all directories share. -/
def KERNEL_VMA : Nat := 0xFFFFFF8000000000

/-- A PML4T, a PDPT or a PDT: `physical`, and the array of pointers (`pdpt`, `pdt` or `pt`). -/
structure Table where
  physical : Nat → Nat
  next : Nat → Nat

/-- The array `page` of a PT. -/
abbrev PT := Nat → Nat

/-- A `struct mmu_directory`. -/
structure Directory where
  pml4t : Nat
  physical : Nat

/-- What mmu.c works on. Memory that holds no table reads as an empty table. -/
structure Mmu where
  /-- The PML4T, the PDPT or the PDT at a pointer. -/
  tables : Nat → Table
  /-- The PT at a pointer. -/
  pts : Nat → PT
  /-- The pointer to the table at a physical address, if a table lies there. -/
  placed : Nat → Option Nat
  /-- The directory at a pointer. -/
  directories : Nat → Directory
  active_directory : Nat
  heap_end : Nat
  frames : Frames
  /-- The bytes of the frames that hold no table, by physical address. -/
  ram : Mem
  seed : Seed

/-- `entry & PAGE_FLAG_PRESENT` -/
def present (entry : Nat) : Prop := entry &&& PAGE_FLAG_PRESENT ≠ 0

instance (entry : Nat) : Decidable (present entry) := by unfold present; infer_instance

/-- `entry & ~0xFFF` -/
def page_base (entry : Nat) : Nat := entry / 0x1000 * 0x1000

def align_up (address alignment : Nat) : Nat :=
  if 0 = address % alignment then address else address - address % alignment + alignment

/-- The turns of a loop that goes from 0 up to `length` by `PAGE_SIZE`. -/
def turns (length : Nat) : Nat := (length + 0xFFF) / 0x1000

def SIZEOF_TABLE : Nat := 0x2000

def SIZEOF_PT : Nat := 0x1000

def SIZEOF_DIRECTORY : Nat := 16

def pml4t_index (address : Nat) : Nat := (address >>> 39) &&& 0x1FF

def pdpt_index (address : Nat) : Nat := (address >>> 30) &&& 0x1FF

def pdt_index (address : Nat) : Nat := (address >>> 21) &&& 0x1FF

def pt_index (address : Nat) : Nat := (address >>> 12) &&& 0x1FF

/-- `active_directory->pml4t` -/
def Mmu.pml4t (s : Mmu) : Nat := (s.directories s.active_directory).pml4t

/-- The PT of an address, by the pointers. -/
def Mmu.pt (s : Mmu) (address : Nat) : Nat :=
  let pdpt := (s.tables s.pml4t).next (pml4t_index address)
  let pdt := (s.tables pdpt).next (pdpt_index address)
  (s.tables pdt).next (pdt_index address)

/-! ## Writes -/

def Table.set (t : Table) (i physical next : Nat) : Table where
  physical := fun j => if j = i then physical else t.physical j
  next := fun j => if j = i then next else t.next j

/-- The two arrays of the table `a` take the entry `i`. -/
def Mmu.set_entry (s : Mmu) (a i physical next : Nat) : Mmu :=
  { s with tables := fun b => if b = a then (s.tables a).set i physical next else s.tables b }

/-- The PT `a` takes the page `i`. -/
def Mmu.set_page (s : Mmu) (a i page : Nat) : Mmu :=
  { s with pts := fun b => if b = a then (fun j => if j = i then page else s.pts a j) else s.pts b }

/-- `memset` of a new table, at the pointer `a` and the physical address `p`. -/
def Mmu.clear (s : Mmu) (a p : Nat) : Mmu :=
  { s with
    tables := fun b => if b = a then ⟨fun _ => 0, fun _ => 0⟩ else s.tables b
    pts := fun b => if b = a then fun _ => 0 else s.pts b
    placed := fun q => if q = p then some a else s.placed q }

/-! ## The circle of allocate_pt -/

/-- `allocate_pt(pml4t_index, pdpt_index, pdt_index)`, as the functions below call it. -/
abbrev AllocatePt := Mmu → Nat → Nat → Nat → Result (Bool × Mmu)

/-- The result, and what the call writes to `*physical`, if it writes. -/
def check_virtual_region_is_free (allocate_pt : AllocatePt) (s : Mmu) (address : Nat)
    (allocate use_frame : Bool) (frame : Nat) : Result (Bool × Option Nat × Mmu) := do
  let (_, s) ← allocate_pt s (pml4t_index address) (pdpt_index address) (pdt_index address)
  let p := s.pts (s.pt address) (pt_index address)
  if ¬ present p then
    if allocate then
      let (frame, frames) ← if use_frame then .ok (frame, s.frames) else get_frame s.frames true 1
      let s := { s with frames }.set_page (s.pt address) (pt_index address) (frame ||| 0x3)
      .ok (true, some (page_base (frame ||| 0x3)), s)
    else .ok (true, none, s)
  else .ok (false, some (page_base p), s)

/-- The inner loop of `mmu_find_free_virtual_region`, with `n` pages to go. -/
def region_is_free (allocate_pt : AllocatePt) (s : Mmu) (address : Nat) :
    Nat → Result (Bool × Mmu)
  | 0 => .ok (true, s)
  | n + 1 => do
    let (is_free, _, s) ← check_virtual_region_is_free allocate_pt s address false false 0
    if is_free then region_is_free allocate_pt s (address + PAGE_SIZE) n else .ok (false, s)

/-- The outer loop, which has no end of its own. -/
def find_from (allocate_pt : AllocatePt) (length : Nat) :
    Nat → Mmu → Nat → Result (Nat × Mmu)
  | 0, _, _ => .error .spin
  | fuel + 1, s, offset => do
    let (is_free, s) ← region_is_free allocate_pt s (s.heap_end + offset) (turns length)
    if is_free then .ok (s.heap_end + offset, s)
    else find_from allocate_pt length fuel s (offset + PAGE_SIZE)

def mmu_find_free_virtual_region (allocate_pt : AllocatePt) (fuel : Nat) (s : Mmu)
    (length : Nat) : Result (Nat × Mmu) :=
  find_from allocate_pt length fuel s 0

/-- The loops that map `n` pages from `ptr` on to the frames from `phys_ptr` on. -/
def map_pages (allocate_pt : AllocatePt) (s : Mmu) (ptr phys_ptr : Nat) : Nat → Result Mmu
  | 0 => .ok s
  | n + 1 => do
    let (was_free, _, s) ← check_virtual_region_is_free allocate_pt s ptr true true phys_ptr
    assert was_free
    map_pages allocate_pt s (ptr + PAGE_SIZE) (phys_ptr + PAGE_SIZE) n

/-- The pointer, and what the call writes to `*physical`. -/
def safe_allocation (allocate_pt : AllocatePt) (fuel : Nat) (s : Mmu) (length : Nat) :
    Result (Nat × Nat × Mmu) := do
  let (p, frames) ← get_frame s.frames true (align_up length PAGE_SIZE / PAGE_SIZE)
  let (a, s) ← mmu_find_free_virtual_region allocate_pt fuel { s with frames } length
  let s ← map_pages allocate_pt s a p (length / PAGE_SIZE)
  .ok (a, p, s.clear a p)

/-- What `allocate_pt` does for a PDPT, a PDT and a PT: the entry `i` of the table `a` gets
a new table, if it has none. An index past the end of the table faults. -/
def allocate_table (allocate_pt : AllocatePt) (fuel : Nat) (s : Mmu) (a i size : Nat) :
    Result Mmu := do
  if 512 ≤ i then .error .fault
  else if ¬ present ((s.tables a).physical i) then
    let (next, physical, s) ← safe_allocation allocate_pt fuel s size
    .ok (s.set_entry a i (physical ||| 0x3) next)
  else .ok s

/-- `allocate_next_pt` may pass the index 512 for `pdt_index`. -/
def allocate_pt : Nat → AllocatePt
  | 0, _, _, _, _ => .error .spin
  | fuel + 1, s, pml4t_index, pdpt_index, pdt_index => do
    let s ← allocate_table (allocate_pt fuel) fuel s s.pml4t pml4t_index SIZEOF_TABLE
    let pdpt := (s.tables s.pml4t).next pml4t_index
    let s ← allocate_table (allocate_pt fuel) fuel s pdpt pdpt_index SIZEOF_TABLE
    let pdt := (s.tables pdpt).next pdpt_index
    if 512 ≤ pdt_index then .error .fault
    else if present ((s.tables pdt).physical pdt_index) then .ok (false, s)
    else
      let s ← allocate_table (allocate_pt fuel) fuel s pdt pdt_index SIZEOF_PT
      .ok (true, s)

/-! ## The calls of the kernel -/

def allocate_next_pt (fuel : Nat) (s : Mmu) (address : Nat) : Result Mmu := do
  let (_, s) ← allocate_pt fuel s (pml4t_index address) (pdpt_index address) (pdt_index address)
  let (_, s) ← allocate_pt fuel s (pml4t_index address) (pdpt_index address)
    (pdt_index address + 1)
  .ok s

def mmu_map_frames (fuel : Nat) (s : Mmu) (src length : Nat) : Result (Nat × Mmu) := do
  let (virtual, s) ← mmu_find_free_virtual_region (allocate_pt fuel) fuel s length
  let s ← map_pages (allocate_pt fuel) s virtual src (turns length)
  .ok (virtual, s)

/-- The loop of `mmu_unmap_frames`. The pointer that `get_page` gives is the address of the
word of the PT. -/
def unmap_pages (s : Mmu) (p : Nat) : Nat → Result Mmu
  | 0 => .ok s
  | n + 1 => do
    assert (s.pt p + pt_index p * 8 ≠ 0)
    unmap_pages (s.set_page (s.pt p) (pt_index p) 0) (p + PAGE_SIZE) n

def mmu_unmap_frames (s : Mmu) (src length : Nat) : Result Mmu :=
  unmap_pages s src (turns length)

/-- `none` is the result `NULL` with `*exists` false. -/
def mmu_virtual_to_physical (s : Mmu) (address : Nat) : Option Nat :=
  let pml4t := s.tables s.pml4t
  let pdpt := s.tables (pml4t.next (pml4t_index address))
  let pdt := s.tables (pdpt.next (pdpt_index address))
  if ¬ present (pml4t.physical (pml4t_index address)) then none
  else if ¬ present (pdpt.physical (pdpt_index address)) then none
  else if ¬ present (pdt.physical (pdt_index address)) then none
  else if ¬ present (pml4t.physical (pml4t_index address)) then none
  else
    let p := s.pts (pdt.next (pdt_index address)) (pt_index address)
    if ¬ present p then none else some (page_base p ||| (address &&& 0xFFF))

/-- `prng_get_pseudorandom` on `n` pages of virtual memory, one page after the other. -/
def fill_pages (s : Mmu) (buffer : Nat) : Nat → Mmu
  | 0 => s
  | n + 1 =>
    let (ram, seed) :=
      prng_get_pseudorandom s.ram s.seed ((mmu_virtual_to_physical s buffer).getD 0) PAGE_SIZE
    fill_pages { s with ram, seed } (buffer + PAGE_SIZE) n

/-- The loop of `ksbrk_physical` over the pages, with the variable `r`. -/
def ksbrk_pages (allocate_pt : AllocatePt) (s : Mmu) (r : Nat) : Nat → Result (Nat × Mmu)
  | 0 => .ok (r, s)
  | n + 1 => do
    let (was_free, physical, s) ←
      check_virtual_region_is_free allocate_pt s s.heap_end true false 0
    assert was_free
    let r := if r = 0 then physical.getD 0 else r
    ksbrk_pages allocate_pt { s with heap_end := s.heap_end + 0x1000 } r n

/-- The result `rc`, and what the call writes to `*physical`. With the length 0 it is `NULL`,
and nothing is written. -/
def ksbrk_physical (fuel : Nat) (s : Mmu) (length : Nat) : Result (Nat × Nat × Mmu) := do
  let (heap_end, s) ← mmu_find_free_virtual_region (allocate_pt fuel) fuel s length
  let s ← allocate_next_pt fuel { s with heap_end } heap_end
  if 0 = length then .ok (0, 0, s)
  else
    let (heap_end, s) ← mmu_find_free_virtual_region (allocate_pt fuel) fuel s length
    let (r, s) ← ksbrk_pages (allocate_pt fuel) { s with heap_end } 0 (turns length)
    .ok (heap_end, r, fill_pages s heap_end (align_up length PAGE_SIZE / PAGE_SIZE))

def ksbrk (fuel : Nat) (s : Mmu) (length : Nat) : Result (Nat × Mmu) := do
  let (rc, _, s) ← ksbrk_physical fuel s length
  .ok (rc, s)

/-! ## Copies of a directory -/

/-- The `memcpy` goes through the two pages that are mapped for it. -/
def copy_frame (fuel : Nat) (s : Mmu) (physical_dst physical_src : Nat) : Result Mmu := do
  let (dst, s) ← mmu_map_frames fuel s physical_dst PAGE_SIZE
  let (src, s) ← mmu_map_frames fuel s physical_src PAGE_SIZE
  let to_dst := (mmu_virtual_to_physical s dst).getD 0
  let to_src := (mmu_virtual_to_physical s src).getD 0
  assert (page_base physical_dst = to_dst)
  assert (page_base physical_src = to_src)
  let s := { s with ram := memcpy s.ram to_dst to_src PAGE_SIZE }
  let s ← mmu_unmap_frames s dst PAGE_SIZE
  mmu_unmap_frames s src PAGE_SIZE

/-- The loop of `clone_pt` over the first `n` pages. -/
def clone_pages (fuel : Nat) (orig_pt new_pt : Nat) (s : Mmu) : Nat → Result Mmu
  | 0 => .ok s
  | i + 1 => do
    let s ← clone_pages fuel orig_pt new_pt s i
    let flags := s.pts orig_pt i &&& 0xFFF
    if ¬ present flags then .ok s
    else
      let (frame, frames) ← get_frame s.frames true 1
      let s := { s with frames }.set_page new_pt i (frame ||| flags)
      copy_frame fuel s (page_base (s.pts new_pt i)) (s.pts orig_pt i)

/-- What the clone functions return: `*new` and `*physical`. -/
abbrev Clone := Mmu → Nat → Result (Nat × Nat × Mmu)

def clone_pt (fuel : Nat) : Clone := fun s orig_pt => do
  let (new_pt, physical, s) ← safe_allocation (allocate_pt fuel) fuel s SIZEOF_PT
  let s ← clone_pages fuel orig_pt new_pt s 512
  .ok (new_pt, physical, s)

/-- The loops over the first `n` entries of a table: `clone` copies what a present entry
points to, and the new entry takes `flags` of the old one. -/
def clone_entries (clone : Clone) (flags : Nat → Nat) (orig new : Nat) (s : Mmu) :
    Nat → Result Mmu
  | 0 => .ok s
  | i + 1 => do
    let s ← clone_entries clone flags orig new s i
    let flags := flags ((s.tables orig).physical i)
    if ¬ present flags then .ok s
    else
      let (next, physical, s) ← clone s ((s.tables orig).next i)
      .ok (s.set_entry new i (physical ||| flags) next)

/-- `int flags = entry & 0xFFF` -/
def low_flags (entry : Nat) : Nat := entry &&& 0xFFF

/-- `int flags = entry`, as an `uintptr_t` -/
def int_flags (entry : Nat) : Nat := ((BitVec.ofNat 32 entry).signExtend 64).toNat

def clone_pdt (fuel : Nat) : Clone := fun s orig_pdt => do
  let (new_pdt, physical, s) ← safe_allocation (allocate_pt fuel) fuel s SIZEOF_TABLE
  let s ← clone_entries (clone_pt fuel) low_flags orig_pdt new_pdt s 512
  .ok (new_pdt, physical, s)

def clone_pdpt (fuel : Nat) : Clone := fun s orig_pdpt => do
  let (new_pdpt, physical, s) ← safe_allocation (allocate_pt fuel) fuel s SIZEOF_TABLE
  let s ← clone_entries (clone_pdt fuel) int_flags orig_pdpt new_pdpt s 512
  .ok (new_pdpt, physical, s)

def mmu_clone_directory (fuel : Nat) (s : Mmu) (directory : Nat) : Result (Nat × Mmu) := do
  let (new_mmu_directory, s) ← ksbrk fuel s SIZEOF_DIRECTORY
  let (pml4t, physical, s) ← safe_allocation (allocate_pt fuel) fuel s SIZEOF_TABLE
  let s := { s with directories := fun d =>
    if d = new_mmu_directory then { pml4t, physical } else s.directories d }
  let orig := (s.directories directory).pml4t
  let s ← clone_entries (clone_pdpt fuel) low_flags orig pml4t s 511
  .ok (new_mmu_directory,
    s.set_entry pml4t 511 ((s.tables orig).physical 511) ((s.tables orig).next 511))

def mmu_set_directory (s : Mmu) (directory : Nat) : Mmu := { s with active_directory := directory }

/-! ## The start -/

/-- An entry of the memory map of the boot loader. -/
structure MemoryMapEntry where
  addr : Nat
  len : Nat
  type : Nat
  zero : Nat

def MULTIBOOT_MEMORY_AVAILABLE : Nat := 1

/-- What `mmu_init` finds: the tables that boot.s leaves at the physical address `PML4T` and
behind it, and the end of the kernel. The kernel lies in the 511 pages that boot.s maps. -/
structure Boot where
  PML4T : Nat
  kernel_end : Nat
  orig_active_directory : Nat
  entries : List MemoryMapEntry
  ram : Mem
  seed : Seed
  aligned : PML4T % 0x1000 = 0
  mapped : PML4T + 0x7000 ≤ 511 * 0x1000
  kernel : kernel_end ≤ KERNEL_VMA + 511 * 0x1000
  directory : KERNEL_VMA ≤ orig_active_directory ∧ orig_active_directory < kernel_end

/-- The loop over one available entry. `p` is a `uint32_t`, and `set_frame` refuses every
address past the bitmap, so `todo` turns are enough. -/
def release_frames (frames : Frames) (limit p : Nat) : Nat → Frames
  | 0 => frames
  | todo + 1 =>
    if p < limit then
      let (rc, frames) := set_frame frames p false
      if ¬ rc then frames else release_frames frames limit ((p + 0x1000) % 2 ^ 32) todo
    else frames

def release_entries (frames : Frames) : List MemoryMapEntry → Result Frames
  | [] => .ok frames
  | entry :: entries => do
    if MULTIBOOT_MEMORY_AVAILABLE ≠ entry.type then release_entries frames entries
    else
      let frames := release_frames frames ((entry.addr + entry.len) % 2 ^ 64) (entry.addr % 2 ^ 32)
        0x4001
      assert (0 = entry.zero)
      release_entries frames entries

/-- The loops over the first `n` entries of a table that set the pointers: each frame that an
entry names is marked, if `mark` is set, and `child` goes on with the table below. -/
def init_entries (mark : Bool) (child : Mmu → Nat → Mmu) (a : Nat) (s : Mmu) : Nat → Mmu
  | 0 => s
  | i + 1 =>
    let s := init_entries mark child a s i
    let physical := (s.tables a).physical i
    let s := if mark then { s with frames := (set_frame s.frames (page_base physical) true).2 }
      else s
    let p := physical + KERNEL_VMA
    if ¬ present p then s
    else child (s.set_entry a i physical (page_base p)) (page_base p)

/-- The loop over the first `n` pages of a PT. -/
def init_pages (pt : Nat) (s : Mmu) : Nat → Mmu
  | 0 => s
  | k + 1 =>
    let s := init_pages pt s k
    { s with frames := (set_frame s.frames (page_base (s.pts pt k)) true).2 }

def init_pt (s : Mmu) (pt : Nat) : Mmu := init_pages pt s 512

def init_pdt (s : Mmu) (pdt : Nat) : Mmu := init_entries true init_pt pdt s 512

def init_pdpt (s : Mmu) (pdpt : Nat) : Mmu := init_entries true init_pdt pdpt s 512

def init_pml4t (s : Mmu) (pml4t : Nat) : Mmu := init_entries false init_pdpt pml4t s 512

/-- The tables of boot.s: the slots 0 and 511 share the PDPT, and the PT maps the first 511
frames to themselves. The pointer of a table is its physical address plus `KERNEL_VMA`. -/
def Boot.state (boot : Boot) : Mmu where
  tables := fun a =>
    if a = boot.PML4T + KERNEL_VMA then
      ⟨fun i => if i = 0 ∨ i = 511 then (boot.PML4T + 0x2000) ||| 0x3 else 0, fun _ => 0⟩
    else if a = boot.PML4T + 0x2000 + KERNEL_VMA then
      ⟨fun i => if i = 0 then (boot.PML4T + 0x4000) ||| 0x3 else 0, fun _ => 0⟩
    else if a = boot.PML4T + 0x4000 + KERNEL_VMA then
      ⟨fun i => if i = 0 then (boot.PML4T + 0x6000) ||| 0x3 else 0, fun _ => 0⟩
    else ⟨fun _ => 0, fun _ => 0⟩
  pts := fun a i =>
    if a = boot.PML4T + 0x6000 + KERNEL_VMA ∧ i < 511 then i * 0x1000 + 0x3 else 0
  placed := fun p =>
    if p = boot.PML4T ∨ p = boot.PML4T + 0x2000 ∨ p = boot.PML4T + 0x4000 ∨
      p = boot.PML4T + 0x6000 then some (p + KERNEL_VMA) else none
  directories := fun _ => { pml4t := boot.PML4T + KERNEL_VMA, physical := boot.PML4T }
  active_directory := boot.orig_active_directory
  heap_end := 0
  frames := fun _ => 0
  ram := boot.ram
  seed := boot.seed

def mmu_init (fuel : Nat) (boot : Boot) : Result Mmu := do
  let s := { boot.state with heap_end := align_up boot.kernel_end 0x1000 + 0x1000 }
  let frames ← release_entries (fun _ => BitVec.allOnes 64) boot.entries
  let s := init_pml4t { s with frames } s.pml4t
  let s := { s with frames := (set_frame s.frames boot.PML4T true).2 }
  let s := s.set_entry s.pml4t 0 0 0
  let (_, s) ← ksbrk fuel s 0
  .ok s

end salsola.mmu
