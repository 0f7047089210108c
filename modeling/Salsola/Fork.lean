-- weird_switch: a call that returns once to the parent and, at the first
-- switch to the child, once more on the copy of the stack.
import Salsola.SwitchRuns

open outcome memory x86

namespace salsola.asm

/-- `weird_switch` is instruction 0. -/
def WEIRD_SWITCH : Nat := 0

/-- The registers that a C function gives back as they were, but `rsp`. -/
def PRESERVED : List Reg := [.rbx, .rbp, .r12, .r13, .r14, .r15]

/-- What `task_create_directory` does from its call at `m` to its return at `m'`: it obeys the
calling convention, touches no other task, and the new directory has a copy of the stack. -/
structure Creates (w : World) (m m' : Machine) : Prop where
  rip : m'.rip = word (m.own m.cr3) (m.regs .rsp).toNat
  rsp : m'.regs .rsp = m.regs .rsp + 8
  regs : ∀ r ∈ PRESERVED, m'.regs r = m.regs r
  cr3 : m'.cr3 = m.cr3
  stack : Agree (m.own m.cr3) (m'.own m.cr3) ((m.regs .rsp).toNat + 8) KERNEL_VMA
  tcbs : ∀ p ∈ w.tasks, Agree m.shared m'.shared p.toNat (p.toNat + 24)
  fresh : ∀ p ∈ w.tasks, word m'.shared ((m.regs .rdi).toNat + 8) ≠ w.directory p
  others : ∀ d, d ≠ m.cr3 → d ≠ word m'.shared ((m.regs .rdi).toNat + 8) → m'.own d = m.own d
  copy : Agree (m.own m.cr3) (m'.own (word m'.shared ((m.regs .rdi).toNat + 8)))
    ((m.regs .rsp).toNat + 8) KERNEL_VMA

/-- The return of a call at `m`, with the value `v`. -/
structure Returned (m m' : Machine) (v : UInt64) : Prop where
  rax : m'.regs .rax = v
  rip : m'.rip = word (m.own m.cr3) (m.regs .rsp).toNat
  rsp : m'.regs .rsp = m.regs .rsp + 8
  regs : ∀ r ∈ PRESERVED, m'.regs r = m.regs r
  stack : Agree (m.own m.cr3) (m'.own m'.cr3) ((m.regs .rsp).toNat + 8) KERNEL_VMA

variable {text : UInt64} {clone : Machine → Machine} {w w' : World} {c : Call}
  {m m1 m2 m' : Machine} {S : Setup} {p task : UInt64}

/-! ## weird_switch2, after the directory is made -/

/-- The piece that goes to the directory of the child. -/
def enter : List Instr :=
  [.mov .rdi .rbx, .load .rax .rdi 8, .get_cr3 .r8, .set_cr3 .rax, .label .rax 3,
   .store .rsp 0 .rax]

/-- The piece that notes the stack of the child, and comes back. -/
def leave : List Instr := [.store .rdi 0 .rsp, .add .rsp 40, .set_cr3 .r8]

theorem enter.spec (hsplit : S.split = KERNEL_VMA) (htask : Shared (m.regs .rbx))
    (hsp : (m.regs .rsp).toNat < KERNEL_VMA) :
    ∃ m' child, S.seq m enter = m' ∧ child = word m.shared ((m.regs .rbx).toNat + 8) ∧
      m'.shared = m.shared ∧ m'.cr3 = child ∧
      m'.own = Function.update m.own child
        (write (m.own child) (m.regs .rsp).toNat 8 (S.at WEIRD_RETURN).toNat) ∧
      m'.regs .rdi = m.regs .rbx ∧ m'.regs .r8 = m.cr3 ∧
      ∀ r, r ∉ [.rdi, .rax, .r8] → m'.regs r = m.regs r := by
  have hload : ∀ m' : Machine, S.load m' (m.regs .rbx + 8) =
      word m'.shared ((m.regs .rbx).toNat + 8) := by
    intro m'
    have hadd : (m.regs .rbx + 8).toNat = (m.regs .rbx).toNat + 8 := htask.add 8 (by decide)
    rw [load_shared (by rw [hsplit, hadd]; exact Nat.le_add_right_of_le htask.1), hadd]
  have hstore : ∀ (m' : Machine) (v : UInt64), S.store m' (m.regs .rsp) v =
      { m' with
        own := Function.update m'.own m'.cr3
          (write (m'.own m'.cr3) (m.regs .rsp).toNat 8 v.toNat) } := by
    intro m' v
    rw [store_own (by rw [hsplit]; exact hsp)]
  refine ⟨_, _, rfl, rfl, ?_, ?_, ?_, ?_, ?_, ?_⟩
  · simp [enter, Setup.seq, Setup.effect, hload, hstore]
  · simp [enter, Setup.seq, Setup.effect, hload, hstore]
  · simp [enter, Setup.seq, Setup.effect, hload, hstore, WEIRD_RETURN]
  · simp [enter, Setup.seq, Setup.effect, hload, hstore]
  · simp [enter, Setup.seq, Setup.effect, hload, hstore]
  · intro r hr
    simp only [List.mem_cons, List.not_mem_nil, or_false, not_or] at hr
    simp [enter, Setup.seq, Setup.effect, hload, hstore, hr]

theorem leave.spec (hsplit : S.split = KERNEL_VMA) (htask : Shared (m.regs .rdi)) :
    S.seq m leave =
      { m.set .rsp (m.regs .rsp + 40) with
        shared := write m.shared (m.regs .rdi).toNat 8 (m.regs .rsp).toNat
        cr3 := m.regs .r8 } := by
  have hstore : S.store m (m.regs .rdi) (m.regs .rsp) =
      { m with shared := write m.shared (m.regs .rdi).toNat 8 (m.regs .rsp).toNat } :=
    store_shared (by rw [hsplit]; exact htask.1)
  simp [leave, Setup.seq, Setup.effect, hstore]
  rfl

/-! ## weird_switch, piece by piece -/

/-- A machine at the call of `task_create_directory` that `weird_switch` makes from `m`. -/
structure Calls (m m' : Machine) : Prop where
  rdi : m'.regs .rdi = m.regs .rdi
  rsi : m'.regs .rsi = m.regs .rsi
  rbx : m'.regs .rbx = m.regs .rdi
  rsp : m'.regs .rsp = m.regs .rsp - 16
  regs : ∀ r ∈ PRESERVED, r ≠ .rbx → m'.regs r = m.regs r
  cr3 : m'.cr3 = m.cr3
  shared : m'.shared = m.shared
  others : ∀ d, d ≠ m.cr3 → m'.own d = m.own d
  stack : Agree (m.own m.cr3) (m'.own m.cr3) (m.regs .rsp).toNat KERNEL_VMA

theorem weird_switch.call (hrip : m.rip = (setup text clone).at WEIRD_SWITCH)
    (hroom : 16 ≤ (m.regs .rsp).toNat) (hsp : (m.regs .rsp).toNat ≤ KERNEL_VMA) :
    ∃ m', Calls m m' ∧
      Stacked (m'.own m.cr3) ((m.regs .rsp).toNat - 16)
        [(setup text clone).at 7, (setup text clone).at 1] ∧
      ∀ fuel, (setup text clone).routine (fuel + 3) 0 m =
        (setup text clone).routine fuel 1 (clone m') := by
  have hle : (8 : UInt64) ≤ m.regs .rsp := UInt64.le_iff_toNat_le.mpr (Nat.le_of_lt (by
    show 8 < _
    omega))
  have h8 : (m.regs .rsp - 8).toNat = (m.regs .rsp).toNat - 8 := UInt64.toNat_sub_of_le _ _ hle
  have hpush := push_own (S := setup text clone) (m := m) (v := (setup text clone).at 1)
    (by omega) hsp
  obtain ⟨m1, hm1⟩ : ∃ m1, m1 = (setup text clone).effect
    { (setup text clone).push m ((setup text clone).at 1) with rip := (setup text clone).at 5 }
    (.mov .rbx .rdi) := ⟨_, rfl⟩
  have hregs : ∀ r, m1.regs r = if r = .rbx then m.regs .rdi else if r = .rsp then m.regs .rsp - 8
      else m.regs r := by
    intro r
    rw [hm1, hpush]
    simp [Setup.effect]
  have hmemory : m1.cr3 = m.cr3 ∧ m1.shared = m.shared ∧ m1.own = Function.update m.own m.cr3
      (write (m.own m.cr3) ((m.regs .rsp).toNat - 8) 8 ((setup text clone).at 1).toNat) := by
    rw [hm1, hpush]
    exact ⟨rfl, rfl, rfl⟩
  obtain ⟨hcr3, hshared, hown⟩ := hmemory
  have hrsp : m1.regs .rsp = m.regs .rsp - 8 := hregs .rsp
  have hpush1 := push_own (S := setup text clone) (m := { m1 with rip := (setup text clone).at 6 })
    (v := (setup text clone).at 7)
    (by rw [hrsp, h8]; omega) (by rw [hrsp, h8]; exact Nat.le_trans (Nat.sub_le _ _) hsp)
  obtain ⟨m2, hm2⟩ : ∃ m2, m2 = (setup text clone).push
    { m1 with rip := (setup text clone).at 6 } ((setup text clone).at 7) := ⟨_, rfl⟩
  rw [← hm2] at hpush1
  dsimp only at hpush1
  rw [hrsp, h8, hcr3, hown, Function.update_self, Function.update_idem, Nat.sub_sub] at hpush1
  refine ⟨m2, ?_, ?_, ?_⟩
  · rw [hpush1]
    constructor
    · simp [hregs]
    · simp [hregs]
    · simp [hregs]
    · dsimp only
      rw [set_regs, if_pos rfl, UInt64.sub_eq_add_neg, UInt64.sub_eq_add_neg, UInt64.add_assoc,
        UInt64.sub_eq_add_neg]
      rfl
    · intro r hr hrbx
      have hne : r ≠ .rsp := by
        rintro rfl
        exact absurd hr (by decide)
      simp [hregs, hrbx, hne]
    · rfl
    · exact hshared
    · intro d hd
      exact Function.update_of_ne hd _ _
    · dsimp only
      rw [Function.update_self]
      exact (agree_write _ _ (.inr (by omega))).trans (agree_write _ _ (.inr (by omega)))
  · rw [hpush1]
    dsimp only
    rw [Function.update_self]
    refine ⟨word_write_self _ _ _, ?_, trivial⟩
    rw [word_write_other _ _ (.inr (by omega))]
    have hplace : (m.regs .rsp).toNat - 16 + 8 = (m.regs .rsp).toNat - 8 := by omega
    rw [hplace]
    exact word_write_self _ _ _
  · intro fuel
    have hseq := routine_seq (S := setup text clone) (k := 5)
      (m := { (setup text clone).push m ((setup text clone).at 1) with
        rip := (setup text clone).at 5 })
      (fuel + 1) 1 [.mov .rbx .rdi] (weird_switch2.drop 1 ++ switch_to_task)
      (by simp [Instr.Plain]) rfl (by decide) rfl
    rw [routine_call (k := 0) (i := 5) (by decide) rfl hrip]
    refine hseq.trans ?_
    rw [hm2, hm1]
    exact routine_call_c (k := 6) (by decide) rfl rfl

/-- What `weird_switch2` does from the return of `task_create_directory` at `m` on, up to the end
`m'` of `weird_switch`, in the directory of the parent again. -/
structure Leaves (m m' : Machine) (ra : UInt64) : Prop where
  rax : m'.regs .rax = 0
  rip : m'.rip = word (m.own m.cr3) ((m.regs .rsp).toNat + 8)
  rsp : m'.regs .rsp = m.regs .rsp + 16
  regs : ∀ r ∈ PRESERVED, m'.regs r = m.regs r
  cr3 : m'.cr3 = m.cr3
  shared : m'.shared = write m.shared (m.regs .rbx).toNat 8 (m.regs .rsp - 40).toNat
  others : ∀ d, d ≠ word m.shared ((m.regs .rbx).toNat + 8) → m'.own d = m.own d
  frame : Stacked (m'.own (word m.shared ((m.regs .rbx).toNat + 8))) ((m.regs .rsp).toNat - 40)
    (SAVED.reverse.map m.regs ++ [ra])
  stack : Agree (m.own (word m.shared ((m.regs .rbx).toNat + 8)))
    (m'.own (word m.shared ((m.regs .rbx).toNat + 8))) ((m.regs .rsp).toNat + 8) KERNEL_VMA

/-- A machine at the `ret` of `weird_switch2`, whose instructions behind the call began at `m`. The
stack of the child has the frame of a switch. -/
structure Noted (m m' : Machine) (ra : UInt64) : Prop where
  regs : ∀ r, r ∉ [.rdi, .rax, .r8] → m'.regs r = m.regs r
  cr3 : m'.cr3 = m.cr3
  shared : m'.shared = write m.shared (m.regs .rbx).toNat 8 (m.regs .rsp - 40).toNat
  others : ∀ d, d ≠ word m.shared ((m.regs .rbx).toNat + 8) → m'.own d = m.own d
  frame : Stacked (m'.own (word m.shared ((m.regs .rbx).toNat + 8))) ((m.regs .rsp).toNat - 40)
    (SAVED.reverse.map m.regs ++ [ra])
  stack : Agree (m.own (word m.shared ((m.regs .rbx).toNat + 8)))
    (m'.own (word m.shared ((m.regs .rbx).toNat + 8))) ((m.regs .rsp).toNat + 8) KERNEL_VMA

theorem weird_switch2.notes (hsplit : S.split = KERNEL_VMA) (htask : Shared (m.regs .rbx))
    (hroom : 40 ≤ (m.regs .rsp).toNat) (hsp : (m.regs .rsp).toNat < KERNEL_VMA) :
    Noted m (S.seq m (enter ++ SAVED.map .push ++ leave)) (S.at WEIRD_RETURN) := by
  have hlow : (m.regs .rsp - 40).toNat = (m.regs .rsp).toNat - 40 :=
    UInt64.toNat_sub_of_le _ _ (UInt64.le_iff_toNat_le.mpr hroom)
  -- in the directory of the child
  obtain ⟨m1, child, hm1, hword, hshared1, hcr31, hown1, hrdi1, hr81, hregs1⟩ :=
    enter.spec hsplit htask hsp
  have hrsp1 : m1.regs .rsp = m.regs .rsp := hregs1 .rsp (by decide)
  obtain ⟨mem, rsp, hfive, hpush, hstack, hkeep⟩ :=
    seq_pushes (S := S) (m := m1) SAVED (by decide) (by rw [hrsp1]; exact hroom)
      (by rw [hrsp1, hsplit]; exact Nat.le_of_lt hsp)
  rw [hrsp1] at hfive hkeep
  have hrsp : rsp = m.regs .rsp - 40 := by
    apply UInt64.toNat_inj.mp
    rw [hlow]
    exact Nat.eq_sub_of_add_eq hfive
  -- back in the directory of the parent
  obtain ⟨m2, hm2⟩ : ∃ m2, m2 = S.seq m1 (SAVED.map .push) := ⟨_, rfl⟩
  rw [← hm2] at hpush
  have hregs2 : ∀ r, m2.regs r = if r = .rsp then rsp else m1.regs r := by
    intro r
    rw [hpush]
    exact set_regs _ _ _ _
  have hleave := leave.spec (S := S) (m := m2) hsplit
    (by rw [hregs2, if_neg (by decide), hrdi1]; exact htask)
  rw [seq_append, seq_append, hm1, ← hm2]
  obtain ⟨m3, hm3⟩ : ∃ m3, m3 = S.seq m2 leave := ⟨_, rfl⟩
  rw [← hm3] at hleave ⊢
  have hown3 : m3.own = Function.update m.own child mem := by
    rw [hleave]
    show m2.own = _
    rw [hpush]
    dsimp only
    rw [hown1, hcr31, Function.update_idem]
  have hchild : m3.own child = mem := by rw [hown3, Function.update_self]
  constructor
  · intro r hr
    rw [hleave]
    dsimp only
    rw [set_regs, hregs2, hregs2, if_pos rfl, hrsp]
    split
    · rename_i heq
      rw [heq]
      exact UInt64.sub_add_cancel _ _
    · exact hregs1 r hr
  · rw [hleave]
    exact (hregs2 .r8).trans hr81
  · rw [hleave]
    dsimp only
    rw [hregs2 .rdi, hregs2 .rsp, if_neg (by decide), if_pos rfl, hrdi1, hrsp, hpush]
    exact congrArg (fun mem => write mem _ _ _) hshared1
  · intro d hd
    rw [hown3, Function.update_of_ne (by rw [hword]; exact hd)]
  · rw [← hword, hchild, ← hlow, ← hrsp]
    refine stacked_append.mpr ⟨?_, ?_, trivial⟩
    · have hsaved : SAVED.reverse.map m1.regs = SAVED.reverse.map m.regs := by
        apply List.map_congr_left
        intro r hr
        apply hregs1
        revert r
        decide
      rw [← hsaved]
      exact hstack
    · rw [hrsp, hlow, List.length_map]
      have hplace : (m.regs .rsp).toNat - 40 + 8 * SAVED.reverse.length = (m.regs .rsp).toNat :=
        Nat.sub_add_cancel hroom
      rw [hplace, word_congr (fun x hx _ => hkeep x (.inr hx) : Agree (m1.own m1.cr3) _ _ _),
        hown1, hcr31, Function.update_self]
      exact word_write_self _ _ _
  · rw [← hword, hchild]
    intro x hx _
    rw [hkeep x (.inr (by omega)), hown1, hcr31, Function.update_self,
        write_outside _ _ _ (.inr hx)]

/-- The `ret` of `weird_switch2`, and the end of `weird_switch` in the parent. -/
theorem weird_switch2.returns (hrip : m.rip = (setup text clone).at 21)
    (hsp : (m.regs .rsp).toNat + 16 ≤ KERNEL_VMA)
    (hback : word (m.own m.cr3) (m.regs .rsp).toNat = (setup text clone).at 1) :
    ∃ m', (setup text clone).routine 3 1 m = some m' ∧ m'.regs .rax = 0 ∧
      m'.rip = word (m.own m.cr3) ((m.regs .rsp).toNat + 8) ∧
      m'.regs .rsp = m.regs .rsp + 16 ∧ (∀ r, r ≠ .rsp → r ≠ .rax → m'.regs r = m.regs r) ∧
      m'.cr3 = m.cr3 ∧ m'.shared = m.shared ∧ m'.own = m.own := by
  obtain ⟨m1, hm1⟩ : ∃ m1, m1 = (setup text clone).back m := ⟨_, rfl⟩
  have hrip1 : m1.rip = (setup text clone).at 1 := by
    rw [hm1, back_rip, load_own (by show _ < KERNEL_VMA; omega), hback]
  have hrsp1 : m1.regs .rsp = m.regs .rsp + 8 := by
    rw [hm1, back_regs, if_pos rfl]
  have hzero := routine_seq (S := setup text clone) (k := 1) (m := m1) 1 0
    [.imm .rax 0] ((weird_switch ++ weird_switch2 ++ switch_to_task).drop 2)
    (by simp [Instr.Plain]) rfl (by decide) hrip1
  rw [routine_ret (k := 2) (by decide) rfl rfl] at hzero
  obtain ⟨m', hm'⟩ : ∃ m', m' = (setup text clone).back
    { (setup text clone).seq m1 [.imm .rax 0] with rip := (setup text clone).at 2 } := ⟨_, rfl⟩
  have hmemory : m'.cr3 = m.cr3 ∧ m'.shared = m.shared ∧ m'.own = m.own := by
    rw [hm', hm1]
    exact ⟨rfl, rfl, rfl⟩
  have h8 : (m.regs .rsp + 8).toNat = (m.regs .rsp).toNat + 8 := by
    rw [UInt64.toNat_add]
    exact Nat.mod_eq_of_lt (Nat.lt_of_lt_of_le (by show _ + 8 < _ + 16; omega)
      (Nat.le_trans hsp (by decide)))
  have hrun : (setup text clone).routine 3 1 m = some m' := by
    rw [routine_return (k := 21) (by decide) rfl hrip, ← hm1, hm']
    exact hzero
  refine ⟨m', hrun, ?_, ?_, ?_, ?_, hmemory⟩
  · rw [hm', back_regs, if_neg (by decide)]
    exact set_regs m1 .rax 0 .rax
  · rw [hm', back_rip]
    show (setup text clone).load { m1 with regs := _, rip := _ } (m1.regs .rsp) = _
    rw [hrsp1, load_own (by rw [h8]; show _ < KERNEL_VMA; omega), h8, hm1]
    rfl
  · rw [hm', back_regs, if_pos rfl]
    refine (congrArg (· + 8) hrsp1).trans ?_
    rw [UInt64.add_assoc]
    rfl
  · intro r hr hrax
    rw [hm', back_regs, if_neg hr]
    refine (set_regs m1 .rax 0 r).trans ?_
    rw [if_neg hrax, hm1, back_regs, if_neg hr]

theorem weird_switch2.spec (hrip : m.rip = (setup text clone).at 7) (htask : Shared (m.regs .rbx))
    (hroom : 40 ≤ (m.regs .rsp).toNat) (hsp : (m.regs .rsp).toNat + 16 ≤ KERNEL_VMA)
    (hchild : word m.shared ((m.regs .rbx).toNat + 8) ≠ m.cr3)
    (hback : word (m.own m.cr3) (m.regs .rsp).toNat = (setup text clone).at 1) :
    ∃ m', (setup text clone).routine 17 1 m = some m' ∧
      Leaves m m' ((setup text clone).at WEIRD_RETURN) := by
  have hnoted := weird_switch2.notes (S := setup text clone) (m := m) rfl htask hroom (by omega)
  obtain ⟨m1, hm1⟩ : ∃ m1, m1 =
      (setup text clone).seq m (enter ++ SAVED.map .push ++ leave) := ⟨_, rfl⟩
  rw [← hm1] at hnoted
  have hrsp : m1.regs .rsp = m.regs .rsp := hnoted.regs .rsp (by decide)
  have hparent : m1.own m1.cr3 = m.own m.cr3 := by
    rw [hnoted.cr3]
    exact hnoted.others _ (fun heq => hchild heq.symm)
  obtain ⟨m', hrun, hrax, hrip', hrsp', hregs, hcr3, hshared, hown⟩ :=
    weird_switch2.returns (m := { m1 with rip := (setup text clone).at 21 }) rfl
      (by dsimp only; rw [hrsp]; exact hsp)
      (by dsimp only; rw [hparent, hrsp]; exact hback)
  dsimp only at hrip' hrsp' hregs hcr3 hshared hown
  have hseq := routine_seq (S := setup text clone) (k := 7) (m := m) 3 1
    (enter ++ SAVED.map .push ++ leave) (.ret :: switch_to_task)
    (by simp [enter, SAVED, leave, Instr.Plain]) rfl (by decide) hrip
  rw [← hm1] at hseq
  refine ⟨m', hseq.trans hrun, hrax, ?_, ?_, ?_, hcr3.trans hnoted.cr3,
    hshared.trans hnoted.shared, ?_, ?_, ?_⟩
  · rw [hrip', hparent, hrsp]
  · rw [hrsp', hrsp]
  · intro r hr
    have hne : r ≠ .rsp ∧ r ≠ .rax ∧ r ∉ [.rdi, .rax, .r8] := by
      revert r
      decide
    rw [hregs r hne.1 hne.2.1, hnoted.regs r hne.2.2]
  · rw [hown]
    exact hnoted.others
  · rw [hown]
    exact hnoted.frame
  · rw [hown]
    exact hnoted.stack

/-! ## The call in the parent -/

/-- A call `weird_switch(task, parent)` of the current task, with room on the stack. -/
structure World.Forks (text : UInt64) (clone : Machine → Machine) (w : World) (task : UInt64) :
    Prop where
  rip : w.m.rip = (setup text clone).at WEIRD_SWITCH
  rdi : w.m.regs .rdi = task
  shared : Shared task
  apart : ∀ p ∈ w.tasks, Apart task p
  room : 48 ≤ (w.m.regs .rsp).toNat
  stack : (w.m.regs .rsp).toNat + 8 ≤ KERNEL_VMA
  creates : ∀ m, Calls w.m m → Creates w m (clone m)

/-- Where the call at `m` left the child: the frame of a switch and the stack of the caller. -/
structure Born (m m' : Machine) (task child : UInt64) (ra : UInt64) : Prop where
  rsp : (word m'.shared task.toNat).toNat + 48 = (m.regs .rsp).toNat
  cr3 : word m'.shared (task.toNat + 8) = child
  frame : Stacked (m'.own child) (word m'.shared task.toNat).toNat
    [m.regs .r15, m.regs .r14, m.regs .r13, m.regs .r12, task, ra]
  stack : Agree (m.own m.cr3) (m'.own child) (m.regs .rsp).toNat KERNEL_VMA

/-- A machine behind the `task_create_directory` of a call of `weird_switch` in `w`. -/
structure Made (text : UInt64) (clone : Machine → Machine) (w : World) (task : UInt64)
    (m : Machine) : Prop where
  rip : m.rip = (setup text clone).at 7
  low : (m.regs .rsp).toNat = (w.m.regs .rsp).toNat - 8
  rsp : m.regs .rsp + 16 = w.m.regs .rsp + 8
  regs : ∀ r ∈ PRESERVED, m.regs r = if r = .rbx then task else w.m.regs r
  cr3 : m.cr3 = w.m.cr3
  back : word (m.own w.m.cr3) ((w.m.regs .rsp).toNat - 8) = (setup text clone).at 1
  tcbs : ∀ p ∈ w.tasks, Agree w.m.shared m.shared p.toNat (p.toNat + 24)
  fresh : ∀ p ∈ w.tasks, word m.shared (task.toNat + 8) ≠ w.directory p
  others : ∀ d, d ≠ w.m.cr3 → d ≠ word m.shared (task.toNat + 8) → m.own d = w.m.own d
  stack : Agree (w.m.own w.m.cr3) (m.own w.m.cr3) (w.m.regs .rsp).toNat KERNEL_VMA
  copy : Agree (w.m.own w.m.cr3) (m.own (word m.shared (task.toNat + 8)))
    (w.m.regs .rsp).toNat KERNEL_VMA

theorem weird_switch.makes (h : w.Forks text clone task) :
    ∃ m, Made text clone w task m ∧ ∀ fuel, (setup text clone).routine (fuel + 3) 0 w.m =
      (setup text clone).routine fuel 1 m := by
  have hroom := h.room
  have hstack := h.stack
  obtain ⟨m1, hcalls, hframe, hrun⟩ := weird_switch.call h.rip (by omega) (by omega)
  have hcreates := h.creates m1 hcalls
  obtain ⟨m2, hm2⟩ : ∃ m2, m2 = clone m1 := ⟨_, rfl⟩
  rw [← hm2] at hcreates hrun
  have hle : (16 : UInt64) ≤ w.m.regs .rsp := UInt64.le_iff_toNat_le.mpr (by
    show 16 ≤ _
    omega)
  have hrsp1 : (m1.regs .rsp).toNat = (w.m.regs .rsp).toNat - 16 := by
    rw [hcalls.rsp]
    exact UInt64.toNat_sub_of_le _ _ hle
  have hplace : (w.m.regs .rsp).toNat - 16 + 8 = (w.m.regs .rsp).toNat - 8 := by omega
  have hrip := hcreates.rip
  have hcopy := hcreates.copy
  have hkeep := hcreates.stack
  have hfresh := hcreates.fresh
  have hothers := hcreates.others
  have htcbs := hcreates.tcbs
  rw [hcalls.rdi, h.rdi] at hcopy hfresh hothers
  rw [hcalls.cr3, hrsp1, hplace] at hcopy hkeep
  rw [hcalls.cr3, hrsp1] at hrip
  rw [hcalls.shared] at htcbs
  refine ⟨m2, ⟨hrip.trans hframe.1, ?_, ?_, ?_, hcreates.cr3.trans hcalls.cr3, ?_, htcbs, hfresh,
    ?_, hcalls.stack.trans (hkeep.sub (by omega) (Nat.le_refl _)),
    hcalls.stack.trans (hcopy.sub (by omega) (Nat.le_refl _))⟩, hrun⟩
  · rw [hcreates.rsp, UInt64.toNat_add, hrsp1]
    show ((w.m.regs .rsp).toNat - 16 + 8) % 2 ^ 64 = _
    have hvma : KERNEL_VMA < 2 ^ 64 := by decide
    omega
  · rw [hcreates.rsp, hcalls.rsp, UInt64.sub_eq_add_neg, UInt64.add_assoc, UInt64.add_assoc]
    rfl
  · intro r hr
    rw [hcreates.regs r hr]
    split
    · rename_i heq
      rw [heq, hcalls.rbx, h.rdi]
    · rename_i hne
      exact hcalls.regs r hr hne
  · rw [word_congr (hkeep.sub (Nat.le_refl _) (by omega)), ← hplace]
    exact hframe.2.1
  · intro d hcr3 hd
    rw [hothers d (by rw [hcalls.cr3]; exact hcr3) hd, hcalls.others d hcr3]

theorem Made.rbx (h : Made text clone w task m) : m.regs .rbx = task := h.regs .rbx (by decide)

theorem Made.directory (h : Made text clone w task m) {ra : UInt64} (hl : Leaves m m' ra) :
    word m'.shared (task.toNat + 8) = word m.shared (task.toNat + 8) := by
  rw [hl.shared, h.rbx]
  exact word_write_other _ _ (.inr (Nat.le_refl _))

/-- The call leaves the child where a switch finds it. -/
theorem Made.born (h : Made text clone w task m) (hroom : 48 ≤ (w.m.regs .rsp).toNat)
    {ra : UInt64} (hl : Leaves m m' ra) :
    Born w.m m' task (word m'.shared (task.toNat + 8)) ra := by
  have hframe := hl.frame
  have hstack := hl.stack
  rw [h.rbx] at hframe hstack
  have hplace : (w.m.regs .rsp).toNat - 8 + 8 = (w.m.regs .rsp).toNat := by omega
  rw [h.low, hplace] at hstack
  have hnote : (m.regs .rsp - 40).toNat = (w.m.regs .rsp).toNat - 48 := by
    have hle : (40 : UInt64) ≤ m.regs .rsp := UInt64.le_iff_toNat_le.mpr (by
      rw [h.low]
      show 40 ≤ _
      omega)
    rw [UInt64.toNat_sub_of_le _ _ hle, h.low]
    exact Nat.sub_sub _ 8 40
  have hword : word m'.shared task.toNat = m.regs .rsp - 40 := by
    rw [hl.shared, h.rbx]
    exact word_write_self _ _ _
  have hsaved : SAVED.reverse.map m.regs =
      [w.m.regs .r15, w.m.regs .r14, w.m.regs .r13, w.m.regs .r12, task] := by
    show [m.regs .r15, m.regs .r14, m.regs .r13, m.regs .r12, m.regs .rbx] = _
    rw [h.regs .r15 (by decide), h.regs .r14 (by decide), h.regs .r13 (by decide),
      h.regs .r12 (by decide), h.rbx]
    rfl
  rw [hsaved, h.low, Nat.sub_sub] at hframe
  rw [h.directory hl]
  refine ⟨?_, h.directory hl, ?_, h.copy.trans hstack⟩
  · rw [hword, hnote]
    exact Nat.sub_add_cancel hroom
  · rw [hword, hnote]
    exact hframe

theorem Made.allows (h : Made text clone w task m) (hfork : w.Forks text clone task)
    {ra : UInt64} (hl : Leaves m m' ra) : w.Allows text clone (.create task m') := by
  have hothers := hl.others
  rw [h.rbx] at hothers
  refine ⟨⟨hl.cr3.trans h.cr3, ?_⟩, hfork.shared, hfork.apart, ?_, ?_⟩
  · intro p hp
    have hp' := hfork.apart p hp
    unfold Apart at hp'
    rw [hl.shared, h.rbx]
    exact (h.tcbs p hp).trans (agree_write _ _ (by omega))
  · intro p hp
    rw [h.directory hl]
    exact h.fresh p hp
  · intro d hcr3 hd
    rw [h.directory hl] at hd
    rw [hothers d hd, h.others d hcr3 hd]

theorem weird_switch.spec (h : w.Forks text clone task) (hgood : w.Good) :
    ∃ m', Setup.run (setup text clone) w.m = some m' ∧
      w.Allows text clone (.create task m') ∧
      Born w.m m' task (word m'.shared (task.toNat + 8)) ((setup text clone).at WEIRD_RETURN) ∧
      m'.regs .rax = 0 ∧ m'.rip = word (w.m.own w.m.cr3) (w.m.regs .rsp).toNat ∧
      m'.regs .rsp = w.m.regs .rsp + 8 ∧
      (∀ r ∈ PRESERVED, m'.regs r = if r = .rbx then task else w.m.regs r) ∧
      Agree (w.m.own w.m.cr3) (m'.own m'.cr3) (w.m.regs .rsp).toNat KERNEL_VMA := by
  have hroom := h.room
  have hstack := h.stack
  have hplace : (w.m.regs .rsp).toNat - 8 + 8 = (w.m.regs .rsp).toNat := by omega
  obtain ⟨m, hmade, hrun⟩ := weird_switch.makes h
  have hchild : word m.shared (task.toNat + 8) ≠ w.m.cr3 := by
    have hnew := hmade.fresh w.current hgood.current
    unfold World.directory at hnew
    rwa [if_pos rfl] at hnew
  have hlow := hmade.low
  obtain ⟨m', hrun', hleaves⟩ := weird_switch2.spec hmade.rip
    (by rw [hmade.rbx]; exact h.shared) (by omega) (by omega)
    (by rw [hmade.rbx, hmade.cr3]; exact hchild)
    (by rw [hmade.cr3, hmade.low]; exact hmade.back)
  have hown : m'.own w.m.cr3 = m.own w.m.cr3 := by
    refine hleaves.others _ ?_
    rw [hmade.rbx]
    exact fun heq => hchild heq.symm
  refine ⟨m', (hrun 61).trans (routine_fuel hrun' 44), hmade.allows h hleaves,
    hmade.born hroom hleaves, hleaves.rax, ?_, hleaves.rsp.trans hmade.rsp, ?_, ?_⟩
  · rw [hleaves.rip, hmade.cr3, hmade.low, hplace]
    exact word_congr (hmade.stack.sub (Nat.le_refl _) hstack)
  · intro r hr
    rw [hleaves.regs r hr, hmade.regs r hr]
  · rw [hleaves.cr3, hmade.cr3, hown]
    exact hmade.stack

/-! ## The call in the child -/

/-- A task that sleeps is left alone until it is switched to. -/
theorem World.Good.sleeps (h : w.Good) (ha : w.Allows text clone c)
    (hs : w.step text clone c = .ok w') (hp : p ∈ w.tasks) (hne : p ≠ w.current)
    (hto : c ≠ .switch p) :
    p ∈ w'.tasks ∧ p ≠ w'.current ∧ Agree w.m.shared w'.m.shared p.toNat (p.toNat + 24) ∧
      w'.m.own (w.directory p) = w.m.own (w.directory p) := by
  have hdir : w.directory p ≠ w.m.cr3 := by
    intro heq
    have hcurrent : w.directory w.current = w.m.cr3 := by
      unfold World.directory
      rw [if_pos rfl]
    exact hne (h.directories p hp w.current h.current (heq.trans hcurrent.symm))
  cases c with
  | compute m =>
    cases hs
    exact ⟨hp, hne, ha.1.tcbs p hp, ha.2 _ hdir⟩
  | create task m =>
    cases hs
    obtain ⟨hm, -, -, hnew, hown⟩ := ha
    exact ⟨List.mem_cons_of_mem _ hp, hne, hm.tcbs p hp, hown _ hdir (hnew p hp).symm⟩
  | switch task =>
    obtain ⟨m, hw', hswitched, -⟩ := h.switch ha
    rw [hw'] at hs
    cases hs
    obtain ⟨mem, hown, -, -⟩ := hswitched.own
    have hshared := hswitched.shared
    rw [ha.2.2.1] at hshared
    refine ⟨hp, ?_, ?_, ?_⟩
    · intro heq
      exact hto (congrArg Call.switch heq.symm)
    · show Agree w.m.shared m.shared _ _
      rw [hshared]
      exact agree_saved _ _ _ (h.apart _ h.current _ hp (fun heq => hne heq.symm))
    · show m.own _ = _
      rw [hown, Function.update_of_ne hdir]

theorem Born.congr {child ra : UInt64} (h : Born m m1 task child ra)
    (htcb : Agree m1.shared m2.shared task.toNat (task.toNat + 24))
    (hown : m2.own child = m1.own child) : Born m m2 task child ra := by
  have hword : word m2.shared task.toNat = word m1.shared task.toNat :=
    word_congr (htcb.sub (by omega) (by omega))
  have hword8 : word m2.shared (task.toNat + 8) = word m1.shared (task.toNat + 8) :=
    word_congr (htcb.sub (by omega) (by omega))
  refine ⟨?_, ?_, ?_, ?_⟩
  · rw [hword]
    exact h.rsp
  · rw [hword8]
    exact h.cr3
  · rw [hword, hown]
    exact h.frame
  · rw [hown]
    exact h.stack

/-- The runs from `w` on in which no call switches to `task`. -/
abbrev Before (text : UInt64) (clone : Machine → Machine) (w : World) (task : UInt64) :
    World → Prop :=
  Reach (· = w) (fun w c => w.Allows text clone c ∧ c ≠ .switch task) (World.step text clone)

/-- The child stays as it was born until the first switch to it. -/
theorem Born.waits {child ra : UInt64} (h : Born m w.m task child ra) (hgood : w.Good)
    (hmem : task ∈ w.tasks) (hne : task ≠ w.current) (hrun : Before text clone w task w') :
    w'.Good ∧ task ∈ w'.tasks ∧ task ≠ w'.current ∧ Born m w'.m task child ra := by
  apply hrun.invariant fun w' =>
    w'.Good ∧ task ∈ w'.tasks ∧ task ≠ w'.current ∧ Born m w'.m task child ra
  · rintro _ rfl
    exact ⟨hgood, hmem, hne, h⟩
  · intro w1 c w2 h1 ha hs
    obtain ⟨hgood1, hmem1, hne1, hborn1⟩ := h1
    obtain ⟨hmem2, hne2, htcb, hown⟩ := hgood1.sleeps ha.1 hs hmem1 hne1 ha.2
    have hdir : w1.directory task = child := by
      unfold World.directory
      rw [if_neg hne1, hborn1.cr3]
    rw [hdir] at hown
    exact ⟨hgood1.step ha.1 hs, hmem2, hne2, hborn1.congr htcb hown⟩

/-- The first switch to the child goes on behind the call in `weird_switch`. -/
theorem Born.resumes {child : UInt64}
    (h : Born m m1 task child ((setup text clone).at WEIRD_RETURN)) (hs : Switched m1 m2)
    (hrsi : m1.regs .rsi = task) (hold : Apart (m1.regs .rdi) task) (hchild : child ≠ m1.cr3)
    (hstack : (m.regs .rsp).toNat + 8 ≤ KERNEL_VMA) :
    ∃ m', Setup.run (setup text clone) m2 = some m' ∧ m'.regs .rax = 1 ∧
      m'.rip = word (m.own m.cr3) (m.regs .rsp).toNat ∧ m'.regs .rsp = m.regs .rsp + 8 ∧
      (∀ r ∈ PRESERVED, m'.regs r =
        if r = .rbx then task else if r = .rbp then m1.regs .rbp else m.regs r) ∧
      Agree (m.own m.cr3) (m'.own m'.cr3) (m.regs .rsp).toNat KERNEL_VMA := by
  have hborn2 : Born m m2 task child ((setup text clone).at WEIRD_RETURN) := by
    obtain ⟨mem, hown, -, -⟩ := hs.own
    apply h.congr
    · rw [hs.shared]
      exact agree_saved _ _ _ hold
    · rw [hown, Function.update_of_ne hchild]
  have hcr3 : m2.cr3 = child := by rw [hs.cr3, hrsi, hborn2.cr3]
  have hframe := hborn2.frame
  have hstack2 := hborn2.stack
  rw [← hcr3] at hframe hstack2
  obtain ⟨hend, hregs, hrip⟩ := hs.resumes (word m2.shared task.toNat)
    [m.regs .r15, m.regs .r14, m.regs .r13, m.regs .r12, task] _ (by rw [hrsi])
    (by rw [hborn2.rsp]; omega) rfl hframe
  have hrsp : m2.regs .rsp = m.regs .rsp := UInt64.toNat_inj.mp (hend.trans hborn2.rsp)
  simp only [SAVED, List.reverse_cons, List.reverse_nil, List.nil_append, List.cons_append,
    List.map_cons, List.map_nil, List.cons.injEq, and_true] at hregs
  obtain ⟨h15, h14, h13, h12, hbx⟩ := hregs
  have hone := routine_seq (S := setup text clone) (k := 3) (m := m2) 63 0
    [.imm .rax 1] (.ret :: (weird_switch2 ++ switch_to_task))
    (by simp [Instr.Plain]) rfl (by decide) hrip
  rw [routine_ret (k := 4) (by decide) rfl rfl] at hone
  obtain ⟨m3, hm3⟩ : ∃ m3, m3 = { (setup text clone).seq m2 [.imm .rax 1] with
    rip := (setup text clone).at 4 } := ⟨_, rfl⟩
  have hregs3 : ∀ r, m3.regs r = if r = .rax then 1 else m2.regs r := by
    intro r
    rw [hm3]
    exact set_regs m2 .rax 1 r
  have hmemory : m3.cr3 = m2.cr3 ∧ m3.own = m2.own := by
    rw [hm3]
    exact ⟨rfl, rfl⟩
  obtain ⟨hcr33, hown3⟩ := hmemory
  refine ⟨(setup text clone).back m3, by rw [hm3]; exact hone, ?_, ?_, ?_, ?_, ?_⟩
  · rw [back_regs, if_neg (by decide), hregs3, if_pos rfl]
  · rw [back_rip, hregs3, if_neg (by decide), hrsp, load_own (by show _ < KERNEL_VMA; omega), hown3,
      hcr33]
    exact word_congr (hstack2.sub (Nat.le_refl _) hstack)
  · rw [back_regs, if_pos rfl, hregs3, if_neg (by decide), hrsp]
  · intro r hr
    have hne : r ≠ .rsp ∧ r ≠ .rax := by
      revert r
      decide
    rw [back_regs, if_neg hne.1, hregs3, if_neg hne.2]
    simp only [PRESERVED, List.mem_cons, List.not_mem_nil, or_false] at hr
    rcases hr with rfl | rfl | rfl | rfl | rfl | rfl
    · exact hbx
    · exact hs.rbp
    · exact h12
    · exact h13
    · exact h14
    · exact h15
  · rw [back_own, back_cr3, hown3, hcr33]
    exact hstack2

/-! ## Two returns -/

/-- A call of `weird_switch` returns 0 to the parent. After any run in which no call switches to
the child, the first switch to the child makes the call return 1. Both returns find the registers
and the stack of the call exactly when `rbx` held `task` at the call and the task that switches to
the child has `rbp` of the call. -/
theorem fork_returns_twice_iff_rbx_and_rbp_agree (h : Run text clone w)
    (hfork : w.Forks text clone task) :
    ∃ m1, Setup.run (setup text clone) w.m = some m1 ∧ w.Allows text clone (.create task m1) ∧
      ∀ w', Before text clone { w with m := m1, tasks := task :: w.tasks } task w' →
        w'.Allows text clone (.switch task) →
        ∃ m2 m3, w'.step text clone (.switch task) = .ok (w'.switched task m2) ∧
          Setup.run (setup text clone) m2 = some m3 ∧
          ((Returned w.m m1 0 ∧ Returned w.m m3 1) ↔
            w.m.regs .rbx = task ∧ w'.m.regs .rbp = w.m.regs .rbp) := by
  have hgood := Run.good h
  obtain ⟨m1, hrun1, hcreate, hborn, hrax1, hrip1, hrsp1, hregs1, hstack1⟩ :=
    weird_switch.spec hfork hgood
  refine ⟨m1, hrun1, hcreate, ?_⟩
  intro w' hbefore hswitch
  have hfresh : task ≠ w.current := by
    intro heq
    have hapart := hfork.apart w.current hgood.current
    unfold Apart at hapart
    rw [heq] at hapart
    omega
  have hgood1 : World.Good { w with m := m1, tasks := task :: w.tasks } :=
    hgood.step hcreate rfl
  obtain ⟨hgood', hmem', hne', hborn'⟩ :=
    Born.waits (w := { w with m := m1, tasks := task :: w.tasks }) hborn hgood1
      List.mem_cons_self hfresh hbefore
  have hdir : w'.directory task = word m1.shared (task.toNat + 8) := by
    unfold World.directory
    rw [if_neg hne', hborn'.cr3]
  have hchild : word m1.shared (task.toNat + 8) ≠ w'.m.cr3 := by
    intro heq
    have hcurrent : w'.directory w'.current = w'.m.cr3 := by
      unfold World.directory
      rw [if_pos rfl]
    exact hne' (hgood'.directories _ hmem' _ hgood'.current
      (hdir.trans (heq.trans hcurrent.symm)))
  obtain ⟨m2, hstep, hswitched, -⟩ := hgood'.switch hswitch
  obtain ⟨m3, hrun3, hrax3, hrip3, hrsp3, hregs3, hstack3⟩ :=
    hborn'.resumes hswitched hswitch.2.2.2.1
      (by
        rw [hswitch.2.2.1]
        exact hgood'.apart _ hgood'.current _ hmem' (fun heq => hne' heq.symm))
      hchild hfork.stack
  refine ⟨m2, m3, hstep, hrun3, ?_⟩
  constructor
  · rintro ⟨hparent, hchild⟩
    have hbx := hparent.regs .rbx (by decide)
    have hbp := hchild.regs .rbp (by decide)
    rw [hregs1 .rbx (by decide)] at hbx
    rw [hregs3 .rbp (by decide)] at hbp
    exact ⟨hbx.symm, hbp⟩
  · rintro ⟨hbx, hbp⟩
    refine ⟨⟨hrax1, hrip1, hrsp1, ?_, hstack1.sub (by omega) (Nat.le_refl _)⟩,
      ⟨hrax3, hrip3, hrsp3, ?_, hstack3.sub (by omega) (Nat.le_refl _)⟩⟩
    · intro r hr
      rw [hregs1 r hr]
      split
      · rename_i heq
        rw [heq, hbx]
      · rfl
    · intro r hr
      rw [hregs3 r hr, hbp]
      split
      · rename_i heq
        rw [heq, hbx]
      · split
        · rename_i heq
          rw [heq]
        · rfl

/-- A `task_create_directory` that fills directory 1. -/
def fill (m : Machine) : Machine :=
  { m.set .rsp (m.regs .rsp + 8) with
    rip := word (m.own m.cr3) (m.regs .rsp).toNat
    shared := write m.shared ((m.regs .rdi).toNat + 8) 8 1
    own := Function.update m.own 1 (m.own m.cr3) }

/-- The first task at a call of `weird_switch`. -/
def forking (rbx : UInt64) : World :=
  { first 0 with
    m := {
      (first 0).m with
      regs := fun
        | .rdi => 0xffffff8000000400
        | .rbx => rbx
        | .rsp => 4096
        | _ => 0
    } }

theorem forking_forks (rbx : UInt64) :
    Run 0 fill (forking rbx) ∧ (forking rbx).Forks 0 fill 0xffffff8000000400 := by
  have hshared : Shared 0xffffff8000000000 ∧ Shared 0xffffff8000000400 := by
    unfold Shared
    decide
  have hapart : Apart 0xffffff8000000400 0xffffff8000000000 := .inr (by decide)
  have honly : ∀ p ∈ (forking rbx).tasks, p = 0xffffff8000000000 :=
    fun p hp => List.mem_singleton.mp hp
  refine ⟨Reach.start ⟨rfl, hshared.1, fun _ => rfl, rfl⟩, rfl, rfl, hshared.2, ?_,
    (by decide : 48 ≤ (4096 : UInt64).toNat),
    (by decide : (4096 : UInt64).toNat + 8 ≤ KERNEL_VMA), ?_⟩
  · intro p hp
    rw [honly p hp]
    exact hapart
  · intro m hm
    have hrdi : m.regs .rdi = 0xffffff8000000400 := hm.rdi
    have hcr3 : m.cr3 = 0 := hm.cr3
    have hword : word (fill m).shared ((m.regs .rdi).toNat + 8) = 1 :=
      word_write_self m.shared _ 1
    refine ⟨rfl, ?_, ?_, rfl, ?_, ?_, ?_, ?_, ?_⟩
    · show (m.set .rsp (m.regs .rsp + 8)).regs .rsp = _
      rw [set_regs, if_pos rfl]
    · intro r hr
      have hne : r ≠ .rsp := by
        rintro rfl
        exact absurd hr (by decide)
      show (m.set .rsp (m.regs .rsp + 8)).regs r = _
      rw [set_regs, if_neg hne]
    · show Agree _ (Function.update m.own 1 (m.own m.cr3) m.cr3) _ _
      rw [Function.update_of_ne (by rw [hcr3]; decide)]
      exact agree_refl _ _ _
    · intro p hp
      have hbehind : (0xffffff8000000000 : UInt64).toNat + 24 ≤ (m.regs .rdi).toNat + 8 := by
        rw [hrdi]
        decide
      rw [honly p hp]
      exact agree_write m.shared 1 (.inl hbehind)
    · intro p hp
      have hdir : (forking rbx).directory p = 0 := if_pos (honly p hp)
      rw [hword, hdir]
      decide
    · intro d _ hd
      rw [hword] at hd
      exact Function.update_of_ne hd _ _
    · rw [hword]
      show Agree _ (Function.update m.own 1 (m.own m.cr3) 1) _ _
      rw [Function.update_self]
      exact agree_refl _ _ _

/-- Both returns are right when `rbx` happens to hold `task`, and `rbp` stays 0. -/
theorem fork_returns_twice_iff_rbx_and_rbp_agree_by_chance :
    ∃ (m1 m2 m3 : Machine) (w' : World),
      Setup.run (setup 0 fill) (forking 0xffffff8000000400).m = some m1 ∧
      w'.step 0 fill (.switch 0xffffff8000000400) =
        .ok (w'.switched 0xffffff8000000400 m2) ∧
      Setup.run (setup 0 fill) m2 = some m3 ∧
      Returned (forking 0xffffff8000000400).m m1 0 ∧
      Returned (forking 0xffffff8000000400).m m3 1 := by
  obtain ⟨hrun, hforks⟩ := forking_forks 0xffffff8000000400
  obtain ⟨m1, hrun1, -, hlater⟩ := fork_returns_twice_iff_rbx_and_rbp_agree hrun hforks
  have hswitching : Before 0 fill
      { forking 0xffffff8000000400 with m := m1, tasks := [0xffffff8000000400, 0xffffff8000000000] }
      0xffffff8000000400
      { forking 0xffffff8000000400 with
        m := switching 0 m1 0xffffff8000000000 0xffffff8000000400 0
        tasks := [0xffffff8000000400, 0xffffff8000000000] } := by
    have hcompute : World.Allows 0 fill
        { forking 0xffffff8000000400 with
          m := m1, tasks := [0xffffff8000000400, 0xffffff8000000000] }
        (.compute (switching 0 m1 0xffffff8000000000 0xffffff8000000400 0)) :=
      ⟨⟨rfl, fun p _ => agree_refl _ _ _⟩, fun _ _ => rfl⟩
    refine Reach.next (Reach.start rfl) ⟨hcompute, ?_⟩ rfl
    intro heq
    cases heq
  obtain ⟨m2, m3, hstep, hrun3, hboth⟩ := hlater _ hswitching
    ⟨List.mem_cons_self, rfl, rfl, rfl, (by decide : 40 ≤ (4096 : UInt64).toNat),
      (by decide : (4096 : UInt64).toNat + 8 ≤ KERNEL_VMA)⟩
  obtain ⟨hparent, hchild⟩ := hboth.mpr ⟨rfl, rfl⟩
  exact ⟨m1, m2, m3, _, hrun1, hstep, hrun3, hparent, hchild⟩

/-- A caller with 0 in `rbx` finds `task` there. -/
theorem rbx_is_lost :
    ¬ ∀ w, Run 0 fill w → w.Forks 0 fill 0xffffff8000000400 →
      ∃ m1, Setup.run (setup 0 fill) w.m = some m1 ∧ Returned w.m m1 0 := by
  intro hall
  obtain ⟨hrun, hforks⟩ := forking_forks 0
  obtain ⟨m1, hrun1, hreturned⟩ := hall _ hrun hforks
  obtain ⟨m', hrun', -, -, -, -, -, hregs, -⟩ := weird_switch.spec hforks (Run.good hrun)
  rw [hrun'] at hrun1
  cases hrun1
  have hrbx := hreturned.regs .rbx (by decide)
  rw [hregs .rbx (by decide)] at hrbx
  exact absurd hrbx (by decide : (0xffffff8000000400 : UInt64) ≠ 0)

end salsola.asm
