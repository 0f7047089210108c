-- task_switch.s: how the CPU goes from one task to another, and how a task is
-- made that returns from the same call a second time.
import Salsola.Lib.X86

open memory x86

namespace salsola.asm

/-- The memory from here on is the same in each directory. -/
def KERNEL_VMA : Nat := 0xffffff8000000000

def weird_switch : List Instr :=
  [.call 5,
   .imm .rax 0,
   .ret,
   -- weird_return
   .imm .rax 1,
   .ret]

def weird_switch2 : List Instr :=
  [.mov .rbx .rdi,
   -- task_create_directory
   .call_c,
   .mov .rdi .rbx,
   .load .rax .rdi 8,
   .get_cr3 .r8,
   .set_cr3 .rax,
   .label .rax 3,
   .store .rsp 0 .rax,
   .push .rbx,
   .push .r12,
   .push .r13,
   .push .r14,
   .push .r15,
   .store .rdi 0 .rsp,
   .add .rsp 40,
   .set_cr3 .r8,
   .ret]

def switch_to_task : List Instr :=
  [.push .rbx,
   .push .r12,
   .push .r13,
   .push .r14,
   .push .r15,
   .store .rdi 0 .rsp,
   .get_cr3 .rax,
   .store .rdi 8 .rax,
   .load .rsp .rsi 0,
   .load .rax .rsi 8,
   .load .rbx .rsi 16,
   .get_cr3 .rcx,
   .cmp .rax .rcx,
   .je 37,
   .set_cr3 .rax,
   -- .doneVAS
   .pop .r15,
   .pop .r14,
   .pop .r13,
   .pop .r12,
   .pop .rbx,
   .sti,
   .ret]

/-- The code of task_switch.s, and the C function that it calls. -/
def setup (text : UInt64) (task_create_directory : Machine → Machine) : Setup where
  split := KERNEL_VMA
  text
  code := weird_switch ++ weird_switch2 ++ switch_to_task
  callee := task_create_directory

/-- `weird_return` is instruction 3, and `switch_to_task` is instruction 22. -/
def WEIRD_RETURN : Nat := 3

def SWITCH_TO_TASK : Nat := 22

/-- No routine of task_switch.s has more than 64 turns. -/
def Setup.run (S : Setup) (m : Machine) : Option Machine := S.routine 64 0 m

variable {text : UInt64} {clone : Machine → Machine} {m m1 m2 : Machine} {S : Setup}

/-! ## switch_to_task, piece by piece -/

/-- The callee-saved registers that `switch_to_task` saves, as they are pushed. -/
def SAVED : List Reg := [.rbx, .r12, .r13, .r14, .r15]

/-- The middle of `switch_to_task`: one task is saved, and the other one loaded. -/
def exchange : List Instr :=
  [.store .rdi 0 .rsp, .get_cr3 .rax, .store .rdi 8 .rax, .load .rsp .rsi 0, .load .rax .rsi 8,
    .load .rbx .rsi 16, .get_cr3 .rcx, .cmp .rax .rcx]

/-- A task lies in the memory that all directories share. -/
def Shared (p : UInt64) : Prop := KERNEL_VMA ≤ p.toNat ∧ p.toNat + 40 ≤ 2 ^ 64

theorem Shared.add {p : UInt64} (h : Shared p) (k : UInt64) (hk : k.toNat < 40) :
    (p + k).toNat = p.toNat + k.toNat := by
  rw [UInt64.toNat_add]
  have := h.2
  exact Nat.mod_eq_of_lt (by omega)

/-- The shared memory after the tcb at `old` was saved. -/
def saved (mem : Mem) (old rsp cr3 : UInt64) : Mem :=
  write (write mem old.toNat 8 rsp.toNat) (old.toNat + 8) 8 cr3.toNat

theorem exchange.spec (hsplit : S.split = KERNEL_VMA) (hold : Shared (m.regs .rdi))
    (hnew : Shared (m.regs .rsi)) :
    ∃ m', S.seq m exchange = m' ∧
      m'.shared = saved m.shared (m.regs .rdi) (m.regs .rsp) m.cr3 ∧
      m'.own = m.own ∧ m'.cr3 = m.cr3 ∧
      m'.regs .rsp = word m'.shared (m.regs .rsi).toNat ∧
      m'.regs .rax = word m'.shared ((m.regs .rsi).toNat + 8) ∧
      m'.zf = decide (m'.regs .rax = m.cr3) ∧
      ∀ r, r ∉ [.rax, .rbx, .rcx, .rsp] → m'.regs r = m.regs r := by
  obtain ⟨A, hA⟩ : ∃ A, A = m.regs .rdi := ⟨_, rfl⟩
  obtain ⟨B, hB⟩ : ∃ B, B = m.regs .rsi := ⟨_, rfl⟩
  rw [← hA] at hold ⊢
  rw [← hB] at hnew ⊢
  have hstores : S.seq m (exchange.take 3) =
      { m.set .rax m.cr3 with shared := saved m.shared A (m.regs .rsp) m.cr3 } := by
    have hstore : ∀ (m' : Machine) (v : UInt64), S.store m' A v =
        { m' with shared := write m'.shared A.toNat 8 v.toNat } := by
      intro m' v
      rw [store_shared (by rw [hsplit]; exact hold.1)]
    have hstore8 : ∀ (m' : Machine) (v : UInt64), S.store m' (A + 8) v =
        { m' with shared := write m'.shared (A.toNat + 8) 8 v.toNat } := by
      intro m' v
      have hadd : (A + 8).toNat = A.toNat + 8 := hold.add 8 (by decide)
      rw [store_shared (by rw [hsplit, hadd]; exact Nat.le_add_right_of_le hold.1), hadd]
    simp [exchange, Setup.seq, Setup.effect, ← hA, hstore, hstore8, saved]
    rfl
  have hload : ∀ (m' : Machine) (k : UInt64), k.toNat < 40 →
      S.load m' (B + k) = word m'.shared (B.toNat + k.toNat) := by
    intro m' k hk
    rw [load_shared (by rw [hsplit, hnew.add k hk]; exact Nat.le_add_right_of_le hnew.1),
      hnew.add k hk]
  have h0 : ∀ m' : Machine, S.load m' B = word m'.shared B.toNat := by
    intro m'
    rw [load_shared (by rw [hsplit]; exact hnew.1)]
  have h8 := fun m' => hload m' 8 (by decide)
  have h16 := fun m' => hload m' 16 (by decide)
  have hparts : exchange = exchange.take 3 ++ exchange.drop 3 := rfl
  rw [hparts, seq_append, hstores]
  generalize saved m.shared A (m.regs .rsp) m.cr3 = shared
  refine ⟨_, rfl, rfl, rfl, rfl, ?_, ?_, ?_, ?_⟩
  · simp [exchange, Setup.seq, Setup.effect, ← hB, h0, h8, h16]
  · simp [exchange, Setup.seq, Setup.effect, ← hB, h0, h8, h16]
  · simp [exchange, Setup.seq, Setup.effect, ← hB, h0, h8, h16]
  · intro r hr
    simp only [List.mem_cons, List.not_mem_nil, or_false, not_or] at hr
    simp [exchange, Setup.seq, Setup.effect, ← hB, h0, h8, h16, hr]

/-- Both ways over the jump lead to `.doneVAS`, in the directory of the new task. -/
theorem je_doneVAS {m' : Machine} {fuel : Nat} (hzf : m.zf = decide (m.regs .rax = m.cr3))
    (hrip : m.rip = (setup text clone).at 35)
    (h : (setup text clone).routine fuel 0
      { m with cr3 := m.regs .rax, rip := (setup text clone).at 37 } = some m') :
    (setup text clone).routine (fuel + 2) 0 m = some m' := by
  rw [routine_je (i := 37) (by decide) rfl hrip]
  by_cases heq : m.regs .rax = m.cr3
  · rw [if_pos (by rw [hzf, decide_eq_true heq])]
    rw [heq] at h
    exact routine_fuel h 1
  · rw [if_neg (by rw [hzf, decide_eq_false heq]; decide)]
    have hset := routine_seq (S := setup text clone) (k := 36)
      (m := { m with rip := (setup text clone).at 36 }) fuel 0 [.set_cr3 .rax]
      (switch_to_task.drop 15) (by simp [Instr.Plain]) rfl (by decide) rfl
    exact hset.trans h

/-- From `.doneVAS` on: the words on the stack become the registers, and the one behind them is the
address to go on at. -/
theorem doneVAS.spec (hrip : m.rip = (setup text clone).at 37) :
    ∃ m', (setup text clone).routine 7 0 m = some m' ∧ m'.shared = m.shared ∧ m'.own = m.own ∧
      m'.cr3 = m.cr3 ∧ (∀ r, r ∉ .rsp :: SAVED → m'.regs r = m.regs r) ∧
      ∀ vs ra, vs.length = 5 → (m.regs .rsp).toNat + 48 ≤ KERNEL_VMA →
        Stacked (m.own m.cr3) (m.regs .rsp).toNat (vs ++ [ra]) →
        (m'.regs .rsp).toNat = (m.regs .rsp).toNat + 48 ∧ SAVED.reverse.map m'.regs = vs ∧
        m'.rip = ra := by
  obtain ⟨m4, hm4⟩ : ∃ m4, m4 = (setup text clone).seq m (SAVED.reverse.map .pop) := ⟨_, rfl⟩
  obtain ⟨hown, hshared, hcr3⟩ := seq_pops_memory (S := setup text clone) (m := m) SAVED.reverse
  rw [← hm4] at hown hshared hcr3
  have hpops := routine_seq (S := setup text clone) (k := 37) (m := m) 1 0
    (SAVED.reverse.map .pop ++ [.sti]) [.ret] (by simp [SAVED, Instr.Plain]) rfl
    (by decide) hrip
  rw [seq_append, ← hm4, routine_ret (k := 43) (by decide) rfl rfl] at hpops
  refine ⟨_, hpops, hshared, hown, hcr3, ?_, ?_⟩
  · intro r hr
    rw [List.mem_cons, not_or] at hr
    have hother := seq_pops_other (S := setup text clone) (m := m) SAVED.reverse
      (fun h => hr.2 (List.mem_reverse.mp h)) hr.1
    rw [← hm4] at hother
    rw [back_regs, if_neg hr.1]
    exact hother
  · intro vs ra hlen hroom hstack
    obtain ⟨hwords, hra, -⟩ := stacked_append.mp hstack
    obtain ⟨hend, hregs⟩ := seq_pops (S := setup text clone) (m := m) SAVED.reverse
      (by decide) (by decide) (Nat.le_trans (Nat.add_le_add_left (by decide : 40 ≤ 48) _) hroom)
      (Nat.lt_of_le_of_lt (Nat.le_refl KERNEL_VMA) (by decide)) hlen hwords
    rw [← hm4] at hend hregs
    have hfive : (m4.regs .rsp).toNat = (m.regs .rsp).toNat + 40 := hend
    have hvma : KERNEL_VMA < 2 ^ 64 - 48 := by decide
    refine ⟨?_, ?_, ?_⟩
    · rw [back_regs, if_pos rfl, UInt64.toNat_add]
      show ((m4.regs .rsp).toNat + 8) % 2 ^ 64 = _
      omega
    · rw [← hregs]
      rfl
    · rw [back_rip]
      show (setup text clone).load m4 (m4.regs .rsp) = ra
      have hlow : (m4.regs .rsp).toNat < KERNEL_VMA := by omega
      rw [load_own hlow, hfive, hown, hcr3, ← hra, hlen]

/-- What the run of `switch_to_task` from `m` to `m'` does. -/
structure Switched (m m' : Machine) : Prop where
  shared : m'.shared = saved m.shared (m.regs .rdi) (m.regs .rsp - 40) m.cr3
  own : ∃ mem, m'.own = Function.update m.own m.cr3 mem ∧
    Stacked mem ((m.regs .rsp).toNat - 40) (SAVED.reverse.map m.regs) ∧
    ∀ x, x < (m.regs .rsp).toNat - 40 ∨ (m.regs .rsp).toNat ≤ x → mem x = m.own m.cr3 x
  cr3 : m'.cr3 = word m'.shared ((m.regs .rsi).toNat + 8)
  rbp : m'.regs .rbp = m.regs .rbp
  /-- Behind five words and a return address, the new task goes on with these words. -/
  resumes : ∀ sp vs ra, word m'.shared (m.regs .rsi).toNat = sp → sp.toNat + 48 ≤ KERNEL_VMA →
    vs.length = 5 → Stacked (m'.own m'.cr3) sp.toNat (vs ++ [ra]) →
    (m'.regs .rsp).toNat = sp.toNat + 48 ∧ SAVED.reverse.map m'.regs = vs ∧ m'.rip = ra

/-- A switch, from a stack in the memory of the old task. -/
theorem switch_to_task.spec (hrip : m.rip = (setup text clone).at SWITCH_TO_TASK)
    (hold : Shared (m.regs .rdi)) (hnew : Shared (m.regs .rsi)) (hroom : 40 ≤ (m.regs .rsp).toNat)
    (hsp : (m.regs .rsp).toNat ≤ KERNEL_VMA) :
    ∃ m', Setup.run (setup text clone) m = some m' ∧ Switched m m' := by
  obtain ⟨mem, rsp, hlow, hpush, hstack, hkeep⟩ :=
    seq_pushes (S := setup text clone) (m := m) SAVED (by decide) hroom hsp
  have hfive : rsp.toNat + 40 = (m.regs .rsp).toNat := hlow
  have hrsp : rsp = m.regs .rsp - 40 := by
    apply UInt64.toNat_inj.mp
    have hle : (40 : UInt64) ≤ m.regs .rsp := UInt64.le_iff_toNat_le.mpr hroom
    rw [UInt64.toNat_sub_of_le _ _ hle]
    exact Nat.eq_sub_of_add_eq hfive
  -- the old task is saved
  obtain ⟨m2, hm2, hshared2, hown2, hcr32, hrsp2, hrax2, hzf2, hregs2⟩ :=
    exchange.spec (S := setup text clone)
      (m := { m.set .rsp rsp with own := Function.update m.own m.cr3 mem }) rfl hold hnew
  rw [← hpush, ← seq_append] at hm2
  -- the new task is loaded, and goes on
  obtain ⟨m', hrun, hshared, hown, hcr3, hregs, hresume⟩ :=
    doneVAS.spec (m := { m2 with cr3 := m2.regs .rax, rip := (setup text clone).at 37 }) rfl
  have hje := je_doneVAS (m := { m2 with rip := (setup text clone).at 35 })
    (by rw [hzf2, hcr32]) rfl (routine_fuel hrun 42)
  have hstart := routine_seq (S := setup text clone) (k := 22) (m := m) 51 0
    (SAVED.map .push ++ exchange) (switch_to_task.drop 13)
    (by simp [SAVED, exchange, Instr.Plain]) rfl (by decide) hrip
  rw [hm2] at hstart
  refine ⟨m', hstart.trans hje, ?_⟩
  have hrdi : (m.set .rsp rsp).regs .rdi = m.regs .rdi := by simp
  have hrsi : (m.set .rsp rsp).regs .rsi = m.regs .rsi := by simp
  have hnow : (m.set .rsp rsp).regs .rsp = rsp := by simp
  dsimp only at hshared2 hown2 hcr32 hrsp2 hrax2 hzf2 hregs2 hshared hown hcr3 hregs hresume
  rw [hrsi] at hrsp2 hrax2
  rw [← hshared] at hrsp2 hrax2
  constructor
  · rw [hshared, hshared2, hrdi, hnow, hrsp]
    rfl
  · refine ⟨mem, hown.trans hown2, ?_, ?_⟩
    · rw [← hfive, Nat.add_sub_cancel]
      exact hstack
    · rw [← hfive, Nat.add_sub_cancel, hfive]
      exact hkeep
  · rw [hcr3, hrax2]
  · rw [hregs .rbp (by decide), hregs2 .rbp (by decide)]
    simp
  · intro sp vs ra hword hroom hlen hstacked
    rw [← hrsp2] at hword
    rw [hown, hcr3, ← hword] at hstacked
    rw [← hword] at hroom ⊢
    exact hresume vs ra hlen hroom hstacked

end salsola.asm
