-- An interrupt, as idt_asm.s and idt.c take it: what the CPU pushes, what the macro of the
-- vector and the common stub push behind it, the handler, and the way back.
import Salsola.Lib.WordStack
import Salsola.Lib.X86

open wordstack x86

namespace salsola.interrupts

/-! ## The machine -/

structure Cpu where
  regs : Reg → UInt64
  rip : UInt64
  rflags : UInt64
  cs : UInt64
  ss : UInt64
  mem : Words

inductive Instr
  | cli
  | push_imm (v : UInt64)
  | push (r : Reg)
  | pop (r : Reg)
  | mov (d s : Reg)
  | add (d : Reg) (v : UInt64)
  | call_dispatch
  | iretq
deriving DecidableEq

/-- The flag that lets interrupts in. -/
def IF : UInt64 := 0x200

def Cpu.set (c : Cpu) (r : Reg) (v : UInt64) : Cpu :=
  { c with regs := Function.update c.regs r v }

def Cpu.push (c : Cpu) (v : UInt64) : Cpu :=
  let a := c.regs .rsp - 8
  { c.set .rsp a with mem := Function.update c.mem a v }

/-- The word on top of the stack goes to a register. -/
def Cpu.pop (c : Cpu) (r : Reg) : Cpu :=
  (c.set .rsp (c.regs .rsp + 8)).set r (c.mem (c.regs .rsp))

/-- The five words on top of the stack are `rip`, `cs`, the flags, `rsp` and `ss`. -/
def Cpu.iretq (c : Cpu) : Cpu :=
  let word := fun i => c.mem (slot (c.regs .rsp) i)
  { c.set .rsp (word 3) with rip := word 0, cs := word 1, rflags := word 2, ss := word 4 }

/-! ## struct cpu_status -/

structure cpu_status where
  rax : UInt64
  rbx : UInt64
  rcx : UInt64
  rdx : UInt64
  rsi : UInt64
  rdi : UInt64
  rbp : UInt64
  r8 : UInt64
  r9 : UInt64
  r10 : UInt64
  r11 : UInt64
  r12 : UInt64
  r13 : UInt64
  r14 : UInt64
  r15 : UInt64
  vector_number : UInt64
  error_code : UInt64
  iret_rip : UInt64
  iret_cs : UInt64
  iret_flags : UInt64
  iret_rsp : UInt64
  iret_ss : UInt64
deriving DecidableEq

/-- The struct at `a`. It is packed, and each of its fields takes one word. -/
def cpu_status.at (mem : Words) (a : UInt64) : cpu_status where
  rax := mem (slot a 0)
  rbx := mem (slot a 1)
  rcx := mem (slot a 2)
  rdx := mem (slot a 3)
  rsi := mem (slot a 4)
  rdi := mem (slot a 5)
  rbp := mem (slot a 6)
  r8 := mem (slot a 7)
  r9 := mem (slot a 8)
  r10 := mem (slot a 9)
  r11 := mem (slot a 10)
  r12 := mem (slot a 11)
  r13 := mem (slot a 12)
  r14 := mem (slot a 13)
  r15 := mem (slot a 14)
  vector_number := mem (slot a 15)
  error_code := mem (slot a 16)
  iret_rip := mem (slot a 17)
  iret_cs := mem (slot a 18)
  iret_flags := mem (slot a 19)
  iret_rsp := mem (slot a 20)
  iret_ss := mem (slot a 21)

/-- The words of the struct. -/
def FRAME : Nat := 22

/-! ## Handlers -/

/-- The registers that a C function gives back as it got them, apart from `rsp`. -/
def CALLEE_SAVED : List Reg := [.rbx, .rbp, .r12, .r13, .r14, .r15]

/-- A C function of type `interrupt_handler`, from its first instruction to its return. It obeys
the calling convention, and the struct at its argument stays. -/
structure Handler where
  run : Cpu → Cpu
  saved : ∀ c, ∀ r ∈ CALLEE_SAVED, (run c).regs r = c.regs r
  rsp : ∀ c, (run c).regs .rsp = c.regs .rsp + 8
  frame : ∀ c i, i < FRAME → (run c).mem (slot (c.regs .rdi) i) = c.mem (slot (c.regs .rdi) i)

/-- `list_of_handlers`, and the `kprintf` for a vector without a handler. -/
structure Handlers where
  list_of_handlers : UInt64 → Option Handler
  note : Handler

def interrupt_dispatch (hs : Handlers) (c : Cpu) : Cpu :=
  match hs.list_of_handlers (cpu_status.at c.mem (c.regs .rdi)).vector_number with
  | none => hs.note.run c
  | some handler => handler.run c

/-! ## The code -/

/-- `ret` is the address behind the call of `interrupt_dispatch`. -/
def Cpu.exec (hs : Handlers) (ret : UInt64) (c : Cpu) : Instr → Cpu
  | .cli => { c with rflags := c.rflags &&& ~~~IF }
  | .push_imm v => c.push v
  | .push r => c.push (c.regs r)
  | .pop r => c.pop r
  | .mov d s => c.set d (c.regs s)
  | .add d v => c.set d (c.regs d + v)
  | .call_dispatch => interrupt_dispatch hs (c.push ret)
  | .iretq => c.iretq

def Cpu.run (hs : Handlers) (ret : UInt64) (c : Cpu) (code : List Instr) : Cpu :=
  code.foldl (Cpu.exec hs ret) c

def ISR_NOERRCODE (v : UInt64) : List Instr := [.cli, .push_imm 0, .push_imm v]

def ISR_ERRCODE (v : UInt64) : List Instr := [.cli, .push_imm v]

/-- Two vectors use the macro that leaves the error code to the CPU. -/
def isr (v : UInt8) : List Instr :=
  if v = 13 ∨ v = 14 then ISR_ERRCODE v.toUInt64 else ISR_NOERRCODE v.toUInt64

def interrupt_stub : List Instr :=
  [.push .r15,
   .push .r14,
   .push .r13,
   .push .r12,
   .push .r11,
   .push .r10,
   .push .r9,
   .push .r8,
   .push .rbp,
   .push .rdi,
   .push .rsi,
   .push .rdx,
   .push .rcx,
   .push .rbx,
   .push .rax,
   .mov .rdi .rsp,
   .call_dispatch,
   .pop .rax,
   .pop .rbx,
   .pop .rcx,
   .pop .rdx,
   .pop .rsi,
   .pop .rdi,
   .pop .rbp,
   .pop .r8,
   .pop .r9,
   .pop .r10,
   .pop .r11,
   .pop .r12,
   .pop .r13,
   .pop .r14,
   .pop .r15,
   .add .rsp 16,
   .iretq]

/-! ## What the CPU does -/

/-- The vectors for which the CPU pushes an error code. -/
def HAS_ERROR : List UInt8 := [8, 10, 11, 12, 13, 14, 17, 21, 29, 30]

/-- The moment of an interrupt. -/
structure Moment where
  cpu : Cpu
  vector : UInt8
  /-- The error code, for a vector that has one. -/
  error : UInt64
  /-- The stack that the CPU pushes on: the one in use, or the one of the TSS. -/
  top : UInt64
  /-- Bit 1 of the flags is always set. -/
  reserved : cpu.rflags &&& 2 = 2

/-- The code segment of an IDT entry. -/
def SELECTOR : UInt64 := 0x8

/-- The CPU aligns the stack and pushes `ss`, `rsp`, the flags, `cs`, `rip` and the error code. The
gate turns interrupts off. -/
def Moment.deliver (x : Moment) : Cpu :=
  let c := x.cpu.set .rsp (x.top &&& ~~~0xF)
  let c := c.push x.cpu.ss
  let c := c.push (x.cpu.regs .rsp)
  let c := c.push x.cpu.rflags
  let c := c.push x.cpu.cs
  let c := c.push x.cpu.rip
  let c := if x.vector ∈ HAS_ERROR then c.push x.error else c
  { c with rflags := c.rflags &&& ~~~IF, cs := SELECTOR }

/-- On entry to `interrupt_dispatch`. -/
def Moment.entry (x : Moment) (hs : Handlers) (ret : UInt64) : Cpu :=
  (x.deliver.run hs ret
    (isr x.vector ++ interrupt_stub.takeWhile (· ≠ .call_dispatch))).push ret

/-- Behind the `iretq`. -/
def Moment.exit (x : Moment) (hs : Handlers) (ret : UInt64) : Cpu :=
  x.deliver.run hs ret (isr x.vector ++ interrupt_stub)

/-- What the handler should see. -/
def Moment.status (x : Moment) : cpu_status where
  rax := x.cpu.regs .rax
  rbx := x.cpu.regs .rbx
  rcx := x.cpu.regs .rcx
  rdx := x.cpu.regs .rdx
  rsi := x.cpu.regs .rsi
  rdi := x.cpu.regs .rdi
  rbp := x.cpu.regs .rbp
  r8 := x.cpu.regs .r8
  r9 := x.cpu.regs .r9
  r10 := x.cpu.regs .r10
  r11 := x.cpu.regs .r11
  r12 := x.cpu.regs .r12
  r13 := x.cpu.regs .r13
  r14 := x.cpu.regs .r14
  r15 := x.cpu.regs .r15
  vector_number := x.vector.toUInt64
  error_code := if x.vector ∈ HAS_ERROR then x.error else 0
  iret_rip := x.cpu.rip
  iret_cs := x.cpu.cs
  iret_flags := x.cpu.rflags
  iret_rsp := x.cpu.regs .rsp
  iret_ss := x.cpu.ss

/-- The handler sees the interrupted code, and the interrupted code goes on as if nothing had
happened. -/
structure Transparent (x : Moment) (hs : Handlers) (ret : UInt64) : Prop where
  frame : cpu_status.at (x.entry hs ret).mem ((x.entry hs ret).regs .rdi) = x.status
  regs : ∀ r, (x.exit hs ret).regs r = x.cpu.regs r
  rip : (x.exit hs ret).rip = x.cpu.rip
  rflags : (x.exit hs ret).rflags = x.cpu.rflags

variable {c : Cpu} {hs : Handlers} {ret v : UInt64} {vs ws : List UInt64} {x : Moment} {mem : Words}
  {a : UInt64} {r : Reg}

/-! ## The stack -/

/-- The words on the stack, from the top on. -/
def Cpu.Stack (c : Cpu) (vs : List UInt64) : Prop := Row c.mem (c.regs .rsp) vs

@[simp] theorem set_regs (c : Cpu) (r : Reg) (v : UInt64) (r' : Reg) :
    (c.set r v).regs r' = if r' = r then v else c.regs r' := by
  unfold Cpu.set Function.update
  simp

@[simp] theorem push_regs (c : Cpu) (v : UInt64) (r : Reg) :
    (c.push v).regs r = if r = .rsp then c.regs .rsp - 8 else c.regs r :=
  set_regs c .rsp _ r

theorem Cpu.Stack.push (h : c.Stack vs) (hlen : vs.length < 2 ^ 61) (v : UInt64) :
    (c.push v).Stack (v :: vs) := by
  have hrow := Row.push h hlen v
  unfold Cpu.Stack
  rw [push_regs, if_pos rfl]
  exact hrow

/-- Under the word that a push puts on the stack, the old words stand where they stood. -/
theorem Cpu.Stack.under (h : c.Stack vs) (hlen : vs.length < 2 ^ 61) (v : UInt64) :
    Row (c.push v).mem (c.regs .rsp) vs := by
  have hrow := (Row.push h hlen v).tail
  rw [UInt64.sub_add_cancel] at hrow
  exact hrow

theorem run_append (c : Cpu) (code code' : List Instr) :
    c.run hs ret (code ++ code') = (c.run hs ret code).run hs ret code' := List.foldl_append

theorem run_cons (c : Cpu) (i : Instr) (code : List Instr) :
    c.run hs ret (i :: code) = (c.exec hs ret i).run hs ret code := rfl

/-- What pushes do: the registers stand on the stack, the last one on top. -/
theorem run_pushes (hs : Handlers) (ret : UInt64) (rs : List Reg) (hrs : .rsp ∉ rs) (h : c.Stack vs)
    (hlen : vs.length + rs.length < 2 ^ 61) :
    (c.run hs ret (rs.map .push)).Stack (rs.reverse.map c.regs ++ vs) ∧
      ∀ r, r ≠ .rsp → (c.run hs ret (rs.map .push)).regs r = c.regs r := by
  induction rs generalizing c vs with
  | nil => exact ⟨h, fun _ _ => rfl⟩
  | cons r rs ih =>
    rw [List.mem_cons, not_or] at hrs
    rw [List.length_cons] at hlen
    have hother : ∀ r', r' ≠ .rsp → (c.push (c.regs r)).regs r' = c.regs r' := by
      intro r' hr'
      rw [push_regs, if_neg hr']
    obtain ⟨hstack, hregs⟩ := ih hrs.2 (h.push (by omega) (c.regs r))
      (by rw [List.length_cons]; omega)
    rw [List.map_cons, run_cons]
    refine ⟨?_, fun r' hr' => (hregs r' hr').trans (hother r' hr')⟩
    have hmap : rs.reverse.map (c.push (c.regs r)).regs = rs.reverse.map c.regs := by
      apply List.map_congr_left
      intro r' hr'
      apply hother
      rintro rfl
      exact hrs.2 (List.mem_reverse.mp hr')
    rw [hmap] at hstack
    rw [List.reverse_cons, List.map_append, List.append_assoc]
    exact hstack

/-- What pops do: the registers take the words from the stack, the first one the top. -/
theorem run_pops (hs : Handlers) (ret : UInt64) (rs : List Reg) (hrs : .rsp ∉ rs)
    (hnd : rs.Nodup) (hlen : ws.length = rs.length) (h : c.Stack (ws ++ vs)) :
    (c.run hs ret (rs.map .pop)).Stack vs ∧ rs.map (c.run hs ret (rs.map .pop)).regs = ws ∧
      ∀ r, r ∉ rs → r ≠ .rsp → (c.run hs ret (rs.map .pop)).regs r = c.regs r := by
  induction rs generalizing c ws with
  | nil =>
    obtain rfl := List.length_eq_zero_iff.mp hlen
    exact ⟨h, rfl, fun _ _ _ => rfl⟩
  | cons r rs ih =>
    cases ws with
    | nil => cases hlen
    | cons w ws =>
      rw [List.mem_cons, not_or] at hrs
      rw [List.nodup_cons] at hnd
      have hrsp : (c.pop r).regs .rsp = c.regs .rsp + 8 := by
        unfold Cpu.pop
        simp [hrs.1]
      have htop : (c.pop r).regs r = w := by
        unfold Cpu.pop
        rw [set_regs, if_pos rfl]
        exact Row.head h
      have hstack : (c.pop r).Stack (ws ++ vs) := by
        unfold Cpu.Stack
        rw [hrsp]
        exact Row.tail h
      obtain ⟨hend, hregs, hother⟩ := ih hrs.2 hnd.2 (Nat.succ.inj hlen) hstack
      rw [List.map_cons, run_cons]
      refine ⟨hend, ?_, fun r' hr' hne => ?_⟩
      · have hr := hother r hnd.1 (fun he => hrs.1 he.symm)
        rw [List.map_cons]
        exact congrArg₂ List.cons (hr.trans htop) hregs
      · rw [List.mem_cons, not_or] at hr'
        have hr := hother r' hr'.2 hne
        refine hr.trans ?_
        unfold Cpu.pop
        simp [hr'.1, hne]

/-! ## The way in -/

/-- The words that the CPU and the macro push for the error code: none, one or two. -/
def Moment.codes (x : Moment) : List UInt64 :=
  (if x.vector = 13 ∨ x.vector = 14 then [] else [0]) ++
    if x.vector ∈ HAS_ERROR then [x.error] else []

/-- What `iretq` should find. -/
def Moment.origin (x : Moment) : List UInt64 :=
  [x.cpu.rip, x.cpu.cs, x.cpu.rflags, x.cpu.regs .rsp, x.cpu.ss]

theorem deliver_stack (x : Moment) :
    x.deliver.Stack ((if x.vector ∈ HAS_ERROR then [x.error] else []) ++ x.origin) ∧
      ∀ r, r ≠ .rsp → x.deliver.regs r = x.cpu.regs r := by
  have h0 : (x.cpu.set .rsp (x.top &&& ~~~0xF)).Stack [] := row_nil _ _
  have h5 := ((((h0.push (by decide) x.cpu.ss).push (by simp) (x.cpu.regs .rsp)).push (by simp)
    x.cpu.rflags).push (by simp) x.cpu.cs).push (by simp) x.cpu.rip
  unfold Moment.deliver
  dsimp only
  by_cases herr : x.vector ∈ HAS_ERROR
  · rw [if_pos herr, if_pos herr]
    refine ⟨h5.push (by simp) x.error, fun r hr => ?_⟩
    simp [hr]
  · rw [if_neg herr, if_neg herr]
    refine ⟨h5, fun r hr => ?_⟩
    simp [hr]

/-- What the macro of a vector does. -/
theorem run_isr (hs : Handlers) (ret : UInt64) (v : UInt8) (h : c.Stack vs)
    (hlen : vs.length + 1 < 2 ^ 61) :
    (c.run hs ret (isr v)).Stack
        (v.toUInt64 :: ((if v = 13 ∨ v = 14 then [] else [0]) ++ vs)) ∧
      ∀ r, r ≠ .rsp → (c.run hs ret (isr v)).regs r = c.regs r := by
  have hcli : (c.exec hs ret .cli).Stack vs := h
  have hregs : ∀ r, (c.exec hs ret .cli).regs r = c.regs r := fun _ => rfl
  unfold isr
  by_cases hv : v = 13 ∨ v = 14
  · rw [if_pos hv, if_pos hv, ISR_ERRCODE, run_cons]
    generalize c.exec hs ret .cli = c1 at hcli hregs
    refine ⟨hcli.push (by omega) _, fun r hr => ?_⟩
    rw [← hregs r]
    exact (push_regs c1 _ r).trans (if_neg hr)
  · rw [if_neg hv, if_neg hv, ISR_NOERRCODE, run_cons]
    generalize c.exec hs ret .cli = c1 at hcli hregs
    refine ⟨(hcli.push (by omega) 0).push (by rw [List.length_cons]; omega) _, fun r hr => ?_⟩
    rw [← hregs r]
    refine (push_regs (c1.push 0) _ r).trans ?_
    simp [hr]

theorem isr_stack (hs : Handlers) (ret : UInt64) (x : Moment) :
    (x.deliver.run hs ret (isr x.vector)).Stack (x.vector.toUInt64 :: (x.codes ++ x.origin)) ∧
      ∀ r, r ≠ .rsp → (x.deliver.run hs ret (isr x.vector)).regs r = x.cpu.regs r := by
  obtain ⟨hstack, hregs⟩ := deliver_stack x
  have hlen : ((if x.vector ∈ HAS_ERROR then [x.error] else []) ++ x.origin).length ≤ 6 := by
    split <;> simp [Moment.origin]
  obtain ⟨hrow, hkeep⟩ := run_isr hs ret x.vector hstack (by omega)
  rw [← List.append_assoc] at hrow
  exact ⟨hrow, fun r hr => (hkeep r hr).trans (hregs r hr)⟩

/-- The registers of the struct, in its order. -/
def SAVED : List Reg :=
  [.rax, .rbx, .rcx, .rdx, .rsi, .rdi, .rbp, .r8, .r9, .r10, .r11, .r12, .r13, .r14, .r15]

theorem interrupt_stub_eq : interrupt_stub =
    SAVED.reverse.map .push ++ ([.mov .rdi .rsp, .call_dispatch] ++ (SAVED.map .pop ++
      [.add .rsp 16, .iretq])) := rfl

theorem takeWhile_stub : interrupt_stub.takeWhile (· ≠ .call_dispatch) =
    SAVED.reverse.map .push ++ [.mov .rdi .rsp] := by decide

/-- The stack when all is saved. -/
def Moment.saved (x : Moment) : List UInt64 :=
  SAVED.map x.cpu.regs ++ x.vector.toUInt64 :: (x.codes ++ x.origin)

/-- Before the call, the argument is the top of the stack. -/
theorem before_call (hs : Handlers) (ret : UInt64) (x : Moment) :
    ∃ c, x.deliver.run hs ret (isr x.vector ++ (SAVED.reverse.map .push ++ [.mov .rdi .rsp])) = c ∧
      c.Stack x.saved ∧ c.regs .rdi = c.regs .rsp ∧
      ∀ r, r ≠ .rsp → r ≠ .rdi → c.regs r = x.cpu.regs r := by
  obtain ⟨hstack, hregs⟩ := isr_stack hs ret x
  have hlen : (x.vector.toUInt64 :: (x.codes ++ x.origin)).length ≤ 8 := by
    unfold Moment.codes
    split <;> split <;> simp [Moment.origin]
  rw [run_append, run_append]
  generalize x.deliver.run hs ret (isr x.vector) = c0 at *
  obtain ⟨hpushed, hkeep⟩ := run_pushes hs ret SAVED.reverse (by decide) hstack
    (by show _ + 15 < _; omega)
  have hmap : SAVED.map c0.regs = SAVED.map x.cpu.regs := by
    apply List.map_congr_left
    intro r hr
    apply hregs
    rintro rfl
    revert hr
    decide
  rw [List.reverse_reverse, hmap] at hpushed
  generalize c0.run hs ret (SAVED.reverse.map .push) = c1 at hpushed hkeep
  refine ⟨c1.set .rdi (c1.regs .rsp), rfl, ?_, ?_, ?_⟩
  · unfold Cpu.Stack
    rw [set_regs, if_neg (by decide)]
    exact hpushed
  · simp
  · intro r hr hrdi
    rw [set_regs, if_neg hrdi, hkeep r hr, hregs r hr]

/-- The struct as the words that it takes. -/
def cpu_status.words (s : cpu_status) : List UInt64 :=
  [s.rax, s.rbx, s.rcx, s.rdx, s.rsi, s.rdi, s.rbp, s.r8, s.r9, s.r10, s.r11, s.r12, s.r13, s.r14,
    s.r15, s.vector_number, s.error_code, s.iret_rip, s.iret_cs, s.iret_flags, s.iret_rsp,
    s.iret_ss]

theorem status_of_row {s : cpu_status} (h : Row mem a (s.words ++ vs)) :
    cpu_status.at mem a = s := by
  have hword : ∀ i (hi : i < s.words.length), mem (slot a i) = s.words[i] := by
    intro i hi
    rw [h i (by rw [List.length_append]; omega), List.getElem_append_left hi]
  have hlen : s.words.length = FRAME := rfl
  unfold FRAME at hlen
  unfold cpu_status.at
  rw [hword 0 (by omega), hword 1 (by omega), hword 2 (by omega), hword 3 (by omega),
    hword 4 (by omega), hword 5 (by omega), hword 6 (by omega), hword 7 (by omega),
    hword 8 (by omega), hword 9 (by omega), hword 10 (by omega), hword 11 (by omega),
    hword 12 (by omega), hword 13 (by omega), hword 14 (by omega), hword 15 (by omega),
    hword 16 (by omega), hword 17 (by omega), hword 18 (by omega), hword 19 (by omega),
    hword 20 (by omega), hword 21 (by omega)]
  rfl

/-- The vectors with an error code whose macro pushes one more. -/
def MISSED : List UInt8 := [8, 10, 11, 12, 17, 21, 29, 30]

/-- What the handler sees: behind the wrong macro, each field from the error code on has the word
of the field before it. -/
def Moment.seen (x : Moment) : cpu_status :=
  if x.vector ∈ MISSED then
    { x.status with
      error_code := 0
      iret_rip := x.error
      iret_cs := x.cpu.rip
      iret_flags := x.cpu.cs
      iret_rsp := x.cpu.rflags
      iret_ss := x.cpu.regs .rsp }
  else x.status

theorem codes_missed (hv : x.vector ∈ MISSED) : x.codes = [0, x.error] := by
  have hall : ∀ v ∈ MISSED, ¬ (v = 13 ∨ v = 14) ∧ v ∈ HAS_ERROR := by
    simp [MISSED, HAS_ERROR]
  obtain ⟨hkind, herr⟩ := hall _ hv
  unfold Moment.codes
  rw [if_neg hkind, if_pos herr]
  rfl

theorem codes_right (hv : x.vector ∉ MISSED) : x.codes = [x.status.error_code] := by
  have hall : ∀ v ∈ HAS_ERROR, v ∉ MISSED → v = 13 ∨ v = 14 := by
    simp [MISSED, HAS_ERROR]
  unfold Moment.codes Moment.status
  dsimp only
  by_cases herr : x.vector ∈ HAS_ERROR
  · rw [if_pos (hall _ herr hv), if_pos herr, if_pos herr]
    rfl
  · have hkind : ¬ (x.vector = 13 ∨ x.vector = 14) := by
      rintro (h | h)
      · exact herr (h ▸ by decide)
      · exact herr (h ▸ by decide)
    rw [if_neg hkind, if_neg herr, if_neg herr]
    rfl

theorem saved_words (x : Moment) : ∃ vs, x.saved = x.seen.words ++ vs := by
  unfold Moment.saved Moment.seen
  by_cases hv : x.vector ∈ MISSED
  · rw [codes_missed hv, if_pos hv]
    exact ⟨[x.cpu.ss], rfl⟩
  · rw [codes_right hv, if_neg hv]
    exact ⟨[], rfl⟩

theorem saved_length (x : Moment) : x.saved.length ≤ 23 := by
  unfold Moment.saved Moment.codes
  split <;> split <;> simp [Moment.origin, SAVED]

/-- The struct that the handler gets. -/
theorem entry_status (hs : Handlers) (ret : UInt64) (x : Moment) :
    cpu_status.at (x.entry hs ret).mem ((x.entry hs ret).regs .rdi) = x.seen := by
  obtain ⟨c, hrun, hstack, hrdi, -⟩ := before_call hs ret x
  obtain ⟨vs, hvs⟩ := saved_words x
  have hlen := saved_length x
  have hrow := hstack.under (by omega) ret
  rw [hvs] at hrow
  unfold Moment.entry
  rw [takeWhile_stub, hrun, push_regs, if_neg (by decide), hrdi]
  exact status_of_row hrow

/-! ## The way back -/

theorem dispatch_runs (hs : Handlers) (c : Cpu) :
    ∃ handler : Handler, interrupt_dispatch hs c = handler.run c := by
  unfold interrupt_dispatch
  split
  · exact ⟨hs.note, rfl⟩
  · exact ⟨_, rfl⟩

/-- The handler leaves the stack as it was before the call. -/
theorem after_call (hs : Handlers) (ret : UInt64) (h : c.Stack vs)
    (hrdi : c.regs .rdi = c.regs .rsp) (hlen : vs.length = FRAME) :
    (c.exec hs ret .call_dispatch).Stack vs := by
  obtain ⟨handler, heq⟩ := dispatch_runs hs (c.push ret)
  have hrow := h.under (by rw [hlen]; decide) ret
  have hrsp : (c.exec hs ret .call_dispatch).regs .rsp = c.regs .rsp := by
    show (interrupt_dispatch hs (c.push ret)).regs .rsp = _
    rw [heq, handler.rsp, push_regs, if_pos rfl, UInt64.sub_add_cancel]
  unfold Cpu.Stack
  rw [hrsp]
  apply hrow.congr
  intro i hi
  show (interrupt_dispatch hs (c.push ret)).mem _ = _
  have hframe := handler.frame (c.push ret) i (by rw [← hlen]; exact hi)
  rw [push_regs, if_neg (by decide), hrdi] at hframe
  rw [heq, hframe]

/-- Behind the right macro, the interrupted code goes on. -/
theorem exit_cpu (hs : Handlers) (ret : UInt64) (hv : x.vector ∉ MISSED) :
    (∀ r, (x.exit hs ret).regs r = x.cpu.regs r) ∧ (x.exit hs ret).rip = x.cpu.rip ∧
      (x.exit hs ret).rflags = x.cpu.rflags := by
  obtain ⟨c, hrun, hstack, hrdi, -⟩ := before_call hs ret x
  have hwords : x.saved = SAVED.map x.cpu.regs ++
      ([x.vector.toUInt64, x.status.error_code] ++ x.origin) := by
    unfold Moment.saved
    rw [codes_right hv]
    rfl
  have hback := after_call hs ret hstack hrdi (by rw [hwords]; rfl)
  have hexit : x.exit hs ret = ((c.exec hs ret .call_dispatch).run hs ret
      (SAVED.map .pop)).run hs ret [.add .rsp 16, .iretq] := by
    unfold Moment.exit
    rw [← hrun, interrupt_stub_eq]
    simp only [run_append, run_cons]
    rfl
  rw [hexit]
  rw [hwords] at hback
  obtain ⟨hend, hregs, -⟩ := run_pops hs ret SAVED (by decide) (by decide)
    (List.length_map _) hback
  generalize (c.exec hs ret .call_dispatch).run hs ret (SAVED.map .pop) = c1 at hend hregs
  -- the vector and the error code go, and `iretq` finds the words of the CPU
  have hrow : Row c1.mem (c1.regs .rsp + 16) x.origin := by
    have htail := hend.tail.tail
    rw [UInt64.add_assoc] at htail
    exact htail
  have horigin : ∀ i (hi : i < x.origin.length),
      c1.mem (slot ((c1.set .rsp (c1.regs .rsp + 16)).regs .rsp) i) = x.origin[i] := by
    intro i hi
    rw [set_regs, if_pos rfl]
    exact hrow i hi
  have hlen : x.origin.length = 5 := rfl
  refine ⟨fun r => ?_, horigin 0 (by omega), horigin 2 (by omega)⟩
  have hset : (c1.run hs ret [.add .rsp 16, .iretq]).regs r = if r = .rsp then
      c1.mem (slot ((c1.set .rsp (c1.regs .rsp + 16)).regs .rsp) 3)
      else (c1.set .rsp (c1.regs .rsp + 16)).regs r :=
    set_regs (c1.set .rsp (c1.regs .rsp + 16)) .rsp _ r
  rw [hset]
  by_cases hr : r = .rsp
  · rw [if_pos hr, horigin 3 (by omega), hr]
    rfl
  · have hmem : r ∈ SAVED := by
      revert hr
      cases r <;> decide
    rw [if_neg hr, set_regs, if_neg hr]
    exact List.map_inj_left.mp hregs r hmem

/-- An interrupt is transparent exactly when the macro of its vector fits what the CPU pushes. -/
theorem interrupts_are_transparent_iff (x : Moment) (hs : Handlers) (ret : UInt64) :
    Transparent x hs ret ↔ x.vector ∉ [8, 10, 11, 12, 17, 21, 29, 30] := by
  constructor
  · intro ht hv
    have hframe := ht.frame
    have hmissed : x.vector ∈ MISSED := hv
    rw [entry_status, Moment.seen, if_pos hmissed] at hframe
    have herr : x.vector ∈ HAS_ERROR := by
      have hall : ∀ v ∈ MISSED, v ∈ HAS_ERROR := by
        simp [MISSED, HAS_ERROR]
      exact hall _ hmissed
    -- the words from the error code to the flags would all be the same one
    have h0 : 0 = x.error := by
      have hcode := congrArg cpu_status.error_code hframe
      simpa [Moment.status, herr] using hcode
    have h1 : x.error = x.cpu.rip := congrArg cpu_status.iret_rip hframe
    have h2 : x.cpu.rip = x.cpu.cs := congrArg cpu_status.iret_cs hframe
    have h3 : x.cpu.cs = x.cpu.rflags := congrArg cpu_status.iret_flags hframe
    have hreserved := x.reserved
    rw [← h3, ← h2, ← h1, ← h0] at hreserved
    revert hreserved
    decide
  · intro hv
    have hright : x.vector ∉ MISSED := hv
    obtain ⟨hregs, hrip, hflags⟩ := exit_cpu hs ret hright
    refine ⟨?_, hregs, hrip, hflags⟩
    rw [entry_status, Moment.seen, if_neg hright]

/-- A handler that returns at once. -/
def no_work : Handler where
  run c := c.set .rsp (c.regs .rsp + 8)
  saved c r hr := by
    rw [set_regs, if_neg]
    rintro rfl
    revert hr
    decide
  rsp c := by simp
  frame _ _ _ := rfl

/-- A double fault at 1 MiB, in the kernel. -/
def double_fault : Moment where
  cpu := { regs := fun _ => 0x9000, rip := 0x100000, rflags := 0x202, cs := 8, ss := 16,
           mem := fun _ => 0 }
  vector := 8
  error := 0
  top := 0x9000
  reserved := by decide

/-- The handler of a double fault sees the error code, which is zero, in the place of `rip`. -/
theorem a_double_fault_is_not_transparent :
    ¬ Transparent double_fault { list_of_handlers := fun _ => none, note := no_work } 0 := by
  intro ht
  have hframe := ht.frame
  rw [entry_status] at hframe
  have hrip : (0 : UInt64) = 0x100000 := congrArg cpu_status.iret_rip hframe
  revert hrip
  decide

end salsola.interrupts
