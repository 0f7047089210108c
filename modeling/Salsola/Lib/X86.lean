-- A small x86-64 machine for hand-written routines: registers, a stack, calls,
-- and address spaces that `cr3` selects. The addresses from `split` on are
-- the same memory in each address space, and those below belong to one.
import Salsola.Lib.Memory
import Mathlib.Logic.Function.Basic
import Mathlib.Data.List.Nodup

open memory

namespace x86

inductive Reg
  | rax | rbx | rcx | rdx | rsi | rdi | rbp | rsp
  | r8 | r9 | r10 | r11 | r12 | r13 | r14 | r15
deriving DecidableEq, Repr

/-- The operand `i` of a label is the number of an instruction. -/
inductive Instr
  | mov (d s : Reg)
  | imm (d : Reg) (v : UInt64)
  | label (d : Reg) (i : Nat)
  | load (d base : Reg) (off : UInt64)
  | store (base : Reg) (off : UInt64) (s : Reg)
  | push (s : Reg)
  | pop (d : Reg)
  | add (d : Reg) (v : UInt64)
  | get_cr3 (d : Reg)
  | set_cr3 (s : Reg)
  | cmp (a b : Reg)
  | sti
  | je (i : Nat)
  | call (i : Nat)
  /-- A call of a procedure that is no part of the code. -/
  | call_c
  | ret
deriving DecidableEq, Repr

structure Machine where
  regs : Reg → UInt64
  cr3 : UInt64
  rip : UInt64
  zf : Bool
  shared : Mem
  /-- The memory below `split` of each address space. -/
  own : UInt64 → Mem

/-- The code stands from `text` on, and each instruction takes one address. `callee` takes the
machine from the call of a procedure to its return. -/
structure Setup where
  split : Nat
  text : UInt64
  code : List Instr
  callee : Machine → Machine

/-- The number in the 8 bytes from `a` on. -/
def word (mem : Mem) (a : Nat) : UInt64 := UInt64.ofNat (read mem a 8)

def Machine.set (m : Machine) (r : Reg) (v : UInt64) : Machine :=
  { m with regs := Function.update m.regs r v }

def Setup.load (S : Setup) (m : Machine) (a : UInt64) : UInt64 :=
  if S.split ≤ a.toNat then word m.shared a.toNat else word (m.own m.cr3) a.toNat

def Setup.store (S : Setup) (m : Machine) (a v : UInt64) : Machine :=
  if S.split ≤ a.toNat then { m with shared := write m.shared a.toNat 8 v.toNat }
  else { m with own := Function.update m.own m.cr3 (write (m.own m.cr3) a.toNat 8 v.toNat) }

/-- The address of instruction `i`. -/
def Setup.at (S : Setup) (i : Nat) : UInt64 := S.text + UInt64.ofNat i

def Setup.push (S : Setup) (m : Machine) (v : UInt64) : Machine :=
  let a := m.regs .rsp - 8
  S.store (m.set .rsp a) a v

/-- The machine after a `ret`. -/
def Setup.back (S : Setup) (m : Machine) : Machine :=
  { m.set .rsp (m.regs .rsp + 8) with rip := S.load m (m.regs .rsp) }

/-- What an instruction does that is no jump. -/
def Setup.effect (S : Setup) (m : Machine) : Instr → Machine
  | .mov d s => m.set d (m.regs s)
  | .imm d v => m.set d v
  | .label d i => m.set d (S.at i)
  | .load d base off => m.set d (S.load m (m.regs base + off))
  | .store base off s => S.store m (m.regs base + off) (m.regs s)
  | .push s => S.push m (m.regs s)
  | .pop d => (m.set .rsp (m.regs .rsp + 8)).set d (S.load m (m.regs .rsp))
  | .add d v => m.set d (m.regs d + v)
  | .get_cr3 d => m.set d m.cr3
  | .set_cr3 s => { m with cr3 := m.regs s }
  | .cmp a b => { m with zf := m.regs a = m.regs b }
  | _ => m

/-- Runs a routine up to its `ret`, `depth` calls deep. -/
def Setup.routine (S : Setup) : Nat → Nat → Machine → Option Machine
  | 0, _, _ => none
  | fuel + 1, depth, m =>
    match S.code[(m.rip - S.text).toNat]? with
    | none => none
    | some .ret =>
      if depth = 0 then some (S.back m) else routine S fuel (depth - 1) (S.back m)
    | some (.call i) => routine S fuel (depth + 1) { S.push m (m.rip + 1) with rip := S.at i }
    | some .call_c => routine S fuel depth (S.callee (S.push m (m.rip + 1)))
    | some (.je i) => routine S fuel depth { m with rip := if m.zf then S.at i else m.rip + 1 }
    | some i => routine S fuel depth { S.effect m i with rip := m.rip + 1 }

/-! ## Registers and memory -/

variable {S : Setup} {m m' : Machine} {r r' : Reg} {v a : UInt64} {i k n fuel depth : Nat}
  {mem mem' : Mem} {vs : List UInt64} {rs : List Reg}

@[simp] theorem set_regs (m : Machine) (r : Reg) (v : UInt64) (r' : Reg) :
    (m.set r v).regs r' = if r' = r then v else m.regs r' := by
  unfold Machine.set Function.update
  simp

@[simp] theorem set_cr3 : (m.set r v).cr3 = m.cr3 := rfl

@[simp] theorem set_rip : (m.set r v).rip = m.rip := rfl

@[simp] theorem set_zf : (m.set r v).zf = m.zf := rfl

@[simp] theorem set_shared : (m.set r v).shared = m.shared := rfl

@[simp] theorem set_own : (m.set r v).own = m.own := rfl

@[simp] theorem store_regs : (S.store m a v).regs = m.regs := by
  unfold Setup.store
  split <;> rfl

@[simp] theorem store_cr3 : (S.store m a v).cr3 = m.cr3 := by
  unfold Setup.store
  split <;> rfl

@[simp] theorem back_regs : (S.back m).regs r = if r = .rsp then m.regs .rsp + 8 else m.regs r :=
  set_regs m .rsp _ r

@[simp] theorem back_shared : (S.back m).shared = m.shared := rfl

@[simp] theorem back_own : (S.back m).own = m.own := rfl

@[simp] theorem back_cr3 : (S.back m).cr3 = m.cr3 := rfl

theorem back_rip : (S.back m).rip = S.load m (m.regs .rsp) := rfl

theorem store_shared (h : S.split ≤ a.toNat) :
    S.store m a v = { m with shared := write m.shared a.toNat 8 v.toNat } := if_pos h

theorem store_own (h : a.toNat < S.split) : S.store m a v =
    { m with own := Function.update m.own m.cr3 (write (m.own m.cr3) a.toNat 8 v.toNat) } :=
  if_neg (Nat.not_le_of_lt h)

theorem load_shared (h : S.split ≤ a.toNat) : S.load m a = word m.shared a.toNat := if_pos h

theorem load_own (h : a.toNat < S.split) : S.load m a = word (m.own m.cr3) a.toNat :=
  if_neg (Nat.not_le_of_lt h)

theorem word_write_self (mem : Mem) (a : Nat) (v : UInt64) :
    word (write mem a 8 v.toNat) a = v := by
  unfold word
  rw [read_write_self _ _ _ _ v.toNat_lt, UInt64.ofNat_toNat]

theorem word_write_other (mem : Mem) (v : Nat) {a b : Nat} (h : b + 8 ≤ a ∨ a + 8 ≤ b) :
    word (write mem a 8 v) b = word mem b := by
  unfold word
  rw [read_write_other _ _ h]

theorem word_congr {a : Nat} (h : Agree mem mem' a (a + 8)) : word mem' a = word mem a := by
  unfold word
  rw [read_congr h]

/-! ## Code in a row -/

/-- An instruction that is no jump. -/
def Instr.Plain : Instr → Prop
  | .je _ | .call _ | .call_c | .ret => False
  | _ => True

/-- The instructions in a row. -/
def Setup.seq (S : Setup) (m : Machine) (is : List Instr) : Machine := is.foldl S.effect m

theorem seq_append (m : Machine) (is js : List Instr) :
    S.seq m (is ++ js) = S.seq (S.seq m is) js := List.foldl_append

theorem seq_cons (m : Machine) (i : Instr) (is : List Instr) :
    S.seq m (i :: is) = S.seq (S.effect m i) is := rfl

theorem at_succ (i : Nat) : S.at i + 1 = S.at (i + 1) := by
  unfold Setup.at
  rw [UInt64.add_assoc, UInt64.ofNat_add]
  rfl

theorem fetch_at (hi : i < 2 ^ 64) : (S.at i - S.text).toNat = i := by
  unfold Setup.at
  rw [UInt64.add_comm, UInt64.add_sub_cancel, UInt64.toNat_ofNat', Nat.mod_eq_of_lt hi]

/-- No instruction in a row looks at `rip`. -/
theorem effect_rip (m : Machine) (ins : Instr) (x : UInt64) :
    S.effect { m with rip := x } ins = { S.effect m ins with rip := x } := by
  have hstore : ∀ (m : Machine) (a v : UInt64),
      S.store { m with rip := x } a v = { S.store m a v with rip := x } := by
    intro m a v
    unfold Setup.store
    split <;> rfl
  cases ins with
  | push s => exact hstore (m.set .rsp (m.regs .rsp - 8)) _ _
  | store base off s => exact hstore m _ _
  | _ => rfl

theorem seq_rip (m : Machine) (is : List Instr) (x : UInt64) :
    S.seq { m with rip := x } is = { S.seq m is with rip := x } := by
  induction is generalizing m with
  | nil => rfl
  | cons ins is ih => rw [seq_cons, effect_rip, ih, seq_cons]

/-- A routine runs the instructions in a row, up to the next jump. -/
theorem routine_seq (fuel depth : Nat) (is rest : List Instr) (hplain : ∀ ins ∈ is, ins.Plain)
    (hcode : S.code.drop k = is ++ rest) (hk : k + is.length < 2 ^ 64) (hrip : m.rip = S.at k) :
    S.routine (fuel + is.length) depth m =
      S.routine fuel depth { S.seq m is with rip := S.at (k + is.length) } := by
  induction is generalizing k m with
  | nil =>
    rw [List.length_nil, Nat.add_zero, Nat.add_zero, ← hrip]
    rfl
  | cons ins is ih =>
    have hfetch : S.code[k]? = some ins := by
      have hhead := congrArg (fun l => l[0]?) hcode
      simpa using hhead
    have hrest : S.code.drop (k + 1) = is ++ rest := by
      have htail := congrArg (List.drop 1) hcode
      simpa [List.drop_drop] using htail
    rw [List.length_cons] at hk ⊢
    have hstep : S.routine (fuel + (is.length + 1)) depth m =
        S.routine (fuel + is.length) depth { S.effect m ins with rip := m.rip + 1 } := by
      have hins := hplain ins List.mem_cons_self
      rw [← Nat.add_assoc, Setup.routine, hrip, fetch_at (by omega), hfetch]
      cases ins <;> first | rfl | exact hins.elim
    have hlen : k + 1 + is.length = k + (is.length + 1) := by omega
    rw [hstep, ih (fun ins h => hplain ins (List.mem_cons_of_mem _ h)) hrest (by omega)
      (by rw [hrip]; exact at_succ k), seq_rip, seq_cons, hlen]

/-- More fuel changes nothing. -/
theorem routine_fuel (h : S.routine fuel depth m = some m') (extra : Nat) :
    S.routine (fuel + extra) depth m = some m' := by
  induction fuel generalizing depth m with
  | zero => cases h
  | succ fuel ih =>
    rw [Nat.add_right_comm, Setup.routine]
    rw [Setup.routine] at h
    cases hins : S.code[(m.rip - S.text).toNat]? with
    | none =>
      rw [hins] at h
      cases h
    | some ins =>
      rw [hins] at h
      cases ins with
      | ret =>
        by_cases hdepth : depth = 0
        · simpa [hdepth] using h
        · simp only [if_neg hdepth] at h ⊢
          exact ih h
      | _ => exact ih h

/-! ## Jumps -/

theorem routine_ret (hk : k < 2 ^ 64) (hcode : S.code[k]? = some .ret) (hrip : m.rip = S.at k) :
    S.routine (fuel + 1) 0 m = some (S.back m) := by
  rw [Setup.routine, hrip, fetch_at hk, hcode]
  rfl

theorem routine_return (hk : k < 2 ^ 64) (hcode : S.code[k]? = some .ret) (hrip : m.rip = S.at k) :
    S.routine (fuel + 1) (depth + 1) m = S.routine fuel depth (S.back m) := by
  rw [Setup.routine, hrip, fetch_at hk, hcode]
  rfl

theorem routine_call (hk : k < 2 ^ 64) (hcode : S.code[k]? = some (.call i))
    (hrip : m.rip = S.at k) : S.routine (fuel + 1) depth m =
      S.routine fuel (depth + 1) { S.push m (S.at (k + 1)) with rip := S.at i } := by
  rw [Setup.routine, hrip, fetch_at hk, hcode, ← at_succ]

theorem routine_call_c (hk : k < 2 ^ 64) (hcode : S.code[k]? = some .call_c)
    (hrip : m.rip = S.at k) : S.routine (fuel + 1) depth m =
      S.routine fuel depth (S.callee (S.push m (S.at (k + 1)))) := by
  rw [Setup.routine, hrip, fetch_at hk, hcode, ← at_succ]

theorem routine_je (hk : k < 2 ^ 64) (hcode : S.code[k]? = some (.je i)) (hrip : m.rip = S.at k) :
    S.routine (fuel + 1) depth m =
      S.routine fuel depth { m with rip := if m.zf then S.at i else S.at (k + 1) } := by
  rw [Setup.routine, hrip, fetch_at hk, hcode, ← at_succ]

/-! ## The stack -/

/-- The words `vs` stand in a row from `a` on. -/
def Stacked (mem : Mem) (a : Nat) : List UInt64 → Prop
  | [] => True
  | v :: vs => word mem a = v ∧ Stacked mem (a + 8) vs

theorem stacked_cons {a : Nat} :
    Stacked mem a (v :: vs) ↔ word mem a = v ∧ Stacked mem (a + 8) vs := Iff.rfl

theorem stacked_append {a : Nat} {us : List UInt64} :
    Stacked mem a (us ++ vs) ↔ Stacked mem a us ∧ Stacked mem (a + 8 * us.length) vs := by
  induction us generalizing a with
  | nil => simp [Stacked]
  | cons u us ih =>
    have haddr : a + 8 + 8 * us.length = a + 8 * (us.length + 1) := by omega
    rw [List.cons_append, List.length_cons, stacked_cons, stacked_cons, ih, and_assoc, haddr]

/-- A push in the memory of an address space. -/
theorem push_own (h8 : 8 ≤ (m.regs .rsp).toNat) (hsp : (m.regs .rsp).toNat ≤ S.split) :
    S.push m v = { m.set .rsp (m.regs .rsp - 8) with
      own := Function.update m.own m.cr3
        (write (m.own m.cr3) ((m.regs .rsp).toNat - 8) 8 v.toNat) } := by
  have haddr : (m.regs .rsp - 8).toNat = (m.regs .rsp).toNat - 8 :=
    UInt64.toNat_sub_of_le _ _ (UInt64.le_iff_toNat_le.mpr h8)
  unfold Setup.push
  dsimp only
  rw [store_own (by rw [haddr]; omega), haddr]
  rfl

/-- What pushes do: the registers stand on the stack, the last one lowest. -/
theorem seq_pushes (rs : List Reg) (hrs : .rsp ∉ rs) (h8 : 8 * rs.length ≤ (m.regs .rsp).toNat)
    (hsp : (m.regs .rsp).toNat ≤ S.split) :
    ∃ mem rsp, rsp.toNat + 8 * rs.length = (m.regs .rsp).toNat ∧
      S.seq m (rs.map .push) = { m.set .rsp rsp with own := Function.update m.own m.cr3 mem } ∧
      Stacked mem rsp.toNat (rs.reverse.map m.regs) ∧
      ∀ x, x < rsp.toNat ∨ (m.regs .rsp).toNat ≤ x → mem x = m.own m.cr3 x := by
  induction rs generalizing m with
  | nil =>
    refine ⟨m.own m.cr3, m.regs .rsp, rfl, ?_, trivial, fun _ _ => rfl⟩
    unfold Machine.set
    simp [Setup.seq]
  | cons r rs ih =>
    rw [List.mem_cons, not_or] at hrs
    rw [List.length_cons] at h8
    have hpush := push_own (S := S) (m := m) (v := m.regs r) (by omega) hsp
    have haddr : (m.regs .rsp - 8).toNat = (m.regs .rsp).toNat - 8 :=
      UInt64.toNat_sub_of_le _ _ (UInt64.le_iff_toNat_le.mpr (by show 8 ≤ _; omega))
    generalize hm1 : S.push m (m.regs r) = m1 at hpush
    have hrsp : m1.regs .rsp = m.regs .rsp - 8 := by
      rw [hpush]
      simp
    have hother : ∀ r', r' ≠ .rsp → m1.regs r' = m.regs r' := by
      intro r' hr'
      rw [hpush]
      simp [hr']
    have hown : m1.own m1.cr3 =
        write (m.own m.cr3) ((m.regs .rsp).toNat - 8) 8 (m.regs r).toNat := by
      rw [hpush]
      exact Function.update_self _ _ _
    obtain ⟨mem, rsp, hlow, hseq, hstack, hkeep⟩ := ih hrs.2 (m := m1)
      (by rw [hrsp, haddr]; omega) (by rw [hrsp, haddr]; omega)
    rw [hrsp, haddr] at hlow hkeep
    refine ⟨mem, rsp, by rw [List.length_cons]; omega, ?_, ?_, ?_⟩
    · rw [List.map_cons, seq_cons]
      show S.seq (S.push m (m.regs r)) _ = _
      rw [hm1, hseq, hpush]
      simp only [Machine.set, Function.update_idem]
    · have hregs : rs.reverse.map m1.regs = rs.reverse.map m.regs := by
        apply List.map_congr_left
        intro r' hr'
        apply hother
        rintro rfl
        exact hrs.2 (List.mem_reverse.mp hr')
      rw [List.reverse_cons, List.map_append, stacked_append, ← hregs]
      refine ⟨hstack, ?_, trivial⟩
      have hplace : rsp.toNat + 8 * (rs.reverse.map m1.regs).length = (m.regs .rsp).toNat - 8 := by
        rw [List.length_map, List.length_reverse]
        omega
      rw [hplace, word_congr (fun x hx _ => hkeep x (.inr hx) : Agree (m1.own m1.cr3) _ _ _),
        hown]
      exact word_write_self _ _ _
    · intro x hx
      rw [hkeep x (by omega), hown, write_outside _ _ _ (by omega)]

theorem seq_pops_memory (rs : List Reg) :
    (S.seq m (rs.map .pop)).own = m.own ∧ (S.seq m (rs.map .pop)).shared = m.shared ∧
      (S.seq m (rs.map .pop)).cr3 = m.cr3 := by
  induction rs generalizing m with
  | nil => exact ⟨rfl, rfl, rfl⟩
  | cons r rs ih => exact ih

theorem seq_pops_other (rs : List Reg) (hr : r ∉ rs) (hrsp : r ≠ .rsp) :
    (S.seq m (rs.map .pop)).regs r = m.regs r := by
  induction rs generalizing m with
  | nil => rfl
  | cons r' rs ih =>
    rw [List.mem_cons, not_or] at hr
    rw [List.map_cons, seq_cons, ih hr.2]
    simp [Setup.effect, hr.1, hrsp]

/-- What pops do: the registers take the words from the stack, the first one the lowest. -/
theorem seq_pops (rs : List Reg) (hrs : .rsp ∉ rs) (hnd : rs.Nodup)
    (hsp : (m.regs .rsp).toNat + 8 * rs.length ≤ S.split) (hsplit : S.split < 2 ^ 64)
    (hlen : vs.length = rs.length) (hstack : Stacked (m.own m.cr3) (m.regs .rsp).toNat vs) :
    ((S.seq m (rs.map .pop)).regs .rsp).toNat = (m.regs .rsp).toNat + 8 * rs.length ∧
      rs.map (S.seq m (rs.map .pop)).regs = vs := by
  induction rs generalizing m vs with
  | nil =>
    refine ⟨rfl, ?_⟩
    exact (List.length_eq_zero_iff.mp hlen).symm
  | cons r rs ih =>
    cases vs with
    | nil => cases hlen
    | cons v vs =>
      rw [List.mem_cons, not_or] at hrs
      rw [List.nodup_cons] at hnd
      rw [List.length_cons] at hsp
      have hadd : (m.regs .rsp + 8).toNat = (m.regs .rsp).toNat + 8 := by
        rw [UInt64.toNat_add]
        exact Nat.mod_eq_of_lt (by show _ + 8 < _; omega)
      have hrsp : (S.effect m (.pop r)).regs .rsp = m.regs .rsp + 8 := by
        simp [Setup.effect, hrs.1]
      have htop : (S.effect m (.pop r)).regs r = v := by
        simp only [Setup.effect, set_regs, if_true]
        rw [load_own (by omega)]
        exact hstack.1
      obtain ⟨hend, hregs⟩ := ih (m := S.effect m (.pop r)) hrs.2 hnd.2
        (by rw [hrsp, hadd]; omega) (Nat.succ.inj hlen) (by rw [hrsp, hadd]; exact hstack.2)
      rw [List.map_cons, seq_cons]
      refine ⟨?_, ?_⟩
      · rw [hend, hrsp, hadd, List.length_cons]
        omega
      · rw [List.map_cons, hregs, seq_pops_other rs hnd.1 (fun he => hrs.1 he.symm), htop]

end x86
