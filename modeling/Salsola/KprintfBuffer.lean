-- ksnprintf: what the writer leaves in the buffer, and when this is what a
-- caller of ksnprintf expects.
import Salsola.KprintfLaws
import Mathlib.Data.List.Induction

open scanner

namespace salsola.kprintf

/-- A writer that keeps what it is given. -/
def log (s : Str) (c : UInt8) : Str := s ++ [c]

/-- The full output, with the count that comes back. -/
def printed (around : Int → UInt8) (fmt : Str) (args : List Arg) :
    EStateM.Result Trap (Env Str) Int :=
  vkcprintf log around fmt { ctx := [], args, reads := [] }

variable {σ α β : Type} {around : Int → UInt8} {behind : Nat → UInt8} {v v' : Vars}
  {fmt : Str} {args : List Arg}

theorem foldl_log (cs s : Str) : cs.foldl log s = s ++ cs := by
  induction cs generalizing s with
  | nil => exact (List.append_nil s).symm
  | cons c cs ih =>
    rw [List.foldl_cons, ih]
    exact List.append_assoc s [c] cs

/-! ## The count -/

/-- What the program returns fits the number of characters that it writes. -/
def Counts (P : Nat → α → Prop) (p : Print Str α) : Prop :=
  ∀ e a e', p e = .ok a e' → ∃ cs, e'.ctx = e.ctx ++ cs ∧ P cs.length a

theorem counts_pure {P : Nat → α → Prop} {a : α} (h : P 0 a) : Counts P (pure a) := by
  intro e a' e' heq
  cases heq
  exact ⟨[], (List.append_nil _).symm, h⟩

theorem Counts.bind {P : Nat → α → Prop} {Q : Nat → β → Prop} {p : Print Str α}
    {f : α → Print Str β} (h : Counts P p)
    (hf : ∀ m a, P m a → Counts (fun k b => Q (m + k) b) (f a)) : Counts Q (p >>= f) := by
  intro e b e' heq
  obtain ⟨a, e1, hp, hfa⟩ := bind_eq_ok.mp heq
  obtain ⟨cs, hcs, hP⟩ := h e a e1 hp
  obtain ⟨ds, hds, hQ⟩ := hf _ a hP e1 b e' hfa
  refine ⟨cs ++ ds, ?_, ?_⟩
  · rw [hds, hcs, List.append_assoc]
  · rw [List.length_append]
    exact hQ

/-- A program that writes nothing. -/
abbrev Silent (p : Print Str α) : Prop := Counts (fun m _ => m = 0) p

theorem Silent.bind {Q : Nat → β → Prop} {p : Print Str α} {f : α → Print Str β} (h : Silent p)
    (hf : ∀ a, Counts Q (f a)) : Counts Q (p >>= f) := by
  refine Counts.bind h ?_
  rintro m a rfl
  simpa only [Nat.zero_add] using hf a

theorem silent_must (p : Prop) [Decidable p] : Silent (must p : Print Str Unit) := by
  intro e a e' h
  obtain ⟨-, rfl⟩ := must_eq_ok.mp h
  exact ⟨[], (List.append_nil _).symm, rfl⟩

theorem silent_va_arg (t : CType) : Silent (va_arg t : Print Str t.Value) := by
  intro e a e' h
  unfold va_arg at h
  dsimp only at h
  split at h
  · cases h
  · split at h
    · cases h
    · cases h
      exact ⟨[], (List.append_nil _).symm, rfl⟩

theorem silent_parse_loop (i : Nat) (rc : Int) (s : Str) :
    Silent (parse_loop i rc s : Print Str (Int × Nat)) := by
  induction s generalizing i rc with
  | nil => exact counts_pure rfl
  | cons c s ih =>
    unfold parse_loop
    split
    · exact (silent_must _).bind fun _ => counts_pure rfl
    · split
      · exact counts_pure rfl
      · exact ih _ _

theorem counts_put (cs : Str) : Counts (fun m _ => m = cs.length) (put log cs) := by
  intro e a e' h
  cases h
  exact ⟨cs, foldl_log cs e.ctx, rfl⟩

theorem counts_print_str (str : Str) (width : Int) (zero_padding right_padding : Bool) :
    Counts (fun m n => n = to_int m) (print_str log str width zero_padding right_padding) := by
  unfold print_str
  cases right_padding with
  | false =>
    apply (counts_put _).bind
    rintro _ _ rfl
    apply (counts_put _).bind
    rintro _ _ rfl
    apply counts_pure
    rw [List.length_reverse, Nat.add_zero, Int.natCast_add]
  | true =>
    apply (counts_put _).bind
    rintro _ _ rfl
    apply (counts_put _).bind
    rintro _ _ rfl
    apply counts_pure
    rw [List.length_reverse, Nat.add_zero, Int.natCast_add, Int.add_comm]

theorem counts_print_num (n base : Int) (char_set : Int → UInt8) (width : Int)
    (zero_padding right_padding : Bool) :
    Counts (fun m n => n = to_int m)
      (print_num log n base char_set width zero_padding right_padding) :=
  counts_print_str _ _ _ _

theorem counts_print_unum (n : UInt64) (base : Int) (char_set : Int → UInt8) (width : Int)
    (zero_padding right_padding : Bool) :
    Counts (fun m n => n = to_int m)
      (print_unum log n base char_set width zero_padding right_padding) :=
  counts_print_str _ _ _ _

theorem counts_print_string (s : Str) (width : Int) (right_padding : Bool) (precision : Int) :
    Counts (fun m n => n = to_int m) (print_string log s width right_padding precision) := by
  have hleft : ∀ pad : Str, Counts (fun m n => n = to_int m) (do
      put log pad
      put log (shown s precision)
      pure (to_int ((shown s precision).length + pad.length))) := by
    intro pad
    apply (counts_put _).bind
    rintro _ _ rfl
    apply (counts_put _).bind
    rintro _ _ rfl
    apply counts_pure
    rw [Nat.add_zero, Int.natCast_add, Int.add_comm]
  unfold print_string
  cases right_padding with
  | false =>
    by_cases hwidth : width ≠ 0
    · simp only [Bool.not_false, if_true, if_pos hwidth]
      exact (silent_must _).bind fun _ => hleft _
    · simp only [Bool.not_false, if_true, if_neg hwidth]
      exact hleft _
  | true =>
    apply (counts_put _).bind
    rintro _ _ rfl
    refine Counts.bind (silent_must _) ?_
    rintro _ _ rfl
    apply (counts_put _).bind
    rintro _ _ rfl
    apply counts_pure
    rw [Nat.zero_add, Nat.add_zero, Int.natCast_add]

/-- A turn adds the characters that it writes. -/
abbrev Adds (v : Vars) : Print Str (Vars × Nat) → Prop :=
  Counts (fun m r => r.1.rc = to_int (v.rc + m))

theorem adds_done {t : CType} {f : t.Value → Print Str Int}
    (hf : ∀ a, Counts (fun m n => n = to_int m) (f a)) (v w : Vars) (hw : w.rc = v.rc)
    (close : Vars → Vars) (hclose : ∀ v : Vars, (close v).rc = v.rc) :
    Adds v (do
      let a ← va_arg t
      let k ← f a
      pure (close (w.done k), 0)) := by
  apply (silent_va_arg t).bind
  intro a
  apply (hf a).bind
  intro m k hk
  apply counts_pure
  rw [hclose, Nat.add_zero]
  show to_int (w.rc + k) = _
  rw [hk, to_int_add_right, hw]

theorem adds_same {v w : Vars} {k : Nat} (hv : to_int v.rc = v.rc) (hw : w.rc = v.rc) :
    Adds v (pure (w, k)) := by
  apply counts_pure
  rw [Int.natCast_zero, Int.add_zero, hv]
  exact hw

theorem adds_directive (hv : to_int v.rc = v.rc) (c : UInt8) (rest : Str) :
    Adds v (directive log around v c rest) := by
  have hint := fun a width zero_padding right_padding =>
    counts_print_num a 10 (char_set (chars "0123456789") around) width zero_padding right_padding
  unfold directive
  cases case_of c with
  | period =>
    apply (silent_must _).bind
    intro _
    apply (silent_parse_loop _ _ _).bind
    rintro ⟨precision, k⟩
    apply (silent_must _).bind
    intro _
    split
    · apply (silent_va_arg _).bind
      intro _
      exact adds_same hv rfl
    · exact adds_same hv rfl
  | zero => exact adds_same hv rfl
  | minus => exact (silent_must _).bind fun _ => adds_same hv rfl
  | digit => exact adds_same hv rfl
  | l => exact (silent_must _).bind fun _ => adds_same hv rfl
  | d =>
    have hrc : v.precise.rc = v.rc := by
      unfold Vars.precise
      split <;> rfl
    dsimp only
    split
    · exact adds_done (fun a => hint _ _ _ _) v v.precise hrc (fun v => { v with long_level := 0 })
        (fun _ => rfl)
    · exact adds_done (fun a => hint _ _ _ _) v v.precise hrc (fun v => { v with long_level := 0 })
        (fun _ => rfl)
  | u =>
    apply (silent_must _).bind
    intro _
    split
    · exact adds_done (fun a => hint _ _ _ _) v v rfl id (fun _ => rfl)
    · exact adds_done (fun a => hint _ _ _ _) v v rfl id (fun _ => rfl)
  | s =>
    apply (silent_must _).bind
    intro _
    exact adds_done (fun a => counts_print_string _ _ _ _) v v rfl id (fun _ => rfl)
  | x =>
    apply (silent_must _).bind
    intro _
    exact adds_done (fun a => counts_print_unum _ _ _ _ _ _) v v rfl id (fun _ => rfl)
  | o =>
    apply (silent_must _).bind
    intro _
    exact adds_done (fun a => counts_print_num _ _ _ _ _ _) v v rfl id (fun _ => rfl)
  | percent =>
    apply (counts_put _).bind
    rintro _ _ rfl
    exact counts_pure rfl
  | c =>
    apply (silent_va_arg _).bind
    intro _
    apply (counts_put _).bind
    rintro _ _ rfl
    exact counts_pure rfl
  | default =>
    intro e a e' h
    cases h

theorem adds_turn (hv : to_int v.rc = v.rc) (c : UInt8) (rest : Str) :
    Adds v (turn log around v c rest) := by
  unfold turn
  split
  · apply (counts_put _).bind
    rintro _ _ rfl
    exact counts_pure rfl
  · split
    · exact adds_same hv rfl
    · apply (adds_directive hv c rest).bind
      rintro m ⟨w, k⟩ hw
      apply counts_pure
      have hclose : w.close.rc = w.rc := by
        unfold Vars.close
        split <;> rfl
      rw [hclose, Nat.add_zero]
      exact hw

/-- `rc` counts the characters, as an `int`. -/
theorem counts_scan (hv : to_int v.rc = v.rc) (k : Nat) (cs : Str) :
    Counts (fun m w => w.rc = to_int (v.rc + m)) (scan (turn log around) v k cs) := by
  induction cs generalizing v k with
  | nil =>
    rw [scan_nil]
    apply counts_pure
    rw [Int.natCast_zero, Int.add_zero, hv]
  | cons c cs ih =>
    cases k with
    | succ k => exact ih hv k
    | zero =>
      rw [scan_cons]
      apply (adds_turn hv c cs).bind
      rintro m ⟨w, j⟩ hw
      have hw' : to_int w.rc = w.rc := by
        rw [hw]
        unfold to_int
        exact Int.bmod_bmod
      intro e w' e' h
      obtain ⟨ds, hds, hrc⟩ := ih hw' j e w' e' h
      refine ⟨ds, hds, ?_⟩
      dsimp only at hw ⊢
      rw [hrc, hw, to_int_add_left, Int.natCast_add, Int.add_assoc]

theorem printed_count {n : Int} {e : Env Str} (h : printed around fmt args = .ok n e) :
    n = to_int e.ctx.length := by
  obtain ⟨w, e1, hscan, hrc⟩ := bind_eq_ok.mp h
  cases hrc
  obtain ⟨cs, hcs, hw⟩ := counts_scan (v := start) rfl 0 fmt _ _ _ hscan
  rw [hw, hcs]
  exact congrArg to_int (Int.zero_add _)

/-! ## The buffer -/

/-- The size that the writer sees. -/
def cut (size : UInt64) : Int := to_int size.toNat

theorem cut_range (size : UInt64) : -2 ^ 31 ≤ cut size ∧ cut size < 2 ^ 31 := by
  unfold cut to_int Int.bmod
  dsimp only
  split <;> omega

/-- As an `int` a size stays as it is, or it is less by 2^32 at least. One that turns negative
leaves `k` at least as large as the size. -/
theorem cut_le (size : UInt64) :
    (cut size = size.toNat ∨ cut size + 2 ^ 32 ≤ size.toNat) ∧
      (cut size < 0 → (size.toNat : Int) ≤ cut size + 2 ^ 64) := by
  have hsize := size.toNat_lt
  unfold cut to_int Int.bmod
  dsimp only
  split <;> omega

/-- What the writer leaves of `buffer` after the characters `cs`, from a size of `n`. -/
structure Filled (buffer : Nat → UInt8) (n : Nat) (cs : Str) (ctx : SnContext) : Prop where
  out : ctx.out = min cs.length n
  size : ctx.size = n - min cs.length n
  copied : ∀ i, i < min cs.length n → ctx.buffer i = cs.getD i 0
  ended : cs ≠ [] → ctx.buffer (min cs.length n) = 0
  kept : ∀ i, min cs.length n < i ∨ cs = [] → ctx.buffer i = buffer i
  inside : ∀ w ∈ ctx.written, cs ≠ [] ∧ w.1 + w.2 ≤ min cs.length n + 1
  last : cs ≠ [] → (min cs.length n, 1) ∈ ctx.written

theorem sn_write_room (behind : Nat → UInt8) {ctx : SnContext} (c : UInt8) (h : 1 ≤ ctx.size)
    (hsize : ctx.size < 2 ^ 31) :
    sn_write behind ctx c = {
      buffer := Function.update (Function.update ctx.buffer ctx.out c) (ctx.out + 1) 0
      out := ctx.out + 1
      size := ctx.size - 1
      written := (ctx.out + 1, 1) :: (ctx.out, 1) :: ctx.written } := by
  have hk : (min 1 ctx.size % 2 ^ 64).toNat = 1 := by omega
  have hcut : to_int (ctx.size - (1 : Nat)) = ctx.size - 1 := by
    unfold to_int Int.bmod
    dsimp only
    split <;> omega
  have hcopy : (fun i => if ctx.out ≤ i ∧ i < ctx.out + 1 then
      if i = ctx.out then c else behind (i - ctx.out) else ctx.buffer i) =
      Function.update ctx.buffer ctx.out c := by
    funext i
    by_cases hi : i = ctx.out
    · rw [hi, Function.update_self, if_pos ⟨Nat.le_refl _, Nat.lt_succ_self _⟩, if_pos rfl]
    · rw [Function.update_of_ne hi, if_neg (by omega)]
  unfold sn_write SnContext.memcpy
  rw [hk]
  dsimp only
  rw [hcut, hcopy]

theorem sn_write_full (behind : Nat → UInt8) {ctx : SnContext} (c : UInt8) (h : ctx.size = 0) :
    sn_write behind ctx c = {
      buffer := Function.update ctx.buffer ctx.out 0
      out := ctx.out
      size := 0
      written := (ctx.out, 1) :: (ctx.out, 0) :: ctx.written } := by
  have hk : (min 1 ctx.size % 2 ^ 64).toNat = 0 := by omega
  have hcopy : (fun i => if ctx.out ≤ i ∧ i < ctx.out + 0 then
      if i = ctx.out then c else behind (i - ctx.out) else ctx.buffer i) = ctx.buffer := by
    funext i
    exact if_neg (by omega)
  unfold sn_write SnContext.memcpy
  rw [hk]
  dsimp only
  rw [hcopy, h]
  rfl

theorem sn_start_out (buffer : Nat → UInt8) (n : Int) : (sn_start buffer n).out = 0 := rfl

theorem sn_start_size (buffer : Nat → UInt8) (n : Int) : (sn_start buffer n).size = n := rfl

theorem filled_nil (buffer : Nat → UInt8) (n : Nat) :
    Filled buffer n [] (sn_start buffer n) where
  out := (Nat.zero_min n).symm
  size := by simp [sn_start]
  copied := by simp
  ended := fun h => absurd rfl h
  kept := fun _ _ => rfl
  inside := by simp [sn_start]
  last := fun h => absurd rfl h

theorem getD_concat (cs : Str) (c : UInt8) {i : Nat} (h : i < cs.length) :
    (cs ++ [c]).getD i 0 = cs.getD i 0 := by
  simp [List.getD, List.getElem?_append_left h]

theorem Filled.write {buffer : Nat → UInt8} {n : Nat} {cs : Str} {ctx : SnContext}
    (h : Filled buffer n cs ctx) (hn : n < 2 ^ 31) (behind : Nat → UInt8) (c : UInt8) :
    Filled buffer n (cs ++ [c]) (sn_write behind ctx c) := by
  have hlen : (cs ++ [c]).length = cs.length + 1 := List.length_append
  have hne : cs ++ [c] ≠ [] := List.append_ne_nil_of_right_ne_nil _ (List.cons_ne_nil _ _)
  have hsize := h.size
  have hout := h.out
  have hinside := h.inside
  have hcopied := h.copied
  by_cases hroom : cs.length < n
  · have hmin : min cs.length n = cs.length := by omega
    have hmin' : min (cs.length + 1) n = cs.length + 1 := by omega
    rw [hmin] at hsize hout hinside hcopied
    rw [sn_write_room behind c (by omega) (by omega), hout]
    constructor
    · rw [hlen, hmin']
    · rw [hlen, hmin', hsize]
      push_cast
      omega
    · intro i hi
      rw [hlen, hmin'] at hi
      dsimp only
      rw [Function.update_of_ne (by omega)]
      by_cases hlast : i = cs.length
      · rw [hlast, Function.update_self]
        simp
      · rw [Function.update_of_ne hlast, hcopied i (by omega), getD_concat cs c (by omega)]
    · intro _
      rw [hlen, hmin']
      exact Function.update_self _ _ _
    · intro i hi
      rw [hlen, hmin'] at hi
      have hlt : cs.length + 1 < i := hi.resolve_right hne
      dsimp only
      rw [Function.update_of_ne (by omega), Function.update_of_ne (by omega)]
      exact h.kept i (.inl (by omega))
    · intro w hw
      rw [hlen, hmin']
      rw [List.mem_cons, List.mem_cons] at hw
      rcases hw with rfl | rfl | hw
      · exact ⟨hne, Nat.le_refl _⟩
      · exact ⟨hne, Nat.le_succ _⟩
      · exact ⟨hne, Nat.le_succ_of_le (hinside w hw).2⟩
    · intro _
      rw [hlen, hmin']
      exact List.mem_cons_self
  · have hmin : min cs.length n = n := by omega
    have hmin' : min (cs.length + 1) n = n := by omega
    rw [hmin] at hsize hout hinside hcopied
    rw [sn_write_full behind c (by omega), hout]
    constructor
    · rw [hlen, hmin']
    · rw [hlen, hmin']
      dsimp only
      omega
    · intro i hi
      rw [hlen, hmin'] at hi
      dsimp only
      rw [Function.update_of_ne (by omega), hcopied i hi, getD_concat cs c (by omega)]
    · intro _
      rw [hlen, hmin']
      exact Function.update_self _ _ _
    · intro i hi
      rw [hlen, hmin'] at hi
      have hlt : n < i := hi.resolve_right hne
      dsimp only
      rw [Function.update_of_ne (by omega)]
      exact h.kept i (.inl (by omega))
    · intro w hw
      rw [hlen, hmin']
      rw [List.mem_cons, List.mem_cons] at hw
      rcases hw with rfl | rfl | hw
      · exact ⟨hne, Nat.le_refl _⟩
      · exact ⟨hne, Nat.le_succ _⟩
      · exact ⟨hne, (hinside w hw).2⟩
    · intro _
      rw [hlen, hmin']
      exact List.mem_cons_self

theorem filled_foldl (buffer : Nat → UInt8) {n : Nat} (hn : n < 2 ^ 31) (behind : Nat → UInt8)
    (cs : Str) : Filled buffer n cs
      (cs.foldl (sn_write behind) (sn_start buffer n)) := by
  induction cs using List.reverseRecOn with
  | nil => exact filled_nil buffer n
  | append_singleton cs c ih =>
    rw [List.foldl_append]
    exact ih.write hn behind c

/-- A range that was written stays in the list. -/
theorem written_foldl (behind : Nat → UInt8) (cs : Str) {ctx : SnContext} {w : Nat × Nat}
    (h : w ∈ ctx.written) : w ∈ (cs.foldl (sn_write behind) ctx).written := by
  induction cs generalizing ctx with
  | nil => exact h
  | cons c cs ih =>
    apply ih
    exact List.mem_cons_of_mem _ (List.mem_cons_of_mem _ h)

/-- With a size that is negative as an `int`, the first character copies `k` bytes. -/
theorem written_negative (behind : Nat → UInt8) {cs : Str} {ctx : SnContext} (hcs : cs ≠ [])
    (hout : ctx.out = 0) (hsize : ctx.size < 0) (hlow : -2 ^ 31 ≤ ctx.size) :
    ∃ k : Nat, (k : Int) = ctx.size + 2 ^ 64 ∧
      (k, 1) ∈ (cs.foldl (sn_write behind) ctx).written := by
  obtain ⟨c, cs, rfl⟩ := List.exists_cons_of_ne_nil hcs
  obtain ⟨k, hk⟩ : ∃ k : Nat, ctx.size + 2 ^ 64 = k := Int.eq_ofNat_of_zero_le (by omega)
  have hcopies : (min 1 ctx.size % 2 ^ 64).toNat = k := by omega
  refine ⟨k, hk.symm, ?_⟩
  rw [List.foldl_cons]
  apply written_foldl
  unfold sn_write SnContext.memcpy
  rw [hcopies]
  dsimp only
  rw [hout, Nat.zero_add]
  exact List.mem_cons_self

/-! ## The contract -/

/-- What a caller expects of `ksnprintf` with a buffer of `size` bytes, for the output `full`. -/
structure Contract (size : Nat) (full : Str) (r : EStateM.Result Trap (Env SnContext) Int) :
    Prop where
  returns : value r = .ok (full.length : Int)
  inside : ∀ w ∈ (last r).ctx.written, ∀ i, w.1 ≤ i → i < w.1 + w.2 → i < size
  holds : 0 < size →
    (∀ i, i < min full.length (size - 1) → (last r).ctx.buffer i = full.getD i 0) ∧
      (last r).ctx.buffer (min full.length (size - 1)) = 0

/-- The buffer happened to hold what is cut off: a NUL in the output comes where the terminator
is written, and the rest of the output and its NUL stand behind it. -/
def Already (buffer : Nat → UInt8) (n size : Nat) (full : Str) : Prop :=
  n < full.length ∧ full.getD n 0 = 0 ∧
    (∀ i, n < i → i < min full.length (size - 1) → buffer i = full.getD i 0) ∧
    buffer (min full.length (size - 1)) = 0

/-- The output is shorter than the size, as an `int`. Or it is empty, or it is not shorter and the
size is 2^32 or more, and what is not written stands there before the call. -/
def Fits (buffer : Nat → UInt8) (size : UInt64) (full : Str) : Prop :=
  full.length < 2 ^ 31 ∧
    ((full = [] ∧ (size = 0 ∨ buffer 0 = 0)) ∨
      (full ≠ [] ∧ (full.length : Int) < cut size) ∨
      (full ≠ [] ∧ ∃ n : Nat, cut size = n ∧ n < size.toNat ∧
        (full.length = n ∨ Already buffer n size.toNat full)))

/-- A call with another writer does what the call with the log does, and writes its output. -/
theorem vkcprintf_writer {σ : Type} (write : σ → UInt8 → σ) (ctx : σ) (around : Int → UInt8)
    (fmt : Str) (args : List Arg) :
    vkcprintf write around fmt { ctx, args, reads := [] } =
      carry (Env.map (fun s : Str => s.foldl write ctx) []) id (printed around fmt args) := by
  have hwrites : Writes log write (fun s : Str => s.foldl write ctx) :=
    fun s c => List.foldl_append
  have hcarry := shifts_scan around hwrites [] 0 start 0 fmt { ctx := [], args, reads := [] }
  rw [show start.shift 0 = start by decide] at hcarry
  unfold printed vkcprintf
  rw [run_bind, run_bind]
  unfold vkcprintf_loop
  rw [show ({ ctx, args, reads := [] } : Env σ) = Env.map (fun s : Str => s.foldl write ctx) []
    { ctx := [], args, reads := [] } from rfl, hcarry]
  cases hscan : scan (turn log around) start 0 fmt { ctx := [], args, reads := [] } with
  | error trap e => rfl
  | ok w e =>
    obtain ⟨cs, -, hw⟩ := counts_scan (v := start) rfl 0 fmt _ _ _ hscan
    have hrc : (w.shift 0).rc = w.rc := by
      unfold Vars.shift
      rw [hw, to_int_add_right, Int.zero_add]
    exact congrArg (EStateM.Result.ok · _) hrc

theorem ksnprintf_eq {n : Int} {e : Env Str} (behind : Nat → UInt8) (buffer : Nat → UInt8)
    (size : UInt64) (h : printed around fmt args = .ok n e) :
    ksnprintf around behind buffer size fmt args = .ok (to_int e.ctx.length) {
      ctx := e.ctx.foldl (sn_write behind) (sn_start buffer (cut size))
      args := e.args
      reads := e.reads } := by
  have hrun := vkcprintf_writer (sn_write behind) (sn_start buffer (cut size)) around fmt args
  rw [h] at hrun
  rw [← printed_count h]
  exact hrun

theorem to_int_length {k : Nat} : to_int k = k ↔ k < 2 ^ 31 := by
  unfold to_int Int.bmod
  dsimp only
  split <;> omega

theorem filled_returns {full : Str} {ctx : SnContext} {args : List Arg} {reads : List CType}
    (hlen : full.length < 2 ^ 31) :
    value (.ok (to_int full.length) ⟨ctx, args, reads⟩ :
      EStateM.Result Trap (Env SnContext) Int) = .ok (full.length : Int) := by
  rw [to_int_length.mpr hlen]
  rfl

/-- Without output the buffer stays as it is. -/
theorem contract_nil (buffer : Nat → UInt8) (size : Nat) (n : Int) (args : List Arg)
    (reads : List CType) :
    Contract size [] (.ok (to_int 0) { ctx := sn_start buffer n, args, reads }) ↔
      size = 0 ∨ buffer 0 = 0 := by
  constructor
  · intro hcontract
    by_cases hsize : size = 0
    · exact .inl hsize
    · have hended := (hcontract.holds (Nat.pos_of_ne_zero hsize)).2
      rw [List.length_nil, Nat.zero_min] at hended
      exact .inr hended
  · intro hzero
    refine ⟨rfl, ?_, ?_⟩
    · intro w hw
      exact absurd hw List.not_mem_nil
    · intro hsize
      rw [List.length_nil, Nat.zero_min]
      refine ⟨fun i hi => absurd hi (Nat.not_lt_zero i), ?_⟩
      exact hzero.resolve_left (Nat.pos_iff_ne_zero.mp hsize)

/-- The terminator comes inside of the buffer, and so does the rest. -/
theorem Filled.inside_iff {buffer : Nat → UInt8} {n : Nat} {full : Str} {ctx : SnContext}
    (h : Filled buffer n full ctx) (size : Nat) (hne : full ≠ []) :
    (∀ w ∈ ctx.written, ∀ i, w.1 ≤ i → i < w.1 + w.2 → i < size) ↔ min full.length n < size := by
  constructor
  · intro hinside
    exact hinside _ (h.last hne) _ (Nat.le_refl _) (Nat.lt_succ_self _)
  · intro hend w hw i _ hi
    have := (h.inside w hw).2
    omega

/-- Behind the terminator the buffer is as it was. So what is cut off must have been there. -/
theorem Filled.cut_off {buffer : Nat → UInt8} {n size : Nat} {full : Str} {ctx : SnContext}
    (h : Filled buffer n full ctx) (hn : n < full.length) (hsize : n + 2 ≤ size) :
    ((∀ i, i < min full.length (size - 1) → ctx.buffer i = full.getD i 0) ∧
      ctx.buffer (min full.length (size - 1)) = 0) ↔ Already buffer n size full := by
  have hmin : min full.length n = n := by omega
  have hne : full ≠ [] := List.ne_nil_of_length_pos (by omega)
  have hcopied := h.copied
  have hended := h.ended hne
  have hkept := h.kept
  rw [hmin] at hcopied hended hkept
  unfold Already
  constructor
  · rintro ⟨hchars, hnul⟩
    refine ⟨hn, ?_, ?_, ?_⟩
    · rw [← hchars n (by omega), hended]
    · intro i h1 h2
      rw [← hkept i (.inl h1)]
      exact hchars i h2
    · rw [← hkept _ (.inl (by omega))]
      exact hnul
  · rintro ⟨-, hzero, hrest, hnul⟩
    refine ⟨?_, ?_⟩
    · intro i hi
      rcases Nat.lt_trichotomy i n with hlt | rfl | hgt
      · exact hcopied i hlt
      · rw [hended, hzero]
      · rw [hkept i (.inl hgt)]
        exact hrest i hgt hi
    · rw [hkept _ (.inl (by omega))]
      exact hnul

/-- With a size that is not negative as an `int`, the contract holds if the terminator comes inside
of the buffer and nothing is cut off, or what is cut off stands there. -/
theorem Filled.contract {buffer : Nat → UInt8} {n size : Nat} {full : Str}
    {ctx : SnContext} {args : List Arg} {reads : List CType} (h : Filled buffer n full ctx)
    (hsize : n = size ∨ n + 2 ≤ size) (hlen : full.length < 2 ^ 31) (hne : full ≠ []) :
    Contract size full (.ok (to_int full.length) { ctx, args, reads }) ↔
      full.length < n ∨ (n < size ∧ (full.length = n ∨ Already buffer n size full)) := by
  have hinside := h.inside_iff size hne
  constructor
  · intro hcontract
    have hend := hinside.mp hcontract.inside
    rcases Nat.lt_trichotomy full.length n with hlt | heq | hgt
    · exact .inl hlt
    · exact .inr ⟨by omega, .inl heq⟩
    · have hholds := hcontract.holds (by omega)
      exact .inr ⟨by omega, .inr ((h.cut_off hgt (by omega)).mp hholds)⟩
  · intro hfits
    have hend : min full.length n < size := by omega
    refine ⟨filled_returns hlen, hinside.mpr hend, fun _ => ?_⟩
    by_cases hle : full.length ≤ n
    · have hmin : min full.length n = full.length := by omega
      have hmin' : min full.length (size - 1) = full.length := by omega
      have hcopied := h.copied
      have hended := h.ended hne
      rw [hmin] at hcopied hended
      rw [hmin']
      exact ⟨hcopied, hended⟩
    · obtain ⟨hlt, hthere⟩ := hfits.resolve_left (by omega)
      exact (h.cut_off (by omega) (by omega)).mpr (hthere.resolve_left (by omega))

/-- For each buffer, size, format and arguments that fit, `ksnprintf` keeps its contract exactly
when the output is shorter than the size as an `int`, but for an empty output and for luck. -/
theorem the_contract_holds_iff_the_output_fits {n : Int} {e : Env Str} (behind : Nat → UInt8)
    (buffer : Nat → UInt8) (size : UInt64) (h : printed around fmt args = .ok n e) :
    Contract size.toNat e.ctx (ksnprintf around behind buffer size fmt args) ↔
      Fits buffer size e.ctx := by
  rw [ksnprintf_eq behind buffer size h]
  obtain ⟨hlow, hhigh⟩ := cut_range size
  obtain ⟨hle, hwrap⟩ := cut_le size
  unfold Fits
  by_cases hlen : e.ctx.length < 2 ^ 31
  · by_cases hnil : e.ctx = []
    · have hkept := contract_nil buffer size.toNat (cut size) e.args e.reads
      have hzero : size.toNat = 0 ↔ size = 0 := by
        rw [← UInt64.toNat_inj, UInt64.toNat_zero]
      rw [hzero] at hkept
      rw [hnil]
      constructor
      · intro hcontract
        exact ⟨by decide, .inl ⟨rfl, hkept.mp hcontract⟩⟩
      · rintro ⟨-, ⟨-, hzero⟩ | ⟨hne, -⟩ | ⟨hne, -⟩⟩
        · exact hkept.mpr hzero
        · exact absurd rfl hne
        · exact absurd rfl hne
    · by_cases hneg : cut size < 0
      · constructor
        · intro hcontract
          obtain ⟨ctx, hctx⟩ : ∃ ctx, ctx = sn_start buffer (cut size) := ⟨_, rfl⟩
          have hout : ctx.out = 0 := by rw [hctx, sn_start_out]
          have hsize : ctx.size = cut size := by rw [hctx, sn_start_size]
          rw [← hctx] at hcontract
          obtain ⟨k, hk, hmem⟩ := written_negative behind hnil hout (by omega) (by omega)
          have hfar := hcontract.inside _ hmem k (Nat.le_refl k) (Nat.lt_succ_self k)
          omega
        · rintro ⟨-, ⟨h0, -⟩ | ⟨-, hlt⟩ | ⟨-, k, hk, -⟩⟩
          · exact absurd h0 hnil
          · omega
          · omega
      · obtain ⟨k, hk⟩ : ∃ k : Nat, cut size = k := Int.eq_ofNat_of_zero_le (by omega)
        have hfilled := filled_foldl buffer (n := k) (by omega) behind e.ctx
        have hcut : k = size.toNat ∨ k + 2 ≤ size.toNat := by omega
        rw [hk, hfilled.contract hcut hlen hnil]
        constructor
        · rintro (hlt | ⟨hlt, hthere⟩)
          · exact ⟨hlen, .inr (.inl ⟨hnil, by omega⟩)⟩
          · exact ⟨hlen, .inr (.inr ⟨hnil, k, rfl, hlt, hthere⟩)⟩
        · rintro ⟨-, ⟨h0, -⟩ | ⟨-, hlt⟩ | ⟨-, j, hj, hlt, hthere⟩⟩
          · exact absurd h0 hnil
          · exact .inl (by omega)
          · obtain rfl : k = j := by omega
            exact .inr ⟨hlt, hthere⟩
  · constructor
    · intro hcontract
      have hreturns := Except.ok.inj hcontract.returns
      exact absurd (to_int_length.mp hreturns) hlen
    · rintro ⟨hlen', -⟩
      exact absurd hlen' hlen

/-- Two conversions with padding, for the numbers 42 and 255, and their output. -/
def padded_format : Str := chars "%05d|%4x"

def padded_args : List Arg := [.word 42, .long 255]

def padded_text : Str := chars "00042|  ff"

theorem padded_output :
    ∃ e, printed (fun _ => 0) padded_format padded_args = .ok 10 e ∧ e.ctx = padded_text := by
  have hrun : (match printed (fun _ => 0) padded_format padded_args with
      | .ok n e => some (n, e.ctx)
      | .error _ _ => none) = some (10, padded_text) := by
    decide +kernel
  cases hprinted : printed (fun _ => 0) padded_format padded_args with
  | error trap e =>
    rw [hprinted] at hrun
    cases hrun
  | ok n e =>
    rw [hprinted] at hrun
    obtain ⟨rfl, hctx⟩ := Prod.mk.inj (Option.some.inj hrun)
    exact ⟨e, rfl, hctx⟩

theorem the_contract_holds_for_padded_numbers_in_eleven_bytes :
    Contract 11 padded_text
      (ksnprintf (fun _ => 0) (fun _ => 0) (fun _ => 7) 11 padded_format padded_args) := by
  obtain ⟨e, hrun, hctx⟩ := padded_output
  rw [← hctx]
  refine (the_contract_holds_iff_the_output_fits (fun _ => 0) (fun _ => 7) 11 hrun).mpr ?_
  rw [hctx]
  exact ⟨by decide, .inr (.inl ⟨by decide, by decide⟩)⟩

/-- One character in a buffer of one byte: the NUL comes behind the buffer. -/
theorem a_full_buffer_is_left :
    printed (fun _ => 0) [97] [] = .ok 1 ⟨[97], [], []⟩ ∧
      ¬ Contract 1 [97] (ksnprintf (fun _ => 0) (fun _ => 0) (fun _ => 7) 1 [97] []) := by
  refine ⟨rfl, ?_⟩
  intro h
  have hend := h.inside (1, 1) (by decide) 1 (Nat.le_refl 1) (by decide)
  exact absurd hend (by decide)

end salsola.kprintf
