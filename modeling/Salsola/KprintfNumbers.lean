-- The number printers of kprintf.c: the digits that they compute are those of
-- the numeral, and print_unum writes it with its padding.
import Salsola.Kprintf
import Salsola.Lib.Numeral

open scanner numeral

namespace salsola.kprintf

variable {σ : Type} {write : σ → UInt8 → σ} {cs : Int → UInt8} {b n fuel w : Nat}

/-! ## Digits -/

/-- The characters of some digits. -/
def spelled (cs : Int → UInt8) (ds : List Nat) : Str := ds.map fun d : Nat => cs d

theorem length_spelled (cs : Int → UInt8) (ds : List Nat) :
    (spelled cs ds).length = ds.length := List.length_map _

/-- While the capacity of `str` lasts, the loop gives the digits of the number, the last one
first. -/
theorem digits_eq (cs : Int → UInt8) (hb : 1 < b) (h : (Nat.digits b n).length ≤ fuel) :
    digits cs b fuel n = spelled cs (Nat.digits b n) := by
  induction fuel generalizing n with
  | zero =>
    have hnil := List.length_eq_zero_iff.mp (Nat.le_zero.mp h)
    rw [hnil]
    rfl
  | succ fuel ih =>
    unfold digits
    by_cases hn : n = 0
    · rw [hn, if_pos Int.natCast_zero, Nat.digits_zero]
      rfl
    · rw [Nat.digits_def' hb (Nat.pos_of_ne_zero hn)] at h ⊢
      rw [List.length_cons] at h
      have hrest : ((n : Int).tdiv b) = (n / b : Nat) := rfl
      have hlast : ((n : Int).tmod b) = (n % b : Nat) := rfl
      rw [if_neg (by omega), hrest, hlast, ih (by omega)]
      rfl

/-- The characters of `n` that the loops leave in `str`, in the order of the output. -/
theorem str_eq (cs : Int → UInt8) (hb : 1 < b) (hn : n < b ^ 32) :
    (if (n : Int) = 0 then [cs 0] else digits cs b 32 n).reverse =
      spelled cs (places b n) := by
  by_cases h0 : n = 0
  · rw [h0, if_pos Int.natCast_zero, places_zero]
    rfl
  · have hlen : (Nat.digits b n).length ≤ 32 := (Nat.digits_length_le_iff hb n).mpr hn
    unfold spelled
    rw [if_neg (by omega), digits_eq cs hb hlen, places_of_ne h0, List.map_reverse]
    rfl

/-- Where the characters of the digits differ, they say which digits they are. -/
theorem spelled_inj (hcs : ∀ i j : Nat, i < b → j < b → cs i = cs j → i = j) {ds ds' : List Nat}
    (h : ∀ d ∈ ds, d < b) (h' : ∀ d ∈ ds', d < b) (heq : spelled cs ds = spelled cs ds') :
    ds = ds' := by
  induction ds generalizing ds' with
  | nil => exact (List.map_eq_nil_iff.mp heq.symm).symm
  | cons d ds ih =>
    cases ds' with
    | nil => cases heq
    | cons d' ds' =>
      obtain ⟨hhead, htail⟩ := List.cons.inj heq
      rw [List.forall_mem_cons] at h h'
      rw [hcs d d' h.1 h'.1 hhead, ih h.2 h'.2 htail]

/-! ## Padding -/

/-- A text with `pad` characters in front of it, or behind it. -/
def padded (zero_padding right_padding : Bool) (pad : Nat) (text : Str) : Str :=
  let t := if zero_padding then char '0' else char ' '
  if right_padding then text ++ List.replicate pad t else List.replicate pad t ++ text

theorem length_padded (zero_padding right_padding : Bool) (pad : Nat) (text : Str) :
    (padded zero_padding right_padding pad text).length = pad + text.length := by
  unfold padded
  cases right_padding with
  | true =>
    dsimp only
    rw [if_pos rfl, List.length_append, List.length_replicate, Nat.add_comm]
  | false =>
    dsimp only
    rw [if_neg Bool.false_ne_true, List.length_append, List.length_replicate]

/-- The characters that `prefix - orig_i` asks for. -/
def missing (width : Int) (text : Str) : Nat := (to_int (width - text.length)).toNat

theorem print_str_eq (str : Str) (width : Int) (zero_padding right_padding : Bool) (e : Env σ) :
    print_str write str width zero_padding right_padding e =
      .ok (to_int (missing width str.reverse + str.reverse.length)) { e with
        ctx := (padded zero_padding right_padding (missing width str.reverse) str.reverse).foldl
          write e.ctx } := by
  unfold print_str padded missing
  rw [List.length_reverse]
  cases right_padding with
  | true =>
    simp only [Bool.not_true, Bool.false_eq_true, if_false, if_true, List.length_replicate,
      List.foldl_append]
    rfl
  | false =>
    simp only [Bool.not_false, Bool.false_eq_true, if_false, if_true, List.length_replicate,
      List.foldl_append]
    rfl

theorem missing_of_int {text : Str} (hw : w < 2 ^ 31) (hlen : text.length ≤ 32) :
    missing w text = w - text.length := by
  unfold missing to_int Int.bmod
  dsimp only
  split <;> omega

/-! ## print_unum -/

theorem print_unum_eq (n : UInt64) (hb : 4 ≤ b) (cs : Int → UInt8) (width : Int)
    (zero_padding right_padding : Bool) (e : Env σ) :
    print_unum write n b cs width zero_padding right_padding e =
      .ok (to_int (missing width (spelled cs (places b n.toNat)) +
          (spelled cs (places b n.toNat)).length)) { e with
        ctx := (padded zero_padding right_padding (missing width (spelled cs (places b n.toNat)))
          (spelled cs (places b n.toNat))).foldl write e.ctx } := by
  have hn : n.toNat < b ^ 32 := by
    calc n.toNat < 4 ^ 32 := n.toNat_lt
      _ ≤ b ^ 32 := Nat.pow_le_pow_left hb 32
  have hzero : n = 0 ↔ (n.toNat : Int) = 0 := by
    rw [← UInt64.toNat_inj]
    simp
  have hstr := str_eq cs (by omega : 1 < b) hn
  unfold print_unum
  simp only [hzero]
  rw [print_str_eq, hstr]

/-- `print_unum` prints the numeral of the number, in every base that `str` has room for: its
digits are in the range of the base, they say which number it is, also through any reading of
their characters, none of them is a leading zero, and there are no more of them than `str`
holds. The width is filled up with blanks or zeros, on the side that is asked for. -/
theorem print_unum_prints_the_numeral (write : σ → UInt8 → σ) (n : UInt64) (b : Nat) (hb : 4 ≤ b)
    (cs : Int → UInt8) (hcs : ∀ i j : Nat, i < b → j < b → cs i = cs j → i = j) (width : Int)
    (hwidth : 0 ≤ width) (hint : width < 2 ^ 31) (zero_padding right_padding : Bool)
    (e : Env σ) :
    ∃ ds : List Nat, (∀ d ∈ ds, d < b) ∧ Nat.ofDigits b ds.reverse = n.toNat ∧
      (∀ read : UInt8 → Nat, (∀ i : Nat, i < b → read (cs i) = i) →
        Nat.ofDigits b ((spelled cs ds).map read).reverse = n.toNat) ∧
      (∀ ds' : List Nat, (∀ d ∈ ds', d < b) → spelled cs ds' = spelled cs ds → ds' = ds) ∧
      (n ≠ 0 → ds.head? ≠ some 0) ∧ (n = 0 → ds = [0]) ∧ 0 < ds.length ∧ ds.length ≤ 32 ∧
      print_unum write n b cs width zero_padding right_padding e =
        .ok (max width ds.length) { e with
          ctx :=
            (let pad := List.replicate (width.toNat - ds.length)
              (if zero_padding then char '0' else char ' ')
            if right_padding then spelled cs ds ++ pad else pad ++ spelled cs ds).foldl
              write e.ctx } := by
  have hlt : ∀ d ∈ places b n.toNat, d < b := fun d hd => places_lt (by omega) hd
  have hn : n.toNat < b ^ 32 := by
    calc n.toNat < 4 ^ 32 := n.toNat_lt
      _ ≤ b ^ 32 := Nat.pow_le_pow_left hb 32
  have hlen := (length_places_le (by omega : 1 < b) (by decide : 0 < 32)).mpr hn
  obtain ⟨w, rfl⟩ : ∃ w : Nat, width = w := ⟨width.toNat, by omega⟩
  have hmissing : missing w (spelled cs (places b n.toNat)) = w - (places b n.toNat).length := by
    rw [missing_of_int (by omega) (by rw [length_spelled]; exact hlen), length_spelled]
  refine ⟨places b n.toNat, hlt, ofDigits_places b _, ?_, ?_, ?_, ?_, length_places_pos b _, hlen,
    ?_⟩
  · intro read hread
    have hmap : (spelled cs (places b n.toNat)).map read = places b n.toNat := by
      unfold spelled
      rw [List.map_map]
      exact (List.map_congr_left fun d hd => hread d (hlt d hd)).trans (List.map_id _)
    rw [hmap, ofDigits_places]
  · intro ds' hds' heq
    exact spelled_inj hcs hds' hlt heq
  · intro hne
    apply head_places
    intro h
    exact hne (UInt64.toNat_inj.mp h)
  · intro h
    rw [h]
    exact places_zero b
  · have hcount : to_int ((w - (places b n.toNat).length : Nat) +
        (spelled cs (places b n.toNat)).length) = max (w : Int) (places b n.toNat).length := by
      rw [length_spelled]
      unfold to_int Int.bmod
      dsimp only
      split <;> omega
    rw [print_unum_eq n hb, hmissing, hcount]
    rfl

theorem print_unum_prints_the_numeral_of_255 :
    ∃ ds : List Nat, Nat.ofDigits 16 ds.reverse = 255 ∧
      print_unum (fun s c => s ++ [c]) 255 (16 : Nat)
        (char_set (chars "0123456789abcdef") fun _ => 0) 5 true false
        { ctx := [], args := [], reads := [] } = .ok (max 5 ds.length) {
          ctx := List.foldl (fun s c => s ++ [c]) []
            (List.replicate (5 - ds.length) (char '0') ++
              spelled (char_set (chars "0123456789abcdef") fun _ => 0) ds)
          args := []
          reads := [] } := by
  have hhex : ∀ i, i < 16 → ∀ j, j < 16 → char_set (chars "0123456789abcdef") (fun _ => 0) (i : Nat)
      = char_set (chars "0123456789abcdef") (fun _ => 0) (j : Nat) → i = j := by
    decide
  obtain ⟨ds, -, hvalue, -, -, -, -, -, -, hprint⟩ := print_unum_prints_the_numeral
    (fun s c => s ++ [c]) 255 16 (by decide) (char_set (chars "0123456789abcdef") fun _ => 0)
    (fun i j hi hj => hhex i hi j hj) 5 (by decide) (by decide) true false
    { ctx := [], args := [], reads := [] }
  exact ⟨ds, hvalue, hprint⟩

end salsola.kprintf
