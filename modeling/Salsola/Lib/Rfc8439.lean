-- ChaCha20 as RFC 8439 states it: the quarter round (2.1), the rounds on the columns and on the
-- diagonals of the state (2.3), and the block function with its bytes.
import Mathlib.Logic.Function.Iterate

namespace rfc8439

def rotl (x n : UInt32) : UInt32 := (x <<< n) ||| (x >>> (32 - n))

/-! ## The state -/

structure Column where
  a : UInt32
  b : UInt32
  c : UInt32
  d : UInt32

structure Matrix where
  c0 : Column
  c1 : Column
  c2 : Column
  c3 : Column

/-- The words of a state, row by row. -/
def Matrix.words (m : Matrix) : List UInt32 :=
  [m.c0.a, m.c1.a, m.c2.a, m.c3.a, m.c0.b, m.c1.b, m.c2.b, m.c3.b,
    m.c0.c, m.c1.c, m.c2.c, m.c3.c, m.c0.d, m.c1.d, m.c2.d, m.c3.d]

/-! ## Rounds -/

def quarter_round : Column → Column
  | ⟨a, b, c, d⟩ =>
    let a := a + b
    let d := rotl (d ^^^ a) 16
    let c := c + d
    let b := rotl (b ^^^ c) 12
    let a := a + b
    let d := rotl (d ^^^ a) 8
    let c := c + d
    let b := rotl (b ^^^ c) 7
    ⟨a, b, c, d⟩

def column_round (m : Matrix) : Matrix :=
  ⟨quarter_round m.c0, quarter_round m.c1, quarter_round m.c2, quarter_round m.c3⟩

/-- The diagonals of a state become columns: each row turns to the left by its number. -/
def diagonals (m : Matrix) : Matrix where
  c0 := ⟨m.c0.a, m.c1.b, m.c2.c, m.c3.d⟩
  c1 := ⟨m.c1.a, m.c2.b, m.c3.c, m.c0.d⟩
  c2 := ⟨m.c2.a, m.c3.b, m.c0.c, m.c1.d⟩
  c3 := ⟨m.c3.a, m.c0.b, m.c1.c, m.c2.d⟩

/-- Each row turns back. -/
def undiagonals (m : Matrix) : Matrix where
  c0 := ⟨m.c0.a, m.c3.b, m.c2.c, m.c1.d⟩
  c1 := ⟨m.c1.a, m.c0.b, m.c3.c, m.c2.d⟩
  c2 := ⟨m.c2.a, m.c1.b, m.c0.c, m.c3.d⟩
  c3 := ⟨m.c3.a, m.c2.b, m.c1.c, m.c0.d⟩

def diagonal_round (m : Matrix) : Matrix := undiagonals (column_round (diagonals m))

/-- 10 column rounds and 10 diagonal rounds, one after the other. -/
def rounds (m : Matrix) : Matrix := (fun m => diagonal_round (column_round m))^[10] m

/-! ## The block function -/

/-- The word `i` of some bytes, lowest byte first. -/
def word (bytes : List UInt8) (i : Nat) : UInt32 :=
  (bytes.getD (4 * i) 0).toUInt32 ||| (bytes.getD (4 * i + 1) 0).toUInt32 <<< 8 |||
    (bytes.getD (4 * i + 2) 0).toUInt32 <<< 16 ||| (bytes.getD (4 * i + 3) 0).toUInt32 <<< 24

/-- A word as four bytes, lowest first. -/
def bytes (x : UInt32) : List UInt8 :=
  [x.toUInt8, (x >>> 8).toUInt8, (x >>> 16).toUInt8, (x >>> 24).toUInt8]

/-- The constant, the key of 32 bytes, the counter, and the nonce of 12 bytes. -/
def init (key nonce : List UInt8) (count : UInt32) : Matrix where
  c0 := ⟨0x61707865, word key 0, word key 4, count⟩
  c1 := ⟨0x3320646e, word key 1, word key 5, word nonce 0⟩
  c2 := ⟨0x79622d32, word key 2, word key 6, word nonce 1⟩
  c3 := ⟨0x6b206574, word key 3, word key 7, word nonce 2⟩

/-- The 64 bytes of the key stream for a counter. -/
def block (key nonce : List UInt8) (count : UInt32) : List UInt8 :=
  let m := init key nonce count
  (List.zipWith (· + ·) (rounds m).words m.words).flatMap bytes

theorem block_length (key nonce : List UInt8) (count : UInt32) :
    (block key nonce count).length = 64 := rfl

/-- Bytes that are cut off behind a word do not count. -/
theorem word_take (bytes : List UInt8) {i n : Nat} (hi : 4 * i + 4 ≤ n) :
    word (bytes.take n) i = word bytes i := by
  unfold word
  simp only [List.getD_eq_getElem?_getD]
  rw [List.getElem?_take_of_lt (by omega), List.getElem?_take_of_lt (by omega),
    List.getElem?_take_of_lt (by omega), List.getElem?_take_of_lt (by omega)]

/-- Bytes that follow behind a word do not count. -/
theorem word_append (bytes more : List UInt8) {i : Nat} (hi : 4 * i + 4 ≤ bytes.length) :
    word (bytes ++ more) i = word bytes i := by
  unfold word
  simp only [List.getD_eq_getElem?_getD]
  rw [List.getElem?_append_left (by omega), List.getElem?_append_left (by omega),
    List.getElem?_append_left (by omega), List.getElem?_append_left (by omega)]

-- the first 16 bytes of the test vector of 2.3.2
example : (block ((List.range 32).map UInt8.ofNat)
      [0, 0, 0, 9, 0, 0, 0, 0x4a, 0, 0, 0, 0] 1).take 16 =
    [0x10, 0xf1, 0xe7, 0xe4, 0xd1, 0x3b, 0x59, 0x15,
      0x50, 0x0f, 0xdd, 0x1f, 0xa3, 0x20, 0x71, 0xc4] := by
  decide +kernel

end rfc8439
