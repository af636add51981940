-- `OrderedCode` for signed numbers: one to ten bytes, where the first bits give
-- the sign and the length. The number is written through its own bytes and a
-- mask over the first two of them, and read back through a mask for the length.
import EasyVerbs.OrderedCode
import Mathlib.Data.Nat.Size
import Mathlib.Tactic.IntervalCases
import Mathlib.Tactic.Linarith

namespace EasyVerbs.Firestore

open Codes

/-! ## The tables -/

def kMaxSigned64Length : ℕ := 10

/-- The header bits in the first two bytes, by length. -/
def kLengthToHeaderBits : List (Byte × Byte) :=
  [(0, 0), (0x80, 0), (0xc0, 0), (0xe0, 0), (0xf0, 0), (0xf8, 0), (0xfc, 0), (0xfe, 0), (0xff, 0),
    (0xff, 0x80), (0xff, 0xc0)]

/-- The header bits that overlap with the number when it is read, by length. -/
def kLengthToMask : List (BitVec 64) :=
  [0, 0x80, 0xc000, 0xe00000, 0xf0000000, 0xf800000000, 0xfc0000000000, 0xfe000000000000,
    0xff00000000000000, 0x8000000000000000, 0]

/-- The length of the encoding, by the number of bits. -/
def kBitsToLength : List ℕ :=
  [1, 1, 1, 1, 1, 1, 1, 2, 2, 2, 2, 2, 2, 2, 3, 3, 3, 3, 3, 3, 3, 4,
    4, 4, 4, 4, 4, 4, 5, 5, 5, 5, 5, 5, 5, 6, 6, 6, 6, 6, 6, 6, 7, 7,
    7, 7, 7, 7, 7, 8, 8, 8, 8, 8, 8, 8, 9, 9, 9, 9, 9, 9, 9, 10]

/-- `Bits::Log2Floor64`, `-1` for zero. -/
def log2Floor64 (n : ℕ) : ℤ := if n = 0 then -1 else n.log2

/-! ## Writing and reading -/

/-- An `int64_t`. -/
def IsInt64 (v : ℤ) : Prop := -2 ^ 63 ≤ v ∧ v < 2 ^ 63

instance (v : ℤ) : Decidable (IsInt64 v) := inferInstanceAs (Decidable (_ ∧ _))

/-- `n < 0 ? ~n : n`. -/
def foldSign (n : ℤ) : ℕ := (if n < 0 then -n - 1 else n).toNat

def signedEncodingLength (n : ℤ) : ℕ := kBitsToLength.getD (log2Floor64 (foldSign n) + 1).toNat 0

/-- The low byte of a number in two's complement. -/
def lowByte (v : ℤ) : Byte := Fin.ofNat 256 (v % 256).toNat

/-- The last `n` bytes of a number in two's complement, in network byte order. -/
def networkOrder : ℕ → ℤ → List Byte
  | 0, _ => []
  | n + 1, v => lowByte (v / 256 ^ n) :: networkOrder n v

def writeSignedNumIncreasing (val : ℤ) : Checked (List Byte) := do
  if foldSign val < 64 then
    return [0x80 ^^^ lowByte val]
  else
    -- `val` in network byte order, sign extended to ten bytes.
    let signByte : Byte := if val < 0 then 0xff else 0x00
    let buf := signByte :: signByte :: networkOrder 8 val
    hardAssert (buf.length = kMaxSigned64Length)
    let len := signedEncodingLength val
    hardAssert (2 ≤ len)
    let (h0, h1) := kLengthToHeaderBits.getD len (0, 0)
    match buf.drop (buf.length - len) with
    | b0 :: b1 :: rest => return (b0 ^^^ h0) :: (b1 ^^^ h1) :: rest
    | begin => return begin

/-- The length when the first byte holds size bits only. -/
def longLength (secondByte thirdByte : Byte) : Option ℕ :=
  if secondByte < 0x80 then some 8
  else if secondByte < 0xc0 then some 9
  else if secondByte = 0xc0 ∧ thirdByte < 0x80 then some 10
  -- Either longer than ten bytes, or ten with more than 63 bits.
  else none

/-- The length that the first bytes give, once the sign is taken out of them. It is refused
when `size` is less. -/
def encodedLength (size : ℕ) (firstByte secondByte thirdByte : Byte) : Checked ℕ :=
  if firstByte ≠ 0xff then
    let len := 7 - (firstByte ^^^ 0xff).val.log2
    if size < len then .error .returnsFalse else .ok len
  else if size < 8 then .error .returnsFalse
  else
    match longLength secondByte thirdByte with
    | some len => if size < len then .error .returnsFalse else .ok len
    | none => .error .returnsFalse

/-- The bytes as a number of 64 bits: up to seven after the sign, or the last eight. -/
def rawNumber (xorMask : BitVec 64) (src : List Byte) : BitVec 64 :=
  if src.length < 8 then src.foldl (fun x b => x <<< 8 ||| BitVec.ofNat 64 b.val) xorMask
  else BitVec.ofNat 64 (value (src.drop (src.length - 8)))

def readSignedNumIncreasing (src : List Byte) : Checked (ℤ × List Byte) :=
  match src with
  | [] => .error .returnsFalse
  | b0 :: _ => do
    let xorMask : BitVec 64 := if b0 &&& 0x80 = 0 then BitVec.allOnes 64 else 0
    let maskByte : Byte := if b0 &&& 0x80 = 0 then 0xff else 0
    let len ← encodedLength src.length (b0 ^^^ maskByte) (src.getD 1 0 ^^^ maskByte)
      (src.getD 2 0 ^^^ maskByte)
    let x := rawNumber xorMask (src.take len) ^^^ kLengthToMask.getD len 0
    hardAssert (len = signedEncodingLength x.toInt)
    return (x.toInt, src.drop len)

/-! ## Lengths -/

theorem size_foldSign (n : ℤ) : log2Floor64 (foldSign n) + 1 = (foldSign n).size := by
  unfold log2Floor64
  by_cases h : foldSign n = 0
  · rw [if_pos h, h]
    rfl
  · have h1 : (foldSign n).log2 < (foldSign n).size := by
      rw [Nat.lt_size]
      exact Nat.log2_self_le h
    have h2 : (foldSign n).size ≤ (foldSign n).log2 + 1 := by
      rw [Nat.size_le]
      exact Nat.lt_log2_self
    rw [if_neg h]
    omega

theorem kBitsToLength_getD {bits : ℕ} (h : bits < 64) : kBitsToLength.getD bits 0 = bits / 7 + 1 := by
  interval_cases bits <;> rfl

/-- What the length says about the number: it fits, and no smaller length would do. -/
theorem signedEncodingLength_spec {v : ℤ} (hv : IsInt64 v) {len : ℕ}
    (hlen : signedEncodingLength v = len) :
    1 ≤ len ∧ len ≤ 10 ∧ foldSign v < 2 ^ (7 * len - 1) ∧ (2 ≤ len → 2 ^ (7 * len - 8) ≤ foldSign v) := by
  have hsize : (foldSign v).size < 64 := by
    rw [Nat.lt_succ_iff, Nat.size_le]
    unfold foldSign
    obtain ⟨h1, h2⟩ := hv
    split <;> omega
  unfold signedEncodingLength at hlen
  rw [size_foldSign, Int.toNat_natCast, kBitsToLength_getD hsize] at hlen
  refine ⟨by omega, by omega, ?_, fun h => ?_⟩
  · rw [← Nat.size_le]
    omega
  · rw [← Nat.lt_size]
    omega

/-! ## The code of a number -/

theorem length_networkOrder (n : ℕ) (v : ℤ) : (networkOrder n v).length = n := by
  induction n with
  | zero => rfl
  | succ n ih => rw [networkOrder, List.length_cons, ih]

theorem lowByte_val (v : ℤ) : ((lowByte v).val : ℤ) = v % 256 := by
  unfold lowByte
  rw [Fin.val_ofNat]
  omega

theorem value_networkOrder (n : ℕ) (v : ℤ) : (value (networkOrder n v) : ℤ) = v % 256 ^ n := by
  induction n with
  | zero => simp [networkOrder]
  | succ n ih =>
    have hM : (0 : ℤ) ≤ 256 ^ n := by positivity
    rw [networkOrder, value_cons, length_networkOrder]
    push_cast
    rw [ih, lowByte_val, pow_succ, Int.emod_def v (256 ^ n * 256), Int.emod_def v (256 ^ n),
      Int.emod_def (v / 256 ^ n) 256, ← Int.ediv_ediv_of_nonneg hM]
    ring

theorem drop_networkOrder (n k : ℕ) (v : ℤ) : (networkOrder (n + k) v).drop k = networkOrder n v := by
  induction k with
  | zero => rfl
  | succ k ih => rw [← Nat.add_assoc, networkOrder, List.drop_succ_cons, ih]

/-- The header of the codes with `len` bytes, as a number: the first `len` bits. -/
def header (len : ℕ) : ℕ := 2 ^ (8 * len) - 2 ^ (7 * len)

/-- The bytes of a number under its header. -/
def signedCode (v : ℤ) : List Byte :=
  networkOrder (signedEncodingLength v)
    (if v < 0 then v - header (signedEncodingLength v) else v + header (signedEncodingLength v))

/-- The value of the code: above the header, or below the end of the sign bits. -/
theorem value_signedCode {v : ℤ} (hv : IsInt64 v) {len : ℕ} (hlen : signedEncodingLength v = len) :
    (signedCode v).length = len ∧
      (value (signedCode v) : ℤ) =
        if v < 0 then v + 2 ^ (7 * len) else v + (2 ^ (8 * len) - 2 ^ (7 * len)) := by
  obtain ⟨h1, h10, hlt, -⟩ := signedEncodingLength_spec hv hlen
  unfold signedCode
  rw [hlen]
  refine ⟨length_networkOrder _ _, ?_⟩
  rw [value_networkOrder]
  unfold foldSign at hlt
  unfold header
  interval_cases len <;> norm_num at * <;> split at * <;> omega

theorem mul_add_xor {a b c d k : ℕ} (hb : b < 2 ^ k) (hd : d < 2 ^ k) :
    (a * 2 ^ k + b) ^^^ (c * 2 ^ k + d) = (a ^^^ c) * 2 ^ k + (b ^^^ d) := by
  have hpos := Nat.two_pow_pos k
  rw [← Nat.div_add_mod ((a * 2 ^ k + b) ^^^ (c * 2 ^ k + d)) (2 ^ k), Nat.xor_div_two_pow,
    Nat.xor_mod_two_pow, Nat.mul_comm a, Nat.mul_comm c, Nat.mul_add_div hpos, Nat.mul_add_div hpos,
    Nat.mul_add_mod, Nat.mul_add_mod, Nat.div_eq_of_lt hb, Nat.div_eq_of_lt hd, Nat.mod_eq_of_lt hb,
    Nat.mod_eq_of_lt hd, Nat.mul_comm]
  rfl

theorem byte_xor_val (a b : Byte) : (a ^^^ b).val = a.val ^^^ b.val :=
  Nat.mod_eq_of_lt (Nat.xor_lt_two_pow (n := 8) a.isLt b.isLt)

/-- A header over the first two bytes is a header over the number. -/
theorem value_xor_header (b0 b1 h0 h1 : Byte) (rest : List Byte) :
    value ((b0 ^^^ h0) :: (b1 ^^^ h1) :: rest) =
      value (b0 :: b1 :: rest) ^^^ ((h0.val * 256 + h1.val) * 256 ^ rest.length) := by
  have hrest := value_lt rest
  have hsplit : ∀ x y : ℕ, x * 256 ^ (rest.length + 1) + (y * 256 ^ rest.length + value rest) =
      (x * 256 + y) * 2 ^ (8 * rest.length) + value rest := by
    intro x y
    rw [pow_mul, pow_succ]
    ring
  have hpow : 256 ^ rest.length = 2 ^ (8 * rest.length) := by
    rw [pow_mul]
    rfl
  rw [hpow] at hrest
  have hbyte : ∀ x y : ℕ, y < 2 ^ 8 → x * 256 + y = x * 2 ^ 8 + y := fun _ _ _ => rfl
  simp only [value_cons, List.length_cons, byte_xor_val]
  rw [hsplit, hsplit, hpow, ← Nat.add_zero ((h0.val * 256 + h1.val) * _),
    mul_add_xor hrest (Nat.two_pow_pos _), Nat.xor_zero, hbyte _ _ b1.isLt, hbyte _ _ h1.isLt,
    mul_add_xor b1.isLt h1.isLt]
  norm_num

theorem header_eq (len : ℕ) : header len = (2 ^ len - 1) * 2 ^ (7 * len) := by
  unfold header
  rw [Nat.sub_mul, ← pow_add, Nat.one_mul]
  congr 2
  omega

/-- The header over a number that fits sets the bits above it, or clears them. -/
theorem xor_header {v : ℤ} {len : ℕ} (h1 : 1 ≤ len) (h10 : len ≤ 10)
    (hlt : foldSign v < 2 ^ (7 * len - 1)) {n : ℕ} (hn : (n : ℤ) = v % 256 ^ len) :
    ((n ^^^ header len : ℕ) : ℤ) =
      if v < 0 then v + 2 ^ (7 * len) else v + (2 ^ (8 * len) - 2 ^ (7 * len)) := by
  have hpos := Nat.two_pow_pos (7 * len)
  unfold foldSign at hlt
  rw [header_eq, ← Nat.add_zero ((2 ^ len - 1) * 2 ^ (7 * len))]
  by_cases hv : v < 0
  · obtain ⟨w, hw, hnw⟩ : ∃ w, w < 2 ^ (7 * len) ∧ n = (2 ^ len - 1) * 2 ^ (7 * len) + w := by
      refine ⟨(v + 2 ^ (7 * len)).toNat, ?_⟩
      interval_cases len <;> norm_num at * <;> split at * <;> omega
    rw [hnw, mul_add_xor hw hpos, Nat.xor_self, Nat.xor_zero, if_pos hv]
    interval_cases len <;> norm_num at * <;> split at * <;> omega
  · have hw : n < 2 ^ (7 * len) := by
      interval_cases len <;> norm_num at * <;> split at * <;> omega
    have hx := mul_add_xor (a := 0) (c := 2 ^ len - 1) hw hpos
    rw [Nat.zero_mul, Nat.zero_add, Nat.zero_xor, Nat.xor_zero] at hx
    rw [hx, if_neg hv]
    interval_cases len <;> norm_num at * <;> split at * <;> omega

/-- The buffer of `val`, sign extended to ten bytes. -/
theorem networkOrder_ten {v : ℤ} (hv : IsInt64 v) :
    networkOrder 10 v = (if v < 0 then 0xff else 0x00) :: (if v < 0 then 0xff else 0x00) ::
      networkOrder 8 v := by
  obtain ⟨h1, h2⟩ := hv
  have h9 : v / 256 ^ 9 = if v < 0 then -1 else 0 := by split <;> omega
  have h8 : v / 256 ^ 8 = if v < 0 then -1 else 0 := by split <;> omega
  rw [networkOrder, networkOrder, h9, h8]
  split <;> rfl

theorem header_of_bytes {len : ℕ} (h2 : 2 ≤ len) (h10 : len ≤ 10) :
    ((kLengthToHeaderBits.getD len (0, 0)).1.val * 256 +
      (kLengthToHeaderBits.getD len (0, 0)).2.val) * 256 ^ (len - 2) = header len := by
  unfold header
  interval_cases len <;> rfl

theorem signedEncodingLength_eq_one_iff {v : ℤ} (hv : IsInt64 v) :
    signedEncodingLength v = 1 ↔ foldSign v < 64 := by
  obtain ⟨len, hlen⟩ : ∃ len, signedEncodingLength v = len := ⟨_, rfl⟩
  obtain ⟨h1, h10, hlt, hge⟩ := signedEncodingLength_spec hv hlen
  rw [hlen]
  interval_cases len <;> norm_num at * <;> omega

theorem writeSignedNumIncreasing_eq {v : ℤ} (hv : IsInt64 v) :
    writeSignedNumIncreasing v = .ok (signedCode v) := by
  obtain ⟨len, hlen⟩ : ∃ len, signedEncodingLength v = len := ⟨_, rfl⟩
  obtain ⟨h1, h10, hlt, -⟩ := signedEncodingLength_spec hv hlen
  obtain ⟨hlength, hvalue⟩ := value_signedCode hv hlen
  have hone := signedEncodingLength_eq_one_iff hv
  rw [hlen] at hone
  unfold writeSignedNumIncreasing
  by_cases hsmall : foldSign v < 64
  · have hl := hone.mpr hsmall
    subst hl
    have hx := xor_header h1 h10 hlt (lowByte_val v)
    have hheader : header 1 = 128 := rfl
    rw [hheader] at hx
    rw [if_pos hsmall]
    refine congrArg Except.ok (value_inj hlength.symm ?_)
    rw [← hvalue, Nat.xor_comm] at hx
    rw [value_cons, value_nil, byte_xor_val]
    simpa using Int.natCast_inj.mp hx
  · have h2 : 2 ≤ len := by
      have : len ≠ 1 := fun h => hsmall (hone.mp h)
      omega
    -- The last `len` bytes of the buffer are those of the number.
    obtain ⟨n, rfl⟩ : ∃ n, len = n + 2 := ⟨len - 2, by omega⟩
    have hbegin : List.drop (10 - (n + 2))
        ((if v < 0 then 0xff else 0x00) :: (if v < 0 then 0xff else 0x00) :: networkOrder 8 v) =
          lowByte (v / 256 ^ (n + 1)) :: lowByte (v / 256 ^ n) :: networkOrder n v := by
      have h := drop_networkOrder (n + 2) (10 - (n + 2)) v
      rw [Nat.add_sub_cancel' h10, networkOrder_ten hv] at h
      exact h
    have hx := xor_header h1 h10 hlt (value_networkOrder (n + 2) v)
    have hheader := header_of_bytes h2 h10
    rw [if_neg hsmall]
    simp only [hlen, List.length_cons, length_networkOrder, hbegin, hardAssert, kMaxSigned64Length, h2,
      decide_true, if_true, pure, Except.pure, bind, Except.bind, Nat.reduceAdd]
    refine congrArg Except.ok (value_inj ?_ ?_)
    · rw [hlength, List.length_cons, List.length_cons, length_networkOrder]
    · rw [value_xor_header, length_networkOrder]
      rw [Nat.add_sub_cancel] at hheader
      rw [hheader]
      rw [← hvalue] at hx
      exact Int.natCast_inj.mp hx

/-! ## The order of the codes -/

/-- The places of the codes among the numbers of ten bytes, by length: from half of them
upwards as the numbers that are not negative get longer, and downwards for the others. -/
theorem signedCode_places {v : ℤ} (hv : IsInt64 v) {len : ℕ} (hlen : signedEncodingLength v = len) :
    if v < 0 then
      2 ^ (79 - len) ≤ value (signedCode v) * 256 ^ (10 - len) ∧
        (value (signedCode v) + 1) * 256 ^ (10 - len) ≤ 2 ^ (80 - len)
    else
      2 ^ 80 ≤ value (signedCode v) * 256 ^ (10 - len) + 2 ^ (80 - len) ∧
        (value (signedCode v) + 1) * 256 ^ (10 - len) + 2 ^ (79 - len) ≤ 2 ^ 80 := by
  obtain ⟨h1, h10, hlt, -⟩ := signedEncodingLength_spec hv hlen
  obtain ⟨-, hvalue⟩ := value_signedCode hv hlen
  unfold foldSign at hlt
  by_cases hneg : v < 0
  · rw [if_pos hneg] at hlt hvalue ⊢
    interval_cases len <;> norm_num at * <;> omega
  · rw [if_neg hneg] at hlt hvalue ⊢
    interval_cases len <;> norm_num at * <;> omega

/-- A number of more bytes is larger than the numbers of fewer. -/
theorem signedEncodingLength_mono {v w : ℤ} (hv : IsInt64 v) (hw : IsInt64 w)
    (h : foldSign v ≤ foldSign w) : signedEncodingLength v ≤ signedEncodingLength w := by
  obtain ⟨h1, -, -, hge⟩ := signedEncodingLength_spec hv rfl
  obtain ⟨h1', -, hlt, -⟩ := signedEncodingLength_spec hw rfl
  by_contra hlen
  have := hge (by omega)
  have := Nat.pow_le_pow_right (n := 2) (by omega)
    (show 7 * signedEncodingLength w - 1 ≤ 7 * signedEncodingLength v - 8 by omega)
  omega

/-- The codes of two numbers are decided as the numbers are ordered. -/
theorem signedCode_ordered : Ordered (fun v w => IsInt64 v ∧ IsInt64 w ∧ v < w) signedCode := by
  rintro v w ⟨hv, hw, hvw⟩
  obtain ⟨l, hl⟩ : ∃ l, signedEncodingLength v = l := ⟨_, rfl⟩
  obtain ⟨m, hm⟩ : ∃ m, signedEncodingLength w = m := ⟨_, rfl⟩
  obtain ⟨hl1, hl10, -, -⟩ := signedEncodingLength_spec hv hl
  obtain ⟨hm1, hm10, -, -⟩ := signedEncodingLength_spec hw hm
  obtain ⟨hvl, hvv⟩ := value_signedCode hv hl
  obtain ⟨hwl, hwv⟩ := value_signedCode hw hm
  have hvp := signedCode_places hv hl
  have hwp := signedCode_places hw hm
  refine below_of_value (N := 10) (by norm_num) (by omega) (by omega) ?_
  rw [hvl, hwl]
  by_cases hv0 : v < 0
  · rw [if_pos hv0] at hvv hvp
    by_cases hw0 : w < 0
    · rw [if_pos hw0] at hwv hwp
      have hml : m ≤ l := by
        have := signedEncodingLength_mono hw hv (by unfold foldSign; omega)
        omega
      rcases Nat.lt_or_eq_of_le hml with hlt | rfl
      · have := Nat.pow_le_pow_right (n := 2) (by omega) (show 80 - l ≤ 79 - m by omega)
        omega
      · apply Nat.mul_le_mul_right
        omega
    · rw [if_neg hw0] at hwp
      have := Nat.pow_le_pow_right (n := 2) (by omega) (show 80 - l ≤ 79 by omega)
      have := Nat.pow_le_pow_right (n := 2) (by omega) (show 80 - m ≤ 79 by omega)
      omega
  · have hw0 : ¬ w < 0 := by omega
    rw [if_neg hv0] at hvv hvp
    rw [if_neg hw0] at hwv hwp
    have hlm : l ≤ m := by
      have := signedEncodingLength_mono hv hw (by unfold foldSign; omega)
      omega
    rcases Nat.lt_or_eq_of_le hlm with hlt | rfl
    · have := Nat.pow_le_pow_right (n := 2) (by omega) (show 80 - m ≤ 79 - l by omega)
      omega
    · apply Nat.mul_le_mul_right
      omega

/-! ## Reading the length -/

/-- The first bytes of a code with `len` bytes, without the sign. -/
def HasHeader (len : ℕ) (f0 f1 f2 : Byte) : Prop :=
  len < 8 ∧ 1 ≤ len ∧ 256 ≤ f0.val + 2 ^ (8 - len) ∧ f0.val + 2 ^ (7 - len) < 256 ∨
    f0.val = 255 ∧ (len = 8 ∧ f1.val < 128 ∨ len = 9 ∧ 128 ≤ f1.val ∧ f1.val < 192 ∨
      len = 10 ∧ f1.val = 192 ∧ f2.val < 128)

theorem xor_ff_val (b : Byte) : (b ^^^ 0xff).val = 255 - b.val := by
  revert b
  decide +kernel

/-- The size bits of the first byte, when a delimiter follows them in it. -/
theorem sizeBits_iff {f0 : Byte} (hf : 128 ≤ f0.val) (hff : f0 ≠ 0xff) (len : ℕ) :
    7 - (f0 ^^^ 0xff).val.log2 = len ↔
      len < 8 ∧ 1 ≤ len ∧ 256 ≤ f0.val + 2 ^ (8 - len) ∧ f0.val + 2 ^ (7 - len) < 256 := by
  have hlt := f0.isLt
  have hne : f0.val ≠ 255 := fun h => hff (Fin.ext h)
  rw [xor_ff_val]
  obtain ⟨n, hn⟩ : ∃ n, 255 - f0.val = n := ⟨_, rfl⟩
  have hn0 : n ≠ 0 := by omega
  have h7 : n.log2 < 7 := (Nat.log2_lt hn0).mpr (by omega)
  rw [hn]
  constructor
  · rintro rfl
    have h1 := Nat.log2_self_le hn0
    have h2 : n < 2 ^ (n.log2 + 1) := Nat.lt_log2_self
    rw [show 8 - (7 - n.log2) = n.log2 + 1 by omega, show 7 - (7 - n.log2) = n.log2 by omega]
    omega
  · rintro ⟨h8, h1, hlow, hhigh⟩
    have h1 : 7 - len ≤ n.log2 := (Nat.le_log2 hn0).mpr (by omega)
    have h2 : n.log2 < 8 - len := (Nat.log2_lt hn0).mpr (by omega)
    omega

theorem longLength_iff (f1 f2 : Byte) (len : ℕ) : longLength f1 f2 = some len ↔
    len = 8 ∧ f1.val < 128 ∨ len = 9 ∧ 128 ≤ f1.val ∧ f1.val < 192 ∨
      len = 10 ∧ f1.val = 192 ∧ f2.val < 128 := by
  unfold longLength
  simp only [Fin.lt_def, Fin.ext_iff]
  norm_num
  split_ifs <;> simp only [Option.some.injEq, false_iff] <;> omega

/-- The length that is read is the one whose header stands there. -/
theorem encodedLength_iff {size len : ℕ} {f0 f1 f2 : Byte} (hf : 128 ≤ f0.val) :
    encodedLength size f0 f1 f2 = .ok len ↔ HasHeader len f0 f1 f2 ∧ len ≤ size := by
  have hfits : ∀ l : ℕ, (if size < l then .error .returnsFalse else .ok l : Checked ℕ) = .ok len ↔
      l = len ∧ len ≤ size := by
    intro l
    split_ifs with h
    · simp only [false_iff]
      omega
    · rw [Except.ok.injEq]
      omega
  unfold encodedLength HasHeader
  by_cases hff : f0 = 0xff
  · have hlong := longLength_iff f1 f2
    have hpos := Nat.two_pow_pos (7 - len)
    have h255 : f0.val = 255 := congrArg Fin.val hff
    rw [if_neg (not_not.mpr hff), ← hlong]
    by_cases h8 : size < 8
    · rw [if_pos h8]
      simp only [reduceCtorEq, false_iff]
      rintro ⟨h | ⟨-, h⟩, hs⟩
      · omega
      · rw [hlong] at h
        omega
    · rw [if_neg h8]
      cases hl : longLength f1 f2 with
      | none =>
        simp only [reduceCtorEq, and_false, or_false, false_iff]
        omega
      | some l =>
        rw [hfits, Option.some.injEq]
        omega
  · have hne : f0.val ≠ 255 := fun h => hff (Fin.ext h)
    rw [if_pos hff, hfits, sizeBits_iff hf hff]
    omega

/-- The header of bytes is the header of their number. -/
theorem hasHeader_iff {ds : List Byte} {len : ℕ} (hlen : ds.length = len) (h1 : 1 ≤ len) (h10 : len ≤ 10) :
    HasHeader len (ds.getD 0 0) (ds.getD 1 0) (ds.getD 2 0) ↔
      header len ≤ value ds ∧ value ds < header len + 2 ^ (min (7 * len - 1) 63) := by
  unfold HasHeader header
  match ds, hlen with
  | [], h => simp at h; omega
  | b0 :: t, h =>
    have ht := value_lt t
    have hb := b0.isLt
    rw [List.length_cons] at h
    by_cases h8 : len < 8
    · rw [value_cons, List.getD_cons_zero]
      rw [show t.length = len - 1 by omega] at ht ⊢
      interval_cases len <;> norm_num at * <;> omega
    · match t, h with
      | [], h => simp at h; omega
      | [_], h => simp at h; omega
      | b1 :: b2 :: u, h =>
        have hu := value_lt u
        have hb1 := b1.isLt
        have hb2 := b2.isLt
        simp only [List.length_cons] at h
        simp only [value_cons, List.length_cons, List.getD_cons_zero, List.getD_cons_succ]
        rw [show u.length = len - 3 by omega] at hu ⊢
        interval_cases len <;> norm_num at * <;> omega

/-! ## Reading the number -/

theorem shiftLeft_or_byte (x : ℤ) (b : Byte) :
    BitVec.ofInt 64 x <<< 8 ||| BitVec.ofNat 64 b.val = BitVec.ofInt 64 (x * 256 + b.val) := by
  have hb := b.isLt
  apply BitVec.eq_of_toNat_eq
  have hor := Nat.two_pow_add_eq_or_of_lt (i := 8) hb ((BitVec.ofInt 64 x).toNat % 2 ^ 56)
  rw [BitVec.toNat_or, BitVec.toNat_shiftLeft, BitVec.toNat_ofNat, Nat.shiftLeft_eq,
    Nat.mod_eq_of_lt (show b.val < 2 ^ 64 by omega),
    show (BitVec.ofInt 64 x).toNat * 2 ^ 8 % 2 ^ 64 = 2 ^ 8 * ((BitVec.ofInt 64 x).toNat % 2 ^ 56) by
      omega, ← hor, BitVec.toNat_ofInt, BitVec.toNat_ofInt]
  omega

theorem foldl_bytes (x : ℤ) (ds : List Byte) :
    ds.foldl (fun (x : BitVec 64) b => x <<< 8 ||| BitVec.ofNat 64 b.val) (BitVec.ofInt 64 x) =
      BitVec.ofInt 64 (x * 256 ^ ds.length + value ds) := by
  induction ds generalizing x with
  | nil => simp
  | cons b ds ih =>
    rw [List.foldl_cons, shiftLeft_or_byte, ih, value_cons, List.length_cons, pow_succ]
    congr 1
    push_cast
    ring

theorem ofInt_congr {x y k : ℤ} (h : x = y + 2 ^ 64 * k) : BitVec.ofInt 64 x = BitVec.ofInt 64 y := by
  apply BitVec.eq_of_toNat_eq
  rw [BitVec.toNat_ofInt, BitVec.toNat_ofInt, h]
  omega

/-- The number that the bytes write under the sign. -/
theorem rawNumber_eq (neg : Bool) {ds : List Byte} {len : ℕ} (hlen : ds.length = len) (h1 : 1 ≤ len) :
    rawNumber (if neg then BitVec.allOnes 64 else 0) ds =
      BitVec.ofInt 64 ((if neg then -1 else 0) * 256 ^ len + value ds) := by
  have hmask : (if neg then BitVec.allOnes 64 else 0) = BitVec.ofInt 64 (if neg then -1 else 0) := by
    cases neg <;> rfl
  unfold rawNumber
  split
  · rw [hmask, foldl_bytes, hlen]
  · rename_i h8
    have hsplit := value_append (ds.take (ds.length - 8)) (ds.drop (ds.length - 8))
    rw [List.take_append_drop, List.length_drop, show ds.length - (ds.length - 8) = 8 by omega] at hsplit
    obtain ⟨n, rfl⟩ : ∃ n, len = n + 8 := ⟨len - 8, by omega⟩
    rw [← BitVec.ofInt_natCast, eq_comm]
    apply ofInt_congr (k := (if neg then -1 else 0) * 256 ^ n + value (ds.take (ds.length - 8)))
    rw [hsplit, pow_add]
    push_cast
    ring

theorem kLengthToMask_getD {len : ℕ} (h1 : 1 ≤ len) (h10 : len ≤ 10) :
    kLengthToMask.getD len 0 = BitVec.ofNat 64 (header len) := by
  interval_cases len <;> rfl

/-- The mask takes the header out again. -/
theorem rawNumber_xor_mask {v : ℤ} (hv : IsInt64 v) {len : ℕ} (hfits : foldSign v < 2 ^ (7 * len - 1))
    (h1 : 1 ≤ len) (h10 : len ≤ 10) {ds : List Byte} (hlen : ds.length = len)
    (hvalue : (value ds : ℤ) =
      if v < 0 then v + 2 ^ (7 * len) else v + (2 ^ (8 * len) - 2 ^ (7 * len))) :
    (rawNumber (if v < 0 then BitVec.allOnes 64 else 0) ds ^^^ kLengthToMask.getD len 0).toInt = v := by
  obtain ⟨n, hn⟩ : ∃ n : ℕ, (n : ℤ) = v % 256 ^ len :=
    ⟨(v % 256 ^ len).toNat, Int.toNat_of_nonneg (Int.emod_nonneg _ (by positivity))⟩
  have hx := xor_header h1 h10 hfits hn
  rw [← hvalue, Int.natCast_inj] at hx
  have hraw := rawNumber_eq (decide (v < 0)) hlen h1
  simp only [decide_eq_true_eq] at hraw
  rw [kLengthToMask_getD h1 h10, hraw]
  have hself : BitVec.ofInt 64 ((if v < 0 then -1 else 0) * 256 ^ len + value ds) ^^^
      BitVec.ofNat 64 (header len) = BitVec.ofInt 64 v := by
    have hback : value ds ^^^ header len = n := by
      rw [← hx, Nat.xor_assoc, Nat.xor_self, Nat.xor_zero]
    have hpow : (256 : ℕ) ^ len = 2 ^ (8 * len) := by rw [pow_mul]; rfl
    have hds := value_lt ds
    rw [hlen, hpow] at hds
    have hle := Nat.pow_le_pow_right (n := 2) (by omega) (show 7 * len - 1 ≤ 8 * len by omega)
    have hheader : header len < 2 ^ (8 * len) := by
      have := Nat.two_pow_pos (7 * len)
      have := Nat.two_pow_pos (8 * len)
      unfold header
      omega
    have hcast : ((256 : ℤ) ^ len) = ((2 ^ (8 * len) : ℕ) : ℤ) := by
      rw [← hpow]
      push_cast
      rfl
    unfold foldSign at hfits
    by_cases hneg : v < 0
    · -- In 64 bits the sign is all the bits above the code.
      have hmod : (n : ℤ) = v + 256 ^ len := by
        rw [hn, ← Int.add_emod_right, Int.emod_eq_of_lt] <;> omega
      have hhigh := mul_add_xor (a := 2 ^ 64 - 1) (c := 0) hds hheader
      rw [Nat.zero_mul, Nat.zero_add, hback, Nat.xor_zero] at hhigh
      rw [if_pos hneg, ofInt_congr (y := ((2 ^ 64 - 1) * 2 ^ (8 * len) + value ds : ℕ))
        (k := -2 ^ (8 * len)), BitVec.ofInt_natCast, ← BitVec.ofNat_xor, hhigh, ← BitVec.ofInt_natCast]
      · apply ofInt_congr (k := 2 ^ (8 * len))
        push_cast at hmod hcast ⊢
        rw [hmod, hcast]
        ring
      · push_cast at hcast ⊢
        rw [hcast]
        ring
    · have hmod : (n : ℤ) = v := by
        rw [hn, Int.emod_eq_of_lt] <;> omega
      rw [if_neg hneg, Int.zero_mul, Int.zero_add, BitVec.ofInt_natCast, ← BitVec.ofNat_xor, hback,
        ← BitVec.ofInt_natCast, hmod]
  rw [hself]
  exact BitVec.toInt_ofInt_eq_self (by omega) hv.1 hv.2

/-! ### Reading a code -/

theorem and_80_eq_zero_iff (b : Byte) : b &&& 0x80 = 0 ↔ b.val < 128 := by
  revert b
  decide +kernel

theorem xor_zero_byte (b : Byte) : b ^^^ 0 = b := by
  apply Fin.ext
  rw [byte_xor_val]
  exact Nat.xor_zero _

/-- Without the sign the bytes are their complements. -/
theorem value_map_xor_ff (ds : List Byte) :
    value (ds.map (· ^^^ 0xff)) + value ds + 1 = 256 ^ ds.length := by
  induction ds with
  | nil => rfl
  | cons b ds ih =>
    have hb := b.isLt
    have hsum : (255 - b.val) * 256 ^ ds.length + b.val * 256 ^ ds.length = 255 * 256 ^ ds.length := by
      rw [← Nat.add_mul]
      congr 1
      omega
    rw [List.map_cons, value_cons, value_cons, List.length_map, xor_ff_val, List.length_cons, pow_succ]
    omega

/-- The header of bytes, whatever follows them. -/
theorem hasHeader_append {ds : List Byte} {len : ℕ} (hlen : ds.length = len) (h1 : 1 ≤ len)
    (h10 : len ≤ 10) (m : Byte) (rest : List Byte) :
    HasHeader len ((ds ++ rest).getD 0 0 ^^^ m) ((ds ++ rest).getD 1 0 ^^^ m)
        ((ds ++ rest).getD 2 0 ^^^ m) ↔
      header len ≤ value (ds.map (· ^^^ m)) ∧
        value (ds.map (· ^^^ m)) < header len + 2 ^ (min (7 * len - 1) 63) := by
  have hget : ∀ i < len, (ds ++ rest).getD i 0 ^^^ m = (ds.map (· ^^^ m)).getD i 0 := by
    intro i hi
    rw [List.getD_append _ _ _ _ (by omega), List.getD_eq_getElem _ _ (by omega),
      List.getD_eq_getElem _ _ (by rw [List.length_map]; omega), List.getElem_map]
  rw [← hasHeader_iff ((List.length_map _).trans hlen) h1 h10, hget 0 (by omega)]
  by_cases h8 : len < 8
  · unfold HasHeader
    omega
  · rw [hget 1 (by omega), hget 2 (by omega)]

/-- The bytes of a number that fits: their first bit is the sign, and their header is there. -/
theorem header_of_value {b : Byte} {t : List Byte} {len : ℕ} (hlen : (b :: t).length = len)
    (h10 : len ≤ 10) {v : ℤ} (hv : IsInt64 v) (hfits : foldSign v < 2 ^ (7 * len - 1))
    (hvalue : (value (b :: t) : ℤ) =
      if v < 0 then v + 2 ^ (7 * len) else v + (2 ^ (8 * len) - 2 ^ (7 * len))) :
    (b.val < 128 ↔ v < 0) ∧
      let m : Byte := if v < 0 then 0xff else 0
      header len ≤ value ((b :: t).map (· ^^^ m)) ∧
        value ((b :: t).map (· ^^^ m)) < header len + 2 ^ (min (7 * len - 1) 63) := by
  have hflip := value_map_xor_ff (b :: t)
  have hsame : (b :: t).map (· ^^^ 0) = b :: t := by simp only [xor_zero_byte, List.map_id']
  have ht := value_lt t
  have htl : t.length = len - 1 := by rw [List.length_cons] at hlen; omega
  obtain ⟨hv1, hv2⟩ := hv
  have h1 : 1 ≤ len := by rw [← hlen, List.length_cons]; omega
  rw [hlen] at hflip
  rw [htl] at ht
  unfold foldSign at hfits
  unfold header
  by_cases hneg : v < 0
  · simp only [if_pos hneg] at hfits hvalue ⊢
    generalize value ((b :: t).map (· ^^^ (0xff : Byte))) = w at *
    rw [value_cons, htl] at hvalue hflip
    interval_cases len <;> norm_num at * <;> omega
  · simp only [if_neg hneg, hsame] at hfits hvalue ⊢
    rw [value_cons, htl] at hvalue ⊢
    interval_cases len <;> norm_num at * <;> omega

/-- Bytes under a header are read as their number, when no fewer bytes would have done. -/
theorem read_of_header {ds : List Byte} {len : ℕ} (hlen : ds.length = len) (h1 : 1 ≤ len)
    (h10 : len ≤ 10) {v : ℤ} (hv : IsInt64 v) (hfits : foldSign v < 2 ^ (7 * len - 1))
    (hvalue : (value ds : ℤ) =
      if v < 0 then v + 2 ^ (7 * len) else v + (2 ^ (8 * len) - 2 ^ (7 * len)))
    (rest : List Byte) :
    readSignedNumIncreasing (ds ++ rest) =
      if len = signedEncodingLength v then .ok (v, rest) else .error .hardAssert := by
  cases ds with
  | nil => simp at hlen; omega
  | cons b t =>
    obtain ⟨hsign, hheader⟩ := header_of_value hlen h10 hv hfits hvalue
    have hraw := rawNumber_xor_mask hv hfits h1 h10 hlen hvalue
    have hhead := (hasHeader_append hlen h1 h10 _ rest).mpr hheader
    have hf0 : 128 ≤ (b ^^^ if v < 0 then 0xff else 0).val := by
      split
      · rw [xor_ff_val]
        omega
      · rw [xor_zero_byte]
        omega
    have hsize : len ≤ (b :: t ++ rest).length := by
      rw [List.length_append]
      omega
    have hlength := (encodedLength_iff hf0).mpr ⟨hhead, hsize⟩
    have htake : (b :: t ++ rest).take len = b :: t := List.take_left' hlen
    have hdrop : (b :: t ++ rest).drop len = rest := List.drop_left' hlen
    rw [List.cons_append] at *
    unfold readSignedNumIncreasing
    simp only [and_80_eq_zero_iff, hsign, hlength, htake, hdrop, hraw, bind, Except.bind, hardAssert]
    by_cases h : len = signedEncodingLength v
    · simp [h, pure, Except.pure]
    · simp [h]

/-- Bytes with a header are the bytes of a number that fits. -/
theorem number_of_header {b : Byte} {t : List Byte} {len : ℕ} (hlen : (b :: t).length = len)
    (h10 : len ≤ 10) {m : Byte} (hm : m = if b &&& 0x80 = 0 then 0xff else 0)
    (hlow : header len ≤ value ((b :: t).map (· ^^^ m)))
    (hhigh : value ((b :: t).map (· ^^^ m)) < header len + 2 ^ (min (7 * len - 1) 63)) :
    ∃ v, IsInt64 v ∧ foldSign v < 2 ^ (7 * len - 1) ∧ (value (b :: t) : ℤ) =
      if v < 0 then v + 2 ^ (7 * len) else v + (2 ^ (8 * len) - 2 ^ (7 * len)) := by
  have hflip := value_map_xor_ff (b :: t)
  have hsame : (b :: t).map (· ^^^ 0) = b :: t := by simp only [xor_zero_byte, List.map_id']
  have h1 : 1 ≤ len := by rw [← hlen, List.length_cons]; omega
  rw [hlen] at hflip
  simp only [and_80_eq_zero_iff] at hm
  unfold header at hlow hhigh
  by_cases hneg : b.val < 128
  · rw [if_pos hneg] at hm
    subst hm
    generalize value ((b :: t).map (· ^^^ (0xff : Byte))) = w at *
    generalize value (b :: t) = z at *
    have hv : (z : ℤ) - 2 ^ (7 * len) < 0 := by
      interval_cases len <;> norm_num at * <;> omega
    refine ⟨(z : ℤ) - 2 ^ (7 * len), ?_, ?_, by rw [if_pos hv]; omega⟩
    · unfold IsInt64
      interval_cases len <;> norm_num at * <;> omega
    · rw [foldSign, if_pos hv]
      interval_cases len <;> norm_num at * <;> omega
  · rw [if_neg hneg] at hm
    subst hm
    rw [hsame] at hlow hhigh
    generalize value (b :: t) = z at *
    have hv : ¬ (z : ℤ) - (2 ^ (8 * len) - 2 ^ (7 * len)) < 0 := by
      interval_cases len <;> norm_num at * <;> omega
    refine ⟨(z : ℤ) - (2 ^ (8 * len) - 2 ^ (7 * len)), ?_, ?_, by rw [if_neg hv]; omega⟩
    · unfold IsInt64
      interval_cases len <;> norm_num at * <;> omega
    · rw [foldSign, if_neg hv]
      interval_cases len <;> norm_num at * <;> omega

/-- A number is read back from its code, and only from its code. -/
theorem readSignedNumIncreasing_iff (p : List Byte) (v : ℤ) (rest : List Byte) :
    readSignedNumIncreasing p = .ok (v, rest) ↔ IsInt64 v ∧ p = signedCode v ++ rest := by
  constructor
  · intro h
    cases p with
    | nil => cases h
    | cons b t =>
      obtain ⟨m, hm⟩ : ∃ m : Byte, m = if b &&& 0x80 = 0 then 0xff else 0 := ⟨_, rfl⟩
      have hf0 : 128 ≤ (b ^^^ m).val := by
        simp only [and_80_eq_zero_iff] at hm
        split at hm
        · rw [hm, xor_ff_val]
          omega
        · rw [hm, xor_zero_byte]
          omega
      cases hlen : encodedLength (b :: t).length (b ^^^ m) ((b :: t).getD 1 0 ^^^ m)
        ((b :: t).getD 2 0 ^^^ m) with
      | error e =>
        simp only [readSignedNumIncreasing, ← hm, hlen, bind, Except.bind] at h
        cases h
      | ok len =>
        obtain ⟨hhead, hsize⟩ := (encodedLength_iff hf0).mp hlen
        have h1 : 1 ≤ len ∧ len ≤ 10 := by
          unfold HasHeader at hhead
          omega
        have hp := List.take_append_drop len (b :: t)
        have hds : ((b :: t).take len).length = len := by
          rw [List.length_take]
          omega
        obtain ⟨k, rfl⟩ : ∃ k, len = k + 1 := ⟨len - 1, by omega⟩
        rw [← hp] at hhead
        obtain ⟨hlow, hhigh⟩ := (hasHeader_append hds h1.1 h1.2 m _).mp hhead
        obtain ⟨w, hw, hfits, hvalue⟩ := number_of_header hds h1.2 hm hlow hhigh
        rw [← hp, read_of_header hds h1.1 h1.2 hw hfits hvalue] at h
        by_cases hl : k + 1 = signedEncodingLength w
        · rw [if_pos hl] at h
          cases h
          obtain ⟨hlength, hcode⟩ := value_signedCode hw hl.symm
          refine ⟨hw, ?_⟩
          have hsame := Int.natCast_inj.mp (hvalue.trans hcode.symm)
          rw [← value_inj (hds.trans hlength.symm) hsame, hp]
        · rw [if_neg hl] at h
          cases h
  · rintro ⟨hv, rfl⟩
    obtain ⟨len, hlen⟩ : ∃ len, signedEncodingLength v = len := ⟨_, rfl⟩
    obtain ⟨h1, h10, hfits, -⟩ := signedEncodingLength_spec hv hlen
    obtain ⟨hlength, hvalue⟩ := value_signedCode hv hlen
    rw [read_of_header hlength h1 h10 hv hfits hvalue, if_pos hlen.symm]

/-- Whatever follows them, two written numbers sort as the numbers do. They take ten bytes
at most, and a number is read from the bytes that it is written as, and from no others. -/
theorem written_numbers_sort_and_are_read_back {v w : ℤ} (hv : IsInt64 v) (hw : IsInt64 w) :
    ∃ a b, writeSignedNumIncreasing v = .ok a ∧ writeSignedNumIncreasing w = .ok b ∧
      (∀ s t, a ++ s < b ++ t ↔ v < w ∨ v = w ∧ s < t) ∧
      (1 ≤ a.length ∧ a.length ≤ kMaxSigned64Length) ∧
      ∀ p rest, readSignedNumIncreasing p = .ok (v, rest) ↔ p = a ++ rest := by
  refine ⟨signedCode v, signedCode w, writeSignedNumIncreasing_eq hv, writeSignedNumIncreasing_eq hw, ?_, ?_, ?_⟩
  · intro s t
    have h := signedCode_ordered.append_lt_iff (u := s) (v := t) (x := v) (y := w) <| by
      rcases lt_trichotomy v w with h | h | h
      · exact Or.inr (Or.inl ⟨hv, hw, h⟩)
      · exact Or.inl h
      · exact Or.inr (Or.inr ⟨hw, hv, h⟩)
    simpa [hv, hw] using h
  · obtain ⟨len, hlen⟩ : ∃ len, signedEncodingLength v = len := ⟨_, rfl⟩
    obtain ⟨h1, h10, -⟩ := signedEncodingLength_spec hv hlen
    rw [(value_signedCode hv hlen).1]
    exact ⟨h1, h10⟩
  · intro p rest
    rw [readSignedNumIncreasing_iff]
    exact and_iff_right hv

theorem the_least_number_sorts_first :
    ∃ a b, writeSignedNumIncreasing (-2 ^ 63) = .ok a ∧ writeSignedNumIncreasing 64 = .ok b ∧ a < b := by
  obtain ⟨a, b, ha, hb, hlt, -⟩ :=
    written_numbers_sort_and_are_read_back (v := -2 ^ 63) (w := 64) (by decide) (by decide)
  refine ⟨a, b, ha, hb, ?_⟩
  simpa using (hlt [] []).mpr (Or.inl (by decide))

end EasyVerbs.Firestore
