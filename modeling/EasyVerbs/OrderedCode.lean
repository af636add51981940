-- `OrderedCode` of the Firestore client writes the parts of a LevelDB key so
-- that the bytes sort as the parts do. This is the part for strings: the
-- search of the next byte that needs an escape, eight bytes at a time, and the
-- two loops that escape a string and take the escapes out again.
import EasyVerbs.Codes
import Mathlib.Data.Nat.Bitwise
import Mathlib.Data.List.TakeWhile

namespace EasyVerbs.Firestore

open Codes

/-! ## Bytes and failures -/

abbrev Byte := Fin 256

instance byteNeZero : NeZero 256 := ⟨by decide⟩

/-- How a call ends without a result: it returns `false`, a `HARD_ASSERT` stops the app, it
does what C++ or LevelDB leaves undefined, or it has a loop that goes on for ever. -/
inductive Failure
  | returnsFalse
  | hardAssert
  | undefined
  | endless
  deriving DecidableEq, Repr

abbrev Checked := Except Failure

/-- `HARD_ASSERT(condition)`. -/
def hardAssert (condition : Bool) : Checked Unit :=
  if condition then .ok () else .error .hardAssert

def kEscape1 : Byte := 0x00
/-- Combined with `kEscape1`. -/
def kNullCharacter : Byte := 0xff
/-- Combined with `kEscape1`. -/
def kSeparator : Byte := 0x01
def kEscape2 : Byte := 0xff
/-- Combined with `kEscape2`. -/
def kFFCharacter : Byte := 0x00

def isSpecialByte (c : Byte) : Bool := c + 1 < 2

/-! ## The next special byte -/

/-- The number at `p` in the order of a little-endian machine. -/
def load : List Byte → ℕ
  | [] => 0
  | b :: p => b.val + 256 * load p

def load32 (p : List Byte) : BitVec 32 := BitVec.ofNat 32 (load (p.take 4))

def load64 (p : List Byte) : BitVec 64 := BitVec.ofNat 64 (load (p.take 8))

def hasZeroOr255Byte32 (v : BitVec 32) : Bool :=
  (v - 0x01010101#32) &&& ~~~(v + 0x01010101#32) &&& 0x80808080#32 != 0

def hasZeroOr255Byte (v : BitVec 64) : Bool :=
  (v - 0x0101010101010101#64) &&& ~~~(v + 0x0101010101010101#64) &&& 0x8080808080808080#64 != 0

/-- How far `p` can go: over four bytes, or nowhere when one of them is special. -/
def advanceIfNoSpecialBytes (v32 : BitVec 32) (p : List Byte) : Checked ℕ := do
  hardAssert (load32 p = v32)
  if hasZeroOr255Byte32 v32 then
    hardAssert ((p.take 4).any isSpecialByte)
    return 0
  else
    hardAssert ((p.take 4).all (!isSpecialByte ·))
    return 4

/-- The first special byte of the next four, the last of which must be one when no other is. -/
def firstSpecialOfFour : List Byte → Checked (List Byte)
  | c0 :: c1 :: c2 :: c3 :: q =>
    if isSpecialByte c0 then return c0 :: c1 :: c2 :: c3 :: q
    else if isSpecialByte c1 then return c1 :: c2 :: c3 :: q
    else if isSpecialByte c2 then return c2 :: c3 :: q
    else do
      hardAssert (isSpecialByte c3)
      return c3 :: q
  | q => return q

/-- The rest of the range from its first special byte on, or its end. -/
def skipToNextSpecialByte : List Byte → Checked (List Byte)
  | b0 :: b1 :: b2 :: b3 :: b4 :: b5 :: b6 :: b7 :: rest =>
    let p := b0 :: b1 :: b2 :: b3 :: b4 :: b5 :: b6 :: b7 :: rest
    let v := load64 p
    if hasZeroOr255Byte v then do
      -- The low 32 bits of `v` are the next four bytes.
      let n ← advanceIfNoSpecialBytes (v.setWidth 32) p
      firstSpecialOfFour (p.drop n)
    else skipToNextSpecialByte rest
  | p =>
    if 4 ≤ p.length then do
      let n ← advanceIfNoSpecialBytes (load32 p) p
      return (p.drop n).dropWhile (!isSpecialByte ·)
    else return p.dropWhile (!isSpecialByte ·)

/-! ### The test of all bytes of a word at once -/

/-- A word of `n` bytes with the same byte everywhere. -/
def everyByte (b : ℕ) : ℕ → ℕ
  | 0 => 0
  | n + 1 => b + 256 * everyByte b n

/-- The test of `hasZeroOr255Byte` for a word of `n` bytes. -/
def specialBits (n v : ℕ) : ℕ :=
  (256 ^ n - everyByte 1 n + v) % 256 ^ n &&&
    (256 ^ n - 1 - (v + everyByte 1 n) % 256 ^ n) &&& everyByte 0x80 n

theorem everyByte_one_lt (n : ℕ) : everyByte 1 n < 256 ^ n := by
  induction n with
  | zero => simp [everyByte]
  | succ n ih =>
    rw [everyByte, pow_succ]
    omega

theorem load_lt (p : List Byte) : load p < 256 ^ p.length := by
  induction p with
  | nil => simp [load]
  | cons b p ih =>
    have := b.isLt
    rw [load, List.length_cons, pow_succ]
    omega

set_option maxRecDepth 2000 in
theorem isSpecialByte_iff (b : Byte) : isSpecialByte b = true ↔ b.val = 0 ∨ b.val = 255 := by
  revert b
  decide

set_option maxRecDepth 2000 in
theorem lowBits_eq_zero_iff (b : Byte) :
    ((b.val + 255) % 256 &&& (255 - (b.val + 1) % 256) &&& 0x80) = 0 ↔ isSpecialByte b = false := by
  revert b
  decide

theorem specialBits_mod (b : Byte) (n v : ℕ) : specialBits (n + 1) (b.val + 256 * v) % 2 ^ 8 =
    (b.val + 255) % 256 &&& (255 - (b.val + 1) % 256) &&& 0x80 := by
  have hone := everyByte_one_lt n
  have hcarry := Nat.mod_lt ((b.val + 256 * v + (1 + 256 * everyByte 1 n)) / 256)
    (show 0 < 256 ^ n by omega)
  unfold specialBits
  rw [Nat.and_mod_two_pow, Nat.and_mod_two_pow, everyByte, everyByte, pow_succ', Nat.mod_mul,
    Nat.mod_mul]
  generalize 256 ^ n = M at *
  congr 2 <;> omega

theorem load_append (p q : List Byte) : load (p ++ q) = load p + 256 ^ p.length * load q := by
  induction p with
  | nil => simp [load]
  | cons b p ih =>
    rw [List.cons_append, load, load, ih, List.length_cons, pow_succ']
    ring

/-- A borrow and a carry come only out of a special byte. -/
theorem specialBits_div {b : Byte} (hb : isSpecialByte b = false) (n v : ℕ) :
    specialBits (n + 1) (b.val + 256 * v) / 2 ^ 8 = specialBits n v := by
  rw [Bool.eq_false_iff, Ne, isSpecialByte_iff] at hb
  have hlt := b.isLt
  have hone := everyByte_one_lt n
  have hcarry : (b.val + 256 * v + (1 + 256 * everyByte 1 n)) / 256 = v + everyByte 1 n := by
    omega
  have hborrow : (256 * 256 ^ n - (1 + 256 * everyByte 1 n) + (b.val + 256 * v)) / 256 =
      256 ^ n - everyByte 1 n + v := by
    omega
  have h1 := Nat.mod_lt (v + everyByte 1 n) (show 0 < 256 ^ n by omega)
  unfold specialBits
  rw [Nat.and_div_two_pow, Nat.and_div_two_pow, everyByte, everyByte, pow_succ', Nat.mod_mul,
    Nat.mod_mul, hcarry, hborrow]
  generalize 256 ^ n = M at *
  congr 2 <;> omega

/-- So the low byte shows one that is special, and a low byte that is not leaves the others
to themselves. -/
theorem specialBits_cons (b : Byte) (n v : ℕ) :
    specialBits (n + 1) (b.val + 256 * v) = 0 ↔ isSpecialByte b = false ∧ specialBits n v = 0 := by
  have hlow := specialBits_mod b n v
  constructor
  · intro h
    rw [h, Nat.zero_mod, eq_comm, lowBits_eq_zero_iff] at hlow
    have hhigh := specialBits_div hlow n v
    rw [h, Nat.zero_div] at hhigh
    exact ⟨hlow, hhigh.symm⟩
  · rintro ⟨hb, h⟩
    rw [(lowBits_eq_zero_iff b).mpr hb] at hlow
    have hhigh := specialBits_div hb n v
    omega

theorem specialBits_load (p : List Byte) :
    specialBits p.length (load p) = 0 ↔ p.any isSpecialByte = false := by
  induction p with
  | nil => simp [specialBits, everyByte]
  | cons b p ih => rw [List.length_cons, load, specialBits_cons, ih, List.any_cons, Bool.or_eq_false_iff]

theorem toNat_specialBits {w n : ℕ} (hw : 2 ^ w = 256 ^ n) {one high : BitVec w}
    (hone : one.toNat = everyByte 1 n) (hhigh : high.toNat = everyByte 0x80 n) (x : BitVec w) :
    (x - one &&& ~~~(x + one) &&& high).toNat = specialBits n x.toNat := by
  rw [BitVec.toNat_and, BitVec.toNat_and, BitVec.toNat_sub, BitVec.toNat_not, BitVec.toNat_add,
    hone, hhigh, hw]
  rfl

/-- The test of a loaded word finds the special bytes of the word. -/
theorem specialBits_ne_zero_iff {w n : ℕ} (hw : 2 ^ w = 256 ^ n) {one high : BitVec w}
    (hone : one.toNat = everyByte 1 n) (hhigh : high.toNat = everyByte 0x80 n) {p : List Byte}
    (hp : n ≤ p.length) :
    let x := BitVec.ofNat w (load (p.take n))
    (x - one &&& ~~~(x + one) &&& high != 0) = (p.take n).any isSpecialByte := by
  intro x
  have hlt := load_lt (p.take n)
  have h := specialBits_load (p.take n)
  rw [List.length_take, Nat.min_eq_left hp] at hlt h
  have hx : x.toNat = load (p.take n) := by
    rw [BitVec.toNat_ofNat, hw, Nat.mod_eq_of_lt hlt]
  rw [Bool.eq_iff_iff, ← not_iff_not, Bool.not_eq_true, Bool.not_eq_true, ← h, ← hx,
    ← toNat_specialBits hw hone hhigh x, bne_eq_false_iff_eq, ← BitVec.toNat_inj]
  simp

theorem hasZeroOr255Byte32_load {p : List Byte} (hp : 4 ≤ p.length) :
    hasZeroOr255Byte32 (load32 p) = (p.take 4).any isSpecialByte :=
  specialBits_ne_zero_iff (by norm_num) rfl rfl hp

theorem hasZeroOr255Byte_load {p : List Byte} (hp : 8 ≤ p.length) :
    hasZeroOr255Byte (load64 p) = (p.take 8).any isSpecialByte :=
  specialBits_ne_zero_iff (by norm_num) rfl rfl hp

/-- The low half of eight bytes is the first four of them. -/
theorem load64_setWidth {p : List Byte} (hp : 8 ≤ p.length) :
    (load64 p).setWidth 32 = load32 p := by
  have h8 := load_lt (p.take 8)
  have h4 := load_lt (p.take 4)
  have hsplit := load_append (p.take 4) ((p.drop 4).take 4)
  rw [← List.take_add, List.length_take, Nat.min_eq_left (by omega)] at hsplit
  rw [List.length_take, Nat.min_eq_left hp] at h8
  rw [List.length_take, Nat.min_eq_left (by omega)] at h4
  apply BitVec.eq_of_toNat_eq
  unfold load64 load32
  rw [BitVec.toNat_setWidth, BitVec.toNat_ofNat, BitVec.toNat_ofNat, hsplit]
  omega

theorem advanceIfNoSpecialBytes_load {p : List Byte} (hp : 4 ≤ p.length) :
    advanceIfNoSpecialBytes (load32 p) p =
      .ok (if (p.take 4).any isSpecialByte then 0 else 4) := by
  unfold advanceIfNoSpecialBytes hardAssert
  rw [hasZeroOr255Byte32_load hp]
  cases h : (p.take 4).any isSpecialByte with
  | true => simp [pure, Except.pure, bind, Except.bind]
  | false =>
    have hall : (p.take 4).all (!isSpecialByte ·) = true := by
      rw [List.all_eq_not_any_not]
      simp [h]
    simp [hall, pure, Except.pure, bind, Except.bind]

theorem dropWhile_of_take {p : List Byte} {n : ℕ} (h : (p.take n).any isSpecialByte = false) :
    p.dropWhile (!isSpecialByte ·) = (p.drop n).dropWhile (!isSpecialByte ·) := by
  conv_lhs => rw [← List.take_append_drop n p]
  apply List.dropWhile_append_of_pos
  intro b hb
  simpa using List.any_eq_false.mp h b hb

theorem firstSpecialOfFour_eq {p : List Byte} (hp : 4 ≤ p.length)
    (h : (p.take 4).any isSpecialByte = true) :
    firstSpecialOfFour p = .ok (p.dropWhile (!isSpecialByte ·)) := by
  match p, hp with
  | c0 :: c1 :: c2 :: c3 :: q, _ =>
    unfold firstSpecialOfFour hardAssert
    by_cases h0 : isSpecialByte c0 = true
    · simp [h0, pure, Except.pure]
    by_cases h1 : isSpecialByte c1 = true
    · simp [h0, h1, pure, Except.pure]
    by_cases h2 : isSpecialByte c2 = true
    · simp [h0, h1, h2, pure, Except.pure]
    have h3 : isSpecialByte c3 = true := by simpa [h0, h1, h2] using h
    simp [h0, h1, h2, h3, pure, Except.pure, bind, Except.bind]

/-- The search by words finds the first special byte, and none of its assertions fails. -/
theorem skipToNextSpecialByte_eq (p : List Byte) :
    skipToNextSpecialByte p = .ok (p.dropWhile (!isSpecialByte ·)) := by
  fun_induction skipToNextSpecialByte p with
  | case1 b0 b1 b2 b3 b4 b5 b6 b7 rest p v hv =>
    have hp : 8 ≤ p.length := by simp [p]
    rw [load64_setWidth hp, advanceIfNoSpecialBytes_load (by omega)]
    rw [hasZeroOr255Byte_load hp] at hv
    have hsplit : p.take 8 = p.take 4 ++ (p.drop 4).take 4 := by rw [← List.take_add]
    rw [hsplit, List.any_append, Bool.or_eq_true] at hv
    cases h4 : (p.take 4).any isSpecialByte with
    | true => exact firstSpecialOfFour_eq (p := p) (by omega) h4
    | false =>
      have hq : 4 ≤ (p.drop 4).length := by rw [List.length_drop]; omega
      rw [dropWhile_of_take h4]
      exact firstSpecialOfFour_eq hq (by simpa [h4] using hv)
  | case2 b0 b1 b2 b3 b4 b5 b6 b7 rest p v hv ih =>
    have hp : 8 ≤ p.length := by simp [p]
    rw [hasZeroOr255Byte_load hp, Bool.not_eq_true] at hv
    rw [ih, dropWhile_of_take hv]
    rfl
  | case3 p _ h =>
    rw [advanceIfNoSpecialBytes_load h]
    cases h4 : (p.take 4).any isSpecialByte with
    | true => rfl
    | false =>
      rw [dropWhile_of_take h4]
      rfl
  | case4 p _ h => rfl

theorem skipToNextSpecialByte_rest {p q : List Byte} {c : Byte}
    (h : skipToNextSpecialByte p = .ok (c :: q)) : q.length < p.length := by
  rw [skipToNextSpecialByte_eq, Except.ok.injEq] at h
  have hle := List.length_dropWhile_le (!isSpecialByte ·) p
  rw [h, List.length_cons] at hle
  omega

/-! ## Strings -/

/-- Copies the bytes up to each special byte, and an escape for that one. -/
def encodeStringFragment (p : List Byte) : Checked (List Byte) :=
  match _h : skipToNextSpecialByte p with
  | .error e => .error e
  | .ok [] => .ok p
  | .ok (c :: rest) => do
    let copied := p.take (p.length - (rest.length + 1))
    hardAssert (isSpecialByte c)
    let encoded ← encodeStringFragment rest
    if c = kEscape1 then return copied ++ [kEscape1, kNullCharacter] ++ encoded
    else
      hardAssert (c = kEscape2)
      return copied ++ [kEscape2, kFFCharacter] ++ encoded
termination_by p.length
decreasing_by exact skipToNextSpecialByte_rest _h

def writeString (s : List Byte) : Checked (List Byte) := do
  return (← encodeStringFragment s) ++ [kEscape1, kSeparator]

/-- The decoded string and what follows its end. The last byte is outside of the search: a
string ends with two bytes. -/
def readString (start : List Byte) : Checked (List Byte × List Byte) :=
  match skipToNextSpecialByte start.dropLast with
  | .error e => .error e
  | .ok q =>
    let copied := start.take (start.dropLast.length - q.length)
    match _h : start.drop (start.dropLast.length - q.length) with
    | c :: next :: rest => do
      hardAssert (isSpecialByte c)
      if c = kEscape1 then
        if next = kSeparator then return (copied, rest)
        else if next = kNullCharacter then
          let (result, rest) ← readString rest
          return (copied ++ 0x00 :: result, rest)
        else .error .returnsFalse
      else do
        hardAssert (c = kEscape2)
        if next = kFFCharacter then
          let (result, rest) ← readString rest
          return (copied ++ 0xff :: result, rest)
        else .error .returnsFalse
    | _ => .error .returnsFalse
termination_by start.length
decreasing_by
  all_goals
    have := congrArg List.length _h
    simp only [List.length_drop, List.length_cons] at this
    omega

/-! ### One byte after the other -/

/-- What stands for a byte in an encoded string. -/
def escapeByte (c : Byte) : List Byte :=
  if c = kEscape1 then [kEscape1, kNullCharacter]
  else if c = kEscape2 then [kEscape2, kFFCharacter]
  else [c]

def stringCode (s : List Byte) : List Byte := s.flatMap escapeByte ++ [kEscape1, kSeparator]

/-- `readString`, byte by byte. -/
def unescape : List Byte → Checked (List Byte × List Byte)
  | c :: next :: rest =>
    if c = kEscape1 then
      if next = kSeparator then .ok ([], rest)
      else if next = kNullCharacter then (unescape rest).map fun (s, rest) => (0x00 :: s, rest)
      else .error .returnsFalse
    else if c = kEscape2 then
      if next = kFFCharacter then (unescape rest).map fun (s, rest) => (0xff :: s, rest)
      else .error .returnsFalse
    else (unescape (next :: rest)).map fun (s, rest) => (c :: s, rest)
  | _ => .error .returnsFalse

theorem isSpecialByte_iff_escape (c : Byte) : isSpecialByte c = true ↔ c = kEscape1 ∨ c = kEscape2 := by
  rw [isSpecialByte_iff, Fin.ext_iff, Fin.ext_iff]
  rfl

theorem escapeByte_of_plain {c : Byte} (hc : isSpecialByte c = false) : escapeByte c = [c] := by
  rw [Bool.eq_false_iff, Ne, isSpecialByte_iff_escape, not_or] at hc
  rw [escapeByte, if_neg hc.1, if_neg hc.2]

theorem take_eq_takeWhile (f : Byte → Bool) (p : List Byte) :
    p.take (p.length - (p.dropWhile f).length) = p.takeWhile f := by
  have hp := List.takeWhile_append_dropWhile (p := f) (l := p)
  have hl := congrArg List.length hp
  rw [List.length_append] at hl
  conv_lhs => rw [← hp]
  apply List.take_left'
  rw [hp]
  omega

theorem plain_of_mem_takeWhile {p : List Byte} {b : Byte}
    (hb : b ∈ p.takeWhile (!isSpecialByte ·)) : isSpecialByte b = false := by
  simpa using List.mem_takeWhile_imp hb

theorem flatMap_escapeByte_of_plain {p : List Byte} (hp : ∀ b ∈ p, isSpecialByte b = false) :
    p.flatMap escapeByte = p := by
  induction p with
  | nil => rfl
  | cons b p ih =>
    rw [List.flatMap_cons, escapeByte_of_plain (hp b (by simp)), ih fun x hx => hp x (by simp [hx])]
    rfl

/-- The fragments that the loop copies and its escapes are the codes of the bytes. -/
theorem encodeStringFragment_eq (p : List Byte) :
    encodeStringFragment p = .ok (p.flatMap escapeByte) := by
  fun_induction encodeStringFragment p with
  | case1 p e h => rw [skipToNextSpecialByte_eq] at h; cases h
  | case2 p h =>
    rw [skipToNextSpecialByte_eq, Except.ok.injEq, List.dropWhile_eq_nil_iff] at h
    rw [flatMap_escapeByte_of_plain fun b hb => by simpa using h b hb]
  | case3 p c rest h copied ih =>
    rw [skipToNextSpecialByte_eq, Except.ok.injEq] at h
    have hcopied : copied = p.takeWhile (!isSpecialByte ·) := by
      rw [← take_eq_takeWhile, h]
      rfl
    have hp : p = copied ++ c :: rest := by
      rw [hcopied, ← h, List.takeWhile_append_dropWhile]
    have hc : isSpecialByte c = true := by
      have hhead := List.head?_dropWhile_not (!isSpecialByte ·) p
      rw [h, List.head?_cons] at hhead
      simpa using hhead
    have hplain : copied.flatMap escapeByte = copied := by
      apply flatMap_escapeByte_of_plain
      rw [hcopied]
      exact fun b hb => plain_of_mem_takeWhile hb
    have hcode : p.flatMap escapeByte = copied ++ (escapeByte c ++ rest.flatMap escapeByte) := by
      conv_lhs => rw [hp, List.flatMap_append, hplain, List.flatMap_cons]
    rw [ih, hcode]
    unfold hardAssert escapeByte
    rcases (isSpecialByte_iff_escape c).mp hc with rfl | rfl
    · simp [hc, pure, Except.pure, bind, Except.bind]
    · simp [hc, show kEscape2 ≠ kEscape1 by decide, pure, Except.pure, bind, Except.bind]

/-- A string is written as the codes of its bytes and the end. -/
theorem writeString_eq (s : List Byte) : writeString s = .ok (stringCode s) := by
  rw [writeString, encodeStringFragment_eq]
  rfl

theorem unescape_of_plain {copied : List Byte} (hp : ∀ b ∈ copied, isSpecialByte b = false)
    (c next : Byte) (rest : List Byte) :
    unescape (copied ++ c :: next :: rest) =
      (unescape (c :: next :: rest)).map fun (s, rest) => (copied ++ s, rest) := by
  induction copied with
  | nil =>
    rw [List.nil_append]
    cases unescape (c :: next :: rest) <;> rfl
  | cons b copied ih =>
    have hb := hp b (by simp)
    rw [Bool.eq_false_iff, Ne, isSpecialByte_iff_escape, not_or] at hb
    have ih := ih fun x hx => hp x (by simp [hx])
    obtain ⟨d, t, hd⟩ : ∃ d t, copied ++ c :: next :: rest = d :: t := by
      cases copied with
      | nil => exact ⟨_, _, rfl⟩
      | cons x xs => exact ⟨_, _, rfl⟩
    rw [List.cons_append, hd, unescape, if_neg hb.1, if_neg hb.2, ← hd, ih]
    cases unescape (c :: next :: rest) <;> rfl

/-- Without a special byte before the last one there is no end. -/
theorem unescape_plain {p : List Byte} (hp : ∀ b ∈ p.dropLast, isSpecialByte b = false) :
    unescape p = .error .returnsFalse := by
  induction p with
  | nil => rfl
  | cons c p ih =>
    cases p with
    | nil => rfl
    | cons next rest =>
      have hc := hp c (by simp)
      rw [Bool.eq_false_iff, Ne, isSpecialByte_iff_escape, not_or] at hc
      rw [unescape, if_neg hc.1, if_neg hc.2, ih fun b hb => hp b (by simp [hb])]
      rfl

/-- The search leaves all but the last byte of what is read next, and passes plain bytes. -/
theorem drop_of_search {p q : List Byte} (hq : skipToNextSpecialByte p.dropLast = .ok q) :
    (p.drop (p.dropLast.length - q.length)).dropLast = q ∧
      p.take (p.dropLast.length - q.length) = p.dropLast.takeWhile (!isSpecialByte ·) := by
  rw [skipToNextSpecialByte_eq, Except.ok.injEq] at hq
  subst hq
  have htake := take_eq_takeWhile (!isSpecialByte ·) p.dropLast
  have hsplit := List.take_append_drop
    (p.dropLast.length - (p.dropLast.dropWhile (!isSpecialByte ·)).length) p.dropLast
  rw [htake] at hsplit
  have hdrop := List.append_cancel_left
    (hsplit.trans (List.takeWhile_append_dropWhile (p := (!isSpecialByte ·)) (l := p.dropLast)).symm)
  rcases List.eq_nil_or_concat p with rfl | ⟨r, last, rfl⟩
  · exact ⟨rfl, rfl⟩
  · rw [List.concat_eq_append, List.dropLast_concat] at *
    rw [List.drop_append_of_le_length (by omega), List.dropLast_concat,
      List.take_append_of_le_length (by omega)]
    exact ⟨hdrop, htake⟩

theorem readString_eq (p : List Byte) : readString p = unescape p := by
  fun_induction readString p with
  | case1 p e hq =>
    rw [skipToNextSpecialByte_eq] at hq
    cases hq
  | case2 p q hq copied c next rest hdrop ih =>
    obtain ⟨hlast, htake⟩ := drop_of_search hq
    have hp : p = copied ++ c :: next :: rest := by
      rw [← hdrop, List.take_append_drop]
    have hc : isSpecialByte c = true := by
      have hhead := List.head?_dropWhile_not (!isSpecialByte ·) p.dropLast
      rw [skipToNextSpecialByte_eq, Except.ok.injEq] at hq
      rw [hq, ← hlast, hdrop, List.dropLast_cons_cons, List.head?_cons] at hhead
      simpa using hhead
    have hcopied : copied = p.dropLast.takeWhile (!isSpecialByte ·) := htake
    have hplain : ∀ b ∈ copied, isSpecialByte b = false := fun b hb =>
      plain_of_mem_takeWhile (hcopied ▸ hb)
    conv_rhs => rw [hp, unescape_of_plain hplain, unescape]
    rw [ih]
    unfold hardAssert
    have hne : kEscape2 ≠ kEscape1 := by decide
    have hnull : kNullCharacter ≠ kSeparator := by decide
    rcases (isSpecialByte_iff_escape c).mp hc with rfl | rfl
    · by_cases h1 : next = kSeparator
      · simp [hc, h1, pure, Except.pure, bind, Except.bind, Except.map]
      by_cases h2 : next = kNullCharacter
      · cases unescape rest <;>
          simp [hc, h2, hnull, pure, Except.pure, bind, Except.bind, Except.map]
      · simp [hc, h1, h2, bind, Except.bind, Except.map]
    · by_cases h : next = kFFCharacter
      · cases unescape rest <;>
          simp [hc, h, hne, pure, Except.pure, bind, Except.bind, Except.map]
      · simp [hc, h, hne, bind, Except.bind, Except.map]
  | case3 p q hq hdrop =>
    -- Fewer than two bytes are left after the plain ones.
    obtain ⟨hlast, htake⟩ := drop_of_search hq
    have hnil : q = [] := by
      rw [← hlast]
      cases hd : p.drop (p.dropLast.length - q.length) with
      | nil => rfl
      | cons c t =>
        cases t with
        | nil => rfl
        | cons next rest => exact absurd hd (hdrop c next rest)
    rw [skipToNextSpecialByte_eq, Except.ok.injEq, hnil, List.dropWhile_eq_nil_iff] at hq
    exact (unescape_plain fun b hb => by simpa using hq b hb).symm

/-! ### The code of the strings -/

theorem escapeByte_head (c : Byte) : ∃ t, escapeByte c = c :: t := by
  unfold escapeByte
  split
  · rename_i h
    exact ⟨_, by rw [h]⟩
  · split
    · rename_i h
      exact ⟨_, by rw [h]⟩
    · exact ⟨_, rfl⟩

theorem stringCode_cons (c : Byte) (s : List Byte) :
    stringCode (c :: s) = escapeByte c ++ stringCode s := by
  simp [stringCode]

theorem stringCode_head (s rest : List Byte) : ∃ c t, stringCode s ++ rest = c :: t := by
  cases s with
  | nil => exact ⟨_, _, rfl⟩
  | cons c s =>
    obtain ⟨t, ht⟩ := escapeByte_head c
    rw [stringCode_cons, ht]
    exact ⟨_, _, rfl⟩

/-- A string is read back from its code, whatever follows it. -/
theorem unescape_stringCode (s rest : List Byte) : unescape (stringCode s ++ rest) = .ok (s, rest) := by
  induction s with
  | nil => rfl
  | cons c s ih =>
    rw [stringCode_cons, List.append_assoc, escapeByte]
    by_cases h1 : c = kEscape1
    · subst h1
      rw [if_pos rfl, List.cons_append, List.cons_append, List.nil_append, unescape, if_pos rfl,
        if_neg (by decide), if_pos rfl, ih]
      rfl
    by_cases h2 : c = kEscape2
    · subst h2
      rw [if_neg h1, if_pos rfl, List.cons_append, List.cons_append, List.nil_append, unescape,
        if_neg h1, if_pos rfl, if_pos rfl, ih]
      rfl
    · obtain ⟨d, t, hd⟩ := stringCode_head s rest
      rw [if_neg h1, if_neg h2, hd, List.cons_append, List.nil_append, unescape, if_neg h1,
        if_neg h2, ← hd, ih]
      rfl

theorem map_cons_eq_ok {c : Byte} {x : Checked (List Byte × List Byte)} {s rest : List Byte}
    (h : (x.map fun (s, rest) => (c :: s, rest)) = .ok (s, rest)) :
    ∃ s', x = .ok (s', rest) ∧ s = c :: s' := by
  cases x with
  | error e => cases h
  | ok v =>
    cases h
    exact ⟨v.1, rfl, rfl⟩

/-- And only from its code. -/
theorem eq_stringCode_of_unescape {p s rest : List Byte} (h : unescape p = .ok (s, rest)) :
    p = stringCode s ++ rest := by
  fun_induction unescape p generalizing s with
  | case1 =>
    cases h
    rfl
  | case2 _ _ ih =>
    obtain ⟨s', hs, rfl⟩ := map_cons_eq_ok h
    rw [stringCode_cons, List.append_assoc, ← ih hs]
    rfl
  | case3 => cases h
  | case4 _ _ ih =>
    obtain ⟨s', hs, rfl⟩ := map_cons_eq_ok h
    rw [stringCode_cons, List.append_assoc, ← ih hs]
    rfl
  | case5 => cases h
  | case6 c next rest' h1 h2 ih =>
    obtain ⟨s', hs, rfl⟩ := map_cons_eq_ok h
    rw [stringCode_cons, List.append_assoc, ← ih hs, escapeByte, if_neg h1, if_neg h2]
    rfl
  | case7 => cases h

theorem readString_iff (p s rest : List Byte) :
    readString p = .ok (s, rest) ↔ p = stringCode s ++ rest := by
  rw [readString_eq]
  constructor
  · exact eq_stringCode_of_unescape
  · rintro rfl
    exact unescape_stringCode s rest

theorem escapeByte_ordered : Ordered (· < ·) escapeByte := by
  intro c d h
  obtain ⟨s, hs⟩ := escapeByte_head c
  obtain ⟨t, ht⟩ := escapeByte_head d
  rw [hs, ht]
  exact Or.inl h

theorem separator_below (c : Byte) : Below [kEscape1, kSeparator] (escapeByte c) := by
  by_cases h : c = kEscape1
  · rw [escapeByte, if_pos h]
    exact Or.inr ⟨rfl, Or.inl (by decide)⟩
  · obtain ⟨t, ht⟩ := escapeByte_head c
    rw [ht]
    exact Or.inl (Fin.pos_iff_ne_zero.mpr h)

/-- The codes of two strings are decided as the strings are ordered. -/
theorem stringCode_ordered : Ordered (· < ·) stringCode :=
  escapeByte_ordered.closed separator_below

theorem string_trichotomy (s t : List Byte) : s = t ∨ s < t ∨ t < s :=
  (lt_trichotomy s t).elim (fun h => Or.inr (Or.inl h)) fun h => h.imp id fun h => Or.inr h

/-- Whatever follows them, two written strings sort as the strings do. And a string is read
from the bytes that it is written as, and from no others. -/
theorem written_strings_sort_and_are_read_back (s t : List Byte) :
    ∃ a b, writeString s = .ok a ∧ writeString t = .ok b ∧
      (∀ u v, a ++ u < b ++ v ↔ s < t ∨ s = t ∧ u < v) ∧
      ∀ p rest, readString p = .ok (s, rest) ↔ p = a ++ rest :=
  ⟨stringCode s, stringCode t, writeString_eq s, writeString_eq t,
    fun _ _ => stringCode_ordered.append_lt_iff (string_trichotomy s t), fun p rest => readString_iff p s rest⟩

end EasyVerbs.Firestore
