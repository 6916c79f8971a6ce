/-!
# Byte strings

Byte strings are lists of bytes.  A natural number becomes a fixed number of bytes with
`littleEndian` or `bigEndian`, and `ofLittleEndian` and `ofBigEndian` read it back; `values` says
which numbers fit.
`takeExactly?` is the one bounded read that every reader of a byte string uses, and `hex` is the
lower-case text of a number that the error messages of this library show.
-/

namespace PlistCodec

/-- A byte string. -/
abbrev Bytes := List UInt8

namespace Bytes

/-! ## Numbers -/

/-- How many numbers fit into `width` bytes. -/
def values (width : Nat) : Nat := 1 <<< (8 * width)

/-- The first number that has its sign bit set in `width` bytes. -/
def signLimit (width : Nat) : Nat := 1 <<< (8 * width - 1)

/-- The `width` low bytes of `n`, least significant first. -/
def littleEndian : (width : Nat) → (n : Nat) → Bytes
  | 0, _ => []
  | width + 1, n => UInt8.ofNat n :: littleEndian width (n / 256)

/-- The number whose bytes are given least significant first. -/
def ofLittleEndian : Bytes → Nat
  | [] => 0
  | b :: bs => b.toNat + 256 * ofLittleEndian bs

/-- The `width` low bytes of `n`, most significant first. -/
def bigEndian (width n : Nat) : Bytes :=
  (littleEndian width n).reverse

/-- The number whose bytes are given most significant first. -/
def ofBigEndian (bs : Bytes) : Nat :=
  bs.foldl (fun n b => 256 * n + b.toNat) 0

/-! ## Bounded reads -/

/-- The first `n` bytes and what follows them, or nothing if there are fewer than `n`.
Only the bytes that are taken are walked over. -/
def takeExactly? (n : Nat) (bs : Bytes) : Option (Bytes × Bytes) :=
  let taken := bs.take n
  if taken.length = n then some (taken, bs.drop n) else none

/-- Whether `bs` begins with the bytes `start`. -/
def startsWith (bs start : Bytes) : Bool :=
  start.isPrefixOf bs

/-! ## Text -/

/-- The UTF-8 bytes of a text. -/
def ofString (s : String) : Bytes :=
  s.toUTF8.data.toList

/-- A number in lower-case hexadecimal digits, without leading zeros. -/
def hex (n : Nat) : String :=
  String.ofList (Nat.toDigits 16 n)

/-- A byte as two lower-case hexadecimal digits. -/
def hexByte (b : UInt8) : String :=
  if b < 16 then "0" ++ hex b.toNat else hex b.toNat

/-! ## Laws -/

theorem values_succ (width : Nat) : values (width + 1) = 256 * values width := by
  simp only [values, Nat.mul_succ, Nat.shiftLeft_add]
  rw [Nat.shiftLeft_eq _ 8, Nat.mul_comm]

@[simp] theorem length_littleEndian (width n : Nat) : (littleEndian width n).length = width := by
  induction width generalizing n with
  | zero => rfl
  | succ width ih => simp [littleEndian, ih]

@[simp] theorem length_bigEndian (width n : Nat) : (bigEndian width n).length = width := by
  simp [bigEndian]

/-- Reading back what was written gives the number as far as it fits. -/
theorem ofLittleEndian_littleEndian (width n : Nat) :
    ofLittleEndian (littleEndian width n) = n % values width := by
  induction width generalizing n with
  | zero => simp [littleEndian, ofLittleEndian, values, Nat.mod_one]
  | succ width ih =>
    rw [littleEndian, ofLittleEndian, ih, values_succ, Nat.mod_mul, UInt8.toNat_ofNat']

theorem ofLittleEndian_lt (bs : Bytes) : ofLittleEndian bs < values bs.length := by
  induction bs with
  | nil => decide
  | cons b bs ih =>
    have hlt := b.toNat_lt
    rw [ofLittleEndian, List.length_cons, values_succ]
    omega

theorem ofBigEndian_eq (bs : Bytes) : ofBigEndian bs = ofLittleEndian bs.reverse := by
  induction h : bs.reverse generalizing bs with
  | nil => simp_all [ofBigEndian, ofLittleEndian]
  | cons b r ih =>
    obtain rfl : bs = r.reverse ++ [b] := by simpa using congrArg List.reverse h
    have := ih r.reverse (by simp)
    simp only [ofBigEndian, List.foldl_append, List.foldl_cons, List.foldl_nil] at this ⊢
    rw [this, ofLittleEndian]
    omega

theorem ofBigEndian_bigEndian (width n : Nat) :
    ofBigEndian (bigEndian width n) = n % values width := by
  simp [ofBigEndian_eq, bigEndian, ofLittleEndian_littleEndian]

/-- A bounded read succeeds exactly when the bytes are there, and splits the string. -/
theorem takeExactly?_eq_some_iff {n : Nat} {bs taken rest : Bytes} :
    takeExactly? n bs = some (taken, rest) ↔ taken.length = n ∧ bs = taken ++ rest := by
  unfold takeExactly?
  constructor
  · intro h
    simp only [Option.ite_none_right_eq_some, Option.some.injEq, Prod.mk.injEq] at h
    obtain ⟨hn, rfl, rfl⟩ := h
    exact ⟨hn, (List.take_append_drop n bs).symm⟩
  · rintro ⟨rfl, rfl⟩
    simp

theorem takeExactly?_eq_none_iff {n : Nat} {bs : Bytes} :
    takeExactly? n bs = none ↔ bs.length < n := by
  simp only [takeExactly?, List.length_take, ite_eq_right_iff, reduceCtorEq, imp_false]
  omega

end Bytes

end PlistCodec
