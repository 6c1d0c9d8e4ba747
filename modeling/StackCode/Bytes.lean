/-
Words as bytes.

A word of any width is written least significant byte first; images are written
that way, and code, which is written most significant byte first, reverses it.
-/

namespace StackCode.Bytes

/-- The `width` low bytes of `n`, least significant first. -/
def littleEndian : Nat → Nat → List UInt8
  | 0, _ => []
  | width + 1, n => UInt8.ofNat n :: littleEndian width (n / 256)

/-- The number that bytes spell, least significant first. -/
def ofLittleEndian : List UInt8 → Nat
  | [] => 0
  | b :: bs => b.toNat + 256 * ofLittleEndian bs

/-- The `width` low bytes of `n`, most significant first. -/
def bigEndian (width n : Nat) : List UInt8 := (littleEndian width n).reverse

/-- The number that bytes spell, most significant first. -/
def ofBigEndian (bs : List UInt8) : Nat := ofLittleEndian bs.reverse

/-- How many numbers can be told apart in `width` bytes. -/
def capacity : Nat → Nat
  | 0 => 1
  | width + 1 => 256 * capacity width

@[simp] theorem length_littleEndian (width n : Nat) : (littleEndian width n).length = width := by
  induction width generalizing n with
  | zero => rfl
  | succ width ih => simp [littleEndian, ih]

@[simp] theorem length_bigEndian (width n : Nat) : (bigEndian width n).length = width := by
  simp [bigEndian]

/-- What is read back is what was written, as far as the width reaches. -/
theorem ofLittleEndian_littleEndian (width n : Nat) :
    ofLittleEndian (littleEndian width n) = n % capacity width := by
  induction width generalizing n with
  | zero => rw [littleEndian, ofLittleEndian, capacity, Nat.mod_one]
  | succ width ih =>
    have hbyte : (UInt8.ofNat n).toNat = n % 256 := by simp
    rw [littleEndian, ofLittleEndian, ih, hbyte, capacity, Nat.mod_mul]

/-- A number that fits its width is read back, most significant byte first. -/
theorem ofBigEndian_bigEndian {width n : Nat} (h : n < capacity width) :
    ofBigEndian (bigEndian width n) = n := by
  rw [ofBigEndian, bigEndian, List.reverse_reverse, ofLittleEndian_littleEndian,
    Nat.mod_eq_of_lt h]

/-- Writing at the width that was read gives the bytes back. -/
theorem littleEndian_ofLittleEndian (bs : List UInt8) :
    littleEndian bs.length (ofLittleEndian bs) = bs := by
  induction bs with
  | nil => rfl
  | cons b bs ih =>
    have hlow : UInt8.ofNat (b.toNat + 256 * ofLittleEndian bs) = b := by
      apply UInt8.toNat_inj.mp
      simp
    have hhigh : (b.toNat + 256 * ofLittleEndian bs) / 256 = ofLittleEndian bs := by
      have := UInt8.toNat_lt b
      omega
    rw [List.length_cons, ofLittleEndian, littleEndian, hlow, hhigh, ih]

theorem ofLittleEndian_lt (bs : List UInt8) : ofLittleEndian bs < capacity bs.length := by
  induction bs with
  | nil => exact Nat.zero_lt_one
  | cons b bs ih =>
    have := UInt8.toNat_lt b
    rw [ofLittleEndian, List.length_cons, capacity]
    omega

/-- The first `n` bytes and those after them, if there are so many. -/
def split? (n : Nat) (bs : List UInt8) : Option (List UInt8 × List UInt8) :=
  let front := bs.take n
  if front.length = n then some (front, bs.drop n) else none

/-- A split loses nothing and cuts where it was asked to. -/
theorem split?_eq_some_iff {n : Nat} {bs front rest : List UInt8} :
    split? n bs = some (front, rest) ↔ bs = front ++ rest ∧ front.length = n := by
  simp only [split?]
  constructor
  · intro h
    split at h
    · rename_i hlen
      obtain ⟨rfl, rfl⟩ := by simpa using h
      exact ⟨(List.take_append_drop n bs).symm, hlen⟩
    · simp at h
  · rintro ⟨rfl, rfl⟩
    simp

end StackCode.Bytes
