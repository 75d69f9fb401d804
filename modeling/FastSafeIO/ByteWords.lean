import Mathlib.Algebra.Order.Ring.Nat

/-! Little-endian words in a byte string. -/
namespace ByteWords

/-- The lowest byte comes first. -/
def ofBytes : List UInt8 → Nat
  | [] => 0
  | b :: bs => b.toNat + 256 * ofBytes bs

def toBytes : Nat → Nat → List UInt8
  | 0, _ => []
  | width + 1, n => UInt8.ofNat (n % 256) :: toBytes width (n / 256)

/-- So many words of one width, one after the other. -/
def wordsOf (width : Nat) : Nat → List UInt8 → List Nat
  | 0, _ => []
  | count + 1, bs => ofBytes (bs.take width) :: wordsOf width count (bs.drop width)

@[simp] theorem to_bytes_length (width n : Nat) : (toBytes width n).length = width := by
  induction width generalizing n with
  | zero => rfl
  | succ width ih => simp [toBytes, ih]

theorem of_bytes_lt (bs : List UInt8) : ofBytes bs < 256 ^ bs.length := by
  induction bs with
  | nil => decide
  | cons b bs ih =>
    have low := b.toNat_lt
    rw [ofBytes, List.length_cons, Nat.pow_succ]
    omega

theorem of_to_bytes {width n : Nat} (small : n < 256 ^ width) : ofBytes (toBytes width n) = n := by
  induction width generalizing n with
  | zero =>
    rw [Nat.pow_zero] at small
    exact (Nat.lt_one_iff.mp small).symm
  | succ width ih =>
    rw [Nat.pow_succ] at small
    have low : (UInt8.ofNat (n % 256)).toNat = n % 256 := by simp
    rw [toBytes, ofBytes, ih (by omega), low]
    omega

theorem to_of_bytes (bs : List UInt8) : toBytes bs.length (ofBytes bs) = bs := by
  induction bs with
  | nil => rfl
  | cons b bs ih =>
    have low := b.toNat_lt
    have rest : (b.toNat + 256 * ofBytes bs) % 256 = b.toNat := by omega
    have next : (b.toNat + 256 * ofBytes bs) / 256 = ofBytes bs := by omega
    rw [ofBytes, List.length_cons, toBytes, rest, next, ih, UInt8.ofNat_toNat]

@[simp] theorem words_of_length (width count : Nat) (bs : List UInt8) :
    (wordsOf width count bs).length = count := by
  induction count generalizing bs with
  | zero => rfl
  | succ count ih => simp [wordsOf, ih]

theorem words_of_lt {width count : Nat} {bs : List UInt8} :
    ∀ n ∈ wordsOf width count bs, n < 256 ^ width := by
  induction count generalizing bs with
  | zero => simp [wordsOf]
  | succ count ih =>
    intro n member
    rcases List.mem_cons.mp member with rfl | later
    · have short : (bs.take width).length ≤ width := List.length_take_le ..
      exact Nat.lt_of_lt_of_le (of_bytes_lt _) (Nat.pow_le_pow_right (by decide) short)
    · exact ih n later

theorem words_of_concat {width : Nat} (ns : List Nat) (small : ∀ n ∈ ns, n < 256 ^ width) :
    wordsOf width ns.length (ns.flatMap (toBytes width)) = ns := by
  induction ns with
  | nil => rfl
  | cons n ns ih =>
    have first := of_to_bytes (small n List.mem_cons_self)
    have others := ih fun k member => small k (List.mem_cons_of_mem n member)
    have length := to_bytes_length width n
    simp only [List.length_cons, List.flatMap_cons, wordsOf]
    rw [List.take_left' length, List.drop_left' length, first, others]

theorem concat_words_of {width count : Nat} {bs : List UInt8} (whole : bs.length = width * count) :
    (wordsOf width count bs).flatMap (toBytes width) = bs := by
  induction count generalizing bs with
  | zero =>
    rw [Nat.mul_zero] at whole
    rw [List.length_eq_zero_iff.mp whole]
    rfl
  | succ count ih =>
    rw [Nat.mul_succ] at whole
    have first : (bs.take width).length = width := List.length_take_of_le (by omega)
    have others : (bs.drop width).length = width * count := by
      rw [List.length_drop]
      omega
    have word := to_of_bytes (bs.take width)
    rw [first] at word
    rw [wordsOf, List.flatMap_cons, ih others, word, List.take_append_drop]

/-- Words of these widths, one after the other. -/
def fieldsOf : List Nat → List UInt8 → List Nat
  | [], _ => []
  | width :: widths, bs => ofBytes (bs.take width) :: fieldsOf widths (bs.drop width)

end ByteWords
