import FastSafeIO.TextTables

/-! int(text, base) and str(int), over the ASCII characters. -/
namespace PythonInts
open TextTables

/-- The value of a digit or a letter. -/
def digitOf (c : Char) : Option Nat :=
  if 48 ≤ c.toNat ∧ c.toNat ≤ 57 then some (c.toNat - 48)
  else if 97 ≤ c.toNat ∧ c.toNat ≤ 122 then some (c.toNat - 87)
  else if 65 ≤ c.toNat ∧ c.toNat ≤ 90 then some (c.toNat - 55)
  else none

def isDigitIn (base : Nat) (c : Char) : Bool := (digitOf c).any (· < base)

/-- Digits of a base, with single underscores between them. -/
def readIn (base : Nat) (w : List Char) : Option Nat :=
  let groups := w.splitOn '_'
  if groups.all fun g => !g.isEmpty && g.all (isDigitIn base) then
    some (groups.flatten.foldl (fun n c => base * n + (digitOf c).getD 0) 0)
  else none

/-- The base that a letter after a 0 stands for. -/
def baseOf (c : Char) : Option Nat :=
  if c = 'x' ∨ c = 'X' then some 16
  else if c = 'o' ∨ c = 'O' then some 8
  else if c = 'b' ∨ c = 'B' then some 2
  else none

/-- Digits after the letter of their base. -/
def readAfter (base : Nat) : List Char → Option Nat
  | '_' :: w => readIn base w
  | w => readIn base w

/-- A literal without its sign: other numbers in base 10 than 0 do not begin with a 0. -/
def readLiteral : List Char → Option Nat
  | '0' :: c :: rest =>
    match baseOf c with
    | some base => readAfter base rest
    | none => if readIn 10 ('0' :: c :: rest) = some 0 then some 0 else none
  | w => readIn 10 w

def signed (read : List Char → Option Nat) : List Char → Option Int
  | [] => none
  | c :: w =>
    if c = '-' then (read w).map fun n : Nat => -(n : Int)
    else if c = '+' then (read w).map Int.ofNat
    else (read (c :: w)).map Int.ofNat

/-- int(w, 10) -/
def int10 : List Char → Option Int := signed (readIn 10)

/-- int(w, 0) -/
def int0 : List Char → Option Int := signed readLiteral

/-- str() -/
def printInt : Int → List Char
  | .ofNat n => printNat n
  | .negSucc n => '-' :: printNat (n + 1)

section
variable {base n d : Nat}

theorem digit_of_digit_char (small : d < 16) : digitOf (Nat.digitChar d) = some d := by
  have all : ∀ d < 16, digitOf (Nat.digitChar d) = some d := by decide
  exact all d small

theorem digit_char_in (small : d < base) (known : base ≤ 16) :
    isDigitIn base (Nat.digitChar d) = true := by
  unfold isDigitIn
  rw [digit_of_digit_char (by omega)]
  simpa using small

theorem to_digits_in (two : 1 < base) (known : base ≤ 16) :
    ∀ c ∈ Nat.toDigits base n, isDigitIn base c = true := by
  induction n using Nat.base_induction base two with
  | single m small =>
    rw [Nat.toDigits_of_lt_base small]
    intro c member
    rw [List.mem_singleton.mp member]
    exact digit_char_in small known
  | digit m k small positive ih =>
    rw [← Nat.toDigits_append_toDigits two positive small, Nat.toDigits_of_lt_base small]
    intro c member
    rcases List.mem_append.mp member with before | last
    · exact ih c before
    · rw [List.mem_singleton.mp last]
      exact digit_char_in small known

theorem fold_to_digits (two : 1 < base) (known : base ≤ 16) :
    (Nat.toDigits base n).foldl (fun n c => base * n + (digitOf c).getD 0) 0 = n := by
  induction n using Nat.base_induction base two with
  | single m small =>
    rw [Nat.toDigits_of_lt_base small]
    simp [digit_of_digit_char (by omega : m < 16)]
  | digit m k small positive ih =>
    rw [← Nat.toDigits_append_toDigits two positive small, Nat.toDigits_of_lt_base small,
      List.foldl_append, ih]
    simp [digit_of_digit_char (by omega : k < 16)]

theorem read_to_digits (two : 1 < base) (known : base ≤ 16) :
    readIn base (Nat.toDigits base n) = some n := by
  have digits := to_digits_in (n := n) two known
  have whole : ∀ c ∈ Nat.toDigits base n, (c == '_') = false := by
    intro c member
    have digit := digits c member
    have other : c ≠ '_' := by
      intro same
      rw [same] at digit
      cases digit
    simpa using other
  have some_char : Nat.toDigits base n ≠ [] := Nat.toDigits_ne_nil
  unfold readIn
  rw [List.splitOn_eq_splitOnP, List.splitOnP_eq_singleton whole]
  dsimp only
  rw [if_pos (by simpa [some_char] using digits), List.flatten_singleton, fold_to_digits two known]

end

section
variable {n : Nat}

theorem no_sign {c : Char} (digit : c.isDigit = true) : c ≠ '-' ∧ c ≠ '+' := by
  constructor
  · intro same
    rw [same] at digit
    exact absurd digit (by decide)
  · intro same
    rw [same] at digit
    exact absurd digit (by decide)

theorem signed_digits (read : List Char → Option Nat) {w : List Char} (some_char : w ≠ [])
    (digits : ∀ c ∈ w, c.isDigit = true) : signed read w = (read w).map Int.ofNat := by
  obtain ⟨c, v, rfl⟩ := List.exists_cons_of_ne_nil some_char
  obtain ⟨minus, plus⟩ := no_sign (digits c List.mem_cons_self)
  rw [signed, if_neg minus, if_neg plus]

theorem int10_print (n : Nat) : int10 (printNat n) = some (n : Int) := by
  unfold int10
  rw [signed_digits _ (print_nat_ne_nil n) (print_nat_digits n), printNat,
    read_to_digits (by decide) (by decide)]
  rfl

theorem head_to_digits {base : Nat} (two : 1 < base) (positive : 0 < n) :
    (Nat.toDigits base n).head? ≠ some '0' := by
  induction n using Nat.base_induction base two with
  | single m small =>
    rw [Nat.toDigits_of_lt_base small, List.head?_cons]
    intro zero
    have none : m = 0 := Nat.digitChar_eq_zero.mp (Option.some.inj zero)
    omega
  | digit m k small some_digit ih =>
    have some_char : Nat.toDigits base m ≠ [] := Nat.toDigits_ne_nil
    rw [← Nat.toDigits_append_toDigits two some_digit small, List.head?_append_of_ne_nil _ some_char]
    exact ih some_digit

theorem literal_print (n : Nat) : readLiteral (printNat n) = some n := by
  have read : readIn 10 (printNat n) = some n := read_to_digits (by decide) (by decide)
  unfold readLiteral
  split
  · rename_i c rest text
    have zero : (printNat n).head? = some '0' := by rw [text]; rfl
    cases n with
    | zero => cases text
    | succ n => exact absurd zero (head_to_digits (by decide) (Nat.succ_pos n))
  · exact read

theorem literal_hex (n : Nat) : readLiteral ('0' :: 'x' :: Nat.toDigits 16 n) = some n := by
  have digits : ∀ c ∈ Nat.toDigits 16 n, isDigitIn 16 c = true :=
    to_digits_in (by decide) (by decide)
  have after : readAfter 16 (Nat.toDigits 16 n) = readIn 16 (Nat.toDigits 16 n) := by
    unfold readAfter
    split
    · rename_i text
      rw [text] at digits
      cases digits '_' List.mem_cons_self
    · rfl
  calc readLiteral ('0' :: 'x' :: Nat.toDigits 16 n) = readAfter 16 (Nat.toDigits 16 n) := rfl
    _ = some n := after.trans (read_to_digits (by decide) (by decide))

theorem int0_print (n : Int) : int0 (printInt n) = some n := by
  cases n with
  | ofNat n =>
    unfold int0
    rw [printInt, signed_digits _ (print_nat_ne_nil n) (print_nat_digits n), literal_print]
    rfl
  | negSucc n =>
    unfold int0
    rw [printInt, signed, if_pos rfl, literal_print]
    rfl

theorem int0_hex (n : Nat) : int0 ('0' :: 'x' :: Nat.toDigits 16 n) = some (n : Int) := by
  unfold int0
  rw [signed, if_neg (by decide), if_neg (by decide), literal_hex]
  rfl

theorem print_int_inj {n m : Int} (same : printInt n = printInt m) : n = m := by
  have back := int0_print n
  rw [same, int0_print] at back
  exact (Option.some.inj back).symm

theorem print_int_ne_nil (n : Int) : printInt n ≠ [] := by
  cases n with
  | ofNat n => exact print_nat_ne_nil n
  | negSucc n => exact List.cons_ne_nil _ _

end
end PythonInts
