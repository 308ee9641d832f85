/-! # Numerals

Reading digits in a base up to thirty-six, with at most one sign in front, and writing numbers.
Values are unbounded here; a caller that needs a word checks the bound. -/

namespace ConstantCatalog.Text
set_option autoImplicit false

/-- The value of `c` as a digit. Letters of either case follow the ten ASCII digits, and any other
character lies above every base. -/
def digitValue (c : Char) : Nat :=
  if '0' ≤ c ∧ c ≤ '9' then c.toNat - '0'.toNat
  else if 'a' ≤ c ∧ c ≤ 'z' then c.toNat - 'a'.toNat + 10
  else if 'A' ≤ c ∧ c ≤ 'Z' then c.toNat - 'A'.toNat + 10
  else 36

def digit? (base : Nat) (c : Char) : Option Nat :=
  if digitValue c < base then some (digitValue c) else none

/-- One or more digits; leading zeros are allowed. -/
def digits? (base : Nat) : List Char → Option Nat
  | [] => none
  | c :: s => (c :: s).foldlM (fun n d => (digit? base d).map (n * base + ·)) 0

/-- Digits after at most one plus sign. -/
def natural? (base : Nat) : List Char → Option Nat
  | '+' :: s => digits? base s
  | s => digits? base s

/-- Decimal digits after at most one sign. -/
def integer? : List Char → Option Int
  | '-' :: s => (digits? 10 s).map fun n => -(n : Int)
  | s => (natural? 10 s).map Int.ofNat

/-- A natural number below `2 ^ 32`. -/
def word? (base : Nat) (s : List Char) : Option UInt32 :=
  (natural? base s).bind fun n => if n < UInt32.size then some (UInt32.ofNat n) else none

/-- The decimal digits of a number, after a minus sign when it is negative. -/
def decimal : Int → List Char
  | .ofNat n => Nat.toDigits 10 n
  | .negSucc n => '-' :: Nat.toDigits 10 (n + 1)

/-- The hexadecimal digits of a number in lower case, filled up with zeros to `width`. -/
def hexadecimal (width n : Nat) : List Char :=
  let ds := Nat.toDigits 16 n
  List.replicate (width - ds.length) '0' ++ ds

end ConstantCatalog.Text
