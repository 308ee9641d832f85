import ConstantCatalog.Text.Numeral

/-! # Literals

The right sides of block text that stand for a 32-bit value. A decimal numeral is the value itself;
a hexadecimal one is its bit pattern, so that `0x80000000` is the least value. -/

namespace ConstantCatalog.BlockText
set_option autoImplicit false
open Text

namespace Literal

def ofPattern? (digits : List Char) : Option Int32 :=
  (word? 16 digits).map UInt32.toInt32

def ofDecimal? (text : List Char) : Option Int32 :=
  (integer? text).bind fun n =>
    if Int32.minValue.toInt ≤ n ∧ n ≤ Int32.maxValue.toInt then some (Int32.ofInt n) else none

/-- Reads a literal: hexadecimal after `0x` or `0X`, else decimal. -/
def read? : List Char → Option Int32
  | '0' :: 'x' :: digits => ofPattern? digits
  | '0' :: 'X' :: digits => ofPattern? digits
  | text => ofDecimal? text

def decimal (value : Int32) : List Char :=
  Text.decimal value.toInt

def pattern (value : Int32) : List Char :=
  '0' :: 'x' :: hexadecimal 0 value.toUInt32.toNat

end Literal

end ConstantCatalog.BlockText
