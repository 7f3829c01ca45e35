import TermCapture.Text.Digit

namespace TermCapture.Text

/-- The blanks allowed around a number. -/
def numberBlank (c : Char) : Bool :=
  (0x09 ≤ c.toNat && c.toNat ≤ 0x0d) || (0x2000 ≤ c.toNat && c.toNat ≤ 0x200a) ||
    [0x20, 0x85, 0xa0, 0x1680, 0x2028, 0x2029, 0x202f, 0x205f, 0x3000].contains c.toNat

def strip (blank : Char → Bool) (cs : List Char) : List Char :=
  ((cs.dropWhile blank).reverse.dropWhile blank).reverse

/-- Digits with single underscores between them; `need` says that a digit has to come next. -/
def readDigits (base : Nat) : (acc : Nat) → (need : Bool) → List Char → Option Nat
  | acc, need, [] => if need then none else some acc
  | acc, need, '_' :: cs => if need then none else readDigits base acc true cs
  | acc, _, c :: cs =>
    match digitValue? c with
    | some d => if d < base then readDigits base (acc * base + d) false cs else none
    | none => none

def dropBaseMark : List Char → List Char
  | '0' :: x :: cs =>
    if x = 'x' ∨ x = 'X' then (match cs with | '_' :: cs => cs | cs => cs) else '0' :: x :: cs
  | cs => cs

def readNatural? (base : Nat) (cs : List Char) : Option Nat :=
  readDigits base 0 true (if base = 16 then dropBaseMark cs else cs)

/-- A number in base ten or sixteen, with blanks around it and a sign in front. -/
def readInteger? (base : Nat) (text : String) : Option Int :=
  match strip numberBlank text.toList with
  | '-' :: cs => (readNatural? base cs).map fun n ↦ -(n : Int)
  | '+' :: cs => (readNatural? base cs).map Int.ofNat
  | cs => (readNatural? base cs).map Int.ofNat

/-- The most digits of a number that is read or written in base ten. -/
def maxDigits : Nat := 4300

/-- A number in base ten that has not too many digits. -/
def readDecimal? (text : String) : Option Int :=
  if maxDigits < text.toList.countP (fun c ↦ (decimalDigit? c).isSome) then none else readInteger? 10 text

def digits (base : Nat) (n : Nat) : List Char := Nat.toDigits base n

/-- All the digits of a number, behind its sign. -/
def decimal (n : Int) : String :=
  String.ofList (if n < 0 then '-' :: digits 10 n.natAbs else digits 10 n.natAbs)

/-- A number is short enough to be written in base ten. -/
def Writable (n : Int) : Prop := n.natAbs < Nat.pow 10 maxDigits

instance (n : Int) : Decidable (Writable n) := inferInstanceAs (Decidable (_ < _))

def decimal? (n : Int) : Option String := if Writable n then some (decimal n) else none

/-- What is said instead of a number that is too long. -/
def tooManyDigits : String :=
  "Exceeds the limit (4300 digits) for integer string conversion; use sys.set_int_max_str_digits() to increase the limit"

/-- Base sixteen in at least `width` places, the sign included. -/
def hexadecimal (width : Nat) (n : Int) : List Char :=
  let ds := digits 16 n.natAbs
  if n < 0 then '-' :: (List.replicate (width - 1 - ds.length) '0' ++ ds)
  else List.replicate (width - ds.length) '0' ++ ds

end TermCapture.Text
