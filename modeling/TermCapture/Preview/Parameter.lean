import TermCapture.Text.Integer

namespace TermCapture.Preview.Parameter

/-- Decimal digits without a zero in front of another digit. -/
def natural? : List Char → Option Nat
  | '0' :: _ :: _ => none
  | cs => if cs.all Char.isDigit then Text.readDigits 10 0 true cs else none

def negative? (cs : List Char) : Option Int := (natural? cs).map fun n ↦ -(n : Int)

def signed? : List Char → Option Int
  | '-' :: cs => negative? cs
  | cs => (natural? cs).map Int.ofNat

/-- What is left of a number behind a zero: further zeros, and underscores among them, are dropped up to
a digit, a minus sign or the end. One zero stays at the end and before a point. -/
def afterZero : (last : Char) → List Char → Option (List Char)
  | last, [] => some [last]
  | last, c :: cs =>
    if c = '0' ∨ c = '_' then afterZero c cs
    else if c = '.' then some (last :: c :: cs)
    else if c.isDigit ∨ c = '-' then some (c :: cs)
    else none

def dropLeadingZeros : List Char → Option (List Char)
  | '0' :: cs => afterZero '0' cs
  | c :: cs => if c.isDigit then some (c :: cs) else none
  | [] => none

/-- The part before a point; zeros are to follow it, at least one. -/
def dropFraction (cs : List Char) : Option (List Char) :=
  match cs.dropWhile (· ≠ '.') with
  | [] => some cs
  | _ :: fraction =>
    if !fraction.isEmpty && fraction.all (· = '0') then some (cs.takeWhile (· ≠ '.')) else none

/-- Every underscore has something else on both sides; `inside` says that there is on the left. -/
def separates : (inside : Bool) → List Char → Bool
  | inside, [] => inside
  | inside, '_' :: cs => inside && separates false cs
  | _, _ :: cs => separates true cs

/-- A number behind its sign: zeros in front, a fraction of nothing but zeros, and underscores between
digits are left out. -/
def plain? (cs : List Char) : Option (List Char) := do
  let cs ← dropFraction (← dropLeadingZeros cs)
  if separates false cs then return cs.filter (· ≠ '_') else none

/-- A whole number with a sign and with blanks around it. A minus sign may also stand behind zeros. -/
def readInteger? (text : String) : Option Int :=
  match Text.strip Text.numberBlank text.toList with
  | '-' :: cs => plain? cs >>= negative?
  | '+' :: cs => plain? cs >>= signed?
  | cs => plain? cs >>= signed?

def readSwitch? (text : String) : Option Bool :=
  let word := String.ofList (text.toList.map Char.toLower)
  if ["1", "true", "t", "yes", "y", "on"].contains word then some true
  else if ["0", "false", "f", "no", "n", "off"].contains word then some false
  else none

end TermCapture.Preview.Parameter
