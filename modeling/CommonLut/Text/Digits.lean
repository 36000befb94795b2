/-!
# Whole numbers in a positional notation

Reading and writing natural numbers in any radix up to thirty-six. A written number has at least
one digit; one plus sign may stand before the digits, a minus sign never; leading zeros mean
nothing; a number that does not stay below the bound given by the reader is refused.

Main definitions: `digitValue?`, `natural?`, `hexadecimal`.
-/

namespace CommonLut.Text

/-! ## §1 Reading -/

/-- The value of a digit in `radix`, letters of either case standing for ten and more. -/
def digitValue? (radix : Nat) (c : Char) : Option Nat :=
  let v? :=
    if '0' ≤ c ∧ c ≤ '9' then some (c.toNat - '0'.toNat)
    else if 'a' ≤ c ∧ c ≤ 'z' then some (c.toNat - 'a'.toNat + 10)
    else if 'A' ≤ c ∧ c ≤ 'Z' then some (c.toNat - 'A'.toNat + 10)
    else none
  v?.filter (· < radix)

/-- The number spelled by a list of digits, most significant first. -/
def ofDigits? (radix : Nat) (digits : List Char) : Option Nat :=
  digits.foldlM (fun acc c => (digitValue? radix c).map (acc * radix + ·)) 0

/-- The number below `bound` spelled in `radix` by a non-empty list of digits. -/
def bareNatural? (radix bound : Nat) (digits : List Char) : Option Nat :=
  if digits.isEmpty then none else (ofDigits? radix digits).filter (· < bound)

/-- The number below `bound` that a text spells in `radix`, with an optional plus sign. -/
def natural? (radix bound : Nat) (s : String) : Option Nat :=
  match s.toList with
  | '+' :: digits => bareNatural? radix bound digits
  | digits => bareNatural? radix bound digits

/-- One more than the largest size and dimension: sizes have sixty-four bits. -/
def sizeBound : Nat := 0x10000000000000000

/-- A size in decimal. -/
def size? (s : String) : Option Nat :=
  natural? 10 sizeBound s

/-! ## §2 Writing -/

/-- The decimal digits of a number, without leading zeros. -/
def decimal (n : Nat) : String :=
  String.ofList (Nat.toDigits 10 n)

/-- The lower-case hexadecimal digits of a number, padded with zeros to `width`. -/
def hexadecimal (width n : Nat) : String :=
  let digits := Nat.toDigits 16 n
  String.ofList (List.replicate (width - digits.length) '0' ++ digits)

end CommonLut.Text
