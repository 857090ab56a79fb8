namespace ModuleGraph.Text

def hexDigit (n : Nat) : Char :=
  (Nat.toDigits 16 n).headD '0'

/-- The value of a digit, whose letter may be small or capital. -/
def hexValue? (c : Char) : Option Nat :=
  if c.isDigit then some (c.toNat - '0'.toNat)
  else if 'a' ≤ c ∧ c ≤ 'f' then some (c.toNat - 'a'.toNat + 10)
  else if 'A' ≤ c ∧ c ≤ 'F' then some (c.toNat - 'A'.toNat + 10)
  else none

def hexNumber? (digits : List Char) : Option Nat :=
  digits.foldlM (fun n d => (hexValue? d).map (16 * n + ·)) 0

def hexBytes? : List Char → Option (List UInt8)
  | [] => some []
  | high :: low :: rest => do
    let byte ← hexNumber? [high, low]
    return UInt8.ofNat byte :: (← hexBytes? rest)
  | [_] => none

end ModuleGraph.Text
