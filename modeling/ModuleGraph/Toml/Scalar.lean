import ModuleGraph.Decimal.Text
import ModuleGraph.Text.Hex
import ModuleGraph.Toml.Basic

namespace ModuleGraph.Toml

/-- A reader of some text: the value read and what follows it, or nothing. -/
abbrev Reader (α : Type) := List Char → Option (α × List Char)

def isSpace (c : Char) : Bool :=
  c == ' ' || c == '\t'

def skipSpace (s : List Char) : List Char :=
  s.dropWhile isSpace

def afterNewline? : List Char → Option (List Char)
  | '\n' :: rest => some rest
  | '\r' :: '\n' :: rest => some rest
  | _ => none

/-- A character that may stand in a comment or, apart from quotes and escapes, in a string. -/
def isPlain (c : Char) : Bool :=
  c == '\t' || (0x20 ≤ c.toNat && c.toNat != 0x7F)

/-- The code point that a row of hexadecimal digits spells, if it is a character. -/
def hexChar? (digits : List Char) : Option Char := do
  let n ← Text.hexNumber? digits
  if n < 0xD800 ∨ (0xE000 ≤ n ∧ n < 0x110000) then some (Char.ofNat n) else none

/-- The character of an escape, without its backslash. -/
def readEscape : Reader Char
  | 'b' :: rest => some ('\x08', rest)
  | 't' :: rest => some ('\t', rest)
  | 'n' :: rest => some ('\n', rest)
  | 'f' :: rest => some ('\x0c', rest)
  | 'r' :: rest => some ('\r', rest)
  | '"' :: rest => some ('"', rest)
  | '\\' :: rest => some ('\\', rest)
  | 'u' :: rest => if rest.length < 4 then none else (hexChar? (rest.take 4)).map (·, rest.drop 4)
  | 'U' :: rest => if rest.length < 8 then none else (hexChar? (rest.take 8)).map (·, rest.drop 8)
  | _ => none

def readBasic : (fuel : Nat) → Reader (List Char)
  | 0, _ => none
  | _ + 1, [] => none
  | fuel + 1, c :: rest =>
    if c = '"' then some ([], rest)
    else if c = '\\' then do
      let (c, rest) ← readEscape rest
      let (cs, rest) ← readBasic fuel rest
      return (c :: cs, rest)
    else if isPlain c then do
      let (cs, rest) ← readBasic fuel rest
      return (c :: cs, rest)
    else none

def readLiteral : Reader (List Char)
  | [] => none
  | c :: rest =>
    if c = '\'' then some ([], rest)
    else if isPlain c then do
      let (cs, rest) ← readLiteral rest
      return (c :: cs, rest)
    else none

def skipBlankLines : List Char → List Char
  | ' ' :: rest => skipBlankLines rest
  | '\t' :: rest => skipBlankLines rest
  | '\n' :: rest => skipBlankLines rest
  | '\r' :: '\n' :: rest => skipBlankLines rest
  | rest => rest

/-- The end of a string over several lines: three quotes, before which one or two may belong to it. -/
def closeTriple (quote : Char) (s : List Char) : Option (List Char × List Char) :=
  let quotes := s.takeWhile (· == quote)
  if quotes.length < 3 then none
  else if 5 < quotes.length then none
  else some (List.replicate (quotes.length - 3) quote, s.drop quotes.length)

/-- The rest of a basic string over several lines. A backslash at a line end skips the line end and the white
space after it. -/
def readLongBasic : (fuel : Nat) → Reader (List Char)
  | 0, _ => none
  | _ + 1, [] => none
  | fuel + 1, c :: rest =>
    match afterNewline? (c :: rest) with
    | some rest => (readLongBasic fuel rest).map fun (cs, rest) => ('\n' :: cs, rest)
    | none =>
      if c = '"' then
        match closeTriple '"' (c :: rest) with
        | some found => some found
        | none =>
          if 2 < ((c :: rest).takeWhile (· == '"')).length then none
          else (readLongBasic fuel rest).map fun (cs, rest) => (c :: cs, rest)
      else if c = '\\' then
        match afterNewline? (skipSpace rest) with
        | some rest => readLongBasic fuel (skipBlankLines rest)
        | none => do
          let (c, rest) ← readEscape rest
          let (cs, rest) ← readLongBasic fuel rest
          return (c :: cs, rest)
      else if isPlain c then (readLongBasic fuel rest).map fun (cs, rest) => (c :: cs, rest)
      else none

def readLongLiteral : (fuel : Nat) → Reader (List Char)
  | 0, _ => none
  | _ + 1, [] => none
  | fuel + 1, c :: rest =>
    match afterNewline? (c :: rest) with
    | some rest => (readLongLiteral fuel rest).map fun (cs, rest) => ('\n' :: cs, rest)
    | none =>
      if c = '\'' then
        match closeTriple '\'' (c :: rest) with
        | some found => some found
        | none =>
          if 2 < ((c :: rest).takeWhile (· == '\'')).length then none
          else (readLongLiteral fuel rest).map fun (cs, rest) => (c :: cs, rest)
      else if isPlain c then (readLongLiteral fuel rest).map fun (cs, rest) => (c :: cs, rest)
      else none

def dropNewline (s : List Char) : List Char :=
  (afterNewline? s).getD s

def readString (s : List Char) : Option (String × List Char) :=
  let found := match s with
    | '"' :: '"' :: '"' :: rest => readLongBasic (rest.length + 1) (dropNewline rest)
    | '"' :: rest => readBasic (rest.length + 1) rest
    | '\'' :: '\'' :: '\'' :: rest => readLongLiteral (rest.length + 1) (dropNewline rest)
    | '\'' :: rest => readLiteral rest
    | _ => none
  found.map fun (cs, rest) => (String.ofList cs, rest)

/-- Digits of a class, between which single underscores may stand. The underscores are left out. -/
def readDigits (isDigit : Char → Bool) : Reader (List Char)
  | [] => none
  | c :: rest =>
    if !isDigit c then none
    else
      match rest with
      | '_' :: rest' => do
        let (cs, rest'') ← readDigits isDigit rest'
        return (c :: cs, rest'')
      | d :: rest' =>
        if isDigit d then do
          let (cs, rest'') ← readDigits isDigit (d :: rest')
          return (c :: cs, rest'')
        else some ([c], d :: rest')
      | [] => some ([c], [])

def readSign : List Char → Bool × List Char
  | '-' :: rest => (true, rest)
  | '+' :: rest => (false, rest)
  | rest => (false, rest)

/-- The whole part of a decimal number: a zero alone, or digits that start with none. -/
def readWhole : Reader (List Char)
  | '0' :: rest => some (['0'], rest)
  | s => readDigits Char.isDigit s

def boundedInteger? (n : Int) : Option Toml :=
  let bound : Int := Nat.pow 2 63
  if -bound ≤ n ∧ n < bound then some (.integer n) else none

/-- A whole number in a base that is a power of two, after its mark. -/
def readBased (base : Nat) (isDigit : Char → Bool) (s : List Char) : Option (Toml × List Char) := do
  let (ds, rest) ← readDigits isDigit s
  let n := ds.foldl (fun n d => base * n + (Text.hexValue? d).getD 0) 0
  return (← boundedInteger? n, rest)

def readFraction : Reader (List Char)
  | '.' :: rest => readDigits Char.isDigit rest
  | rest => some ([], rest)

def readExponent : Reader (Option Int)
  | [] => some (none, [])
  | e :: rest =>
    if e = 'e' ∨ e = 'E' then do
      let (negative, rest) := readSign rest
      let (ds, rest) ← readDigits Char.isDigit rest
      let n : Int := Decimal.ofDigits ds
      return (some (if negative then -n else n), rest)
    else some (none, e :: rest)

/-- A number with a sign. One with a fraction or an exponent is a double, which may not be too large. -/
def readDecimal (s : List Char) : Option (Toml × List Char) := do
  let (negative, s) := readSign s
  let (whole, s) ← readWhole s
  let (fraction, s) ← readFraction s
  let (exponent, s) ← readExponent s
  if fraction.isEmpty ∧ exponent.isNone then
    let n : Int := Decimal.ofDigits whole
    return (← boundedInteger? (if negative then -n else n), s)
  else
    let digits := Decimal.ofDigits (whole ++ fraction)
    let x := (Decimal.mk digits (exponent.getD 0 - fraction.length)).toFloat
    if !negative && x.isInf then none
    else return (.float (if negative then -x else x), s)

def isOctal (c : Char) : Bool := '0' ≤ c && c ≤ '7'
def isBinary (c : Char) : Bool := c == '0' || c == '1'

def readNumber (s : List Char) : Option (Toml × List Char) :=
  match s with
  | '0' :: 'x' :: rest => readBased 16 (fun c => (Text.hexValue? c).isSome) rest
  | '0' :: 'o' :: rest => readBased 8 isOctal rest
  | '0' :: 'b' :: rest => readBased 2 isBinary rest
  | _ =>
    match readSign s with
    | (negative, 'i' :: 'n' :: 'f' :: rest) =>
      some (.float (if negative then -1.0 / 0.0 else 1.0 / 0.0), rest)
    | (_, 'n' :: 'a' :: 'n' :: rest) => some (.float (0.0 / 0.0), rest)
    | _ => readDecimal s

def readField (width least greatest : Nat) (s : List Char) : Option (Nat × List Char) :=
  let ds := s.take width
  let n := Decimal.ofDigits ds
  if ds.length = width ∧ ds.all Char.isDigit ∧ least ≤ n ∧ n ≤ greatest then some (n, s.drop width)
  else none

def expect? (c : Char) : List Char → Option (List Char)
  | d :: rest => if d = c then some rest else none
  | [] => none

def isLeapYear (year : Nat) : Bool :=
  year % 4 = 0 ∧ (year % 100 ≠ 0 ∨ year % 400 = 0)

def daysIn (year month : Nat) : Nat :=
  if month = 2 then if isLeapYear year then 29 else 28
  else if month = 4 ∨ month = 6 ∨ month = 9 ∨ month = 11 then 30
  else 31

def afterDate? (s : List Char) : Option (List Char) := do
  let (year, s) ← readField 4 0 9999 s
  let (month, s) ← readField 2 1 12 (← expect? '-' s)
  let (_, s) ← readField 2 1 (daysIn year month) (← expect? '-' s)
  return s

/-- What follows a fraction of a second, if there is one. -/
def afterSecondFraction? : List Char → Option (List Char)
  | '.' :: d :: rest => if d.isDigit then some (rest.dropWhile Char.isDigit) else none
  | '.' :: [] => none
  | rest => some rest

def afterTime? (s : List Char) : Option (List Char) := do
  let (_, s) ← readField 2 0 23 s
  let (_, s) ← readField 2 0 59 (← expect? ':' s)
  let (_, s) ← readField 2 0 60 (← expect? ':' s)
  afterSecondFraction? s

/-- What follows an offset from universal time, if there is one. -/
def afterOffset? : List Char → Option (List Char)
  | [] => some []
  | c :: rest =>
    if c = 'Z' ∨ c = 'z' then some rest
    else if c = '+' ∨ c = '-' then do
      let (_, rest) ← readField 2 0 23 rest
      let (_, rest) ← readField 2 0 59 (← expect? ':' rest)
      return rest
    else some (c :: rest)

def startsTime : List Char → Bool
  | a :: b :: ':' :: _ => a.isDigit && b.isDigit
  | _ => false

def startsDate : List Char → Bool
  | a :: b :: c :: d :: '-' :: _ => [a, b, c, d].all Char.isDigit
  | _ => false

/-- What follows a time of day and its offset after a date, if there is one. -/
def afterDaytime? : List Char → Option (List Char)
  | c :: rest =>
    if (c = 'T' ∨ c = 't' ∨ c = ' ') ∧ startsTime rest then (afterTime? rest).bind afterOffset?
    else some (c :: rest)
  | [] => some []

def readMoment (s : List Char) : Option (Toml × List Char) :=
  let rest := if startsTime s then afterTime? s else (afterDate? s).bind afterDaytime?
  rest.map (.moment, ·)

end ModuleGraph.Toml
