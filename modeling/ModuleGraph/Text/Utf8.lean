/-!
Decoding of UTF-8. Bytes that encode no character are told apart as the longest runs that could still have
become one, so that a lenient reading puts one replacement character in the place of each such run.
-/

namespace ModuleGraph.Utf8

def isTail (b : UInt8) : Bool :=
  0x80 ≤ b && b ≤ 0xBF

/-- The least and the greatest second byte of a character of three or four bytes, by its first byte. -/
def secondRange (first : UInt8) : UInt8 × UInt8 :=
  if first = 0xE0 then (0xA0, 0xBF)
  else if first = 0xED then (0x80, 0x9F)
  else if first = 0xF0 then (0x90, 0xBF)
  else if first = 0xF4 then (0x80, 0x8F)
  else (0x80, 0xBF)

def isSecond (first b : UInt8) : Bool :=
  (secondRange first).1 ≤ b && b ≤ (secondRange first).2

def low6 (b : UInt8) : Nat :=
  b.toNat % 64

/-- The first character of some bytes, or `none` for a run that is none, and the bytes after it. -/
def next (first : UInt8) (rest : List UInt8) : Option Char × List UInt8 :=
  if first < 0x80 then (some (Char.ofNat first.toNat), rest)
  else if 0xC2 ≤ first && first ≤ 0xDF then
    match rest with
    | b :: rest' =>
      if isTail b then (some (Char.ofNat (first.toNat % 32 * 64 + low6 b)), rest')
      else (none, rest)
    | [] => (none, [])
  else if 0xE0 ≤ first && first ≤ 0xEF then
    match rest with
    | b :: rest' =>
      if isSecond first b then
        match rest' with
        | c :: rest'' =>
          if isTail c then
            (some (Char.ofNat ((first.toNat % 16 * 64 + low6 b) * 64 + low6 c)), rest'')
          else (none, rest')
        | [] => (none, [])
      else (none, rest)
    | [] => (none, [])
  else if 0xF0 ≤ first && first ≤ 0xF4 then
    match rest with
    | b :: rest' =>
      if isSecond first b then
        match rest' with
        | c :: rest'' =>
          if isTail c then
            match rest'' with
            | d :: rest''' =>
              if isTail d then
                (some (Char.ofNat
                  (((first.toNat % 8 * 64 + low6 b) * 64 + low6 c) * 64 + low6 d)), rest''')
              else (none, rest'')
            | [] => (none, [])
          else (none, rest')
        | [] => (none, [])
      else (none, rest)
    | [] => (none, [])
  else (none, rest)

/-- The characters of some bytes, with `none` for each run that is none. Every step takes a byte, so the
number of bytes is fuel enough. -/
def units : (fuel : Nat) → List UInt8 → List (Option Char)
  | 0, _ => []
  | _ + 1, [] => []
  | fuel + 1, b :: bs =>
    let (unit, rest) := next b bs
    unit :: units fuel rest

/-- The text of some bytes, with replacement characters where they encode none. -/
def decodeLossy (bytes : List UInt8) : List Char :=
  (units bytes.length bytes).map (·.getD '�')

/-- The text of some bytes that encode characters throughout. -/
def decode? (bytes : List UInt8) : Option (List Char) :=
  (units bytes.length bytes).mapM id

def bytes (s : List Char) : List UInt8 :=
  s.flatMap String.utf8EncodeChar

def encode (s : String) : List UInt8 :=
  bytes s.toList

end ModuleGraph.Utf8
