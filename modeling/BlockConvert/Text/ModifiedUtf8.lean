set_option autoImplicit false

/-!
# Modified UTF-8

Texts are stored as bytes in a variant of UTF-8 that writes the character of code zero in two bytes
and a character beyond the basic plane as a surrogate pair of three bytes each. Reading also takes
standard UTF-8: a byte text that is standard as a whole is read so, any other must be of the
variant.
-/

namespace BlockConvert.Text

def continuation (n : Nat) : UInt8 := UInt8.ofNat (0x80 + n % 64)

def threeBytes (n : Nat) : List UInt8 :=
  [UInt8.ofNat (0xE0 + n / 4096), continuation (n / 64), continuation n]

def encodeChar (c : Char) : List UInt8 :=
  let n := c.toNat
  if n = 0 then [0xC0, 0x80]
  else if n < 0x80 then [UInt8.ofNat n]
  else if n < 0x800 then [UInt8.ofNat (0xC0 + n / 64), continuation n]
  else if n < 0x10000 then threeBytes n
  else
    threeBytes (0xD800 + (n - 0x10000) / 1024) ++ threeBytes (0xDC00 + (n - 0x10000) % 1024)

def encodeModified (cs : List Char) : List UInt8 := cs.flatMap encodeChar

def payload? (b : UInt8) : Option Nat :=
  if 0x80 ≤ b ∧ b < 0xC0 then some (b.toNat - 0x80) else none

def char? (n : Nat) : Option Char :=
  if h : n.isValidChar then some (Char.ofNatAux n h) else none

def standardHead? : List UInt8 → Option (Char × Nat)
  | [] => none
  | a :: rest =>
    if a < 0x80 then (char? a.toNat).map (·, 1)
    else if 0xC2 ≤ a ∧ a < 0xE0 then
      match rest with
      | b :: _ => do
        let y ← payload? b
        let c ← char? ((a.toNat - 0xC0) * 64 + y)
        return (c, 2)
      | _ => none
    else if 0xE0 ≤ a ∧ a < 0xF0 then
      match rest with
      | b :: d :: _ => do
        let y ← payload? b
        let z ← payload? d
        let n := (a.toNat - 0xE0) * 4096 + y * 64 + z
        let c ← if 0x800 ≤ n then char? n else none
        return (c, 3)
      | _ => none
    else if 0xF0 ≤ a ∧ a < 0xF5 then
      match rest with
      | b :: d :: e :: _ => do
        let y ← payload? b
        let z ← payload? d
        let w ← payload? e
        let n := (a.toNat - 0xF0) * 262144 + y * 4096 + z * 64 + w
        let c ← if 0x10000 ≤ n then char? n else none
        return (c, 4)
      | _ => none
    else none

def threeByteHead? : List UInt8 → Option (Nat × List UInt8)
  | a :: b :: d :: rest => do
    let y ← payload? b
    let z ← payload? d
    if 0xE0 ≤ a ∧ a < 0xF0 then return ((a.toNat - 0xE0) * 4096 + y * 64 + z, rest) else none
  | _ => none

def modifiedHead? (bytes : List UInt8) : Option (Char × Nat) :=
  match bytes with
  | [] => none
  | a :: rest =>
    if a = 0 then none
    else if a = 0xC0 then if rest.head? = some 0x80 then some ('\x00', 2) else none
    else if 0xF0 ≤ a then none
    else
      match threeByteHead? bytes with
      | some (high, tail) =>
        if 0xD800 ≤ high ∧ high < 0xDC00 then
          match threeByteHead? tail with
          | some (low, _) =>
            if 0xDC00 ≤ low ∧ low < 0xE000 then
              (char? (0x10000 + (high - 0xD800) * 1024 + (low - 0xDC00))).map (·, 6)
            else none
          | none => none
        else standardHead? bytes
      | none => standardHead? bytes

/-- Reads characters by their heads until the bytes end; `bound` limits their number. -/
def decodeBy (head? : List UInt8 → Option (Char × Nat)) :
    (bound : Nat) → List UInt8 → Option (List Char)
  | _, [] => some []
  | 0, _ => none
  | bound + 1, bytes => do
    let (c, width) ← head? bytes
    let rest ← decodeBy head? bound (bytes.drop width)
    return c :: rest

def decodeStored? (bytes : List UInt8) : Option (List Char) :=
  decodeBy standardHead? bytes.length bytes <|> decodeBy modifiedHead? bytes.length bytes

end BlockConvert.Text
