/-! Bytes written in base 64, and texts of bytes. -/
namespace LogicScript
namespace Text

def base64Digit? (c : Char) : Option Nat :=
  if 'A' ≤ c ∧ c ≤ 'Z' then some (c.toNat - 'A'.toNat)
  else if 'a' ≤ c ∧ c ≤ 'z' then some (c.toNat - 'a'.toNat + 26)
  else if '0' ≤ c ∧ c ≤ '9' then some (c.toNat - '0'.toNat + 52)
  else if c = '+' then some 62
  else if c = '/' then some 63
  else none

/-- The bytes of three, two or one places of a group of four digits. -/
def groupBytes (n places : Nat) : List UInt8 :=
  ([n / 65536, n / 256, n].take places).map UInt8.ofNat

/-- The bytes that groups of four digits write. The last group may have one or two equality signs
in place of digits. -/
def base64Groups : List Char → Option (List UInt8)
  | [] => some []
  | [a, b, '=', '='] => do
    let a ← base64Digit? a
    let b ← base64Digit? b
    return groupBytes (a * 262144 + b * 4096) 1
  | [a, b, c, '='] => do
    let a ← base64Digit? a
    let b ← base64Digit? b
    let c ← base64Digit? c
    return groupBytes (a * 262144 + b * 4096 + c * 64) 2
  | a :: b :: c :: d :: rest => do
    let a ← base64Digit? a
    let b ← base64Digit? b
    let c ← base64Digit? c
    let d ← base64Digit? d
    return groupBytes (a * 262144 + b * 4096 + c * 64 + d) 3 ++ (← base64Groups rest)
  | _ => none

/-- The bytes that a text writes in base 64. Line breaks do not count. -/
def base64? (s : String) : Option (List UInt8) :=
  base64Groups (s.toList.filter fun c => c ≠ '\n' ∧ c ≠ '\r')

/-- The characters of bytes from an index on. A byte that belongs to no character stands for the
replacement character; the first argument bounds the number of bytes that are left. -/
def charsFrom (bytes : ByteArray) : Nat → Nat → List Char
  | 0, _ => []
  | n + 1, i =>
    if i < bytes.size then
      match bytes.utf8DecodeChar? i with
      | some c => c :: charsFrom bytes n (i + c.utf8Size)
      | none => '\ufffd' :: charsFrom bytes n (i + 1)
    else []

def ofBytes (bytes : List UInt8) : String :=
  String.ofList (charsFrom ⟨bytes.toArray⟩ bytes.length 0)

end Text
end LogicScript
