set_option autoImplicit false

namespace Specializer.Utf8

def isContinuation (b : UInt8) : Bool := 0x80 ≤ b && b ≤ 0xbf

def low (b : UInt8) : Nat := b.toNat % 0x40

-- No overlong forms, no surrogates, nothing past the last code point.
def first? : List UInt8 → Option (Char × Nat)
  | [] => none
  | a :: rest =>
    if a < 0x80 then some (Char.ofNat a.toNat, 0)
    else
      match rest with
      | [] => none
      | b :: rest =>
        if 0xc2 ≤ a && a ≤ 0xdf then
          if isContinuation b then some (Char.ofNat (a.toNat % 0x20 * 0x40 + low b), 1) else none
        else
          match rest with
          | [] => none
          | c :: rest =>
            if 0xe0 ≤ a && a ≤ 0xef then
              let fits := isContinuation b && isContinuation c && (a != 0xe0 || 0xa0 ≤ b) &&
                (a != 0xed || b ≤ 0x9f)
              if fits then
                some (Char.ofNat (a.toNat % 0x10 * 0x1000 + low b * 0x40 + low c), 2)
              else none
            else
              match rest with
              | [] => none
              | d :: _ =>
                let fits := 0xf0 ≤ a && a ≤ 0xf4 && isContinuation b && isContinuation c &&
                  isContinuation d && (a != 0xf0 || 0x90 ≤ b) && (a != 0xf4 || b ≤ 0x8f)
                if fits then
                  some (Char.ofNat
                    (a.toNat % 8 * 0x40000 + low b * 0x1000 + low c * 0x40 + low d), 3)
                else none

/-- The text of the bytes from an offset on, of which the first `skip` are read already; or else the
offset of the first byte that starts no character. -/
def decodeFrom : (skip offset : Nat) → List UInt8 → Except Nat (List Char)
  | _, _, [] => .ok []
  | skip + 1, offset, _ :: rest => decodeFrom skip (offset + 1) rest
  | 0, offset, byte :: rest =>
    match first? (byte :: rest) with
    | none => .error offset
    | some (c, more) => (decodeFrom more (offset + 1) rest).map (c :: ·)

def decode (bytes : List UInt8) : Except Nat (List Char) := decodeFrom 0 0 bytes

def encode (text : List Char) : List UInt8 := text.flatMap String.utf8EncodeChar

end Utf8

def unifyNewlines : List Char → List Char
  | '\r' :: '\n' :: rest => '\n' :: unifyNewlines rest
  | '\r' :: rest => '\n' :: unifyNewlines rest
  | c :: rest => c :: unifyNewlines rest
  | [] => []

end Specializer
