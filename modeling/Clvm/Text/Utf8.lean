import Clvm.SExp.Basic

/-!
# Text as bytes

UTF-8, read strictly: no longer forms, no surrogates, nothing past the last code point.
-/

namespace Clvm.Text.Utf8

/-- The bytes of a text. -/
def encode (cs : List Char) : Bytes := cs.flatMap String.utf8EncodeChar

/-- The six bits that a continuation byte carries. -/
def continuation? (x : UInt8) : Option Nat :=
  if 0x80 ≤ x ∧ x ≤ 0xbf then some (x.toNat - 0x80) else none

/-- A character of at least `least`, which its number of bytes demands. -/
def scalar? (least n : Nat) : Option Char :=
  if least ≤ n ∧ (n < 0xd800 ∨ (0xdfff < n ∧ n < 0x110000)) then some (Char.ofNat n) else none

/-- The text of bytes, if they are one. -/
def decode? : Bytes → Option (List Char)
  | [] => some []
  | a :: as =>
    if a < 0x80 then do return Char.ofNat a.toNat :: (← decode? as)
    else if a < 0xc0 then none
    else match as with
    | [] => none
    | b :: bs =>
      if a < 0xe0 then do
        let c ← scalar? 0x80 ((a.toNat - 0xc0) * 64 + (← continuation? b))
        return c :: (← decode? bs)
      else match bs with
      | [] => none
      | c :: cs =>
        if a < 0xf0 then do
          let d ← scalar? 0x800
            (((a.toNat - 0xe0) * 64 + (← continuation? b)) * 64 + (← continuation? c))
          return d :: (← decode? cs)
        else match cs with
        | [] => none
        | d :: ds =>
          if a < 0xf8 then do
            let e ← scalar? 0x10000
              ((((a.toNat - 0xf0) * 64 + (← continuation? b)) * 64 + (← continuation? c)) * 64
                + (← continuation? d))
            return e :: (← decode? ds)
          else none

end Clvm.Text.Utf8
