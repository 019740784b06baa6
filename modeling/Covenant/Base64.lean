/-!
Bytes written in base 64.

Four digits of six bits each write three bytes; two or three digits at the end write one
or two. Other characters are left out.
-/

namespace Covenant.Base64

def digits : List Char :=
  "ABCDEFGHIJKLMNOPQRSTUVWXYZabcdefghijklmnopqrstuvwxyz0123456789+/".toList

def bytes : List Nat → List UInt8
  | a :: b :: c :: d :: rest =>
    (a * 4 + b / 16).toUInt8 :: (b % 16 * 16 + c / 4).toUInt8 :: (c % 4 * 64 + d).toUInt8
      :: bytes rest
  | [a, b, c] => [(a * 4 + b / 16).toUInt8, (b % 16 * 16 + c / 4).toUInt8]
  | [a, b] => [(a * 4 + b / 16).toUInt8]
  | _ => []

def decode (text : String) : ByteArray :=
  ⟨(bytes (text.toList.filterMap fun c => digits.idxOf? c)).toArray⟩

end Covenant.Base64
