import Arbor.Text.Literal

/-!
Strict UTF-8 decoding that says where and why a byte string is ill-formed, and the unification of
line ends that is applied to a text file after decoding.
-/

namespace Arbor.Utf8

inductive Reason where
  | startByte
  | continuationByte
  | endOfData
deriving DecidableEq, Repr

def Reason.text : Reason → String
  | .startByte => "invalid start byte"
  | .continuationByte => "invalid continuation byte"
  | .endOfData => "unexpected end of data"

structure Fault where
  byte : UInt8
  position : Nat
  length : Nat
  reason : Reason
deriving DecidableEq, Repr

def Fault.text (f : Fault) : String :=
  let place :=
    if f.length = 1 then
      s!"byte 0x{String.ofList (Text.hex 2 f.byte.toNat)} in position {f.position}"
    else
      s!"bytes in position {f.position}-{f.position + f.length - 1}"
  s!"'utf-8' codec can't decode {place}: {f.reason.text}"

def isContinuation (b : UInt8) : Bool :=
  0x80 ≤ b && b ≤ 0xBF

/-- The second bytes a start byte allows: some start bytes exclude overlong and surrogate forms. -/
def allowsSecond (start second : UInt8) : Bool :=
  isContinuation second &&
    (if start = 0xE0 then 0xA0 ≤ second
     else if start = 0xED then second ≤ 0x9F
     else if start = 0xF0 then 0x90 ≤ second
     else if start = 0xF4 then second ≤ 0x8F
     else true)

def payload (b : UInt8) : Nat :=
  b.toNat % 64

def decodeFrom (position : Nat) (done : List Char) : List UInt8 → Except Fault (List Char)
  | [] => .ok done.reverse
  | a :: rest =>
    if a < 0x80 then
      decodeFrom (position + 1) (Char.ofNat a.toNat :: done) rest
    else if a < 0xC2 || 0xF4 < a then
      .error ⟨a, position, 1, .startByte⟩
    else
      match rest with
      | [] => .error ⟨a, position, 1, .endOfData⟩
      | b :: rest =>
        if !allowsSecond a b then
          .error ⟨a, position, 1, .continuationByte⟩
        else if a < 0xE0 then
          decodeFrom (position + 2) (Char.ofNat (a.toNat % 32 * 64 + payload b) :: done) rest
        else
          match rest with
          | [] => .error ⟨a, position, 2, .endOfData⟩
          | c :: rest =>
            if !isContinuation c then
              .error ⟨a, position, 2, .continuationByte⟩
            else if a < 0xF0 then
              let code := (a.toNat % 16 * 64 + payload b) * 64 + payload c
              decodeFrom (position + 3) (Char.ofNat code :: done) rest
            else
              match rest with
              | [] => .error ⟨a, position, 3, .endOfData⟩
              | d :: rest =>
                if !isContinuation d then
                  .error ⟨a, position, 3, .continuationByte⟩
                else
                  let code := ((a.toNat % 8 * 64 + payload b) * 64 + payload c) * 64 + payload d
                  decodeFrom (position + 4) (Char.ofNat code :: done) rest

def decode (bytes : List UInt8) : Except Fault (List Char) :=
  decodeFrom 0 [] bytes

def unifyNewlines : List Char → List Char
  | [] => []
  | '\r' :: '\n' :: rest => '\n' :: unifyNewlines rest
  | c :: rest => (if c = '\r' then '\n' else c) :: unifyNewlines rest

end Arbor.Utf8
