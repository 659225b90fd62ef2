import Arbor.Json.Basic

/-!
The tokens of a JSON text. Every token knows its offset. Scanning stops at the first place that
starts no token, or at a string that is not well formed; it is left to the reader to say what is
wrong there, because that depends on what is expected at the place.

Texts in which one half of a surrogate pair is escaped without the other are left out: the half is
no character, and `charOfCode` puts a replacement in its place. Other readers keep the half in the
string, and fail only when the string is to be written.
-/

namespace Arbor.Json

inductive Token where
  | openBrace
  | closeBrace
  | openBracket
  | closeBracket
  | colon
  | comma
  | str (s : String)
  | scalar (value : Json)
  | badString (fault : Fault)
  | junk
  | finish

structure Located where
  token : Token
  position : Nat

def isBlank (c : Char) : Bool :=
  c = ' ' || c = '\t' || c = '\n' || c = '\r'

def hexDigit? (c : Char) : Option Nat :=
  if '0' ≤ c ∧ c ≤ '9' then some (c.toNat - 48)
  else if 'a' ≤ c ∧ c ≤ 'f' then some (c.toNat - 87)
  else if 'A' ≤ c ∧ c ≤ 'F' then some (c.toNat - 55)
  else none

def hexQuad? (a b c d : Char) : Option Nat := do
  return (((← hexDigit? a) * 16 + (← hexDigit? b)) * 16 + (← hexDigit? c)) * 16 + (← hexDigit? d)

def simpleEscape? : Char → Option Char
  | '"' => some '"'
  | '\\' => some '\\'
  | '/' => some '/'
  | 'b' => some '\x08'
  | 'f' => some '\x0c'
  | 'n' => some '\n'
  | 'r' => some '\r'
  | 't' => some '\t'
  | _ => none

def charOfCode (code : Nat) : Char :=
  if code.isValidChar then Char.ofNat code else '\uFFFD'

def joinSurrogates : List Nat → List Char
  | [] => []
  | [a] => [charOfCode a]
  | a :: b :: rest =>
    if 0xD800 ≤ a ∧ a < 0xDC00 ∧ 0xDC00 ≤ b ∧ b < 0xE000 then
      charOfCode (0x10000 + (a - 0xD800) * 1024 + (b - 0xDC00)) :: joinSurrogates rest
    else
      charOfCode a :: joinSurrogates (b :: rest)

inductive StringScan where
  | closed (codes : List Nat) (position : Nat) (rest : List Char)
  | faulty (fault : Fault)

/--
Scan a string that was opened at `start`, from behind its opening quote on. A four digit escape
has to be followed by at least one more character, since the string is still open there.
-/
def scanString (start position : Nat) (codes : List Nat) : List Char → StringScan
  | [] => .faulty ⟨.unterminatedString, start⟩
  | '"' :: rest => .closed codes.reverse (position + 1) rest
  | '\\' :: 'u' :: a :: b :: c :: d :: e :: rest =>
    match hexQuad? a b c d with
    | some code => scanString start (position + 6) (code :: codes) (e :: rest)
    | none => .faulty ⟨.badUnicodeEscape, position + 1⟩
  | '\\' :: 'u' :: _ => .faulty ⟨.badUnicodeEscape, position + 1⟩
  | ['\\'] => .faulty ⟨.unterminatedString, start⟩
  | '\\' :: c :: rest =>
    match simpleEscape? c with
    | some escaped => scanString start (position + 2) (escaped.toNat :: codes) rest
    | none => .faulty ⟨.badEscape, position⟩
  | c :: rest =>
    if c.toNat < 0x20 then .faulty ⟨.controlCharacter, position⟩
    else scanString start (position + 1) (c.toNat :: codes) rest

def digitsValue (digits : List Char) : Nat :=
  digits.foldl (fun n c => n * 10 + (c.toNat - 48)) 0

def scanWhole? : List Char → Option (List Char)
  | [] => none
  | c :: rest =>
    if c = '0' then some ['0']
    else if c.isDigit then some (c :: rest.takeWhile Char.isDigit)
    else none

def scanFraction : List Char → List Char
  | '.' :: rest => rest.takeWhile Char.isDigit
  | _ => []

/-- Sign, number of characters before the digits, and digits of an exponent. -/
def scanExponent : List Char → Option (Bool × Nat × List Char)
  | mark :: rest =>
    if mark = 'e' ∨ mark = 'E' then
      let (negative, lead, digits) := match rest with
        | '+' :: rest => (false, 2, rest.takeWhile Char.isDigit)
        | '-' :: rest => (true, 2, rest.takeWhile Char.isDigit)
        | rest => (false, 1, rest.takeWhile Char.isDigit)
      if digits.isEmpty then none else some (negative, lead, digits)
    else none
  | [] => none

def scanUnsigned? (negative : Bool) (text : List Char) : Option (Json × Nat) := do
  let whole ← scanWhole? text
  let rest := text.drop whole.length
  let fraction := scanFraction rest
  let fractionWidth := if fraction.isEmpty then 0 else fraction.length + 1
  let rest := rest.drop fractionWidth
  match scanExponent rest with
  | none =>
    if fraction.isEmpty then
      let n : Int := digitsValue whole
      return (.int (if negative then -n else n), whole.length)
    else
      let x := Binary64.ofDecimal negative (digitsValue (whole ++ fraction)) (-fraction.length)
      return (.float x, whole.length + fractionWidth)
  | some (negativeExponent, lead, digits) =>
    let e : Int := digitsValue digits
    let e := if negativeExponent then -e else e
    let x := Binary64.ofDecimal negative (digitsValue (whole ++ fraction)) (e - fraction.length)
    return (.float x, whole.length + fractionWidth + lead + digits.length)

def words : List (String × Json) :=
  [("null", .null), ("true", .bool true), ("false", .bool false), ("NaN", .float .nan),
    ("Infinity", .float (.infinity false)), ("-Infinity", .float (.infinity true))]

def scanScalar? (text : List Char) : Option (Json × Nat) :=
  match words.find? fun (word, _) => word.toList.isPrefixOf text with
  | some (word, value) => some (value, word.length)
  | none =>
    match text with
    | '-' :: rest => (scanUnsigned? true rest).map fun (value, width) => (value, width + 1)
    | _ => scanUnsigned? false text

def mark? : Char → Option Token
  | '{' => some .openBrace
  | '}' => some .closeBrace
  | '[' => some .openBracket
  | ']' => some .closeBracket
  | ':' => some .colon
  | ',' => some .comma
  | _ => none

/-- Scan a text. Each round takes at least one character, so the text's length is enough fuel. -/
def scan (text : List Char) : List Located :=
  go (text.length + 1) 0 text
where
  go : Nat → Nat → List Char → List Located
    | 0, position, _ => [⟨.junk, position⟩]
    | _ + 1, position, [] => [⟨.finish, position⟩]
    | fuel + 1, position, c :: rest =>
      if isBlank c then
        go fuel (position + 1) rest
      else if c = '"' then
        match scanString position (position + 1) [] rest with
        | .closed codes next rest =>
          ⟨.str (String.ofList (joinSurrogates codes)), position⟩ :: go fuel next rest
        | .faulty fault => [⟨.badString fault, position⟩]
      else
        match mark? c with
        | some token => ⟨token, position⟩ :: go fuel (position + 1) rest
        | none =>
          match scanScalar? (c :: rest) with
          | some (value, width) =>
            ⟨.scalar value, position⟩ :: go fuel (position + width) ((c :: rest).drop width)
          | none => [⟨.junk, position⟩]

end Arbor.Json
