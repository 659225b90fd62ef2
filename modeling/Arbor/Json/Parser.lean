import Arbor.Json.Token

/-!
Reading JSON documents. The reader takes the tokens one by one and keeps the arrays and objects
that are still open on a stack, so it is a recursion on the list of tokens.
-/

namespace Arbor.Json

inductive Open where
  /-- The items before the one that is read now, last first. -/
  | array (items : List Json)
  | object (members : List (String × Json)) (key : String)

inductive Expect where
  | firstItem
  | firstName (members : List (String × Json))
  | name (members : List (String × Json))
  | colon (members : List (String × Json)) (key : String)
  | value
  | next (done : Json)

/-- Read the tokens; the open arrays and objects are on a stack, innermost first. -/
def build : Expect → List Open → List Located → Except Fault Json
  | _, _, [] => .error ⟨.noValue, 0⟩
  | expect, stack, ⟨token, position⟩ :: rest =>
    match expect with
    | .next done =>
      match stack with
      | [] =>
        match token with
        | .finish => .ok done
        | _ => .error ⟨.extraData, position⟩
      | .array items :: stack =>
        match token with
        | .comma => build .value (.array (done :: items) :: stack) rest
        | .closeBracket => build (.next (.array (done :: items).reverse)) stack rest
        | _ => .error ⟨.noComma, position⟩
      | .object members key :: stack =>
        match token with
        | .comma => build (.name (setMember key done members)) stack rest
        | .closeBrace => build (.next (.object (setMember key done members))) stack rest
        | _ => .error ⟨.noComma, position⟩
    | .colon members key =>
      match token with
      | .colon => build .value (.object members key :: stack) rest
      | _ => .error ⟨.noColon, position⟩
    | .firstName members | .name members =>
      match token, expect with
      | .str key, _ => build (.colon members key) stack rest
      | .badString fault, _ => .error fault
      | .closeBrace, .firstName _ => build (.next (.object [])) stack rest
      | _, _ => .error ⟨.noPropertyName, position⟩
    | .firstItem | .value =>
      match token, expect, stack with
      | .str s, _, _ => build (.next (.str s)) stack rest
      | .scalar value, _, _ => build (.next value) stack rest
      | .openBracket, _, _ => build .firstItem (.array [] :: stack) rest
      | .openBrace, _, _ => build (.firstName []) stack rest
      | .badString fault, _, _ => .error fault
      | .closeBracket, .firstItem, .array _ :: outer => build (.next (.array [])) outer rest
      | _, _, _ => .error ⟨.noValue, position⟩

def parse (text : List Char) : Except Fault Json :=
  match text with
  | '\uFEFF' :: _ => .error ⟨.byteOrderMark, 0⟩
  | _ => build .value [] (scan text)

end Arbor.Json
