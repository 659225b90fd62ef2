/-!
Blocks: texts in the making. A block is kept in chunks, so that putting blocks together does not
copy their characters, and it knows how long it is and whether it has a line break.

Main statements: each operation says what it does to the text of a block (`text_append`,
`text_join`).
-/

namespace Arbor

/-- A text in chunks, with its length and whether it has a line break. -/
structure Block where
  chunks : List (List Char)
  length : Nat
  broken : Bool
  length_eq : length = chunks.flatten.length
  broken_eq : broken = chunks.flatten.contains '\n'

namespace Block

def text (b : Block) : List Char :=
  b.chunks.flatten

theorem length_eq_text (b : Block) : b.length = b.text.length :=
  b.length_eq

theorem broken_eq_text (b : Block) : b.broken = b.text.contains '\n' :=
  b.broken_eq

def empty : Block :=
  ⟨[], 0, false, rfl, rfl⟩

@[simp]
theorem text_empty : empty.text = [] :=
  rfl

def ofChars (cs : List Char) : Block :=
  ⟨[cs], cs.length, cs.contains '\n', by simp, by simp⟩

@[simp]
theorem text_ofChars (cs : List Char) : (ofChars cs).text = cs := by
  simp [text, ofChars]

def append (a b : Block) : Block where
  chunks := a.chunks ++ b.chunks
  length := a.length + b.length
  broken := a.broken || b.broken
  length_eq := by simp [a.length_eq, b.length_eq]
  broken_eq := by simp [a.broken_eq, b.broken_eq]

@[simp]
theorem text_append (a b : Block) : (a.append b).text = a.text ++ b.text := by
  simp [text, append]

def join (separator : Block) : List Block → Block
  | [] => empty
  | [b] => b
  | b :: c :: rest => b.append (separator.append (join separator (c :: rest)))

@[simp]
theorem text_join (separator : Block) (blocks : List Block) :
    (join separator blocks).text = separator.text.intercalate (blocks.map text) := by
  fun_induction join separator blocks with
  | case1 => rfl
  | case2 b => simp
  | case3 b c rest ih => simp [ih]

def enclose (first last : Char) (b : Block) : Block :=
  (ofChars [first]).append (b.append (ofChars [last]))

@[simp]
theorem text_enclose (first last : Char) (b : Block) :
    (b.enclose first last).text = first :: (b.text ++ [last]) := by
  simp [enclose]

def firstOf : List (List Char) → Option Char
  | [] => none
  | [] :: rest => firstOf rest
  | (c :: _) :: _ => some c

def head? (b : Block) : Option Char :=
  firstOf b.chunks

theorem firstOf_eq (chunks : List (List Char)) : firstOf chunks = chunks.flatten.head? := by
  fun_induction firstOf chunks with
  | case1 => rfl
  | case2 rest ih => simpa using ih
  | case3 c cs rest => rfl

theorem head?_eq (b : Block) : b.head? = b.text.head? :=
  firstOf_eq b.chunks

end Block

end Arbor
