/-!
# White space in documents

The characters with the Unicode property `White_Space`, and the two things a document does with
them: a text is trimmed at both ends, and it is split into words.

Main definitions: `isBlank`, `trim`, `words`.
-/

namespace CommonLut.Text

/-! ## §1 The character class -/

/-- The characters with the Unicode property `White_Space`. -/
def isBlank (c : Char) : Bool :=
  let n := c.toNat
  (9 ≤ n && n ≤ 13) || n == 0x20 || n == 0x85 || n == 0xA0 || n == 0x1680 ||
    (0x2000 ≤ n && n ≤ 0x200A) || n == 0x2028 || n == 0x2029 || n == 0x202F ||
    n == 0x205F || n == 0x3000

/-! ## §2 Trimming and splitting -/

/-- The characters from the first one that is not blank to the last one that is not. -/
def trimChars (s : List Char) : List Char :=
  ((s.dropWhile isBlank).reverse.dropWhile isBlank).reverse

/-- A text without the blanks at its two ends. -/
def trim (s : String) : String :=
  String.ofList (trimChars s.toList)

/-- The non-empty pieces of a text between separators, in order. -/
def fields (separates : Char → Bool) (s : String) : List String :=
  ((s.toList.splitOnP separates).filter fun w => !w.isEmpty).map String.ofList

/-- The maximal runs of characters that are not blank, in order. -/
def words (s : String) : List String :=
  fields isBlank s

end CommonLut.Text
