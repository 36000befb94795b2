/-!
# Prefix codes

Compressed data is a sequence of bits, numbers with the lowest bit first. Symbols are spelled by a
canonical prefix code, which is given by the length of each symbol's code word: shorter words come
first, words of one length are in the order of their symbols, and each word is the next one after
the word before it.

Main definitions: `Gzip.takeBits`, `Gzip.CodeTree`, `Gzip.CodeTree.ofLengths?`,
`Gzip.CodeTree.decode`.
-/

namespace CommonLut.Gzip

/-! ## §1 Bits -/

/-- The bits that are still to be read. -/
abbrev Bits := List Bool

/-- The bits of a byte, lowest first. -/
def byteBits (byte : UInt8) : Bits :=
  (List.range 8).map fun i => byte.toNat.testBit i

/-- The number in the next bits, lowest bit first. -/
def takeBits : Nat → Bits → Option (Nat × Bits)
  | 0, bits => some (0, bits)
  | _ + 1, [] => none
  | n + 1, b :: bits => (takeBits n bits).map fun r => (b.toNat + 2 * r.1, r.2)

/-! ## §2 Code trees -/

/-- A prefix code: the way from the root to a leaf is the code word of its symbol. -/
inductive CodeTree where
  | empty
  | leaf (symbol : Nat)
  | fork (zero one : CodeTree)
deriving Repr

namespace CodeTree

/-- Adds a code word. -/
def insert (symbol : Nat) : List Bool → CodeTree → CodeTree
  | [], _ => leaf symbol
  | b :: word, tree =>
    let (zero, one) :=
      match tree with
      | fork zero one => (zero, one)
      | _ => (empty, empty)
    if b then fork zero (insert symbol word one) else fork (insert symbol word zero) one

/-- The next symbol. -/
def decode : CodeTree → Bits → Option (Nat × Bits)
  | leaf symbol, bits => some (symbol, bits)
  | fork zero one, b :: bits => if b then one.decode bits else zero.decode bits
  | _, _ => none

/-- The longest code word that is allowed. -/
def maxLength : Nat := 15

/-- A number as a code word of a given length, highest bit first. -/
def word (length code : Nat) : List Bool :=
  (List.range length).reverse.map fun i => code.testBit i

/-- Adds the code words of one length, the next free word being `code`. -/
def insertLength (lengths : List Nat) (state : CodeTree × Nat) (length : Nat) : CodeTree × Nat :=
  let entries := lengths.zipIdx.filter fun entry => entry.1 == length
  let (tree, code) := entries.foldl
    (fun (tree, code) entry => (tree.insert entry.2 (word length code), code + 1)) state
  (tree, 2 * code)

/-- The code with the given word lengths, zero standing for a symbol without a word. The words have
to use up the code space, except that there may be no word at all, or a single one of one bit. -/
def ofLengths? (lengths : List Nat) : Option CodeTree :=
  let used := lengths.filter (0 < ·)
  let space := used.foldl (fun sum n => sum + 1 <<< (maxLength - n)) 0
  if used = [] ∨ used = [1] ∨ space = 1 <<< maxLength then
    some ((List.range' 1 maxLength).foldl (insertLength lengths) (empty, 0)).1
  else none

end CodeTree

end CommonLut.Gzip
