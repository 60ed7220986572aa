/-
PointPatch/Stream/Huffman.lean

Canonical prefix codes, given by the length of the code word of each symbol.

Code words of one length are consecutive numbers, in the order of their
symbols, and follow on from the shorter ones.  So a code is fully described
by how many words of each length there are and by the symbols in the order of
their words; decoding reads bit by bit and compares with the first word of
each length.
-/
import PointPatch.Stream.Output

namespace PointPatch

namespace Deflate

/-- The longest code word. -/
def longestWord : Nat := 15

/-- A canonical prefix code. -/
structure PrefixCode where
  /-- How many words of length one, two, … there are. -/
  counts : List Nat
  /-- The symbols in the order of their words. -/
  symbols : Array Nat

namespace PrefixCode

/-- The code with the given word lengths; length zero means that a symbol has no word. -/
def ofLengths (lengths : List Nat) : PrefixCode :=
  let ofLength (n : Nat) := (lengths.zipIdx.filter fun ls => ls.1 == n).map Prod.snd
  let groups := ((List.range longestWord).map fun n => ofLength (n + 1))
  ⟨groups.map List.length, groups.flatten.toArray⟩

/-- How many symbols have a word. -/
def used (c : PrefixCode) : Nat := c.symbols.size

/-- The share of all words of the longest length that begin with a word of the code. -/
def share (c : PrefixCode) : Nat :=
  (c.counts.zipIdx.map fun ni => ni.1 * Nat.pow 2 (longestWord - (ni.2 + 1))).foldr (· + ·) 0

/-- Whether every sequence of bits begins with exactly one word. -/
def isComplete (c : PrefixCode) : Bool := c.share == Nat.pow 2 longestWord

/-- Whether a code can be used: it is complete, or has no word, or has only one, of one bit. -/
def isUsable (c : PrefixCode) : Bool :=
  c.isComplete || c.used == 0 || (c.used == 1 && c.counts.head? == some 1)

/-- Reads a word bit by bit. `word` is what has been read, `first` the first word of the
present length, `index` the place of its symbol. Where no longer words are left, nothing that
follows can help. -/
def decodeFrom (symbols : Array Nat) :
    (counts : List Nat) → (word first index : Nat) → List Bool →
      Except Flaw (Nat × List Bool)
  | [], _, _, _, _ => .error .wrong
  | _ :: _, _, _, _, [] => .error .missing
  | n :: counts, word, first, index, b :: bits =>
    let word := word + b.toNat
    if word < first + n then
      match symbols[index + (word - first)]? with
      | some s => .ok (s, bits)
      | none => .error .wrong
    else if symbols.size ≤ index + n then .error .wrong
    else decodeFrom symbols counts (2 * word) (2 * (first + n)) (index + n) bits

/-- Reads one symbol. -/
def decode (c : PrefixCode) (bits : List Bool) : Except Flaw (Nat × List Bool) :=
  decodeFrom c.symbols c.counts 0 0 0 bits

end PrefixCode

end Deflate

end PointPatch
