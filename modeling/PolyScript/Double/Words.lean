import PolyScript.Double.Basic

/-!
# Integers Held in Words

How an integer of any size becomes a double precision number. The integer is
held in words of sixty-four bits. Its sixty-four leading bits are kept, a trace
of what lies below them is left in the last, and the result is rounded once more
to the nearest number. Eleven of the sixty-four bits are still to go, so the
trace only ever decides whether an integer in the middle between two numbers is
really there.

The trace is taken word by word: each word below the top one is looked at in as
many of its low bits as the top word has. In the second word these are exactly
the bits that are not kept. In the words below it a set bit may lie higher, out
of sight, and an integer that exceeds the middle by nothing else counts as the
middle and goes to the even neighbour. Every other integer goes to the nearest
number.

## Main definitions

* `Double.leavesTrace`: Whether a set bit is seen below the leading ones.
* `Double.ofWords`: The number that an integer becomes.
-/

namespace PolyScript

namespace Double

/-- The number of bits in a word. -/
def wordSize : Nat := 64

/-- The number of bits that a positive integer has in its top word. -/
def topSize (n : Nat) : Nat := n.log2 % wordSize + 1

/-- The number of words below the top one. -/
def lowerWords (n : Nat) : Nat := n.log2 / wordSize

/-- Whether a word below the top one has a set bit among as many low bits as the
    top word has. -/
def leavesTrace (n : Nat) : Bool :=
  (List.range (lowerWords n)).any fun i => n / 2 ^ (wordSize * i) % 2 ^ topSize n ≠ 0

/-- The number of bits below the leading word. -/
def cutSize (n : Nat) : Nat := n.log2 + 1 - wordSize

/-- The leading word, its last bit set if there is a trace of what lies below. -/
def leadingWord (n : Nat) : Nat :=
  let kept := n / 2 ^ cutSize n
  if leavesTrace n then kept ||| 1 else kept

/-- The number that an integer becomes: its leading word, rounded and scaled. -/
def ofWords (n : Int) : Double := ofScaled (n < 0) (leadingWord n.natAbs) (cutSize n.natAbs)

end Double

end PolyScript
