import ThreeAddress.Random.Stream

/-!
# Shuffling

A list is shuffled from its end: each element changes places with one that is
not behind it, drawn evenly. A draw multiplies a word by the number of choices
and takes the high half; words whose low half would favour a choice are passed
over.
-/

namespace ThreeAddress.Random

/-- The greatest low half that a draw among `choices` accepts. -/
def zone (choices : Nat) : Nat :=
  (choices <<< (31 - Nat.log2 choices)) - 1

/-- Draws a number below `choices`, after passing over at most `attempts` words. -/
def draw (choices : Nat) : Nat → Stream → Nat × Stream
  | 0, stream => (0, stream)
  | attempts + 1, stream =>
      let product := stream.word.toNat * choices
      if product % 4294967296 ≤ zone choices then (product / 4294967296, stream.advance)
      else draw choices attempts stream.advance

/-- More words than are ever passed over: each is, with a probability of at most one half. -/
def maxAttempts : Nat := 1024

def swap {α : Type} (items : List α) (left right : Nat) : List α :=
  match items[left]?, items[right]? with
  | some first, some second => (items.set left second).set right first
  | _, _ => items

/-- Shuffles the first `count + 1` elements. -/
def shuffleFirst {α : Type} : Nat → List α → Stream → List α
  | 0, items, _ => items
  | count + 1, items, stream =>
      let (choice, stream) := draw (count + 2) maxAttempts stream
      shuffleFirst count (swap items (count + 1) choice) stream

def shuffle {α : Type} (items : List α) (stream : Stream) : List α :=
  shuffleFirst (items.length - 1) items stream

end ThreeAddress.Random
