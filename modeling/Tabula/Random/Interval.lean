import Tabula.Random.Source

/-!
Integers drawn uniformly from an interval, in arithmetic of 64 bits. A word is stretched over the interval by a
wide product: the high half is the offset, and a low half beyond the zone is rejected so that every offset is
equally likely.
-/

namespace Tabula

structure Interval where
  low : Int64
  high : Int64
deriving DecidableEq

namespace Interval

/-- The number of integers in the interval; `0` stands for all of them. -/
def width (i : Interval) : UInt64 := i.high.toUInt64 - i.low.toUInt64 + 1

/-- The last low half that is accepted: one less than the greatest multiple of the width by a power of two. -/
def zone (i : Interval) : UInt64 := (i.width <<< (63 - i.width.log2)) - 1

def product (i : Interval) (w : UInt64) : Nat := w.toNat * i.width.toNat

def accepts (i : Interval) (w : UInt64) : Bool := (i.product w).toUInt64 ≤ i.zone

def select (i : Interval) (w : UInt64) : Int64 :=
  if i.width = 0 then w.toInt64 else i.low + (i.product w / 2 ^ (64 : Nat)).toUInt64.toInt64

/-- Draws until a word is accepted. There is no result if none ever is. -/
def drawWord {γ : Type} [WordSource γ] (i : Interval) (g : γ) : Option (UInt64 × γ) :=
  let (w, rest) := WordSource.next g
  if i.width = 0 || i.accepts w then some (w, rest) else i |>.drawWord rest
partial_fixpoint

/-- The integer of the first word that is accepted. If the loop does not end, this stands for nothing. -/
def draw {γ : Type} [WordSource γ] (i : Interval) (g : γ) : Int64 × γ :=
  let (w, rest) := (i.drawWord g).getD (0, g)
  (i.select w, rest)

end Interval

end Tabula
