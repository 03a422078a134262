/-!
# Pseudo-random words

A permuted congruential generator: a linear congruence on 128 bits whose state is mixed
down to 64 bits on every draw. Draws below a bound take the high half of a product and
redraw in the few cases that would make some results likelier than others.
-/

namespace TreeMachine

/-- The state of the generator: the high and the low half of a 128-bit number. -/
structure Pcg where
  hi : UInt64
  lo : UInt64
  deriving Repr, DecidableEq, Inhabited

namespace Pcg

def multiplier : Nat := 2549297995355413924 * UInt64.size + 4865540595714422341

def increment : Nat := 6364136223846793005 * UInt64.size + 1442695040888963407

def advance (g : Pcg) : Pcg :=
  let state := ((g.hi.toNat * UInt64.size + g.lo.toNat) * multiplier + increment) %
    (UInt64.size * UInt64.size)
  { hi := UInt64.ofNat (state / UInt64.size), lo := UInt64.ofNat (state % UInt64.size) }

def output (g : Pcg) : UInt64 :=
  let h := g.hi ^^^ (g.hi >>> 32)
  let h := h * 0xda942042e4dd58b5
  let h := h ^^^ (h >>> 48)
  h * (g.lo ||| 1)

def next (g : Pcg) : UInt64 × Pcg :=
  let g := g.advance
  (g.output, g)

/-- Draws a word that is not negative as a signed number. -/
def nextInt32 (g : Pcg) : Int32 × Pcg :=
  let (u, g) := g.next
  ((u >>> 33).toUInt32.toInt32, g)

/-- Redraws while the low half of the product with `n` lies below `least`; `tries` bounds
the number of draws. The result is the high half. -/
def redraw (n least : Nat) : Nat → Pcg → Nat × Pcg
  | 0, g => (0, g)
  | tries + 1, g =>
    let (u, g') := g.next
    let p := u.toNat * n
    if p % UInt64.size < least then redraw n least tries g' else (p / UInt64.size, g')

/-- Draws a number below `n`, which is positive and fits 64 bits. A power of two takes the
low bits of one draw. -/
def below (n : Nat) (g : Pcg) : Nat × Pcg :=
  if n &&& (n - 1) = 0 then
    let (u, g) := g.next
    (u.toNat % n, g)
  else
    let (u, g') := g.next
    let p := u.toNat * n
    if p % UInt64.size < n then
      let least := (UInt64.size - n) % n
      if p % UInt64.size < least then redraw n least 65536 g' else (p / UInt64.size, g')
    else (p / UInt64.size, g')

end Pcg

end TreeMachine
