import Tabula.Binary64.Basic

/-!
The 64-bit encoding: sign bit, eleven exponent bits, 52 fraction bits. The leading bit of a significand is
written only through a non-zero exponent field.
-/

namespace Tabula.Binary64

private theorem canonical_subnormal {n : Nat} : Canonical (n % 2 ^ (52 : Nat)) 0 :=
  ⟨by have := Nat.mod_lt n (show 0 < 2 ^ (52 : Nat) by decide); omega, by omega, .inr rfl⟩

private theorem canonical_normal {n e : Nat} (h : e ≤ 2046) : Canonical (2 ^ (52 : Nat) + n % 2 ^ (52 : Nat)) (e - 1) :=
  ⟨by have := Nat.mod_lt n (show 0 < 2 ^ (52 : Nat) by decide); omega, by omega, .inl (by omega)⟩

def ofBits (bits : UInt64) : Binary64 :=
  let n := bits.toNat
  let negative := decide (2 ^ (63 : Nat) ≤ n)
  let field := n / 2 ^ (52 : Nat) % 2 ^ (11 : Nat)
  if field = 0 then finite negative (n % 2 ^ (52 : Nat)) 0 canonical_subnormal
  else if h : field ≤ 2046 then finite negative (2 ^ (52 : Nat) + n % 2 ^ (52 : Nat)) (field - 1) (canonical_normal h)
  else if n % 2 ^ (52 : Nat) = 0 then infinity negative
  else nan negative (decide (n % 2 ^ (52 : Nat) < 2 ^ (51 : Nat)))

/-- The encoding below the sign bit. A NaN is quiet exactly if its first fraction bit is set. -/
def magnitudeBits : Binary64 → Nat
  | nan _ signaling => if signaling then 0x7ff0000000000001 else 0x7ff8000000000000
  | infinity _ => 0x7ff0000000000000
  | finite _ m e _ => if m < 2 ^ (52 : Nat) then m else (e + 1) * 2 ^ (52 : Nat) + (m - 2 ^ (52 : Nat))

def toBits (x : Binary64) : UInt64 :=
  UInt64.ofNat ((if x.negative then 2 ^ (63 : Nat) else 0) + x.magnitudeBits)

end Tabula.Binary64
