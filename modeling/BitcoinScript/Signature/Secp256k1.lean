/-
The curve secp256k1, y² = x³ + 7 over the integers modulo the prime `p`, whose points form a group of prime order `n`.

Points of keys are affine and carry the proof that they lie on the curve. Sums are computed in Jacobian coordinates,
where (x, y, z) stands for the affine point (x / z², y / z³) and z = 0 for the neutral element, so that only the last
step divides.
-/

namespace BitcoinScript.Secp256k1

/-- the prime of the field of coordinates -/
def p : Nat := 0xfffffffffffffffffffffffffffffffffffffffffffffffffffffffefffffc2f

/-- the order of the group -/
def n : Nat := 0xfffffffffffffffffffffffffffffffebaaedce6af48a03bbfd25e8cd0364141

/-- `base ^ exponent` modulo `m`, by the low `bits` bits of the exponent -/
def modPow (m : Nat) : (bits base exponent : Nat) → Nat
  | 0, _, _ => 1 % m
  | bits + 1, base, exponent =>
    let rest := modPow m bits (base * base % m) (exponent / 2)
    if exponent % 2 = 1 then base * rest % m else rest

/-- the inverse of `a` modulo a prime `m` below `2 ^ 256`, and zero for a multiple of `m` -/
def modInverse (m a : Nat) : Nat :=
  modPow m 256 (a % m) (m - 2)

/-! ## Points -/

/-- whether two reduced coordinates satisfy the equation of the curve -/
def OnCurve (x y : Nat) : Prop :=
  x < p ∧ y < p ∧ y * y % p = (x * x * x + 7) % p

instance (x y : Nat) : Decidable (OnCurve x y) :=
  inferInstanceAs (Decidable (_ ∧ _ ∧ _))

/-- a point of the curve other than the neutral element -/
structure Point where
  x : Nat
  y : Nat
  onCurve : OnCurve x y

/-- the point with the given coordinates, if the curve has it -/
def Point.ofCoordinates? (x y : Nat) : Option Point :=
  if h : OnCurve x y then some ⟨x, y, h⟩ else none

/-- the point with the given `x` whose `y` is odd or even, if the curve has it -/
def Point.ofX? (x : Nat) (odd : Bool) : Option Point :=
  let root := modPow p 256 ((x * x * x + 7) % p) ((p + 1) / 4)
  let y := if (root % 2 == 1) = odd then root else p - root
  Point.ofCoordinates? x y

/-- the generator of the group -/
def generator : Point where
  x := 0x79be667ef9dcbbac55a06295ce870b07029bfcdb2dce28d959f2815b16f81798
  y := 0x483ada7726a3c4655da4fbfc0e1108a8fd17b448a68554199c47d08ffb10d4b8
  onCurve := by decide

/-! ## Sums -/

/-- the difference of two reduced coordinates -/
def minus (a b : Nat) : Nat :=
  (a + (p - b)) % p

/-- a point in Jacobian coordinates -/
structure Jacobian where
  x : Nat
  y : Nat
  z : Nat

namespace Jacobian

/-- the neutral element -/
def zero : Jacobian := ⟨1, 1, 0⟩

/-- an affine point in Jacobian coordinates -/
def ofPoint (point : Point) : Jacobian :=
  ⟨point.x, point.y, 1⟩

/-- the sum of a point with itself -/
def double (a : Jacobian) : Jacobian :=
  if a.z = 0 then zero
  else
    let yy := a.y * a.y % p
    let s := 4 * a.x * yy % p
    let m := 3 * a.x * a.x % p
    let x := minus (m * m % p) (2 * s % p)
    let y := minus (m * minus s x % p) (8 * yy * yy % p)
    ⟨x, y, 2 * a.y * a.z % p⟩

/-- the sum of two points -/
def add (a b : Jacobian) : Jacobian :=
  if a.z = 0 then b
  else if b.z = 0 then a
  else
    let aa := a.z * a.z % p
    let bb := b.z * b.z % p
    let u := a.x * bb % p
    let s := a.y * b.z * bb % p
    let h := minus (b.x * aa % p) u
    let r := minus (b.y * a.z * aa % p) s
    if h = 0 then
      if r = 0 then double a else zero
    else
      let hh := h * h % p
      let hhh := h * hh % p
      let v := u * hh % p
      let x := minus (minus (r * r % p) hhh) (2 * v % p)
      let y := minus (r * minus v x % p) (s * hhh % p)
      ⟨x, y, h * a.z * b.z % p⟩

/-- `j · a + k · b` for numbers of at most `bits` bits, where `ab` is the sum of `a` and `b` -/
def combine (a b ab : Jacobian) : (bits j k : Nat) → Jacobian
  | 0, _, _ => zero
  | bits + 1, j, k =>
    let twice := double (combine a b ab bits (j / 2) (k / 2))
    match j % 2 == 1, k % 2 == 1 with
    | false, false => twice
    | true, false => add twice a
    | false, true => add twice b
    | true, true => add twice ab

/-- the first affine coordinate, unless the point is the neutral element -/
def affineX? (a : Jacobian) : Option Nat :=
  if a.z = 0 then none
  else
    let inverse := modInverse p a.z
    some (a.x * (inverse * inverse % p) % p)

end Jacobian

end BitcoinScript.Secp256k1
