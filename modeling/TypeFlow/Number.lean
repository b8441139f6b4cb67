/-!
Numbers with three decimal places, held as a count of thousandths in 64 bits.
-/

namespace TypeFlow

structure Number where
  /-- The value in thousandths. -/
  raw : Int64
deriving DecidableEq

namespace Number

instance : Inhabited Number := ⟨⟨0⟩⟩

def isZero (n : Number) : Bool := n.raw = 0

/-- The number nearest to `milli` thousandths. -/
def ofMilli (milli : Int) : Number := ⟨Int64.ofIntClamp milli⟩

def ofInt (n : Int64) : Number := ofMilli (n.toInt * 1000)

instance : LE Number := ⟨fun a b => a.raw ≤ b.raw⟩

instance (a b : Number) : Decidable (a ≤ b) := inferInstanceAs (Decidable (a.raw ≤ b.raw))

/-! ### From binary floating point -/

/-- The nearest integer, halves going away from zero; `none` if `x` is not a number. The
infinities count as the powers of two that come after all finite doubles. -/
def roundAway? (x : Float) : Option Int :=
  let bits := x.toBits.toNat
  let exponent := (bits >>> 52) % 2048
  let fraction := bits % (1 <<< 52)
  if exponent = 2047 ∧ fraction ≠ 0 then none
  else
    -- the magnitude of `x` is `mantissa * 2 ^ (scale - 1075)`
    let mantissa := if exponent = 0 then fraction else fraction + (1 <<< 52)
    let scale := max exponent 1
    let magnitude : Nat :=
      if 1075 ≤ scale then mantissa <<< (scale - 1075)
      else (mantissa + (1 <<< (1074 - scale))) >>> (1075 - scale)
    some (if bits.testBit 63 then -magnitude else magnitude)

/-- The double is scaled to thousandths in double arithmetic, then rounded. What is not a number
counts as zero. -/
def ofFloat (x : Float) : Number := ofMilli ((roundAway? (x * 1000.0)).getD 0)

/-! ### Text -/

/-- A fraction of `frac` units in the last of so many places, written without the zeros at its end.
A zero that is dropped is one place less; those at the front are written. -/
def fractionDigits : Nat → Nat → List Char
  | 0, _ => []
  | digits + 1, frac =>
    if frac % 10 = 0 then fractionDigits digits (frac / 10)
    else (Nat.toDigits 10 frac).leftpad (digits + 1) '0'

def chars (n : Number) : List Char :=
  let milli := n.raw.toInt.natAbs
  (if n.raw < 0 then ['-'] else []) ++ Nat.toDigits 10 (milli / 1000) ++
    (if milli % 1000 = 0 then [] else '.' :: fractionDigits 3 (milli % 1000))

def text (n : Number) : String := String.ofList n.chars

end Number

end TypeFlow
