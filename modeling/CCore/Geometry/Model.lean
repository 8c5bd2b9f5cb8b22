import CCore.Double
import CCore.Library.Buffers
import Mathlib.Algebra.Order.Field.Basic

/-!
# Vectors and intersections

`math.c` has two functions: the intersection of two segments in the plane, and the intersections
of a line or a segment with a sphere.

## Segments

`vec2_int_vec2` divides without looking at the divisor and compares what comes out, so it needs
the values of a `double` that are not numbers.  It runs on `F64`, and a vector is null if its first
component is NaN.

## Lines and spheres

`vec3_int_sph` divides by the magnitude of a vector, but not where this is small, so all of its
values are numbers.  It needs a square root, and runs on any ordered field with a function for
it.  A null vector in `out` is `none`.  `out` is an array of the caller or `NULL`, and a write
outside the array has no result.
-/

namespace CCore
namespace Geometry

/-! ## Vectors in the plane -/

/-- `vec2_t` -/
structure Vec2 where
  x : F64
  y : F64
  deriving DecidableEq

/-- `CC_VEC2_NULL` -/
def vec2Null : Vec2 := ⟨.nan, .nan⟩

/-- `CC_VEC_IS_NULL` -/
def Vec2.isNull (v : Vec2) : Bool := v.x.isNan

/-- `vec2_pdot` -/
def vec2Pdot (a b : Vec2) : F64 := a.x * b.y - a.y * b.x

/-- `vec2_add` -/
def vec2Add (a b : Vec2) : Vec2 := ⟨a.x + b.x, a.y + b.y⟩

/-- `vec2_sub` -/
def vec2Sub (a b : Vec2) : Vec2 := ⟨a.x - b.x, a.y - b.y⟩

/-- `vec2_mul` -/
def vec2Mul (a : Vec2) (b : F64) : Vec2 := ⟨a.x * b, a.y * b⟩

/-- `vec2_parallel` -/
def vec2Parallel (a b : Vec2) : Bool :=
  (a.y.eq 0 && b.y.eq 0) || (a.x / a.y).eq (b.x / b.y)

/-- `vec2_equal` -/
def vec2Equal (a b : Vec2) : Bool := a.x.eq b.x && a.y.eq b.y

/-- `vec2_int_vec2` -/
def vec2IntVec2 (a u b v : Vec2) : Vec2 :=
  if vec2Parallel u v then vec2Null
  else if vec2Equal a b then a
  else
    let w := vec2Sub b a
    let mw := vec2Sub a b
    let ta := vec2Pdot w v / vec2Pdot u v
    let tb := vec2Pdot mw u / vec2Pdot v u
    if ta.lt 0 || F64.lt 1 ta || tb.lt 0 || F64.lt 1 tb then vec2Null
    else vec2Add a (vec2Mul u ta)

/-! ## Vectors in space -/

/-- `vec3_t` -/
structure Vec3 (K : Type*) where
  x : K
  y : K
  z : K
  deriving DecidableEq

section

variable {K : Type*} [Field K]

/-- `vec3_dot` -/
def vec3Dot (a b : Vec3 K) : K := a.x * b.x + a.y * b.y + a.z * b.z

/-- `vec3_sqmag` -/
def vec3Sqmag (a : Vec3 K) : K := a.x * a.x + a.y * a.y + a.z * a.z

/-- `vec3_add` -/
def vec3Add (a b : Vec3 K) : Vec3 K := ⟨a.x + b.x, a.y + b.y, a.z + b.z⟩

/-- `vec3_sub` -/
def vec3Sub (a b : Vec3 K) : Vec3 K := ⟨a.x - b.x, a.y - b.y, a.z - b.z⟩

/-- `vec3_mul` -/
def vec3Mul (a : Vec3 K) (b : K) : Vec3 K := ⟨a.x * b, a.y * b, a.z * b⟩

/-- `vec3_div` -/
def vec3Div (a : Vec3 K) (b : K) : Vec3 K := ⟨a.x / b, a.y / b, a.z / b⟩

/-- `DBL_EPSILON` -/
def dblEpsilon : K := 1 / 2 ^ 52

/-- `pow2` -/
def pow2 (a : K) : K := a * a

variable [LinearOrder K] (sqrt : K → K)

/-- `vec3_mag` -/
def vec3Mag (a : Vec3 K) : K := sqrt (vec3Sqmag a)

/-- `vec3_unit` -/
def vec3Unit (v : Vec3 K) : Vec3 K :=
  let m := vec3Mag sqrt v
  if m = 0 ∨ |m| < 5 * dblEpsilon then v else vec3Div v m

/-- `out`: `NULL`, or an array of vectors, some of them null. -/
abbrev Out (K : Type*) := Option (List (Option (Vec3 K)))

/-- `if(out) out[i] = value;` -/
def writeOut (out : Out K) (i : ℕ) (value : Option (Vec3 K)) : Option (Out K) :=
  match out with
  | none => some none
  | some cells => (Buffers.write cells i value).map some

/-- `if((d >= 0 && d <= dist) || !confined)` -/
def inReach (confined : Bool) (dist d : K) : Bool := (0 ≤ d && d ≤ dist) || !confined

/-- The loop of `vec3_int_sph`, over the multipliers that are left. -/
def intSphLoop (o u : Vec3 K) (confined : Bool) (dist uoc sqDelta : K) :
    List K → ℕ → Out K → Option (ℕ × Out K)
  | [], valid, out => some (valid, out)
  | mult :: mults, valid, out =>
    let d := -uoc + mult * sqDelta
    if inReach confined dist d then
      (writeOut out valid (some (vec3Add o (vec3Mul u d)))).bind fun out =>
        intSphLoop o u confined dist uoc sqDelta mults (valid + 1) out
    else intSphLoop o u confined dist uoc sqDelta mults valid out

/-- `vec3_int_sph`: what it returns, and `out`. -/
def vec3IntSph (o v c : Vec3 K) (r : K) (confined : Bool) (out : Out K) : Option (ℕ × Out K) :=
  let u := vec3Unit sqrt v
  let dist := vec3Mag sqrt v
  let oToC := vec3Sub o c
  let uoc := vec3Dot u oToC
  let delta := pow2 uoc - vec3Sqmag oToC + pow2 r
  (writeOut out 0 none).bind fun out =>
    (writeOut out 1 none).bind fun out =>
      if delta < 0 then some (0, out)
      else
        let sqDelta := sqrt delta
        if delta = 0 then
          let d := -uoc
          if inReach confined dist d then
            (writeOut out 0 (some (vec3Add o (vec3Mul u d)))).map fun out => (1, out)
          else some (0, out)
        else intSphLoop o u confined dist uoc sqDelta [-1, 1] 0 out

end

end Geometry
end CCore
