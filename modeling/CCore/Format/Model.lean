import CCore.Library.Decimals
import CCore.Strings

/-!
# Writing coordinates

`format.c` writes a latitude or a longitude as a hemisphere, degrees and minutes.  A `float` is
taken as the exact rational that it is, and so are the results of `modff` and of the
multiplication by sixty.  The two conversions of the format string round each for itself.

`snprintf` writes what fits into the first `n` bytes and ends it with a NUL.  A byte outside the
buffer cannot be written.
-/

namespace CCore
namespace Format

open Decimals Strings

/-- ` ` -/
def space : UInt8 := 32

/-- `snprintf(out, n, ...)`, where `text` is what the format makes of its arguments. -/
def snprintf (out : List UInt8) (n : ℕ) (text : List UInt8) : Option (List UInt8) :=
  if n = 0 then some out
  else
    let written := text.take (n - 1) ++ [0]
    memcpyTo written.length 0 written out

/-- The text of `format_lat` and of `format_lon`, which differ in the letters, in the number of
spaces behind them, and in the width of the degrees. -/
def coordinateText (negative positive : UInt8) (spaces width : ℕ) (x : ℚ) : List UInt8 :=
  let hemisphere := if x < 0 then negative else positive
  let x := |x|
  let deg : ℚ := ⌊x⌋
  let frac := (x - deg) * 60
  hemisphere ::
    (List.replicate spaces space ++ (fixed width 0 deg ++ space :: fixed 5 2 frac))

/-- The format `"%c  %02.0f %05.2f"`. -/
def latText (lat : ℚ) : List UInt8 := coordinateText 'S'.toUInt8 'N'.toUInt8 2 2 lat

/-- The format `"%c %03.0f %05.2f"`. -/
def lonText (lon : ℚ) : List UInt8 := coordinateText 'W'.toUInt8 'E'.toUInt8 1 3 lon

/-- `format_lat` -/
def formatLat (lat : ℚ) (n : ℕ) (out : List UInt8) : Option (List UInt8) :=
  snprintf out n (latText lat)

/-- `format_lon` -/
def formatLon (lon : ℚ) (n : ℕ) (out : List UInt8) : Option (List UInt8) :=
  snprintf out n (lonText lon)

end Format
end CCore
