import CCore.Format.Model

/-!
# Sixty minutes

A coordinate is split into degrees and minutes by cutting off its fraction, and the minutes are
rounded to two decimals when they are written.  Just below a whole degree they are rounded to
`60.00`, and the degrees have been written already: nothing carries.  So the text is no valid
reading there, although it names a position that is near enough.

`readCoordinate` reads such a text, and `readCoordinate_coordinateText` says what it reads from the
text that is written: the degrees cut off, and the minutes rounded.  What is wrong with the minutes
is then a question of rounding alone (`validReading_iff`).
-/

namespace CCore
namespace Format

open Decimals Scanning Strings

/-! ## Reading -/

/-- What a coordinate's text shows. -/
structure Coordinate where
  hemisphere : UInt8
  degrees : ℕ
  minutes : ℚ
  deriving DecidableEq

/-- A letter, spaces, the degrees, a space, and the minutes with two decimals. -/
def readCoordinate : List UInt8 → Option Coordinate
  | [] => none
  | hemisphere :: text =>
    let text := text.dropWhile (· = space)
    let degrees := text.takeWhile isDigit
    match text.dropWhile isDigit with
    | [] => none
    | separator :: text =>
      let whole := text.takeWhile isDigit
      match text.dropWhile isDigit with
      | [] => none
      | point :: hundredths =>
        if degrees ≠ [] ∧ separator = space ∧ whole ≠ [] ∧ point = dot ∧
            hundredths.length = 2 ∧ hundredths.all isDigit then
          some ⟨hemisphere, value degrees, value (whole ++ hundredths) / 100⟩
        else none

/-- **A text is read as it was put together.** -/
theorem readCoordinate_eq (hemisphere : UInt8) (spaces : ℕ) {degrees whole hundredths : List UInt8}
    (hdegrees : ∀ c ∈ degrees, isDigit c = true) (hdegrees' : degrees ≠ [])
    (hwhole : ∀ c ∈ whole, isDigit c = true) (hwhole' : whole ≠ [])
    (hhundredths : ∀ c ∈ hundredths, isDigit c = true) (hlength : hundredths.length = 2) :
    readCoordinate (hemisphere :: (List.replicate spaces space ++
        (degrees ++ space :: (whole ++ dot :: hundredths)))) =
      some ⟨hemisphere, value degrees, value (whole ++ hundredths) / 100⟩ := by
  have hspaces : (List.replicate spaces space ++
      (degrees ++ space :: (whole ++ dot :: hundredths))).dropWhile (· = space) =
        degrees ++ space :: (whole ++ dot :: hundredths) := by
    refine dropWhile_append (fun c hc => decide_eq_true (List.eq_of_mem_replicate hc)) ?_
    obtain ⟨d, degrees, rfl⟩ := List.exists_cons_of_ne_nil hdegrees'
    refine stops_cons.mpr (decide_eq_false ?_)
    rintro rfl
    exact absurd (hdegrees _ List.mem_cons_self) (by decide)
  have htake : ∀ {text : List UInt8} {c : UInt8} (rest : List UInt8),
      (∀ d ∈ text, isDigit d = true) → isDigit c = false →
        (text ++ c :: rest).takeWhile isDigit = text := by
    intro text c rest htext hc
    rw [List.takeWhile_append_of_pos htext, List.takeWhile_cons_of_neg (by rw [hc]; decide),
      List.append_nil]
  rw [readCoordinate]
  dsimp only
  rw [hspaces, htake _ hdegrees rfl, dropWhile_append hdegrees (stops_cons.mpr rfl)]
  dsimp only
  rw [htake _ hwhole rfl, dropWhile_append hwhole (stops_cons.mpr rfl)]
  exact if_pos ⟨hdegrees', rfl, hwhole', rfl, hlength, List.all_eq_true.mpr hhundredths⟩

/-! ## What is written -/

variable {x : ℚ}

/-- The minutes of a coordinate, as they are written: rounded to hundredths. -/
def minuteHundredths (x : ℚ) : ℕ := (roundHalfEven (Int.fract |x| * 60 * 10 ^ 2)).toNat

theorem minuteHundredths_cast (x : ℚ) :
    (minuteHundredths x : ℤ) = roundHalfEven (Int.fract |x| * 60 * 10 ^ 2) := by
  refine Int.toNat_of_nonneg (roundHalfEven_nonneg ?_)
  have hfract := Int.fract_nonneg |x|
  positivity

/-- The rounding is to the nearest hundredth. -/
theorem abs_minuteHundredths_sub_le (x : ℚ) :
    |(minuteHundredths x : ℚ) / 100 - Int.fract |x| * 60| ≤ 0.005 := by
  have hcast : (minuteHundredths x : ℚ) = roundHalfEven (Int.fract |x| * 60 * 10 ^ 2) := by
    exact_mod_cast minuteHundredths_cast x
  have hlow := sub_half_le_roundHalfEven (Int.fract |x| * 60 * 10 ^ 2)
  have hhigh := roundHalfEven_le_add_half (Int.fract |x| * 60 * 10 ^ 2)
  rw [hcast, abs_le]
  constructor
  · linarith
  · linarith

/-- **When the minutes stay below sixty.** -/
theorem minuteHundredths_lt_iff (x : ℚ) :
    minuteHundredths x < 6000 ↔ Int.fract |x| * 60 < 59.995 := by
  have hround := roundHalfEven_lt_iff (x := Int.fract |x| * 60 * 10 ^ 2) (n := 6000) (by decide)
  rw [← minuteHundredths_cast] at hround
  constructor
  · intro hlt
    have hlt := hround.mp (by exact_mod_cast hlt)
    push_cast at hlt
    linarith
  · intro hlt
    have hlt := hround.mpr (by push_cast; linarith)
    exact_mod_cast hlt

/-- They come to sixty at most. -/
theorem minuteHundredths_le (x : ℚ) : minuteHundredths x ≤ 6000 := by
  have hhigh := roundHalfEven_le_add_half (Int.fract |x| * 60 * 10 ^ 2)
  have hfract := Int.fract_lt_one |x|
  rw [← minuteHundredths_cast] at hhigh
  have hlt : (minuteHundredths x : ℚ) < 6001 := by
    push_cast at hhigh
    linarith
  exact Nat.le_of_lt_succ (by exact_mod_cast hlt)

/-- The text, by its numerals. -/
theorem coordinateText_eq (negative positive : UInt8) (spaces width : ℕ) (x : ℚ) :
    coordinateText negative positive spaces width x =
      (if x < 0 then negative else positive) :: (List.replicate spaces space ++
        (numeral (max 1 width) ⌊|x|⌋.toNat ++ space ::
          (numeral 2 (minuteHundredths x / 100) ++ dot ::
            numeral 2 (minuteHundredths x % 100)))) := by
  have hdegrees : fixed width 0 (⌊|x|⌋ : ℚ) = numeral (max 1 width) ⌊|x|⌋.toNat := by
    rw [fixed, if_pos rfl, pow_zero, mul_one, roundHalfEven_intCast]
  have hminutes : fixed 5 2 ((|x| - ⌊|x|⌋) * 60) =
      numeral 2 (minuteHundredths x / 100) ++ dot :: numeral 2 (minuteHundredths x % 100) := rfl
  rw [coordinateText, hdegrees, hminutes]

/-- A numeral of some width is not empty. -/
theorem numeral_ne_nil {width n : ℕ} (hn : n < 10 ^ width) (hwidth : 0 < width) :
    numeral width n ≠ [] := by
  intro hnil
  have hlength := length_numeral hn
  rw [hnil, List.length_nil] at hlength
  omega

/-- The degrees have at most the digits that the width gives them. -/
theorem toNat_floor_abs_lt {bound : ℕ} (hx : |x| < bound) : ⌊|x|⌋.toNat < bound := by
  have hfloor : ⌊|x|⌋ < bound := Int.floor_lt.mpr (by exact_mod_cast hx)
  have hnonneg : 0 ≤ ⌊|x|⌋ := Int.floor_nonneg.mpr (abs_nonneg x)
  omega

section Texts

variable (negative positive : UInt8) (spaces : ℕ) {width : ℕ} (hwidth : 1 ≤ width)
  (hx : |x| < (10 ^ width : ℕ))

include hwidth hx

/-- **What a text shows**: the degrees that are left of the fraction's point, and the minutes,
rounded. -/
theorem readCoordinate_coordinateText :
    readCoordinate (coordinateText negative positive spaces width x) =
      some ⟨if x < 0 then negative else positive, ⌊|x|⌋.toNat, minuteHundredths x / 100⟩ := by
  have hle := minuteHundredths_le x
  have hhundredths : minuteHundredths x % 100 < 10 ^ 2 := Nat.mod_lt _ (by decide)
  have hvalue : value (numeral 2 (minuteHundredths x / 100) ++
      numeral 2 (minuteHundredths x % 100)) = minuteHundredths x := by
    rw [value_append, length_numeral hhundredths, value_numeral, value_numeral]
    omega
  rw [coordinateText_eq, max_eq_right hwidth,
    readCoordinate_eq _ _ (fun _ => isDigit_of_mem_numeral)
      (numeral_ne_nil (toNat_floor_abs_lt hx) hwidth) (fun _ => isDigit_of_mem_numeral)
      (numeral_ne_nil (by omega) (by decide)) (fun _ => isDigit_of_mem_numeral)
      (length_numeral hhundredths), value_numeral, hvalue]

theorem length_coordinateText :
    (coordinateText negative positive spaces width x).length = spaces + width + 7 := by
  have hle := minuteHundredths_le x
  have hwhole : minuteHundredths x / 100 < 10 ^ 2 := by omega
  have hhundredths : minuteHundredths x % 100 < 10 ^ 2 := Nat.mod_lt _ (by decide)
  rw [coordinateText_eq, max_eq_right hwidth, List.length_cons, List.length_append,
    List.length_replicate, List.length_append, length_numeral (toNat_floor_abs_lt hx),
    List.length_cons, List.length_append, length_numeral hwhole, List.length_cons,
    length_numeral hhundredths]
  omega

end Texts

/-- No character of a text is a NUL. -/
theorem nul_notMem_coordinateText {negative positive : UInt8} (hnegative : negative ≠ 0)
    (hpositive : positive ≠ 0) (spaces width : ℕ) (x : ℚ) :
    0 ∉ coordinateText negative positive spaces width x := by
  have hnumeral : ∀ {width n : ℕ}, 0 ∉ numeral width n := fun hmem =>
    absurd (isDigit_of_mem_numeral hmem) (by decide)
  rw [coordinateText_eq, List.mem_cons, List.mem_append, List.mem_append, List.mem_cons,
    List.mem_append, List.mem_cons]
  rintro (h | h | h | h | h | h | h)
  · split at h
    · exact hnegative h.symm
    · exact hpositive h.symm
  · exact absurd (List.eq_of_mem_replicate h) (by decide)
  · exact hnumeral h
  · exact absurd h (by decide)
  · exact hnumeral h
  · exact absurd h (by decide)
  · exact hnumeral h

/-- A text that fits is written, with its NUL. -/
theorem snprintf_eq {out text : List UInt8} {n : ℕ} (htext : text.length < n)
    (hout : n ≤ out.length) :
    ∃ out', snprintf out n text = some out' ∧ text ++ [0] <+: out' := by
  have hall : text.take (n - 1) = text := List.take_of_length_le (Nat.le_sub_one_of_lt htext)
  have hlength : (text ++ [0]).length ≤ out.length := by
    rw [List.length_append, List.length_singleton]
    exact (Nat.succ_le_of_lt htext).trans hout
  obtain ⟨old, after, rfl, hold⟩ := Buffers.exists_append_of_le hlength
  have hcopy := memcpyTo_append hold [] [] after
  rw [List.append_nil, List.nil_append, List.nil_append, List.length_nil] at hcopy
  refine ⟨text ++ [0] ++ after, ?_, List.prefix_append _ _⟩
  rw [snprintf, if_neg (Nat.ne_zero_of_lt htext), hall]
  exact hcopy

/-! ## Valid readings -/

/-- **A valid reading of a coordinate**: the hemisphere, and degrees and minutes with less than
sixty minutes, which come as near to the coordinate as half a hundredth of a minute. -/
def ValidReading (hemisphere : UInt8) (x : ℚ) (text : List UInt8) : Prop :=
  ∃ shown, readCoordinate text = some shown ∧ shown.hemisphere = hemisphere ∧
    0 ≤ shown.minutes ∧ shown.minutes < 60 ∧
    |shown.degrees + shown.minutes / 60 - abs x| ≤ 0.005 / 60

theorem validReading_iff {negative positive : UInt8} {spaces width : ℕ} (hwidth : 1 ≤ width)
    (hx : |x| < (10 ^ width : ℕ)) :
    ValidReading (if x < 0 then negative else positive) x
        (coordinateText negative positive spaces width x) ↔
      Int.fract |x| * 60 < 59.995 := by
  rw [← minuteHundredths_lt_iff, ValidReading,
    readCoordinate_coordinateText negative positive spaces hwidth hx]
  constructor
  · rintro ⟨shown, hshown, -, -, hlt, -⟩
    rw [← Option.some.inj hshown, div_lt_iff₀ (by norm_num)] at hlt
    exact_mod_cast hlt
  · intro hlt
    have hclose := abs_le.mp (abs_minuteHundredths_sub_le x)
    have hdegrees : ((⌊|x|⌋.toNat : ℕ) : ℚ) = |x| - Int.fract |x| := by
      rw [Int.self_sub_fract]
      exact_mod_cast Int.toNat_of_nonneg (Int.floor_nonneg.mpr (abs_nonneg x))
    have hcast : (minuteHundredths x : ℚ) < 6000 := by exact_mod_cast hlt
    refine ⟨_, rfl, rfl, by positivity, ?_, ?_⟩
    · rw [div_lt_iff₀ (by norm_num)]
      linarith
    · rw [hdegrees, abs_le]
      constructor
      · linarith
      · linarith

/-- **The text that is written is a valid reading**, if the buffer is large enough: eleven
characters and a NUL. -/
def FormatsValidly (format : ℚ → ℕ → List UInt8 → Option (List UInt8)) (hemisphere : UInt8)
    (x : ℚ) : Prop :=
  ∀ n out, 12 ≤ n → n ≤ out.length → ∃ out', format x n out = some out' ∧
    ValidReading hemisphere x (stringIn out')

/-- In a buffer that is large enough, the string is the text. -/
theorem formatsValidly_iff {format : ℚ → ℕ → List UInt8 → Option (List UInt8)}
    {hemisphere : UInt8} (text : List UInt8)
    (hformat : ∀ n out, format x n out = snprintf out n text) (hlength : text.length < 12)
    (hnul : 0 ∉ text) : FormatsValidly format hemisphere x ↔ ValidReading hemisphere x text := by
  have hstring : ∀ n out, 12 ≤ n → n ≤ out.length →
      ∃ out', format x n out = some out' ∧ stringIn out' = text := by
    intro n out hn hout
    obtain ⟨out', hout', hprefix⟩ := snprintf_eq (hlength.trans_le hn) hout
    exact ⟨out', (hformat n out).trans hout', stringIn_eq hprefix hnul⟩
  constructor
  · intro h
    obtain ⟨out', hout', hvalid⟩ := h 12 (List.replicate 12 0) le_rfl List.length_replicate.ge
    obtain ⟨out'', hout'', htext⟩ := hstring 12 _ le_rfl List.length_replicate.ge
    obtain rfl : out' = out'' := Option.some.inj (hout'.symm.trans hout'')
    rw [← htext]
    exact hvalid
  · intro h n out hn hout
    obtain ⟨out', hout', htext⟩ := hstring n out hn hout
    refine ⟨out', hout', ?_⟩
    rw [htext]
    exact h

theorem formatLat_validly_iff {lat : ℚ} (hlat : |lat| ≤ 90) :
    FormatsValidly formatLat (if lat < 0 then 'S'.toUInt8 else 'N'.toUInt8) lat ↔
      Int.fract |lat| * 60 < 59.995 := by
  have hbound : |lat| < (10 ^ 2 : ℕ) := hlat.trans_lt (by norm_num)
  rw [← validReading_iff (by decide) hbound]
  refine formatsValidly_iff (latText lat) (fun _ _ => rfl) ?_ ?_
  · rw [latText, length_coordinateText _ _ _ (by decide) hbound]
    decide
  · exact nul_notMem_coordinateText (by decide) (by decide) _ _ _

theorem formatLon_validly_iff {lon : ℚ} (hlon : |lon| ≤ 180) :
    FormatsValidly formatLon (if lon < 0 then 'W'.toUInt8 else 'E'.toUInt8) lon ↔
      Int.fract |lon| * 60 < 59.995 := by
  have hbound : |lon| < (10 ^ 3 : ℕ) := hlon.trans_lt (by norm_num)
  rw [← validReading_iff (by decide) hbound]
  refine formatsValidly_iff (lonText lon) (fun _ _ => rfl) ?_ ?_
  · rw [lonText, length_coordinateText _ _ _ (by decide) hbound]
    decide
  · exact nul_notMem_coordinateText (by decide) (by decide) _ _ _

/-- **When a formatted coordinate is a valid reading.**  Its minutes, before they are rounded, are
below `59.995`. -/
theorem coordinates_validly_iff (lat lon : ℚ) (hlat : |lat| ≤ 90) (hlon : |lon| ≤ 180) :
    (FormatsValidly formatLat (if lat < 0 then 'S'.toUInt8 else 'N'.toUInt8) lat ↔
      Int.fract |lat| * 60 < 59.995) ∧
    (FormatsValidly formatLon (if lon < 0 then 'W'.toUInt8 else 'E'.toUInt8) lon ↔
      Int.fract |lon| * 60 < 59.995) :=
  ⟨formatLat_validly_iff hlat, formatLon_validly_iff hlon⟩

/-- A place in the south-east. -/
theorem coordinates_validly_southEast :
    FormatsValidly formatLat 'S'.toUInt8 (-(67 / 2)) ∧
      FormatsValidly formatLon 'E'.toUInt8 (605 / 4) := by
  obtain ⟨hlat, hlon⟩ := coordinates_validly_iff (-(67 / 2)) (605 / 4) (by norm_num [abs_le])
    (by norm_num [abs_le])
  rw [if_pos (by norm_num)] at hlat
  rw [if_neg (by norm_num)] at hlon
  exact ⟨hlat.mpr (by decide +kernel), hlon.mpr (by decide +kernel)⟩

/-- The last `float` below 46 degrees is written as 45 degrees and sixty minutes. -/
theorem not_formatsValidly_below46 :
    |(46 - 1 / 2 ^ 18 : ℚ)| ≤ 90 ∧
      ¬ FormatsValidly formatLat 'N'.toUInt8 (46 - 1 / 2 ^ 18) := by
  have hbound : |(46 - 1 / 2 ^ 18 : ℚ)| ≤ 90 := by norm_num [abs_le]
  have hiff := formatLat_validly_iff hbound
  rw [if_neg (by norm_num)] at hiff
  refine ⟨hbound, fun h => ?_⟩
  have hlt := hiff.mp h
  revert hlt
  decide +kernel

example : latText (46 - 1 / 2 ^ 18) = "N  45 60.00".toList.map Char.toUInt8 := by decide +kernel

end Format
end CCore
