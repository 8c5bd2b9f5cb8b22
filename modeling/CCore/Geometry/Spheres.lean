import CCore.Geometry.Model
import CCore.Library.SquareRoots
import Mathlib.Analysis.Real.Sqrt
import Mathlib.Data.Set.Card
import Mathlib.Tactic.LinearCombination
import Mathlib.Tactic.Ring

/-!
# Lines and spheres

`vec3_int_sph` goes along a line by the distance `d` from its origin, in the direction of the unit
vector.  The square of the distance between that place and the centre is `(d + k)²`, up to a
constant, where `k` is the scalar product of the unit vector and the vector from the centre to the
origin.  So the places on the sphere are the solutions of `(d + k)² = delta`, and the function
goes through the cases of `solutions` itself: nothing, the tangent, or the two roots from the
smaller to the larger one.

The segment from `o` to `o + v` is what is reached with `0 ≤ d ≤ dist`.  Each solution is looked at
by itself, and those that are out of reach leave no gap in `out`, since the index into `out`
is the number of the points that have been found.
-/

namespace CCore
namespace Geometry

open SquareRoots

variable {K : Type*}

/-! ## The array -/

/-- An array of two that holds some points, the first of them first, and null vectors behind
them. -/
def cellsOf (points : List (Vec3 K)) : List (Option (Vec3 K)) :=
  points.map some ++ List.replicate (2 - points.length) none

/-- `out`, when it holds some points. -/
def holding (out : Out K) (points : List (Vec3 K)) : Out K := out.map fun _ => cellsOf points

/-- What the callers promise: `out` is `NULL`, or it is `vec3_t out[2]`. -/
def IsArray (out : Out K) : Prop := ∀ cells, out = some cells → cells.length = 2

/-- **The next point** goes behind those that are there. -/
theorem writeOut_holding (out : Out K) {points : List (Vec3 K)} (hroom : points.length < 2)
    (p : Vec3 K) : writeOut (holding out points) points.length (some p) =
      some (holding out (points ++ [p])) := by
  cases out with
  | none => rfl
  | some cells =>
    have hwrite : Buffers.write (cellsOf points) points.length (some p) =
        some (cellsOf (points ++ [p])) := by
      obtain ⟨n, hn⟩ := Nat.exists_eq_add_of_lt hroom
      have hrest : 2 - points.length = n + 1 := by omega
      have hrest' : 2 - (points.length + 1) = n := by omega
      rw [Buffers.write_eq_some, cellsOf, cellsOf, List.length_append, List.length_singleton,
        hrest, hrest', List.set_append_right _ _ (List.length_map _).le, List.length_map,
        Nat.sub_self, List.replicate_succ, List.set_cons_zero, List.map_append, List.append_assoc]
      · rfl
      · rw [cellsOf, List.length_append, List.length_map, List.length_replicate]
        omega
    show (Buffers.write (cellsOf points) points.length (some p)).map some = _
    rw [hwrite]
    rfl

/-- The two null vectors that the function begins with. -/
theorem writeOut_null {out : Out K} (hout : IsArray out) :
    (writeOut out 0 none).bind (fun out => writeOut out 1 none) = some (holding out []) := by
  cases out with
  | none => rfl
  | some cells =>
    obtain ⟨x, y, rfl⟩ := List.length_eq_two.mp (hout cells rfl)
    rfl

/-! ## Vectors -/

variable [Field K]

theorem vec3Sqmag_nonneg [LinearOrder K] [IsStrictOrderedRing K] (a : Vec3 K) :
    0 ≤ vec3Sqmag a :=
  add_nonneg (add_nonneg (mul_self_nonneg _) (mul_self_nonneg _)) (mul_self_nonneg _)

/-- The place at the distance `d` along `u`. -/
def place (o u : Vec3 K) (d : K) : Vec3 K := vec3Add o (vec3Mul u d)

theorem place_div (o v : Vec3 K) (m d : K) : place o (vec3Div v m) d = place o v (d / m) := by
  simp only [place, vec3Add, vec3Mul, vec3Div, div_mul_eq_mul_div, mul_div_assoc]

/-- **The square of the distance from the centre.** -/
theorem vec3Sqmag_place {u : Vec3 K} (hu : vec3Sqmag u = 1) (o c : Vec3 K) (d : K) :
    vec3Sqmag (vec3Sub (place o u d) c) =
      (d + vec3Dot u (vec3Sub o c)) * (d + vec3Dot u (vec3Sub o c)) -
        (pow2 (vec3Dot u (vec3Sub o c)) - vec3Sqmag (vec3Sub o c)) := by
  simp only [vec3Sqmag, vec3Dot, vec3Sub, place, vec3Add, vec3Mul, pow2] at hu ⊢
  linear_combination d * d * hu

/-- Different distances lead to different places. -/
theorem place_injective {u : Vec3 K} (hu : vec3Sqmag u = 1) (o : Vec3 K) {d d' : K}
    (h : place o u d = place o u d') : d = d' := by
  have hx : o.x + u.x * d = o.x + u.x * d' := congrArg Vec3.x h
  have hy : o.y + u.y * d = o.y + u.y * d' := congrArg Vec3.y h
  have hz : o.z + u.z * d = o.z + u.z * d' := congrArg Vec3.z h
  rw [vec3Sqmag] at hu
  linear_combination u.x * hx + u.y * hy + u.z * hz - (d - d') * hu

/-- A vector divided by its magnitude. -/
theorem vec3Sqmag_div {v : Vec3 K} {m : K} (hm : m ≠ 0) (hsq : m * m = vec3Sqmag v) :
    vec3Sqmag (vec3Div v m) = 1 := by
  rw [vec3Sqmag, vec3Div, div_mul_div_comm, div_mul_div_comm, div_mul_div_comm, ← add_div,
    ← add_div, div_eq_one_iff_eq (mul_ne_zero hm hm), hsq, vec3Sqmag]

/-! ## The loop -/

variable [LinearOrder K]

/-- What is in reach of a segment. -/
theorem inReach_iff {confined : Bool} {dist d : K} :
    inReach confined dist d = true ↔ (confined = true → 0 ≤ d ∧ d ≤ dist) := by
  cases confined with
  | false => exact iff_of_true (Bool.or_true _) fun h => nomatch h
  | true =>
    rw [inReach, Bool.not_true, Bool.or_false, Bool.and_eq_true, decide_eq_true_iff,
      decide_eq_true_iff]
    exact ⟨fun h _ => h, fun h => h rfl⟩

/-- What the loop finds, behind the points that are there. -/
theorem intSphLoop_eq (o u : Vec3 K) (confined : Bool) (dist uoc sqDelta : K) (out : Out K)
    {mults : List K} {points : List (Vec3 K)} (hroom : points.length + mults.length ≤ 2) :
    intSphLoop o u confined dist uoc sqDelta mults points.length (holding out points) =
      some ((points ++ ((mults.map fun mult => -uoc + mult * sqDelta).filter
          (inReach confined dist)).map (place o u)).length,
        holding out (points ++ ((mults.map fun mult => -uoc + mult * sqDelta).filter
          (inReach confined dist)).map (place o u))) := by
  induction mults generalizing points with
  | nil =>
    rw [intSphLoop, List.map_nil, List.filter_nil, List.map_nil, List.append_nil]
  | cons mult mults ih =>
    rw [List.length_cons] at hroom
    rw [intSphLoop, List.map_cons]
    by_cases hreach : inReach confined dist (-uoc + mult * sqDelta) = true
    · have hlength : (points ++ [place o u (-uoc + mult * sqDelta)]).length = points.length + 1 :=
        List.length_append
      have hroom' : (points ++ [place o u (-uoc + mult * sqDelta)]).length + mults.length ≤ 2 := by
        rw [hlength]
        omega
      have hnext := ih hroom'
      rw [hlength] at hnext
      rw [if_pos hreach, List.filter_cons_of_pos hreach, List.map_cons, List.append_cons]
      have hfree : points.length < 2 := by omega
      have hwrite := writeOut_holding out hfree (place o u (-uoc + mult * sqDelta))
      rw [place] at hwrite
      rw [hwrite, Option.bind_some]
      exact hnext
    · rw [if_neg hreach, List.filter_cons_of_neg hreach]
      exact ih (by omega)

/-- The distances at which the line is on the sphere, as far as they are in reach. -/
def reached (sqrt : K → K) (o v c : Vec3 K) (r : K) (confined : Bool) : List K :=
  let oToC := vec3Sub o c
  let uoc := vec3Dot (vec3Unit sqrt v) oToC
  (solutions sqrt uoc (pow2 uoc - vec3Sqmag oToC + pow2 r)).filter
    (inReach confined (vec3Mag sqrt v))

/-- **The function finds these places**, and leaves them in `out`. -/
theorem vec3IntSph_eq (sqrt : K → K) (o v c : Vec3 K) (r : K) (confined : Bool) {out : Out K}
    (hout : IsArray out) :
    vec3IntSph sqrt o v c r confined out =
      some (((reached sqrt o v c r confined).map (place o (vec3Unit sqrt v))).length,
        holding out ((reached sqrt o v c r confined).map (place o (vec3Unit sqrt v)))) := by
  have hnull := writeOut_null hout
  rw [vec3IntSph, reached]
  dsimp only
  generalize vec3Dot (vec3Unit sqrt v) (vec3Sub o c) = uoc
  generalize pow2 uoc - vec3Sqmag (vec3Sub o c) + pow2 r = delta
  rw [← Option.bind_assoc, hnull, Option.bind_some, solutions]
  split
  · rfl
  · split
    · by_cases hreach : inReach confined (vec3Mag sqrt v) (-uoc) = true
      · have hfree : ([] : List (Vec3 K)).length < 2 := Nat.two_pos
        have hwrite := writeOut_holding out hfree (place o (vec3Unit sqrt v) (-uoc))
        rw [place, List.length_nil] at hwrite
        rw [if_pos hreach, List.filter_cons_of_pos hreach, hwrite, Option.map_some]
        rfl
      · rw [if_neg hreach, List.filter_cons_of_neg hreach]
        rfl
    · have hroom : ([] : List (Vec3 K)).length + [(-1 : K), 1].length ≤ 2 := le_rfl
      exact intSphLoop_eq o (vec3Unit sqrt v) confined (vec3Mag sqrt v) uoc (sqrt delta) out hroom

/-! ## The points of intersection -/

variable [IsStrictOrderedRing K] {sqrt : K → K}

/-- **A vector that is not too short is normalised.** -/
theorem vec3Unit_eq {v : Vec3 K} (hv : 5 * dblEpsilon ≤ vec3Mag sqrt v) :
    0 < vec3Mag sqrt v ∧ vec3Unit sqrt v = vec3Div v (vec3Mag sqrt v) := by
  have hepsilon : (0 : K) < 5 * dblEpsilon := by
    rw [dblEpsilon]
    positivity
  have hpos : 0 < vec3Mag sqrt v := hepsilon.trans_le hv
  refine ⟨hpos, ?_⟩
  rw [vec3Unit, if_neg]
  rw [abs_of_pos hpos, not_or, not_lt]
  exact ⟨hpos.ne', hv⟩

/-- The unit vector has the magnitude one. -/
theorem vec3Sqmag_unit (hsqrt : IsSqrt sqrt) {v : Vec3 K} (hv : 5 * dblEpsilon ≤ vec3Mag sqrt v) :
    vec3Sqmag (vec3Unit sqrt v) = 1 := by
  obtain ⟨hpos, hunit⟩ := vec3Unit_eq hv
  rw [hunit]
  exact vec3Sqmag_div hpos.ne' (hsqrt _ (vec3Sqmag_nonneg v)).2

/-- The point is on the line through `o` along `v`, or on the segment from `o` to `o + v`. -/
def OnPath (o v : Vec3 K) (confined : Bool) (p : Vec3 K) : Prop :=
  ∃ t : K, (confined = true → 0 ≤ t ∧ t ≤ 1) ∧ p = place o v t

/-- The point is at the distance `|r|` from `c`. -/
def OnSphere (sqrt : K → K) (c : Vec3 K) (r : K) (p : Vec3 K) : Prop :=
  vec3Mag sqrt (vec3Sub p c) = |r|

/-- `p` comes before `q`, along `v`. -/
def Before (o v p q : Vec3 K) : Prop := ∃ t t' : K, t < t' ∧ p = place o v t ∧ q = place o v t'

/-- Where the line is on the sphere. -/
theorem onSphere_place_iff (hsqrt : IsSqrt sqrt) {u : Vec3 K} (hu : vec3Sqmag u = 1)
    (o c : Vec3 K) (r d : K) :
    OnSphere sqrt c r (place o u d) ↔
      (d + vec3Dot u (vec3Sub o c)) * (d + vec3Dot u (vec3Sub o c)) =
        pow2 (vec3Dot u (vec3Sub o c)) - vec3Sqmag (vec3Sub o c) + pow2 r := by
  rw [OnSphere, vec3Mag, hsqrt.eq_abs_iff (vec3Sqmag_nonneg _), vec3Sqmag_place hu,
    sub_eq_iff_eq_add, add_comm (r * r)]
  rfl

/-- The places along `v` are those along its unit vector, and the parameter of one is the distance
divided by the magnitude. -/
theorem onPath_iff {v : Vec3 K} (hv : 5 * dblEpsilon ≤ vec3Mag sqrt v) (o : Vec3 K)
    (confined : Bool) (p : Vec3 K) :
    OnPath o v confined p ↔ ∃ d, inReach confined (vec3Mag sqrt v) d = true ∧
      place o (vec3Unit sqrt v) d = p := by
  obtain ⟨hpos, hunit⟩ := vec3Unit_eq hv
  rw [hunit]
  constructor
  · rintro ⟨t, ht, rfl⟩
    refine ⟨t * vec3Mag sqrt v, inReach_iff.mpr fun hconfined => ?_, ?_⟩
    · obtain ⟨h₀, h₁⟩ := ht hconfined
      exact ⟨mul_nonneg h₀ hpos.le, mul_le_of_le_one_left hpos.le h₁⟩
    · rw [place_div, mul_div_cancel_right₀ t hpos.ne']
  · rintro ⟨d, hd, rfl⟩
    refine ⟨d / vec3Mag sqrt v, fun hconfined => ?_, place_div o v _ d⟩
    obtain ⟨h₀, h₁⟩ := inReach_iff.mp hd hconfined
    exact ⟨div_nonneg h₀ hpos.le, (div_le_one hpos).mpr h₁⟩

/-- **The points that are found** are the points of intersection. -/
theorem mem_points_iff (hsqrt : IsSqrt sqrt) {v : Vec3 K} (hv : 5 * dblEpsilon ≤ vec3Mag sqrt v)
    (o c : Vec3 K) (r : K) (confined : Bool) (p : Vec3 K) :
    p ∈ (reached sqrt o v c r confined).map (place o (vec3Unit sqrt v)) ↔
      OnPath o v confined p ∧ OnSphere sqrt c r p := by
  have hu := vec3Sqmag_unit hsqrt hv
  rw [onPath_iff hv, List.mem_map]
  constructor
  · rintro ⟨d, hd, rfl⟩
    obtain ⟨hsolution, hreach⟩ := List.mem_filter.mp hd
    exact ⟨⟨d, hreach, rfl⟩, (onSphere_place_iff hsqrt hu o c r d).mpr
      (hsqrt.mem_solutions.mp hsolution)⟩
  · rintro ⟨⟨d, hreach, rfl⟩, hsphere⟩
    refine ⟨d, List.mem_filter.mpr ⟨?_, hreach⟩, rfl⟩
    exact hsqrt.mem_solutions.mpr ((onSphere_place_iff hsqrt hu o c r d).mp hsphere)

/-- They come in increasing order. -/
theorem pairwise_before (hsqrt : IsSqrt sqrt) {v : Vec3 K}
    (hv : 5 * dblEpsilon ≤ vec3Mag sqrt v) (o c : Vec3 K) (r : K) (confined : Bool) :
    ((reached sqrt o v c r confined).map (place o (vec3Unit sqrt v))).Pairwise (Before o v) := by
  obtain ⟨hpos, hunit⟩ := vec3Unit_eq hv
  rw [hunit]
  refine List.Pairwise.map _ (fun d d' hlt => ?_) (hsqrt.pairwise_solutions.filter _)
  exact ⟨_, _, div_lt_div_of_pos_right hlt hpos, place_div o v _ d, place_div o v _ d'⟩

/-- **The intersections of a line or a segment with a sphere are found exactly.**  The function
returns the number of the points at the distance `|r|` from `c` on the line or the segment, and
leaves these points in `out`, without repetition and in increasing order along `v`, with null
vectors behind them. -/
theorem vec3IntSph_exact (hsqrt : IsSqrt sqrt) (o v c : Vec3 K) (r : K) (confined : Bool)
    (hv : 5 * dblEpsilon ≤ vec3Mag sqrt v) :
    ∃ points : List (Vec3 K),
      (∀ out, IsArray out → vec3IntSph sqrt o v c r confined out =
        some (points.length, out.map fun _ =>
          points.map some ++ List.replicate (2 - points.length) none)) ∧
      (∀ p, p ∈ points ↔ OnPath o v confined p ∧ OnSphere sqrt c r p) ∧
      points.length ≤ 2 ∧ points.Nodup ∧ points.Pairwise (Before o v) ∧
      {p | OnPath o v confined p ∧ OnSphere sqrt c r p}.ncard = points.length := by
  have hu := vec3Sqmag_unit hsqrt hv
  have hmem := mem_points_iff hsqrt hv o c r confined
  have hnodup : ((reached sqrt o v c r confined).map (place o (vec3Unit sqrt v))).Nodup := by
    have hdistinct : (reached sqrt o v c r confined).Nodup :=
      (hsqrt.pairwise_solutions.filter _).imp ne_of_lt
    exact hdistinct.map fun d d' => place_injective hu o
  have htwo : ((reached sqrt o v c r confined).map (place o (vec3Unit sqrt v))).length ≤ 2 := by
    rw [List.length_map]
    exact (List.length_filter_le _ _).trans length_solutions_le
  refine ⟨_, fun out hout => vec3IntSph_eq sqrt o v c r confined hout, hmem, htwo, hnodup,
    pairwise_before hsqrt hv o c r confined, ?_⟩
  have hset : {p | OnPath o v confined p ∧ OnSphere sqrt c r p} =
      ((reached sqrt o v c r confined).map (place o (vec3Unit sqrt v))).toFinset := by
    refine Set.ext fun p => ?_
    rw [Set.mem_ofPred_eq, ← hmem p, Finset.mem_coe, List.mem_toFinset]
  rw [hset, Set.ncard_coe_finset, List.toFinset_card_of_nodup hnodup]

/-- A line through the unit sphere, over the real numbers. -/
theorem vec3IntSph_exact_real :
    ∃ points : List (Vec3 ℝ),
      (∀ out, IsArray out → vec3IntSph Real.sqrt ⟨-2, 0, 0⟩ ⟨1, 0, 0⟩ ⟨0, 0, 0⟩ 1 false out =
        some (points.length, out.map fun _ =>
          points.map some ++ List.replicate (2 - points.length) none)) ∧
      (∀ p, p ∈ points ↔
        OnPath ⟨-2, 0, 0⟩ ⟨1, 0, 0⟩ false p ∧ OnSphere Real.sqrt ⟨0, 0, 0⟩ 1 p) ∧
      points.length ≤ 2 ∧ points.Nodup ∧ points.Pairwise (Before ⟨-2, 0, 0⟩ ⟨1, 0, 0⟩) ∧
      {p | OnPath ⟨-2, 0, 0⟩ ⟨1, 0, 0⟩ false p ∧
        OnSphere Real.sqrt ⟨0, 0, 0⟩ 1 p}.ncard = points.length := by
  refine vec3IntSph_exact (fun x hx => ⟨Real.sqrt_nonneg x, Real.mul_self_sqrt hx⟩) ⟨-2, 0, 0⟩
    ⟨1, 0, 0⟩ ⟨0, 0, 0⟩ 1 false ?_
  have hmag : vec3Mag Real.sqrt ⟨1, 0, 0⟩ = 1 := by
    rw [vec3Mag, vec3Sqmag, mul_zero, mul_one, add_zero, add_zero, Real.sqrt_one]
  rw [hmag, dblEpsilon]
  norm_num

end Geometry
end CCore
