/-!
# Lines through points

The line that lies closest to given points, by the sum of the squares of the distances along the second axis,
computed exactly. If the points do not fix it, the line whose coefficients have the least sum of squares is taken.
-/

namespace Clvm.Benchmark

structure Line where
  slope : Rat
  offset : Rat
deriving DecidableEq

namespace Line

/-- The second coordinate of the point of a line with a given first one. -/
def height (l : Line) (x : Rat) : Rat := x * l.slope + l.offset

/-- How far a point lies above or below a line. -/
def distance (l : Line) (p : Rat × Rat) : Rat :=
  let d := l.height p.1 - p.2
  if d < 0 then -d else d

def sum (xs : List Rat) : Rat := xs.foldl (· + ·) 0

/-- The line closest to points; none if there are no points. -/
def fit? (points : List (Rat × Rat)) : Option Line :=
  if points.isEmpty then none
  else
    let n : Rat := points.length
    let sx := sum (points.map (·.1))
    let sy := sum (points.map (·.2))
    let sxx := sum (points.map fun p => p.1 * p.1)
    let sxy := sum (points.map fun p => p.1 * p.2)
    let det := n * sxx - sx * sx
    if det = 0 then
      let x := sx / n
      let y := sy / n
      some ⟨x * y / (x * x + 1), y / (x * x + 1)⟩
    else
      let slope := (n * sxy - sx * sy) / det
      some ⟨slope, (sy - slope * sx) / n⟩

/-- The place of the first of the points that are farthest from a line, if any is off it. -/
def worst? (l : Line) (points : List (Rat × Rat)) : Option Nat :=
  (points.zipIdx.foldl (fun (best : Option Nat × Rat) (p, i) =>
    let d := l.distance p
    if d > best.2 then (some i, d) else best) (none, 0)).1

/-- Takes out the point farthest from the closest line, a number of times. -/
def dropOutliers : Nat → List (Rat × Rat) → List (Rat × Rat)
  | 0, points => points
  | n + 1, points =>
    match fit? points with
    | none => points
    | some l =>
      match l.worst? points with
      | none => dropOutliers n points
      | some i => dropOutliers n (points.eraseIdx i)

/-- The line closest to the points without the worst twentieth of them. -/
def fitWithoutOutliers? (points : List (Rat × Rat)) : Option Line :=
  fit? (dropOutliers (points.length / 20) points)

end Line
end Clvm.Benchmark
