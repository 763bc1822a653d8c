import ColorMarkup.Color.Basic
/-!
Gradients as lists of colours, one for each place. Between two colours every
channel moves by the same whole number of units at each place, rounded down, so
the last colour may fall short of the second one. Several stops share the places
out evenly among their consecutive pairs.

The places counted here are the characters of a text. What a gradient is for every
machine word as its count is defined in `Color.WordGradient`; up to the length that
a text can have the two are equal.
-/
namespace ColorMarkup
namespace Color

/-- The amount a channel moves at each of `steps` steps. -/
def channelStep (first second : UInt8) (steps : Nat) : Nat :=
  ((first.toNat - second.toNat) + (second.toNat - first.toNat)) / steps

/-- A channel after `i` of `steps` steps, kept between 0 and 255. -/
def channelAt (first second : UInt8) (steps i : Nat) : UInt8 :=
  let moved := channelStep first second steps * i
  if first < second then UInt8.ofNat (min (first.toNat + moved) 255)
  else UInt8.ofNat (first.toNat - moved)

/-- The colour after `i` of `steps` steps from `first` towards `second`. -/
def between (first second : Color) (steps i : Nat) : Color :=
  ⟨channelAt first.red second.red steps i,
   channelAt first.green second.green steps i,
   channelAt first.blue second.blue steps i⟩

/-- `count` colours from `first` towards `second`. -/
def interpolate (first second : Color) (count : Nat) : List Color :=
  match count with
  | 0 => []
  | 1 => [first]
  | n + 2 => (List.range (n + 2)).map (between first second (n + 1))

/-- Places of the `i`-th of `pairs` consecutive pairs of stops. -/
def share (count pairs i : Nat) : Nat :=
  (i + 1) * count / pairs - i * count / pairs

/-- Colours of the pairs from the `i`-th on, of `pairs` in all. -/
def interpolatePairs (count pairs : Nat) : Nat → List Color → List Color
  | i, first :: second :: rest =>
    interpolate first second (share count pairs i) ++
      interpolatePairs count pairs (i + 1) (second :: rest)
  | _, _ => []

/-- `count` colours through all of the stops. One stop fills every place. -/
def interpolateStops (stops : List Color) (count : Nat) : List Color :=
  match stops with
  | [] => []
  | [only] => List.replicate count only
  | first :: second :: rest =>
    interpolatePairs count (rest.length + 1) 0 (first :: second :: rest)

@[simp] theorem length_interpolate (first second : Color) (count : Nat) :
    (interpolate first second count).length = count := by
  match count with
  | 0 => rfl
  | 1 => rfl
  | n + 2 => simp [interpolate]

theorem interpolateStops_pair (first second : Color) (count : Nat) :
    interpolateStops [first, second] count = interpolate first second count := by
  simp [interpolateStops, interpolatePairs, share]

end Color
end ColorMarkup
