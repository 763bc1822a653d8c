import ColorMarkup.Color.Gradient
/-!
Gradients whose number of places is a machine word of 64 bits. The steps and the places are counted
in signed words, so a gradient between two colours has no place at all from the first count on that
reads as a negative number, and the products that share the places out wrap around at the end of the
words. A text never has that many characters. Below these bounds the words hold every value on the
way, and the gradients are those counted in natural numbers.
-/
namespace ColorMarkup
namespace Color

/-- The way of a channel in signed words. -/
structure Channel where
  origin : Int64
  increment : Int64
  direction : Int64

namespace Channel

def ofEnds (first second : UInt8) (steps : Int64) : Channel :=
  let origin := first.toUInt64.toInt64
  let target := second.toUInt64.toInt64
  { origin := origin
    increment := (origin - target).abs / steps
    direction := if origin < target then 1 else -1 }

/-- The value behind some steps, not yet kept between 0 and 255. -/
def reached (channel : Channel) (step : Int64) : Int64 :=
  channel.origin + channel.increment * step * channel.direction

def value (channel : Channel) (step : Int64) : UInt8 :=
  let reached := channel.reached step
  let kept := if reached < 0 then 0 else if 255 < reached then 255 else reached
  kept.toUInt64.toUInt8

end Channel

/-- As many colours from `first` towards `second` as `count` says, none if it is negative as a
signed word. -/
def interpolateWord (first second : Color) (count : UInt64) : List Color :=
  if count = 0 then []
  else if count = 1 then [first]
  else
    let steps := (count - 1).toInt64
    let red := Channel.ofEnds first.red second.red steps
    let green := Channel.ofEnds first.green second.green steps
    let blue := Channel.ofEnds first.blue second.blue steps
    (List.range count.toInt64.toNatClampNeg).map fun i =>
      ⟨red.value (Int64.ofNat i), green.value (Int64.ofNat i), blue.value (Int64.ofNat i)⟩

/-- Places of the `i`-th of `pairs` consecutive pairs of stops, with products that wrap around. -/
def shareWord (count pairs i : UInt64) : UInt64 :=
  (i + 1) * count / pairs - i * count / pairs

/-- Colours of the pairs from the `i`-th on, of `pairs` in all. -/
def interpolatePairsWord (count pairs : UInt64) : UInt64 → List Color → List Color
  | i, first :: second :: rest =>
    interpolateWord first second (shareWord count pairs i) ++
      interpolatePairsWord count pairs (i + 1) (second :: rest)
  | _, _ => []

/-- `count` colours through all of the stops. One stop fills every place. -/
def interpolateStopsWord (stops : List Color) (count : UInt64) : List Color :=
  match stops with
  | [] => []
  | [only] => List.replicate count.toNat only
  | [first, second] => interpolateWord first second count
  | first :: second :: rest =>
    interpolatePairsWord count (UInt64.ofNat (rest.length + 1)) 0 (first :: second :: rest)

end Color
end ColorMarkup
