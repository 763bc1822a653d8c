import ColorMarkup.Proofs.WordGradient
/-!
The way of a gradient between two colours. Every channel goes towards its end by the same whole
number of units at each place, so it never passes the end, and what the division leaves over is
what it falls short of it. That remainder can be larger than a step: a gradient with more steps
than there are units to go does not move at all.

The count is a word. It has to be one that a signed word can hold, since from the next one on there
is no gradient; nothing else that is counted or added up on the way leaves its range.
-/
namespace ColorMarkup
namespace Color

def channels : List (Color → UInt8) := [red, green, blue]

/-- How far a channel goes from one colour to another, negative where it goes down. -/
def way (channel : Color → UInt8) (first second : Color) : Int :=
  ((channel second).toNat : Int) - (channel first).toNat

section Way

variable {channel : Color → UInt8} (hchannel : channel ∈ channels) (first second : Color)
include hchannel

theorem channel_between (steps i : Nat) :
    channel (between first second steps i) = channelAt (channel first) (channel second) steps i := by
  simp only [channels, List.mem_cons, List.not_mem_nil, or_false] at hchannel
  obtain rfl | rfl | rfl := hchannel <;> rfl

theorem way_between {steps i : Nat} (h : i ≤ steps) : way channel first (between first second steps i) =
    (way channel first second).sign * ((way channel first second).natAbs / steps * i : Nat) := by
  rw [way, channel_between hchannel, toNat_channelAt h, channelStep_eq, way]
  omega

/-- Behind the last step the remainder of the division is still to go. -/
theorem way_between_last (steps : Nat) : way channel (between first second steps steps) second =
    (way channel first second).sign * ((way channel first second).natAbs % steps : Nat) := by
  have hgone := way_between hchannel first second (Nat.le_refl steps)
  have hmod := Nat.div_add_mod' (way channel first second).natAbs steps
  calc way channel (between first second steps steps) second
      = way channel first second - way channel first (between first second steps steps) := by
        simp only [way]
        omega
    _ = (way channel first second).sign * ((way channel first second).natAbs : Int) -
          (way channel first second).sign * ((way channel first second).natAbs / steps * steps : Nat) := by
        rw [hgone, Int.sign_mul_natAbs]
    _ = (way channel first second).sign * ((way channel first second).natAbs % steps : Nat) := by
        rw [← Int.mul_sub]
        congr 1
        omega

theorem getElem?_map_interpolate {count i : Nat} (hcount : 2 ≤ count) (hi : i < count) :
    ((interpolate first second count).map fun color => ((channel color).toNat : Int))[i]? =
      some ((channel first).toNat +
        (way channel first second).sign * ((way channel first second).natAbs / (count - 1) * i : Nat)) := by
  have hway := way_between hchannel first second (Nat.le_sub_one_of_lt hi)
  rw [way] at hway
  rw [List.getElem?_map, interpolate_eq_map hcount, List.getElem?_map, List.getElem?_range hi]
  simp only [Option.map_some, Option.some.injEq]
  omega

end Way

/-- The last colour is the one behind all steps. -/
theorem getLast?_interpolate {count : Nat} (hcount : 2 ≤ count) (first second : Color) :
    (interpolate first second count).getLast? = some (between first second (count - 1) (count - 1)) := by
  have hlast : count - 1 < count := by omega
  rw [interpolate_eq_map hcount, List.getLast?_eq_getElem?, List.length_map, List.length_range, List.getElem?_map,
    List.getElem?_range hlast]
  rfl

/-- In each channel a gradient starts on its first colour and goes towards the second by a constant
amount, the distance divided by the number of steps and rounded down. Without being kept to any range
it stays between the two, and in the end the remainder of that division is left to go. -/
theorem interpolate_by_equal_steps {count : UInt64} (hcount : 2 ≤ count.toNat) (hsigned : count.toNat < 2 ^ 63)
    (first second : Color) {channel : Color → UInt8} (hchannel : channel ∈ channels) :
    let start : Int := (channel first).toNat
    let stop : Int := (channel second).toNat
    let step : Nat := (stop - start).natAbs / (count.toNat - 1)
    let direction : Int := (stop - start).sign
    let values : List Int := (interpolateWord first second count).map fun color => ((channel color).toNat : Int)
    let word : Channel := .ofEnds (channel first) (channel second) (count - 1).toInt64
    values.length = count.toNat ∧ values.head? = some start ∧
    (∀ i, i + 1 < count.toNat → values[i + 1]? = values[i]?.map (· + direction * step)) ∧
    (∀ i < count.toNat, values[i]? = some (start + direction * (step * i : Nat)) ∧
      (word.reached (Int64.ofNat i)).toInt = start + direction * (step * i : Nat) ∧
      step * i ≤ (stop - start).natAbs ∧
      min start stop ≤ start + direction * (step * i : Nat) ∧
      start + direction * (step * i : Nat) ≤ max start stop) ∧
    0 ≤ min start stop ∧ max start stop ≤ 255 ∧
    values.getLast? = some (stop - direction * ((stop - start).natAbs % (count.toNat - 1) : Nat)) := by
  intro start stop step direction values word
  have hvalues : values = (interpolate first second count.toNat).map fun color => ((channel color).toNat : Int) := by
    simp only [values, interpolateWord_eq hsigned]
  have hvalue : ∀ i < count.toNat, values[i]? = some (start + direction * (step * i : Nat)) := by
    intro i hi
    rw [hvalues]
    exact getElem?_map_interpolate hchannel first second hcount hi
  have hreached : ∀ i < count.toNat,
      (word.reached (Int64.ofNat i)).toInt = start + direction * (step * i : Nat) := by
    intro i hi
    have hpos : 0 < count.toNat - 1 := by omega
    simp only [word]
    rw [toInt64_sub_one (Nat.lt_of_succ_lt hcount),
      toInt_reached _ _ hpos (by omega) (Nat.le_sub_one_of_lt hi), channelStep_eq]
  have hmoved : ∀ i < count.toNat, step * i ≤ (stop - start).natAbs := by
    intro i hi
    have hle := channelStep_mul_le (channel first) (channel second) (Nat.le_sub_one_of_lt hi)
    rwa [channelStep_eq] at hle
  have hfirst := (channel first).toNat_lt
  have hsecond := (channel second).toNat_lt
  refine ⟨?_, ?_, ?_, ?_, by omega, by omega, ?_⟩
  · rw [hvalues, List.length_map, length_interpolate]
  · rw [List.head?_eq_getElem?, hvalue 0 (by omega)]
    simp
  · intro i hi
    rw [hvalue i (by omega), hvalue (i + 1) hi, Option.map_some, Nat.mul_add, Nat.mul_one, Int.natCast_add, Int.mul_add,
      Int.add_assoc]
  · intro i hi
    exact ⟨hvalue i hi, hreached i hi, hmoved i hi, between_of_le_natAbs (hmoved i hi)⟩
  · have hleft := way_between_last hchannel first second (count.toNat - 1)
    simp only [way] at hleft
    simp only [hvalues, List.getLast?_map, getLast?_interpolate hcount, Option.map_some, Option.some.injEq, start,
      stop, direction]
    omega

/-- From 200 to 0 in three steps, of which each goes down by 66. -/
theorem interpolate_by_equal_steps_down :
    let count : UInt64 := 4
    let values : List Int := (interpolateWord ⟨200, 10, 7⟩ ⟨0, 10, 255⟩ count).map fun color => (color.red.toNat : Int)
    let word : Channel := .ofEnds 200 0 (count - 1).toInt64
    2 ≤ count.toNat ∧ count.toNat < 2 ^ 63 ∧ red ∈ channels ∧
      values = [200, 134, 68, 2] ∧ values.head? = some 200 ∧
      (∀ i, i + 1 < 4 → values[i + 1]? = values[i]?.map (· + -1 * 66)) ∧
      (∀ i < 4, (word.reached (Int64.ofNat i)).toInt = 200 + -1 * (66 * i : Nat)) ∧
      values.getLast? = some (0 - -1 * (200 % 3)) := by
  intro count values word
  have hcount : 2 ≤ count.toNat := by decide
  have hsigned : count.toNat < 2 ^ 63 := by decide
  have hred : red ∈ channels := List.mem_cons_self
  have hdirection : (((0 : UInt8).toNat : Int) - (200 : UInt8).toNat).sign = -1 := by decide
  have hsize : (((0 : UInt8).toNat : Int) - (200 : UInt8).toNat).natAbs / (count.toNat - 1) = 66 := by decide
  obtain ⟨-, hstart, hstep, hplace, -, -, hlast⟩ :=
    interpolate_by_equal_steps hcount hsigned ⟨200, 10, 7⟩ ⟨0, 10, 255⟩ hred
  simp only [hdirection, hsize] at hstep hplace hlast
  exact ⟨hcount, hsigned, hred, by decide, hstart, hstep, fun i hi => (hplace i hi).2.1, hlast⟩

/-- As many places as the least count that is negative as a signed word are none. -/
theorem no_steps_of_negative_count :
    let first : Color := ⟨0, 0, 0⟩
    let second : Color := ⟨255, 255, 255⟩
    let count : UInt64 := 0x8000000000000000
    2 ≤ count.toNat ∧ interpolateWord first second count = [] ∧
      (interpolateWord first second count).head? ≠ some first := by
  intro first second count
  have hnone : interpolateWord first second count = [] := interpolateWord_eq_nil (by decide) first second
  exact ⟨by decide, hnone, by simp [hnone]⟩

/-- The last colour is as far from the second one as the division leaves over. So it is within a step if
and only if one more step would reach that far, and a gradient with more steps than units stays where it
starts. -/
theorem last_within_step_iff {count : UInt64} (hcount : 2 ≤ count.toNat) (hsigned : count.toNat < 2 ^ 63)
    (first second : Color) {channel : Color → UInt8} (hchannel : channel ∈ channels) :
    let distance : Nat := (way channel first second).natAbs
    let step : Nat := distance / (count.toNat - 1)
    ∃ last, (interpolateWord first second count).getLast? = some last ∧
      (way channel last second).natAbs = distance % (count.toNat - 1) ∧
      ((way channel last second).natAbs ≤ step ↔ distance ≤ count.toNat * step) ∧
      (count.toNat ≤ step + 2 → (way channel last second).natAbs ≤ step) ∧
      (distance < count.toNat - 1 → ∀ color ∈ interpolateWord first second count, channel color = channel first) := by
  intro distance step
  rw [interpolateWord_eq hsigned]
  have hleft : (way channel (between first second (count.toNat - 1) (count.toNat - 1)) second).natAbs =
      distance % (count.toNat - 1) := by
    rw [way_between_last hchannel, Int.natAbs_mul, Int.natAbs_natCast]
    by_cases hzero : way channel first second = 0
    · simp [distance, hzero]
    · rw [Int.natAbs_sign_of_ne_zero hzero, Nat.one_mul]
  have hrest : distance % (count.toNat - 1) < count.toNat - 1 := Nat.mod_lt _ (by omega)
  have hparts : step * (count.toNat - 1) + distance % (count.toNat - 1) = distance := Nat.div_add_mod' _ _
  have hmore : count.toNat * step = step * (count.toNat - 1) + step := by
    rw [Nat.mul_comm, ← Nat.mul_add_one, Nat.sub_add_cancel (by omega)]
  refine ⟨_, getLast?_interpolate hcount first second, hleft, ?_, ?_, ?_⟩
  · omega
  · omega
  · intro hlong color hcolor
    have hnone : step = 0 := Nat.div_eq_of_lt hlong
    rw [interpolate_eq_map hcount, List.mem_map] at hcolor
    obtain ⟨i, hi, rfl⟩ := hcolor
    have hle : i ≤ count.toNat - 1 := Nat.le_sub_one_of_lt (List.mem_range.1 hi)
    have hstays := way_between hchannel first second hle
    change _ = (way channel first second).sign * (step * i : Nat) at hstays
    rw [hnone, Nat.zero_mul, way] at hstays
    exact UInt8.toNat_inj.1 (by omega)

/-- In three steps from 0 to 7 the last value is 6, and four steps of 2 would reach 7. -/
theorem last_within_step_iff_blue :
    let first : Color := ⟨0, 0, 0⟩
    let second : Color := ⟨255, 100, 7⟩
    let count : UInt64 := 4
    2 ≤ count.toNat ∧ count.toNat < 2 ^ 63 ∧ blue ∈ channels ∧
      ∃ last, (interpolateWord first second count).getLast? = some last ∧
        (way blue last second).natAbs = 7 % 3 ∧ (way blue last second).natAbs ≤ 2 := by
  intro first second count
  have hcount : 2 ≤ count.toNat := by decide
  have hsigned : count.toNat < 2 ^ 63 := by decide
  have hblue : blue ∈ channels := List.mem_of_getElem? (i := 2) rfl
  have hstep : (way blue first second).natAbs / (4 - 1) = 2 := by decide
  obtain ⟨last, hlast, hleft, hwithin, -, -⟩ := last_within_step_iff hcount hsigned first second hblue
  exact ⟨hcount, hsigned, hblue, last, hlast, hleft, hstep ▸ hwithin.2 (by decide)⟩

/-- Ten places from 0 to 3 are all at 0, further from 3 than a step, which is no unit at all. As many
places as the least count that is negative as a signed word have no last one. -/
theorem last_beyond_step :
    let first : Color := ⟨0, 0, 0⟩
    let second : Color := ⟨3, 3, 3⟩
    let count : UInt64 := 10
    2 ≤ count.toNat ∧ red ∈ channels ∧ interpolateWord first second count = List.replicate 10 first ∧
      (interpolateWord first second count).getLast? = some first ∧
      ¬ (way red first second).natAbs ≤ (way red first second).natAbs / (count.toNat - 1) ∧
      (interpolateWord first second 0x8000000000000000).getLast? = none :=
  ⟨by decide, List.mem_cons_self, by decide, by decide, by decide, by decide⟩

end Color
end ColorMarkup
