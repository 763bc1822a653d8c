import ColorMarkup.Color.Gradient
/-!
The number of colours of a gradient, and the way of one channel. The shares of consecutive
pairs of stops are differences of one sequence of quotients, so together they are the whole
count. All steps of a channel together stay within the way it has to go, so no value is ever
outside of its two ends.
-/
namespace ColorMarkup
namespace Color

theorem length_interpolatePairs (count pairs i : Nat) (stop : Color) (stops : List Color) :
    (interpolatePairs count pairs i (stop :: stops)).length =
      (i + stops.length) * count / pairs - i * count / pairs := by
  induction stops generalizing i stop with
  | nil => simp [interpolatePairs]
  | cons second stops ih =>
    have hfirst : i * count / pairs ≤ (i + 1) * count / pairs :=
      Nat.div_le_div_right (Nat.mul_le_mul_right count (by omega))
    have hlater : (i + 1) * count / pairs ≤ (i + 1 + stops.length) * count / pairs :=
      Nat.div_le_div_right (Nat.mul_le_mul_right count (by omega))
    have hindex : i + (stops.length + 1) = i + 1 + stops.length := by omega
    rw [interpolatePairs, List.length_append, length_interpolate, ih, share, List.length_cons, hindex]
    omega

/-- Every place has a colour as soon as there is a stop. -/
theorem length_interpolateStops {stops : List Color} (h : stops ≠ []) (count : Nat) :
    (interpolateStops stops count).length = count := by
  match stops with
  | [only] => simp [interpolateStops]
  | first :: second :: rest =>
    have hwhole : (rest.length + 1) * count / (rest.length + 1) = count :=
      Nat.mul_div_cancel_left count (by omega)
    rw [interpolateStops, length_interpolatePairs, List.length_cons, Nat.zero_add, hwhole]
    simp

theorem share_le {pairs : Nat} (hpos : 0 < pairs) (count : Nat) {i : Nat} (hi : i < pairs) :
    share count pairs i ≤ count := by
  calc share count pairs i ≤ (i + 1) * count / pairs := Nat.sub_le _ _
    _ ≤ pairs * count / pairs := Nat.div_le_div_right (Nat.mul_le_mul_right count hi)
    _ = count := Nat.mul_div_cancel_left count hpos

theorem interpolate_eq_map {count : Nat} (hcount : 2 ≤ count) (first second : Color) :
    interpolate first second count = (List.range count).map (between first second (count - 1)) := by
  obtain ⟨n, rfl⟩ := Nat.exists_eq_add_of_le' hcount
  rfl

section Channel

variable {first second : UInt8} {steps i : Nat}

theorem channelStep_eq (first second : UInt8) (steps : Nat) :
    channelStep first second steps = ((second.toNat : Int) - first.toNat).natAbs / steps := by
  rw [channelStep]
  congr 1
  omega

/-- All steps together stay within the way to go. -/
theorem channelStep_mul_le (first second : UInt8) (h : i ≤ steps) :
    channelStep first second steps * i ≤ ((second.toNat : Int) - first.toNat).natAbs := by
  rw [channelStep_eq]
  exact Nat.le_trans (Nat.mul_le_mul_left _ h) (Nat.div_mul_le_self _ _)

/-- Keeping the channel between 0 and 255 changes nothing. -/
theorem toNat_channelAt (h : i ≤ steps) : ((channelAt first second steps i).toNat : Int) =
    first.toNat + ((second.toNat : Int) - first.toNat).sign * (channelStep first second steps * i : Nat) := by
  have hmoved := channelStep_mul_le first second h
  have hfirst := first.toNat_lt
  have hsecond := second.toNat_lt
  rw [channelAt]
  generalize channelStep first second steps * i = moved at hmoved
  by_cases hlt : first < second
  · have hup : first.toNat < second.toNat := UInt8.lt_iff_toNat_lt.1 hlt
    have hsign : ((second.toNat : Int) - first.toNat).sign = 1 := Int.sign_eq_one_of_pos (by omega)
    have hrange : min (first.toNat + moved) 255 < UInt8.size := Nat.lt_of_le_of_lt (Nat.min_le_right _ _) (by decide)
    rw [if_pos hlt, hsign, UInt8.toNat_ofNat_of_lt' hrange]
    omega
  · have hdown : second.toNat ≤ first.toNat := UInt8.le_iff_toNat_le.1 (UInt8.not_lt.1 hlt)
    have hrange : first.toNat - moved < UInt8.size := Nat.lt_of_le_of_lt (Nat.sub_le _ _) first.toNat_lt
    rw [if_neg hlt, UInt8.toNat_ofNat_of_lt' hrange]
    obtain heq | hdown := Nat.eq_or_lt_of_le hdown
    · have hnone : moved = 0 := by omega
      simp [hnone]
    · have hsign : ((second.toNat : Int) - first.toNat).sign = -1 := Int.sign_eq_neg_one_of_neg (by omega)
      rw [hsign]
      omega

end Channel

/-- What moves no further than the way to go stays between the two ends. -/
theorem between_of_le_natAbs {start stop : Int} {moved : Nat} (h : moved ≤ (stop - start).natAbs) :
    min start stop ≤ start + (stop - start).sign * moved ∧ start + (stop - start).sign * moved ≤ max start stop := by
  obtain hup | heq | hdown := Int.lt_trichotomy start stop
  · rw [Int.sign_eq_one_of_pos (by omega)]
    omega
  · have hnone : moved = 0 := by omega
    simp [hnone, heq]
  · rw [Int.sign_eq_neg_one_of_neg (by omega)]
    omega

end Color
end ColorMarkup
