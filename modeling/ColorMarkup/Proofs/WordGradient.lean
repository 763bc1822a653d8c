import ColorMarkup.Color.WordGradient
import ColorMarkup.Proofs.Gradient
import Mathlib.Algebra.GroupWithZero.Nat
/-!
Gradients of machine words as gradients counted in natural numbers. The values of a channel stay
within its two ends, so no signed word on the way leaves its range, whatever the number of steps.
Only the count itself can: from the first one on that is negative as a signed word no colour is
left. The shares of stops are right as long as their greatest product fits into a word.
-/
namespace ColorMarkup
namespace Color

theorem bmod_of_natAbs_lt {x : Int} (h : x.natAbs < 2 ^ 63) : x.bmod (2 ^ 64) = x :=
  Int.bmod_eq_of_le (by omega) (by omega)

theorem toInt64_eq_ofNat (word : UInt64) : word.toInt64 = Int64.ofNat word.toNat := by
  rw [← UInt64.toInt64_ofNat', UInt64.ofNat_toNat]

theorem toInt_zeroExtended (value : UInt8) : value.toUInt64.toInt64.toInt = value.toNat := by
  have hlt := value.toNat_lt
  rw [toInt64_eq_ofNat, UInt8.toNat_toUInt64, Int64.toInt_ofNat_of_lt (by omega)]

theorem toInt_abs {word : Int64} (h : word ≠ Int64.minValue) : word.abs.toInt = word.toInt.natAbs := by
  have hmin : word.toBitVec ≠ BitVec.intMin 64 := fun heq => h (Int64.toBitVec_inj.1 heq)
  have habs := BitVec.toInt_abs_eq_natAbs (x := word.toBitVec)
  rwa [if_neg hmin] at habs

theorem toNat_add_one {i n : UInt64} (h : i.toNat < n.toNat) : (i + 1).toNat = i.toNat + 1 := by
  have hlt := n.toNat_lt
  rw [UInt64.toNat_add, UInt64.toNat_one, Nat.mod_eq_of_lt (by omega)]

section Channel

variable (first second : UInt8) {steps i : Nat}

theorem toInt_increment (hpos : 0 < steps) (hsteps : steps < 2 ^ 63) :
    (Channel.ofEnds first second (Int64.ofNat steps)).increment.toInt = channelStep first second steps := by
  have hfirst := first.toNat_lt
  have hsecond := second.toNat_lt
  have horigin := toInt_zeroExtended first
  have htarget := toInt_zeroExtended second
  simp only [Channel.ofEnds]
  generalize first.toUInt64.toInt64 = origin at horigin
  generalize second.toUInt64.toInt64 = target at htarget
  have hway : (origin - target).toInt = (first.toNat : Int) - second.toNat := by
    rw [Int64.toInt_sub, horigin, htarget, bmod_of_natAbs_lt (by omega)]
  have hdistance : (origin - target).abs.toInt = ((second.toNat : Int) - first.toNat).natAbs := by
    have hleast : origin - target ≠ Int64.minValue := fun heq => by
      rw [heq, Int64.toInt_minValue] at hway
      omega
    rw [toInt_abs hleast, hway]
    omega
  have hdivisor : (Int64.ofNat steps).toInt = steps := Int64.toInt_ofNat_of_lt hsteps
  have hpositive : Int64.ofNat steps ≠ -1 := fun heq => by
    have hminus : (-1 : Int64).toInt = -1 := rfl
    rw [heq, hminus] at hdivisor
    omega
  rw [Int64.toInt_div_of_ne_right _ _ hpositive, hdistance, hdivisor, channelStep_eq]
  exact Int.ofNat_tdiv _ _

/-- Times the direction what has been gone gets its sign. Where there is no way, nothing has been gone. -/
theorem mul_toInt_direction {moved : Nat} (hmoved : moved ≤ ((second.toNat : Int) - first.toNat).natAbs)
    (steps : Int64) : moved * (Channel.ofEnds first second steps).direction.toInt =
      ((second.toNat : Int) - first.toNat).sign * moved := by
  simp only [Channel.ofEnds, Int64.lt_iff_toInt_lt, toInt_zeroExtended]
  obtain hup | heq | hdown := Int.lt_trichotomy first.toNat second.toNat
  · rw [if_pos hup, Int.sign_eq_one_of_pos (by omega)]
    simp
  · have hnone : moved = 0 := by omega
    simp [hnone]
  · rw [if_neg (by omega), Int.sign_eq_neg_one_of_neg (by omega)]
    simp

/-- No word on the way to a value leaves its range. -/
theorem toInt_reached (hpos : 0 < steps) (hsteps : steps < 2 ^ 63) (hi : i ≤ steps) :
    ((Channel.ofEnds first second (Int64.ofNat steps)).reached (Int64.ofNat i)).toInt =
      first.toNat + ((second.toNat : Int) - first.toNat).sign * (channelStep first second steps * i : Nat) := by
  have hfirst := first.toNat_lt
  have hsecond := second.toNat_lt
  have hmoved := channelStep_mul_le first second hi
  have hrange := between_of_le_natAbs hmoved
  have hplace : (Int64.ofNat i).toInt = i := Int64.toInt_ofNat_of_lt (by omega)
  have horigin : (Channel.ofEnds first second (Int64.ofNat steps)).origin.toInt = first.toNat :=
    toInt_zeroExtended first
  have hgone : ((Channel.ofEnds first second (Int64.ofNat steps)).increment * Int64.ofNat i).toInt =
      (channelStep first second steps * i : Nat) := by
    rw [Int64.toInt_mul, toInt_increment first second hpos hsteps, hplace, ← Int.natCast_mul,
      bmod_of_natAbs_lt (by omega)]
  have hturned : ((Channel.ofEnds first second (Int64.ofNat steps)).increment * Int64.ofNat i *
      (Channel.ofEnds first second (Int64.ofNat steps)).direction).toInt =
      ((second.toNat : Int) - first.toNat).sign * (channelStep first second steps * i : Nat) := by
    rw [Int64.toInt_mul, hgone, mul_toInt_direction first second hmoved, bmod_of_natAbs_lt (by omega)]
  rw [Channel.reached, Int64.toInt_add, horigin, hturned, bmod_of_natAbs_lt (by omega)]

/-- The value is already between 0 and 255 and is kept as it is. -/
theorem value_eq_channelAt (hpos : 0 < steps) (hsteps : steps < 2 ^ 63) (hi : i ≤ steps) :
    (Channel.ofEnds first second (Int64.ofNat steps)).value (Int64.ofNat i) = channelAt first second steps i := by
  have hreached := toInt_reached first second hpos hsteps hi
  have hlt := (channelAt first second steps i).toNat_lt
  rw [← toNat_channelAt hi] at hreached
  rw [Channel.value]
  generalize (Channel.ofEnds first second (Int64.ofNat steps)).reached (Int64.ofNat i) = reached at hreached
  have hword : reached = Int64.ofNat (channelAt first second steps i).toNat :=
    Int64.toInt_inj.1 (hreached.trans (Int64.toInt_ofNat_of_lt (by omega)).symm)
  have hlow : ¬ reached < 0 := by
    rw [Int64.lt_iff_toInt_lt, hreached, Int64.toInt_zero]
    omega
  have hhigh : ¬ 255 < reached := by
    have hmost : (255 : Int64).toInt = 255 := rfl
    rw [Int64.lt_iff_toInt_lt, hreached, hmost]
    omega
  simp only [if_neg hlow, if_neg hhigh]
  rw [hword]
  simp

end Channel

theorem toInt64_sub_one {count : UInt64} (h : 0 < count.toNat) :
    (count - 1).toInt64 = Int64.ofNat (count.toNat - 1) := by
  have hle : 1 ≤ count := UInt64.le_iff_toNat_le.2 h
  rw [toInt64_eq_ofNat, UInt64.toNat_sub_of_le _ _ hle, UInt64.toNat_one]

/-- A count that a signed word can hold gives the colours counted in natural numbers. -/
theorem interpolateWord_eq {count : UInt64} (hsigned : count.toNat < 2 ^ 63) (first second : Color) :
    interpolateWord first second count = interpolate first second count.toNat := by
  by_cases hzero : count = 0
  · rw [interpolateWord, if_pos hzero, hzero]
    rfl
  by_cases hone : count = 1
  · rw [interpolateWord, if_neg hzero, if_pos hone, hone]
    rfl
  have hcount : 2 ≤ count.toNat := by
    have hne : count.toNat ≠ 0 ∧ count.toNat ≠ 1 :=
      ⟨fun heq => hzero (UInt64.toNat_inj.1 heq), fun heq => hone (UInt64.toNat_inj.1 heq)⟩
    omega
  have hplaces : count.toInt64.toNatClampNeg = count.toNat := by
    rw [toInt64_eq_ofNat, Int64.toNatClampNeg_ofNat_of_lt hsigned]
  have hpos : 0 < count.toNat - 1 := by omega
  have hsteps : count.toNat - 1 < 2 ^ 63 := by omega
  simp only [interpolateWord, if_neg hzero, if_neg hone, toInt64_sub_one (Nat.lt_of_succ_lt hcount), hplaces,
    interpolate_eq_map hcount]
  refine List.map_congr_left fun i hi => ?_
  have hle : i ≤ count.toNat - 1 := Nat.le_sub_one_of_lt (List.mem_range.1 hi)
  simp only [between, value_eq_channelAt _ _ hpos hsteps hle]

/-- A count that is negative as a signed word gives none. -/
theorem interpolateWord_eq_nil {count : UInt64} (hnegative : 2 ^ 63 ≤ count.toNat) (first second : Color) :
    interpolateWord first second count = [] := by
  have hlt := count.toNat_lt
  have hzero : count ≠ 0 := fun heq => by simp [heq] at hnegative
  have hone : count ≠ 1 := fun heq => by simp [heq] at hnegative
  have hle : count.toInt64 ≤ 0 := by
    have hsize : Int64.size = 2 ^ 64 := rfl
    rw [Int64.le_iff_toInt_le, toInt64_eq_ofNat, Int64.toInt_ofNat', Int64.toInt_zero, hsize, Int.bmod]
    split <;> omega
  rw [interpolateWord, if_neg hzero, if_neg hone, Int64.toNatClampNeg_eq_zero_iff.2 hle]
  rfl

section Shares

variable {count pairs i : UInt64} (hproducts : pairs.toNat * count.toNat < 2 ^ 64)
include hproducts

/-- No product of a pair is greater than that of the last one. -/
theorem toNat_shareWord (hi : i.toNat < pairs.toNat) :
    (shareWord count pairs i).toNat = share count.toNat pairs.toNat i.toNat := by
  have hmost : (i.toNat + 1) * count.toNat ≤ pairs.toNat * count.toNat := Nat.mul_le_mul_right _ hi
  have hgrow : i.toNat * count.toNat ≤ (i.toNat + 1) * count.toNat := Nat.mul_le_mul_right _ (by omega)
  have hupper : ((i + 1) * count / pairs).toNat = (i.toNat + 1) * count.toNat / pairs.toNat := by
    rw [UInt64.toNat_div, UInt64.toNat_mul, toNat_add_one hi, Nat.mod_eq_of_lt (by omega)]
  have hlower : (i * count / pairs).toNat = i.toNat * count.toNat / pairs.toNat := by
    rw [UInt64.toNat_div, UInt64.toNat_mul, Nat.mod_eq_of_lt (by omega)]
  have hle : i * count / pairs ≤ (i + 1) * count / pairs := by
    rw [UInt64.le_iff_toNat_le, hupper, hlower]
    exact Nat.div_le_div_right hgrow
  rw [shareWord, UInt64.toNat_sub_of_le _ _ hle, hupper, hlower, share]

theorem interpolatePairsWord_eq (hsigned : count.toNat < 2 ^ 63) {stop : Color} {stops : List Color}
    (hlength : i.toNat + stops.length = pairs.toNat) :
    interpolatePairsWord count pairs i (stop :: stops) =
      interpolatePairs count.toNat pairs.toNat i.toNat (stop :: stops) := by
  induction stops generalizing i stop with
  | nil => rfl
  | cons second stops ih =>
    rw [List.length_cons] at hlength
    have hi : i.toNat < pairs.toNat := by omega
    have hshare := toNat_shareWord hproducts hi
    have hplaces : (shareWord count pairs i).toNat < 2 ^ 63 :=
      hshare ▸ Nat.lt_of_le_of_lt (share_le (by omega) _ hi) hsigned
    have hnext := toNat_add_one hi
    rw [interpolatePairsWord, interpolatePairs, interpolateWord_eq hplaces, hshare, ih (by omega), hnext]

end Shares

theorem interpolatePairsWord_zero (pairs i : UInt64) (stops : List Color) :
    interpolatePairsWord 0 pairs i stops = [] := by
  fun_induction interpolatePairsWord 0 pairs i stops with
  | case1 i first second rest ih => rw [ih]; simp [shareWord, interpolateWord]
  | case2 => rfl

/-- More than two stops have more than one pair, and then the product with a count that is negative as a
signed word does not fit. -/
theorem toNat_lt_of_products {n : Nat} {count : UInt64} (hn : 2 ≤ n) (hsigned : n = 2 → count.toNat < 2 ^ 63)
    (hproducts : (n - 1) * count.toNat < 2 ^ 64) : count.toNat < 2 ^ 63 := by
  obtain htwo | hmore := Nat.eq_or_lt_of_le hn
  · exact hsigned htwo.symm
  · have htwice : 2 * count.toNat ≤ (n - 1) * count.toNat := Nat.mul_le_mul_right _ (by omega)
    omega

theorem interpolateStopsWord_eq {stops : List Color} {count : UInt64}
    (hsigned : stops.length = 2 → count.toNat < 2 ^ 63)
    (hproducts : (stops.length - 1) * count.toNat < 2 ^ 64) :
    interpolateStopsWord stops count = interpolateStops stops count.toNat := by
  match stops with
  | [] => rfl
  | [only] => rfl
  | [first, second] => rw [interpolateStopsWord, interpolateWord_eq (hsigned rfl), interpolateStops_pair]
  | first :: second :: third :: rest =>
    have hwords : interpolateStopsWord (first :: second :: third :: rest) count =
        interpolatePairsWord count (UInt64.ofNat (rest.length + 2)) 0 (first :: second :: third :: rest) := by
      rw [interpolateStopsWord, List.length_cons]
      simp
    obtain hnone | hpos := Nat.eq_zero_or_pos count.toNat
    · have hzero : count = 0 := UInt64.toNat_inj.1 hnone
      have hempty : interpolateStops (first :: second :: third :: rest) 0 = [] :=
        List.eq_nil_of_length_eq_zero (length_interpolateStops (List.cons_ne_nil _ _) 0)
      rw [hwords, hzero, interpolatePairsWord_zero]
      exact hempty.symm
    · have hcount := toNat_lt_of_products (by simp) hsigned hproducts
      have hlength : rest.length + 2 ≤ (rest.length + 2) * count.toNat := Nat.le_mul_of_pos_right _ hpos
      have hpairs : (UInt64.ofNat (rest.length + 2)).toNat = rest.length + 2 :=
        UInt64.toNat_ofNat_of_lt' (Nat.lt_of_le_of_lt hlength hproducts)
      rw [hwords, interpolateStops, List.length_cons,
        interpolatePairsWord_eq (by rwa [hpairs]) hcount (by rw [hpairs]; simp), hpairs]
      rfl

end Color
end ColorMarkup
