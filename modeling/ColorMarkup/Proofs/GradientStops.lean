import ColorMarkup.Proofs.WordGradient
import Mathlib.Algebra.BigOperators.Group.List.Basic
import Mathlib.Algebra.GroupWithZero.Nat
/-!
How the stops of a gradient share its places. The shares of the pairs are differences of one
sequence of quotients: they add up to all places and are as equal as whole numbers can be. With
fewer places than pairs the first pairs get none, so such a gradient starts on a later stop.

The places and the pairs are counted in words. Two stops need a count that a signed word can hold,
more of them a word for the product of the places and the pairs.
-/
namespace ColorMarkup
namespace Color

/-- Each pair gets its part of the places, rounded down or up. -/
theorem share_cases {pairs : Nat} (hpos : 0 < pairs) (count i : Nat) :
    share count pairs i = count / pairs ∨ share count pairs i = count / pairs + 1 := by
  have hnext : (i + 1) * count = i * count + count := Nat.succ_mul i count
  rw [share, hnext, Nat.add_div hpos]
  generalize i * count / pairs = before
  generalize count / pairs = part
  split <;> omega

theorem share_le_share_add_one {pairs : Nat} (hpos : 0 < pairs) (count i j : Nat) :
    share count pairs i ≤ share count pairs j + 1 := by
  have hi := share_cases hpos count i
  have hj := share_cases hpos count j
  omega

/-- The first pairs together have as many places as the quotient has grown to. -/
theorem sum_share (count pairs n : Nat) :
    ((List.range n).map (share count pairs)).sum = n * count / pairs := by
  induction n with
  | zero => simp
  | succ n ih =>
    have hgrow : n * count / pairs ≤ (n + 1) * count / pairs :=
      Nat.div_le_div_right (Nat.mul_le_mul_right count (by omega))
    rw [List.sum_range_succ, ih, share]
    omega

theorem interpolatePairs_eq_flatMap (count pairs i : Nat) (stops : List Color) :
    interpolatePairs count pairs i stops = ((stops.zip stops.tail).zipIdx i).flatMap fun (pair, j) =>
      interpolate pair.1 pair.2 (share count pairs j) := by
  fun_induction interpolatePairs count pairs i stops with
  | case1 i first second rest ih => rw [ih]; rfl
  | case2 stops i h =>
    match stops with
    | [] => rfl
    | [only] => rfl
    | first :: second :: rest => exact (h first second rest rfl).elim

theorem interpolateStops_eq_interpolatePairs {stops : List Color} {k : Nat} (hpos : 0 < k)
    (hlength : stops.length = k + 1) (count : Nat) :
    interpolateStops stops count = interpolatePairs count k 0 stops := by
  match stops with
  | [] => simp at hlength
  | [only] => simp at hlength; omega
  | first :: second :: rest =>
    have hpairs : rest.length + 1 = k := by simpa using hlength
    rw [interpolateStops, hpairs]

/-- A gradient has a colour for every place. Its colours are those of the consecutive pairs of its
stops, and the places are shared by the pairs so that each place goes to one pair and no pair has
two places more than another. -/
theorem interpolateStops_shared {stops : List Color} (hne : stops ≠ []) {count : UInt64}
    (hsigned : stops.length = 2 → count.toNat < 2 ^ 63)
    (hproducts : (stops.length - 1) * count.toNat < 2 ^ 64) :
    (interpolateStopsWord stops count).length = count.toNat ∧
    ∀ k, 1 ≤ k → stops.length = k + 1 →
      let share := fun i => (i + 1) * count.toNat / k - i * count.toNat / k
      interpolateStopsWord stops count = (stops.zip stops.tail).zipIdx.flatMap (fun (pair, i) =>
        interpolateWord pair.1 pair.2 (UInt64.ofNat (share i))) ∧
      (stops.zip stops.tail).length = k ∧
      ((List.range k).map share).sum = count.toNat ∧
      ∀ i < k, ∀ j < k, share i ≤ share j + 1 := by
  rw [interpolateStopsWord_eq hsigned hproducts]
  refine ⟨length_interpolateStops hne _, fun k hk hlength => ?_⟩
  have hpairs : (stops.zip stops.tail).length = k := by
    rw [List.length_zip, List.length_tail, hlength]
    omega
  refine ⟨?_, hpairs, ?_, fun i _ j _ => ?_⟩
  · rw [interpolateStops_eq_interpolatePairs hk hlength, interpolatePairs_eq_flatMap]
    refine List.flatMap_congr fun numbered hmem => ?_
    have hi : numbered.2 < k := by
      have hplace := List.mem_zipIdx hmem
      omega
    have hle := share_le hk count.toNat hi
    have hcount := toNat_lt_of_products (by omega) hsigned hproducts
    have hword : (UInt64.ofNat (share count.toNat k numbered.2)).toNat = share count.toNat k numbered.2 :=
      UInt64.toNat_ofNat_of_lt' (Nat.lt_of_le_of_lt hle count.toNat_lt)
    change _ = interpolateWord _ _ (UInt64.ofNat (share count.toNat k numbered.2))
    rw [interpolateWord_eq (by omega), hword]
  · exact (sum_share count.toNat k k).trans (Nat.mul_div_cancel_left _ hk)
  · exact share_le_share_add_one hk count.toNat i j

/-- The first of three pairs gets none of two places. -/
theorem interpolateStops_shared_short :
    let stops : List Color := [⟨255, 0, 0⟩, ⟨0, 255, 0⟩, ⟨0, 0, 255⟩, ⟨255, 255, 255⟩]
    let count : UInt64 := 2
    let share := fun i => (i + 1) * 2 / 3 - i * 2 / 3
    stops ≠ [] ∧ (stops.length = 2 → count.toNat < 2 ^ 63) ∧ (stops.length - 1) * count.toNat < 2 ^ 64 ∧
      stops.length = 3 + 1 ∧ (List.range 3).map share = [0, 1, 1] ∧
      (interpolateStopsWord stops count).length = 2 ∧
      interpolateStopsWord stops count = (stops.zip stops.tail).zipIdx.flatMap (fun (pair, i) =>
        interpolateWord pair.1 pair.2 (UInt64.ofNat (share i))) ∧
      ((List.range 3).map share).sum = 2 ∧ ∀ i < 3, ∀ j < 3, share i ≤ share j + 1 := by
  intro stops count share
  have hne : stops ≠ [] := List.cons_ne_nil _ _
  have hsigned : stops.length = 2 → count.toNat < 2 ^ 63 := by decide
  have hproducts : (stops.length - 1) * count.toNat < 2 ^ 64 := by decide
  obtain ⟨hcount, hshared⟩ := interpolateStops_shared hne hsigned hproducts
  obtain ⟨hcolors, -, hsum, hequal⟩ := hshared 3 (by decide) rfl
  exact ⟨hne, hsigned, hproducts, rfl, rfl, hcount, hcolors, hsum, hequal⟩

/-- Two stops have no colour for as many places as the least count that is negative as a signed word,
and the last of eight pairs loses its share of fewer places, because their product wraps around. -/
theorem no_shares_beyond_words :
    let count : UInt64 := 0x8000000000000000
    let fewer : UInt64 := 0x2000000000000000
    interpolateStopsWord [⟨255, 0, 0⟩, ⟨0, 0, 255⟩] count = [] ∧
      (interpolateStopsWord [⟨255, 0, 0⟩, ⟨0, 0, 255⟩] count).length ≠ count.toNat ∧
      fewer.toNat < 2 ^ 63 ∧ (7 + 1) * fewer.toNat / 8 - 7 * fewer.toNat / 8 = 0x400000000000000 ∧
      (shareWord fewer 8 7).toNat ≠ 0x400000000000000 ∧
      interpolateWord ⟨255, 0, 0⟩ ⟨0, 0, 255⟩ (shareWord fewer 8 7) = [] := by
  decide

theorem channelAt_zero (first second : UInt8) (steps : Nat) : channelAt first second steps 0 = first := by
  have hlt := first.toNat_lt
  have hmin : min first.toNat 255 = first.toNat := by omega
  rw [channelAt]
  simp [hmin]

/-- The way from one colour to another starts on the first one. -/
theorem head?_interpolate (first second : Color) (n : Nat) :
    (interpolate first second (n + 1)).head? = some first := by
  match n with
  | 0 => rfl
  | n + 1 =>
    rw [interpolate, List.range_succ_eq_map, List.map_cons, List.head?_cons, between, channelAt_zero,
      channelAt_zero, channelAt_zero]

/-- As long as no pair had a place, the first colour is on the stop of the first pair that gets one. -/
theorem head?_interpolatePairs {count pairs i : Nat} (hcount : 0 < count) (hnone : i * count < pairs)
    {stops : List Color} {stop : Color} (hlength : i + stops.length = pairs) :
    (interpolatePairs count pairs i (stop :: stops)).head? = (stop :: stops)[(pairs - 1) / count - i]? := by
  induction stops generalizing i stop with
  | nil =>
    have hle : i ≤ i * count := Nat.le_mul_of_pos_right i hcount
    simp at hlength
    omega
  | cons second stops ih =>
    have hstart : i * count / pairs = 0 := Nat.div_eq_of_lt hnone
    rw [interpolatePairs, share, hstart, Nat.sub_zero]
    by_cases hnext : (i + 1) * count < pairs
    · -- this pair gets no place either
      have hlater : i + 1 ≤ (pairs - 1) / count := (Nat.le_div_iff_mul_le hcount).2 (by omega)
      have hindex : (pairs - 1) / count - i = (pairs - 1) / count - (i + 1) + 1 := by omega
      rw [Nat.div_eq_of_lt hnext, interpolate, List.nil_append, hindex, List.getElem?_cons_succ]
      exact ih hnext (by rw [← hlength, List.length_cons]; omega)
    · have hpos : 0 < pairs := by omega
      have hfirst : (pairs - 1) / count = i := Nat.div_eq_of_lt_le (by omega) (by omega)
      obtain ⟨n, hn⟩ := Nat.exists_eq_add_one.2 (Nat.div_pos (Nat.le_of_not_lt hnext) hpos)
      rw [hn, List.head?_append, head?_interpolate, hfirst, Nat.sub_self, List.getElem?_cons_zero]
      rfl

theorem getElem?_zero_interpolateStops {stops : List Color} (hne : stops ≠ []) {count : Nat} (hcount : 0 < count) :
    (interpolateStops stops count)[0]? = stops[(stops.length - 2) / count]? := by
  match stops with
  | [only] =>
    obtain ⟨n, rfl⟩ := Nat.exists_eq_add_one.2 hcount
    simp [interpolateStops, List.replicate_succ]
  | first :: second :: rest =>
    rw [← List.head?_eq_getElem?, interpolateStops, head?_interpolatePairs hcount (by omega) (by simp)]
    rfl

/-- The first colour of a gradient is that of the stop where the first pair starts that has a place.
It is the first stop if and only if there is a place for each pair, or the two stops are alike. -/
theorem starts_on_first_stop_iff {stops : List Color} (hne : stops ≠ []) {count : UInt64} (hcount : 0 < count.toNat)
    (hsigned : stops.length = 2 → count.toNat < 2 ^ 63)
    (hproducts : (stops.length - 1) * count.toNat < 2 ^ 64) :
    (interpolateStopsWord stops count)[0]? = stops[(stops.length - 2) / count.toNat]? ∧
    ((interpolateStopsWord stops count)[0]? = stops[0]? ↔
      stops.length ≤ count.toNat + 1 ∨ stops[(stops.length - 2) / count.toNat]? = stops[0]?) := by
  rw [interpolateStopsWord_eq hsigned hproducts, getElem?_zero_interpolateStops hne hcount]
  refine ⟨rfl, .inr, ?_⟩
  rintro (hplaces | halike)
  · rw [Nat.div_eq_of_lt (by omega)]
  · exact halike

/-- Two places are enough for three stops. -/
theorem starts_on_first_stop_two_places :
    let stops : List Color := [⟨255, 0, 0⟩, ⟨0, 255, 0⟩, ⟨0, 0, 255⟩]
    let count : UInt64 := 2
    stops ≠ [] ∧ 0 < count.toNat ∧ (stops.length = 2 → count.toNat < 2 ^ 63) ∧
      (stops.length - 1) * count.toNat < 2 ^ 64 ∧ (interpolateStopsWord stops count)[0]? = some ⟨255, 0, 0⟩ := by
  intro stops count
  have hne : stops ≠ [] := List.cons_ne_nil _ _
  have hcount : 0 < count.toNat := by decide
  have hsigned : stops.length = 2 → count.toNat < 2 ^ 63 := by decide
  have hproducts : (stops.length - 1) * count.toNat < 2 ^ 64 := by decide
  exact ⟨hne, hcount, hsigned, hproducts,
    (starts_on_first_stop_iff hne hcount hsigned hproducts).2.2 (.inl (by decide))⟩

/-- On a single place a gradient of three stops is on the second one. -/
theorem first_stop_skipped :
    let stops : List Color := [⟨255, 0, 0⟩, ⟨0, 255, 0⟩, ⟨0, 0, 255⟩]
    stops ≠ [] ∧ interpolateStopsWord stops 1 = [⟨0, 255, 0⟩] ∧
      (interpolateStopsWord stops 1)[0]? ≠ stops[0]? := by
  decide

end Color
end ColorMarkup
