import BranchingTubes.Proofs.SingleRanks
import BranchingTubes.Proofs.UnsignedSums
import Mathlib

/-!
# What a lottery draws

A lottery never draws a ticket whose weight does not count, whatever the random word
(`exists_lottery_of_pos`).  The drawn number is at least zero, and it is below the total although
both are rounded, because the scale was fitted to the greatest random fraction and rounding keeps
the order.  The partial sums do not decrease.  So the cuts that the drawn number has reached are
the first ones, and the ticket is that of the first weight at which the running sum exceeds the
drawn number (`firstAbove`).  To grow, the sum takes a weight that counts.
-/

set_option autoImplicit false

namespace BranchingTubes

open Float.Model (UnpackedFloat Format)
open Float.Model.UnpackedFloat

/-! ## Unsigned finite numbers -/

variable {a : Float32} {x : ℝ}

/-- The value of a number without a minus sign is not negative. -/
theorem PlusSigned.nonneg {u : UnpackedFloat} (hu : PlusSigned u) (hx : Denotes u x) : 0 ≤ x := by
  cases hx with
  | zero sign => rfl
  | finite sign pos bits place normal =>
    cases hu
    change (0 : ℝ) ≤ _ * 2 ^ _
    positivity

/-- The value of an unsigned number is not negative. -/
theorem Unsigned.nonneg (ha : Unsigned a) (hx : HasValue a x) : 0 ≤ x := PlusSigned.nonneg ha hx

/-- The bit pattern of a finite number without a minus sign is a rank below that of infinity. -/
theorem PlusSigned.pack_lt_infinity {u : UnpackedFloat} (hu : PlusSigned u) (hx : Denotes u x)
    (hlt : |x| < 2 ^ 128) : (pack .binary32 u).toNat < BinaryFormat.binary32.infinity := by
  have hinfinity : BinaryFormat.binary32.infinity = 255 * 2 ^ 23 := rfl
  rw [hinfinity]
  cases hx with
  | zero sign =>
    cases hu
    decide
  | @finite sign m e pos bits place normal =>
    cases hu
    have he := (Denotes.finite .positive pos bits place normal).abs_lt_iff.mp hlt
    rw [Denotes.pack_finite, if_neg (by omega)]
    split <;>
    · change (packComponents .binary32 (signOf false) _ _).toNat < _
      rw [toNat_packComponents, BitVec.toNat_ofNat, BitVec.toNat_ofNat, Bool.toNat_false]
      omega

/-- The bit pattern of an unsigned finite number is a rank below that of infinity. -/
theorem Unsigned.rank_lt_infinity (ha : Unsigned a) (hfinite : a.isFinite = true) :
    a.toBits.toNat < BinaryFormat.binary32.infinity := by
  obtain ⟨x, hx, hlt⟩ := Denotes.of_unpack hfinite
  have hpack : (pack .binary32 (unpack .binary32 a.toModel.toBits.toBitVec)).toNat <
      BinaryFormat.binary32.infinity := PlusSigned.pack_lt_infinity ha hx hlt
  rwa [pack_unpack_of_valid a.toModel.valid] at hpack

/-! ## Sums of usable weights -/

/-- A sum that ends finite was finite all along. -/
theorem isFinite_of_isFinite_foldl {weights : List Float32} {sum : Float32}
    (h : (weights.foldl (· + ·) sum).isFinite = true) : sum.isFinite = true := by
  induction weights generalizing sum with
  | nil => exact h
  | cons w rest ih => exact (isFinite_of_isFinite_add (ih h)).1

section Sums

variable {weights : List Float32} {sum : Float32} {s : ℝ}

/-- The next partial sum, which is finite if the total is. -/
theorem exists_next {w : Float32} (hw : Unsigned w) (hsum : HasValue sum s)
    (hfinite : (weights.foldl (· + ·) (sum + w)).isFinite = true) :
    ∃ x, HasValue w x ∧ 0 ≤ x ∧ HasValue (sum + w) (nearestSingle (s + x)) ∧
      s ≤ nearestSingle (s + x) := by
  have hnext := isFinite_of_isFinite_foldl hfinite
  obtain ⟨x, hx⟩ := exists_hasValue (isFinite_of_isFinite_add hnext).2
  have hnonneg := hw.nonneg hx
  refine ⟨x, hx, hnonneg, (hsum.add hx).hasValue_of_isFinite hnext, ?_⟩
  exact le_nearestSingle_of_representable hsum.representable (by linarith)

/-- The total of unsigned numbers is at least where the sum started, and at least each of
them. -/
theorem exists_total (hweights : ∀ w ∈ weights, Unsigned w) (hsum : HasValue sum s) (hs : 0 ≤ s)
    (hfinite : (weights.foldl (· + ·) sum).isFinite = true) :
    ∃ total, HasValue (weights.foldl (· + ·) sum) total ∧ s ≤ total ∧
      ∀ w ∈ weights, ∃ x, HasValue w x ∧ x ≤ total := by
  induction weights generalizing sum s with
  | nil => exact ⟨s, hsum, le_rfl, by simp⟩
  | cons w rest ih =>
    obtain ⟨hw, hrest⟩ := List.forall_mem_cons.mp hweights
    obtain ⟨x, hx, hnonneg, hnext, hle⟩ := exists_next hw hsum hfinite
    obtain ⟨total, htotal, hge, hmem⟩ := ih hrest hnext (hs.trans hle) hfinite
    refine ⟨total, htotal, hle.trans hge, List.forall_mem_cons.mpr ⟨⟨x, hx, ?_⟩, hmem⟩⟩
    have hxle := le_nearestSingle_of_representable hx.representable (by linarith : x ≤ s + x)
    exact hxle.trans hge

/-- No partial sum is below where the sum started. -/
theorem le_of_mem_partialSums (hweights : ∀ w ∈ weights, Unsigned w) (hsum : HasValue sum s)
    (hfinite : (weights.foldl (· + ·) sum).isFinite = true) {cut : Float32}
    (hcut : cut ∈ partialSums sum weights) : ∃ c, HasValue cut c ∧ s ≤ c := by
  induction weights generalizing sum s with
  | nil => cases hcut
  | cons w rest ih =>
    obtain ⟨hw, hrest⟩ := List.forall_mem_cons.mp hweights
    obtain ⟨x, hx, hnonneg, hnext, hle⟩ := exists_next hw hsum hfinite
    cases rest with
    | nil => cases hcut
    | cons w' rest' =>
      rcases List.mem_cons.mp hcut with rfl | htail
      · exact ⟨_, hnext, hle⟩
      · obtain ⟨c, hc, hge⟩ := ih hrest hnext hfinite htail
        exact ⟨c, hc, hle.trans hge⟩

end Sums

/-! ## Where a number falls among the running sums -/

section Entries

variable {α : Type} {weight : α → Float32} {entries : List α} {sum drawn : Float32} {s d total : ℝ}

/-- The first entry at which the running sum of the weights exceeds a number. -/
def firstAbove (weight : α → Float32) (drawn : Float32) : Float32 → List α → Option α
  | _, [] => none
  | sum, a :: rest =>
    if sum + weight a ≤ drawn then firstAbove weight drawn (sum + weight a) rest else some a

/-- The cuts that a number below the total reaches are as many as the entries before the first
one at which the running sum exceeds it. -/
theorem getElem?_countP_partialSums (hweights : ∀ a ∈ entries, Unsigned (weight a))
    (hsum : HasValue sum s) (htotal : HasValue ((entries.map weight).foldl (· + ·) sum) total)
    (hdrawn : HasValue drawn d) (hhigh : d < total) :
    entries[(partialSums sum (entries.map weight)).countP fun cut => cut ≤ drawn]? =
      firstAbove weight drawn sum entries := by
  induction entries generalizing sum s with
  | nil => rfl
  | cons a rest ih =>
    obtain ⟨ha, hrest⟩ := List.forall_mem_cons.mp hweights
    obtain ⟨x, hx, -, hnext, -⟩ := exists_next ha hsum htotal.isFinite
    have hreached : sum + weight a ≤ drawn ↔ nearestSingle (s + x) ≤ d := hnext.le_iff hdrawn
    unfold firstAbove
    cases rest with
    | nil =>
      have hsame := hnext.unique htotal
      rw [if_neg (by rw [hreached]; linarith)]
      rfl
    | cons b rest =>
      have hcuts : partialSums sum ((a :: b :: rest).map weight) =
          (sum + weight a) :: partialSums (sum + weight a) ((b :: rest).map weight) := rfl
      rw [hcuts]
      by_cases h : sum + weight a ≤ drawn
      · rw [if_pos h, List.countP_cons_of_pos (by simpa using h), List.getElem?_cons_succ]
        exact ih hrest hnext htotal
      · -- Not reached, and neither is any later cut.
        have hnone : ((sum + weight a) :: partialSums (sum + weight a)
            ((b :: rest).map weight)).countP (fun cut => cut ≤ drawn) = 0 := by
          rw [List.countP_eq_zero]
          intro cut hcut
          obtain ⟨c, hc, hge⟩ : ∃ c, HasValue cut c ∧ nearestSingle (s + x) ≤ c := by
            rcases List.mem_cons.mp hcut with rfl | htail
            · exact ⟨_, hnext, le_rfl⟩
            · exact le_of_mem_partialSums (List.forall_mem_map.mpr hrest) hnext htotal.isFinite
                htail
          rw [hreached] at h
          rw [decide_eq_true_iff, hc.le_iff hdrawn]
          linarith
        rw [if_neg h, hnone]
        rfl

/-- A number from where the sum started to below the total is exceeded at an entry of positive
weight. -/
theorem exists_firstAbove (hweights : ∀ a ∈ entries, Unsigned (weight a))
    (hsum : HasValue sum s) (htotal : HasValue ((entries.map weight).foldl (· + ·) sum) total)
    (hdrawn : HasValue drawn d) (hlow : s ≤ d) (hhigh : d < total) :
    ∃ a, firstAbove weight drawn sum entries = some a ∧ 0 < weight a := by
  induction entries generalizing sum s with
  | nil =>
    have hsame := hsum.unique htotal
    linarith
  | cons a rest ih =>
    obtain ⟨ha, hrest⟩ := List.forall_mem_cons.mp hweights
    obtain ⟨x, hx, hnonneg, hnext, -⟩ := exists_next ha hsum htotal.isFinite
    have hreached : sum + weight a ≤ drawn ↔ nearestSingle (s + x) ≤ d := hnext.le_iff hdrawn
    unfold firstAbove
    split
    next h => exact ih hrest hnext htotal (hreached.mp h)
    next h =>
      -- The running sum grew here, and it did so by a positive weight.
      refine ⟨a, rfl, ?_⟩
      rw [hasValue_zero.lt_iff hx]
      by_contra! hzero
      have hsame : nearestSingle (s + x) = s := by
        rw [le_antisymm hzero hnonneg, add_zero]
        exact nearestSingle_of_representable hsum.representable
      rw [hreached, hsame] at h
      exact h hlow

end Entries

/-! ## The drawn number -/

/-- The value of the greatest random fraction. -/
theorem hasValue_greatestFraction : HasValue greatestFraction (1 - 1 / 2 ^ 23) := by
  have h : HasValue greatestFraction ((2 ^ 24 - 2 : ℕ) * 2 ^ (-24 : ℤ)) :=
    hasValue_of_fields 0x3f7ffffe rfl (by decide) (by decide) (by decide)
  norm_num at h ⊢
  exact h

/-- A random fraction is the number that the upper 23 bits of the word are, divided by
`2 ^ 23`. -/
theorem hasValue_unitFraction (word : UInt32) :
    HasValue (unitFraction word) ((word.toNat / 2 ^ 9 : ℕ) / 2 ^ 23) := by
  have hword : word.toNat < 2 ^ 32 := word.toNat_lt
  have hbits : (0x3f800000 : UInt32) ||| (word >>> 9) =
      UInt32.ofNat (127 * 2 ^ 23 + word.toNat / 2 ^ 9) := by
    apply UInt32.toNat_inj.mp
    have hor := Nat.shiftLeft_add_eq_or_of_lt (i := 23) (b := word.toNat / 2 ^ 9) (by omega) 127
    rw [UInt32.toNat_or, UInt32.toNat_shiftRight, Nat.shiftRight_eq_div_pow, UInt32.toNat_ofNat']
    change 127 <<< 23 ||| word.toNat / 2 ^ 9 = _
    rw [← hor, Nat.shiftLeft_eq, Nat.mod_eq_of_lt (by omega)]
  generalize hj : word.toNat / 2 ^ 9 = j at hbits ⊢
  have hrank := hasValue_ofBits (127 * 2 ^ 23 + j) (by
    change _ < 255 * 2 ^ 23
    omega)
  have hplace : 127 * 2 ^ 23 + j = ((-23 : ℤ) + 149).toNat * 2 ^ 23 + (j + 2 ^ 23) := by omega
  have hvalue : (j : ℝ) / 2 ^ 23 = ((j + 2 ^ 23 : ℕ) : ℝ) * 2 ^ (-23 : ℤ) - 1 := by
    push_cast
    norm_num
    ring
  have hsmall : Representable ((j : ℝ) / 2 ^ 23) := by
    refine ⟨j, -23, ?_, by norm_num, ?_⟩
    · rw [abs_of_nonneg (by omega)]
      omega
    · push_cast
      norm_num
      rw [div_eq_mul_inv]
      norm_num
  rw [← hbits, hplace, value_of_lastPlace (by norm_num) (by omega) (.inl (by omega))] at hrank
  have hsub := hrank.sub hasValue_one
  rw [← hvalue] at hsub
  have hlt : |nearestSingle ((j : ℝ) / 2 ^ 23)| < 2 ^ 128 := by
    have hj' : (j : ℝ) ≤ 2 ^ 23 := by exact_mod_cast (by omega : j ≤ 2 ^ 23)
    rw [nearestSingle_of_representable hsmall, abs_of_nonneg (by positivity),
      div_lt_iff₀ (by positivity)]
    calc (j : ℝ) ≤ 2 ^ 23 := hj'
      _ < 2 ^ 128 * 2 ^ 23 := by norm_num
  have hdifference := hsub.hasValue hlt
  rwa [nearestSingle_of_representable hsmall] at hdifference

/-- A random fraction is at least zero and at most the greatest one. -/
theorem unitFraction_bounds (word : UInt32) :
    ∃ v, HasValue (unitFraction word) v ∧ 0 ≤ v ∧ v ≤ 1 - 1 / 2 ^ 23 := by
  refine ⟨_, hasValue_unitFraction word, by positivity, ?_⟩
  have hword : word.toNat < 2 ^ 32 := word.toNat_lt
  have hcast : ((word.toNat / 2 ^ 9 : ℕ) : ℝ) ≤ 2 ^ 23 - 1 := by
    have hle : word.toNat / 2 ^ 9 + 1 ≤ 2 ^ 23 := by omega
    have hreal : ((word.toNat / 2 ^ 9 : ℕ) : ℝ) + 1 ≤ 2 ^ 23 := by exact_mod_cast hle
    linarith
  rw [div_le_iff₀ (by positivity)]
  norm_num at hcast ⊢
  linarith

/-- The scale is not negative, and its product with the greatest random fraction is below the
total. -/
theorem exists_fittingScale {total : Float32} {t : ℝ} (htotal : HasValue total t) (ht : 0 < t)
    {rank : ℕ} (h : rank < BinaryFormat.binary32.infinity) :
    ∃ c, HasValue (fittingScale total rank) c ∧ 0 ≤ c ∧
      nearestSingle (c * (1 - 1 / 2 ^ 23)) < t := by
  induction rank with
  | zero => exact ⟨0, hasValue_zero, le_rfl, by simpa using ht⟩
  | succ rank ih =>
    have hscale := hasValue_ofBits _ h
    set c := BinaryFormat.binary32.value (rank + 1)
    have hc : 0 ≤ c := BinaryFormat.value_nonneg _ _
    have hle : |nearestSingle (c * (1 - 1 / 2 ^ 23))| ≤ c := by
      rw [abs_of_nonneg (nearestSingle_nonneg (by norm_num; positivity))]
      apply nearestSingle_le_of_representable hscale.representable
      nlinarith
    have hlt := hscale.abs_lt
    rw [abs_of_nonneg hc] at hlt
    have hproduct := (hscale.mul hasValue_greatestFraction).hasValue (hle.trans_lt hlt)
    unfold fittingScale
    simp only
    split
    next => exact ih (by omega)
    next hbelow =>
      rw [htotal.le_iff hproduct, not_le] at hbelow
      exact ⟨c, hscale, hc, hbelow⟩

/-- The number that a random word draws if the weights have the given total. -/
def drawnNumber (total : Float32) (word : UInt32) : Float32 :=
  unitFraction word * fittingScale total total.toBits.toNat + 0

/-- The drawn number is at least zero and below the total. -/
theorem drawnNumber_bounds {total : Float32} {t : ℝ} (hunsigned : Unsigned total)
    (htotal : HasValue total t) (ht : 0 < t) (word : UInt32) :
    ∃ d, HasValue (drawnNumber total word) d ∧ 0 ≤ d ∧ d < t := by
  obtain ⟨v, hv, hv0, hv1⟩ := unitFraction_bounds word
  obtain ⟨c, hc, hc0, hfits⟩ :=
    exists_fittingScale htotal ht (hunsigned.rank_lt_infinity htotal.isFinite)
  have hle : nearestSingle (v * c) ≤ nearestSingle (c * (1 - 1 / 2 ^ 23)) := by
    apply nearestSingle_mono
    rw [mul_comm]
    gcongr
  have hnonneg : 0 ≤ nearestSingle (v * c) := nearestSingle_nonneg (by positivity)
  have hlt := htotal.abs_lt
  rw [abs_of_pos ht] at hlt
  have hsmall : |nearestSingle (v * c)| < 2 ^ 128 := by
    rw [abs_of_nonneg hnonneg]
    linarith
  have hproduct := (hv.mul hc).hasValue hsmall
  have hsame : nearestSingle (nearestSingle (v * c) + 0) = nearestSingle (v * c) := by
    rw [add_zero]
    exact nearestSingle_of_representable hproduct.representable
  have hdrawn := (hproduct.add hasValue_zero).hasValue (by rwa [hsame])
  rw [hsame] at hdrawn
  exact ⟨_, hdrawn, hnonneg, by linarith⟩

/-! ## Lotteries of weights -/

/-- A weight counts after clamping if it did before. -/
theorem zero_lt_usableWeight_iff (w : Float32) : 0 < usableWeight w ↔ 0 < w := by
  unfold usableWeight
  split
  next h => rfl
  next h => exact iff_of_false (by decide) h

/-- A weight that does not count is clamped to zero. -/
theorem usableWeight_of_not_pos {w : Float32} (h : ¬ 0 < w) : usableWeight w = 0 := if_neg h

/-- Clamped weights are unsigned. -/
theorem forall_unsigned_usable (weights : List Float32) :
    ∀ w ∈ weights.map usableWeight, Unsigned w := by
  intro w hw
  obtain ⟨v, -, rfl⟩ := List.mem_map.mp hw
  exact unsigned_usableWeight v

/-- Weights of which none counts have the total zero. -/
theorem totalWeight_eq_zero {weights : List Float32} (h : ∀ w ∈ weights, ¬ 0 < w) :
    totalWeight weights = 0 := by
  unfold totalWeight
  induction weights with
  | nil => rfl
  | cons w rest ih =>
    obtain ⟨hw, hrest⟩ := List.forall_mem_cons.mp h
    have hsum : (0 : Float32) + 0 = 0 := by decide
    rw [List.map_cons, List.foldl_cons, usableWeight_of_not_pos hw, hsum]
    exact ih hrest

/-- A finite total is above zero if and only if some weight counts. -/
theorem exists_totalWeight {weights : List Float32}
    (hfinite : (totalWeight weights).isFinite = true) :
    ∃ t, HasValue (totalWeight weights) t ∧ 0 ≤ t ∧ (0 < t ↔ ∃ w ∈ weights, 0 < w) := by
  obtain ⟨t, ht, hnonneg, hmem⟩ :=
    exists_total (forall_unsigned_usable weights) hasValue_zero le_rfl hfinite
  refine ⟨t, ht, hnonneg, ?_, ?_⟩
  · intro hpos
    by_contra! hnone
    change HasValue (totalWeight weights) t at ht
    rw [totalWeight_eq_zero hnone] at ht
    exact hpos.ne (hasValue_zero.unique ht)
  · rintro ⟨w, hw, hpos⟩
    obtain ⟨x, hx, hle⟩ := hmem (usableWeight w) (List.mem_map_of_mem hw)
    rw [← zero_lt_usableWeight_iff, hasValue_zero.lt_iff hx] at hpos
    exact hpos.trans_le hle

/-- No lottery is made of weights of which none counts. -/
theorem ofWeights_eq_none {weights : List Float32} (h : ∀ w ∈ weights, ¬ 0 < w) :
    Lottery.ofWeights weights = .ok none := by
  rw [ofWeights_eq, totalWeight_eq_zero h, if_pos (by decide)]

section Entries

variable {α : Type} {weight : α → Float32} {entries : List α}

/-- If a weight counts and the total is finite, every drawn number is at least zero and below the
total. -/
theorem exists_drawnNumber (hfinite : (totalWeight (entries.map weight)).isFinite = true)
    (h : ∃ a ∈ entries, 0 < weight a) :
    ∃ t, HasValue (totalWeight (entries.map weight)) t ∧ 0 < t ∧ ∀ word,
      ∃ d, HasValue (drawnNumber (totalWeight (entries.map weight)) word) d ∧ 0 ≤ d ∧ d < t := by
  obtain ⟨t, ht, -, hiff⟩ := exists_totalWeight hfinite
  have hpos : 0 < t := hiff.mpr (by simpa using h)
  exact ⟨t, ht, hpos, drawnNumber_bounds (unsigned_totalWeight _) ht hpos⟩

/-- If a weight counts and the total is finite, no drawn number is negative. -/
theorem zero_le_drawnNumber (hfinite : (totalWeight (entries.map weight)).isFinite = true)
    (h : ∃ a ∈ entries, 0 < weight a) (word : UInt32) :
    0 ≤ drawnNumber (totalWeight (entries.map weight)) word := by
  obtain ⟨t, -, -, hdrawn⟩ := exists_drawnNumber hfinite h
  obtain ⟨d, hd, hnonneg, -⟩ := hdrawn word
  exact (hasValue_zero.le_iff hd).mpr hnonneg

/-- A lottery is made of weights with a finite total of which one counts.  Each of its tickets
has a weight that counts, and it is the one at which the running sum exceeds the drawn
number. -/
theorem exists_lottery_of_pos (hfinite : (totalWeight (entries.map weight)).isFinite = true)
    (h : ∃ a ∈ entries, 0 < weight a) :
    ∃ l, Lottery.ofWeights (entries.map weight) = .ok (some l) ∧
      ∀ word, ∃ a, entries[l.ticket word]? = some a ∧ 0 < weight a ∧
        firstAbove (fun b => usableWeight (weight b))
          (drawnNumber (totalWeight (entries.map weight)) word) 0 entries = some a := by
  obtain ⟨t, ht, hpos, hdrawn⟩ := exists_drawnNumber hfinite h
  have hne : ¬ (totalWeight (entries.map weight) == 0) = true := by
    rw [ht.beq_iff hasValue_zero]
    exact hpos.ne'
  rw [ofWeights_eq, if_neg hne, if_neg (by simpa using hfinite)]
  refine ⟨_, rfl, fun word => ?_⟩
  obtain ⟨d, hd, hd0, hdt⟩ := hdrawn word
  have husable : ∀ a ∈ entries, Unsigned (usableWeight (weight a)) :=
    fun a _ => unsigned_usableWeight (weight a)
  rw [totalWeight, List.map_map] at ht
  obtain ⟨a, ha, hapos⟩ := exists_firstAbove husable hasValue_zero ht hd hd0 hdt
  have hticket := getElem?_countP_partialSums husable hasValue_zero ht hd hdt
  refine ⟨a, ?_, (zero_lt_usableWeight_iff _).mp hapos, ha⟩
  rw [← ha, ← hticket, Lottery.ticket, List.map_map]
  rfl

end Entries

end BranchingTubes
