import BranchingTubes.Rules.Lottery
import Mathlib

/-!
# Sums of numbers without a minus sign

A single-precision number that is no NaN and carries no minus sign is `Unsigned`.  Such
numbers have unsigned sums, so a sum of them can go wrong in one way only, by becoming
infinite.  The weights that count in a lottery are of this kind, and therefore the lottery
can be made unless their total is infinite (`exists_lottery`, `ofWeights_eq_error`).

A number is added in the unpacked form of the standard library and packed again.  Packing
may turn a finite number into an infinite one, but it keeps the sign (`unpack_pack`).
-/

set_option autoImplicit false

namespace BranchingTubes

open Float.Model (UnpackedFloat Format)

/-! ## Unpacked numbers -/

/-- An unpacked number is no NaN and has no minus sign. -/
inductive PlusSigned : UnpackedFloat → Prop where
  | infinity : PlusSigned (.infinity .positive)
  | zero : PlusSigned (.zero .positive)
  | finite (mantissa : ℕ) (exponent : ℤ) (pos : 0 < mantissa) :
      PlusSigned (.finite .positive mantissa exponent pos)

namespace PlusSigned

/-- What is rounded with a plus sign, whatever was cut off before, keeps it. -/
theorem roundWithAccuracy (spec : Format) (mantissa : ℕ) (exponent : ℤ)
    (accuracy : UnpackedFloat.Accuracy) : PlusSigned
      (UnpackedFloat.roundWithAccuracy spec .positive mantissa exponent accuracy) := by
  unfold UnpackedFloat.roundWithAccuracy
  simp only
  split
  · exact .zero
  · exact .finite ..

/-- What is rounded with a plus sign keeps it. -/
theorem round (spec : Format) (mantissa : ℕ) (exponent : ℤ) :
    PlusSigned (UnpackedFloat.round spec .positive mantissa exponent) :=
  roundWithAccuracy ..

/-- A significand that is not negative is normalized to a number with a plus sign. -/
theorem normalize (spec : Format) {mantissa : ℤ} (h : 0 ≤ mantissa) (exponent : ℤ) :
    PlusSigned (UnpackedFloat.normalize spec mantissa exponent .positive) := by
  unfold UnpackedFloat.normalize
  split
  next hneg => exact absurd (compare_lt_iff_lt.mp hneg) (not_lt.mpr h)
  next => exact .zero
  next => exact round ..

variable {x y : UnpackedFloat}

/-- A sum of numbers with a plus sign has one too. -/
theorem add (spec : Format) (hx : PlusSigned x) (hy : PlusSigned y) :
    PlusSigned (UnpackedFloat.add spec x y) := by
  cases hx with
  | infinity => cases hy <;> exact .infinity
  | zero =>
    cases hy with
    | infinity => exact .infinity
    | zero => exact .zero
    | finite => exact .finite ..
  | finite =>
    cases hy with
    | infinity => exact .infinity
    | zero => exact .finite ..
    | finite =>
      apply normalize
      simp only [UnpackedFloat.Sign.apply]
      positivity

/-- Components with a plus sign are unpacked with a plus sign; a NaN would need an exponent
of ones and a mantissa that is not zero. -/
theorem unpack_packComponents {spec : Format} {exponent : BitVec spec.exponentBits}
    {mantissa : BitVec spec.mantissaBitsWithoutImplicit}
    (h : exponent = -BitVec.ofNat spec.exponentBits 1 →
      mantissa = BitVec.ofNat spec.mantissaBitsWithoutImplicit 0) :
    PlusSigned (UnpackedFloat.unpack spec
      (UnpackedFloat.packComponents spec .positive exponent mantissa)) := by
  unfold UnpackedFloat.unpack
  simp only [UnpackedFloat.unpackExponent_packComponents,
    UnpackedFloat.unpackMantissa_packComponents, UnpackedFloat.unpackSign_packComponents,
    UnpackedFloat.Sign.ofBitVec_toBitVec]
  split
  next hones =>
    rw [if_pos (h hones)]
    exact .infinity
  next =>
    split
    · split
      · exact .zero
      · exact .finite ..
    · exact .finite ..

/-- The sign is kept by packing and unpacking. -/
theorem unpack_pack (h : PlusSigned x) :
    PlusSigned (UnpackedFloat.unpack .binary32 (UnpackedFloat.pack .binary32 x)) := by
  cases h with
  | infinity => exact unpack_packComponents fun _ => rfl
  | zero => exact unpack_packComponents fun _ => rfl
  | finite mantissa exponent pos =>
    unfold UnpackedFloat.pack
    simp only
    generalize (exponent + (Format.binary32.exponentBias : ℤ) +
      (Format.binary32.mantissaBitsWithoutImplicit : ℤ)).toNat = biased
    split
    · exact unpack_packComponents fun _ => rfl
    next hsmall =>
      split
      · -- The biased exponent was found too small to be all ones.
        apply unpack_packComponents
        intro hones
        have hvalue := congrArg BitVec.toNat hones
        simp only [Format.binary32, BitVec.toNat_ofNat, BitVec.toNat_neg] at hvalue hsmall
        omega
      · exact unpack_packComponents fun hones => absurd hones (by decide)

/-- What is above zero has a plus sign. -/
theorem of_zero_lt (h : UnpackedFloat.lt (.zero .positive) x = true) : PlusSigned x := by
  unfold UnpackedFloat.lt at h
  cases x with
  | notANumber => simp [UnpackedFloat.compare] at h
  | infinity sign =>
    cases sign with
    | negative => simp [UnpackedFloat.compare] at h
    | positive => exact .infinity
  | zero sign => simp [UnpackedFloat.compare] at h
  | finite sign =>
    cases sign with
    | negative => simp [UnpackedFloat.compare] at h
    | positive => exact .finite ..

/-- With a plus sign, a number is finite unless it is infinity. -/
theorem isFinite_eq (h : PlusSigned x) : x.isFinite = !x.isInf := by
  cases h <;> rfl

/-- Only the zero with a minus sign would become another number. -/
theorem add_zero (spec : Format) (h : PlusSigned x) :
    UnpackedFloat.add spec x (.zero .positive) = x := by
  cases h <;> rfl

/-- Zero in front changes no sum. -/
theorem zero_add (spec : Format) (h : PlusSigned x) :
    UnpackedFloat.add spec (.zero .positive) x = x := by
  cases h <;> rfl

end PlusSigned

/-! ## Single-precision numbers -/

/-- A float is made of what it is unpacked to. -/
theorem ofModel_pack_unpack (x : Float32) : Float32.ofModel (.pack x.toModel.unpack) = x := by
  obtain ⟨bits, valid⟩ := x
  have hpack := UnpackedFloat.pack_unpack_of_valid valid
  simp only [Float32.Model.pack, Float32.Model.unpack]
  congr

/-- Infinity is not equal to zero. -/
theorem beq_zero_of_isInf {x : Float32} (h : x.isInf = true) : (x == 0) = false := by
  change x.toModel.unpack.isInf = true at h
  change UnpackedFloat.beq x.toModel.unpack (.zero .positive) = false
  generalize x.toModel.unpack = u at h ⊢
  cases u with
  | infinity sign => cases sign <;> rfl
  | notANumber => cases h
  | zero => cases h
  | finite => cases h

/-- A number is no NaN and has no minus sign. -/
def Unsigned (x : Float32) : Prop := PlusSigned x.toModel.unpack

namespace Unsigned

variable {x y : Float32}

/-- Zero has a plus sign. -/
theorem zero : Unsigned 0 := PlusSigned.zero

/-- What is above zero has a plus sign. -/
theorem of_pos (h : 0 < x) : Unsigned x := by
  have hlt : Float32.lt 0 x = true := h
  exact .of_zero_lt (of_decide_eq_true hlt)

/-- A sum of floats with a plus sign has one too. -/
theorem add (hx : Unsigned x) (hy : Unsigned y) : Unsigned (x + y) :=
  PlusSigned.unpack_pack (PlusSigned.add _ hx hy)

/-- Adding zero to a float with a plus sign leaves it as it is. -/
theorem add_zero (h : Unsigned x) : x + 0 = x := by
  have hadd : x + 0 = Float32.ofModel (.pack x.toModel.unpack) :=
    congrArg (fun u => Float32.ofModel (.pack u)) (PlusSigned.add_zero .binary32 h)
  rw [hadd, ofModel_pack_unpack]

/-- Adding a float with a plus sign to zero leaves it as it is. -/
theorem zero_add (h : Unsigned x) : 0 + x = x := by
  have hadd : 0 + x = Float32.ofModel (.pack x.toModel.unpack) :=
    congrArg (fun u => Float32.ofModel (.pack u)) (PlusSigned.zero_add .binary32 h)
  rw [hadd, ofModel_pack_unpack]

/-- With a plus sign, a float is finite unless it is infinite. -/
theorem isFinite_eq (h : Unsigned x) : x.isFinite = !x.isInf := PlusSigned.isFinite_eq h

/-- A running sum of floats with a plus sign keeps it. -/
theorem foldl_add {xs : List Float32} (hxs : ∀ y ∈ xs, Unsigned y) (hx : Unsigned x) :
    Unsigned (xs.foldl (· + ·) x) := by
  induction xs generalizing x with
  | nil => exact hx
  | cons y ys ih =>
    apply ih
    · intro z hz
      exact hxs z (List.mem_cons_of_mem _ hz)
    · exact hx.add (hxs y List.mem_cons_self)

end Unsigned

/-! ## The total of some weights -/

/-- The sum of the weights that count. -/
def totalWeight (weights : List Float32) : Float32 := (weights.map usableWeight).foldl (· + ·) 0

/-- A weight that counts has a plus sign. -/
theorem unsigned_usableWeight (w : Float32) : Unsigned (usableWeight w) := by
  unfold usableWeight
  split
  next hpos => exact .of_pos hpos
  next => exact .zero

/-- The total of a single weight is that weight, if it counts. -/
theorem totalWeight_singleton (w : Float32) : totalWeight [w] = usableWeight w :=
  (unsigned_usableWeight w).zero_add

/-- A total of weights has a plus sign. -/
theorem unsigned_totalWeight (weights : List Float32) : Unsigned (totalWeight weights) := by
  refine Unsigned.foldl_add ?_ .zero
  intro y hy
  obtain ⟨w, -, rfl⟩ := List.mem_map.mp hy
  exact unsigned_usableWeight w

/-- What is made of some weights is decided by their total. -/
theorem ofWeights_eq (weights : List Float32) :
    Lottery.ofWeights weights =
      if totalWeight weights == 0 then .ok none
      else if !(totalWeight weights).isFinite then .error .infiniteWeight
      else .ok (some ⟨partialSums 0 (weights.map usableWeight),
        fittingScale (totalWeight weights) (totalWeight weights).toBits.toNat⟩) := rfl

/-- There is a cut between any two neighbours, so one less than there are weights. -/
theorem length_partialSums (sum : Float32) (weights : List Float32) :
    (partialSums sum weights).length = weights.length - 1 := by
  fun_induction partialSums sum weights with
  | case1 => rfl
  | case2 => rfl
  | case3 sum w rest hne ih =>
    have hpos : 0 < rest.length := List.length_pos_iff.mpr hne
    rw [List.length_cons, List.length_cons, ih]
    omega

/-- A lottery that is made draws a ticket of one of its weights, whatever the random word. -/
theorem ticket_lt {weights : List Float32} {l : Lottery}
    (h : Lottery.ofWeights weights = .ok (some l)) (word : UInt32) :
    l.ticket word < weights.length := by
  rw [ofWeights_eq] at h
  split at h
  · cases h
  next htotal =>
    split at h
    · cases h
    · obtain rfl := Option.some.inj (Except.ok.inj h)
      have hpos : 0 < weights.length := by
        rw [List.length_pos_iff]
        rintro rfl
        exact htotal (by decide)
      have hle := List.countP_le_length
        (p := fun cut => decide (cut ≤ unitFraction word *
          fittingScale (totalWeight weights) (totalWeight weights).toBits.toNat + 0))
        (l := partialSums 0 (weights.map usableWeight))
      rw [length_partialSums, List.length_map] at hle
      unfold Lottery.ticket
      dsimp only
      omega

/-- There is a lottery, possibly an empty one, unless the weights sum to infinity. -/
theorem exists_lottery {weights : List Float32} (h : (totalWeight weights).isInf = false) :
    ∃ lottery, Lottery.ofWeights weights = .ok lottery := by
  rw [ofWeights_eq, (unsigned_totalWeight weights).isFinite_eq, h]
  split
  · exact ⟨none, rfl⟩
  · exact ⟨_, rfl⟩

/-- No lottery is made of weights with an infinite total. -/
theorem ofWeights_eq_error {weights : List Float32} (h : (totalWeight weights).isInf = true) :
    Lottery.ofWeights weights = .error .infiniteWeight := by
  rw [ofWeights_eq, (unsigned_totalWeight weights).isFinite_eq, h, beq_zero_of_isInf h]
  rfl

end BranchingTubes
