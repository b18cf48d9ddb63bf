import Mathlib
import TreeAlign.Matching.Basic

namespace TreeAlign

namespace Binary64

open Float.Model Float.Model.UnpackedFloat

structure Normal (f : UnpackedFloat) (m : Nat) (e : Int) : Prop where
  pos : 0 < m
  eq : f = .finite .positive m e pos
  log : m.log2 = 52
  low : -1074 ≤ e
  high : e ≤ 970

theorem log2_shiftLeft {m : Nat} (pos : 0 < m) (s : Nat) : (m <<< s).log2 = m.log2 + s := by
  have positive : m <<< s ≠ 0 := Nat.ne_of_gt (Nat.shiftLeft_pos_iff.mpr pos)
  obtain ⟨low, high⟩ := (Nat.log2_eq_iff (Nat.ne_of_gt pos)).mp rfl
  rw [Nat.log2_eq_iff positive, Nat.shiftLeft_eq, Nat.pow_add, Nat.add_right_comm, Nat.pow_add]
  exact ⟨Nat.mul_le_mul_right _ low, Nat.mul_lt_mul_of_pos_right high (Nat.two_pow_pos s)⟩

theorem mantissa_shiftRight (em : ExtendedMantissa) (s : Nat) : (em >>> s).mantissa = em.mantissa / 2 ^ s := by
  induction s with
  | zero => simp [HShiftRight.hShiftRight, Nat.repeat]
  | succ s ih =>
    change (em >>> s).mantissa / 2 = _
    rw [ih, Nat.div_div_eq_div_mul, Nat.pow_succ]

theorem exact_shiftRight (m s : Nat) : ExtendedMantissa.mk (m <<< s) false false >>> s = ⟨m, false, false⟩ := by
  induction s generalizing m with
  | zero => rfl
  | succ s ih =>
    change ExtendedMantissa.shiftRightOne (ExtendedMantissa.mk (m <<< (s + 1)) false false >>> s) = _
    rw [Nat.add_comm, Nat.shiftLeft_add, ih]
    simp [ExtendedMantissa.shiftRightOne, Nat.shiftLeft_eq]

section Rounding

variable {m s : Nat} {e : Int}

theorem shiftToTargetExponent_eq (log : m.log2 = 52 + s) (low : -1074 ≤ e + s) (acc : Accuracy) :
    shiftToTargetExponent Format.binary64 m e acc =
      (ExtendedMantissa.ofMantissaAndAccuracy m acc >>> s, e + s) := by
  have target : Format.binary64.targetExponent (totalExponent m e) = e + s := by
    simp only [Format.targetExponent, totalExponent, Format.mantissaBits, Format.minExponent, log]
    omega
  have amount : (e + s - e).toNat = s := by omega
  simp only [shiftToTargetExponent, shiftToExponent, target, amount]

theorem pos_of_log2 (log : m.log2 = 52) : 0 < m := by
  rcases Nat.eq_zero_or_pos m with rfl | pos
  · simp at log
  · exact pos

theorem shift_exact (log : m.log2 = 52) (low : -1074 ≤ e + s) :
    shiftToTargetExponent Format.binary64 (m <<< s) e .exact = (⟨m, false, false⟩, e + s) := by
  rw [shiftToTargetExponent_eq (by rw [log2_shiftLeft (pos_of_log2 log), log]) low]
  exact congrArg (Prod.mk · _) (exact_shiftRight m s)

/-- Once rounded to all its bits, a mantissa is shifted again only for a bit that a carry gave it. -/
theorem normal_of_rounded {em : ExtendedMantissa} {acc : Accuracy} {r : Nat} {e' : Int}
    (first : shiftToTargetExponent Format.binary64 m e acc = (em, e')) (rounded : em.roundedMantissa = r <<< s)
    (log : r.log2 = 52) (low : -1074 ≤ e' + s) (high : e' + s ≤ 970) :
    Normal (roundWithAccuracy Format.binary64 .positive m e acc) r (e' + s) := by
  refine ⟨pos_of_log2 log, ?_, log, low, high⟩
  simp only [roundWithAccuracy, first, rounded, shift_exact log low]
  rw [dif_neg (Nat.ne_of_gt (pos_of_log2 log))]

theorem normal_round_exact (log : m.log2 = 52) (low : -1074 ≤ e + s) (high : e + s ≤ 970) :
    Normal (roundWithAccuracy Format.binary64 .positive (m <<< s) e .exact) m (e + s) := by
  have normal := normal_of_rounded (s := 0) (shift_exact log low) rfl log (by simpa using low) (by simpa using high)
  simpa using normal

theorem roundedMantissa_bounds (em : ExtendedMantissa) :
    em.mantissa ≤ em.roundedMantissa ∧ em.roundedMantissa ≤ em.mantissa + 1 := by
  obtain ⟨m, roundBit, stickyBit⟩ := em
  cases roundBit <;> cases stickyBit <;>
    simp [ExtendedMantissa.roundedMantissa, ExtendedMantissa.accuracy, Accuracy.roundToNearestEven]
  omega

theorem normal_round (log : m.log2 = 52 + s) (low : -1074 ≤ e + s) (high : e + s ≤ 969) (acc : Accuracy) :
    ∃ m' e', Normal (roundWithAccuracy Format.binary64 .positive m e acc) m' e' ∧
      (e' = e + s ∨ m' = 2 ^ 52 ∧ e' = e + s + 1) := by
  have first := shiftToTargetExponent_eq log low acc
  generalize shifted : ExtendedMantissa.ofMantissaAndAccuracy m acc >>> s = em at first
  have mantissa : em.mantissa = m / 2 ^ s := by
    rw [← shifted, mantissa_shiftRight]
    rcases acc with _ | (_ | _ | _) <;> rfl
  have bits : 2 ^ 52 ≤ em.mantissa ∧ em.mantissa < 2 ^ 53 := by
    have positive : m ≠ 0 := by rintro rfl; simp at log; omega
    obtain ⟨least, most⟩ := (Nat.log2_eq_iff positive).mp log
    rw [mantissa, Nat.le_div_iff_mul_le (Nat.two_pow_pos s), Nat.div_lt_iff_lt_mul (Nat.two_pow_pos s),
      ← Nat.pow_add, ← Nat.pow_add, Nat.add_right_comm 52 1 s]
    exact ⟨least, most⟩
  have bounds := roundedMantissa_bounds em
  by_cases carry : em.roundedMantissa = 2 ^ 53
  · exact ⟨2 ^ 52, e + s + 1, normal_of_rounded (s := 1) first carry Nat.log2_two_pow (by omega) (by omega),
      .inr ⟨rfl, rfl⟩⟩
  · have log' : em.roundedMantissa.log2 = 52 := by
      rw [Nat.log2_eq_iff (by omega)]
      omega
    have normal := normal_of_rounded (s := 0) (r := em.roundedMantissa) first rfl log' (by simpa using low) (by omega)
    exact ⟨em.roundedMantissa, e + s, by simpa using normal, .inl rfl⟩

end Rounding

theorem unpackSign_packComponents (exponent : BitVec 11) (mantissa : BitVec 52) :
    unpackSign (packComponents Format.binary64 .positive exponent mantissa) = 0#1 := by
  ext i hi
  obtain rfl : i = 0 := by omega
  simp [unpackSign, packComponents, Sign.toBitVec]
  rw [BitVec.getLsbD_append, BitVec.getLsbD_append]
  simp

section Packing

variable {f g : UnpackedFloat} {m n : Nat} {e : Int}

theorem biased_bounds (low : -1074 ≤ e) (high : e ≤ 970) :
    BitVec.ofNat 11 (e + 1075).toNat ≠ -1#11 ∧ BitVec.ofNat 11 (e + 1075).toNat ≠ 0#11 ∧
      ((BitVec.ofNat 11 (e + 1075).toNat).toNat : Int) = e + 1075 := by
  have stored : (BitVec.ofNat 11 (e + 1075).toNat).toNat = (e + 1075).toNat := by
    rw [BitVec.toNat_ofNat]
    omega
  refine ⟨fun same => ?_, fun same => ?_, by omega⟩
  · have := congrArg BitVec.toNat same
    rw [stored] at this
    simp at this
    omega
  · have := congrArg BitVec.toNat same
    rw [stored] at this
    simp at this
    omega

theorem mantissa_restored (least : 2 ^ 52 ≤ m) (most : m < 2 ^ 53) : (1#1 ++ BitVec.ofNat 52 m).toNat = m := by
  rw [BitVec.toNat_append, ← Nat.shiftLeft_add_eq_or_of_lt (BitVec.ofNat 52 m).isLt, BitVec.toNat_ofNat,
    BitVec.toNat_ofNat]
  omega

theorem Normal.unpack_pack (h : Normal f m e) : Normal (Float.Model.pack f).unpack m e := by
  obtain ⟨pos, rfl, log, low, high⟩ := h
  refine ⟨pos, ?_, log, low, high⟩
  obtain ⟨least, most⟩ := (Nat.log2_eq_iff (Nat.ne_of_gt pos)).mp log
  have packed : UnpackedFloat.pack Format.binary64 (.finite .positive m e pos) =
      packComponents Format.binary64 .positive (BitVec.ofNat 11 (e + 1075).toNat) (BitVec.ofNat 52 m) := by
    have biased : (e + Format.binary64.exponentBias + Format.binary64.mantissaBitsWithoutImplicit).toNat =
        (e + 1075).toNat := by
      simp only [Format.exponentBias]
      omega
    simp only [UnpackedFloat.pack, biased, log]
    rw [if_neg (by omega)]
    exact if_pos rfl
  obtain ⟨notAll, notZero, stored⟩ := biased_bounds low high
  change UnpackedFloat.unpack Format.binary64 (UnpackedFloat.pack Format.binary64 (.finite .positive m e pos)) = _
  simp only [packed, UnpackedFloat.unpack, unpackExponent_packComponents, unpackMantissa_packComponents,
    unpackSign_packComponents, notAll, notZero, if_false, stored, mantissa_restored least most]
  congr 1
  simp only [Format.exponentBias]
  omega

end Packing

section Counts

variable {f g : UnpackedFloat} {m n k : Nat} {e d : Int}

theorem log2_le_52 (pos : 0 < n) (small : n < 2 ^ 53) : n.log2 ≤ 52 := by
  have := (Nat.log2_lt (Nat.ne_of_gt pos)).mpr small
  omega

def mantissaOf (n : Nat) : Nat := n <<< (52 - n.log2)

theorem log2_mantissaOf (pos : 0 < n) (small : n < 2 ^ 53) : (mantissaOf n).log2 = 52 := by
  have := log2_le_52 pos small
  rw [mantissaOf, log2_shiftLeft pos]
  omega

theorem normal_ofUInt64 (pos : 0 < n) (small : n < 2 ^ 53) :
    Normal (Float.Model.ofUInt64 n.toUInt64).unpack (mantissaOf n) (n.log2 - 52) := by
  have log := log2_le_52 pos small
  have toNat : n.toUInt64.toNat = n := by
    rw [Nat.toUInt64, UInt64.toNat_ofNat']
    omega
  have target : Format.binary64.targetExponent (totalExponent n 0) = n.log2 - 52 := by
    simp only [Format.targetExponent, totalExponent, Format.mantissaBits, Format.minExponent]
    omega
  have shift : (0 - ((n.log2 : Int) - 52)).toNat = 52 - n.log2 := by omega
  have exponent : (0 : Int) - ((52 - n.log2 : Nat) : Int) = n.log2 - 52 := by omega
  apply Normal.unpack_pack
  rw [UnpackedFloat.ofUInt64, UnpackedFloat.ofNat, UnpackedFloat.ofInt, UnpackedFloat.normalize, toNat,
    Int.compare_eq_gt.mpr (by omega)]
  simp only [Int.toNat_natCast, UnpackedFloat.round, target, decreaseExponent, shift, exponent]
  have normal := normal_round_exact (s := 0) (e := n.log2 - 52) (log2_mantissaOf pos small) (by omega) (by omega)
  simpa [mantissaOf] using normal

theorem Normal.mul_one (h : Normal f m e) :
    Normal (UnpackedFloat.mul Format.binary64 f (.finite .positive (2 ^ 52) (-52) (by decide))) m e := by
  obtain ⟨pos, rfl, log, low, high⟩ := h
  have normal := normal_round_exact (s := 52) (e := e - 52) log (by omega) (by omega)
  change Normal (roundWithAccuracy Format.binary64 .positive (m * 2 ^ 52) (e - 52) .exact) m e
  simpa [Nat.shiftLeft_eq] using normal

theorem normal_ofNat (pos : 0 < n) (small : n < 2 ^ 53) :
    Normal (Float.ofNat n).toModel.unpack (mantissaOf n) (n.log2 - 52) := by
  have one : (Float.ofBits 0x3FF0000000000000).toModel.unpack = .finite .positive (2 ^ 52) (-52) (by decide) := rfl
  have scientific : Float.ofNat n = n.toUInt64.toFloat * Float.ofBits 0x3FF0000000000000 := by
    rw [Float.ofNat]
    exact dif_pos ⟨small, by decide⟩
  rw [scientific]
  apply Normal.unpack_pack
  rw [one]
  exact (normal_ofUInt64 pos small).mul_one

end Counts

section Quotient

variable {f g : UnpackedFloat} {m n k : Nat} {e d : Int}

theorem divCore_eq (hm : m.log2 = 52) (hn : n.log2 = 52) (low : -1000 ≤ e - d) :
    divCore Format.binary64 m e n d = ((m <<< 53) / n, e - d - 53, accuracyOfFraction ((m <<< 53) % n) n) := by
  have target : Format.binary64.targetExponent (totalExponent m e - totalExponent n d) = e - d - 53 := by
    simp only [Format.targetExponent, totalExponent, Format.mantissaBits, Format.minExponent, hm, hn]
    omega
  have least : min (e - d) (e - d - 53) = e - d - 53 := by omega
  have shift : (e - d - (e - d - 53)).toNat = 53 := by omega
  simp only [divCore, target, least, shift]

theorem log2_quotient (hm : m.log2 = 52) (hn : n.log2 = 52) :
    ∃ s, ((m <<< 53) / n).log2 = 52 + s ∧ s ≤ 1 ∧ (m < n → s = 0) := by
  obtain ⟨leastM, mostM⟩ := (Nat.log2_eq_iff (Nat.ne_of_gt (pos_of_log2 hm))).mp hm
  obtain ⟨leastN, mostN⟩ := (Nat.log2_eq_iff (Nat.ne_of_gt (pos_of_log2 hn))).mp hn
  have pos := pos_of_log2 hn
  have least : 2 ^ 52 ≤ (m <<< 53) / n := by
    rw [Nat.le_div_iff_mul_le pos, Nat.shiftLeft_eq]
    omega
  have most : (m <<< 53) / n < 2 ^ 54 := by
    rw [Nat.div_lt_iff_lt_mul pos, Nat.shiftLeft_eq]
    omega
  by_cases less : (m <<< 53) / n < 2 ^ 53
  · exact ⟨0, (Nat.log2_eq_iff (by omega)).mpr ⟨least, less⟩, by omega, fun _ => rfl⟩
  · refine ⟨1, (Nat.log2_eq_iff (by omega)).mpr ⟨by omega, most⟩, by omega, fun smaller => ?_⟩
    rw [Nat.div_lt_iff_lt_mul pos, Nat.shiftLeft_eq] at less
    omega

theorem Normal.div (hf : Normal f m e) (hg : Normal g n d) (low : -1000 ≤ e - d) (high : e - d ≤ 1000) :
    ∃ (s : Nat) (m' : Nat) (e' : Int), Normal (UnpackedFloat.div Format.binary64 f g) m' e' ∧ s ≤ 1 ∧ (m < n → s = 0) ∧
      (e' = e - d - 53 + s ∨ m' = 2 ^ 52 ∧ e' = e - d - 53 + s + 1) := by
  obtain ⟨posM, rfl, logM, -, -⟩ := hf
  obtain ⟨posN, rfl, logN, -, -⟩ := hg
  obtain ⟨s, log, most, less⟩ := log2_quotient logM logN
  obtain ⟨m', e', normal, shape⟩ := normal_round (e := e - d - 53) log (by omega) (by omega)
    (accuracyOfFraction ((m <<< 53) % n) n)
  refine ⟨s, m', e', ?_, most, less, shape⟩
  simp only [UnpackedFloat.div, divCore_eq logM logN low]
  exact normal

theorem Normal.div_self (hf : Normal f m e) (hg : Normal g m e) :
    Normal (UnpackedFloat.div Format.binary64 f g) (2 ^ 52) (-52) := by
  obtain ⟨pos, rfl, log, -, -⟩ := hf
  obtain ⟨_, rfl, -, -, -⟩ := hg
  have quotient : (m <<< 53) / m = 2 ^ 52 <<< 1 := by
    rw [Nat.shiftLeft_eq, Nat.mul_div_cancel_left _ pos]
    rfl
  have remainder : (m <<< 53) % m = 0 := by
    rw [Nat.shiftLeft_eq, Nat.mul_mod_right]
  have exponent : e - e - 53 = -53 := by omega
  simp only [UnpackedFloat.div, divCore_eq log log (show -1000 ≤ e - e by omega), quotient, remainder, exponent]
  exact normal_round_exact (s := 1) Nat.log2_two_pow (by decide) (by decide)

theorem Normal.le_one (h : Normal f m e) (small : e < -52 ∨ e = -52 ∧ m = 2 ^ 52) :
    f.le (.finite .positive (2 ^ 52) (-52) (by decide)) = true := by
  obtain ⟨pos, rfl, -, -, -⟩ := h
  rw [UnpackedFloat.le, UnpackedFloat.compare]
  rcases small with less | ⟨rfl, rfl⟩
  · rw [Int.compare_eq_lt.mpr less]
    rfl
  · rfl

theorem mantissaOf_lt (less : k < n) (log : k.log2 = n.log2) : mantissaOf k < mantissaOf n := by
  rw [mantissaOf, mantissaOf, log, Nat.shiftLeft_eq, Nat.shiftLeft_eq]
  exact Nat.mul_lt_mul_of_pos_right less (Nat.two_pow_pos _)

theorem log2_mono (pos : 0 < k) (le : k ≤ n) : k.log2 ≤ n.log2 := by
  rw [Nat.le_log2 (by omega)]
  exact Nat.le_trans (Nat.log2_self_le (by omega)) le

/-- The quotient of a count and a larger one is rounded to one at most. -/
theorem Normal.div_le_one (hf : Normal f (mantissaOf k) (k.log2 - 52)) (hg : Normal g (mantissaOf n) (n.log2 - 52))
    (pos : 0 < k) (less : k < n) (small : n < 2 ^ 53) :
    ∃ m e, Normal (UnpackedFloat.div Format.binary64 f g) m e ∧ (e < -52 ∨ e = -52 ∧ m = 2 ^ 52) := by
  have mono := log2_mono pos (Nat.le_of_lt less)
  have bound := log2_le_52 (by omega) small
  obtain ⟨s, m, e, normal, most, smaller, shape⟩ := hf.div hg (by omega) (by omega)
  refine ⟨m, e, normal, ?_⟩
  rcases Nat.lt_or_eq_of_le mono with fewer | same
  · omega
  · have := smaller (mantissaOf_lt less same)
    omega

theorem ofNat_div_ofNat_le_one (le : k ≤ n) (pos : 0 < n) (small : n < 2 ^ 53) :
    Float.ofNat k / Float.ofNat n ≤ 1.0 := by
  have one : (1.0 : Float).toModel.unpack = .finite .positive (2 ^ 52) (-52) (by decide) := rfl
  have hn := normal_ofNat pos small
  apply decide_eq_true
  change (Float.Model.pack (UnpackedFloat.div Format.binary64 (Float.ofNat k).toModel.unpack
    (Float.ofNat n).toModel.unpack)).unpack.le (1.0 : Float).toModel.unpack = true
  rw [one]
  rcases Nat.eq_zero_or_pos k with rfl | posK
  · obtain ⟨_, eq, -, -, -⟩ := hn
    have zero : (Float.ofNat 0).toModel.unpack = .zero .positive := rfl
    have packed : (Float.Model.pack (.zero (.positive / .positive))).unpack = .zero .positive := rfl
    rw [zero, eq, UnpackedFloat.div, packed, UnpackedFloat.le, UnpackedFloat.compare]
    rfl
  · have hk := normal_ofNat posK (by omega)
    rcases Nat.lt_or_eq_of_le le with less | rfl
    · obtain ⟨m, e, normal, shape⟩ := hk.div_le_one hn posK less small
      exact normal.unpack_pack.le_one shape
    · exact (hk.div_self hn).unpack_pack.le_one (.inr ⟨rfl, rfl⟩)

end Quotient

end Binary64

theorem Matching.coverage_le_one {m : Matching} {leftSize rightSize : Nat} (le : m.score ≤ max leftSize rightSize)
    (small : max leftSize rightSize < 2 ^ 53) : m.coverage leftSize rightSize ≤ 1.0 := by
  rw [coverage]
  split
  · decide
  · exact Binary64.ofNat_div_ofNat_le_one le (by omega) small

end TreeAlign
