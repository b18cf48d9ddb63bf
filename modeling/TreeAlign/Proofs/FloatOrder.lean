import Mathlib

namespace TreeAlign.FloatOrder

open Float.Model Float.Model.UnpackedFloat

/-- Where a number stands: its kind, then its exponent and its mantissa, both turned round below zero. -/
def rank? : UnpackedFloat → Option (ℤ ×ₗ ℤ ×ₗ ℤ)
  | .notANumber => none
  | .infinity .negative => some (toLex (-2, toLex (0, 0)))
  | .finite .negative m e _ => some (toLex (-1, toLex (-e, -(m : ℤ))))
  | .zero _ => some (toLex (0, toLex (0, 0)))
  | .finite .positive m e _ => some (toLex (1, toLex (e, (m : ℤ))))
  | .infinity .positive => some (toLex (2, toLex (0, 0)))

theorem then_eq_lt_iff (e d : ℤ) (m n : ℕ) : (compare e d).then (compare m n) = .lt ↔ e < d ∨ e = d ∧ m < n := by
  rw [Ordering.then_eq_lt]
  simp [compare_lt_iff_lt]

theorem then_eq_gt_iff (e d : ℤ) (m n : ℕ) : (compare e d).then (compare m n) = .gt ↔ d < e ∨ e = d ∧ n < m := by
  rw [Ordering.then_eq_gt]
  simp [compare_gt_iff_gt]

theorem compare_negative_positive : compare Sign.negative Sign.positive = .lt := rfl

theorem lt_iff_rank {a b : UnpackedFloat} : a.lt b = true ↔ ∃ x y, rank? a = some x ∧ rank? b = some y ∧ x < y := by
  unfold UnpackedFloat.lt
  -- Numbers of different kinds are told apart by the kind alone.
  rcases a with s | _ | s | ⟨s, m, e, _⟩ <;> try cases s
  all_goals rcases b with s | _ | s | ⟨s, n, d, _⟩ <;> try cases s
  all_goals simp [rank?, UnpackedFloat.compare, Prod.Lex.toLex_lt_toLex, then_eq_lt_iff, then_eq_gt_iff,
    compare_negative_positive]

theorem lt_iff {a b : Float32} :
    a < b ↔ ∃ x y, rank? a.toModel.unpack = some x ∧ rank? b.toModel.unpack = some y ∧ x < y := by
  rw [← lt_iff_rank]
  exact decide_eq_true_iff

theorem less_irrefl (a : Float32) : ¬a < a := by
  rw [lt_iff]
  rintro ⟨x, y, same, same', less⟩
  rw [same, Option.some_inj] at same'
  exact absurd less (same' ▸ lt_irrefl x)

theorem less_trans {a b c : Float32} (less : a < b) (more : b < c) : a < c := by
  obtain ⟨x, y, ha, hb, xy⟩ := lt_iff.mp less
  obtain ⟨y', z, hb', hc, yz⟩ := lt_iff.mp more
  rw [hb, Option.some_inj] at hb'
  exact lt_iff.mpr ⟨x, z, ha, hc, xy.trans (hb' ▸ yz)⟩

end TreeAlign.FloatOrder
