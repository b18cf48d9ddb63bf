import Mathlib.Data.Fintype.Card
import Mathlib.Dynamics.PeriodicPts.Lemmas
import TreeAlign.Random

namespace TreeAlign.Random

open Function

section Shifts

variable {width amount : Nat} {x : BitVec width}

theorem eq_zero_of_shiftRight_eq (positive : 0 < amount) (same : x >>> amount = x) : x = 0 := by
  have divided := congrArg BitVec.toNat same
  rw [BitVec.toNat_ushiftRight, Nat.shiftRight_eq_div_pow] at divided
  apply BitVec.eq_of_toNat_eq
  rcases Nat.eq_zero_or_pos x.toNat with zero | some
  · simpa using zero
  · have less := Nat.div_lt_self some (Nat.one_lt_two_pow positive.ne')
    omega

theorem eq_zero_of_shiftLeft_eq (positive : 0 < amount) (same : x <<< amount = x) : x = 0 := by
  -- A bit is the one that stands `amount` places below it, and the lowest have none below.
  have clear (i : Nat) : x.getLsbD i = false := by
    induction i using Nat.strongRecOn with
    | ind i ih =>
      rw [← same, BitVec.getLsbD_shiftLeft]
      by_cases low : i < amount
      · simp [low]
      · simp [ih (i - amount) (by omega)]
  apply BitVec.eq_of_getLsbD_eq
  intro i _
  simp [clear i]

theorem injective_xor_shift {shift : BitVec width → BitVec width} (linear : ∀ x y, shift (x ^^^ y) = shift x ^^^ shift y)
    (fixed : ∀ x, shift x = x → x = 0) : Injective fun x => x ^^^ shift x := by
  intro x y same
  have same : x ^^^ shift x = y ^^^ shift y := same
  have difference : shift (x ^^^ y) = x ^^^ y := by
    rw [linear, ← BitVec.xor_eq_zero_iff]
    calc shift x ^^^ shift y ^^^ (x ^^^ y)
        = (x ^^^ shift x) ^^^ (y ^^^ shift y) := by ac_rfl
      _ = BitVec.zero width := BitVec.xor_eq_zero_iff.mpr same
  exact BitVec.xor_eq_zero_iff.mp (fixed _ difference)

theorem injective_xor_shiftRight (positive : 0 < amount) : Injective fun x : BitVec width => x ^^^ (x >>> amount) :=
  injective_xor_shift (fun x y => BitVec.ushiftRight_xor_distrib x y amount) fun _ => eq_zero_of_shiftRight_eq positive

theorem injective_xor_shiftLeft (positive : 0 < amount) : Injective fun x : BitVec width => x ^^^ (x <<< amount) :=
  injective_xor_shift (fun x y => BitVec.shiftLeft_xor_distrib x y amount) fun _ => eq_zero_of_shiftLeft_eq positive

end Shifts

section Word

theorem injective_advance : Injective advance := by
  intro x y same
  have first : Injective fun word : BitVec 64 => word ^^^ (word >>> 12) := injective_xor_shiftRight (by decide)
  have second : Injective fun word : BitVec 64 => word ^^^ (word <<< 25) := injective_xor_shiftLeft (by decide)
  have third : Injective fun word : BitVec 64 => word ^^^ (word >>> 27) := injective_xor_shiftRight (by decide)
  have words := congrArg UInt64.toBitVec same
  exact UInt64.toBitVec_inj.mp (first (second (third words)))

theorem injective_mul_multiplier : Injective (· * multiplier) := by
  have inverse : multiplier * 0x59071d96d81ecd35 = 1 := by decide
  intro x y same
  have products := congrArg (· * (0x59071d96d81ecd35 : UInt64)) same
  simpa only [UInt64.mul_assoc, inverse, UInt64.mul_one] using products

theorem injective_state : Injective state := by
  rintro ⟨x⟩ ⟨y⟩ rfl
  rfl

theorem injective_next_source : Injective fun source : Random => source.next.2 := by
  intro a b same
  exact injective_state (injective_advance (congrArg state same))

theorem injective_next_word : Injective fun source : Random => source.next.1 := by
  intro a b same
  exact injective_state (injective_advance (injective_mul_multiplier same))

theorem next_word_eq_zero_iff {source : Random} : source.next.1 = 0 ↔ source.state = 0 := by
  have zero : (Random.mk 0).next.1 = 0 := by decide
  exact (injective_next_word.eq_iff' zero).trans injective_state.eq_iff.symm

theorem next_state_eq_zero_iff {source : Random} : source.next.2.state = 0 ↔ source.state = 0 := by
  have zero : (Random.mk 0).next.2.state = 0 := by decide
  exact ((injective_state.comp injective_next_source).eq_iff' zero).trans injective_state.eq_iff.symm

theorem ofSeed_state_ne_zero (seed : UInt64) : (ofSeed seed).state ≠ 0 := by
  unfold ofSeed
  split
  · decide
  · assumption

end Word

def after (n : Nat) (source : Random) : Random :=
  (fun source : Random => source.next.2)^[n] source

theorem after_add (m n : Nat) (source : Random) : after (m + n) source = after m (after n source) :=
  iterate_add_apply _ m n source

theorem injective_after (n : Nat) : Injective (after n) := injective_next_source.iterate n

theorem after_state_ne_zero {source : Random} (some : source.state ≠ 0) (n : Nat) : (after n source).state ≠ 0 := by
  induction n generalizing source with
  | zero => exact some
  | succ n ih => exact ih (mt next_state_eq_zero_iff.mp some)

theorem injective_toFin : Injective fun source : Random => source.state.toFin :=
  fun _ _ same => injective_state (UInt64.toFin_inj.mp same)

theorem le_stateCount {k : Nat} {sources : Fin k → Random} (distinct : Injective sources) : k ≤ stateCount := by
  have embedded := Fintype.card_le_of_injective _ (injective_toFin.comp distinct)
  rwa [Fintype.card_fin, Fintype.card_fin] at embedded

/-- The states that come after more words than there are states have all come before. -/
theorem after_eq_after_lt (n : Nat) (source : Random) : ∃ k < stateCount, after n source = after k source := by
  let _ : Fintype Random := .ofInjective _ injective_toFin
  have counted : Fintype.card Random ≤ stateCount := le_stateCount (Fintype.equivFin Random).symm.injective
  let period := minimalPeriod (fun source : Random => source.next.2) source
  have positive : 0 < period := minimalPeriod_pos_of_mem_periodicPts (injective_next_source.mem_periodicPts source)
  refine ⟨n % period, ?_, iterate_mod_minimalPeriod_eq.symm⟩
  exact (Nat.mod_lt n positive).trans_le (minimalPeriod_le_card.trans counted)

section Geometric

variable {p : Float}

theorem geometricFrom_eq_some {trials failures count : Nat} {source source' : Random}
    (drawn : geometricFrom p trials failures source = some (count, source')) : ∃ n, source' = after n source := by
  induction trials generalizing failures source with
  | zero => cases drawn
  | succ trials ih =>
    unfold geometricFrom at drawn
    simp only at drawn
    split at drawn
    · cases drawn
      exact ⟨1, rfl⟩
    · obtain ⟨n, rfl⟩ := ih drawn
      exact ⟨n + 1, rfl⟩

theorem geometricFrom_eq_none_iff {trials failures : Nat} {source : Random} :
    geometricFrom p trials failures source = none ↔ ∀ n < trials, ((after n source).chance p).1 = false := by
  induction trials generalizing failures source with
  | zero => simp [geometricFrom]
  | succ trials ih =>
    rw [Nat.forall_lt_succ_left']
    unfold geometricFrom
    cases first : (source.chance p).1 with
    | true => simp [first, after]
    | false =>
      simp only [first, Bool.false_eq_true, if_false, ih]
      exact (and_iff_right first).symm

theorem geometric_eq_none_iff {source : Random} :
    source.geometric p = none ↔ ¬ p ≥ 1.0 ∧ ∀ n, ((after n source).chance p).1 = false := by
  unfold geometric
  split
  · simp [*]
  · rename_i less
    rw [geometricFrom_eq_none_iff, and_iff_right less]
    refine ⟨fun fails n => ?_, fun fails n _ => fails n⟩
    obtain ⟨k, known, same⟩ := after_eq_after_lt n source
    rw [same]
    exact fails k known

end Geometric

/-- What can be asked of a source. -/
inductive Draw : Type 1 where
  | word
  | unit
  | unit32
  | below (bound : Nat)
  | chance (p : Float)
  | shuffle {α : Type} (items : List α)
  | geometric (p : Float)

def Draw.source? : Draw → Random → Option Random
  | .word, source => some source.next.2
  | .unit, source => some source.unit.2
  | .unit32, source => some source.unit32.2
  | .below bound, source => some (source.below bound).2
  | .chance p, source => some (source.chance p).2
  | .shuffle items, source => some (source.shuffle items).2
  | .geometric p, source => (source.geometric p).map Prod.snd

def drawAll? (draws : List Draw) (source : Random) : Option Random :=
  draws.foldlM (fun source draw => draw.source? source) source

theorem below_source (bound : Nat) (source : Random) : ∃ n, (source.below bound).2 = after n source := by
  unfold below
  split
  · exact ⟨0, rfl⟩
  · exact ⟨1, rfl⟩

theorem shuffleFrom_source {α : Type} (i : Nat) (items : Array α) (source : Random) :
    (shuffleFrom i items source).2 = after i source := by
  induction i generalizing items source with
  | zero => rfl
  | succ i ih => exact ih _ _

theorem Draw.source?_eq_some {draw : Draw} {source source' : Random} (drawn : draw.source? source = some source') :
    ∃ n, source' = after n source := by
  cases draw with
  | word => exact ⟨1, (Option.some.inj drawn).symm⟩
  | unit => exact ⟨1, (Option.some.inj drawn).symm⟩
  | unit32 => exact ⟨1, (Option.some.inj drawn).symm⟩
  | below bound =>
    obtain ⟨n, same⟩ := below_source bound source
    exact ⟨n, (Option.some.inj drawn).symm.trans same⟩
  | chance p => exact ⟨1, (Option.some.inj drawn).symm⟩
  | shuffle items => exact ⟨_, (Option.some.inj drawn).symm.trans (shuffleFrom_source _ _ _)⟩
  | geometric p =>
    obtain ⟨⟨count, next⟩, found, rfl⟩ := Option.map_eq_some_iff.mp drawn
    unfold Random.geometric at found
    split at found
    · cases found
      exact ⟨0, rfl⟩
    · exact geometricFrom_eq_some found

theorem drawAll?_eq_some {draws : List Draw} {source source' : Random} (drawn : drawAll? draws source = some source') :
    ∃ n, source' = after n source := by
  induction draws generalizing source with
  | nil => exact ⟨0, (Option.some.inj drawn).symm⟩
  | cons draw draws ih =>
    obtain ⟨next, first, rest⟩ := Option.bind_eq_some_iff.mp drawn
    obtain ⟨m, rfl⟩ := Draw.source?_eq_some first
    obtain ⟨n, rfl⟩ := ih rest
    exact ⟨n + m, (after_add n m source).symm⟩

theorem Draw.source?_eq_none {draw : Draw} {source : Random} (endless : draw.source? source = none) :
    ∃ p, draw = .geometric p ∧ ¬ p ≥ 1.0 ∧ ∀ n, ((after n source).chance p).1 = false := by
  cases draw with
  | geometric p => exact ⟨p, rfl, geometric_eq_none_iff.mp (Option.map_eq_none_iff.mp endless)⟩
  | word | unit | unit32 | below | chance | shuffle => cases endless

theorem drawAll?_eq_none {draws : List Draw} {source : Random} (endless : drawAll? draws source = none) :
    ∃ p m, Draw.geometric p ∈ draws ∧ ¬ p ≥ 1.0 ∧ ∀ n, ((after (n + m) source).chance p).1 = false := by
  induction draws generalizing source with
  | nil => cases endless
  | cons draw draws ih =>
    cases first : draw.source? source with
    | none =>
      obtain ⟨p, rfl, less, fails⟩ := Draw.source?_eq_none first
      exact ⟨p, 0, .head _, less, fails⟩
    | some next =>
      obtain ⟨k, rfl⟩ := Draw.source?_eq_some first
      have rest : drawAll? draws (after k source) = none := by
        rwa [drawAll?, List.foldlM_cons, first] at endless
      obtain ⟨p, m, member, less, fails⟩ := ih rest
      refine ⟨p, m + k, .tail _ member, less, fun n => ?_⟩
      rw [← Nat.add_assoc, after_add]
      exact fails n

/-- Whatever is drawn from a source made from a seed, it moves along one sequence of states, none of which is zero or
gives the word zero, to the end of the draws or for ever through the trials of a draw that none of them ends. A word takes
different states to different states and gives different words for them, and so does any number of words. -/
theorem draws_nondegenerate (seed : UInt64) :
    (∀ draws, match drawAll? draws (ofSeed seed) with
      | none => ∃ p m, Draw.geometric p ∈ draws ∧ ¬ p ≥ 1.0 ∧ ∀ n, ((after (n + m) (ofSeed seed)).chance p).1 = false
      | some source => source.state ≠ 0 ∧ source.next.1 ≠ 0 ∧ ∃ n, source = after n (ofSeed seed)) ∧
    (∀ n, (after n (ofSeed seed)).state ≠ 0 ∧ (after n (ofSeed seed)).next.1 ≠ 0) ∧
    (Injective fun source : Random => source.next.2) ∧ (Injective fun source : Random => source.next.1) ∧
    ∀ n, Injective (after n) := by
  have sound (n : Nat) : (after n (ofSeed seed)).state ≠ 0 ∧ (after n (ofSeed seed)).next.1 ≠ 0 := by
    have some := after_state_ne_zero (ofSeed_state_ne_zero seed) n
    exact ⟨some, mt next_word_eq_zero_iff.mp some⟩
  refine ⟨fun draws => ?_, sound, injective_next_source, injective_next_word, injective_after⟩
  split
  · rename_i endless
    exact drawAll?_eq_none endless
  · rename_i drawn
    obtain ⟨n, rfl⟩ := drawAll?_eq_some drawn
    exact ⟨(sound n).1, (sound n).2, n, rfl⟩

theorem draws_nondegenerate_zero : ∃ source,
    drawAll? [.word, .unit, .unit32, .below 5, .chance 0.5, .shuffle ["a", "b", "c"], .geometric 0.5] (ofSeed 0) =
      some source ∧ source.state ≠ 0 ∧ source.next.1 ≠ 0 := by
  obtain ⟨source, drawn⟩ : ∃ source, drawAll? [.word, .unit, .unit32, .below 5, .chance 0.5, .shuffle ["a", "b", "c"],
    .geometric 0.5] (ofSeed 0) = some source := ⟨_, rfl⟩
  have sound := (draws_nondegenerate 0).1 [.word, .unit, .unit32, .below 5, .chance 0.5, .shuffle ["a", "b", "c"],
    .geometric 0.5]
  rw [drawn] at sound
  exact ⟨source, drawn, sound.1, sound.2.1⟩

end TreeAlign.Random
