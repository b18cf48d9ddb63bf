import TreeAlign.Cover.Search

namespace TreeAlign.Sampling

variable {α β : Type}

theorem bind_apply (step : Sampling α) (f : α → Sampling β) (walk : Walk) : (step >>= f) walk = match step walk with
    | none => none
    | some (.error failure) => some (.error failure)
    | some (.ok (a, walk)) => f a walk := by
  change Option.bind (step walk) _ = _
  rcases step walk with _ | _ | _ <;> rfl

/-- From where `inv` holds, a step that ends gives a `good` result and keeps `inv`, or it fails with a `bad` failure. -/
def Keeps (inv : Walk → Prop) (step : Sampling α) (good : α → Prop) (bad : Failure → Prop) : Prop :=
  ∀ walk, inv walk → match step walk with
    | none => True
    | some (.error failure) => bad failure
    | some (.ok (a, next)) => good a ∧ inv next

def Sourceless (inv : Walk → Prop) : Prop :=
  ∀ walk source, inv walk → inv { walk with source }

namespace Keeps

variable {inv : Walk → Prop} {good : α → Prop} {bad : Failure → Prop} {step : Sampling α}

theorem ok (h : Keeps inv step good bad) {walk next : Walk} {a : α} (holds : inv walk)
    (ended : step walk = some (.ok (a, next))) : good a ∧ inv next := by
  have keeps := h walk holds
  rw [ended] at keeps
  exact keeps

theorem of_pure {a : α} (h : good a) : Keeps inv (pure a) good bad := fun _ holds => ⟨h, holds⟩

theorem of_throw {failure : Failure} (h : bad failure) : Keeps inv (throw failure : Sampling α) good bad := fun _ _ => h

theorem of_draw (sourceless : Sourceless inv) {f : Random → α × Random} (h : ∀ source, good (f source).1) :
    Keeps inv (draw f) good bad :=
  fun walk holds => ⟨h walk.source, sourceless walk _ holds⟩

theorem of_remember {f : Recall α}
    (h : ∀ walk, inv walk → good (f walk.memo).1 ∧ inv { walk with memo := (f walk.memo).2 }) :
    Keeps inv (remember f) good bad := h

theorem of_drawUntil (sourceless : Sourceless inv) {f : Random → Option (α × Random)}
    (h : ∀ source a next, f source = some (a, next) → good a) : Keeps inv (drawUntil f) good bad := by
  intro walk holds
  unfold drawUntil
  cases eq : f walk.source with
  | none => trivial
  | some drawn => exact ⟨h _ _ _ eq, sourceless walk _ holds⟩

theorem bind {next : β → Prop} {f : α → Sampling β} (first : Keeps inv step good bad)
    (rest : ∀ a, good a → Keeps inv (f a) next bad) : Keeps inv (step >>= f) next bad := by
  intro walk holds
  have keeps := first walk holds
  rw [bind_apply]
  rcases eq : step walk with _ | failure | ⟨a, walk'⟩
  · trivial
  · rw [eq] at keeps
    exact keeps
  · rw [eq] at keeps
    exact rest a keeps.1 walk' keeps.2

end Keeps

def Stops (step : Sampling α) (good : α → Prop) (bad : Failure → Prop) : Prop :=
  ∀ walk, match step walk with
    | none => True
    | some (.error failure) => bad failure
    | some (.ok (a, _)) => good a

theorem stops_iff_keeps {step : Sampling α} {good : α → Prop} {bad : Failure → Prop} :
    Stops step good bad ↔ Keeps (fun _ => True) step good bad := by
  apply forall_congr'
  intro walk
  rcases step walk with _ | failure | ⟨a, walk'⟩ <;> simp

namespace Stops

variable {good : α → Prop} {bad : Failure → Prop} {step : Sampling α}

theorem of_pure {a : α} (h : good a) : Stops (pure a) good bad := fun _ => h

theorem of_throw {failure : Failure} (h : bad failure) : Stops (throw failure : Sampling α) good bad := fun _ => h

theorem of_draw {f : Random → α × Random} (h : ∀ source, good (f source).1) : Stops (draw f) good bad :=
  fun walk => h walk.source

theorem draw_any (f : Random → α × Random) : Stops (draw f) (fun _ => True) bad := fun _ => trivial

theorem of_remember {f : Recall α} (h : ∀ memo, good (f memo).1) : Stops (remember f) good bad :=
  fun walk => h walk.memo

theorem of_drawUntil {f : Random → Option (α × Random)} (h : ∀ source a next, f source = some (a, next) → good a) :
    Stops (drawUntil f) good bad :=
  stops_iff_keeps.mpr (.of_drawUntil (fun _ _ _ => trivial) h)

theorem bind {next : β → Prop} {f : α → Sampling β} (first : Stops step good bad) (rest : ∀ a, good a → Stops (f a) next bad) :
    Stops (step >>= f) next bad :=
  stops_iff_keeps.mpr ((stops_iff_keeps.mp first).bind fun a found => stops_iff_keeps.mp (rest a found))

theorem imp {better : α → Prop} {worse : Failure → Prop} (h : Stops step good bad) (results : ∀ a, good a → better a)
    (failures : ∀ e, bad e → worse e) : Stops step better worse := by
  intro walk
  have stops := h walk
  rcases eq : step walk with _ | failure | ⟨a, walk'⟩
  · trivial
  · rw [eq] at stops
    exact failures failure stops
  · rw [eq] at stops
    exact results a stops

end Stops

/-- A step that does not go on drawing for ever. -/
def Halts (step : Sampling α) : Prop :=
  ∀ walk, step walk ≠ none

namespace Halts

theorem of_pure (a : α) : Halts (pure a) := nofun

theorem of_throw (failure : Failure) : Halts (throw failure : Sampling α) := nofun

theorem of_draw (f : Random → α × Random) : Halts (draw f) := nofun

theorem of_remember (f : Recall α) : Halts (remember f) := nofun

theorem of_drawUntil {f : Random → Option (α × Random)} (h : ∀ source, f source ≠ none) : Halts (drawUntil f) := by
  intro walk
  unfold drawUntil
  cases eq : f walk.source with
  | none => exact absurd eq (h walk.source)
  | some drawn => nofun

theorem bind {step : Sampling α} {f : α → Sampling β} (first : Halts step) (rest : ∀ a, Halts (f a)) :
    Halts (step >>= f) := by
  intro walk
  rw [bind_apply]
  rcases eq : step walk with _ | failure | ⟨a, walk'⟩
  · exact absurd eq (first walk)
  · nofun
  · exact rest a walk'

end Halts

end TreeAlign.Sampling
