import Mathlib.Data.List.Forall2
import TreeAlign.Strategy.Dispatch

namespace TreeAlign

variable {ε σ α β : Type}

/-- A run ends with a `good` result or with a `bad` failure. -/
def Ends (run : EStateM ε σ α) (good : α → Prop) (bad : ε → Prop) : Prop :=
  ∀ s, match run s with
    | .ok a _ => good a
    | .error e _ => bad e

namespace Ends

variable {good : α → Prop} {bad : ε → Prop}

theorem of_pure {a : α} (h : good a) : Ends (pure a : EStateM ε σ α) good bad := fun _ => h

theorem bind {next : β → Prop} {run : EStateM ε σ α} {f : α → EStateM ε σ β} (first : Ends run good bad)
    (rest : ∀ a, good a → Ends (f a) next bad) : Ends (run >>= f) next bad := by
  intro s
  have ends := first s
  change match EStateM.bind run f s with
    | .ok b _ => next b
    | .error e _ => bad e
  rw [EStateM.bind.eq_def]
  cases eq : run s with
  | ok a s' =>
    rw [eq] at ends
    exact rest a ends s'
  | error e s' =>
    rw [eq] at ends
    exact ends

theorem imp {better : α → Prop} {worse : ε → Prop} {run : EStateM ε σ α} (h : Ends run good bad)
    (results : ∀ a, good a → better a) (failures : ∀ e, bad e → worse e) : Ends run better worse := by
  intro s
  have ends := h s
  cases eq : run s with
  | ok a s' =>
    rw [eq] at ends
    exact results a ends
  | error e s' =>
    rw [eq] at ends
    exact failures e ends

theorem and {good' : α → Prop} {bad' : ε → Prop} {run : EStateM ε σ α} (h : Ends run good bad) (h' : Ends run good' bad') :
    Ends run (fun a => good a ∧ good' a) fun e => bad e ∧ bad' e := by
  intro s
  have ends := h s
  have ends' := h' s
  cases eq : run s with
  | ok a s' =>
    rw [eq] at ends ends'
    exact ⟨ends, ends'⟩
  | error e s' =>
    rw [eq] at ends ends'
    exact ⟨ends, ends'⟩

theorem of_get : Ends (get : EStateM ε σ σ) (fun _ => True) bad := fun _ => trivial

theorem of_modify (f : σ → σ) : Ends (modify f : EStateM ε σ Unit) (fun _ => True) bad := fun _ => trivial

theorem ofExcept {x : Except ε α} (ok : ∀ a, x = .ok a → good a) (error : ∀ e, x = .error e → bad e) :
    Ends (MonadExcept.ofExcept x : EStateM ε σ α) good bad := by
  intro s
  cases x with
  | ok a => exact ok a rfl
  | error e => exact error e rfl

theorem tryCatch {caught : ε → Prop} {run : EStateM ε σ α} {handle : ε → EStateM ε σ α}
    (body : Ends run good caught) (handler : ∀ e, caught e → Ends (handle e) good bad) :
    Ends (MonadExcept.tryCatch run handle) good bad := by
  intro s
  have ends := body s
  change match EStateM.tryCatch run handle s with
    | .ok a _ => good a
    | .error e _ => bad e
  rw [EStateM.tryCatch.eq_def]
  cases eq : run s with
  | ok a s' =>
    rw [eq] at ends
    exact ends
  | error e s' =>
    rw [eq] at ends
    exact handler e ends _

theorem mapM {each : β → α → Prop} {f : β → EStateM ε σ α} {xs : List β} (h : ∀ x ∈ xs, Ends (f x) (each x) bad) :
    Ends (xs.mapM f) (List.Forall₂ each xs) bad := by
  induction xs with
  | nil => exact of_pure .nil
  | cons x xs ih =>
    rw [List.mapM_cons]
    refine (h x List.mem_cons_self).bind fun a head => ?_
    refine (ih fun y member => h y (List.mem_cons_of_mem _ member)).bind fun as tail => ?_
    exact of_pure (.cons head tail)

/-- Unless failures are ruled out, this is all that is known of a result. -/
theorem of_ok {run : EStateM ε σ α} (h : Ends run good bad) {s s' : σ} {a : α} (ok : run s = .ok a s') : good a := by
  have ends := h s
  rw [ok] at ends
  exact ends

theorem returns {run : EStateM ε σ α} (h : Ends run good fun _ => False) (s : σ) : ∃ a s', run s = .ok a s' ∧ good a := by
  have ends := h s
  cases eq : run s with
  | ok a s' =>
    rw [eq] at ends
    exact ⟨a, s', rfl, ends⟩
  | error e s' =>
    rw [eq] at ends
    exact ends.elim

end Ends

end TreeAlign
