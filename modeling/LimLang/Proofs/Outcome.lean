import Mathlib.Tactic.Common

/-! # Outcomes of stateful computations

Parsing and evaluation are computations on a state that end with a result or halt.  `Outcome x s ok
halt` says of the computation `x` started in state `s` that a result satisfies `ok` and a halt
satisfies `halt`, each together with the state it leaves.  A computation put together from steps is
taken apart by one rule for each way of putting steps together.
-/
namespace LimLang

variable {ε σ α β : Type}

/-- **What becomes of `x` started in `s`**: a result satisfies `ok`, a halt satisfies `halt`. -/
def Outcome (x : EStateM ε σ α) (s : σ) (ok : α → σ → Prop) (halt : ε → σ → Prop) : Prop :=
  match x s with
  | .ok a t => ok a t
  | .error e t => halt e t

/-- After a result, a computation goes on from there. -/
theorem bind_of_ok {x : EStateM ε σ α} {s t : σ} {a : α} (h : x s = .ok a t)
    (f : α → EStateM ε σ β) : (x >>= f) s = f a t := by
  show EStateM.bind x f s = _
  simp only [EStateM.bind, h]

theorem bind_of_error {x : EStateM ε σ α} {s t : σ} {e : ε} (h : x s = .error e t)
    (f : α → EStateM ε σ β) : (x >>= f) s = .error e t := by
  show EStateM.bind x f s = _
  simp only [EStateM.bind, h]

theorem bind_get (f : σ → EStateM ε σ β) (s : σ) : (get >>= f) s = f s s := rfl

theorem bind_modify (f : σ → σ) (g : PUnit → EStateM ε σ β) (s : σ) :
    (modify f >>= g) s = g ⟨⟩ (f s) := rfl

namespace Outcome

variable {x : EStateM ε σ α} {s t : σ} {ok ok' : α → σ → Prop} {halt halt' : ε → σ → Prop}

theorem iff_of_ok {a : α} (h : x s = .ok a t) : Outcome x s ok halt ↔ ok a t := by
  simp only [Outcome, h]

theorem iff_of_error {e : ε} (h : x s = .error e t) : Outcome x s ok halt ↔ halt e t := by
  simp only [Outcome, h]

/-- The outcome of a computation that has one result. -/
theorem run_iff {a : α} :
    Outcome x s (fun b u => b = a ∧ u = t) (fun _ _ => False) ↔ x s = .ok a t := by
  unfold Outcome
  split <;> simp_all

/-- An outcome may be described by less. -/
theorem mono (h : Outcome x s ok halt) (hok : ∀ a t, ok a t → ok' a t)
    (hhalt : ∀ e t, halt e t → halt' e t) : Outcome x s ok' halt' := by
  unfold Outcome at *
  split at h
  · exact hok _ _ h
  · exact hhalt _ _ h

/-- A computation that never halts has a result. -/
theorem exists_ok (h : Outcome x s ok fun _ _ => False) : ∃ a t, x s = .ok a t ∧ ok a t := by
  unfold Outcome at h
  split at h
  · exact ⟨_, _, ‹_›, h⟩
  · exact h.elim

@[simp] theorem pure_iff {a : α} : Outcome (pure a) s ok halt ↔ ok a s := Iff.rfl

@[simp] theorem throw_iff {e : ε} :
    Outcome (throw e : EStateM ε σ α) s ok halt ↔ halt e s := Iff.rfl

@[simp] theorem get_iff {ok : σ → σ → Prop} :
    Outcome (get : EStateM ε σ σ) s ok halt ↔ ok s s := Iff.rfl

@[simp] theorem modify_iff {f : σ → σ} {ok : PUnit → σ → Prop} :
    Outcome (modify f : EStateM ε σ PUnit) s ok halt ↔ ok ⟨⟩ (f s) := Iff.rfl

@[simp] theorem bind_iff {f : α → EStateM ε σ β} {ok : β → σ → Prop} :
    Outcome (x >>= f) s ok halt ↔ Outcome x s (fun a t => Outcome (f a) t ok halt) halt := by
  show Outcome (EStateM.bind x f) s ok halt ↔ _
  unfold Outcome EStateM.bind
  cases x s <;> rfl

end Outcome

end LimLang
