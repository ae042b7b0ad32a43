import LimLang.Proofs.Accord

/-! # Evaluation only adds to the output

What was written before an evaluation is of no consequence to it: it does the same, and what it
writes comes after what was there (`eval_appends`).  A world and the same world with more written before
are in accord (`appending`), whatever is evaluated.  So what a program writes can be told by evaluating it
in a world in which nothing has been written.
-/
namespace LimLang

open EStateM (Result)

/-- The world in which `text` was written before everything else. -/
def World.preceded (text : String) (w : World) : World :=
  { w with output := text ++ w.output }

namespace World

theorem preceded_bind (text : String) (w : World) (scope : Scope) (name : String) (value : Value) :
    (w.preceded text).bind scope name value = (w.bind scope name value).preceded text := by
  cases scope <;> rfl

theorem preceded_lookup? (text : String) (w : World) (scope : Scope) (name : String) :
    (w.preceded text).lookup? scope name = w.lookup? scope name := by
  induction scope with
  | nil => rfl
  | cons id outer ih =>
    unfold lookup?
    rw [ih]
    rfl

end World

namespace Eval

variable {α : Type}

/-- How an evaluation ends if `text` was written before everything else. -/
def preceded (text : String) : Result Crash World α → Result Crash World α
  | .ok a w => .ok a (w.preceded text)
  | .error crash w => .error crash (w.preceded text)

/-- **What was written before makes no difference to `x`.** -/
def Appends (x : Eval α) : Prop :=
  ∀ (text : String) (w : World), x (w.preceded text) = preceded text (x w)

end Eval

/-- **A world and the same with `text` written before everything else** are in accord. -/
def appending (text : String) : Accord where
  Known := Unit
  le _ _ := True
  worlds _ w w' := w' = w.preceded text
  value _ _ := True
  scope _ _ := True
  code _ := True
  tree _ _ := True
  reads _ := True
  binds _ _ := True
  halts _ := True
  le_refl _ := trivial
  le_trans _ _ := trivial
  value_mono _ _ := trivial
  scope_mono _ _ := trivial
  fault _ := trivial
  plain _ := trivial
  wrapped _ := trivial
  builtin _ _ := trivial
  length _ _ := trivial
  element _ _ _ := trivial
  content _ := trivial
  closure _ := ⟨trivial, trivial⟩
  make := by
    rintro _ w _ made rfl _
    exact ⟨rfl, (), trivial, trivial, rfl⟩
  lookup := by
    rintro _ w _ s n rfl _ _
    exact ⟨w.preceded_lookup? text s n, fun _ _ => trivial⟩
  bind := by
    rintro _ w _ s n v rfl _ _ _
    exact w.preceded_bind text s n v
  enter := by
    rintro _ w _ c rfl _ _
    exact ⟨rfl, (), trivial, trivial, rfl, trivial, fun _ _ => trivial⟩
  write := by
    rintro _ w _ written rfl
    simp only [World.write, World.preceded, String.append_assoc]

/-- **Evaluation only adds to the output.** -/
theorem eval_appends (room : Room) (depth : Nat) (node : Node) (scope : Scope) :
    Eval.Appends (eval room depth node scope) := by
  intro text w
  have hall : ∀ s node, True → (appending text).Allows (fun _ => True) s node := fun s node _ =>
    ⟨fun _ _ => trivial, fun _ _ => trivial, fun _ => trivial, fun _ _ => trivial, fun _ => trivial⟩
  have hkept := Accord.eval_keeps (A := appending text) trivial hall room depth () node scope trivial
    trivial w (w.preceded text) rfl
  generalize eval room depth node scope w = r at hkept
  generalize eval room depth node scope (w.preceded text) = r' at hkept
  cases hkept with
  | ok _ hvalue hworlds =>
    obtain ⟨rfl, -⟩ := hvalue
    exact congrArg (Result.ok _) hworlds
  | crash _ _ hworlds => exact congrArg (Result.error _) hworlds

end LimLang
