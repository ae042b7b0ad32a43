import LimLang.Proofs.Accord
import LimLang.Proofs.FrameLaw
import LimLang.Proofs.TwinRuns

/-! # Moments of a run

Programs are run in the global scope, one after another, but most of what happens in a run happens
elsewhere: in the scope that a call has made, after some of the statements of a body, with some of the
operands of an expression evaluated already.  A *moment* is any such point: a world, the scope in which
evaluation goes on, and the values at hand there.

From one moment to the next something is evaluated, and its value may be kept at hand, or a function at
hand is entered with arguments at hand.  At every moment the values at hand and the world hold data only;
the frames can be linked, the scope being one of their scopes; the world is paired with itself; and it is
in any accord with itself that the first world is in.
-/
namespace LimLang

variable {V : Vocabulary} {w : World} {scope : Scope} {held : List Value}

/-- **A moment of a run of well-formed programs.**  `held` are values that expressions have yielded. -/
inductive Moment (V : Vocabulary) : World → Scope → List Value → Prop
  | start {w : World} (h : w.Reachable V) : Moment V w World.globalScope []
  /-- Something has been evaluated, and what it yielded is let go. -/
  | ran {w w' : World} {scope : Scope} {held : List Value} {place : Place} {node : Node} {room : Room}
      {depth : Nat} (h : Moment V w scope held) (hn : node.Fits V place)
      (hend : (eval room depth node scope).EndsIn w w') : Moment V w' scope held
  /-- An expression has been evaluated, and its value is kept, which is no error. -/
  | kept {w w' : World} {scope : Scope} {held : List Value} {node : Node} {room : Room} {depth : Nat}
      {value : Value} (h : Moment V w scope held) (hn : node.Fits V .expression)
      (hrun : eval room depth node scope w = .ok value w') (hvalue : ∀ message, value ≠ .error message) :
      Moment V w' scope (value :: held)
  /-- A function is entered. -/
  | entered {w : World} {scope : Scope} {held arguments : List Value} {id : Nat} {closure : Closure}
      (h : Moment V w scope held) (hf : .function id closure ∈ held) (ha : arguments ⊆ held)
      (hlength : arguments.length = closure.parameters.length) :
      Moment V (w.entered closure arguments) (w.frames.size :: closure.scope) held

/-! ## Frames -/

/-- The scope of a call is linked as soon as the call has begun. -/
theorem World.Linked.scope_entered {links : Links} (h : w.Linked V links) (outer : Scope) :
    Scope.In (links ++ [outer]) (w.frames.size :: outer) := by
  show (links ++ [outer])[w.frames.size]? = some outer
  rw [← h.length_eq, List.getElem?_concat_length]

/-- **The frames of a moment can be linked**, and so can the values at hand. -/
theorem Moment.exists_linked (h : Moment V w scope held) :
    ∃ links, w.Linked V links ∧ scope.In links ∧ ∀ v ∈ held, v.Linked V links := by
  induction h with
  | start h =>
    obtain ⟨links, hw⟩ := h.exists_linked
    exact ⟨links, hw, hw.formed.globalScope_in, by simp⟩
  | @ran w w' scope held place node room depth _ hn hend ih =>
    obtain ⟨links, hw, hs, hheld⟩ := ih
    cases scope with
    | nil => exact hs.elim
    | cons id outer =>
      obtain ⟨links', hstep⟩ := (eval_respects room depth place node id outer links w hn hs hw).step hend
      have hp := hstep.prefix_links
      exact ⟨links', hstep.linked, hs.mono hp, fun v hv => (hheld v hv).mono hp⟩
  | @kept w w' scope held node room depth value _ hn hrun _ ih =>
    obtain ⟨links, hw, hs, hheld⟩ := ih
    cases scope with
    | nil => exact hs.elim
    | cons id outer =>
      have hrespects := eval_respects room depth .expression node id outer links w hn hs hw
      obtain ⟨links', hstep, hvalue⟩ := (Outcome.iff_of_ok hrun).1 hrespects
      have hp := hstep.prefix_links
      refine ⟨links', hstep.linked, hs.mono hp, ?_⟩
      exact List.forall_mem_cons.2 ⟨hvalue, fun v hv => (hheld v hv).mono hp⟩
  | @entered w scope held arguments id closure _ hf ha _ ih =>
    obtain ⟨links, hw, _, hheld⟩ := ih
    have hclosure := (hheld _ hf).closure
    refine ⟨_, hw.entered hclosure fun v hv => hheld v (ha hv), hw.scope_entered closure.scope, ?_⟩
    exact fun v hv => (hheld v hv).mono (List.prefix_append _ _)

/-! ## Data -/

/-- The value of an expression is data, if it is no error. -/
theorem Value.Sound.of_eval {node : Node} {room : Room} {depth : Nat} {value : Value} {w' : World}
    (hn : node.Fits V .expression) (hw : w.Sound V) (hrun : eval room depth node scope w = .ok value w')
    (hvalue : ∀ message, value ≠ .error message) : value.Sound V := by
  have hagree := eval_agrees room depth .expression node scope w hn hw
  rw [hrun] at hagree
  generalize direct room depth node scope w = r at hagree
  cases hagree with
  | value hv _ =>
    rcases hv with hv | ⟨hp, -⟩
    · exact hv
    · cases hp
  | fail _ => exact absurd rfl (hvalue _)
  | leave hp _ _ => cases hp

/-- **At every moment there is nothing but data.** -/
theorem Moment.sound (h : Moment V w scope held) : w.Sound V ∧ ∀ v ∈ held, v.Sound V := by
  induction h with
  | start h => exact ⟨h.sound, by simp⟩
  | @ran w w' scope held place node room depth _ hn hend ih =>
    refine ⟨?_, ih.2⟩
    have hagree := eval_agrees room depth place node scope w hn ih.1
    rcases hend with ⟨value, hrun⟩ | ⟨crash, hrun⟩
    · rw [hrun] at hagree
      exact hagree.sound_ok
    · rw [hrun] at hagree
      exact hagree.sound_error
  | @kept w w' scope held node room depth value _ hn hrun hvalue ih =>
    have hagree := eval_agrees room depth .expression node scope w hn ih.1
    rw [hrun] at hagree
    exact ⟨hagree.sound_ok, List.forall_mem_cons.2 ⟨.of_eval hn ih.1 hrun hvalue, ih.2⟩⟩
  | entered _ _ ha _ ih =>
    exact ⟨ih.1.enclosed.bindParameters fun v hv => ih.2 v (ha hv), ih.2⟩

/-! ## Pairs -/

/-- Two calls of one function begin alike. -/
theorem World.Paired.entered {p : Pairing} {w' : World} {arguments : List Value} {id : Nat}
    {closure : Closure} (h : World.Paired p w w')
    (hf : (Value.function id closure).Paired p (.function id closure))
    (ha : ∀ v ∈ arguments, v.Paired p v) :
    ∃ q, p.Within q ∧ World.Paired q (w.entered closure arguments) (w'.entered closure arguments) ∧
      Scope.Paired q (w.frames.size :: closure.scope) (w'.frames.size :: closure.scope) := by
  have hq := p.within_withFrames w.frames.size w'.frames.size
  cases hf with
  | function _ _ hparameters _ hscope =>
    have hs : Scope.Paired (p.withFrames w.frames.size w'.frames.size)
        (w.frames.size :: closure.scope) (w'.frames.size :: closure.scope) :=
      .cons List.mem_cons_self (hscope.mono hq)
    refine ⟨_, hq, ?_, hs⟩
    exact (h.enclosed closure.scope closure.scope).bindParameters hs
      (Ident.forall₂_of_sameAll hparameters) (Value.AllPaired.mono hq (List.forall₂_same.2 ha))

/-- **The world of a moment is paired with itself**, and so are the values at hand. -/
theorem Moment.exists_paired (h : Moment V w scope held) :
    ∃ p, World.Paired p w w ∧ Scope.Paired p scope scope ∧ ∀ v ∈ held, v.Paired p v := by
  induction h with
  | start h =>
    obtain ⟨p, hw, hs⟩ := h.exists_paired
    exact ⟨p, hw, hs, by simp⟩
  | @ran w w' scope held place node room depth _ hn hend ih =>
    obtain ⟨p, hw, hs, hheld⟩ := ih
    have hends := eval_lockstep room depth p place _ _ _ _ (hn.twins hn.same_self) hs _ _ hw
    rcases hend with ⟨value, hrun⟩ | ⟨crash, hrun⟩
    · rw [hrun] at hends
      cases hends with
      | ok hq _ hworlds _ => exact ⟨_, hworlds, hs.mono hq, fun v hv => (hheld v hv).mono hq⟩
    · rw [hrun] at hends
      cases hends with
      | crash hq hworlds _ => exact ⟨_, hworlds, hs.mono hq, fun v hv => (hheld v hv).mono hq⟩
  | @kept w w' scope held node room depth value _ hn hrun _ ih =>
    obtain ⟨p, hw, hs, hheld⟩ := ih
    have hends := eval_lockstep room depth p .expression _ _ _ _ (hn.twins hn.same_self) hs _ _ hw
    rw [hrun] at hends
    cases hends with
    | ok hq hvalue hworlds _ =>
      refine ⟨_, hworlds, hs.mono hq, ?_⟩
      exact List.forall_mem_cons.2 ⟨hvalue, fun v hv => (hheld v hv).mono hq⟩
  | entered _ hf ha _ ih =>
    obtain ⟨p, hw, _, hheld⟩ := ih
    obtain ⟨q, hq, hworlds, hscope⟩ := hw.entered (hheld _ hf) fun v hv => hheld v (ha hv)
    exact ⟨q, hworlds, hscope, fun v hv => (hheld v hv).mono hq⟩

/-! ## Accords -/

namespace Accord

/-- A world and a scope that something is known of. -/
def Covers (A : Accord) (w : World) (scope : Scope) (held : List Value) : Prop :=
  ∃ k, A.worlds k w w ∧ A.scope k scope ∧ ∀ v ∈ held, A.value k v

variable {A : Accord}

theorem Covers.subset {more : List Value} (h : A.Covers w scope more) (hsub : held ⊆ more) :
    A.Covers w scope held := by
  obtain ⟨k, hw, hs, hmore⟩ := h
  exact ⟨k, hw, hs, fun v hv => hmore v (hsub hv)⟩

/-- Entering a function leads to a world that is covered. -/
theorem Covers.entered {arguments : List Value} {id : Nat} {closure : Closure}
    (h : A.Covers w scope held) (hf : .function id closure ∈ held) (ha : arguments ⊆ held) :
    A.Covers (w.entered closure arguments) (w.frames.size :: closure.scope) held := by
  obtain ⟨k, hw, _, hheld⟩ := h
  obtain ⟨hc, hs⟩ := A.closure (hheld _ hf)
  obtain ⟨-, l, hl, hnew, hworlds, -, hb⟩ := A.enter hw hc hs
  refine ⟨l, ?_, hnew, fun v hv => A.value_mono hl (hheld v hv)⟩
  refine A.correspondence.worlds_bindParameters hworlds ⟨rfl, hnew⟩ rfl hb ?_
  exact List.forall₂_same.2 fun v hv => ⟨rfl, A.value_mono hl (hheld v (ha hv))⟩

section Speaks

variable (hA : A.Speaks V)
include hA

/-- Evaluation goes on to be covered, and so is its value. -/
theorem Covers.eval {place : Place} {node : Node} {w' : World} (h : A.Covers w scope held)
    (hn : node.Fits V place) {room : Room} {depth : Nat} :
    (∀ value, eval room depth node scope w = .ok value w' → A.Covers w' scope (value :: held)) ∧
      ∀ crash, eval room depth node scope w = .error crash w' → A.Covers w' scope held := by
  obtain ⟨k, hw, hs, hheld⟩ := h
  have hout := (hA.eval_keeps room depth hn hs).outcome hw
  refine ⟨fun value hrun => ?_, fun crash hrun => ?_⟩
  · obtain ⟨l, hl, hvalue, hworlds⟩ := (Outcome.iff_of_ok hrun).1 hout
    refine ⟨l, hworlds, A.scope_mono hl hs, ?_⟩
    exact List.forall_mem_cons.2 ⟨hvalue, fun v hv => A.value_mono hl (hheld v hv)⟩
  · obtain ⟨l, hl, -, hworlds⟩ := (Outcome.iff_of_error hrun).1 hout
    exact ⟨l, hworlds, A.scope_mono hl hs, fun v hv => A.value_mono hl (hheld v hv)⟩

theorem Covers.ran {place : Place} {node : Node} {w' : World} (h : A.Covers w scope held)
    (hn : node.Fits V place) {room : Room} {depth : Nat}
    (hend : (LimLang.eval room depth node scope).EndsIn w w') : A.Covers w' scope held := by
  rcases hend with ⟨value, hrun⟩ | ⟨crash, hrun⟩
  · exact ((h.eval hA hn).1 value hrun).subset (List.subset_cons_self _ _)
  · exact (h.eval hA hn).2 crash hrun

/-- A world that programs lead to is in accord with itself, if a new world is. -/
theorem covers_reachable (h₀ : A.Covers World.initial World.globalScope []) (h : w.Reachable V) :
    A.Covers w World.globalScope [] := by
  induction h with
  | initial => exact h₀
  | run _ hp hrun ih => exact ih.ran hA hp (.inl ⟨_, hrun⟩)
  | crash _ hp hrun ih => exact ih.ran hA hp (.inr ⟨_, hrun⟩)

/-- **The world of a moment is in accord with itself**, if a new world is. -/
theorem covers_moment (h₀ : A.Covers World.initial World.globalScope [])
    (h : Moment V w scope held) : A.Covers w scope held := by
  induction h with
  | start h => exact covers_reachable hA h₀ h
  | ran _ hn hend ih => exact ih.ran hA hn hend
  | kept _ hn hrun _ ih => exact (ih.eval hA hn).1 _ hrun
  | entered _ hf ha _ ih => exact ih.entered hf ha

end Speaks

end Accord

end LimLang
