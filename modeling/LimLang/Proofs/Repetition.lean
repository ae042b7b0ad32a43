import LimLang.Proofs.Moments

/-! # Expressions are repeatable

An expression can be evaluated again where it has just been evaluated.  The second evaluation makes new
arrays, new functions and new frames, so its value need not be identical with the first.  But it starts
from the same bindings, since an expression changes none, and what it makes is told apart just as before.
So it comes to an end again, writes the same text again, and its value is shown in the same way.
-/
namespace LimLang

variable {V : Vocabulary} {w w₁ : World} {scope : Scope} {held : List Value} {e : Node}

/-- A world in which no frame has been changed since `w` is paired with `w` as `w` is with itself. -/
theorem World.Paired.later {p q : Pairing} (h : World.Paired p w w) (hq : p.Within q)
    (h₁ : World.Paired q w₁ w₁) (hframe : ∀ id < w.frames.size, w₁.frame id = w.frame id) :
    World.Paired p w w₁ where
  ids_oneToOne := h.ids_oneToOne
  frames_oneToOne := h.frames_oneToOne
  ids_lt pair hpair := ⟨(h.ids_lt pair hpair).1, (h₁.ids_lt pair (hq.ids pair hpair)).2⟩
  frames_lt pair hpair := ⟨(h.frames_lt pair hpair).1, (h₁.frames_lt pair (hq.frames pair hpair)).2⟩
  frame pair hpair := by
    rw [hframe pair.2 (h.frames_lt pair hpair).2]
    exact h.frame pair hpair

/-- At no moment does an expression change a frame. -/
theorem Moment.frame_eq (h : Moment V w scope held) (he : e.Fits V .expression) {room : Room}
    {depth : Nat} (hend : (eval room depth e scope).EndsIn w w₁) :
    ∀ id < w.frames.size, w₁.frame id = w.frame id := by
  obtain ⟨links, hw, hs, -⟩ := h.exists_linked
  cases scope with
  | nil => exact hs.elim
  | cons id outer =>
    obtain ⟨links', hstep⟩ := ((eval_respects room depth).expression he hs hw).step hend
    exact hstep.untouched.1

/-- **The world after an expression is paired with the world before it.** -/
theorem Moment.exists_paired_later (h : Moment V w scope held) (he : e.Fits V .expression) {room : Room}
    {depth : Nat} (hend : (eval room depth e scope).EndsIn w w₁) :
    ∃ p, World.Paired p w w₁ ∧ Scope.Paired p scope scope := by
  obtain ⟨p, hw, hs, -⟩ := h.exists_paired
  have hframe := h.frame_eq he hend
  have hends := eval_lockstep room depth p .expression _ _ _ _ (he.twins he.same_self) hs _ _ hw
  rcases hend with ⟨value, hrun⟩ | ⟨crash, hrun⟩
  · rw [hrun] at hends
    cases hends with
    | ok hq _ hworlds _ => exact ⟨p, hw.later hq hworlds hframe, hs⟩
  · rw [hrun] at hends
    cases hends with
    | crash hq hworlds _ => exact ⟨p, hw.later hq hworlds hframe, hs⟩

/-- **Expressions are repeatable.**  If an expression has a value at some moment, in whatever scope, then
it has a value again right afterwards, within the same limits.  Evaluating it writes the same text as
before, and the value has the same type and the same written form; if one is an error, the other is the
same error. -/
theorem eval_repeatable (h : Moment V w scope held) (he : e.Fits V .expression) (room : Room)
    (depth : Nat) {v : Value} (hrun : eval room depth e scope w = .ok v w₁) :
    ∃ (v' : Value) (w₂ : World) (text : String), eval room depth e scope w₁ = .ok v' w₂ ∧
      w₁.output = w.output ++ text ∧ w₂.output = w₁.output ++ text ∧
      v'.type? = v.type? ∧ v'.inspect = v.inspect ∧ ∀ message, v' = .error message ↔ v = .error message := by
  obtain ⟨p, hw, hs⟩ := h.exists_paired_later he (.inl ⟨v, hrun⟩)
  have hends := eval_lockstep room depth p .expression _ _ _ _ (he.twins he.same_self) hs _ _ hw
  rw [hrun] at hends
  generalize hrun' : eval room depth e scope w₁ = r at hends
  cases hends with
  | @ok q _ v' _ w₂ hq hv hworlds hwrote =>
    obtain ⟨text, htext, htext'⟩ := hwrote
    refine ⟨v', w₂, text, rfl, htext, htext', hv.type?_eq.symm, hv.indistinct.inspect_eq.symm, ?_⟩
    intro message
    cases hv <;> simp

/-- A recursive function that makes a function at each call, prints, and compares functions and arrays by
identity, is called with its own argument, and then again. -/
theorem eval_repeatable_recursion : ∃ (w w₁ w₂ : World) (scope : Scope) (held : List Value) (e : Node)
    (v v' : Value),
    Moment Vocabulary.standard w scope held ∧ scope = [1, 0] ∧ e.Fits Vocabulary.standard .expression ∧
      eval none 24 e scope w = .ok v w₁ ∧ w₁.output = w.output ++ "2\n1\n0\n" ∧
      v.inspect = "[true, false, fn g() \x7b\nreturn n\n\x7d]" ∧
      eval none 24 e scope w₁ = .ok v' w₂ ∧ w₂.output = w₁.output ++ "2\n1\n0\n" ∧
      v'.inspect = v.inspect := by
  let t : Token := { kind := .illegal, text := "" }
  let f : Ident := { token := t, name := "f" }
  let g : Ident := { token := t, name := "g" }
  let n : Ident := { token := t, name := "n" }
  let print : Ident := { token := t, name := "print" }
  let inner : Node := .block t [.returnValue t (.ident n)]
  let last : Node := .block t [.returnValue t (.array t
    [.binary t (.ident g) "==" (.ident g),
      .binary t (.array t [.ident n]) "==" (.array t [.ident n]), .ident g])]
  let body : Node := .block t [.function t "g" [] none inner,
    .expression t (.call t (.ident print) [.ident n]),
    .ifThen t (.binary t (.ident n) "==" (.int t 0)) last,
    .returnValue t (.call t (.ident f) [.binary t (.ident n) "-" (.int t 1)])]
  let earlier : Node := .program [.function t "f" [{ n with typeName := some "int" }] none body]
  let e : Node := .call t (.ident f) [.ident n]
  have hf : Vocabulary.standard.varName f := ⟨⟨'f', [], rfl, rfl, rfl, rfl⟩, rfl⟩
  have hg : Vocabulary.standard.varName g := ⟨⟨'g', [], rfl, rfl, rfl, rfl⟩, rfl⟩
  have hn : Vocabulary.standard.varName n := ⟨⟨'n', [], rfl, rfl, rfl, rfl⟩, rfl⟩
  have hprint : Vocabulary.standard.varName print := ⟨⟨'p', ['r', 'i', 'n', 't'], rfl, rfl, rfl, rfl⟩, rfl⟩
  have hint : ∀ m : Nat, m < 10 → Vocabulary.standard.int m := by
    intro m hm
    simp only [Vocabulary.standard, MachineInt.bound]
    omega
  have hequal : Vocabulary.standard.between "==" := by simp [Vocabulary.standard]
  have hminus : Vocabulary.standard.between "-" := by simp [Vocabulary.standard]
  have hsingle : (Node.array t [.ident n]).Fits Vocabulary.standard .expression :=
    .array (by simpa using .ident hn)
  have hinner : inner.Fits Vocabulary.standard .body :=
    .block (by simpa [inner] using .returnValue (.ident hn))
  have hlast : last.Fits Vocabulary.standard .body := by
    refine .block (List.forall_mem_singleton.2 (.returnValue (.array ?_)))
    simp only [List.forall_mem_cons]
    exact ⟨.binary hequal (.ident hg) (.ident hg), .binary hequal hsingle hsingle, .ident hg, by simp⟩
  have hbody : body.Fits Vocabulary.standard .body := by
    refine .block ?_
    simp only [List.forall_mem_cons]
    refine ⟨.function hg.1 (by simp) (by simp [Vocabulary.standard]) hinner, ?_, ?_, ?_, by simp⟩
    · exact .expression (.call (.ident hprint) (by simpa using .ident hn))
    · exact .branches (.ifThen (.binary hequal (.ident hn) (.int (hint 0 (by decide)))) hlast)
    · refine .returnValue (.call (.ident hf) (List.forall_mem_singleton.2 ?_))
      exact .binary hminus (.ident hn) (.int (hint 1 (by decide)))
  have hearlier : earlier.Fits Vocabulary.standard .program := by
    refine .program (List.forall_mem_singleton.2 (.function hf.1 ?_ (by simp [Vocabulary.standard]) hbody))
    exact List.forall_mem_singleton.2 ⟨hn.1, "int", rfl, .int, .inl rfl⟩
  have he : e.Fits Vocabulary.standard .expression :=
    .call (.ident hf) (by simpa using .ident hn)
  let closure : Closure := ⟨"f", [{ n with typeName := some "int" }], body, [0]⟩
  let w : World := ⟨#[[("f", .function 0 closure)]], 1, ""⟩
  have hrun : eval none 3 earlier World.globalScope World.initial = .ok .null w := rfl
  have hcallee : eval none 1 (.ident f) World.globalScope w = .ok (.function 0 closure) w := rfl
  have hargument : eval none 1 (.int t 2) World.globalScope w = .ok (.int 2) w := rfl
  have hcall : Moment Vocabulary.standard w World.globalScope [.int 2, .function 0 closure] := by
    refine .kept (.kept (.start (.run .initial hearlier hrun)) (.ident hf) hcallee ?_)
      (.int (hint 2 (by decide))) hargument ?_
    · simp
    · simp
  have hmem : Value.function 0 closure ∈ [.int 2, .function 0 closure] := by simp
  have hmoment : Moment Vocabulary.standard (w.entered closure [.int 2]) [1, 0]
      [.int 2, .function 0 closure] :=
    .entered hcall hmem (by simp) rfl
  obtain ⟨v, w₁, hfirst, hinspect, houtput⟩ : ∃ v w₁,
      eval none 24 e [1, 0] (w.entered closure [.int 2]) = .ok v w₁ ∧
        v.inspect = "[true, false, fn g() \x7b\nreturn n\n\x7d]" ∧ w₁.output = "2\n1\n0\n" := by
    have hshown : EStateM.run' (do
        let v ← eval none 24 e [1, 0]
        return (v.inspect, (← get).output)) (w.entered closure [.int 2]) =
      some ("[true, false, fn g() \x7b\nreturn n\n\x7d]", "2\n1\n0\n") := by
      decide +kernel
    unfold EStateM.run' EStateM.run at hshown
    cases hfirst : eval none 24 e [1, 0] (w.entered closure [.int 2]) with
    | error crash w₁ =>
      rw [bind_of_error hfirst] at hshown
      cases hshown
    | ok v w₁ =>
      rw [bind_of_ok hfirst] at hshown
      obtain ⟨hinspect, houtput⟩ := Prod.mk.inj (Option.some.inj hshown)
      exact ⟨v, w₁, rfl, hinspect, houtput⟩
  obtain ⟨v', w₂, text, hsecond, htext, htext', -, hinspect', -⟩ :=
    eval_repeatable hmoment he none 24 hfirst
  obtain rfl : text = "2\n1\n0\n" := by
    rw [houtput, show (w.entered closure [.int 2]).output = "" from rfl, String.empty_append] at htext
    exact htext.symm
  exact ⟨_, w₁, w₂, _, _, e, v, v', hmoment, rfl, he, hfirst, htext, hinspect, hsecond, htext', hinspect'⟩

end LimLang
