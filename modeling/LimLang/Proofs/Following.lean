import LimLang.Proofs.Tandem

/-! # Following a run that finds nothing wrong

A parser is run side by side with another one, from cursors that need not have the same tokens ahead.  It
is the first run that is followed (`Follows`), and only as long as it finds nothing wrong.  What a parser
finds is never taken back (`Forward`), so if nothing is found in the end, nothing was on the way, and the
parts of a parser can be followed one after the other (`Follows.bind`).
-/
namespace LimLang

variable {ε α β : Type}

/-- **A parser that goes forward**: what was found wrong stays recorded, and no more is left ahead than
there was. -/
def Forward (x : Parser ε α) : Prop :=
  ∀ s, s.findings <+: (finalState (x s)).findings ∧
    (finalState (x s)).ahead.length ≤ s.ahead.length

namespace Forward

theorem pure (a : α) : Forward (pure a : Parser ε α) := fun _ => ⟨List.prefix_refl _, Nat.le_refl _⟩

theorem throw (e : ε) : Forward (throw e : Parser ε α) :=
  fun _ => ⟨List.prefix_refl _, Nat.le_refl _⟩

theorem bind {x : Parser ε α} {f : α → Parser ε β} (hx : Forward x) (hf : ∀ a, Forward (f a)) :
    Forward (x >>= f) := by
  intro s
  obtain ⟨hfindings, hahead⟩ := hx s
  cases hrun : x s with
  | ok a t =>
    rw [hrun] at hfindings hahead
    rw [bind_of_ok hrun]
    exact ⟨hfindings.trans (hf a t).1, Nat.le_trans (hf a t).2 hahead⟩
  | error e t =>
    rw [hrun] at hfindings hahead
    rw [bind_of_error hrun]
    exact ⟨hfindings, hahead⟩

/-- If nothing is found by the end, nothing was on the way. -/
theorem findings_eq {x : Parser ε α} {y : Parser ε β} {s t : ParseState} {a : α} (hx : Forward x)
    (hy : Forward y) (hrun : x s = .ok a t) (hend : (finalState (y t)).findings = s.findings) :
    t.findings = s.findings := by
  have hgrows := (hx s).1
  have hmore := (hy t).1
  rw [hrun] at hgrows
  rw [hend] at hmore
  exact hmore.eq_of_length_le hgrows.length_le

theorem reject (violation : Violation) (token : Token) :
    Forward (Parse.reject violation token : Parse α) := by
  intro s
  rw [Parse.reject_run]
  refine ⟨?_, Nat.le_refl _⟩
  show s.findings <+: if token.is .illegal then _ else _
  split
  · exact List.prefix_refl _
  · exact List.prefix_append _ _

end Forward

/-- **What `x` comes to if it finds nothing wrong, `y` comes to as well**, from cursors that are related
by `pre` to cursors that are related by `post`.  If `x` gives up, it has found something. -/
structure Follows [Halt ε] (pre post : Cursor → Cursor → Prop) (x y : Parser ε α) : Prop where
  forward : Forward x
  ok : ∀ {c d : Cursor} {findings : List Finding} {a : α} {t : ParseState}, pre c d →
    x ⟨c, findings⟩ = .ok a t → t.findings = findings →
    ∃ e, y ⟨d, findings⟩ = .ok a ⟨e, findings⟩ ∧ post t.toCursor e
  halt : ∀ {c d : Cursor} {findings : List Finding} {e : ε} {t : ParseState}, pre c d →
    x ⟨c, findings⟩ = .error e t → Halt.Mendable e → t.findings ≠ findings

namespace Follows

variable [Halt ε] {pre pre' mid post post' : Cursor → Cursor → Prop} {x y : Parser ε α}
  {f g : α → Parser ε β}

theorem mono (h : Follows pre post x y) (hpre : ∀ c d, pre' c d → pre c d)
    (hpost : ∀ c d, post c d → post' c d) : Follows pre' post' x y where
  forward := h.forward
  ok hc hrun ht := by
    obtain ⟨e, hy, he⟩ := h.ok (hpre _ _ hc) hrun ht
    exact ⟨e, hy, hpost _ _ he⟩
  halt hc := h.halt (hpre _ _ hc)

theorem strengthen (h : Follows pre post x y) (hpre : ∀ c d, pre' c d → pre c d) :
    Follows pre' post x y :=
  h.mono hpre fun _ _ hd => hd

theorem weaken (h : Follows pre post x y) (hpost : ∀ c d, post c d → post' c d) :
    Follows pre post' x y :=
  h.mono (fun _ _ hc => hc) hpost

/-- What is known and does not depend on the cursors stays known. -/
theorem frame (p : Prop) (h : Follows pre post x y) :
    Follows (fun c d => pre c d ∧ p) (fun c d => post c d ∧ p) x y where
  forward := h.forward
  ok hc hrun ht := by
    obtain ⟨e, hy, he⟩ := h.ok hc.1 hrun ht
    exact ⟨e, hy, he, hc.2⟩
  halt hc := h.halt hc.1

/-- A bound of what is ahead stays a bound. -/
theorem within (n : Nat) (h : Follows pre post x y) :
    Follows (fun c d => pre c d ∧ c.ahead.length < n) (fun c d => post c d ∧ c.ahead.length < n)
      x y where
  forward := h.forward
  ok {c _ findings _ _} hc hrun ht := by
    obtain ⟨e, hy, he⟩ := h.ok hc.1 hrun ht
    have hless := (h.forward ⟨c, findings⟩).2
    rw [hrun] at hless
    exact ⟨e, hy, he, Nat.lt_of_le_of_lt hless hc.2⟩
  halt hc := h.halt hc.1

theorem pure_of_run {a : α}
    (h : ∀ c d findings, pre c d → y ⟨d, findings⟩ = .ok a ⟨d, findings⟩) :
    Follows pre pre (pure a : Parser ε α) y where
  forward := .pure a
  ok {c d findings _ _} hc hrun _ := by
    cases hrun
    exact ⟨d, h c d findings hc, hc⟩
  halt _ hrun := by cases hrun

theorem pure (a : α) : Follows pre pre (pure a : Parser ε α) (pure a) :=
  pure_of_run fun _ _ _ _ => rfl

/-- A crash says nothing. -/
theorem crash {e : ε} (h : ¬ Halt.Mendable e) : Follows pre post (throw e : Parser ε α) y where
  forward := .throw e
  ok _ hrun := by cases hrun
  halt _ hrun hmend := by
    cases hrun
    exact absurd hmend h

/-- Nothing is said of where the cursors cannot be. -/
theorem never (hx : Forward x) (h : ∀ c d, ¬ pre c d) : Follows pre post x y where
  forward := hx
  ok hc := absurd hc (h _ _)
  halt hc := absurd hc (h _ _)

/-- **Going on**: what holds of both parts holds of the whole. -/
theorem bind (h : Follows pre mid x y) (hf : ∀ a, Follows mid post (f a) (g a)) :
    Follows pre post (x >>= f) (y >>= g) where
  forward := h.forward.bind fun a => (hf a).forward
  ok {c d findings b u} hc hrun hu := by
    cases hx : x ⟨c, findings⟩ with
    | error e t =>
      rw [bind_of_error hx] at hrun
      cases hrun
    | ok a t =>
      rw [bind_of_ok hx] at hrun
      have ht := h.forward.findings_eq (hf a).forward hx (by rw [hrun]; exact hu)
      obtain ⟨e, hy, he⟩ := h.ok hc hx ht
      obtain ⟨t, fs⟩ := t
      obtain rfl : fs = findings := ht
      rw [bind_of_ok hy]
      exact (hf a).ok he hrun hu
  halt {c d findings e u} hc hrun hmend hu := by
    cases hx : x ⟨c, findings⟩ with
    | error e t =>
      rw [bind_of_error hx] at hrun
      cases hrun
      exact h.halt hc hx hmend hu
    | ok a t =>
      rw [bind_of_ok hx] at hrun
      have ht := h.forward.findings_eq (hf a).forward hx (by rw [hrun]; exact hu)
      obtain ⟨e, -, he⟩ := h.ok hc hx ht
      obtain ⟨t, fs⟩ := t
      obtain rfl : fs = findings := ht
      exact (hf a).halt he hrun hmend hu

/-! ## Single steps -/

theorem current_bind {f g : Token → Parser ε α} (hcurrent : ∀ c d, pre c d → d.current = c.current)
    (h : ∀ t, Follows (fun c d => pre c d ∧ c.current = t) post (f t) (g t)) :
    Follows pre post (Parse.current >>= f) (Parse.current >>= g) where
  forward s := (h s.current).forward s
  ok {c d findings _ _} hc hrun ht := by
    show ∃ e, g d.current ⟨d, findings⟩ = _ ∧ _
    rw [hcurrent c d hc]
    exact (h c.current).ok ⟨hc, rfl⟩ hrun ht
  halt hc hrun := (h _).halt ⟨hc, rfl⟩ hrun

theorem peek_bind {f g : Token → Parser ε α} (hpeek : ∀ c d, pre c d → d.peek = c.peek)
    (h : ∀ t, Follows (fun c d => pre c d ∧ c.peek = t) post (f t) (g t)) :
    Follows pre post (Parse.peek >>= f) (Parse.peek >>= g) where
  forward s := (h s.toCursor.peek).forward s
  ok {c d findings _ _} hc hrun ht := by
    show ∃ e, g d.peek ⟨d, findings⟩ = _ ∧ _
    rw [hpeek c d hc]
    exact (h c.peek).ok ⟨hc, rfl⟩ hrun ht
  halt hc hrun := (h _).halt ⟨hc, rfl⟩ hrun

theorem remaining_bind {f g : Nat → Parser ε α}
    (hless : ∀ c d, pre c d → c.ahead.length ≤ d.ahead.length)
    (h : ∀ n n', n ≤ n' → Follows (fun c d => pre c d ∧ c.ahead.length < n + 1) post (f n) (g n')) :
    Follows pre post (Parse.remaining >>= f) (Parse.remaining >>= g) where
  forward s := (h s.ahead.length _ (Nat.le_refl _)).forward s
  ok hc hrun ht := (h _ _ (hless _ _ hc)).ok ⟨hc, Nat.lt_succ_self _⟩ hrun ht
  halt hc hrun := (h _ _ (hless _ _ hc)).halt ⟨hc, Nat.lt_succ_self _⟩ hrun

section Choice
variable {x' y' : Parser ε α} (hpeek : ∀ c d, pre c d → d.peek = c.peek)
include hpeek

theorem peek_ite (q : Kind → Prop) [DecidablePred q]
    (hx : Follows (fun c d => pre c d ∧ q c.peek.kind) post x x') (hy : Follows pre post y y') :
    Follows pre post (do if q (← Parse.peek).kind then x else y)
      (do if q (← Parse.peek).kind then x' else y') := by
  refine peek_bind hpeek fun t => ?_
  split
  · next hq => exact hx.strengthen fun c d hc => ⟨hc.1, hc.2 ▸ hq⟩
  · exact hy.strengthen fun c d hc => hc.1

theorem peekIs_ite (kind : Kind)
    (hx : Follows (fun c d => pre c d ∧ c.peek.kind = kind) post x x') (hy : Follows pre post y y') :
    Follows pre post (do if ← Parse.peekIs kind then x else y)
      (do if ← Parse.peekIs kind then x' else y') := by
  have h : Follows pre post (Parse.peek >>= fun t => if t.is kind then x else y)
      (Parse.peek >>= fun t => if t.is kind then x' else y') := by
    refine peek_bind hpeek fun t => ?_
    split
    · next hq => exact hx.strengthen fun c d hc => ⟨hc.1, by rw [hc.2]; simpa [Token.is] using hq⟩
    · exact hy.strengthen fun c d hc => hc.1
  exact ⟨h.forward, h.ok, h.halt⟩

theorem atEnd_ite (hx : Follows pre post x x') (hy : Follows pre post y y') :
    Follows pre post (do if ← Parse.atEnd then x else y) (do if ← Parse.atEnd then x' else y') := by
  have h := peek_ite hpeek (fun kind => kind.isTerminator = true) (hx.strengthen fun c d hc => hc.1) hy
  exact ⟨h.forward, h.ok, h.halt⟩

end Choice

theorem peekIs_unused {kind : Kind} (h : Follows pre post x y) :
    Follows pre post (do let _ ← Parse.peekIs kind; x) (do let _ ← Parse.peekIs kind; y) :=
  ⟨h.forward, h.ok, h.halt⟩

theorem move {m : Cursor → Cursor} (hm : ∀ c, (m c).ahead.length ≤ c.ahead.length)
    (h : ∀ c d, pre c d → post (m c) (m d)) :
    Follows pre post (Parse.move m : Parser ε Unit) (Parse.move m) where
  forward s := ⟨List.prefix_refl _, hm s.toCursor⟩
  ok {c d _ _ _} hc hrun _ := by
    cases hrun
    exact ⟨m d, rfl, h c d hc⟩
  halt _ hrun := by cases hrun

theorem advance (h : ∀ c d, pre c d → post c.advance d.advance) :
    Follows pre post (Parse.advance : Parser ε Unit) Parse.advance :=
  move Cursor.length_ahead_advance_le h

theorem reject {violation : Violation} {token : Token} {y : Parse α}
    (h : ∀ c d, pre c d → token.kind ≠ .illegal) :
    Follows pre post (Parse.reject violation token : Parse α) y where
  forward := .reject violation token
  ok _ hrun := by
    rw [Parse.reject_run] at hrun
    cases hrun
  halt {c d _ _ _} hc hrun _ := by
    rw [Parse.reject_run, if_neg (by simpa [Token.is] using h c d hc)] at hrun
    cases hrun
    exact fun heq => absurd (congrArg List.length heq) (by simp)

theorem expectNamed {kind : Kind} (what : String) (hpeek : ∀ c d, pre c d → d.peek = c.peek)
    (hlegal : ∀ c d, pre c d → c.peek.kind ≠ .illegal)
    (hcurrent : ∀ c d, post c d → d.current = c.current)
    (h : ∀ c d, pre c d → c.peek.kind = kind → post c.advance d.advance) :
    Follows pre post (Parse.expectNamed kind what) (Parse.expectNamed kind what) := by
  refine peek_bind hpeek fun t => ?_
  split
  · next hkind =>
    have hmove : Follows (fun c d => pre c d ∧ c.peek = t) post (Parse.advance : Parse Unit)
        Parse.advance := advance fun c d hc => h c d hc.1 (by rw [hc.2]; simpa [Token.is] using hkind)
    exact hmove.bind fun _ => current_bind hcurrent fun u => (pure u).weaken fun c d hd => hd.1
  · exact reject fun c d hc => hc.2 ▸ hlegal c d hc.1

/-! ## Giving up -/

theorem liftCrash {x y : Parser Crash (List Node)} (h : Follows pre post x y) :
    Follows pre post (Parse.liftCrash x) (Parse.liftCrash y) where
  forward s := by
    have hforward := h.forward s
    unfold Parse.liftCrash
    cases hx : x s with
    | ok a t =>
      rw [hx] at hforward
      exact hforward
    | error crash t =>
      rw [hx] at hforward
      exact hforward
  ok {c d findings a t} hc hrun ht := by
    unfold Parse.liftCrash at hrun ⊢
    cases hx : x ⟨c, findings⟩ with
    | ok a t =>
      rw [hx] at hrun
      cases hrun
      obtain ⟨e, hy, he⟩ := h.ok hc hx ht
      exact ⟨e, by rw [hy], he⟩
    | error crash t =>
      rw [hx] at hrun
      cases hrun
  halt {c d findings e t} hc hrun hmend := by
    unfold Parse.liftCrash at hrun
    cases hx : x ⟨c, findings⟩ with
    | ok a t =>
      rw [hx] at hrun
      cases hrun
    | error crash t =>
      rw [hx] at hrun
      cases hrun
      cases hmend

/-- **No statement is given up** if nothing is found wrong. -/
theorem recovering {x y : Parse (Option Node)} (h : Follows pre post x y) :
    Follows pre post (Parse.recovering x) (Parse.recovering y) where
  forward s := by
    have hforward := h.forward s
    unfold Parse.recovering
    cases hx : x s with
    | ok node t =>
      rw [hx] at hforward
      exact hforward
    | error halt t =>
      rw [hx] at hforward
      cases halt with
      | crash crash => exact hforward
      | malformed =>
        exact ⟨hforward.1, Nat.le_trans (Cursor.length_skipWithin_le _ _ _) hforward.2⟩
  ok {c d findings a t} hc hrun ht := by
    unfold Parse.recovering at hrun ⊢
    cases hx : x ⟨c, findings⟩ with
    | ok node t =>
      rw [hx] at hrun
      cases hrun
      obtain ⟨e, hy, he⟩ := h.ok hc hx ht
      exact ⟨e, by rw [hy], he⟩
    | error halt t =>
      rw [hx] at hrun
      cases halt with
      | crash crash => cases hrun
      | malformed =>
        cases hrun
        exact (h.halt hc hx rfl ht).elim
  halt _ _ hmend := hmend.elim

end Follows

end LimLang
