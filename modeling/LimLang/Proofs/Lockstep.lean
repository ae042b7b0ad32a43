import LimLang.Proofs.Correspondence
import LimLang.Proofs.Pairing

/-! # Twin programs run in lockstep

Two evaluations are in lockstep if, started in paired worlds, they end alike: with paired results or with
the same crash, after writing the same text, and in worlds that are paired again.  The pairing at the end
has the pairs of the beginning and those of everything made in between.

Pairing is a correspondence (`lockstep`), and twin trees are made of twin trees, so their evaluations are in
lockstep.
-/
namespace LimLang

open EStateM (Result)

variable {α β : Type} {p q : Pairing}

/-- The same text is written on the way from `w` to `t` and on the way from `w'` to `t'`. -/
def WroteAlike (w w' t t' : World) : Prop :=
  ∃ text, t.output = w.output ++ text ∧ t'.output = w'.output ++ text

namespace WroteAlike

variable {w w' t t' u u' : World}

/-- Nothing at all is written. -/
theorem of_output_eq (h : t.output = w.output) (h' : t'.output = w'.output) : WroteAlike w w' t t' :=
  ⟨"", by rw [h, String.append_empty], by rw [h', String.append_empty]⟩

theorem trans (h : WroteAlike w w' t t') (h' : WroteAlike t t' u u') : WroteAlike w w' u u' := by
  obtain ⟨first, ht, ht'⟩ := h
  obtain ⟨second, hu, hu'⟩ := h'
  exact ⟨first ++ second, by rw [hu, ht, String.append_assoc], by rw [hu', ht', String.append_assoc]⟩

end WroteAlike

theorem World.output_bind (w : World) (s : Scope) (name : String) (value : Value) :
    (w.bind s name value).output = w.output := by
  cases s with
  | nil => rfl
  | cons id outer => rfl

/-- **Evaluations that ended alike**, having been started in `w` and in `w'`. -/
inductive EndsAlike (rel : Pairing → α → β → Prop) (p : Pairing) (w w' : World) :
    Result Crash World α → Result Crash World β → Prop
  | ok {q : Pairing} {a : α} {b : β} {t t' : World} (hq : p.Within q) (h : rel q a b)
      (hworlds : World.Paired q t t') (hwrote : WroteAlike w w' t t') :
      EndsAlike rel p w w' (.ok a t) (.ok b t')
  | crash {q : Pairing} {crash : Crash} {t t' : World} (hq : p.Within q)
      (hworlds : World.Paired q t t') (hwrote : WroteAlike w w' t t') :
      EndsAlike rel p w w' (.error crash t) (.error crash t')

namespace Eval

/-- **Evaluations in lockstep**: in paired worlds they end alike, with results that `rel` relates. -/
def Lockstep (rel : Pairing → α → β → Prop) (p : Pairing) (x : Eval α) (y : Eval β) : Prop :=
  ∀ w w', World.Paired p w w' → EndsAlike rel p w w' (x w) (y w')

end Eval

/-- Evaluators that are in lockstep on twin trees in paired scopes. -/
def LockstepOnTrees (evaluate evaluate' : Node → Scope → Eval Value) : Prop :=
  ∀ (p : Pairing) (place : Place) (a b : Node) (s s' : Scope), Node.Twins place a b →
    Scope.Paired p s s' → Eval.Lockstep Value.Paired p (evaluate a s) (evaluate' b s')

/-- **Paired worlds correspond**, if the same was written on the way from `w₀` and from `w₀'`. -/
def lockstep (w₀ w₀' : World) : Correspondence where
  Known := Pairing
  le := Pairing.Within
  worlds p w w' := World.Paired p w w' ∧ WroteAlike w₀ w₀' w w'
  value := Value.Paired
  scope := Scope.Paired
  code c d := c.name = d.name ∧ Ident.sameAll c.parameters d.parameters ∧
    Node.Twins .body c.body d.body
  tree _ _ a b := ∃ place, Node.Twins place a b
  reads _ := True
  binds _ _ _ := True
  halts _ := True
  le_refl := .refl
  le_trans := .trans
  value_mono hq h := h.mono hq
  scope_mono hq h := h.mono hq
  fault _ := trivial
  plain := by
    intro p a ha
    cases a with
    | bool => exact .bool
    | string => exact .string
    | null => exact .null
    | error => exact .error
    | absent => exact .absent
    | _ => cases ha
  wrapped _ := .int
  builtin _ _ := .builtin
  length _ _ := .int
  sameKind := by
    intro p a b hab
    cases hab with
    | int => exact .int
    | bool => exact .bool
    | string => exact .string
    | null => exact .null
    | array _ hlen h => exact .array (List.forall₂_iff_zip.2 ⟨hlen, fun hp => h _ hp⟩)
    | function _ hname hparameters hbody hscope =>
      exact .function ⟨⟨hname, hparameters, hbody⟩, hscope⟩
    | builtin => exact .builtin
    | returned _ h => exact .returned h
    | error => exact .error
    | absent => exact .absent
  identical hw hab hcd := hab.identical_eq hw.1.ids_oneToOne hcd
  written h room := Value.AllPaired.writtenAll_eq h room
  signature h := ⟨h.1, Ident.names_eq_of_sameAll h.2.1⟩
  make := by
    rintro p w w' f g ⟨hw, hwrote⟩ h
    have hp := p.within_withIds w.nextId w'.nextId
    refine ⟨p.withIds w.nextId w'.nextId, hp, ?_, hw.fresh, hwrote⟩
    cases h with
    | array h => exact .arrays List.mem_cons_self (Value.AllPaired.mono hp h)
    | function h =>
      obtain ⟨⟨hname, hparameters, hbody⟩, hscope⟩ := h
      exact .function List.mem_cons_self hname hparameters hbody (hscope.mono hp)
    | returned h => exact .returned List.mem_cons_self (h.mono hp)
  lookup hw hs _ := hw.1.lookup hs _
  bind := by
    rintro p w w' s s' n a b ⟨hw, hwrote⟩ hs - hab
    refine ⟨hw.bind hs n hab, hwrote.trans (.of_output_eq ?_ ?_)⟩
    · exact w.output_bind s n a
    · exact w'.output_bind s' n b
  enter := by
    rintro p w w' c d ⟨hw, hwrote⟩ ⟨-, -, hbody⟩ hs
    have hp := p.within_withFrames w.frames.size w'.frames.size
    refine ⟨_, hp, .cons List.mem_cons_self (hs.mono hp), ⟨hw.enclosed c.scope d.scope, hwrote⟩, ?_⟩
    exact ⟨⟨_, hbody⟩, fun _ _ => trivial⟩
  write := by
    rintro p w w' text ⟨hw, hwrote⟩
    exact ⟨hw.write text text, hwrote.trans ⟨text, rfl, rfl⟩⟩

/-! ## Twin trees -/

namespace Node.Twins

variable {place : Place} {a b : Node} {R : Node → Node → Prop}

/-- Twin chains of branches. -/
theorem chains (h : Twins place a b) (hp : place = .chain ∨ place = .link)
    (hR : ∀ place a b, Twins place a b → R a b) : a.isLink ∧ Correspondence.Chains R a b := by
  induction h with
  | ifThen hc hb => exact ⟨rfl, .ifThen (hR _ _ _ hc) (hR _ _ _ hb)⟩
  | ifElse hc hb _ _ _ ihn => exact ⟨rfl, .ifElse (hR _ _ _ hc) (hR _ _ _ hb) (ihn (.inr rfl)).2⟩
  | otherwise hb => exact ⟨rfl, .otherwise (hR _ _ _ hb)⟩
  | elseIf _ ih => exact ih (.inl rfl)
  | _ => rcases hp with hp | hp <;> cases hp

/-- Twins are nodes of one kind, with twins inside them. -/
theorem layer {w₀ w₀' : World} {s s' : Scope} (h : Twins place a b) :
    (lockstep w₀ w₀').Layer s s' (fun a b => ∃ place, Twins place a b) a b := by
  have hzip {place : Place} {as bs : List Node} (hlen : as.length = bs.length)
      (h : ∀ pair ∈ as.zip bs, Twins place pair.1 pair.2) :
      List.Forall₂ (fun a b => ∃ place, Twins place a b) as bs :=
    List.forall₂_iff_zip.2 ⟨hlen, fun hp => ⟨place, h _ hp⟩⟩
  have hchain {place : Place} {a b : Node} (h : Twins place a b) (hp : place = .chain ∨ place = .link) :
      (lockstep w₀ w₀').Layer s s' (fun a b => ∃ place, Twins place a b) a b :=
    have hchains := h.chains hp fun place _ _ h => ⟨place, h⟩
    .branches hchains.1 hchains.2
  -- The induction is only for chains, which stand in three places.
  induction h with
  | ident hi => exact .ident (Ident.name_eq_of_same hi) trivial
  | int => exact .int fun _ => .int
  | bool => exact .bool
  | string => exact .string
  | null => exact .null
  | array hlen h _ => exact .array (hzip hlen h)
  | unary h _ => exact .unary ⟨_, h⟩
  | binary hl hr _ _ => exact .binary ⟨_, hl⟩ ⟨_, hr⟩
  | call hf hlen h _ _ => exact .call ⟨_, hf⟩ (hzip hlen h)
  | index hl hp _ _ => exact .index ⟨_, hl⟩ ⟨_, hp⟩
  | declare hi h _ => exact .declare (Ident.name_eq_of_same hi) trivial ⟨_, h⟩
  | declareArray hi h _ => exact .declareArray (Ident.name_eq_of_same hi) trivial ⟨_, h⟩
  | bareReturn => exact .bareReturn
  | returnValue h _ => exact .returnValue ⟨_, h⟩
  | expression h _ => exact .expression ⟨_, h⟩
  | function hp h _ => exact .function trivial ⟨rfl, hp, h⟩
  | branches _ ih => exact ih
  | ifThen hc hb _ _ => exact hchain (.ifThen hc hb) (.inl rfl)
  | ifElse hc hb hn _ _ _ => exact hchain (.ifElse hc hb hn) (.inl rfl)
  | otherwise hb _ => exact hchain (.otherwise hb) (.inr rfl)
  | elseIf _ ih => exact ih
  | block hlen h _ => exact .block (hzip hlen h)
  | program hlen h _ => exact .program (hzip hlen h)

end Node.Twins

/-- **Twin trees are evaluated in lockstep**, however deep evaluation may be nested. -/
theorem eval_lockstep (room : Room) (depth : Nat) :
    LockstepOnTrees (eval room depth) (eval room depth) := by
  intro p place a b s s' h hs w w' hw
  have hlayer : ∀ k s s' a b, Scope.Paired k s s' → (∃ place, Node.Twins place a b) →
      (lockstep w w').Layer s s' (fun a b => ∃ place, Node.Twins place a b) a b :=
    fun _ _ _ _ _ _ ⟨_, h⟩ => h.layer
  have hends := (lockstep w w').eval_keeps trivial hlayer room depth p a b s s' ⟨place, h⟩ hs w w'
    ⟨hw, .of_output_eq rfl rfl⟩
  generalize eval room depth a s w = r at hends
  generalize eval room depth b s' w' = r' at hends
  cases hends with
  | ok hq hab hworlds => exact .ok hq hab hworlds.1 hworlds.2
  | crash hq _ hworlds => exact .crash hq hworlds.1 hworlds.2

end LimLang
