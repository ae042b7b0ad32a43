import LimLang.Proofs.Halting

/-! # What a parser does, operation by operation

A parser is a function from states to outcomes; the states it passes on its way do not show in it.
But parsers are put together from a few operations on the cursor, and a *script* tells how: `Script n m
x` takes the parser `x` apart into operations, choices and smaller parsers.  It is about `x` itself, so
there is no second parser here that might do something else.

The numbers `n` and `m` are those of the groups that are open where `x` starts and where it ends.  A
group can be closed only where one is open, and statements can be parsed only outside of groups.  A
parser that loses count on one of its ways has no script.

From a script the operations are read off that the parser performs from a state, up to where it ends
or halts (`Script.operations`).  One after another they lead the cursor where the parser leads it, and
they are in order (`Script.performs`).

The count of the cursor cannot fall below zero, whatever is done to it.  So a *position* has a second
count beside it, an integer that is raised and lowered without regard to that.
-/
namespace LimLang

open Cursor (isNewline)

/-! ## Operations -/

/-- **What a parser does to its cursor.** -/
inductive Operation where
  /-- The next token becomes current. -/
  | advance
  | openGroup
  | closeGroup
  /-- The count of open groups is set. -/
  | assign (groups : Nat)
  /-- A statement of a program or of a block begins.  The cursor stays where it is. -/
  | statement
  deriving DecidableEq, Repr

/-- Whether an operation is in order while so many groups are open. -/
def Operation.InOrder : Operation → Nat → Prop
  | .advance, _ | .openGroup, _ => True
  | .closeGroup, groups => groups ≠ 0
  | .assign groups, _ => groups = 0
  | .statement, groups => groups = 0

/-- **A cursor and a count of the groups that are open around it**, which may fall below zero. -/
structure Position extends Cursor where
  /-- Groups opened less groups closed. -/
  depth : Int
  deriving DecidableEq, Repr

namespace Position

/-- The position of a cursor that has kept count so far. -/
def ofCursor (c : Cursor) : Position :=
  { c with depth := c.groups }

/-- What an operation does. -/
def perform (p : Position) : Operation → Position
  | .advance => { p.toCursor.advance with depth := p.depth }
  | .openGroup => { p.toCursor.openGroup with depth := p.depth + 1 }
  | .closeGroup => { p.toCursor.closeGroup with depth := p.depth - 1 }
  | .assign groups => { p.toCursor with groups, depth := groups }
  | .statement => p

/-- What operations do one after another. -/
def follow (p : Position) (operations : List Operation) : Position :=
  operations.foldl perform p

/-- **Operations that are in order** one after another. -/
def Orderly : Position → List Operation → Prop
  | _, [] => True
  | p, operation :: operations =>
      operation.InOrder p.groups ∧ Orderly (p.perform operation) operations

variable {p : Position} {operations more : List Operation}

@[simp] theorem follow_nil : p.follow [] = p := rfl

@[simp] theorem follow_cons (operation : Operation) :
    p.follow (operation :: operations) = (p.perform operation).follow operations := rfl

@[simp] theorem follow_append : p.follow (operations ++ more) = (p.follow operations).follow more :=
  List.foldl_append

theorem orderly_append :
    p.Orderly (operations ++ more) ↔ p.Orderly operations ∧ (p.follow operations).Orderly more := by
  induction operations generalizing p with
  | nil => simp [Orderly]
  | cons operation operations ih => simp [Orderly, ih, and_assoc]

theorem Orderly.take (h : p.Orderly operations) (k : Nat) : p.Orderly (operations.take k) := by
  rw [← List.take_append_drop k operations] at h
  exact (orderly_append.1 h).1

/-- Each of them is in order where it is performed. -/
theorem Orderly.inOrder {operation : Operation} {k : Nat} (h : p.Orderly operations)
    (hk : operations[k]? = some operation) :
    operation.InOrder (p.follow (operations.take k)).groups := by
  rw [← List.take_append_drop k operations] at h
  have hrest := (orderly_append.1 h).2
  rw [← List.head?_drop] at hk
  obtain ⟨rest, hdrop⟩ := List.head?_eq_some_iff.1 hk
  rw [hdrop] at hrest
  exact hrest.1

/-! ## Positions as they should be -/

/-- **A position as it should be**: the cursor is, and its count is the true one. -/
structure Steady (p : Position) : Prop where
  ready : p.toCursor.Ready
  depth_eq : p.depth = p.groups

/-- **One operation that is in order leaves the position as it should be.** -/
theorem Steady.perform (h : p.Steady) {operation : Operation} (ho : operation.InOrder p.groups) :
    (p.perform operation).Steady := by
  have hd := h.depth_eq
  cases operation with
  | advance =>
    refine ⟨h.ready.advance, ?_⟩
    rw [show (p.perform .advance).groups = p.groups from Cursor.advance_groups _]
    exact hd
  | openGroup =>
    refine ⟨h.ready.openGroup, ?_⟩
    show p.depth + 1 = ((p.groups + 1 : Nat) : Int)
    omega
  | closeGroup =>
    refine ⟨h.ready.closeGroup, ?_⟩
    -- Only here could the two counts part.
    have hpos : p.groups ≠ 0 := ho
    show p.depth - 1 = ((p.groups - 1 : Nat) : Int)
    omega
  | assign groups =>
    have hzero : groups = 0 := ho
    subst hzero
    exact ⟨⟨h.ready.terminated, h.ready.current_ne, settle_zero _⟩, rfl⟩
  | statement => exact h

/-- **So do operations one after another.** -/
theorem Steady.follow (h : p.Steady) (ho : p.Orderly operations) : (p.follow operations).Steady := by
  induction operations generalizing p with
  | nil => exact h
  | cons operation operations ih => exact ih (h.perform ho.1) ho.2

theorem Steady.depth_nonneg (h : p.Steady) : 0 ≤ p.depth := by
  rw [h.depth_eq]
  exact Int.natCast_nonneg _

/-- Inside of a group no newline is ahead. -/
theorem Steady.peek_ne (h : p.Steady) (hd : 0 < p.depth) : p.toCursor.peek.kind ≠ .endOfLine := by
  have hg : p.groups ≠ 0 := by
    have := h.depth_eq
    omega
  have hs := h.ready.settled
  rw [settle_pos hg] at hs
  unfold Cursor.peek
  cases ha : p.ahead with
  | nil => exact h.ready.current_ne
  | cons t ts =>
    have hhead := List.head?_dropWhile_not isNewline p.ahead
    rw [hs, ha] at hhead
    exact isNewline_eq_false.1 (by simpa using hhead)

end Position

/-- The operations by which the rest of a malformed statement is skipped. -/
def Cursor.skipping : Nat → Nat → Cursor → List Operation
  | 0, _, _ => []
  | bound + 1, depth, c =>
      match depthAfter depth c.current.kind with
      | none => []
      | some depth =>
          if depth = 0 && endsBefore c.peek.kind then []
          else .advance :: skipping bound depth c.advance

theorem Position.follow_skipping (bound depth : Nat) (p : Position) :
    p.Orderly (p.toCursor.skipping bound depth) ∧
      (p.follow (p.toCursor.skipping bound depth)).toCursor = p.toCursor.skipWithin bound depth := by
  induction bound generalizing p depth with
  | zero => exact ⟨trivial, rfl⟩
  | succ bound ih =>
    unfold Cursor.skipping Cursor.skipWithin
    cases Cursor.depthAfter depth p.current.kind with
    | none => exact ⟨trivial, rfl⟩
    | some depth =>
      dsimp only
      split
      · exact ⟨trivial, rfl⟩
      · have h := ih depth (p.perform .advance)
        exact ⟨⟨trivial, h.1⟩, h.2⟩

/-! ## Scripts -/

/-- **How a parser is put together.**  It starts with `n` groups open, and where it ends `m` are. -/
inductive Script : Nat → Nat → {ε α : Type} → Parser ε α → Type 1
  | pure {n : Nat} {ε α : Type} (a : α) : Script n n (Pure.pure a : Parser ε α)
  | throw {n m : Nat} {ε α : Type} (e : ε) : Script n m (MonadExcept.throw e : Parser ε α)
  /-- Something is looked up in the state. -/
  | look {n : Nat} {ε α : Type} (view : ParseState → α) :
      Script n n (fun s => .ok (view s) s : Parser ε α)
  /-- The count of open groups is looked up. -/
  | count {n m : Nat} {ε α : Type} {f : Nat → Parser ε α} :
      Script n m (f n) → Script n m (get >>= fun s => f s.groups)
  | record {n : Nat} {ε : Type} (finding : Finding) :
      Script n n (modify fun s => { s with findings := s.findings ++ [finding] } : Parser ε PUnit)
  | bind {n k m : Nat} {ε α β : Type} {x : Parser ε α} {f : α → Parser ε β} :
      Script n k x → (∀ a, Script k m (f a)) → Script n m (x >>= f)
  | ite {n m : Nat} {ε α : Type} {p : Prop} [Decidable p] {x y : Parser ε α} :
      (p → Script n m x) → (¬ p → Script n m y) → Script n m (if p then x else y)
  | advance {n : Nat} {ε : Type} : Script n n (Parse.advance : Parser ε Unit)
  | openGroup {n : Nat} {ε : Type} : Script n (n + 1) (Parse.move Cursor.openGroup : Parser ε Unit)
  | closeGroup {n : Nat} {ε : Type} : Script (n + 1) n (Parse.move Cursor.closeGroup : Parser ε Unit)
  /-- The count of open groups is set to none. -/
  | ungroup {n : Nat} {ε : Type} :
      Script n 0 (Parse.move fun c => { c with groups := 0 } : Parser ε Unit)
  /-- A statement is parsed, and skipped if it is malformed. -/
  | recovering {x : Parse (Option Node)} : Script 0 0 x → Script 0 0 (Parse.recovering x)
  | liftCrash {n m : Nat} {α : Type} {x : Parser Crash α} :
      Script n m x → Script n m (Parse.liftCrash x)

namespace Script

/-- The operations that follow those of a statement, in front of which `groups` groups were open: if it
is malformed the count is set to what it was, and the rest is skipped. -/
def recovery (groups : Nat) : EStateM.Result ParseHalt ParseState (Option Node) → List Operation
  | .error .malformed t =>
      .assign groups :: Cursor.skipping (t.ahead.length + 1) 0 { t.toCursor with groups }
  | .error (.crash _) _ | .ok _ _ => []

/-- **The operations that a parser performs from a state**, up to where it ends or halts. -/
def operations {n m : Nat} {ε α : Type} {x : Parser ε α} : Script n m x → ParseState → List Operation
  | .pure _, _ | .throw _, _ | .look _, _ | .record _, _ => []
  | .count h, s => h.operations s
  | .bind (x := x) h hf, s =>
      h.operations s ++
        match x s with
        | .ok a t => (hf a).operations t
        | .error _ _ => []
  | @ite _ _ _ _ p inst _ _ ht he, s => if h : p then (ht h).operations s else (he h).operations s
  | .advance, _ => [.advance]
  | .openGroup, _ => [.openGroup]
  | .closeGroup, _ => [.closeGroup]
  | .ungroup, _ => [.assign 0]
  | .recovering (x := x) h, s => .statement :: (h.operations s ++ recovery s.groups (x s))
  | .liftCrash h, s => h.operations s

/-- **What operations have to do with a parser** that starts in a state: they are in order, they lead the
cursor where the parser leads it, and where it ends `groups` groups are open. -/
structure Performs {ε α : Type} (x : Parser ε α) (s : ParseState) (operations : List Operation)
    (groups : Nat) (p : Position) : Prop where
  orderly : p.Orderly operations
  outcome : Outcome x s
    (fun _ t => t.toCursor = (p.follow operations).toCursor ∧ t.groups = groups)
    fun _ t => t.toCursor = (p.follow operations).toCursor

section
variable {ε α β : Type} {n k m : Nat} {s t : ParseState} {p : Position}

/-- A parser that ends is followed by what goes on from there. -/
theorem Performs.bind_ok {x : Parser ε α} {f : α → Parser ε β} {a : α} {before after : List Operation}
    (h : Performs x s before k p) (hx : x s = .ok a t)
    (hf : ∀ {q : Position}, t.toCursor = q.toCursor → t.groups = k → Performs (f a) t after m q) :
    Performs (x >>= f) s (before ++ after) m p := by
  obtain ⟨ht, hk⟩ := (Outcome.iff_of_ok hx).1 h.outcome
  have hrest := hf ht hk
  refine ⟨Position.orderly_append.2 ⟨h.orderly, hrest.orderly⟩, ?_⟩
  rw [Position.follow_append, Outcome.bind_iff, Outcome.iff_of_ok hx]
  exact hrest.outcome

/-- A parser that halts is followed by nothing. -/
theorem Performs.bind_error {x : Parser ε α} {f : α → Parser ε β} {e : ε} {before : List Operation}
    (h : Performs x s before k p) (hx : x s = .error e t) :
    Performs (x >>= f) s (before ++ []) m p := by
  refine ⟨by simpa using h.orderly, ?_⟩
  have ht := h.outcome
  unfold Outcome at ht ⊢
  rw [hx] at ht
  rw [bind_of_error hx, List.append_nil]
  exact ht

/-- A statement is left behind where it ends, or where skipping the rest of it does. -/
theorem Performs.recovering {x : Parse (Option Node)} {before : List Operation}
    (h : Performs x s before 0 p) (hs : s.groups = 0) :
    Performs (Parse.recovering x) s (before ++ recovery s.groups (x s)) 0 p := by
  obtain ⟨horderly, houtcome⟩ := h
  unfold Outcome at houtcome
  rcases hx : x s with ⟨node, t⟩ | ⟨⟨⟩ | crash, t⟩
  · rw [hx] at houtcome
    rw [recovery, List.append_nil]
    refine ⟨horderly, ?_⟩
    rw [Parse.recovering_iff, Outcome.iff_of_ok hx]
    exact houtcome
  · rw [hx] at houtcome
    have ht : t.toCursor = (p.follow before).toCursor := houtcome
    -- From here on the cursor is outside of groups.
    let q := (p.follow before).perform (.assign s.groups)
    have hq : ({ t.toCursor with groups := s.groups } : Cursor) = q.toCursor := by
      rw [ht]
      rfl
    obtain ⟨hskip, hend⟩ := q.follow_skipping (t.ahead.length + 1) 0
    rw [recovery, hq]
    refine ⟨Position.orderly_append.2 ⟨horderly, hs, hskip⟩, ?_⟩
    rw [Position.follow_append, Position.follow_cons, hend, ← hq]
    unfold Outcome Parse.recovering
    rw [hx]
    exact ⟨rfl, (Cursor.skipWithin_groups _ _ _).trans hs⟩
  · rw [hx] at houtcome
    rw [recovery, List.append_nil]
    refine ⟨horderly, ?_⟩
    unfold Outcome Parse.recovering
    rw [hx]
    exact houtcome

end

/-- **Every script is performed**: the operations read off it are those of the parser. -/
theorem performs {n m : Nat} {ε α : Type} {x : Parser ε α} (h : Script n m x) {s : ParseState}
    {p : Position} (hp : s.toCursor = p.toCursor) (hn : s.groups = n) :
    Performs x s (h.operations s) m p := by
  have hg : p.groups = n := hp ▸ hn
  induction h generalizing s p with
  | pure | look | record => exact ⟨trivial, hp, hn⟩
  | throw => exact ⟨trivial, hp⟩
  | count _ ih =>
    subst hn
    have h := ih hp rfl hg
    exact ⟨h.orderly, h.outcome⟩
  | @bind _ _ _ _ _ _ x f _ _ ih ihf =>
    have h := ih hp hn hg
    unfold operations
    cases hx : x s with
    | ok a t => exact h.bind_ok hx fun ht hk => ihf a ht hk (ht ▸ hk)
    | error e t => exact h.bind_error hx
  | @ite _ _ _ _ c _ _ _ _ _ iht ihe =>
    unfold operations
    by_cases hc : c
    · rw [dif_pos hc, if_pos hc]
      exact iht hc hp hn hg
    · rw [dif_neg hc, if_neg hc]
      exact ihe hc hp hn hg
  | advance => exact ⟨⟨trivial, trivial⟩, congrArg Cursor.advance hp, (Cursor.advance_groups _).trans hn⟩
  | openGroup => exact ⟨⟨trivial, trivial⟩, congrArg Cursor.openGroup hp, congrArg (· + 1) hn⟩
  | closeGroup =>
    have hpos : p.groups ≠ 0 := by omega
    exact ⟨⟨hpos, trivial⟩, congrArg Cursor.closeGroup hp, congrArg (· - 1) hn⟩
  | ungroup =>
    refine ⟨⟨rfl, trivial⟩, ?_, rfl⟩
    exact congrArg (fun c : Cursor => { c with groups := 0 }) hp
  | recovering _ ih =>
    have h := (ih hp hn hg).recovering hn
    exact ⟨⟨hg, h.orderly⟩, h.outcome⟩
  | liftCrash _ ih =>
    have h := ih hp hn hg
    exact ⟨h.orderly, Parse.liftCrash_iff.2 h.outcome⟩

end Script

end LimLang
