import LimLang.World
import Mathlib.Tactic.Common

/-! # Chains of scopes

Scopes are made one after another, each of them inside an earlier one or on its own, and meanwhile names
are bound in any of them and looked up from any of them.  A *history* tells what has been done in what
order.  From a history alone one can tell which scope is around which, and what a name was last bound to in
a scope, whatever was done in between.

The scopes of a world keep to that.  A scope has a greater number than the one around it, so going outwards
comes to an end; and looking a name up finds what it was last bound to in the nearest scope in which it
was ever bound (`ScopeHistory.get?_eq_some_iff`).  Binding a name is therefore seen from those scopes only
from which one gets to the place of the binding without meeting the name before.
-/
namespace LimLang

/-- **Scopes of one world**, by number. -/
structure Scopes where
  world : World
  scopes : List Scope

namespace Scopes

/-- The one scope of a new world. -/
def initial : Scopes where
  world := World.initial
  scopes := [World.globalScope]

/-- The scope of a number. -/
def scope (s : Scopes) (i : Nat) : Scope :=
  s.scopes.getD i []

/-- Makes a scope, inside an earlier one or on its own. -/
def enclose (s : Scopes) (outer : Option Nat) : Scopes where
  world := (s.world.enclosed (outer.elim [] s.scope)).1
  scopes := s.scopes ++ [(s.world.enclosed (outer.elim [] s.scope)).2]

/-- Binds a name in a scope. -/
def bind (s : Scopes) (i : Nat) (name : String) (value : Value) : Scopes :=
  { s with world := s.world.bind (s.scope i) name value }

/-- Looks a name up from a scope. -/
def get? (s : Scopes) (i : Nat) (name : String) : Option Value :=
  s.world.lookup? (s.scope i) name

theorem scope_enclose_of_lt (s : Scopes) (outer : Option Nat) {i : Nat} (h : i < s.scopes.length) :
    (s.enclose outer).scope i = s.scope i := by
  simp only [scope, enclose, List.getD_eq_getElem?_getD, List.getElem?_append_left h]

theorem scope_enclose_self (s : Scopes) (outer : Option Nat) :
    (s.enclose outer).scope s.scopes.length = s.world.frames.size :: outer.elim [] s.scope := by
  simp [scope, enclose, World.enclosed]

/-- A new scope leaves all frames as they are. -/
theorem frame_enclose (s : Scopes) (outer : Option Nat) (id : FrameId) :
    (s.enclose outer).world.frame id = s.world.frame id :=
  s.world.frame_enclosed_eq (outer.elim [] s.scope) id

end Scopes

/-! ## Histories -/

/-- **What has been done to `n` scopes**, the first of which is the global one. -/
inductive ScopeHistory : Nat → Type
  | start : ScopeHistory 1
  /-- Then a scope was made, inside an earlier one or on its own. -/
  | enclose {n : Nat} (h : ScopeHistory n) (outer : Option (Fin n)) : ScopeHistory (n + 1)
  /-- Then a name was bound in a scope. -/
  | bind {n : Nat} (h : ScopeHistory n) (i : Fin n) (name : String) (value : Value) : ScopeHistory n
  /-- Then a name was looked up from a scope. -/
  | lookup {n : Nat} (h : ScopeHistory n) (i : Fin n) (name : String) : ScopeHistory n

namespace ScopeHistory

variable {n : Nat} {i j : Nat} {name : String} {value : Value}

/-- What a history leads to. -/
def scopes : {n : Nat} → ScopeHistory n → Scopes
  | _, start => .initial
  | _, enclose h outer => h.scopes.enclose (outer.map Fin.val)
  | _, bind h i name value => h.scopes.bind i name value
  | _, lookup h _ _ => h.scopes

/-- The scope around a scope, if there is one. -/
def outer? : {n : Nat} → ScopeHistory n → Nat → Option Nat
  | _, start, _ => none
  | _, @enclose n h outer, i => if i = n then outer.map Fin.val else h.outer? i
  | _, bind h _ _ _, i => h.outer? i
  | _, lookup h _ _, i => h.outer? i

/-- What a name was last bound to in a scope, if it ever was. -/
def latest? : {n : Nat} → ScopeHistory n → Nat → String → Option Value
  | _, start, _, _ => none
  | _, enclose h _, i, name => h.latest? i name
  | _, bind h j other value, i, name => if i = j ∧ name = other then some value else h.latest? i name
  | _, lookup h _ _, i, name => h.latest? i name

/-- **Going outwards from `i` one gets to `j`** without meeting a scope before in which the name was ever
bound. -/
inductive Reached (h : ScopeHistory n) (name : String) : Nat → Nat → Prop
  | here {i : Nat} : Reached h name i i
  | outwards {i outer j : Nat} (hi : h.latest? i name = none) (ho : h.outer? i = some outer)
      (hj : Reached h name outer j) : Reached h name i j

/-! ## What is kept -/

/-- **The scopes keep to their history.** -/
structure Kept (h : ScopeHistory n) : Prop where
  length_eq : h.scopes.scopes.length = n
  size_eq : h.scopes.world.frames.size = n
  outer_lt : ∀ i outer, h.outer? i = some outer → outer < i
  scope_eq : ∀ i < n, h.scopes.scope i = i :: (h.outer? i).elim [] h.scopes.scope
  find?_eq : ∀ i name, Frame.find? (h.scopes.world.frame i) name = h.latest? i name

namespace Kept

theorem start : Kept .start where
  length_eq := rfl
  size_eq := rfl
  outer_lt _ _ h := by cases h
  scope_eq i hi := by
    obtain rfl : i = 0 := by omega
    rfl
  find?_eq i name := by
    have hframe : World.initial.frame i = [] := by
      rcases i with _ | i <;> rfl
    show Frame.find? (World.initial.frame i) name = none
    rw [hframe, Frame.find?_nil]

theorem enclose {h : ScopeHistory n} (hk : h.Kept) (outer : Option (Fin n)) : (h.enclose outer).Kept where
  length_eq := by
    show (h.scopes.scopes ++ [_]).length = n + 1
    rw [List.length_append, hk.length_eq, List.length_singleton]
  size_eq := by
    show (h.scopes.world.frames.push []).size = n + 1
    rw [Array.size_push, hk.size_eq]
  outer_lt i o ho := by
    rw [outer?] at ho
    split at ho
    · next hi =>
      obtain ⟨o, -, rfl⟩ := Option.map_eq_some_iff.1 ho
      rw [hi]
      exact o.isLt
    · exact hk.outer_lt i o ho
  scope_eq i hi := by
    -- The scopes there were are the same as before.
    have hsame (o : Nat) (ho : o < n) : (h.enclose outer).scopes.scope o = h.scopes.scope o :=
      h.scopes.scope_enclose_of_lt _ (by rw [hk.length_eq]; exact ho)
    rw [outer?]
    split
    · next hin =>
      have hself := h.scopes.scope_enclose_self (outer.map Fin.val)
      rw [hk.length_eq, hk.size_eq] at hself
      rw [hin]
      refine hself.trans ?_
      cases outer with
      | none => rfl
      | some o => exact congrArg _ (hsame o o.isLt).symm
    · next hne =>
      have hi : i < n := by omega
      rw [hsame i hi, hk.scope_eq i hi]
      cases ho : h.outer? i with
      | none => rfl
      | some o => exact congrArg _ (hsame o (by have := hk.outer_lt i o ho; omega)).symm
  find?_eq i name := by
    rw [scopes, Scopes.frame_enclose, hk.find?_eq, latest?]

theorem bind {h : ScopeHistory n} (hk : h.Kept) (i : Fin n) (name : String) (value : Value) :
    (h.bind i name value).Kept where
  length_eq := hk.length_eq
  size_eq := by
    show (h.scopes.world.bind _ name value).frames.size = n
    rw [World.size_frames_bind, hk.size_eq]
  outer_lt := hk.outer_lt
  scope_eq := hk.scope_eq
  find?_eq j other := by
    show Frame.find? ((h.scopes.world.bind (h.scopes.scope i) name value).frame j) other = _
    rw [hk.scope_eq i i.isLt, World.find?_frame_bind, hk.size_eq, hk.find?_eq, latest?]
    simp only [i.isLt, true_and, eq_comm]

end Kept

/-- **Every history is kept to.** -/
theorem kept (h : ScopeHistory n) : h.Kept := by
  induction h with
  | start => exact .start
  | enclose _ outer ih => exact ih.enclose outer
  | bind _ i name value ih => exact ih.bind i name value
  | lookup _ _ _ ih => exact { ih with }

/-! ## Looking names up -/

variable (h : ScopeHistory n)

/-- A name is looked up in a scope first, and then around it. -/
theorem get?_eq (hi : i < n) (name : String) :
    h.scopes.get? i name =
      (h.latest? i name).or ((h.outer? i).bind fun outer => h.scopes.get? outer name) := by
  rw [Scopes.get?, h.kept.scope_eq i hi, World.lookup?, h.kept.find?_eq]
  cases h.latest? i name with
  | some value => rfl
  | none => cases h.outer? i <;> rfl

theorem reached_iff :
    h.Reached name i j ↔
      j = i ∨ h.latest? i name = none ∧ ∃ outer, h.outer? i = some outer ∧ h.Reached name outer j := by
  constructor
  · intro hj
    cases hj with
    | here => exact .inl rfl
    | outwards hi ho hj => exact .inr ⟨hi, _, ho, hj⟩
  · rintro (rfl | ⟨hi, outer, ho, hj⟩)
    · exact .here
    · exact .outwards hi ho hj

/-- **A name stands for what it was last bound to in the nearest scope in which it was bound.** -/
theorem get?_eq_some_iff (hi : i < n) (name : String) (value : Value) :
    h.scopes.get? i name = some value ↔ ∃ j, h.Reached name i j ∧ h.latest? j name = some value := by
  induction i using Nat.strongRecOn with
  | _ i ih =>
    rw [h.get?_eq hi]
    simp only [h.reached_iff (i := i), or_and_right, exists_or, exists_eq_left]
    cases hlatest : h.latest? i name with
    | some found => simp
    | none =>
      cases houter : h.outer? i with
      | none => simp
      | some outer =>
        have hlt := h.kept.outer_lt i outer houter
        simpa using ih outer hlt (by omega)

/-- Binding a name makes no difference to other names. -/
theorem get?_bind_of_ne (i : Fin n) {other : String} (hne : other ≠ name) (value : Value) (j : Nat) :
    (h.bind i name value).scopes.get? j other = h.scopes.get? j other :=
  World.lookup?_bind_of_ne _ _ _ hne value

/-- **Binding a name is seen from where its place is reached**, and from nowhere else. -/
theorem get?_bind_self (i : Fin n) (name : String) (value : Value) (hj : j < n) :
    (h.Reached name j i → (h.bind i name value).scopes.get? j name = some value) ∧
      (¬ h.Reached name j i → (h.bind i name value).scopes.get? j name = h.scopes.get? j name) := by
  induction j using Nat.strongRecOn with
  | _ j ih =>
    rw [reached_iff, get?_eq _ hj, h.get?_eq hj, latest?, outer?]
    by_cases hji : j = i
    · simp [hji]
    · rw [if_neg fun h => hji h.1]
      cases hlatest : h.latest? j name with
      | some found => simp [Ne.symm hji]
      | none =>
        cases houter : h.outer? j with
        | none => simp [Ne.symm hji]
        | some outer =>
          have hlt := h.kept.outer_lt j outer houter
          simpa [Ne.symm hji] using ih outer hlt (by omega)

theorem get?_eq_none_iff (hi : i < n) (name : String) :
    h.scopes.get? i name = none ↔ ∀ j, h.Reached name i j → h.latest? j name = none := by
  simp only [Option.eq_none_iff_forall_ne_some, ne_eq, h.get?_eq_some_iff hi]
  grind

/-- **Names are looked up along chains of scopes**, whatever has been done before.  A scope consists of
itself and the scope around it, which has a smaller number, so there are no cycles.  From a scope a name
stands for what it was last bound to in the nearest scope outwards in which it was ever bound, and for
nothing if there is none.  Binding a name makes a difference to that name only, and only from where the
scope of the binding is reached before any other in which the name was bound. -/
theorem get?_nearest (h : ScopeHistory n) :
    (∀ i : Fin n, h.scopes.scope i = i.val :: (h.outer? i).elim [] h.scopes.scope) ∧
      (∀ i outer, h.outer? i = some outer → outer < i) ∧
      (∀ (i : Fin n) name,
        (∀ value, h.scopes.get? i name = some value ↔
          ∃ j, h.Reached name i j ∧ h.latest? j name = some value) ∧
        (h.scopes.get? i name = none ↔ ∀ j, h.Reached name i j → h.latest? j name = none)) ∧
      ∀ (i j : Fin n) (name other : String) (value : Value),
        (other = name ∧ h.Reached name j i →
          (h.bind i name value).scopes.get? j other = some value) ∧
        (¬ (other = name ∧ h.Reached name j i) →
          (h.bind i name value).scopes.get? j other = h.scopes.get? j other) := by
  refine ⟨fun i => h.kept.scope_eq i i.isLt, h.kept.outer_lt, fun i name => ?_,
    fun i j name other value => ?_⟩
  · exact ⟨h.get?_eq_some_iff i.isLt name, h.get?_eq_none_iff i.isLt name⟩
  · by_cases hname : other = name
    · subst hname
      simpa using h.get?_bind_self i other value j.isLt
    · simpa [hname] using h.get?_bind_of_ne i hname value j

/-- Three scopes inside one another: a name that is bound around the innermost one hides what it is bound
to outside of that, before and after. -/
theorem get?_nearest_shadowed : ∃ h : ScopeHistory 3,
    h.outer? 2 = some 1 ∧ h.outer? 1 = some 0 ∧ h.scopes.scope 2 = [2, 1, 0] ∧
      h.latest? 0 "x" = some (.int 1) ∧ h.scopes.get? 2 "x" = some (.int 2) ∧
      (h.bind 0 "x" (.int 3)).scopes.get? 2 "x" = some (.int 2) ∧
      (h.bind 0 "x" (.int 3)).scopes.get? 0 "x" = some (.int 3) := by
  let made : ScopeHistory 3 := (start.enclose (some 0)).enclose (some 1)
  let h : ScopeHistory 3 := (made.bind 0 "x" (.int 1)).bind 1 "x" (.int 2)
  obtain ⟨hscope, -, hget, hbind⟩ := get?_nearest h
  have hreached : h.Reached "x" 2 1 := .outwards rfl rfl .here
  have hhidden : ¬ h.Reached "x" 2 0 := by
    intro h0
    cases h0 with
    | outwards _ ho h0 =>
      cases ho
      cases h0 with
      | outwards hnone _ _ => cases hnone
  have hinner := ((hget 2 "x").1 (.int 2)).2 ⟨1, hreached, rfl⟩
  refine ⟨h, rfl, rfl, ?_, rfl, hinner, ?_, ?_⟩
  · exact hscope 2
  · exact ((hbind 0 2 "x" "x" (.int 3)).2 fun h0 => hhidden h0.2).trans hinner
  · exact (hbind 0 0 "x" "x" (.int 3)).1 ⟨rfl, .here⟩

end ScopeHistory

end LimLang
