import LimLang.Evaluation
import LimLang.Proofs.Outcome
import LimLang.Proofs.WellFormed

/-! # Sound values

A value is *sound* if it is data through and through: no error, no returned value and no absence of a
value is hidden in it, at any depth, and the functions in it have well-formed bodies.  A world is sound
if all its frames hold sound values only, whether or not anything can still see them.

Everything that is computed from sound values, in a sound world, is sound or an error: operators on
operands of any types, indices of any size, built-in functions of any number of arguments.  Nothing
crashes but the writing of a value that reaches too far.
-/
namespace LimLang

variable {V : Vocabulary}

/-- **Data**, at every depth. -/
inductive Value.Sound (V : Vocabulary) : Value → Prop
  | int {n : Int} : Sound V (.int n)
  | bool {b : Bool} : Sound V (.bool b)
  | string {s : String} : Sound V (.string s)
  | null : Sound V .null
  | array {id : Nat} {elements : List Value} (h : ∀ v ∈ elements, Sound V v) :
      Sound V (.array id elements)
  | function {id : Nat} {closure : Closure} (h : closure.body.Fits V .body) :
      Sound V (.function id closure)
  | builtin {b : Builtin} : Sound V (.builtin b)

/-- **A world that holds data only.** -/
def World.Sound (V : Vocabulary) (w : World) : Prop :=
  ∀ frame ∈ w.frames, ∀ binding ∈ frame, binding.2.Sound V

/-! ## Worlds -/

namespace World

variable {P : Value → Prop} {w : World} {scope : Scope} {name : String} {value : Value}

/-- **All values that a world holds have the property `P`.** -/
def Holds (P : Value → Prop) (w : World) : Prop :=
  ∀ frame ∈ w.frames, ∀ binding ∈ frame, P binding.2

theorem holds_initial : World.initial.Holds P := by
  intro frame hf binding hb
  simp only [initial, List.mem_toArray, List.mem_singleton] at hf
  subst hf
  cases hb

theorem Holds.frame (hw : w.Holds P) (id : FrameId) : ∀ binding ∈ w.frame id, P binding.2 := by
  intro binding hb
  unfold World.frame at hb
  rw [Array.getD_eq_getD_getElem?] at hb
  cases h : w.frames[id]? with
  | none => simp [h] at hb
  | some frame =>
    rw [h] at hb
    exact hw frame (Array.mem_of_getElem? h) binding hb

theorem Holds.lookup? (hw : w.Holds P) (h : w.lookup? scope name = some value) : P value := by
  induction scope with
  | nil => cases h
  | cons id outer ih =>
    unfold World.lookup? at h
    split at h
    · next found hfind =>
      obtain rfl := Option.some.inj h
      obtain ⟨before, after, hframe, -⟩ := List.lookup_eq_some_iff.1 hfind
      refine hw.frame id (name, found) ?_
      rw [hframe]
      exact List.mem_append_right _ List.mem_cons_self
    · exact ih h

theorem mem_bind {frame : Frame} {binding : String × Value}
    (h : binding ∈ frame.bind name value) : binding.2 = value ∨ binding ∈ frame := by
  fun_induction Frame.bind frame name value with
  | case1 => exact .inl (by rw [List.mem_singleton.1 h])
  | case2 =>
    rcases List.mem_cons.1 h with rfl | h
    · exact .inl rfl
    · exact .inr (List.mem_cons_of_mem _ h)
  | case3 _ _ _ _ ih =>
    rcases List.mem_cons.1 h with rfl | h
    · exact .inr List.mem_cons_self
    · exact (ih h).imp_right (List.mem_cons_of_mem _)

theorem Holds.bind (hw : w.Holds P) (hv : P value) : (w.bind scope name value).Holds P := by
  cases scope with
  | nil => exact hw
  | cons id outer =>
    intro frame hf binding hb
    obtain ⟨i, hi⟩ := Array.mem_iff_getElem?.1 hf
    simp only [World.bind, Array.getElem?_modify] at hi
    split at hi
    · obtain ⟨old, hold, rfl⟩ := Option.map_eq_some_iff.1 hi
      rcases mem_bind hb with h | h
      · rw [h]
        exact hv
      · exact hw old (Array.mem_of_getElem? hold) binding h
    · exact hw frame (Array.mem_of_getElem? hi) binding hb

theorem Holds.enclosed (hw : w.Holds P) : (w.enclosed scope).1.Holds P := by
  intro frame hf binding hb
  rcases Array.mem_push.1 hf with h | rfl
  · exact hw frame h binding hb
  · cases hb

theorem Holds.bindParameters {parameters : List Ident} {arguments : List Value} (hw : w.Holds P)
    (h : ∀ v ∈ arguments, P v) : (Eval.bindParameters scope parameters arguments w).Holds P := by
  fun_induction Eval.bindParameters scope parameters arguments w with
  | case1 parameter parameters argument arguments w ih =>
    obtain ⟨ha, hs⟩ := List.forall_mem_cons.1 h
    exact ih (hw.bind ha) hs
  | case2 => exact hw

theorem sound_initial : World.initial.Sound V := holds_initial

theorem Sound.fresh (hw : w.Sound V) (id : Nat) : ({ w with nextId := id } : World).Sound V := hw

theorem Sound.write (hw : w.Sound V) (text : String) : (w.write text).Sound V := hw

theorem Sound.lookup? (hw : w.Sound V) (h : w.lookup? scope name = some value) : value.Sound V :=
  Holds.lookup? hw h

theorem Sound.bind (hw : w.Sound V) (hv : value.Sound V) : (w.bind scope name value).Sound V :=
  Holds.bind hw hv

theorem Sound.enclosed (hw : w.Sound V) : (w.enclosed scope).1.Sound V :=
  Holds.enclosed hw

theorem Sound.bindParameters {parameters : List Ident} {arguments : List Value} (hw : w.Sound V)
    (h : ∀ v ∈ arguments, v.Sound V) :
    (Eval.bindParameters scope parameters arguments w).Sound V :=
  Holds.bindParameters hw h

end World

/-! ## Writing -/

theorem Node.misplacedIn?_eq_none {nodes : List Node} (h : ∀ n ∈ nodes, n.misplaced? = none) :
    Node.misplacedIn? nodes = none := by
  induction nodes with
  | nil => rw [Node.misplacedIn?]
  | cons n nodes ih =>
    obtain ⟨hn, hs⟩ := List.forall_mem_cons.1 h
    rw [Node.misplacedIn?, hn, ih hs]
    rfl

/-- A well-formed tree can be rendered. -/
theorem Node.Fits.misplaced? {place : Place} {node : Node} (h : node.Fits V place) :
    node.misplaced? = none := by
  induction h with
  | array _ ih => rw [Node.misplaced?, misplacedIn?_eq_none ih]
  | unary _ _ ih => rw [Node.misplaced?, ih]
  | binary _ _ _ ihl ihr => rw [Node.misplaced?, ihl, ihr]; rfl
  | call _ _ ihf ih => rw [Node.misplaced?, ihf, misplacedIn?_eq_none ih]; rfl
  | index _ _ ihl ihp => rw [Node.misplaced?, ihl, ihp]; rfl
  | declare _ _ ih => rw [Node.misplaced?, ih]
  | declareArray _ _ _ ih => rw [Node.misplaced?, ih]
  | returnValue _ ih => rw [Node.misplaced?, ih]
  | expression _ ih => rw [Node.misplaced?, ih]
  | function _ _ _ _ ih => rw [Node.misplaced?, ih]
  | branches _ ih => exact ih
  | ifThen _ _ ihc ihb => rw [Node.misplaced?, ihc, ihb]; rfl
  | @ifElse _ _ _ next _ _ hn ihc ihb ihn =>
    have hlink : next.isLink := by
      cases hn with
      | otherwise _ => rfl
      | elseIf h => cases h <;> rfl
    rw [Node.misplaced?, ihc, ihb, if_pos hlink, ihn]
    rfl
  | otherwise _ ih => rw [Node.misplaced?, ih]
  | elseIf _ ih => exact ih
  | block _ ih => rw [Node.misplaced?, misplacedIn?_eq_none ih]
  | program _ ih => rw [Node.misplaced?, misplacedIn?_eq_none ih]
  | _ => rw [Node.misplaced?]

namespace Value

theorem flawIn?_eq_none {values : List Value} (h : ∀ v ∈ values, v.flaw? = none) :
    flawIn? values = none := by
  induction values with
  | nil => rw [flawIn?]
  | cons v values ih =>
    obtain ⟨hv, hs⟩ := List.forall_mem_cons.1 h
    rw [flawIn?, hv, ih hs]
    rfl

/-- Data can be written. -/
theorem Sound.flaw? {value : Value} (h : value.Sound V) : value.flaw? = none := by
  induction h with
  | array _ ih => rw [Value.flaw?, flawIn?_eq_none ih]
  | function h => simp [Value.flaw?, Node.flaw?, h.misplaced?]
  | _ => rw [Value.flaw?] <;> simp

/-- Data have a type. -/
theorem Sound.exists_type? {value : Value} (h : value.Sound V) : ∃ type, value.type? = some type := by
  cases h <;> exact ⟨_, rfl⟩

end Value

/-! ## Operations -/

namespace Eval

variable {w : World} {a b : Value}

/-- **What becomes of an operation**: data or an error, in a sound world, or the crash that the
nesting is too deep. -/
def Yields (V : Vocabulary) (x : Eval Value) (w : World) : Prop :=
  Outcome x w (fun v w' => (v.Sound V ∨ ∃ message, v = .error message) ∧ w'.Sound V)
    (fun crash w' => crash = .tooDeep ∧ w'.Sound V)

theorem yields_sound (ha : a.Sound V) (hw : w.Sound V) : Yields V (pure a) w :=
  ⟨.inl ha, hw⟩

theorem yields_error (message : String) (hw : w.Sound V) : Yields V (pure (.error message)) w :=
  ⟨.inr ⟨message, rfl⟩, hw⟩

/-- The type of data is there. -/
theorem typeOf_eq (ha : a.Sound V) : ∃ type, typeOf a = pure type := by
  obtain ⟨type, htype⟩ := ha.exists_type?
  exact ⟨type, by rw [typeOf, htype]⟩

theorem unary_yields (operator : String) (ha : a.Sound V) (hw : w.Sound V) :
    Yields V (unary operator a) w := by
  obtain ⟨type, htype⟩ := typeOf_eq ha
  unfold unary
  rw [htype]
  split
  · exact yields_sound .bool hw
  · split
    · exact yields_sound .int hw
    · exact yields_sound .int hw
    · exact yields_error _ hw

theorem binaryInt_sound (operator : String) (m n : Int) :
    (binaryInt operator m n).Sound V ∨ ∃ message, binaryInt operator m n = .error message := by
  unfold binaryInt
  repeat' split
  all_goals first
    | exact .inl .int
    | exact .inl .bool
    | exact .inr ⟨_, rfl⟩

theorem binary_yields (operator : String) (ha : a.Sound V) (hb : b.Sound V) (hw : w.Sound V) :
    Yields V (binary operator a b) w := by
  obtain ⟨left, hleft⟩ := typeOf_eq ha
  obtain ⟨right, hright⟩ := typeOf_eq hb
  unfold binary
  rw [hleft, hright, pure_bind]
  split
  · exact ⟨binaryInt_sound operator _ _, hw⟩
  · split
    · exact yields_sound .string hw
    · exact yields_error _ hw
  · cases hb
  · cases hb
  · split
    · exact yields_sound .bool hw
    · split
      · exact yields_sound .bool hw
      · rw [pure_bind]
        split <;> exact yields_error _ hw

theorem index_yields (ha : a.Sound V) (hb : b.Sound V) (hw : w.Sound V) :
    Yields V (index a b) w := by
  obtain ⟨left, hleft⟩ := typeOf_eq ha
  obtain ⟨place, hplace⟩ := typeOf_eq hb
  unfold index
  split
  · next elements =>
    cases ha with
    | array helements =>
      split
      · split
        · next element hget =>
          -- An element is there only if the index is not negative.
          split at hget
          · exact yields_sound (helements _ (List.mem_of_getElem? hget)) hw
          · cases hget
        · exact yields_error _ hw
      · rw [hplace]
        exact yields_error _ hw
  · rw [hleft]
    exact yields_error _ hw

theorem identifier_yields (scope : Scope) (name : String) (hw : w.Sound V) :
    Yields V (identifier scope name) w := by
  unfold identifier Yields
  rw [Outcome.bind_iff, Outcome.get_iff]
  split
  · next hlookup => cases hw.lookup? hlookup
  · split
    · exact yields_sound .builtin hw
    · exact yields_error _ hw
  · next hlookup => exact yields_sound (hw.lookup? hlookup) hw

theorem callBuiltin_yields (room : Room) (builtin : Builtin) {arguments : List Value}
    (h : ∀ v ∈ arguments, v.Sound V) (hw : w.Sound V) :
    Yields V (callBuiltin room builtin arguments) w := by
  unfold callBuiltin
  split
  · next argument =>
    obtain ⟨type, htype⟩ := typeOf_eq (h argument List.mem_cons_self)
    split
    · exact yields_sound .int hw
    · exact yields_sound .int hw
    · rw [htype]
      exact yields_error _ hw
  · exact yields_error _ hw
  · have hflaw : Value.flawIn? arguments = none :=
      Value.flawIn?_eq_none fun v hv => (h v hv).flaw?
    unfold Value.writtenAll Room.guard
    rw [hflaw]
    -- The arguments are written if there is room for them.
    by_cases hroom : room.holds (Value.reachAll arguments)
    · rw [if_pos hroom]
      exact yields_sound .null (hw.write _)
    · rw [if_neg hroom]
      exact ⟨rfl, hw⟩

end Eval

end LimLang
