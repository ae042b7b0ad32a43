import LimLang.Proofs.Moments

/-! # Identity and equality

Arrays and functions compare by the number they were made with.  No number is used twice: all that has been
made can be listed in the order of making, and whatever carries a number is the entry of the list at that
number.  So the values at hand with the same number are the same, and equality comes down to being the same
value, except that strings cannot be compared.

A value is handed on as it is: by a declaration to the name, by a call to a parameter, by a return to the
caller, by an array to the place in it.
-/
namespace LimLang

variable {V : Vocabulary} {w : World} {scope : Scope} {held : List Value} {u v : Value}

/-! ## The list of all that has been made -/

namespace Value

/-- The number that a value was made with. -/
def number? : Value → Option Nat
  | array id _ | function id _ | returned id _ => some id
  | int _ | bool _ | string _ | null | builtin _ | error _ | absent => none

theorem number?_of_isPlain (h : v.isPlain) : v.number? = none := by
  cases v <;> first | rfl | cases h

/-- **A registered value**: whatever in it carries a number is listed at that number. -/
inductive Registered (V : Vocabulary) (made : List Value) : Value → Prop
  | plain {v : Value} (h : v.number? = none) : Registered V made v
  | array {id : Nat} {elements : List Value} (h : made[id]? = some (.array id elements))
      (hes : ∀ v ∈ elements, Registered V made v) : Registered V made (.array id elements)
  | function {id : Nat} {closure : Closure} (h : made[id]? = some (.function id closure))
      (hb : closure.body.Fits V .body) : Registered V made (.function id closure)
  | returned {id : Nat} {v : Value} (h : made[id]? = some (.returned id v))
      (hv : Registered V made v) : Registered V made (.returned id v)

namespace Registered

variable {made more : List Value}

theorem mono (h : v.Registered V made) (hp : made <+: more) : v.Registered V more := by
  have hat : ∀ {id : Nat} {x : Value}, made[id]? = some x → more[id]? = some x := by
    intro id x hx
    obtain ⟨rest, rfl⟩ := hp
    rw [List.getElem?_append_left (List.getElem?_eq_some_iff.1 hx).1, hx]
  induction h with
  | plain h => exact .plain h
  | array h _ ih => exact .array (hat h) ih
  | function h hb => exact .function (hat h) hb
  | returned h _ ih => exact .returned (hat h) ih

/-- What carries a number is listed there. -/
theorem getElem? (h : v.Registered V made) {id : Nat} (hid : v.number? = some id) :
    made[id]? = some v := by
  cases h with
  | plain h =>
    rw [h] at hid
    cases hid
  | array h _ =>
    cases hid
    exact h
  | function h _ =>
    cases hid
    exact h
  | returned h _ =>
    cases hid
    exact h

/-- **What carries a number is told by it.** -/
theorem eq_of_number? (hu : u.Registered V made) (hv : v.Registered V made) {id : Nat}
    (hid : u.number? = some id) (hid' : v.number? = some id) : u = v :=
  Option.some.inj ((hu.getElem? hid).symm.trans (hv.getElem? hid'))

/-- What is made next is listed next. -/
theorem makes {closure : Closure → Prop} (hclosure : ∀ c, closure c → c.body.Fits V .body)
    {x : Nat → Value} (h : Makes (Registered V made) closure x) :
    (x made.length).Registered V (made ++ [x made.length]) := by
  have hp : made <+: made ++ [x made.length] := List.prefix_append _ _
  have hlast : (made ++ [x made.length])[made.length]? = some (x made.length) :=
    List.getElem?_concat_length
  cases h with
  | array hes => exact .array hlast fun v hv => (hes v hv).mono hp
  | function hc => exact .function hlast (hclosure _ hc)
  | returned hv => exact .returned hlast (hv.mono hp)

end Registered

end Value

/-- **All that has been made can be listed**, as long as a world evolves. -/
def registry (V : Vocabulary) : Accord where
  Known := List Value
  le := (· <+: ·)
  worlds made w w' := w = w' ∧ made.length = w.nextId ∧ w.Holds (Value.Registered V made)
  value := Value.Registered V
  scope _ _ := True
  code c := c.body.Fits V .body
  tree _ node := ∃ place, node.Fits V place
  reads _ := True
  binds _ _ := True
  halts _ := True
  le_refl := List.prefix_refl
  le_trans := List.IsPrefix.trans
  value_mono hp h := h.mono hp
  scope_mono _ h := h
  fault _ := trivial
  plain h := .plain (Value.number?_of_isPlain h)
  wrapped _ := .plain rfl
  builtin _ _ := .plain rfl
  length _ _ := .plain rfl
  element h := by
    cases h with
    | plain h => cases h
    | array _ hes => exact hes
  content h := by
    cases h with
    | plain h => cases h
    | returned _ hv => exact hv
  closure h := by
    cases h with
    | plain h => cases h
    | function _ hb => exact ⟨hb, trivial⟩
  make := by
    rintro made w _ x ⟨rfl, hlength, hw⟩ hx
    refine ⟨rfl, made ++ [x w.nextId], List.prefix_append _ _, ?_, rfl, ?_, ?_⟩
    · exact hlength ▸ .makes (fun _ hc => hc.1) hx
    · rw [List.length_append, hlength]
      rfl
    · exact fun frame hf binding hb => (hw frame hf binding hb).mono (List.prefix_append _ _)
  lookup := by
    rintro made w _ s n ⟨rfl, _, hw⟩ _ _
    exact ⟨rfl, fun v hv => hw.lookup? hv⟩
  bind := by
    rintro made w _ s n v ⟨rfl, hlength, hw⟩ _ _ hv
    refine ⟨rfl, ?_, hw.bind hv⟩
    rw [hlength]
    cases s <;> rfl
  enter := by
    rintro made w _ c ⟨rfl, hlength, hw⟩ hc _
    exact ⟨rfl, made, List.prefix_refl _, trivial, ⟨rfl, hlength, hw.enclosed⟩, ⟨_, hc⟩,
      fun _ _ => trivial⟩
  write := by
    rintro made w _ text ⟨rfl, hlength, hw⟩
    exact ⟨rfl, hlength, hw⟩

theorem registry_speaks (V : Vocabulary) : (registry V).Speaks V where
  tree_iff _ _ := Iff.rfl
  int _ _ := .plain rfl
  reads _ := trivial
  varName _ := trivial
  functionName _ := trivial
  code _ hb := hb
  tooDeep := trivial

/-- **At every moment the values at hand are registered.** -/
theorem Moment.exists_registered (h : Moment V w scope held) :
    ∃ made : List Value, made.length = w.nextId ∧ ∀ v ∈ held, v.Registered V made := by
  have hstart : (registry V).Covers World.initial World.globalScope [] :=
    ⟨[], ⟨rfl, rfl, World.holds_initial⟩, trivial, by simp⟩
  obtain ⟨made, ⟨-, hlength, -⟩, -, hheld⟩ := Accord.covers_moment (registry_speaks V) hstart h
  exact ⟨made, hlength, hheld⟩

/-! ## Equality -/

namespace Value

/-- A string. -/
def isString : Value → Bool
  | string _ => true
  | _ => false

/-- An array or a function, defined or built in. -/
def isObject : Value → Bool
  | array _ _ | function _ _ | builtin _ => true
  | _ => false

/-- Whether `==` holds between two values: integers have a comparison of their own. -/
def alike : Value → Value → Bool
  | int m, int n => decide (m = n)
  | u, v => u.identical v

/-- **Equal values**: `==` has the value `true`. -/
def Equals (u v : Value) : Prop :=
  Eval.binary "==" u v = pure (.bool true)

end Value

/-- What `==` makes of data. -/
theorem Eval.binary_equal (hu : u.Sound V) (hv : v.Sound V) :
    binary "==" u v = pure (if u.isString && v.isString then .error "unknown operator: STRING == STRING"
      else .bool (u.alike v)) := by
  cases hu <;> cases hv <;> rfl

/-- What `!=` makes of data. -/
theorem Eval.binary_differ (hu : u.Sound V) (hv : v.Sound V) :
    binary "!=" u v = pure (if u.isString && v.isString then .error "unknown operator: STRING != STRING"
      else .bool (!u.alike v)) := by
  cases hu <;> cases hv <;> first
    | rfl
    | simp [binary, binaryInt, Value.alike, Value.isString, typeOf, Value.type?]

theorem Eval.pure_inj {α : Type} {a b : α} : (pure a : Eval α) = pure b ↔ a = b := by
  constructor
  · intro h
    have hrun := congrFun h World.initial
    exact (EStateM.Result.ok.inj hrun).1
  · rintro rfl
    rfl

namespace Value

/-- Values that are alike are the same or carry one number, and are no strings. -/
theorem of_alike (h : u.alike v) :
    (u = v ∨ ∃ id, u.number? = some id ∧ v.number? = some id) ∧ !u.isString := by
  have hnumber : ∀ {m n : Nat}, m == n → ∃ id, some m = some id ∧ some n = some id :=
    fun {m} {_} hmn => ⟨m, rfl, congrArg some (eq_of_beq hmn).symm⟩
  unfold alike at h
  split at h
  · exact ⟨.inl (congrArg int (of_decide_eq_true h)), rfl⟩
  · unfold identical at h
    split at h
    · exact ⟨.inl (congrArg bool (eq_of_beq h)), rfl⟩
    · exact ⟨.inl rfl, rfl⟩
    · exact ⟨.inr (hnumber h), rfl⟩
    · exact ⟨.inr (hnumber h), rfl⟩
    · exact ⟨.inl (congrArg builtin (eq_of_beq h)), rfl⟩
    · exact ⟨.inr (hnumber h), rfl⟩
    · cases h

theorem alike_self (hu : u.Sound V) (h : !u.isString) : u.alike u := by
  cases hu with
  | string => cases h
  | _ => simp [alike, identical]

/-- **Equal values are the same**, and all but strings are equal to themselves. -/
theorem Registered.alike_iff {made : List Value} (hu : u.Registered V made) (hv : v.Registered V made)
    (hsound : u.Sound V) : u.alike v ↔ u = v ∧ !u.isString := by
  constructor
  · intro h
    obtain ⟨rfl | ⟨id, hid, hid'⟩, hstring⟩ := of_alike h
    · exact ⟨rfl, hstring⟩
    · exact ⟨hu.eq_of_number? hv hid hid', hstring⟩
  · rintro ⟨rfl, hstring⟩
    exact alike_self hsound hstring

end Value

/-- **At every moment, equal values are the same**, and all but strings are equal to themselves. -/
theorem Moment.equals_iff (h : Moment V w scope held) (hu : u ∈ held) (hv : v ∈ held) :
    u.Equals v ↔ u = v ∧ !u.isString := by
  obtain ⟨made, -, hmade⟩ := h.exists_registered
  have hsound := h.sound.2
  unfold Value.Equals
  rw [Eval.binary_equal (hsound u hu) (hsound v hv), Eval.pure_inj]
  split
  · next hstrings =>
    obtain ⟨hstring, -⟩ := Bool.and_eq_true_iff.1 hstrings
    simp [hstring]
  · rw [Value.bool.injEq]
    exact (hmade u hu).alike_iff (hmade v hv) (hsound u hu)

/-- What is made next gets a number that nothing at hand carries. -/
theorem Moment.number?_lt (h : Moment V w scope held) (hu : u ∈ held) {id : Nat}
    (hid : u.number? = some id) : id < w.nextId := by
  obtain ⟨made, hlength, hmade⟩ := h.exists_registered
  rw [← hlength]
  exact (List.getElem?_eq_some_iff.1 ((hmade u hu).getElem? hid)).1

/-! ## Handing on -/

namespace World

theorem lookup?_bind_self {id : FrameId} (hid : id < w.frames.size) (outer : Scope) (name : String) :
    (w.bind (id :: outer) name u).lookup? (id :: outer) name = some u := by
  rw [lookup?, frame_bind_self w hid, Frame.find?_bind, if_pos rfl]

/-- A name that no parameter has keeps what it stands for. -/
theorem lookup?_bindParameters_of_notMem (inner : Scope) {parameters : List Ident}
    (arguments : List Value) {name : String} (hname : name ∉ parameters.map Ident.name) :
    (Eval.bindParameters inner parameters arguments w).lookup? scope name = w.lookup? scope name := by
  fun_induction Eval.bindParameters inner parameters arguments w with
  | case1 parameter parameters argument arguments w ih =>
    rw [List.map_cons, List.mem_cons, not_or] at hname
    rw [ih hname.2, lookup?_bind_of_ne w inner scope hname.1]
  | case2 => rfl

/-- A parameter stands for its argument, unless a later one has its name. -/
theorem lookup?_bindParameters {id : FrameId} (hid : id < w.frames.size) (outer : Scope)
    {parameters : List Ident} {arguments : List Value} {place : Nat} {i : Ident}
    (hi : parameters[place]? = some i) (hu : arguments[place]? = some u)
    (hlast : i.name ∉ (parameters.drop (place + 1)).map Ident.name) :
    (Eval.bindParameters (id :: outer) parameters arguments w).lookup? (id :: outer) i.name =
      some u := by
  induction parameters generalizing arguments place w with
  | nil => cases hi
  | cons parameter parameters ih =>
    cases arguments with
    | nil => cases hu
    | cons argument arguments =>
      rw [Eval.bindParameters]
      cases place with
      | zero =>
        cases hi
        cases hu
        have hnone : i.name ∉ parameters.map Ident.name := hlast
        rw [lookup?_bindParameters_of_notMem _ _ hnone, lookup?_bind_self hid]
      | succ place => exact ih ((size_frames_bind ..).symm ▸ hid) hi hu hlast

end World

/-- **How a value is handed on** where evaluation goes on in `scope`: what arrives is the value itself. -/
structure HandedOn (V : Vocabulary) (room : Room) (u : Value) (scope : Scope) (w : World) : Prop where
  /-- A name that is declared stands for the value it is declared with. -/
  bound : ∀ (depth : Nat) (declaration e : Node) (i : Ident) (w₁ : World), e.Fits V .expression →
    eval room depth e scope w = .ok u w₁ →
    ((∃ t type, declaration = .declare t type i e) ∨ ∃ t kind, declaration = .declareArray t kind i e) →
    ∃ result w₂, eval room (depth + 1) declaration scope w = .ok result w₂ ∧
      eval room (depth + 1) (.ident i) scope w₂ = .ok u w₂
  /-- In a call, a parameter stands for its argument, unless a later parameter has the same name. -/
  passed : ∀ (depth : Nat) (closure : Closure) (arguments : List Value) (place : Nat) (i : Ident),
    closure.parameters[place]? = some i → arguments[place]? = some u →
    i.name ∉ (closure.parameters.drop (place + 1)).map Ident.name →
    eval room (depth + 1) (.ident i) (w.frames.size :: closure.scope) (w.entered closure arguments) =
      .ok u (w.entered closure arguments)
  /-- A return wraps the value, -/
  returned : ∀ (depth : Nat) (t : Token) (e : Node) (w₁ : World), eval room depth e scope w = .ok u w₁ →
    ∃ id w₂, eval room (depth + 1) (.returnValue t e) scope w = .ok (.returned id u) w₂
  /-- and the call unwraps it. -/
  received : ∀ (depth id number : Nat) (closure : Closure) (arguments : List Value) (w₁ : World),
    arguments.length = closure.parameters.length →
    eval room depth closure.body (w.frames.size :: closure.scope) (w.entered closure arguments) =
      .ok (.returned id u) w₁ →
    Eval.call room (eval room depth) (.function number closure) arguments w = .ok u w₁
  /-- What is stored in an array is found at its place. -/
  stored : ∀ (depth : Nat) (t : Token) (es : List Node) (values : List Value) (place : Nat) (w₁ : World),
    Eval.list (eval room depth · scope) es w = .ok (.ok values) w₁ → values[place]? = some u →
    ∃ id w₂, eval room (depth + 1) (.array t es) scope w = .ok (.array id values) w₂ ∧
      Eval.index (.array id values) (.int place) = pure u

theorem Eval.identifier_of_lookup? {name : String} (hu : u.Sound V)
    (h : w.lookup? scope name = some u) : identifier scope name w = .ok u w := by
  unfold identifier
  rw [bind_get, h]
  cases hu <;> rfl

/-- A name that is bound at some moment stands for the value it is bound to. -/
theorem Moment.lookup?_bind (h : Moment V w scope held) (name : String) (u : Value) :
    (w.bind scope name u).lookup? scope name = some u := by
  obtain ⟨links, hw, hs, -⟩ := h.exists_linked
  cases scope with
  | nil => exact hs.elim
  | cons id outer => exact World.lookup?_bind_self (hw.lt_size hs) outer name

/-- **At every moment data are handed on as they are.** -/
theorem Moment.handedOn (h : Moment V w scope held) (hu : u.Sound V) (room : Room) :
    HandedOn V room u scope w where
  bound := by
    intro depth declaration e i w₁ he hrun hdeclaration
    have hnext : Moment V w₁ scope (u :: held) := by
      refine .kept h he hrun fun message => ?_
      rintro rfl
      cases hu
    have hname := Eval.identifier_of_lookup? hu (hnext.lookup?_bind i.name u)
    rcases hdeclaration with ⟨t, type, rfl⟩ | ⟨t, kind, rfl⟩
    · refine ⟨.absent, _, ?_, hname⟩
      show (eval room depth e scope >>= _) w = _
      rw [bind_of_ok hrun]
      cases hu <;> rfl
    · refine ⟨u, _, ?_, hname⟩
      show (eval room depth e scope >>= _) w = _
      rw [bind_of_ok hrun]
      cases hu <;> rfl
  passed := by
    intro depth closure arguments place i hi hargument hlast
    refine Eval.identifier_of_lookup? hu (World.lookup?_bindParameters ?_ _ hi hargument hlast)
    rw [World.enclosed, Array.size_push]
    exact Nat.lt_succ_self _
  returned := by
    intro depth t e w₁ hrun
    refine ⟨w₁.nextId, { w₁ with nextId := w₁.nextId + 1 }, ?_⟩
    show (eval room depth e scope >>= _) w = _
    rw [bind_of_ok hrun]
    cases hu <;> rfl
  received := by
    intro depth id number closure arguments w₁ hlength hrun
    simp only [Eval.call, hlength, if_true]
    show (eval room depth closure.body (w.frames.size :: closure.scope) >>= _)
      (w.entered closure arguments) = _
    rw [bind_of_ok hrun]
    rfl
  stored := by
    intro depth t es values place w₁ hlist hvalue
    refine ⟨w₁.nextId, { w₁ with nextId := w₁.nextId + 1 }, ?_, ?_⟩
    · show (Eval.list (eval room depth · scope) es >>= _) w = _
      rw [bind_of_ok hlist]
      rfl
    · simp only [Eval.index, Int.natCast_nonneg, if_true, Int.toNat_natCast, hvalue]

/-! ## The laws of equality -/

/-- **The laws of equality**, for three values. -/
structure EqualityLaws (u v x : Value) : Prop where
  /-- Only strings cannot be compared with each other, -/
  error_iff : (∃ message, Eval.binary "==" u v = pure (.error message)) ↔ u.isString ∧ v.isString
  /-- in neither way. -/
  differ_error : u.isString → v.isString → ∃ message, Eval.binary "!=" u v = pure (.error message)
  /-- Otherwise one comparison is the negation of the other. -/
  differ : ¬(u.isString ∧ v.isString) →
    ∃ b, Eval.binary "==" u v = pure (.bool b) ∧ Eval.binary "!=" u v = pure (.bool !b)
  symm : u.Equals v → v.Equals u
  trans : u.Equals v → v.Equals x → u.Equals x
  refl : ¬u.isString → u.Equals u
  int : ∀ m n, u = .int m → v = .int n → (u.Equals v ↔ m = n)
  bool : ∀ a b, u = .bool a → v = .bool b → (u.Equals v ↔ a = b)
  null : u = .null → v = .null → u.Equals v
  type?_eq : u.Equals v → u.type? = v.type?
  /-- Arrays and functions are equal if they are one and the same. -/
  object : u.isObject → v.isObject → (u.Equals v ↔ u = v)

theorem Moment.equalityLaws (h : Moment V w scope held) (hu : u ∈ held) (hv : v ∈ held) (x : Value) :
    EqualityLaws u v x := by
  have hequals : ∀ {a b : Value}, a ∈ held → b ∈ held → (a.Equals b ↔ a = b ∧ !a.isString) :=
    fun ha hb => h.equals_iff ha hb
  have hequal := Eval.binary_equal (h.sound.2 u hu) (h.sound.2 v hv)
  have hdiffer := Eval.binary_differ (h.sound.2 u hu) (h.sound.2 v hv)
  constructor
  case error_iff =>
    rw [hequal, ← Bool.and_eq_true_iff]
    constructor
    · rintro ⟨message, hmessage⟩
      by_contra hstrings
      rw [if_neg hstrings, Eval.pure_inj] at hmessage
      cases hmessage
    · intro hstrings
      rw [if_pos hstrings]
      exact ⟨_, rfl⟩
  case differ_error =>
    intro hstring hstring'
    rw [hdiffer, if_pos (Bool.and_eq_true_iff.2 ⟨hstring, hstring'⟩)]
    exact ⟨_, rfl⟩
  case differ =>
    intro hstrings
    rw [← Bool.and_eq_true_iff] at hstrings
    rw [hequal, hdiffer, if_neg hstrings, if_neg hstrings]
    exact ⟨_, rfl, rfl⟩
  case symm =>
    intro huv
    obtain ⟨rfl, -⟩ := (hequals hu hv).1 huv
    exact huv
  case trans =>
    intro huv hvx
    obtain ⟨rfl, -⟩ := (hequals hu hv).1 huv
    exact hvx
  case refl =>
    intro hstring
    rw [hequals hu hu]
    exact ⟨rfl, by simpa using hstring⟩
  case int =>
    rintro m n rfl rfl
    rw [hequals hu hv]
    simp [Value.isString]
  case bool =>
    rintro a b rfl rfl
    rw [hequals hu hv]
    simp [Value.isString]
  case null =>
    rintro rfl rfl
    rw [hequals hu hv]
    exact ⟨rfl, rfl⟩
  case type?_eq =>
    intro huv
    rw [((hequals hu hv).1 huv).1]
  case object =>
    intro hobject _
    rw [hequals hu hv, and_iff_left]
    cases u with
    | string => cases hobject
    | _ => rfl

/-- **Equality is coherent.**  It obeys its laws on all values at hand, at every moment of a run.  What is
made next differs from all of them, since it gets a number that none of them carries.  And an array or a
function at hand is handed on as it is, to a name, to a parameter, to the caller and by way of an array,
so that it stays equal to itself. -/
theorem equality_coherent (h : Moment V w scope held) :
    (∀ u ∈ held, ∀ v ∈ held, ∀ x, EqualityLaws u v x) ∧
      (∀ u ∈ held, ∀ id, u.number? = some id → id < w.nextId) ∧
      ∀ u ∈ held, u.isObject → ∀ room, HandedOn V room u scope w :=
  ⟨fun _ hu _ hv x => h.equalityLaws hu hv x, fun _ hu _ hid => h.number?_lt hu hid,
    fun u hu _ room => h.handedOn (h.sound.2 u hu) room⟩

/-- Two arrays with the same elements, and one of them again under a name. -/
theorem equality_coherent_arrays : ∃ (w : World) (held : List Value) (u v : Value),
    Moment Vocabulary.standard w World.globalScope held ∧ u ∈ held ∧ v ∈ held ∧
      u.inspect = "[1]" ∧ v.inspect = "[1]" ∧ u.isObject ∧ u.Equals u ∧ ¬u.Equals v ∧
      HandedOn Vocabulary.standard none u World.globalScope w := by
  let t : Token := { kind := .illegal, text := "" }
  let x : Ident := { token := t, name := "x" }
  let e : Node := .array t [.int t 1]
  let u : Value := .array 0 [.int 1]
  let v : Value := .array 1 [.int 1]
  have hx : Vocabulary.standard.varName x := ⟨⟨'x', [], rfl, rfl, rfl, rfl⟩, rfl⟩
  have hone : Vocabulary.standard.int 1 := by
    simp only [Vocabulary.standard, MachineInt.bound]
    omega
  have he : e.Fits Vocabulary.standard .expression := .array (by simpa using .int hone)
  have hdeclare : (Node.program [.declareArray t "int" x e]).Fits Vocabulary.standard .program :=
    .program (List.forall_mem_singleton.2 (.declareArray ⟨.int, rfl⟩ hx he))
  let w : World := ⟨#[[("x", u)]], 1, ""⟩
  have hrun : eval none 4 (.program [.declareArray t "int" x e]) World.globalScope World.initial =
      .ok u w := rfl
  have hname : eval none 1 (.ident x) World.globalScope w = .ok u w := rfl
  have hagain : eval none 2 e World.globalScope w = .ok v { w with nextId := 2 } := rfl
  have hmoment : Moment Vocabulary.standard { w with nextId := 2 } World.globalScope [v, u] := by
    refine .kept (.kept (.start (.run .initial hdeclare hrun)) (.ident hx) hname ?_) he hagain ?_
    · simp [u]
    · simp [v]
  obtain ⟨hlaws, -, hhanded⟩ := equality_coherent hmoment
  have hu : u ∈ [v, u] := by simp
  have hv : v ∈ [v, u] := by simp
  refine ⟨_, [v, u], u, v, hmoment, hu, hv, rfl, rfl, rfl, (hlaws u hu u hu u).refl ?_, ?_,
    hhanded u hu rfl none⟩
  · simp [u, Value.isString]
  rw [(hlaws u hu v hv u).object rfl rfl]
  simp [u, v]

end LimLang
