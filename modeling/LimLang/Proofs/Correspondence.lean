import LimLang.Evaluation
import LimLang.Proofs.Outcome
import Mathlib.Data.List.Forall2

/-! # Corresponding evaluations

What is known of evaluation is mostly that two runs of it go alike: in worlds that differ in what was
written before, or in the numbers that things were made with; by evaluators of which one is watched, or may
go deeper.  What is known of a single run is that it goes like itself, in a world that has some property.

A *correspondence* says which worlds, values and scopes belong together, and which trees may be evaluated
side by side.  It has one law for each thing that evaluation does to a world or asks of a value.  What is
known grows as new things are made.

Here evaluation is gone through, once for all correspondences: there is one rule for each way of putting
evaluations together, one lemma for each operation, and one case for each kind of node (`node_keeps`), from
which the rest follows by induction on how deep evaluation may be nested (`eval_keeps`).
-/
namespace LimLang

open EStateM (Result)

variable {α β γ δ : Type}

namespace Value

/-- A value of which there is only one, wherever it is made, and which holds no number. -/
def isPlain : Value → Bool
  | bool _ | string _ | null | error _ | absent => true
  | int _ | array _ _ | function _ _ | builtin _ | returned _ _ => false

/-- **Values of one kind** with related contents. -/
inductive SameKind (value : Value → Value → Prop) (closure : Closure → Closure → Prop) :
    Value → Value → Prop
  | int {n : Int} : SameKind value closure (.int n) (.int n)
  | bool {b : Bool} : SameKind value closure (.bool b) (.bool b)
  | string {s : String} : SameKind value closure (.string s) (.string s)
  | null : SameKind value closure .null .null
  | array {m n : Nat} {as bs : List Value} (h : List.Forall₂ value as bs) :
      SameKind value closure (.array m as) (.array n bs)
  | function {m n : Nat} {c d : Closure} (h : closure c d) :
      SameKind value closure (.function m c) (.function n d)
  | builtin {b : Builtin} : SameKind value closure (.builtin b) (.builtin b)
  | returned {m n : Nat} {a b : Value} (h : value a b) :
      SameKind value closure (.returned m a) (.returned n b)
  | error {message : String} : SameKind value closure (.error message) (.error message)
  | absent : SameKind value closure .absent .absent

/-- **What is made with a new number** on two sides: arrays, functions, or values on their way out. -/
inductive MadeAlike (value : Value → Value → Prop) (closure : Closure → Closure → Prop) :
    (Nat → Value) → (Nat → Value) → Prop
  | array {as bs : List Value} (h : List.Forall₂ value as bs) :
      MadeAlike value closure (fun id => .array id as) fun id => .array id bs
  | function {c d : Closure} (h : closure c d) :
      MadeAlike value closure (fun id => .function id c) fun id => .function id d
  | returned {a b : Value} (h : value a b) :
      MadeAlike value closure (fun id => .returned id a) fun id => .returned id b

namespace SameKind

variable {value : Value → Value → Prop} {closure : Closure → Closure → Prop} {a b : Value}
  (h : a.SameKind value closure b)
include h

theorem type?_eq : a.type? = b.type? := by
  cases h <;> rfl

theorem isTruthy_eq : a.isTruthy = b.isTruthy := by
  cases h <;> rfl

end SameKind

end Value

/-- The name that a node stands for where a name is bound. -/
def Node.boundName? : Node → Option String
  | ident i => some i.name
  | string _ s => some s
  | _ => none

/-- What is no link of a chain cannot be asked for a condition. -/
theorem Eval.branches_of_not_isLink {evaluate : Node → Eval Value} {node : Node}
    (h : node.isLink = false) :
    branches evaluate node = throw (.fault (.noSuchPart node.label "condition")) := by
  cases node <;> first | rfl | cases h

/-- **A correspondence between evaluations.** -/
structure Correspondence where
  /-- What can be known. -/
  Known : Type
  /-- More may be known later. -/
  le : Known → Known → Prop
  worlds : Known → World → World → Prop
  value : Known → Value → Value → Prop
  scope : Known → Scope → Scope → Prop
  /-- Functions, as far as it was written down what they are. -/
  code : Closure → Closure → Prop
  /-- The trees that are evaluated in two scopes. -/
  tree : Scope → Scope → Node → Node → Prop
  /-- The names that are looked up. -/
  reads : String → Prop
  /-- The names that are bound in two scopes. -/
  binds : Scope → Scope → String → Prop
  /-- The crashes that may end evaluation. -/
  halts : Crash → Prop
  le_refl : ∀ k, le k k
  le_trans : ∀ {k l m}, le k l → le l m → le k m
  value_mono : ∀ {k l a b}, le k l → value k a b → value l a b
  scope_mono : ∀ {k l s s'}, le k l → scope k s s' → scope l s s'
  fault : ∀ fault, halts (.fault fault)
  plain : ∀ {k a}, a.isPlain → value k a a
  wrapped : ∀ {k} n, value k (.int (MachineInt.wrap n)) (.int (MachineInt.wrap n))
  builtin : ∀ {k n b}, reads n → Builtin.ofName? n = some b → value k (.builtin b) (.builtin b)
  /-- Where there is `len`, there are lengths. -/
  length : ∀ {k}, value k (.builtin .len) (.builtin .len) → ∀ n : Nat, value k (.int n) (.int n)
  sameKind : ∀ {k a b}, value k a b →
    a.SameKind (value k) (fun c d => code c d ∧ scope k c.scope d.scope) b
  identical : ∀ {k w w' a b c d}, worlds k w w' → value k a b → value k c d →
    a.identical c = b.identical d
  written : ∀ {k as bs}, List.Forall₂ (value k) as bs → ∀ room,
    Value.writtenAll as room = Value.writtenAll bs room
  signature : ∀ {c d}, code c d →
    c.name = d.name ∧ c.parameters.map Ident.name = d.parameters.map Ident.name
  make : ∀ {k w w' f g}, worlds k w w' →
    Value.MadeAlike (value k) (fun c d => code c d ∧ scope k c.scope d.scope) f g →
    ∃ l, le k l ∧ value l (f w.nextId) (g w'.nextId) ∧
      worlds l { w with nextId := w.nextId + 1 } { w' with nextId := w'.nextId + 1 }
  lookup : ∀ {k w w' s s' n}, worlds k w w' → scope k s s' → reads n →
    Option.Rel (value k) (w.lookup? s n) (w'.lookup? s' n)
  bind : ∀ {k w w' s s' n a b}, worlds k w w' → scope k s s' → binds s s' n → value k a b →
    worlds k (w.bind s n a) (w'.bind s' n b)
  enter : ∀ {k w w' c d}, worlds k w w' → code c d → scope k c.scope d.scope →
    let s := w.frames.size :: c.scope
    let s' := w'.frames.size :: d.scope
    ∃ l, le k l ∧ scope l s s' ∧ worlds l (w.enclosed c.scope).1 (w'.enclosed d.scope).1 ∧
      tree s s' c.body d.body ∧ ∀ i ∈ c.parameters, binds s s' i.name
  write : ∀ {k w w' text}, worlds k w w' → worlds k (w.write text) (w'.write text)

namespace Correspondence

variable (C : Correspondence)

/-- **How corresponding evaluations end**: with related results, or with the same crash. -/
inductive Ends (rel : C.Known → α → β → Prop) (k : C.Known) :
    Result Crash World α → Result Crash World β → Prop
  | ok {l : C.Known} {a : α} {b : β} {t t' : World} (hl : C.le k l) (h : rel l a b)
      (hw : C.worlds l t t') : Ends rel k (.ok a t) (.ok b t')
  | crash {l : C.Known} {crash : Crash} {t t' : World} (hl : C.le k l) (hc : C.halts crash)
      (hw : C.worlds l t t') : Ends rel k (.error crash t) (.error crash t')

/-- **Evaluations that keep a correspondence** and have results that `rel` relates. -/
def Keeps (rel : C.Known → α → β → Prop) (k : C.Known) (x : Eval α) (y : Eval β) : Prop :=
  ∀ w w', C.worlds k w w' → C.Ends rel k (x w) (y w')

/-! ## Putting evaluations together -/

variable {C} {k : C.Known} {rel : C.Known → α → β → Prop} {rel' : C.Known → γ → δ → Prop}
  {x : Eval α} {y : Eval β}

namespace Keeps

theorem pure {a : α} {b : β} (h : rel k a b) : C.Keeps rel k (Pure.pure a) (Pure.pure b) :=
  fun _ _ hw => .ok (C.le_refl k) h hw

theorem throw {crash : Crash} (h : C.halts crash) :
    C.Keeps rel k (MonadExcept.throw crash) (MonadExcept.throw crash) :=
  fun _ _ hw => .crash (C.le_refl k) h hw

/-- What comes next starts with all that is known by then. -/
theorem bind {f : α → Eval γ} {g : β → Eval δ} (hx : C.Keeps rel k x y)
    (hf : ∀ l a b, C.le k l → rel l a b → C.Keeps rel' l (f a) (g b)) :
    C.Keeps rel' k (x >>= f) (y >>= g) := by
  intro w w' hw
  have hfirst := hx w w' hw
  generalize hr : x w = r at hfirst
  generalize hr' : y w' = r' at hfirst
  cases hfirst with
  | crash hl hc hworlds =>
    rw [bind_of_error hr, bind_of_error hr']
    exact .crash hl hc hworlds
  | @ok l a b t t' hl hab hworlds =>
    rw [bind_of_ok hr, bind_of_ok hr']
    have hnext := hf l a b hl hab t t' hworlds
    generalize f a t = s at hnext
    generalize g b t' = s' at hnext
    cases hnext with
    | ok hm h hworlds' => exact .ok (C.le_trans hl hm) h hworlds'
    | crash hm hc hworlds' => exact .crash (C.le_trans hl hm) hc hworlds'

/-- What looks at the world first. -/
theorem get_bind {f : World → Eval α} {g : World → Eval β}
    (h : ∀ w w', C.worlds k w w' → C.Keeps rel k (f w) (g w')) :
    C.Keeps rel k (get >>= f) (get >>= g) :=
  fun w w' hw => h w w' hw w w' hw

/-- Changes of the world. -/
theorem updateGet {f : World → α × World} {g : World → β × World}
    (h : ∀ w w', C.worlds k w w' →
      ∃ l, C.le k l ∧ rel l (f w).1 (g w').1 ∧ C.worlds l (f w).2 (g w').2) :
    C.Keeps rel k (modifyGet f) (modifyGet g) := by
  intro w w' hw
  obtain ⟨l, hl, hrel, hworlds⟩ := h w w' hw
  exact .ok hl hrel hworlds

theorem ite {c : Prop} [Decidable c] {x' : Eval α} {y' : Eval β} (hx : C.Keeps rel k x y)
    (hx' : C.Keeps rel k x' y') : C.Keeps rel k (if c then x else x') (if c then y else y') := by
  split
  · exact hx
  · exact hx'

/-- What a value is needed for goes on with it, unless it is an error. -/
theorem operand {x y : Eval Value} {f : Value → Eval α} {g : Value → Eval β} {e : String → α}
    {e' : String → β} (hx : C.Keeps C.value k x y) (he : ∀ l message, rel l (e message) (e' message))
    (hf : ∀ l a b, C.le k l → C.value l a b → C.Keeps rel l (f a) (g b)) :
    C.Keeps rel k
      (do match ← x with
          | .error message => return e message
          | value => f value)
      (do match ← y with
          | .error message => return e' message
          | value => g value) := by
  refine hx.bind fun l a b hl hab => ?_
  have hnext := hf l a b hl hab
  cases C.sameKind hab with
  | error => exact .pure (he l _)
  | _ => exact hnext

end Keeps

theorem error_value (k : C.Known) (message : String) : C.value k (.error message) (.error message) :=
  C.plain rfl

/-! ## Operations -/

section Operations

open Eval

variable {a b c d : Value} {s s' : Scope} {n : String}

/-- What is made with a new number is known from then on. -/
theorem fresh_keeps {f g : Nat → Value}
    (h : Value.MadeAlike (C.value k) (fun c d => C.code c d ∧ C.scope k c.scope d.scope) f g) :
    C.Keeps (fun l m n => C.value l (f m) (g n)) k fresh fresh :=
  .updateGet fun _ _ hw => C.make hw h

theorem bind_keeps (hs : C.scope k s s') (hn : C.binds s s' n) (hab : C.value k a b) :
    C.Keeps (fun _ _ _ => True) k (modify fun w => w.bind s n a) (modify fun w => w.bind s' n b) :=
  .updateGet fun _ _ hw => ⟨k, C.le_refl k, trivial, C.bind hw hs hn hab⟩

theorem typeOf_congr (hab : C.value k a b) : typeOf a = typeOf b := by
  rw [typeOf, typeOf, (C.sameKind hab).type?_eq]

/-- What the type of a value is needed for. -/
theorem typeOf_keeps (a : Value) {f g : String → Eval Value}
    (h : ∀ type, C.Keeps C.value k (f type) (g type)) :
    C.Keeps C.value k (typeOf a >>= f) (typeOf a >>= g) := by
  unfold typeOf
  cases a.type? with
  | none => exact .throw (C.fault _)
  | some type => exact h type

/-- An error that tells the type of a value. -/
theorem typeError_keeps (hab : C.value k a b) (message : String → String) :
    C.Keeps C.value k (do return .error (message (← typeOf a)))
      (do return .error (message (← typeOf b))) := by
  rw [typeOf_congr hab]
  exact typeOf_keeps b fun _ => .pure (C.error_value k _)

theorem unary_keeps (operator : String) (hab : C.value k a b) :
    C.Keeps C.value k (unary operator a) (unary operator b) := by
  have hkind := C.sameKind hab
  unfold unary
  rw [hkind.isTruthy_eq]
  split
  · exact .pure (C.plain rfl)
  · split
    · cases hkind
      exact .pure (C.wrapped _)
    · cases hkind
      exact .pure (C.wrapped _)
    · next hminus hplus =>
      split
      · cases hkind
        exact (hminus _ rfl rfl).elim
      · cases hkind
        exact (hplus _ rfl rfl).elim
      · exact typeError_keeps hab _

theorem binaryInt_value (operator : String) (m n : Int) :
    C.value k (binaryInt operator m n) (binaryInt operator m n) := by
  unfold binaryInt
  repeat' split
  all_goals first
    | exact C.wrapped _
    | exact C.plain rfl

/-- All that is asked of operands is their types, which numbers or texts they are, and whether they are
identical. -/
theorem binary_congr (operator : String) (hab : C.value k a b) (hcd : C.value k c d)
    (hidentical : a.identical c = b.identical d) : binary operator a c = binary operator b d := by
  have hleft := C.sameKind hab
  have hright := C.sameKind hcd
  unfold binary
  rw [typeOf_congr hab]
  refine bind_congr fun leftType => ?_
  split
  · cases hleft
    cases hright
    rfl
  · cases hleft
    cases hright
    rfl
  · cases hleft
    cases hright
    rfl
  · cases hleft
    cases hright
    rfl
  · next hint hstring hint' hstring' =>
    rw [hidentical, typeOf_congr hcd]
    symm
    split
    · cases hleft
      cases hright
      exact (hint _ _ rfl rfl).elim
    · cases hleft
      cases hright
      exact (hstring _ _ rfl rfl).elim
    · cases hleft
      cases hright
      exact (hint' _ rfl rfl).elim
    · cases hleft
      cases hright
      exact (hstring' _ rfl rfl).elim
    · rfl

theorem binary_keeps (operator : String) (hab : C.value k a b) (hcd : C.value k c d) :
    C.Keeps C.value k (binary operator a c) (binary operator b d) := by
  have hself : C.Keeps C.value k (binary operator b d) (binary operator b d) := by
    refine typeOf_keeps b fun leftType => ?_
    split
    · exact .pure (binaryInt_value operator _ _)
    · exact .ite (.pure (C.plain rfl)) (.pure (C.error_value k _))
    · exact .throw (C.fault _)
    · exact .throw (C.fault _)
    · refine .ite (.pure (C.plain rfl)) (.ite (.pure (C.plain rfl)) ?_)
      exact typeOf_keeps _ fun _ => .ite (.pure (C.error_value k _)) (.pure (C.error_value k _))
  intro w w' hw
  rw [binary_congr operator hab hcd (C.identical hw hab hcd)]
  exact hself w w' hw

theorem getElem?_rel {R : Value → Value → Prop} {as bs : List Value} (h : List.Forall₂ R as bs)
    (i : Nat) : Option.Rel R as[i]? bs[i]? := by
  induction h generalizing i with
  | nil => exact .none
  | cons h _ ih =>
    cases i with
    | zero => exact .some h
    | succ i => exact ih i

/-- At one place of two arrays there are related elements, if any. -/
theorem index_keeps (hab : C.value k a b) (hcd : C.value k c d) :
    C.Keeps C.value k (index a c) (index b d) := by
  have hleft := typeError_keeps hab fun type => "index operator not supported: " ++ type
  have hplace := typeError_keeps hcd fun type => "array index must be INTEGER, got " ++ type
  cases C.sameKind hab with
  | @array m n as bs h =>
    cases C.sameKind hcd with
    | @int i =>
      have helement : Option.Rel (C.value k) (if 0 ≤ i then as[i.toNat]? else none)
          (if 0 ≤ i then bs[i.toNat]? else none) := by
        split
        · exact getElem?_rel h _
        · exact .none
      simp only [index, h.length_eq]
      generalize (if 0 ≤ i then as[i.toNat]? else none) = found at helement
      generalize (if 0 ≤ i then bs[i.toNat]? else none) = found' at helement
      cases helement with
      | none => exact .pure (C.error_value k _)
      | some helement => exact .pure helement
    | _ => exact hplace
  | _ => exact hleft

/-- A name stands for related values, or for the same built-in function. -/
theorem identifier_keeps (hs : C.scope k s s') (hn : C.reads n) :
    C.Keeps C.value k (identifier s n) (identifier s' n) := by
  refine .get_bind fun w w' hw => ?_
  have hlookup := C.lookup hw hs hn
  generalize w.lookup? s n = found at hlookup
  generalize w'.lookup? s' n = found' at hlookup
  cases hlookup with
  | none =>
    cases hfound : Builtin.ofName? n with
    | none => exact .pure (C.error_value k _)
    | some builtin => exact .pure (C.builtin hn hfound)
  | some hab =>
    have hvalue := Keeps.pure hab
    cases C.sameKind hab with
    | absent =>
      cases hfound : Builtin.ofName? n with
      | none => exact .pure (C.error_value k _)
      | some builtin => exact .pure (C.builtin hn hfound)
    | _ => exact hvalue

/-- What is printed is the same text. -/
theorem print_keeps {room : Room} (hroom : ∀ values crash,
    Value.writtenAll values room = .error crash → C.halts crash) {as bs : List Value}
    (h : List.Forall₂ (C.value k) as bs) :
    C.Keeps C.value k (callBuiltin room .print as) (callBuiltin room .print bs) := by
  simp only [callBuiltin]
  rw [C.written h room]
  cases hwritten : Value.writtenAll bs room with
  | error crash => exact .throw (hroom bs crash hwritten)
  | ok texts => exact fun w w' hw => .ok (C.le_refl k) (C.plain rfl) (C.write hw)

theorem len_keeps (room : Room) (hlen : C.value k (.builtin .len) (.builtin .len))
    {as bs : List Value} (h : List.Forall₂ (C.value k) as bs) :
    C.Keeps C.value k (callBuiltin room .len as) (callBuiltin room .len bs) := by
  cases h with
  | nil => exact .pure (C.error_value k _)
  | cons hab h =>
    cases h with
    | nil =>
      have herror := typeError_keeps hab fun type => "argument to `len` not supported, got " ++ type
      cases C.sameKind hab with
      | array helements =>
        simp only [callBuiltin, helements.length_eq]
        exact .pure (C.length hlen _)
      | string => exact .pure (C.length hlen _)
      | _ => exact herror
    | cons _ h =>
      simp only [callBuiltin, List.length_cons, h.length_eq]
      exact .pure (C.error_value k _)

end Operations

/-! ## Calls -/

/-- Evaluators that keep a correspondence on related trees. -/
def KeepsOn (C : Correspondence) (R : Scope → Scope → Node → Node → Prop)
    (evaluate evaluate' : Node → Scope → Eval Value) : Prop :=
  ∀ (k : C.Known) (a b : Node) (s s' : Scope), R s s' a b → C.scope k s s' →
    C.Keeps C.value k (evaluate a s) (evaluate' b s')

/-- Ways to call that keep a correspondence on related values. -/
def KeepsOnCalls (C : Correspondence) (apply apply' : Value → List Value → Eval Value) : Prop :=
  ∀ (k : C.Known) (a b : Value) (as bs : List Value), C.value k a b →
    List.Forall₂ (C.value k) as bs → C.Keeps C.value k (apply a as) (apply' b bs)

section Calls

variable {evaluate evaluate' : Node → Scope → Eval Value} {s s' : Scope}

/-- Parameters are bound to related arguments. -/
theorem worlds_bindParameters {w w' : World} (hw : C.worlds k w w') (hs : C.scope k s s')
    {is js : List Ident} (hnames : is.map Ident.name = js.map Ident.name)
    (hb : ∀ i ∈ is, C.binds s s' i.name) {as bs : List Value} (h : List.Forall₂ (C.value k) as bs) :
    C.worlds k (Eval.bindParameters s is as w) (Eval.bindParameters s' js bs w') := by
  induction h generalizing w w' is js with
  | nil => cases is <;> cases js <;> exact hw
  | @cons a b as bs hab h ih =>
    cases is with
    | nil =>
      obtain rfl := List.map_eq_nil_iff.1 hnames.symm
      exact hw
    | cons i is =>
      obtain ⟨j, js, rfl, hname, hrest⟩ := List.map_eq_cons_iff.1 hnames.symm
      obtain ⟨hi, hb⟩ := List.forall_mem_cons.1 hb
      rw [Eval.bindParameters, Eval.bindParameters, hname]
      exact ih (C.bind hw hs hi hab) hrest.symm hb

/-- Two calls begin with a new frame each, which holds the arguments. -/
theorem enter_keeps {c d : Closure} (hc : C.code c d) (hs : C.scope k c.scope d.scope)
    {as bs : List Value} (h : List.Forall₂ (C.value k) as bs) :
    C.Keeps (fun l s s' => C.scope l s s' ∧ C.tree s s' c.body d.body) k
      (modifyGet fun w =>
        let (w, scope) := w.enclosed c.scope
        (scope, Eval.bindParameters scope c.parameters as w))
      (modifyGet fun w =>
        let (w, scope) := w.enclosed d.scope
        (scope, Eval.bindParameters scope d.parameters bs w)) := by
  refine .updateGet fun w w' hw => ?_
  obtain ⟨l, hl, hnew, hworlds, htree, hb⟩ := C.enter hw hc hs
  have harguments := h.imp fun _ _ hab => C.value_mono hl hab
  exact ⟨l, hl, ⟨hnew, htree⟩, worlds_bindParameters hworlds hnew (C.signature hc).2 hb harguments⟩

/-- **Calls** of functions that belong together. -/
theorem call_keeps (room : Room) (hroom : ∀ values crash,
    Value.writtenAll values room = .error crash → C.halts crash)
    (hE : C.KeepsOn C.tree evaluate evaluate') :
    C.KeepsOnCalls (Eval.call room evaluate) (Eval.call room evaluate') := by
  intro k a b as bs hab h
  have herror := typeError_keeps hab fun type => "not a function: " ++ type
  cases C.sameKind hab with
  | @builtin builtin =>
    cases builtin with
    | print => exact print_keeps hroom h
    | len => exact len_keeps room hab h
  | @function m n c d hclosure =>
    obtain ⟨hc, hs⟩ := hclosure
    obtain ⟨hname, hnames⟩ := C.signature hc
    have hlength : c.parameters.length = d.parameters.length := by
      simpa only [List.length_map] using congrArg List.length hnames
    simp only [Eval.call, h.length_eq, hname, hlength]
    refine .ite ?_ (.pure (C.error_value k _))
    refine (enter_keeps hc hs h).bind fun l s s' _ hnew => ?_
    refine (hE l _ _ s s' hnew.2 hnew.1).bind fun m a b _ hab => ?_
    have hlast := Keeps.pure hab
    cases C.sameKind hab with
    | returned hcontent => exact .pure hcontent
    | absent => exact .throw (C.fault _)
    | _ => exact hlast
  | _ => exact herror

end Calls

/-! ## Nodes -/

section Nodes

/-- Chains of branches with related conditions and bodies.  What is no link ends both. -/
inductive Chains (R : Node → Node → Prop) : Node → Node → Prop
  | ifThen {t u : Token} {a b c d : Node} (hc : R a b) (hb : R c d) :
      Chains R (.ifThen t a c) (.ifThen u b d)
  | ifElse {t u : Token} {a b c d m n : Node} (hc : R a b) (hb : R c d) (hn : Chains R m n) :
      Chains R (.ifElse t a c m) (.ifElse u b d n)
  | otherwise {t u : Token} {a b : Node} (hb : R a b) : Chains R (.otherwise t a) (.otherwise u b)
  | otherwiseElse {t u : Token} {a b m n : Node} (hb : R a b) :
      Chains R (.otherwiseElse t a m) (.otherwiseElse u b n)
  | other {a : Node} (h : a.isLink = false) : Chains R a a

/-- **Two nodes of one kind**, with related nodes inside them, as far as these are evaluated. -/
inductive Layer (C : Correspondence) (s s' : Scope) (R : Node → Node → Prop) : Node → Node → Prop
  | ident {i j : Ident} (hname : i.name = j.name) (hn : C.reads j.name) :
      Layer C s s' R (.ident i) (.ident j)
  | int {t u : Token} {n : Int} (hn : ∀ k, C.value k (.int n) (.int n)) :
      Layer C s s' R (.int t n) (.int u n)
  | bool {t u : Token} {b : Bool} : Layer C s s' R (.bool t b) (.bool u b)
  | string {t u : Token} {text : String} : Layer C s s' R (.string t text) (.string u text)
  | null {t u : Token} : Layer C s s' R (.null t) (.null u)
  | array {t u : Token} {as bs : List Node} (h : List.Forall₂ R as bs) :
      Layer C s s' R (.array t as) (.array u bs)
  | unary {t u : Token} {operator : String} {a b : Node} (h : R a b) :
      Layer C s s' R (.unary t operator a) (.unary u operator b)
  | binary {t u : Token} {operator : String} {a b c d : Node} (hl : R a b) (hr : R c d) :
      Layer C s s' R (.binary t a operator c) (.binary u b operator d)
  | call {t u : Token} {a b : Node} {as bs : List Node} (hf : R a b) (h : List.Forall₂ R as bs) :
      Layer C s s' R (.call t a as) (.call u b bs)
  | index {t u : Token} {a b c d : Node} (hl : R a b) (hp : R c d) :
      Layer C s s' R (.index t a c) (.index u b d)
  | declare {t u : Token} {type : BasicType} {i j : Ident} {a b : Node} (hname : i.name = j.name)
      (hn : C.binds s s' j.name) (h : R a b) :
      Layer C s s' R (.declare t type i a) (.declare u type j b)
  | declareArray {t u : Token} {kind : String} {i j : Ident} {a b : Node} (hname : i.name = j.name)
      (hn : C.binds s s' j.name) (h : R a b) :
      Layer C s s' R (.declareArray t kind i a) (.declareArray u kind j b)
  | declareLoose {t u : Token} {form : DeclarationForm} {name a b : Node}
      (hn : ∀ n, name.boundName? = some n → C.binds s s' n) (h : R a b) :
      Layer C s s' R (.declareLoose t form name a) (.declareLoose u form name b)
  | bareReturn {t u : Token} : Layer C s s' R (.bareReturn t) (.bareReturn u)
  | returnValue {t u : Token} {a b : Node} (h : R a b) :
      Layer C s s' R (.returnValue t a) (.returnValue u b)
  | expression {t u : Token} {a b : Node} (h : R a b) :
      Layer C s s' R (.expression t a) (.expression u b)
  | function {t u : Token} {name : String} {is js : List Ident} {result : Option String} {a b : Node}
      (hn : C.binds s s' name) (hc : C.code ⟨name, is, a, s⟩ ⟨name, js, b, s'⟩) :
      Layer C s s' R (.function t name is result a) (.function u name js result b)
  | branches {a b : Node} (ha : a.isLink) (h : Chains R a b) : Layer C s s' R a b
  | block {t u : Token} {as bs : List Node} (h : List.Forall₂ R as bs) :
      Layer C s s' R (.block t as) (.block u bs)
  | program {as bs : List Node} (h : List.Forall₂ R as bs) :
      Layer C s s' R (.program as) (.program bs)
  | datum {d : Datum} : Layer C s s' R (.datum d) (.datum d)
  | listing {as bs : List Node} : Layer C s s' R (.listing as) (.listing bs)

/-- The values of expressions, or the first error. -/
inductive Listed (value : Value → Value → Prop) :
    Except String (List Value) → Except String (List Value) → Prop
  | ok {as bs : List Value} (h : List.Forall₂ value as bs) : Listed value (.ok as) (.ok bs)
  | error {message : String} : Listed value (.error message) (.error message)

variable {R : Scope → Scope → Node → Node → Prop} {evaluate evaluate' : Node → Scope → Eval Value}
  {apply apply' : Value → List Value → Eval Value} {s s' : Scope}

/-- Expressions one after another. -/
theorem list_keeps (hE : C.KeepsOn R evaluate evaluate') {as bs : List Node}
    (h : List.Forall₂ (R s s') as bs) (hs : C.scope k s s') :
    C.Keeps (fun l => Listed (C.value l)) k (Eval.list (evaluate · s) as)
      (Eval.list (evaluate' · s') bs) := by
  induction h generalizing k with
  | nil => exact .pure (.ok .nil)
  | cons hab _ ih =>
    refine (hE k _ _ s s' hab hs).operand (fun _ _ => .error) fun l a b hl hab => ?_
    refine (ih (C.scope_mono hl hs)).bind fun m result result' hm hvalues => ?_
    cases hvalues with
    | ok hvalues => exact .pure (.ok (.cons (C.value_mono hm hab) hvalues))
    | error => exact .pure .error

/-- Statements one after another. -/
theorem block_keeps (hE : C.KeepsOn R evaluate evaluate') {as bs : List Node}
    (h : List.Forall₂ (R s s') as bs) (hs : C.scope k s s') {a b : Value} (hab : C.value k a b) :
    C.Keeps C.value k (Eval.block (evaluate · s) a as) (Eval.block (evaluate' · s') b bs) := by
  induction h generalizing k a b with
  | nil =>
    have hlast := Keeps.pure hab
    cases C.sameKind hab with
    | absent => exact .pure (C.plain rfl)
    | _ => exact hlast
  | cons hst _ ih =>
    refine (hE k _ _ s s' hst hs).bind fun l a b hl hab => ?_
    have hlast := Keeps.pure hab
    have hrest := ih (C.scope_mono hl hs) hab
    cases C.sameKind hab with
    | returned => exact hlast
    | error => exact hlast
    | _ => exact hrest

theorem program_keeps (hE : C.KeepsOn R evaluate evaluate') {as bs : List Node}
    (h : List.Forall₂ (R s s') as bs) (hs : C.scope k s s') :
    C.Keeps C.value k (Eval.program (evaluate · s) .absent as)
      (Eval.program (evaluate' · s') .absent bs) := by
  rw [Eval.program_eq_block _ _ (by simp), Eval.program_eq_block _ _ (by simp)]
  refine (block_keeps hE h hs (C.plain rfl)).bind fun l a b _ hab => ?_
  have hlast := Keeps.pure hab
  cases C.sameKind hab with
  | returned hcontent => exact .pure hcontent
  | _ => exact hlast

/-- Chains of branches.  Conditions on both sides hold or fail together. -/
theorem branches_keeps (hE : C.KeepsOn R evaluate evaluate') {a b : Node} (h : Chains (R s s') a b)
    (hs : C.scope k s s') :
    C.Keeps C.value k (Eval.branches (evaluate · s) a) (Eval.branches (evaluate' · s') b) := by
  induction h generalizing k with
  | ifThen hc hb =>
    refine (hE k _ _ s s' hc hs).operand C.error_value fun l a b hl hab => ?_
    rw [(C.sameKind hab).isTruthy_eq]
    exact .ite (hE l _ _ s s' hb (C.scope_mono hl hs)) (.pure (C.plain rfl))
  | ifElse hc hb _ ih =>
    refine (hE k _ _ s s' hc hs).operand C.error_value fun l a b hl hab => ?_
    rw [(C.sameKind hab).isTruthy_eq]
    exact .ite (hE l _ _ s s' hb (C.scope_mono hl hs)) (ih (C.scope_mono hl hs))
  | otherwise hb => exact hE k _ _ s s' hb hs
  | otherwiseElse hb => exact hE k _ _ s s' hb hs
  | other h =>
    rw [Eval.branches_of_not_isLink h, Eval.branches_of_not_isLink h]
    exact .throw (C.fault _)

theorem bindName_keeps {name : Node} (hs : C.scope k s s')
    (hn : ∀ n, name.boundName? = some n → C.binds s s' n) {a b : Value} (hab : C.value k a b) :
    C.Keeps (fun _ _ _ => True) k (Eval.bindName s name a) (Eval.bindName s' name b) := by
  unfold Eval.bindName
  split
  · exact bind_keeps hs (hn _ rfl) hab
  · exact bind_keeps hs (hn _ rfl) hab
  · exact .throw (C.fault _)

/-- **One node**, if the nodes inside it and calls keep the correspondence. -/
theorem node_keeps (hE : C.KeepsOn R evaluate evaluate') (hA : C.KeepsOnCalls apply apply') :
    C.KeepsOn (fun s s' => C.Layer s s' (R s s')) (Eval.node apply evaluate)
      (Eval.node apply' evaluate') := by
  intro k a b s s' h hs
  cases h with
  | ident hname hn =>
    simp only [Eval.node, hname]
    exact identifier_keeps hs hn
  | int hn => exact .pure (hn k)
  | bool => exact .pure (C.plain rfl)
  | string => exact .pure (C.plain rfl)
  | null => exact .pure (C.plain rfl)
  | array h =>
    refine (list_keeps hE h hs).bind fun l result result' _ hvalues => ?_
    cases hvalues with
    | error => exact .pure (C.error_value l _)
    | ok hvalues => exact (fresh_keeps (.array hvalues)).bind fun _ _ _ _ hmade => .pure hmade
  | unary h =>
    exact (hE k _ _ s s' h hs).operand C.error_value fun l a b _ hab => unary_keeps _ hab
  | binary hl hr =>
    refine (hE k _ _ s s' hl hs).operand C.error_value fun l a b hl hab => ?_
    refine (hE l _ _ s s' hr (C.scope_mono hl hs)).operand C.error_value fun m c d hm hcd => ?_
    exact binary_keeps _ (C.value_mono hm hab) hcd
  | call hf h =>
    refine (hE k _ _ s s' hf hs).operand C.error_value fun l a b hl hab => ?_
    refine (list_keeps hE h (C.scope_mono hl hs)).bind fun m result result' hm hvalues => ?_
    cases hvalues with
    | error => exact .pure (C.error_value m _)
    | ok hvalues => exact hA m a b _ _ (C.value_mono hm hab) hvalues
  | index hl hp =>
    refine (hE k _ _ s s' hl hs).operand C.error_value fun l a b hl hab => ?_
    refine (hE l _ _ s s' hp (C.scope_mono hl hs)).operand C.error_value fun m c d hm hcd => ?_
    exact index_keeps (C.value_mono hm hab) hcd
  | declare hname hn h =>
    simp only [Eval.node, hname]
    refine (hE k _ _ s s' h hs).operand C.error_value fun l a b hl hab => ?_
    exact (bind_keeps (C.scope_mono hl hs) hn hab).bind fun _ _ _ _ _ => .pure (C.plain rfl)
  | declareArray hname hn h =>
    simp only [Eval.node, hname]
    refine (hE k _ _ s s' h hs).operand C.error_value fun l a b hl hab => ?_
    refine (bind_keeps (C.scope_mono hl hs) hn hab).bind fun m _ _ hm _ => ?_
    exact .pure (C.value_mono hm hab)
  | @declareLoose _ _ form _ _ _ hn h =>
    refine (hE k _ _ s s' h hs).operand C.error_value fun l a b hl hab => ?_
    refine (bindName_keeps (C.scope_mono hl hs) hn hab).bind fun m _ _ hm _ => ?_
    cases form with
    | array => exact .pure (C.value_mono hm hab)
    | _ => exact .pure (C.plain rfl)
  | bareReturn =>
    exact (fresh_keeps (.returned (C.plain rfl))).bind fun _ _ _ _ hmade => .pure hmade
  | returnValue h =>
    refine (hE k _ _ s s' h hs).operand C.error_value fun l a b _ hab => ?_
    exact (fresh_keeps (.returned hab)).bind fun _ _ _ _ hmade => .pure hmade
  | expression h => exact hE k _ _ s s' h hs
  | function hn hc =>
    refine (fresh_keeps (.function ⟨hc, hs⟩)).bind fun l _ _ hl hmade => ?_
    exact (bind_keeps (C.scope_mono hl hs) hn hmade).bind fun _ _ _ _ _ => .pure (C.plain rfl)
  | branches ha h =>
    have hkeeps := branches_keeps hE h hs
    cases h with
    | other hother => rw [hother] at ha; cases ha
    | _ => exact hkeeps
  | block h => exact block_keeps hE h hs (C.plain rfl)
  | program h => exact program_keeps hE h hs
  | datum => exact .throw (C.fault _)
  | listing => exact .throw (C.fault _)

end Nodes

theorem halts_of_tooDeep (hdeep : C.halts .tooDeep) (crash : Crash) : C.halts crash := by
  cases crash with
  | tooDeep => exact hdeep
  | fault f => exact C.fault f

/-- **Evaluation keeps a correspondence**, however deep it may be nested, if trees that belong together are
made of such trees. -/
theorem eval_keeps (hdeep : C.halts .tooDeep)
    (htree : ∀ k s s' a b, C.scope k s s' → C.tree s s' a b → C.Layer s s' (C.tree s s') a b)
    (room : Room) (depth : Nat) : C.KeepsOn C.tree (eval room depth) (eval room depth) := by
  induction depth with
  | zero => exact fun _ _ _ _ _ _ _ => .throw hdeep
  | succ depth ih =>
    intro k a b s s' h hs
    have hcall := call_keeps room (fun _ crash _ => halts_of_tooDeep hdeep crash) ih
    exact node_keeps ih hcall k a b s s' (htree k s s' a b hs h) hs

end Correspondence

end LimLang
