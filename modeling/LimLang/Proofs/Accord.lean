import LimLang.Proofs.Correspondence
import LimLang.Proofs.WellFormed

/-! # Worlds in accord

An *accord* is a correspondence in which both sides have the same values: the worlds may differ, but what
is made in them gets the same numbers, and names stand for the same.  All that is to be said about values,
scopes and trees is then about one of each.  An accord of a world with itself is an invariant.

What a node may consist of is told by `Accord.Allows`: the nodes inside it that are evaluated with it, the
literals and names it has, and the functions it defines.  If all trees of a kind are made of such trees,
evaluation keeps the accord (`Accord.eval_keeps`).  That is so of the trees over a vocabulary if its
integers and names are (`Accord.Speaks`).
-/
namespace LimLang

open EStateM (Result)

variable {V : Vocabulary} {place : Place} {node : Node}

/-- **What evaluation makes with a new number**: an array of known values, a known function, or a known
value on its way out. -/
inductive Makes (value : Value → Prop) (closure : Closure → Prop) : (Nat → Value) → Prop
  | array {elements : List Value} (h : ∀ v ∈ elements, value v) :
      Makes value closure fun id => .array id elements
  | function {c : Closure} (h : closure c) : Makes value closure fun id => .function id c
  | returned {v : Value} (h : value v) : Makes value closure fun id => .returned id v

/-- **An accord between worlds.** -/
structure Accord where
  /-- What can be known. -/
  Known : Type
  /-- More may be known later. -/
  le : Known → Known → Prop
  worlds : Known → World → World → Prop
  value : Known → Value → Prop
  scope : Known → Scope → Prop
  /-- A function, as far as it was written down what it is. -/
  code : Closure → Prop
  /-- The trees that are evaluated in a scope. -/
  tree : Scope → Node → Prop
  /-- The names that are looked up. -/
  reads : String → Prop
  /-- The names that are bound in a scope. -/
  binds : Scope → String → Prop
  /-- The crashes that may end evaluation. -/
  halts : Crash → Prop
  le_refl : ∀ k, le k k
  le_trans : ∀ {k l m}, le k l → le l m → le k m
  value_mono : ∀ {k l v}, le k l → value k v → value l v
  scope_mono : ∀ {k l s}, le k l → scope k s → scope l s
  fault : ∀ fault, halts (.fault fault)
  plain : ∀ {k v}, v.isPlain → value k v
  wrapped : ∀ {k} n, value k (.int (MachineInt.wrap n))
  builtin : ∀ {k n b}, reads n → Builtin.ofName? n = some b → value k (.builtin b)
  /-- Where there is `len`, there are lengths. -/
  length : ∀ {k}, value k (.builtin .len) → ∀ n : Nat, value k (.int n)
  element : ∀ {k id elements}, value k (.array id elements) → ∀ v ∈ elements, value k v
  content : ∀ {k id v}, value k (.returned id v) → value k v
  closure : ∀ {k id c}, value k (.function id c) → code c ∧ scope k c.scope
  make : ∀ {k w w' made}, worlds k w w' → Makes (value k) (fun c => code c ∧ scope k c.scope) made →
    w'.nextId = w.nextId ∧ ∃ l, le k l ∧ value l (made w.nextId) ∧
      worlds l { w with nextId := w.nextId + 1 } { w' with nextId := w'.nextId + 1 }
  lookup : ∀ {k w w' s n}, worlds k w w' → scope k s → reads n →
    w'.lookup? s n = w.lookup? s n ∧ ∀ v, w.lookup? s n = some v → value k v
  bind : ∀ {k w w' s n v}, worlds k w w' → scope k s → binds s n → value k v →
    worlds k (w.bind s n v) (w'.bind s n v)
  enter : ∀ {k w w' c}, worlds k w w' → code c → scope k c.scope →
    let s := w.frames.size :: c.scope
    w'.frames.size = w.frames.size ∧ ∃ l, le k l ∧ scope l s ∧
      worlds l (w.enclosed c.scope).1 (w'.enclosed c.scope).1 ∧
      tree s c.body ∧ ∀ i ∈ c.parameters, binds s i.name
  write : ∀ {k w w' text}, worlds k w w' → worlds k (w.write text) (w'.write text)

/-- Lists that are the same, of things that have a property. -/
theorem eq_of_forall₂_and {α : Type} {P : α → Prop} {as bs : List α}
    (h : List.Forall₂ (fun a b => a = b ∧ P a) as bs) : as = bs ∧ ∀ a ∈ as, P a := by
  induction h with
  | nil => simp
  | cons h _ ih =>
    obtain ⟨rfl, hP⟩ := h
    obtain ⟨rfl, hall⟩ := ih
    exact ⟨rfl, List.forall_mem_cons.2 ⟨hP, hall⟩⟩

namespace Accord

/-- **An accord as a correspondence**: what belongs together is the same, and known. -/
def correspondence (A : Accord) : Correspondence where
  Known := A.Known
  le := A.le
  worlds := A.worlds
  value k a b := a = b ∧ A.value k a
  scope k s s' := s = s' ∧ A.scope k s
  code c d := c = d ∧ A.code c
  tree s _ a b := a = b ∧ A.tree s a
  reads := A.reads
  binds s _ n := A.binds s n
  halts := A.halts
  le_refl := A.le_refl
  le_trans := A.le_trans
  value_mono hl h := ⟨h.1, A.value_mono hl h.2⟩
  scope_mono hl h := ⟨h.1, A.scope_mono hl h.2⟩
  fault := A.fault
  plain h := ⟨rfl, A.plain h⟩
  wrapped n := ⟨rfl, A.wrapped n⟩
  builtin hn hb := ⟨rfl, A.builtin hn hb⟩
  length h n := ⟨rfl, A.length h.2 n⟩
  sameKind := by
    rintro k a _ ⟨rfl, ha⟩
    cases a with
    | array => exact .array (List.forall₂_same.2 fun v hv => ⟨rfl, A.element ha v hv⟩)
    | function => exact .function ⟨⟨rfl, (A.closure ha).1⟩, rfl, (A.closure ha).2⟩
    | returned => exact .returned ⟨rfl, A.content ha⟩
    | int => exact .int
    | bool => exact .bool
    | string => exact .string
    | null => exact .null
    | builtin => exact .builtin
    | error => exact .error
    | absent => exact .absent
  identical := by
    rintro k w w' a _ c _ _ ⟨rfl, _⟩ ⟨rfl, _⟩
    rfl
  written h room := by rw [(eq_of_forall₂_and h).1]
  signature := by
    rintro c _ ⟨rfl, _⟩
    exact ⟨rfl, rfl⟩
  make := by
    intro k w w' f g hw h
    have hmade : f = g ∧ Makes (A.value k) (fun c => A.code c ∧ A.scope k c.scope) f := by
      cases h with
      | array h =>
        obtain ⟨rfl, hes⟩ := eq_of_forall₂_and h
        exact ⟨rfl, .array hes⟩
      | function h =>
        obtain ⟨⟨rfl, hc⟩, -, hs⟩ := h
        exact ⟨rfl, .function ⟨hc, hs⟩⟩
      | returned h =>
        obtain ⟨rfl, hv⟩ := h
        exact ⟨rfl, .returned hv⟩
    obtain ⟨rfl, hmakes⟩ := hmade
    obtain ⟨hid, l, hl, hvalue, hworlds⟩ := A.make hw hmakes
    exact ⟨l, hl, ⟨by rw [hid], hvalue⟩, hworlds⟩
  lookup := by
    rintro k w w' s _ n hw ⟨rfl, hs⟩ hn
    obtain ⟨heq, hknown⟩ := A.lookup hw hs hn
    rw [heq]
    cases hfound : w.lookup? s n with
    | none => exact .none
    | some v => exact .some ⟨rfl, hknown v hfound⟩
  bind := by
    rintro k w w' s _ n a _ hw ⟨rfl, hs⟩ hn ⟨rfl, ha⟩
    exact A.bind hw hs hn ha
  enter := by
    rintro k w w' c _ hw ⟨rfl, hc⟩ ⟨-, hs⟩
    obtain ⟨hsize, l, hl, hnew, hworlds, htree, hbinds⟩ := A.enter hw hc hs
    exact ⟨l, hl, ⟨by rw [hsize], hnew⟩, hworlds, ⟨rfl, htree⟩, hbinds⟩
  write := A.write

end Accord

/-! ## What nodes consist of -/

namespace Node

/-- The nodes that are evaluated with a node, in the same scope. -/
def parts : Node → List Node
  | program statements | block _ statements => statements
  | array _ elements => elements
  | unary _ _ right => [right]
  | binary _ left _ right => [left, right]
  | call _ callee arguments => callee :: arguments
  | index _ left place => [left, place]
  | declare _ _ _ value | declareArray _ _ _ value | declareLoose _ _ _ value => [value]
  | returnValue _ value | expression _ value => [value]
  | ifThen _ condition body => [condition, body]
  | ifElse _ condition body next => condition :: body :: next.parts
  | otherwise _ body | otherwiseElse _ body _ => [body]
  | _ => []

/-- The names that a node binds by itself. -/
def bound : Node → List String
  | declare _ _ name _ | declareArray _ _ name _ => [name.name]
  | declareLoose _ _ name _ => name.boundName?.toList
  | function _ name _ _ _ => [name]
  | _ => []

theorem isLink_eq_false (h₁ : ∀ t condition body, node = ifThen t condition body → False)
    (h₂ : ∀ t condition body next, node = ifElse t condition body next → False)
    (h₃ : ∀ t body, node = otherwise t body → False)
    (h₄ : ∀ t body next, node = otherwiseElse t body next → False) : node.isLink = false := by
  unfold isLink
  split
  · exact (h₁ _ _ _ rfl).elim
  · exact (h₂ _ _ _ _ rfl).elim
  · exact (h₃ _ _ rfl).elim
  · exact (h₄ _ _ _ rfl).elim
  · rfl

/-- A chain of branches and itself. -/
theorem chains_self {R : Node → Node → Prop} (h : ∀ p ∈ node.parts, R p p) :
    Correspondence.Chains R node node := by
  induction node using Eval.branches.induct with
  | case1 t condition body => exact .ifThen (h _ (by simp [parts])) (h _ (by simp [parts]))
  | case2 t condition body next ih =>
    refine .ifElse (h _ (by simp [parts])) (h _ (by simp [parts])) (ih fun p hp => h p ?_)
    exact List.mem_cons_of_mem _ (List.mem_cons_of_mem _ hp)
  | case3 t body => exact .otherwise (h _ (by simp [parts]))
  | case4 t body next => exact .otherwiseElse (h _ (by simp [parts]))
  | case5 other h₁ h₂ h₃ h₄ => exact .other (isLink_eq_false h₁ h₂ h₃ h₄)

end Node

namespace Accord

/-- **What a node may consist of**, if it is evaluated in a scope and the nodes evaluated with it are in
`R`. -/
structure Allows (A : Accord) (R : Node → Prop) (s : Scope) (node : Node) : Prop where
  parts : ∀ p ∈ node.parts, R p
  int : ∀ {token n}, node = .int token n → ∀ k, A.value k (.int n)
  ident : ∀ {i}, node = .ident i → A.reads i.name
  bound : ∀ n ∈ node.bound, A.binds s n
  function : ∀ {token name parameters result body}, node = .function token name parameters result body →
    A.code ⟨name, parameters, body, s⟩

variable {A : Accord} {k : A.Known} {s : Scope}

/-- A node and itself, evaluated side by side. -/
theorem Allows.layer {R : Node → Prop} (h : A.Allows R s node) :
    A.correspondence.Layer s s (fun a b => a = b ∧ R a) node node := by
  have hpart : ∀ p ∈ node.parts, p = p ∧ R p := fun p hp => ⟨rfl, h.parts p hp⟩
  cases node with
  | ident i => exact .ident rfl (h.ident rfl)
  | int t n => exact .int fun k => ⟨rfl, h.int rfl k⟩
  | bool t b => exact .bool
  | string t text => exact .string
  | null t => exact .null
  | array t elements => exact .array (List.forall₂_same.2 hpart)
  | unary t operator right => exact .unary (hpart _ (by simp [Node.parts]))
  | binary t left operator right =>
    exact .binary (hpart _ (by simp [Node.parts])) (hpart _ (by simp [Node.parts]))
  | call t callee arguments =>
    exact .call (hpart _ List.mem_cons_self)
      (List.forall₂_same.2 fun p hp => hpart p (List.mem_cons_of_mem _ hp))
  | index t left place =>
    exact .index (hpart _ (by simp [Node.parts])) (hpart _ (by simp [Node.parts]))
  | declare t type name value =>
    exact .declare rfl (h.bound _ List.mem_cons_self) (hpart _ List.mem_cons_self)
  | declareArray t kind name value =>
    exact .declareArray rfl (h.bound _ List.mem_cons_self) (hpart _ List.mem_cons_self)
  | declareLoose t form name value =>
    refine .declareLoose (fun n hn => h.bound n ?_) (hpart _ List.mem_cons_self)
    exact Option.mem_toList.2 hn
  | bareReturn t => exact .bareReturn
  | returnValue t value => exact .returnValue (hpart _ List.mem_cons_self)
  | expression t value => exact .expression (hpart _ List.mem_cons_self)
  | function t name parameters result body =>
    exact .function (h.bound _ List.mem_cons_self) ⟨rfl, h.function rfl⟩
  | ifThen | ifElse | otherwise | otherwiseElse => exact .branches rfl (Node.chains_self hpart)
  | block t statements => exact .block (List.forall₂_same.2 hpart)
  | program statements => exact .program (List.forall₂_same.2 hpart)
  | datum d => exact .datum
  | listing items => exact .listing

/-- **What keeps an accord**: two evaluations that have the same result, which is known. -/
abbrev Keeps (A : Accord) (k : A.Known) (x y : Eval Value) : Prop :=
  A.correspondence.Keeps A.correspondence.value k x y

/-- **What becomes of an evaluation that keeps an accord of a world with itself.** -/
theorem Keeps.outcome {x : Eval Value} (h : A.Keeps k x x) {w : World} (hw : A.worlds k w w) :
    Outcome x w (fun v t => ∃ l, A.le k l ∧ A.value l v ∧ A.worlds l t t)
      fun crash t => ∃ l, A.le k l ∧ A.halts crash ∧ A.worlds l t t := by
  have hends := h w w hw
  unfold Outcome
  generalize x w = r at hends ⊢
  cases hends with
  | ok hl hv hworlds => exact ⟨_, hl, hv.2, hworlds⟩
  | crash hl hc hworlds => exact ⟨_, hl, hc, hworlds⟩

/-- Evaluations that keep an accord between equal worlds do the same. -/
theorem Keeps.eq {x y : Eval Value} (h : A.Keeps k x y) (hsame : ∀ k w w', A.worlds k w w' → w = w')
    {w : World} (hw : A.worlds k w w) : y w = x w := by
  have hends := h w w hw
  generalize x w = r at hends ⊢
  generalize y w = r' at hends ⊢
  cases hends with
  | ok _ hv hworlds =>
    obtain ⟨rfl, -⟩ := hv
    rw [hsame _ _ _ hworlds]
  | crash _ _ hworlds => rw [hsame _ _ _ hworlds]

/-- Evaluators that keep an accord on certain trees. -/
def KeepsOn (A : Accord) (R : Scope → Node → Prop) (evaluate evaluate' : Node → Scope → Eval Value) :
    Prop :=
  ∀ (k : A.Known) (node : Node) (s : Scope), R s node → A.scope k s →
    A.Keeps k (evaluate node s) (evaluate' node s)

variable {R R' : Scope → Node → Prop} {evaluate evaluate' : Node → Scope → Eval Value}
  {apply apply' : Value → List Value → Eval Value}

theorem KeepsOn.correspondence (hE : A.KeepsOn R evaluate evaluate') :
    A.correspondence.KeepsOn (fun s _ a b => a = b ∧ R s a) evaluate evaluate' := by
  rintro k a _ s _ ⟨rfl, ha⟩ ⟨rfl, hs⟩
  exact hE k a s ha hs

/-- One node, if the nodes evaluated with it and calls keep the accord. -/
theorem node_keeps (hE : A.KeepsOn R evaluate evaluate')
    (hA : A.correspondence.KeepsOnCalls apply apply')
    (hR : ∀ s node, R' s node → A.Allows (R s) s node) :
    A.KeepsOn R' (Eval.node apply evaluate) (Eval.node apply' evaluate') := fun k node s hn hs =>
  Correspondence.node_keeps hE.correspondence hA k node node s s (hR s node hn).layer ⟨rfl, hs⟩

/-- **Evaluation keeps an accord**, however deep it may be nested, if the trees that may be evaluated are
made of such trees. -/
theorem eval_keeps (hdeep : A.halts .tooDeep)
    (htree : ∀ s node, A.tree s node → A.Allows (A.tree s) s node) (room : Room) (depth : Nat) :
    A.KeepsOn A.tree (eval room depth) (eval room depth) := by
  have hlayer : ∀ (k : A.Known) (s s' : Scope) (a b : Node), s = s' ∧ A.scope k s → a = b ∧ A.tree s a →
      A.correspondence.Layer s s' (fun a b => a = b ∧ A.tree s a) a b := by
    rintro k s _ a _ ⟨rfl, -⟩ ⟨rfl, ha⟩
    exact (htree s a ha).layer
  intro k node s hn hs
  exact A.correspondence.eval_keeps hdeep hlayer room depth k node node s s ⟨rfl, hn⟩ ⟨rfl, hs⟩

/-- So do calls of known functions with known arguments. -/
theorem call_keeps (hdeep : A.halts .tooDeep)
    (htree : ∀ s node, A.tree s node → A.Allows (A.tree s) s node) (room : Room) (depth : Nat)
    (k : A.Known) (function : Value) (arguments : List Value) (hf : A.value k function)
    (ha : ∀ v ∈ arguments, A.value k v) :
    A.Keeps k (Eval.call room (eval room depth) function arguments)
      (Eval.call room (eval room depth) function arguments) :=
  Correspondence.call_keeps room (fun _ crash _ => Correspondence.halts_of_tooDeep hdeep crash)
    (eval_keeps hdeep htree room depth).correspondence k function function arguments arguments
    ⟨rfl, hf⟩ (List.forall₂_same.2 fun v hv => ⟨rfl, ha v hv⟩)

/-! ## Trees over a vocabulary -/

/-- **An accord about trees over a vocabulary.** -/
structure Speaks (A : Accord) (V : Vocabulary) : Prop where
  tree_iff : ∀ s node, A.tree s node ↔ ∃ place, node.Fits V place
  int : ∀ {n}, V.int n → ∀ k, A.value k (.int n)
  reads : ∀ {i}, V.varName i → A.reads i.name
  varName : ∀ {i s}, V.varName i → A.binds s i.name
  functionName : ∀ {n s}, V.functionName n → A.binds s n
  code : ∀ {name parameters body s}, (∀ i ∈ parameters, V.parameter i) → body.Fits V .body →
    A.code ⟨name, parameters, body, s⟩
  tooDeep : A.halts .tooDeep

end Accord

namespace Node.Fits

/-- The nodes evaluated with a well-formed node are well-formed. -/
theorem parts (h : node.Fits V place) : ∀ p ∈ node.parts, ∃ place', p.Fits V place' := by
  induction h with
  | array h _ => exact fun e he => ⟨_, h e he⟩
  | unary _ h _ => exact List.forall_mem_singleton.2 ⟨_, h⟩
  | binary _ hl hr _ _ => exact List.forall_mem_cons.2 ⟨⟨_, hl⟩, List.forall_mem_singleton.2 ⟨_, hr⟩⟩
  | call hf h _ _ => exact List.forall_mem_cons.2 ⟨⟨_, hf⟩, fun e he => ⟨_, h e he⟩⟩
  | index hl hp _ _ => exact List.forall_mem_cons.2 ⟨⟨_, hl⟩, List.forall_mem_singleton.2 ⟨_, hp⟩⟩
  | declare _ h _ => exact List.forall_mem_singleton.2 ⟨_, h⟩
  | declareArray _ _ h _ => exact List.forall_mem_singleton.2 ⟨_, h⟩
  | returnValue h _ => exact List.forall_mem_singleton.2 ⟨_, h⟩
  | expression h _ => exact List.forall_mem_singleton.2 ⟨_, h⟩
  | branches _ ih => exact ih
  | ifThen hc hb _ _ => exact List.forall_mem_cons.2 ⟨⟨_, hc⟩, List.forall_mem_singleton.2 ⟨_, hb⟩⟩
  | ifElse hc hb _ _ _ ihn =>
    exact List.forall_mem_cons.2 ⟨⟨_, hc⟩, List.forall_mem_cons.2 ⟨⟨_, hb⟩, ihn⟩⟩
  | otherwise hb _ => exact List.forall_mem_singleton.2 ⟨_, hb⟩
  | elseIf _ ih => exact ih
  | block h _ => exact fun s hs => ⟨_, h s hs⟩
  | program h _ => exact fun s hs => ⟨_, h s hs⟩
  | _ => exact fun p hp => by cases hp

/-- What a well-formed node binds is the name of a variable or of a function. -/
theorem bound (h : node.Fits V place) :
    ∀ n ∈ node.bound, (∃ i, V.varName i ∧ i.name = n) ∨ V.functionName n := by
  induction h with
  | declare hn _ _ => exact List.forall_mem_singleton.2 (.inl ⟨_, hn, rfl⟩)
  | declareArray _ hn _ _ => exact List.forall_mem_singleton.2 (.inl ⟨_, hn, rfl⟩)
  | function hn _ _ _ _ => exact List.forall_mem_singleton.2 (.inr hn)
  | branches _ ih => exact ih
  | elseIf _ ih => exact ih
  | _ => exact fun n hn => by cases hn

/-- What a well-formed node may consist of. -/
theorem allows {A : Accord} {s : Scope} {R : Node → Prop} (h : node.Fits V place)
    (hparts : ∀ p ∈ node.parts, R p) (hint : ∀ n, V.int n → ∀ k, A.value k (.int n))
    (hreads : ∀ i, V.varName i → A.reads i.name) (hbound : ∀ n ∈ node.bound, A.binds s n)
    (hcode : ∀ name parameters body, (∀ i ∈ parameters, V.parameter i) → body.Fits V .body →
      A.code ⟨name, parameters, body, s⟩) : A.Allows R s node := by
  refine ⟨hparts, ?_, ?_, hbound, ?_⟩
  · rintro token n rfl
    cases h with
    | int hn => exact hint n hn
    | branches h => cases h
    | elseIf h => cases h
  · rintro i rfl
    cases h with
    | ident hn => exact hreads i hn
    | branches h => cases h
    | elseIf h => cases h
  · rintro token name parameters result body rfl
    cases h with
    | function _ hp _ hb => exact hcode name parameters body hp hb
    | branches h => cases h
    | elseIf h => cases h

end Node.Fits

namespace Accord.Speaks

variable {A : Accord} (hA : A.Speaks V)
include hA

/-- The trees that may be evaluated are made of such trees. -/
theorem allows (s : Scope) (node : Node) (h : A.tree s node) : A.Allows (A.tree s) s node := by
  obtain ⟨place, hn⟩ := (hA.tree_iff s node).1 h
  refine hn.allows (fun p hp => (hA.tree_iff s p).2 (hn.parts p hp)) (fun _ => hA.int)
    (fun _ => hA.reads) (fun n hbound => ?_) fun _ _ _ => hA.code
  rcases hn.bound n hbound with ⟨i, hi, rfl⟩ | hname
  · exact hA.varName hi
  · exact hA.functionName hname

/-- **Evaluation of well-formed trees keeps an accord about them.** -/
theorem eval_keeps (room : Room) (depth : Nat) {k : A.Known} {s : Scope} (hn : node.Fits V place)
    (hs : A.scope k s) : A.Keeps k (eval room depth node s) (eval room depth node s) :=
  Accord.eval_keeps hA.tooDeep hA.allows room depth k node s ((hA.tree_iff s node).2 ⟨_, hn⟩) hs

end Accord.Speaks

end LimLang
