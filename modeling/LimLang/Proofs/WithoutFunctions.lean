import LimLang.Proofs.UnmentionedNames
import LimLang.Tree.Display
import LimLang.Tree.Reach

/-! # Programs without functions

What makes evaluation go on and on is the call of a function that the program has defined.  A program
that defines none, started where none can be got hold of, comes to an end, and its evaluations are nested
no deeper in one another than its tree is high.  There are still calls in it: of built-in functions, which
may have been put into variables and arrays, and of things that cannot be called.  So at every step it
matters that no value is, or holds, a function: not what is bound, not what is in an array, and not what is
returned.

A world without functions is in accord with itself (`bare`).  How deep evaluation is nested is told by what
depth it needs, so two evaluations are compared that differ in the depth there is (`eval_settles`): they do
the same, and there is no function afterwards.
-/
namespace LimLang

open EStateM (Result)

variable {V : Vocabulary} {w w' : World} {scope : Scope}

/-! ## Worlds without functions -/

namespace World

/-- **No function can be got hold of from a scope**: nothing that is reached is a function or has one in
it. -/
def Functionless (w : World) (scope : Scope) : Prop :=
  ∀ value, w.Reaches scope value → value.closures = []

/-- There is no function in the frames of a scope. -/
def Bare (w : World) (scope : Scope) : Prop :=
  ∀ id ∈ scope, ∀ binding ∈ w.frame id, binding.2.closures = []

end World

theorem Value.closuresIn_eq_nil_iff {values : List Value} :
    closuresIn values = [] ↔ ∀ v ∈ values, v.closures = [] := by
  induction values with
  | nil => simp [closuresIn]
  | cons v values ih => simp [closuresIn, ih]

namespace World

/-- Without functions, nothing is reached but what is in the frames of the scope. -/
theorem functionless_iff : w.Functionless scope ↔ w.Bare scope := by
  refine ⟨fun h id hid binding hmem => h _ (.bound hid hmem), fun h value hreached => ?_⟩
  induction hreached with
  | bound hid hmem => exact h _ hid _ hmem
  | element _ hv ih => exact Value.closuresIn_eq_nil_iff.1 (ih h) _ hv
  | enclosed _ _ ih _ => cases ih h

theorem Bare.bind (h : w.Bare scope) (inner : Scope) (name : String) {value : Value}
    (hv : value.closures = []) : (w.bind inner name value).Bare scope := by
  intro id hid binding hmem
  rcases mem_frame_bind hmem with heq | hmem
  · rw [heq, hv]
  · exact h id hid binding hmem

theorem Bare.lookup? (h : w.Bare scope) {name : String} {value : Value}
    (hv : w.lookup? scope name = some value) : value.closures = [] := by
  obtain ⟨id, hid, hmem⟩ := exists_mem_of_lookup? hv
  exact h id hid _ hmem

end World

/-- With room for everything, writing is never too deep. -/
theorem ne_tooDeep_of_writtenAll {room : Room} {values : List Value} {crash : Crash}
    (h : Value.writtenAll values room = .error crash) (hroom : room = none) : crash ≠ .tooDeep := by
  subst hroom
  unfold Value.writtenAll Room.guard at h
  rw [Room.holds_none, if_pos rfl] at h
  split at h
  · cases h
    simp
  · cases h

/-- **A world without functions in a scope is in accord with itself**, as long as no function is defined.
If there is room for everything that is written, the nesting is never too deep. -/
def bare (room : Room) (scope : Scope) : Accord where
  Known := Unit
  le _ _ := True
  worlds _ w w' := w = w' ∧ w.Bare scope
  value _ v := v.closures = []
  scope _ s := s = scope
  code _ := False
  tree _ _ := False
  reads _ := True
  binds _ _ := True
  halts crash := room = none → crash ≠ .tooDeep
  le_refl _ := trivial
  le_trans _ _ := trivial
  value_mono _ h := h
  scope_mono _ h := h
  fault _ _ := by simp
  plain h := Value.closures_of_isPlain h
  wrapped _ := rfl
  builtin _ _ := rfl
  length _ _ := rfl
  element h := Value.closuresIn_eq_nil_iff.1 h
  content h := h
  closure h := by cases h
  make := by
    rintro _ w _ made ⟨rfl, hw⟩ hmade
    refine ⟨rfl, (), trivial, ?_, rfl, hw⟩
    cases hmade with
    | array h => exact Value.closuresIn_eq_nil_iff.2 h
    | function h => exact h.1.elim
    | returned h => exact h
  lookup := by
    rintro _ w _ s n ⟨rfl, hw⟩ rfl _
    exact ⟨rfl, fun v hv => hw.lookup? hv⟩
  bind := by
    rintro _ w _ s n v ⟨rfl, hw⟩ _ _ hv
    exact ⟨rfl, hw.bind s n hv⟩
  enter _ hc := hc.elim
  write := by
    rintro _ w _ text ⟨rfl, hw⟩
    exact ⟨rfl, hw⟩

/-! ## Trees -/

namespace Node

/-- **The height of a tree**: so many nodes are on the longest way from its root to a leaf. -/
def height (node : Node) : Nat :=
  node.reach .walking

/-- **A tree in which no function is defined.** -/
def Functionless (node : Node) : Prop :=
  "FunctionStatement" ∉ node.walk.map Prod.fst

instance (node : Node) : Decidable node.Functionless :=
  inferInstanceAs (Decidable (_ ∉ _))

/-- The nodes right inside a node. -/
@[simp]
def inside : Node → List Node
  | program statements | block _ statements => statements
  | array _ elements => elements
  | unary _ _ right => [right]
  | binary _ left _ right => [left, right]
  | call _ callee arguments => callee :: arguments
  | index _ left place => [left, place]
  | declare _ _ _ value | declareArray _ _ _ value => [value]
  | declareLoose _ _ name value => [name, value]
  | returnValue _ value | expression _ value => [value]
  | ifThen _ condition body => [condition, body]
  | ifElse _ condition body next => [condition, body, next]
  | otherwise _ body => [body]
  | otherwiseElse _ body next => [body, next]
  | function _ _ _ _ body => [body]
  | listing items => items
  | ident _ | int _ _ | bool _ _ | string _ _ | null _ | bareReturn _ | datum _ => []

theorem reach_le_reachAll {s : Stride} {node : Node} {nodes : List Node} (h : node ∈ nodes) :
    node.reach s ≤ reachAll s nodes := by
  induction nodes with
  | nil => cases h
  | cons first nodes ih =>
    rw [reachAll]
    rcases List.mem_cons.1 h with rfl | h
    · exact Nat.le_max_left _ _
    · exact Nat.le_trans (ih h) (Nat.le_max_right _ _)

/-- What is inside a node is less high. -/
theorem height_lt_of_mem_inside {node inner : Node} (h : inner ∈ node.inside) :
    inner.height < node.height := by
  have hall {nodes : List Node} (h : inner ∈ nodes) := reach_le_reachAll (s := .walking) h
  have hsteps : Stride.walking.child = 1 ∧ Stride.walking.item = 1 ∧ Stride.walking.link = 1 :=
    ⟨rfl, rfl, rfl⟩
  unfold height
  cases node <;> simp only [inside, List.mem_cons, List.not_mem_nil, or_false] at h <;> rw [reach] <;>
    grind

theorem height_pos (node : Node) : 0 < node.height := by
  have hsteps : Stride.walking.child = 1 ∧ Stride.walking.item = 1 := ⟨rfl, rfl⟩
  unfold height
  cases node <;> rw [reach] <;> omega

theorem forall_notMem_walkAll_iff {label : String} {nodes : List Node} :
    (∀ token, (label, token) ∉ walkAll nodes) ↔ ∀ node ∈ nodes, ∀ token, (label, token) ∉ node.walk := by
  induction nodes with
  | nil => simp [walkAll]
  | cons first nodes ih => simp [walkAll, not_or, forall_and, ih]

/-- A tree is without functions if it is not a function and there is none inside. -/
theorem functionless_iff {node : Node} :
    node.Functionless ↔
      (∀ token name parameters result body, node ≠ function token name parameters result body) ∧
        ∀ inner ∈ node.inside, inner.Functionless := by
  cases node with
  | program | array | block | listing => simp [Functionless, walk, forall_notMem_walkAll_iff]
  | call => simp [Functionless, walk, not_or, forall_notMem_walkAll_iff]
  | declare token type => cases type <;> simp [Functionless, walk, label, identStop]
  | declareLoose token form =>
    rcases form with _ | type | kind
    · simp [Functionless, walk, label, not_or]
    · cases type <;> simp [Functionless, walk, label, not_or]
    · simp [Functionless, walk, label, not_or]
  | function => exact iff_of_false (by simp [Functionless, walk]) fun h => h.1 _ _ _ _ _ rfl
  | _ => simp [Functionless, walk, identStop, not_or]

/-- A tree without functions that is at most so high. -/
structure Within (height : Nat) (node : Node) : Prop where
  functionless : node.Functionless
  height_le : node.height ≤ height

namespace Within

variable {d : Nat} {node inner : Node}

theorem inside (h : node.Within (d + 1)) (hinner : inner ∈ node.inside) : inner.Within d where
  functionless := (functionless_iff.1 h.functionless).2 inner hinner
  height_le := Nat.le_of_lt_succ (Nat.lt_of_lt_of_le (height_lt_of_mem_inside hinner) h.height_le)

theorem succ (h : node.Within d) : node.Within (d + 1) :=
  ⟨h.functionless, Nat.le_succ_of_le h.height_le⟩

end Within

end Node

/-- The nodes evaluated with a node are inside it, if it is no link of a chain. -/
theorem Node.parts_subset_inside {node : Node} (h : node.isLink = false) : node.parts ⊆ node.inside := by
  cases node with
  | ifThen | ifElse | otherwise | otherwiseElse => cases h
  | _ => simp [parts]

/-- The nodes evaluated with a node are less high.  Of a chain, all links are evaluated with the first. -/
theorem Node.Within.parts {d : Nat} {node : Node} (h : node.Within (d + 1)) :
    ∀ p ∈ node.parts, p.Within d := by
  induction node using Eval.branches.induct with
  | case1 t condition body => exact fun p hp => h.inside hp
  | case2 t condition body next ih =>
    refine List.forall_mem_cons.2 ⟨h.inside (by simp), List.forall_mem_cons.2 ⟨h.inside (by simp), ?_⟩⟩
    exact ih (h.inside (by simp)).succ
  | case3 t body => exact fun p hp => h.inside hp
  | case4 t body next =>
    exact List.forall_mem_singleton.2 (h.inside (by simp))
  | case5 other h₁ h₂ h₃ h₄ =>
    exact fun p hp => h.inside (parts_subset_inside (isLink_eq_false h₁ h₂ h₃ h₄) hp)

/-- What a tree without functions may consist of. -/
theorem Node.Within.allows {room : Room} {d : Nat} {s : Scope} {node : Node} (h : node.Within (d + 1)) :
    (bare room scope).Allows (Node.Within d) s node where
  parts := h.parts
  int _ _ := rfl
  ident _ := trivial
  bound _ _ := trivial
  function heq := (Node.functionless_iff.1 h.functionless).1 _ _ _ _ _ heq

/-- **Trees without functions are evaluated alike at any depth from their height on.** -/
theorem eval_settles (room : Room) (scope : Scope) {d depth depth' : Nat} (h : d ≤ depth)
    (h' : d ≤ depth') :
    (bare room scope).KeepsOn (fun _ => Node.Within d) (eval room depth) (eval room depth') := by
  induction d generalizing depth depth' with
  | zero => exact fun _ node _ hnode => absurd hnode.height_le (Nat.not_le.2 node.height_pos)
  | succ d ih =>
    obtain ⟨depth, rfl⟩ := Nat.exists_eq_add_of_le' (Nat.one_le_of_lt h)
    obtain ⟨depth', rfl⟩ := Nat.exists_eq_add_of_le' (Nat.one_le_of_lt h')
    have hE := ih (Nat.le_of_succ_le_succ h) (Nat.le_of_succ_le_succ h')
    -- There is no function that could be called.
    have hcall : (bare room scope).correspondence.KeepsOnCalls (Eval.call room (eval room depth))
        (Eval.call room (eval room depth')) :=
      Correspondence.call_keeps room (fun _ _ => ne_tooDeep_of_writtenAll) fun _ _ _ _ _ h => h.2.elim
    exact Accord.node_keeps hE hcall fun _ _ hn => hn.allows

/-! ## Programs -/

/-- **How a program without functions ends**: with a value or not, and there is no function afterwards. -/
def EndsFunctionless (scope : Scope) : Result Crash World Value → Prop
  | .ok value w => value.closures = [] ∧ w.Functionless scope
  | .error _ w => w.Functionless scope

/-- **Only functions can make evaluation go on and on.**  A program that defines none comes to the same
end whatever the depth there is, from the height of its tree on, and there is still no function that can be
got hold of.  With room for everything that is written, the end is not that the nesting is too deep; if
the program is well-formed and the world is sound, it is a value. -/
theorem eval_ends_of_functionless {program : Node} (hp : program.Functionless)
    (hw : w.Functionless scope) (room : Room) :
    ∃ result : Result Crash World Value,
      (∀ depth, program.height ≤ depth → eval room depth program scope w = result) ∧
      EndsFunctionless scope result ∧
      (room = none → (∀ w', result ≠ .error .tooDeep w') ∧
        ∀ V, program.Fits V .program → w.Sound V → ∃ value w', result = .ok value w') := by
  have hbare := World.functionless_iff.1 hw
  have hkept {depth : Nat} (hdepth : program.height ≤ depth) :
      (bare room scope).Keeps () (eval room program.height program scope) (eval room depth program scope) :=
    eval_settles room scope (Nat.le_refl _) hdepth () program scope ⟨hp, Nat.le_refl _⟩ rfl
  have hout := (hkept (Nat.le_refl _)).outcome ⟨rfl, hbare⟩
  refine ⟨eval room program.height program scope w, fun depth hdepth => ?_, ?_, ?_⟩
  · exact (hkept hdepth).eq (fun _ _ _ h => h.1) ⟨rfl, hbare⟩
  · unfold Outcome at hout
    split at hout
    · next hrun =>
      obtain ⟨_, -, hvalue, -, hworld⟩ := hout
      rw [hrun]
      exact ⟨hvalue, World.functionless_iff.2 hworld⟩
    · next hrun =>
      obtain ⟨_, -, -, -, hworld⟩ := hout
      rw [hrun]
      exact World.functionless_iff.2 hworld
  · intro hroom
    have hdeep : ∀ w', eval room program.height program scope w ≠ .error .tooDeep w' := by
      intro w' hrun
      obtain ⟨_, -, hhalts, -⟩ := (Outcome.iff_of_error hrun).1 hout
      exact hhalts hroom rfl
    refine ⟨hdeep, fun V hfits hsound => ?_⟩
    have hagree := eval_agrees room program.height .program program scope w hfits hsound
    generalize eval room program.height program scope w = result at hdeep hagree
    generalize direct room program.height program scope w = result' at hagree
    cases hagree with
    | crash => exact absurd rfl (hdeep _)
    | _ => exact ⟨_, _, rfl⟩

/-- The built-in function `len` is put into an array, taken out of it and called. -/
theorem eval_ends_of_functionless_len : ∃ (program : Node) (w : World),
    program.Functionless ∧ World.initial.Functionless World.globalScope ∧ program.height = 5 ∧
      (∀ depth, 5 ≤ depth →
        eval none depth program World.globalScope World.initial = .ok (.int 2) w) ∧
      w.lookup? World.globalScope "f" = some (.array 0 [.builtin .len]) ∧
      w.Functionless World.globalScope := by
  let name (text : String) : Ident := { token := { kind := .ident, text }, name := text }
  let bracket : Token := { kind := .lbrack, text := "[" }
  let program : Node := .program
    [.declareArray bracket "str" (name "f") (.array bracket [.ident (name "len")]),
      .expression (name "f").token (.call { kind := .lparen, text := "(" }
        (.index bracket (.ident (name "f")) (.int { kind := .int, text := "0" } 0))
        [.string { kind := .string, text := "ab" } "ab"])]
  have hp : program.Functionless := by decide
  have hw : World.initial.Functionless World.globalScope := by
    refine World.functionless_iff.2 fun id hid binding hmem => ?_
    obtain rfl := List.mem_singleton.1 hid
    cases hmem
  obtain ⟨result, hends, hfree, -⟩ := eval_ends_of_functionless hp hw none
  obtain ⟨w, hrun, hlookup⟩ : ∃ w,
      eval none 5 program World.globalScope World.initial = .ok (.int 2) w ∧
        w.lookup? World.globalScope "f" = some (.array 0 [.builtin .len]) := ⟨_, rfl, rfl⟩
  have hheight : program.height = 5 := by decide
  obtain rfl : .ok (.int 2) w = result := hrun.symm.trans (hends 5 hheight.le)
  exact ⟨program, w, hp, hw, hheight, fun depth hdepth => hends depth (hheight.trans_le hdepth), hlookup,
    hfree.2⟩

end LimLang
