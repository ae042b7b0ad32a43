import LimLang.Proofs.Accord
import LimLang.Proofs.Refinement

/-! # What evaluation leaves alone

Frames are shared: a function sees the frames it was defined in, whoever calls it, and the body of a
branch has no frame of its own.  Still, evaluation writes to one frame only.  Evaluating an
expression changes no frame that was there before, whatever functions it calls; a statement changes
the innermost frame of its scope, and there only the names that it declares outside of functions.

What encloses what is told by the *links* of a world: for every frame the scope around it.  A world
is linked by `links` if every function in it was defined in one of these scopes.  Evaluation adds to
the links and changes none, so a frame keeps what encloses it for good.

`World.Step` says all of this about two points of an evaluation.  A step goes on by binding a name that is
declared, and by adding a frame, in which any name may be bound.  So the steps from a world are an accord
(`stepping`), and a call is a step that changes nothing, since the names its body declares go to a frame of
its own.
-/
namespace LimLang

open EStateM (Result)

variable {V : Vocabulary}

/-! ## Frames and the names bound in them -/

/-- **Binding some of `names`**, one after another, leads from one frame to another. -/
inductive Frame.Rebound (names : List String) (frame : Frame) : Frame → Prop
  | refl : Rebound names frame frame
  | bind {f : Frame} {name : String} (h : Rebound names frame f) (hn : name ∈ names)
      (value : Value) : Rebound names frame (f.bind name value)

namespace Frame.Rebound

variable {names more : List String} {f g h : Frame}

theorem mono (hf : Rebound names f g) (hsub : names ⊆ more) : Rebound more f g := by
  induction hf with
  | refl => exact .refl
  | bind _ hn value ih => exact ih.bind (hsub hn) value

/-- Where no name is bound nothing changes. -/
theorem eq (hf : Rebound [] f g) : g = f := by
  cases hf with
  | refl => rfl
  | bind _ hn _ => cases hn

/-- Other names keep their values. -/
theorem find?_eq (hf : Rebound names f g) {name : String} (hn : name ∉ names) :
    g.find? name = f.find? name := by
  induction hf with
  | refl => rfl
  | bind _ hm _ ih =>
    rw [find?_bind, if_neg, ih]
    rintro rfl
    exact hn hm

/-- No name is lost. -/
theorem isSome_find? (hf : Rebound names f g) {name : String} (hb : (f.find? name).isSome) :
    (g.find? name).isSome := by
  induction hf with
  | refl => exact hb
  | bind _ _ _ ih =>
    rw [find?_bind]
    split
    · rfl
    · exact ih

end Frame.Rebound

/-! ## Links -/

/-- **For every frame the scope around it.** -/
abbrev Links := List Scope

/-- A scope whose innermost frame is linked to the others. -/
def Scope.In (links : Links) : Scope → Prop
  | [] => False
  | id :: outer => links[id]? = some outer

/-- Links come about one by one: after the outermost frame, every new one is put inside a scope
that exists. -/
inductive Links.Formed : Links → Prop
  | outermost : Formed [[]]
  | enclose {links : Links} {scope : Scope} (h : Formed links) (hs : scope.In links) :
      Formed (links ++ [scope])

theorem Scope.In.mono {scope : Scope} {links links' : Links} (h : scope.In links)
    (hp : links <+: links') : scope.In links' := by
  cases scope with
  | nil => exact h
  | cons id outer =>
    obtain ⟨more, rfl⟩ := hp
    have hlt : id < links.length := (List.getElem?_eq_some_iff.1 h).1
    exact (List.getElem?_append_left hlt).trans h

theorem Scope.In.lt_length {id : FrameId} {outer : Scope} {links : Links}
    (h : Scope.In links (id :: outer)) : id < links.length :=
  (List.getElem?_eq_some_iff.1 h).1

namespace Value

mutual

/-- The functions in a value, at every depth. -/
def closures : Value → List Closure
  | array _ elements => closuresIn elements
  | function _ closure => [closure]
  | returned _ value => value.closures
  | int _ | bool _ | string _ | null | builtin _ | error _ | absent => []

/-- The functions in several values. -/
def closuresIn : List Value → List Closure
  | [] => []
  | value :: values => value.closures ++ closuresIn values

end

theorem closures_of_isPlain {value : Value} (h : value.isPlain) : value.closures = [] := by
  cases value <;> first | rfl | cases h

end Value

/-- A function with a well-formed body that was defined in a scope that exists. -/
def Closure.Linked (V : Vocabulary) (links : Links) (closure : Closure) : Prop :=
  closure.body.Fits V .body ∧ closure.scope.In links

/-- A value whose functions were all defined in scopes that exist. -/
def Value.Linked (V : Vocabulary) (links : Links) (value : Value) : Prop :=
  ∀ closure ∈ value.closures, closure.Linked V links

/-- **A world whose frames are linked.** -/
structure World.Linked (V : Vocabulary) (links : Links) (w : World) : Prop where
  formed : links.Formed
  length_eq : links.length = w.frames.size
  linked : ∀ frame ∈ w.frames, ∀ binding ∈ frame, binding.2.Linked V links

namespace Value.Linked

variable {links links' : Links} {value : Value} {values : List Value}

theorem mono (h : value.Linked V links) (hp : links <+: links') : value.Linked V links' :=
  fun closure hc => ⟨(h closure hc).1, (h closure hc).2.mono hp⟩

/-- A value without functions is linked in any case. -/
theorem of_closures (h : value.closures = []) : value.Linked V links := by
  intro closure hc
  rw [h] at hc
  cases hc

theorem mem_closuresIn {closure : Closure} :
    closure ∈ closuresIn values ↔ ∃ v ∈ values, closure ∈ v.closures := by
  induction values with
  | nil => simp [closuresIn]
  | cons v values ih => simp [closuresIn, ih]

theorem array (id : Nat) (h : ∀ v ∈ values, v.Linked V links) :
    (Value.array id values).Linked V links := by
  intro closure hc
  obtain ⟨v, hv, hc⟩ := mem_closuresIn.1 hc
  exact h v hv closure hc

theorem element {id : Nat} (h : (Value.array id values).Linked V links) :
    ∀ v ∈ values, v.Linked V links := by
  intro v hv closure hc
  exact h closure (mem_closuresIn.2 ⟨v, hv, hc⟩)

theorem function (id : Nat) {closure : Closure} (h : closure.Linked V links) :
    (Value.function id closure).Linked V links := by
  intro other hc
  rw [List.mem_singleton.1 hc]
  exact h

theorem returned (id : Nat) (h : value.Linked V links) :
    (Value.returned id value).Linked V links :=
  fun closure hc => h closure hc

theorem of_returned {id : Nat} (h : (Value.returned id value).Linked V links) :
    value.Linked V links :=
  fun closure hc => h closure hc

theorem closure {id : Nat} {closure : Closure} (h : (Value.function id closure).Linked V links) :
    closure.Linked V links :=
  h closure (List.mem_singleton.2 rfl)

end Value.Linked

namespace World

variable {links : Links} {w w' : World} {scope : Scope} {name : String} {value : Value}

theorem linked_initial : World.initial.Linked V [[]] where
  formed := .outermost
  length_eq := rfl
  linked := holds_initial

namespace Linked

/-- Only frames matter. -/
theorem of_frames (h : w.Linked V links) (hf : w'.frames = w.frames) : w'.Linked V links where
  formed := h.formed
  length_eq := h.length_eq.trans (congrArg Array.size hf.symm)
  linked := by
    rw [hf]
    exact h.linked

theorem lt_size {id : FrameId} {outer : Scope} (h : w.Linked V links)
    (hs : Scope.In links (id :: outer)) : id < w.frames.size :=
  h.length_eq ▸ hs.lt_length

theorem lookup? (h : w.Linked V links) (hl : w.lookup? scope name = some value) :
    value.Linked V links :=
  Holds.lookup? h.linked hl

theorem bind (h : w.Linked V links) (hv : value.Linked V links) :
    (w.bind scope name value).Linked V links where
  formed := h.formed
  length_eq := by rw [size_frames_bind, h.length_eq]
  linked := Holds.bind h.linked hv

/-- A new frame is linked to the scope it is put in. -/
theorem enclosed (h : w.Linked V links) (hs : scope.In links) :
    (w.enclosed scope).1.Linked V (links ++ [scope]) where
  formed := h.formed.enclose hs
  length_eq := by simp [World.enclosed, h.length_eq]
  linked := by
    intro frame hf binding hb
    rcases Array.mem_push.1 hf with hf | rfl
    · exact (h.linked frame hf binding hb).mono (List.prefix_append _ _)
    · cases hb

end Linked

/-- The world in which the body of a function is executed: its arguments are bound in a new frame. -/
def entered (w : World) (closure : Closure) (arguments : List Value) : World :=
  Eval.bindParameters (w.frames.size :: closure.scope) closure.parameters arguments
    (w.enclosed closure.scope).1

theorem Linked.bindParameters {parameters : List Ident} {arguments : List Value}
    (h : w.Linked V links) (ha : ∀ v ∈ arguments, v.Linked V links) :
    (Eval.bindParameters scope parameters arguments w).Linked V links := by
  fun_induction Eval.bindParameters scope parameters arguments w with
  | case1 parameter parameters argument arguments w ih =>
    obtain ⟨hv, hs⟩ := List.forall_mem_cons.1 ha
    exact ih (h.bind hv) hs
  | case2 => exact h

theorem Linked.entered {closure : Closure} {arguments : List Value} (h : w.Linked V links)
    (hc : closure.Linked V links) (ha : ∀ v ∈ arguments, v.Linked V links) :
    (w.entered closure arguments).Linked V (links ++ [closure.scope]) :=
  (h.enclosed hc.2).bindParameters fun v hv => (ha v hv).mono (List.prefix_append _ _)

/-! ## Steps -/

/-- **From `w` to `w'` nothing changes but `names` in frame `id`.**  Frames may be added, linked to
scopes that exist. -/
structure Step (V : Vocabulary) (id : FrameId) (names : List String) (links : Links) (w : World)
    (links' : Links) (w' : World) : Prop where
  prefix_links : links <+: links'
  linked : w'.Linked V links'
  size_le : w.frames.size ≤ w'.frames.size
  frame_eq : ∀ other < w.frames.size, other ≠ id → w'.frame other = w.frame other
  rebound : (w.frame id).Rebound names (w'.frame id)

/-- The names that may be bound in a scope on the way from `w`: all in a frame that is new, and `names` in
frame `id`. -/
def MayBind (w : World) (id : FrameId) (names : List String) : Scope → String → Prop
  | [], _ => True
  | top :: _, name => w.frames.size ≤ top ∨ top = id ∧ name ∈ names

namespace Step

variable {id : FrameId} {names more : List String} {links' : Links} {w'' : World}

theorem refl (h : w.Linked V links) : Step V id names links w links w :=
  ⟨List.prefix_refl _, h, Nat.le_refl _, fun _ _ _ => rfl, .refl⟩

theorem mono (h : Step V id names links w links' w') (hsub : names ⊆ more) :
    Step V id more links w links' w' :=
  { h with rebound := h.rebound.mono hsub }

variable (h : Step V id names links w links' w')
include h

/-- What is done to anything but the frames is no change. -/
theorem of_frames (hf : w''.frames = w'.frames) : Step V id names links w links' w'' := by
  have hframe : ∀ other, w''.frame other = w'.frame other := by
    intro other
    rw [World.frame, World.frame, hf]
  refine ⟨h.prefix_links, h.linked.of_frames hf, ?_, fun other hlt hne => ?_, ?_⟩
  · rw [hf]
    exact h.size_le
  · rw [hframe other]
    exact h.frame_eq other hlt hne
  · rw [hframe id]
    exact h.rebound

/-- A name is bound where that is allowed. -/
theorem bind (hid : id < w.frames.size) (hs : scope.In links') (hn : w.MayBind id names scope name)
    (hv : value.Linked V links') : Step V id names links w links' (w'.bind scope name value) := by
  cases scope with
  | nil => exact hs.elim
  | cons top outer =>
    refine ⟨h.prefix_links, h.linked.bind hv, ?_, fun other hlt hne => ?_, ?_⟩
    · rw [size_frames_bind]
      exact h.size_le
    · have htop : top ≠ other := by
        rcases hn with hnew | ⟨rfl, -⟩
        · exact Nat.ne_of_gt (Nat.lt_of_lt_of_le hlt hnew)
        · exact hne.symm
      rw [frame_bind_of_ne w' htop]
      exact h.frame_eq other hlt hne
    · rcases hn with hnew | ⟨rfl, hname⟩
      · rw [frame_bind_of_ne w' (Nat.ne_of_gt (Nat.lt_of_lt_of_le hid hnew))]
        exact h.rebound
      · rw [frame_bind_self w' (h.linked.lt_size hs)]
        exact h.rebound.bind hname value

/-- A new frame changes none that is there. -/
theorem enclosed (hs : scope.In links') :
    Step V id names links w (links' ++ [scope]) (w'.enclosed scope).1 := by
  refine ⟨h.prefix_links.trans (List.prefix_append _ _), h.linked.enclosed hs, ?_,
    fun other hlt hne => ?_, ?_⟩
  · rw [World.enclosed, Array.size_push]
    exact Nat.le_succ_of_le h.size_le
  · rw [frame_enclosed_eq]
    exact h.frame_eq other hlt hne
  · rw [frame_enclosed_eq]
    exact h.rebound

end Step

end World

/-! ## What is declared outside of functions -/

namespace Node

mutual

/-- **The names that a statement declares** in the scope it is executed in. -/
def declared : Node → List String
  | program statements => declaredIn statements
  | block _ statements => declaredIn statements
  | declare _ _ name _ => [name.name]
  | declareArray _ _ name _ => [name.name]
  | function _ name _ _ _ => [name]
  | ifThen _ _ body => body.declared
  | ifElse _ _ body next => body.declared ++ next.declared
  | otherwise _ body => body.declared
  | otherwiseElse _ body next => body.declared ++ next.declared
  | _ => []

/-- The names that several statements declare. -/
def declaredIn : List Node → List String
  | [] => []
  | node :: nodes => node.declared ++ declaredIn nodes

end

theorem declared_subset_declaredIn {nodes : List Node} : ∀ p ∈ nodes, p.declared ⊆ declaredIn nodes := by
  induction nodes with
  | nil => simp
  | cons node nodes ih =>
    rw [declaredIn, List.forall_mem_cons]
    exact ⟨List.subset_append_left _ _, fun p hp =>
      List.Subset.trans (ih p hp) (List.subset_append_right _ _)⟩

namespace Fits

variable {place : Place} {node : Node}

theorem declared_eq_nil (h : node.Fits V .expression) : node.declared = [] := by
  cases h <;> rw [declared] <;> simp

/-- What a well-formed node binds by itself is declared. -/
theorem bound_subset (h : node.Fits V place) : node.bound ⊆ node.declared := by
  induction h with
  | declare | declareArray | function =>
    rw [declared]
    exact List.Subset.refl _
  | branches _ ih => exact ih
  | elseIf _ ih => exact ih
  | _ => exact List.nil_subset _

/-- What is declared in the nodes evaluated with a well-formed node is declared in it. -/
theorem declared_subset (h : node.Fits V place) : ∀ p ∈ node.parts, p.declared ⊆ node.declared := by
  have hnone {names : List String} {p : Node} (hp : p.Fits V .expression) : p.declared ⊆ names := by
    rw [hp.declared_eq_nil]
    exact List.nil_subset _
  induction h with
  | array h _ => exact fun e he => hnone (h e he)
  | unary _ h _ => exact List.forall_mem_singleton.2 (hnone h)
  | binary _ hl hr _ _ => exact List.forall_mem_cons.2 ⟨hnone hl, List.forall_mem_singleton.2 (hnone hr)⟩
  | call hf h _ _ => exact List.forall_mem_cons.2 ⟨hnone hf, fun e he => hnone (h e he)⟩
  | index hl hp _ _ => exact List.forall_mem_cons.2 ⟨hnone hl, List.forall_mem_singleton.2 (hnone hp)⟩
  | declare _ h _ => exact List.forall_mem_singleton.2 (hnone h)
  | declareArray _ _ h _ => exact List.forall_mem_singleton.2 (hnone h)
  | returnValue h _ => exact List.forall_mem_singleton.2 (hnone h)
  | expression h _ => exact List.forall_mem_singleton.2 (hnone h)
  | branches _ ih => exact ih
  | ifThen hc _ _ _ =>
    rw [declared]
    exact List.forall_mem_cons.2 ⟨hnone hc, List.forall_mem_singleton.2 (List.Subset.refl _)⟩
  | ifElse hc _ _ _ _ ihn =>
    rw [declared]
    refine List.forall_mem_cons.2 ⟨hnone hc, List.forall_mem_cons.2 ⟨?_, fun p hp => ?_⟩⟩
    · exact List.subset_append_left _ _
    · exact List.Subset.trans (ihn p hp) (List.subset_append_right _ _)
  | otherwise _ _ =>
    rw [declared]
    exact List.forall_mem_singleton.2 (List.Subset.refl _)
  | elseIf _ ih => exact ih
  | block _ _ =>
    rw [declared]
    exact declared_subset_declaredIn
  | program _ _ =>
    rw [declared]
    exact declared_subset_declaredIn
  | _ => exact fun p hp => by cases hp

end Fits

end Node

/-! ## Evaluation -/

/-- **The steps from `w` that bind only `names` in frame `id`**, or names in new frames. -/
def stepping (V : Vocabulary) (names : List String) (links : Links) {w : World} {id : FrameId}
    (hid : id < w.frames.size) : Accord where
  Known := Links
  le := (· <+: ·)
  worlds links' t t' := t = t' ∧ w.Step V id names links links' t
  value := Value.Linked V
  scope links' s := s.In links'
  code c := c.body.Fits V .body
  tree s node := (∃ place, node.Fits V place) ∧ ∀ n ∈ node.declared, w.MayBind id names s n
  reads _ := True
  binds := w.MayBind id names
  halts _ := True
  le_refl := List.prefix_refl
  le_trans := List.IsPrefix.trans
  value_mono hp h := h.mono hp
  scope_mono hp h := h.mono hp
  fault _ := trivial
  plain h := .of_closures (Value.closures_of_isPlain h)
  wrapped _ := .of_closures rfl
  builtin _ _ := .of_closures rfl
  length _ _ := .of_closures rfl
  element h := h.element
  content h := h.of_returned
  closure h := h.closure
  make := by
    rintro links' t _ made ⟨rfl, hstep⟩ hmade
    refine ⟨rfl, links', List.prefix_refl _, ?_, rfl, hstep.of_frames rfl⟩
    cases hmade with
    | array h => exact .array _ h
    | function h => exact .function _ h
    | returned h => exact .returned _ h
  lookup := by
    rintro links' t _ s n ⟨rfl, hstep⟩ _ _
    exact ⟨rfl, fun v hv => hstep.linked.lookup? hv⟩
  bind := by
    rintro links' t _ s n v ⟨rfl, hstep⟩ hs hn hv
    exact ⟨rfl, hstep.bind hid hs hn hv⟩
  enter := by
    rintro links' t _ c ⟨rfl, hstep⟩ hc hs
    refine ⟨rfl, links' ++ [c.scope], List.prefix_append _ _, ?_, ⟨rfl, hstep.enclosed hs⟩,
      ⟨⟨_, hc⟩, fun _ _ => .inl hstep.size_le⟩, fun _ _ => .inl hstep.size_le⟩
    show (links' ++ [c.scope])[t.frames.size]? = _
    rw [← hstep.linked.length_eq, List.getElem?_concat_length]
  write := by
    rintro links' t _ text ⟨rfl, hstep⟩
    exact ⟨rfl, hstep.of_frames rfl⟩

/-- Trees that declare only what may be bound are made of such trees. -/
theorem stepping_allows {names : List String} {links : Links} {w : World} {id : FrameId}
    (hid : id < w.frames.size) (s : Scope) (node : Node)
    (h : (stepping V names links hid).tree s node) :
    (stepping V names links hid).Allows ((stepping V names links hid).tree s) s node := by
  obtain ⟨⟨place, hn⟩, hdeclared⟩ := h
  refine hn.allows (fun p hp => ⟨hn.parts p hp, fun n hd => ?_⟩) (fun _ _ _ => .of_closures rfl)
    (fun _ _ => trivial) (fun n hb => ?_) fun _ _ _ _ hb => hb
  · exact hdeclared n (hn.declared_subset p hp hd)
  · exact hdeclared n (hn.bound_subset hb)

namespace Eval

variable {α : Type} {id : FrameId} {names more : List String} {links : Links} {w : World}

/-- **What `x` does to a world** whose frames are linked: it is a step, and its result is linked. -/
def Respects (V : Vocabulary) (id : FrameId) (names : List String) (links : Links) (x : Eval α)
    (w : World) (ok : Links → α → Prop) : Prop :=
  Outcome x w (fun a w' => ∃ links', w.Step V id names links links' w' ∧ ok links' a)
    (fun _ w' => ∃ links', w.Step V id names links links' w')

theorem Respects.mono {x : Eval α} {ok : Links → α → Prop} (hx : Respects V id names links x w ok)
    (hsub : names ⊆ more) : Respects V id more links x w ok := by
  refine Outcome.mono hx ?_ ?_
  · rintro a w' ⟨links', hstep, ha⟩
    exact ⟨links', hstep.mono hsub, ha⟩
  · rintro _ w' ⟨links', hstep⟩
    exact ⟨links', hstep.mono hsub⟩

/-- What keeps the steps in accord is a step. -/
theorem respects_of_keeps {hid : id < w.frames.size} {x : Eval Value}
    (h : (stepping V names links hid).Keeps links x x) (hw : w.Linked V links) :
    Respects V id names links x w (Value.Linked V) := by
  refine (h.outcome ⟨rfl, .refl hw⟩).mono ?_ ?_
  · rintro v w' ⟨links', -, hv, -, hstep⟩
    exact ⟨links', hstep, hv⟩
  · rintro _ w' ⟨links', -, -, -, hstep⟩
    exact ⟨links', hstep⟩

end Eval

/-- An evaluator that changes only what a tree declares. -/
def RespectsTrees (V : Vocabulary) (evaluate : Node → Scope → Eval Value) : Prop :=
  ∀ (place : Place) (node : Node) (id : FrameId) (outer : Scope) (links : Links) (w : World),
    node.Fits V place → Scope.In links (id :: outer) → w.Linked V links →
    Eval.Respects V id node.declared links (evaluate node (id :: outer)) w (Value.Linked V)

/-- An expression changes nothing. -/
theorem RespectsTrees.expression {evaluate : Node → Scope → Eval Value} {id : FrameId} {outer : Scope}
    {names : List String} {links : Links} {w : World} (hE : RespectsTrees V evaluate) {node : Node}
    (hn : node.Fits V .expression) (hs : Scope.In links (id :: outer)) (hw : w.Linked V links) :
    Eval.Respects V id names links (evaluate node (id :: outer)) w (Value.Linked V) := by
  have h := hE .expression node id outer links w hn hs hw
  rw [hn.declared_eq_nil] at h
  exact h.mono (List.nil_subset _)

/-- **Evaluation changes only what a tree declares**, however deep it may be nested. -/
theorem eval_respects (room : Room) (depth : Nat) : RespectsTrees V (eval room depth) := by
  intro place node id outer links w hn hs hw
  have hid := hw.lt_size hs
  have hkept := Accord.eval_keeps (A := stepping V node.declared links hid) trivial
    (stepping_allows hid) room depth links node (id :: outer)
    ⟨⟨place, hn⟩, fun _ hd => .inr ⟨rfl, hd⟩⟩ hs
  exact Eval.respects_of_keeps hkept hw

/-- **A call changes nothing**: the arguments and what the body declares go to a new frame. -/
theorem call_respects (room : Room) (depth : Nat) {function : Value} {arguments : List Value}
    {id : FrameId} {links : Links} {w : World} (hf : function.Linked V links)
    (ha : ∀ v ∈ arguments, v.Linked V links) (hw : w.Linked V links) (hid : id < w.frames.size) :
    Eval.Respects V id [] links (Eval.call room (eval room depth) function arguments) w
      (Value.Linked V) := by
  have hkept := Accord.call_keeps (A := stepping V [] links hid) trivial (stepping_allows hid) room depth
    links function arguments hf ha
  exact Eval.respects_of_keeps hkept hw

/-! ## The frame law -/

/-- `x` started in `w` ends in `w'`, with a value or by a crash. -/
def Eval.EndsIn (x : Eval Value) (w w' : World) : Prop :=
  (∃ value, x w = .ok value w') ∨ ∃ crash, x w = .error crash w'

theorem Eval.Respects.step {id : FrameId} {names : List String} {links : Links} {x : Eval Value}
    {w w' : World} {ok : Links → Value → Prop} (h : Respects V id names links x w ok)
    (hend : x.EndsIn w w') : ∃ links', w.Step V id names links links' w' := by
  unfold Respects Outcome at h
  rcases hend with ⟨value, hx⟩ | ⟨crash, hx⟩
  · rw [hx] at h
    obtain ⟨links', hstep, -⟩ := h
    exact ⟨links', hstep⟩
  · rw [hx] at h
    exact h

namespace World

/-- **Nothing that is there in `w` is changed in `w'`**: no frame, and nothing that encloses one. -/
def Untouched (V : Vocabulary) (links : Links) (w w' : World) : Prop :=
  (∀ id < w.frames.size, w'.frame id = w.frame id) ∧
    ∃ links', links <+: links' ∧ w'.Linked V links'

/-- **Of what is there in `w`, at most `names` in frame `id` are changed in `w'`.**  They may be bound
anew, but no name is lost. -/
def ChangedIn (V : Vocabulary) (id : FrameId) (names : List String) (links : Links) (w w' : World) :
    Prop :=
  (∀ other < w.frames.size, other ≠ id → w'.frame other = w.frame other) ∧
    (∀ name, name ∉ names → (w'.frame id).find? name = (w.frame id).find? name) ∧
    (∀ name, ((w.frame id).find? name).isSome → ((w'.frame id).find? name).isSome) ∧
    ∃ links', links <+: links' ∧ w'.Linked V links'

variable {id : FrameId} {names : List String} {links links' : Links} {w w' : World}

theorem Step.untouched (h : Step V id [] links w links' w') : Untouched V links w w' := by
  refine ⟨fun other hlt => ?_, links', h.prefix_links, h.linked⟩
  by_cases hid : other = id
  · subst hid
    exact h.rebound.eq
  · exact h.frame_eq other hlt hid

theorem Step.changedIn (h : Step V id names links w links' w') :
    ChangedIn V id names links w w' :=
  ⟨h.frame_eq, fun _ => h.rebound.find?_eq, fun _ => h.rebound.isSome_find?, links',
    h.prefix_links, h.linked⟩

end World

/-- The outermost frame is enclosed by nothing. -/
theorem Links.Formed.globalScope_in {links : Links} (h : links.Formed) :
    World.globalScope.In links := by
  induction h with
  | outermost => rfl
  | enclose _ _ ih => exact ih.mono (List.prefix_append _ _)

/-- The frames of a world that programs lead to can be linked. -/
theorem World.Reachable.exists_linked {w : World} (h : w.Reachable V) :
    ∃ links, w.Linked V links := by
  refine h.invariant (P := fun w => ∃ links, w.Linked V links) ⟨_, linked_initial⟩ ?_
  rintro room depth program w hp ⟨links, hw⟩
  have hstep := eval_respects room depth .program program 0 [] links w hp hw.formed.globalScope_in hw
  refine Outcome.mono hstep ?_ ?_
  · rintro _ w' ⟨links', hstep, -⟩
    exact ⟨links', hstep.linked⟩
  · rintro _ w' ⟨links', hstep⟩
    exact ⟨links', hstep.linked⟩

/-- **Evaluation changes only what is declared.**  The frames of every world that programs lead to are
linked, the outermost among them, and those of a world in which a call has begun are linked again.
Wherever frames are linked, and in every scope of theirs, an expression leaves everything as it is,
and a statement all but the names it declares, outside of functions, in the innermost frame.  So does
a call: whoever calls, and wherever the function was defined, no frame is changed that was there
before. -/
theorem eval_changes_declared (room : Room) (depth : Nat) :
    (∀ w : World, w.Reachable V → ∃ links, w.Linked V links ∧ World.globalScope.In links) ∧
      ∀ (links : Links) (w w' : World), w.Linked V links →
        (∀ (closure : Closure) (arguments : List Value), closure.Linked V links →
          (∀ v ∈ arguments, v.Linked V links) →
          (w.entered closure arguments).Linked V (links ++ [closure.scope])) ∧
        (∀ (node : Node) (id : FrameId) (outer : Scope), Scope.In links (id :: outer) →
          (eval room depth node (id :: outer)).EndsIn w w' →
          (node.Fits V .expression → w.Untouched V links w') ∧
            (node.Fits V .statement → w.ChangedIn V id node.declared links w')) ∧
        ∀ (function : Value) (arguments : List Value), function.Linked V links →
          (∀ v ∈ arguments, v.Linked V links) →
          (Eval.call room (eval room depth) function arguments).EndsIn w w' →
          w.Untouched V links w' := by
  refine ⟨fun w hw => ?_, fun links w w' hw => ⟨fun closure arguments hc ha => hw.entered hc ha,
    fun node id outer hs hend => ⟨?_, ?_⟩, ?_⟩⟩
  · obtain ⟨links, hlinked⟩ := hw.exists_linked
    exact ⟨links, hlinked, hlinked.formed.globalScope_in⟩
  · intro hn
    obtain ⟨links', hstep⟩ := ((eval_respects room depth).expression hn hs hw).step hend
    exact hstep.untouched
  · intro hn
    obtain ⟨links', hstep⟩ := (eval_respects room depth .statement node id outer links w hn hs hw).step
      hend
    exact hstep.changedIn
  · intro function arguments hf ha hend
    have hglobal := hw.lt_size (hw.formed.globalScope_in)
    obtain ⟨links', hstep⟩ := (call_respects room depth hf ha hw hglobal).step hend
    exact hstep.untouched

/-- A function that declares `y` for itself and returns a function from inside: calling it does not
touch the `y` outside, and a branch that declares `z` by such a call changes `z` alone. -/
theorem eval_changes_declared_shadowing : ∃ (links : Links) (w w₁ w₂ : World) (e s : Node),
    w.Linked Vocabulary.standard links ∧
      e.Fits Vocabulary.standard .expression ∧ s.Fits Vocabulary.standard .statement ∧
      (eval none 8 e World.globalScope).EndsIn w w₁ ∧
      (eval none 8 s World.globalScope).EndsIn w w₂ ∧
      w₁.frames.size = 2 ∧ ((w.frame 0).find? "z").isNone ∧ ((w₂.frame 0).find? "z").isSome ∧
      w.Untouched Vocabulary.standard links w₁ ∧
      w.ChangedIn Vocabulary.standard 0 ["z"] links w₂ := by
  let t : Token := { kind := .illegal, text := "" }
  let x : Ident := { token := t, name := "x" }
  let y : Ident := { token := t, name := "y" }
  let z : Ident := { token := t, name := "z" }
  let f : Ident := { token := t, name := "f" }
  let g : Ident := { token := t, name := "g" }
  let inner : Node := .block t [.returnValue t (.ident y)]
  let body : Node := .block t [.declare t .int y (.ident x), .function t "g" [] none inner,
    .returnValue t (.ident g)]
  let earlier : Node := .program [.declare t .int y (.int t 5),
    .function t "f" [{ x with typeName := some "int" }] none body]
  let e : Node := .call t (.ident f) [.int t 1]
  let s : Node := .ifThen t (.bool t true) (.block t [.declare t .int z e])
  have hx : Vocabulary.standard.varName x := ⟨⟨'x', [], rfl, rfl, rfl, rfl⟩, rfl⟩
  have hy : Vocabulary.standard.varName y := ⟨⟨'y', [], rfl, rfl, rfl, rfl⟩, rfl⟩
  have hz : Vocabulary.standard.varName z := ⟨⟨'z', [], rfl, rfl, rfl, rfl⟩, rfl⟩
  have hf : Vocabulary.standard.varName f := ⟨⟨'f', [], rfl, rfl, rfl, rfl⟩, rfl⟩
  have hg : Vocabulary.standard.varName g := ⟨⟨'g', [], rfl, rfl, rfl, rfl⟩, rfl⟩
  have hint : ∀ n : Nat, n < 10 → Vocabulary.standard.int n := by
    intro n hn
    simp only [Vocabulary.standard, MachineInt.bound]
    omega
  have hinner : inner.Fits Vocabulary.standard .body :=
    .block (by simpa [inner] using .returnValue (.ident hy))
  have hbody : body.Fits Vocabulary.standard .body := by
    refine .block ?_
    simp only [List.forall_mem_cons]
    exact ⟨.declare hy (.ident hx), .function hg.1 (by simp) (by simp [Vocabulary.standard]) hinner,
      .returnValue (.ident hg), by simp⟩
  have hparameter : ∀ i ∈ [{ x with typeName := some "int" }], Vocabulary.standard.parameter i := by
    rw [List.forall_mem_singleton]
    exact ⟨hx.1, "int", rfl, .int, .inl rfl⟩
  have hearlier : earlier.Fits Vocabulary.standard .program := by
    refine .program ?_
    simp only [List.forall_mem_cons]
    exact ⟨.declare hy (.int (hint 5 (by decide))),
      .function hf.1 hparameter (by simp [Vocabulary.standard]) hbody, by simp⟩
  have he : e.Fits Vocabulary.standard .expression :=
    .call (.ident hf) (by simpa [e] using .int (hint 1 (by decide)))
  have hs : s.Fits Vocabulary.standard .statement :=
    .branches (.ifThen .bool (.block (by simpa [s] using .declare hz he)))
  let outside : Value := .function 0 ⟨"f", [{ x with typeName := some "int" }], body, [0]⟩
  let inside : Value := .function 1 ⟨"g", [], inner, [1, 0]⟩
  let w : World := ⟨#[[("y", .int 5), ("f", outside)]], 1, ""⟩
  let called : Frame := [("x", .int 1), ("y", .int 1), ("g", inside)]
  let w₁ : World := ⟨#[[("y", .int 5), ("f", outside)], called], 3, ""⟩
  let w₂ : World := ⟨#[[("y", .int 5), ("f", outside), ("z", inside)], called], 3, ""⟩
  have hrun : eval none 5 earlier World.globalScope World.initial = .ok .null w := rfl
  have hend₁ : (eval none 8 e World.globalScope).EndsIn w w₁ :=
    .inl ⟨_, rfl⟩
  have hend₂ : (eval none 8 s World.globalScope).EndsIn w w₂ :=
    .inl ⟨_, rfl⟩
  obtain ⟨hlinks, hlaw⟩ := eval_changes_declared (V := Vocabulary.standard) none 8
  obtain ⟨links, hw, hglobal⟩ := hlinks w (.run .initial hearlier hrun)
  refine ⟨links, w, w₁, w₂, e, s, hw, he, hs, hend₁, hend₂, rfl, rfl, rfl, ?_, ?_⟩
  · exact ((hlaw links w w₁ hw).2.1 e 0 [] hglobal hend₁).1 he
  · exact ((hlaw links w w₂ hw).2.1 s 0 [] hglobal hend₂).2 hs

end LimLang
