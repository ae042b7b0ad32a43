import LimLang.Proofs.Accord
import LimLang.Proofs.FrameLaw
import LimLang.Proofs.IntegerRange
import LimLang.Proofs.TwinRuns

/-! # Names that are not mentioned

A name that occurs neither in a program nor in any function that the program can get hold of may be bound to
anything.  What can be got hold of is what is *reached* from the global scope: what is bound in it, what is
in an array that is reached, and what is bound where a function that is reached was defined.

Binding the name gives a world that is alike but for the name.  Evaluation keeps to the frames that are
reached and those it adds, and in them it never looks the name up and never binds it.  So the two worlds
stay alike but for the name, in accord.
-/
namespace LimLang

open EStateM (Result)

variable {V : Vocabulary} {z : String} {w w' : World} {scope : Scope}

/-! ## Worlds that are alike but for a name -/

namespace World

/-- **Worlds that are alike but for what `z` stands for.** -/
structure AlikeBut (z : String) (w w' : World) : Prop where
  nextId_eq : w'.nextId = w.nextId
  size_eq : w'.frames.size = w.frames.size
  output_eq : w'.output = w.output
  find?_eq : ∀ id name, name ≠ z → Frame.find? (w'.frame id) name = Frame.find? (w.frame id) name

namespace AlikeBut

theorem lookup?_eq (h : w.AlikeBut z w') {name : String} (hname : name ≠ z) :
    w'.lookup? scope name = w.lookup? scope name := by
  induction scope with
  | nil => rfl
  | cons id outer ih => rw [lookup?, lookup?, h.find?_eq id name hname, ih]

theorem bind (h : w.AlikeBut z w') (scope : Scope) (name : String) (value : Value) :
    (w.bind scope name value).AlikeBut z (w'.bind scope name value) := by
  cases scope with
  | nil => exact h
  | cons first outer =>
    refine ⟨h.nextId_eq, ?_, h.output_eq, fun id other hother => ?_⟩
    · rw [size_frames_bind, size_frames_bind, h.size_eq]
    · rw [find?_frame_bind, find?_frame_bind, h.size_eq, h.find?_eq id other hother]

theorem enclosed (h : w.AlikeBut z w') (scope : Scope) :
    (w.enclosed scope).1.AlikeBut z (w'.enclosed scope).1 where
  nextId_eq := h.nextId_eq
  size_eq := by rw [World.enclosed, World.enclosed, Array.size_push, Array.size_push, h.size_eq]
  output_eq := h.output_eq
  find?_eq id name hname := by
    rw [frame_enclosed_eq, frame_enclosed_eq]
    exact h.find?_eq id name hname

end AlikeBut

/-- Binding the name makes no other difference. -/
theorem alikeBut_bind (w : World) (scope : Scope) (z : String) (value : Value) :
    w.AlikeBut z (w.bind scope z value) := by
  cases scope with
  | nil => exact ⟨rfl, rfl, rfl, fun _ _ _ => rfl⟩
  | cons first outer =>
    refine ⟨rfl, size_frames_bind .., rfl, fun id name hname => ?_⟩
    rw [find?_frame_bind, if_neg fun h => hname h.2.2]

theorem mem_frame_bind {id : FrameId} {name : String} {value : Value} {binding : String × Value}
    (h : binding ∈ (w.bind scope name value).frame id) : binding.2 = value ∨ binding ∈ w.frame id := by
  cases scope with
  | nil => exact .inr h
  | cons first outer =>
    by_cases hid : first = id
    · subst hid
      rcases Nat.lt_or_ge first w.frames.size with hlt | hle
      · rw [frame_bind_self w hlt] at h
        exact mem_bind h
      · rw [frame_bind_of_le w hle] at h
        exact .inr h
    · rw [frame_bind_of_ne w hid] at h
      exact .inr h

theorem exists_mem_of_lookup? {name : String} {value : Value} (h : w.lookup? scope name = some value) :
    ∃ id ∈ scope, (name, value) ∈ w.frame id := by
  induction scope with
  | nil => cases h
  | cons id outer ih =>
    rw [lookup?] at h
    split at h
    · next found hfind =>
      cases h
      obtain ⟨before, after, hframe, -⟩ := List.lookup_eq_some_iff.1 hfind
      refine ⟨id, List.mem_cons_self, ?_⟩
      rw [hframe]
      exact List.mem_append_right _ List.mem_cons_self
    · obtain ⟨other, hother, hmem⟩ := ih h
      exact ⟨other, List.mem_cons_of_mem _ hother, hmem⟩

end World

/-! ## What does not mention the name -/

/-- A vocabulary without a name. -/
def Vocabulary.without (V : Vocabulary) (z : String) : Vocabulary :=
  { V with
    varName := fun i => V.varName i ∧ i.name ≠ z
    parameter := fun i => V.parameter i ∧ i.name ≠ z
    functionName := fun name => V.functionName name ∧ name ≠ z }

theorem Vocabulary.narrowsTo_without (V : Vocabulary) (z : String) :
    V.NarrowsTo (· ≠ z) (V.without z) := by
  constructor
  case varName => exact fun _ hname h => ⟨h, hname⟩
  case parameter => exact fun _ hname h => ⟨h, hname⟩
  case functionName => exact fun _ hname h => ⟨h, hname⟩
  all_goals exact fun _ h => h

theorem Node.Fits.without {place : Place} {node : Node} (h : node.Fits V place) (hz : z ∉ node.names) :
    node.Fits (V.without z) place :=
  h.narrow (V.narrowsTo_without z) fun _ hname heq => hz (heq ▸ hname)

/-- A function that does not mention `z`, defined in frames of a region. -/
def Closure.Clear (V : Vocabulary) (z : String) (region : FrameId → Prop) (closure : Closure) : Prop :=
  closure.body.Fits (V.without z) .body ∧ (∀ i ∈ closure.parameters, i.name ≠ z) ∧
    ∀ id ∈ closure.scope, region id

/-- A value whose functions do not mention `z`. -/
def Value.Clear (V : Vocabulary) (z : String) (region : FrameId → Prop) (value : Value) : Prop :=
  ∀ closure ∈ value.closures, closure.Clear V z region

/-- **In the frames of a region the functions do not mention `z`**, unless they are bound to `z` itself. -/
def World.Clear (V : Vocabulary) (z : String) (region : FrameId → Prop) (w : World) : Prop :=
  ∀ id, region id → ∀ binding ∈ w.frame id, binding.1 ≠ z → binding.2.Clear V z region

/-- A value without functions mentions nothing. -/
theorem Value.Clear.of_closures {region : FrameId → Prop} {value : Value} (h : value.closures = []) :
    value.Clear V z region := by
  intro closure hc
  rw [h] at hc
  cases hc

theorem Value.Clear.mono {region more : FrameId → Prop} {value : Value} (h : value.Clear V z region)
    (hsub : ∀ id, region id → more id) : value.Clear V z more := by
  intro closure hc
  obtain ⟨hbody, hparameters, hscope⟩ := h closure hc
  exact ⟨hbody, hparameters, fun id hid => hsub id (hscope id hid)⟩

/-- What is made of values and functions that do not mention `z` does not mention it. -/
theorem Makes.clear {region : FrameId → Prop} {made : Nat → Value}
    (h : Makes (Value.Clear V z region) (Closure.Clear V z region) made) (id : Nat) :
    (made id).Clear V z region := by
  cases h with
  | array hes =>
    intro closure hc
    obtain ⟨v, hv, hc⟩ := Value.Linked.mem_closuresIn.1 hc
    exact hes v hv closure hc
  | function h =>
    intro closure hc
    rw [List.mem_singleton.1 hc]
    exact h
  | returned hv => exact hv

/-- **Worlds that are alike but for `z` stay so**, as far as functions do not mention it. -/
def unaware (V : Vocabulary) (z : String) : Accord where
  Known := FrameId → Prop
  le region more := ∀ id, region id → more id
  worlds region w w' := w.AlikeBut z w' ∧ w.Clear V z region
  value := Value.Clear V z
  scope region s := ∀ id ∈ s, region id
  code c := c.body.Fits (V.without z) .body ∧ ∀ i ∈ c.parameters, i.name ≠ z
  tree _ node := ∃ place, node.Fits (V.without z) place
  reads n := n ≠ z
  binds _ n := n ≠ z
  halts _ := True
  le_refl _ _ h := h
  le_trans h h' id hid := h' id (h id hid)
  value_mono hsub h := h.mono hsub
  scope_mono hsub h id hid := hsub id (h id hid)
  fault _ := trivial
  plain h := .of_closures (Value.closures_of_isPlain h)
  wrapped _ := .of_closures rfl
  builtin _ _ := .of_closures rfl
  length _ _ := .of_closures rfl
  element h v hv closure hc := h closure (Value.Linked.mem_closuresIn.2 ⟨v, hv, hc⟩)
  content h := h
  closure h := by
    obtain ⟨hbody, hparameters, hscope⟩ := h _ (List.mem_singleton.2 rfl)
    exact ⟨⟨hbody, hparameters⟩, hscope⟩
  make := by
    rintro region w w' made ⟨halike, hclear⟩ hmade
    have hclosure : ∀ c : Closure, (c.body.Fits (V.without z) .body ∧ ∀ i ∈ c.parameters, i.name ≠ z) ∧
        (∀ id ∈ c.scope, region id) ↔ c.Clear V z region := fun c => and_assoc
    simp only [hclosure] at hmade
    refine ⟨halike.nextId_eq, region, fun _ h => h, hmade.clear _, ?_, hclear⟩
    exact { halike with nextId_eq := congrArg (· + 1) halike.nextId_eq }
  lookup := by
    rintro region w w' s n ⟨halike, hclear⟩ hs hn
    refine ⟨halike.lookup?_eq hn, fun v hv => ?_⟩
    obtain ⟨id, hid, hmem⟩ := World.exists_mem_of_lookup? hv
    exact hclear id (hs id hid) _ hmem hn
  bind := by
    rintro region w w' s n v ⟨halike, hclear⟩ _ _ hv
    refine ⟨halike.bind s n v, fun id hid binding hmem hz => ?_⟩
    rcases World.mem_frame_bind hmem with heq | hmem
    · rw [heq]
      exact hv
    · exact hclear id hid binding hmem hz
  enter := by
    rintro region w w' c ⟨halike, hclear⟩ ⟨hbody, hparameters⟩ hs
    have hsub : ∀ id, region id → region id ∨ id = w.frames.size := fun _ => .inl
    refine ⟨halike.size_eq, fun id => region id ∨ id = w.frames.size, hsub, ?_,
      ⟨halike.enclosed c.scope, ?_⟩, ⟨_, hbody⟩, hparameters⟩
    · rw [List.forall_mem_cons]
      exact ⟨.inr rfl, fun id hid => .inl (hs id hid)⟩
    · intro id hid binding hmem hz
      rcases hid with hid | rfl
      · rw [World.frame_enclosed_eq] at hmem
        exact (hclear id hid binding hmem hz).mono hsub
      · rw [World.frame_enclosed] at hmem
        cases hmem
  write := by
    rintro region w w' text ⟨halike, hclear⟩
    exact ⟨{ halike with output_eq := congrArg (· ++ text) halike.output_eq }, hclear⟩

theorem unaware_speaks (V : Vocabulary) (z : String) : (unaware V z).Speaks (V.without z) where
  tree_iff _ _ := Iff.rfl
  int _ _ := .of_closures rfl
  reads h := h.2
  varName h := h.2
  functionName h := h.2
  code hp hb := ⟨hb, fun i hi => (hp i hi).2⟩
  tooDeep := trivial

/-! ## What is reached -/

/-- **What is reached from a scope.** -/
inductive World.Reaches (w : World) : Scope → Value → Prop
  | bound {scope : Scope} {id : FrameId} {name : String} {value : Value} (hid : id ∈ scope)
      (h : (name, value) ∈ w.frame id) : Reaches w scope value
  | element {scope : Scope} {id : Nat} {elements : List Value} {value : Value}
      (h : Reaches w scope (.array id elements)) (hv : value ∈ elements) : Reaches w scope value
  | enclosed {scope : Scope} {id : Nat} {closure : Closure} {value : Value}
      (h : Reaches w scope (.function id closure)) (hv : Reaches w closure.scope value) :
      Reaches w scope value

namespace World

/-- The frames of a scope, and those in which functions that are reached from it were defined. -/
def Region (w : World) (scope : Scope) (id : FrameId) : Prop :=
  id ∈ scope ∨ ∃ number closure, w.Reaches scope (.function number closure) ∧ id ∈ closure.scope

theorem Region.reaches {id : FrameId} (h : w.Region scope id) {name : String} {value : Value}
    (hmem : (name, value) ∈ w.frame id) : w.Reaches scope value := by
  rcases h with hid | ⟨number, closure, hreached, hid⟩
  · exact .bound hid hmem
  · exact .enclosed hreached (.bound hid hmem)

/-- The functions in a value that is reached are reached. -/
theorem Reaches.closure {value : Value} (h : w.Reaches scope value) (hsound : value.Sound V) :
    ∀ closure ∈ value.closures, closure.body.Fits V .body ∧
      ∃ number, w.Reaches scope (.function number closure) := by
  induction hsound with
  | array _ ih =>
    intro closure hc
    obtain ⟨v, hv, hc⟩ := Value.Linked.mem_closuresIn.1 hc
    exact ih v hv (.element h hv) closure hc
  | function hbody =>
    intro closure hc
    obtain rfl := List.mem_singleton.1 hc
    exact ⟨hbody, _, h⟩
  | _ =>
    intro closure hc
    cases hc

/-- If no function that is reached mentions `z`, the region that is reached is clear. -/
theorem Sound.clear (h : w.Sound V)
    (hfree : ∀ number closure, w.Reaches scope (.function number closure) →
      z ∉ closure.parameters.map Ident.name ∧ z ∉ closure.body.names) :
    w.Clear V z (w.Region scope) := by
  intro id hid binding hmem _ closure hc
  have hsound := Holds.frame h id binding hmem
  obtain ⟨hbody, number, hreached⟩ := (hid.reaches hmem).closure hsound closure hc
  obtain ⟨hparameters, hnames⟩ := hfree number closure hreached
  refine ⟨hbody.without hnames, fun i hi heq => ?_, fun other hother => ?_⟩
  · exact hparameters (List.mem_map.2 ⟨i, hi, heq⟩)
  · exact .inr ⟨number, closure, hreached, hother⟩

end World

/-- **Runs that end alike but for a name**: with the same value or the same crash. -/
inductive EndsAlikeBut (z : String) : Result Crash World Value → Result Crash World Value → Prop
  | ok {value : Value} {t t' : World} (h : t.AlikeBut z t') : EndsAlikeBut z (.ok value t) (.ok value t')
  | crash {crash : Crash} {t t' : World} (h : t.AlikeBut z t') :
      EndsAlikeBut z (.error crash t) (.error crash t')

theorem EndsAlikeBut.exists_ok_iff {r r' : Result Crash World Value} (h : EndsAlikeBut z r r') :
    (∃ value t, r = .ok value t) ↔ ∃ value t, r' = .ok value t := by
  cases h with
  | ok _ => exact ⟨fun _ => ⟨_, _, rfl⟩, fun _ => ⟨_, _, rfl⟩⟩
  | crash _ => simp

/-- **A name that is not mentioned makes no difference.**  Let `z` be a name that occurs neither in a
program nor in the parameters or the body of any function that is reached from the global scope.  Whatever
`z` is bound to before, the program comes to an end or not as it does without, at every depth; its value is
the same, so it has the same type and the same written form, or the crash is the same; the same has been
written; and all other names stand for the same, in all frames. -/
theorem eval_ignores_unmentioned (hw : w.Reachable V) {program : Node} (hp : program.Fits V .program)
    (hz : z ∉ program.names)
    (hfree : ∀ number closure, w.Reaches World.globalScope (.function number closure) →
      z ∉ closure.parameters.map Ident.name ∧ z ∉ closure.body.names)
    (value : Value) (room : Room) :
    let w' := w.bind World.globalScope z value
    (Terminates room program World.globalScope w ↔ Terminates room program World.globalScope w') ∧
      ∀ depth, EndsAlikeBut z (eval room depth program World.globalScope w)
        (eval room depth program World.globalScope w') := by
  intro w'
  have hworlds : (unaware V z).worlds (w.Region World.globalScope) w w' :=
    ⟨w.alikeBut_bind World.globalScope z value, hw.sound.clear hfree⟩
  have hends : ∀ depth, EndsAlikeBut z (eval room depth program World.globalScope w)
      (eval room depth program World.globalScope w') := by
    intro depth
    have hkept := (unaware_speaks V z).eval_keeps room depth (hp.without hz) (fun id hid => .inl hid) w
      w' hworlds
    generalize eval room depth program World.globalScope w = r at hkept
    generalize eval room depth program World.globalScope w' = r' at hkept
    cases hkept with
    | ok _ hvalue h =>
      obtain ⟨rfl, -⟩ := hvalue
      exact .ok h.1
    | crash _ _ h => exact .crash h.1
  exact ⟨exists_congr fun depth => (hends depth).exists_ok_iff, hends⟩

/-- A function that is reached by way of an array, and a name that stands nowhere. -/
theorem eval_ignores_unmentioned_element : ∃ (w : World) (program : Node) (closure : Closure),
    w.Reachable Vocabulary.standard ∧ program.Fits Vocabulary.standard .program ∧
      "y" ∉ program.names ∧ w.Reaches World.globalScope (.function 0 closure) ∧
      "y" ∉ closure.parameters.map Ident.name ∧ "y" ∉ closure.body.names ∧
      ∃ t t', eval none 8 program World.globalScope w = .ok (.int 3) t ∧
        eval none 8 program World.globalScope (w.bind World.globalScope "y" (.string "s")) =
          .ok (.int 3) t' ∧ t.AlikeBut "y" t' := by
  let t : Token := { kind := .illegal, text := "" }
  let f : Ident := { token := t, name := "f" }
  let g : Ident := { token := t, name := "g" }
  let n : Ident := { token := t, name := "n" }
  let x : Ident := { token := t, name := "x" }
  let body : Node := .block t [.returnValue t (.binary t (.ident n) "+" (.ident x))]
  let earlier : Node := .program [.declare t .int x (.int t 1),
    .function t "f" [{ n with typeName := some "int" }] none body,
    .declareArray t "int" g (.array t [.ident f])]
  let program : Node := .program
    [.expression t (.call t (.index t (.ident g) (.int t 0)) [.int t 2])]
  have hf : Vocabulary.standard.varName f := ⟨⟨'f', [], rfl, rfl, rfl, rfl⟩, rfl⟩
  have hg : Vocabulary.standard.varName g := ⟨⟨'g', [], rfl, rfl, rfl, rfl⟩, rfl⟩
  have hn : Vocabulary.standard.varName n := ⟨⟨'n', [], rfl, rfl, rfl, rfl⟩, rfl⟩
  have hx : Vocabulary.standard.varName x := ⟨⟨'x', [], rfl, rfl, rfl, rfl⟩, rfl⟩
  have hint : ∀ m : Nat, m < 10 → Vocabulary.standard.int m := by
    intro m hm
    simp only [Vocabulary.standard, MachineInt.bound]
    omega
  have hbody : body.Fits Vocabulary.standard .body := by
    refine .block (List.forall_mem_singleton.2 (.returnValue ?_))
    exact .binary (by simp [Vocabulary.standard]) (.ident hn) (.ident hx)
  have hparameter : ∀ i ∈ [{ n with typeName := some "int" }], Vocabulary.standard.parameter i :=
    List.forall_mem_singleton.2 ⟨hn.1, "int", rfl, .int, .inl rfl⟩
  have hearlier : earlier.Fits Vocabulary.standard .program := by
    refine .program ?_
    simp only [List.forall_mem_cons]
    refine ⟨.declare hx (.int (hint 1 (by decide))), .function hf.1 hparameter ?_ hbody, ?_, by simp⟩
    · simp [Vocabulary.standard]
    · exact .declareArray ⟨.int, rfl⟩ hg (.array (List.forall_mem_singleton.2 (.ident hf)))
  have hprogram : program.Fits Vocabulary.standard .program := by
    refine .program (List.forall_mem_singleton.2 (.expression (.call ?_ ?_)))
    · exact .index (.ident hg) (.int (hint 0 (by decide)))
    · exact List.forall_mem_singleton.2 (.int (hint 2 (by decide)))
  let closure : Closure := ⟨"f", [{ n with typeName := some "int" }], body, [0]⟩
  let function : Value := .function 0 closure
  let w : World := ⟨#[[("x", .int 1), ("f", function), ("g", .array 1 [function])]], 2, ""⟩
  have hrun : eval none 5 earlier World.globalScope World.initial = .ok (.array 1 [function]) w := rfl
  have hreached : ∀ s v, w.Reaches s v → v = .int 1 ∨ v = function ∨ v = .array 1 [function] := by
    intro s v h
    induction h with
    | @bound s id name v _ hmem =>
      have hframe : w.frame id = [("x", .int 1), ("f", function), ("g", .array 1 [function])] ∨
          w.frame id = [] := by
        rcases id with _ | id
        · exact .inl rfl
        · exact .inr rfl
      rcases hframe with hframe | hframe
      · rw [hframe] at hmem
        simp only [List.mem_cons, Prod.mk.injEq, List.not_mem_nil, or_false] at hmem
        rcases hmem with ⟨-, rfl⟩ | ⟨-, rfl⟩ | ⟨-, rfl⟩
        · exact .inl rfl
        · exact .inr (.inl rfl)
        · exact .inr (.inr rfl)
      · rw [hframe] at hmem
        cases hmem
    | @element s id elements v _ hv ih =>
      rcases ih with ih | ih | ih
      · cases ih
      · cases show Value.array id elements = .function 0 closure from ih
      · obtain ⟨-, rfl⟩ := Value.array.inj ih
        exact .inr (.inl (List.mem_singleton.1 hv))
    | enclosed _ _ _ ih => exact ih
  have hparameters : "y" ∉ closure.parameters.map Ident.name := by decide
  have hnames : "y" ∉ closure.body.names := by decide
  have hfree : ∀ number other, w.Reaches World.globalScope (.function number other) →
      "y" ∉ other.parameters.map Ident.name ∧ "y" ∉ other.body.names := by
    intro number other h
    rcases hreached _ _ h with h | h | h
    · cases h
    · obtain ⟨-, rfl⟩ := Value.function.inj h
      exact ⟨hparameters, hnames⟩
    · cases h
  have hmem : ("g", .array 1 [function]) ∈ w.frame 0 := by simp [w, World.frame]
  have helement : w.Reaches World.globalScope function :=
    .element (.bound List.mem_cons_self hmem) List.mem_cons_self
  have hw : w.Reachable Vocabulary.standard := .run .initial hearlier hrun
  obtain ⟨-, hends⟩ := eval_ignores_unmentioned hw hprogram (by decide) hfree (.string "s") none
  obtain ⟨t, ht⟩ : ∃ t, eval none 8 program World.globalScope w = .ok (.int 3) t := ⟨_, rfl⟩
  have hend := hends 8
  rw [ht] at hend
  generalize hr : eval none 8 program World.globalScope _ = r at hend
  cases hend with
  | @ok _ _ t' halike =>
    exact ⟨w, program, closure, hw, hprogram, by decide, helement, hparameters, hnames, t, t', ht, hr,
      halike⟩

end LimLang
