import LimLang.Evaluation
import LimLang.Proofs.TwinTrees
import Mathlib.Data.List.Nodup

/-! # Paired worlds

When two programs run side by side, each in its own world, what they make is numbered as it comes, and
the numbers need not be the same.  A *pairing* tells which numbers belong together: those of arrays,
functions and returned values, and those of frames.  It is one-to-one, so that what is identical on one
side is identical on the other, and it only grows.

Over a pairing, values are paired that differ in their numbers and in the tokens of the functions in
them; frames that bind the same names to paired values, in whatever order; and worlds in which all paired
frames are paired.  Paired values are written alike, and paired scopes have the same bindings, in the
order of their names.
-/
namespace LimLang

/-- **Which numbers belong together** in two worlds. -/
structure Pairing where
  /-- The numbers of arrays, functions and returned values. -/
  ids : List (Nat × Nat)
  /-- The numbers of frames. -/
  frames : List (FrameId × FrameId)

/-- Pairs of which each is told by either of its parts. -/
def OneToOne (pairs : List (Nat × Nat)) : Prop :=
  ∀ x ∈ pairs, ∀ y ∈ pairs, x.1 = y.1 ↔ x.2 = y.2

/-- Two numbers that have not been used belong together from now on. -/
theorem OneToOne.cons {pairs : List (Nat × Nat)} (h : OneToOne pairs) {m n : Nat}
    (hlt : ∀ x ∈ pairs, x.1 < m ∧ x.2 < n) : OneToOne ((m, n) :: pairs) := by
  intro x hx y hy
  rcases List.mem_cons.1 hx with rfl | hx
  · rcases List.mem_cons.1 hy with rfl | hy
    · exact ⟨fun _ => rfl, fun _ => rfl⟩
    · have := hlt y hy
      constructor <;> intro heq <;> simp only at heq <;> omega
  · rcases List.mem_cons.1 hy with rfl | hy
    · have := hlt x hx
      constructor <;> intro heq <;> simp only at heq <;> omega
    · exact h x hx y hy

namespace Pairing

/-- A pairing with the pairs of another, and perhaps more. -/
structure Within (p q : Pairing) : Prop where
  ids : ∀ pair ∈ p.ids, pair ∈ q.ids
  frames : ∀ pair ∈ p.frames, pair ∈ q.frames

theorem Within.refl (p : Pairing) : p.Within p :=
  ⟨fun _ h => h, fun _ h => h⟩

theorem Within.trans {p q r : Pairing} (h : p.Within q) (h' : q.Within r) : p.Within r :=
  ⟨fun pair hp => h'.ids pair (h.ids pair hp), fun pair hp => h'.frames pair (h.frames pair hp)⟩

/-- Two more numbers of arrays, functions or returned values belong together. -/
def withIds (p : Pairing) (m n : Nat) : Pairing :=
  { p with ids := (m, n) :: p.ids }

/-- Two more frames belong together. -/
def withFrames (p : Pairing) (m n : FrameId) : Pairing :=
  { p with frames := (m, n) :: p.frames }

theorem within_withIds (p : Pairing) (m n : Nat) : p.Within (p.withIds m n) :=
  ⟨fun _ => List.mem_cons_of_mem _, fun _ h => h⟩

theorem within_withFrames (p : Pairing) (m n : FrameId) : p.Within (p.withFrames m n) :=
  ⟨fun _ h => h, fun _ => List.mem_cons_of_mem _⟩

end Pairing

variable {p q : Pairing}

/-! ## Values -/

/-- **Paired scopes**: frame by frame. -/
def Scope.Paired (p : Pairing) (s t : Scope) : Prop :=
  List.Forall₂ (fun m n => (m, n) ∈ p.frames) s t

theorem Scope.Paired.mono (hq : p.Within q) {s t : Scope} (h : Scope.Paired p s t) :
    Scope.Paired q s t :=
  List.Forall₂.imp (fun _ _ h => hq.frames _ h) h

namespace Value

/-- **Paired values.**  Functions are paired if their trees are twins. -/
inductive Paired (p : Pairing) : Value → Value → Prop
  | int {n : Int} : Paired p (.int n) (.int n)
  | bool {b : Bool} : Paired p (.bool b) (.bool b)
  | string {s : String} : Paired p (.string s) (.string s)
  | null : Paired p .null .null
  | array {m n : Nat} {as bs : List Value} (hid : (m, n) ∈ p.ids) (hlen : as.length = bs.length)
      (h : ∀ pair ∈ as.zip bs, Paired p pair.1 pair.2) : Paired p (.array m as) (.array n bs)
  | function {m n : Nat} {c d : Closure} (hid : (m, n) ∈ p.ids) (hname : c.name = d.name)
      (hparameters : Ident.sameAll c.parameters d.parameters)
      (hbody : Node.Twins .body c.body d.body) (hscope : Scope.Paired p c.scope d.scope) :
      Paired p (.function m c) (.function n d)
  | builtin {b : Builtin} : Paired p (.builtin b) (.builtin b)
  | returned {m n : Nat} {a b : Value} (hid : (m, n) ∈ p.ids) (h : Paired p a b) :
      Paired p (.returned m a) (.returned n b)
  | error {message : String} : Paired p (.error message) (.error message)
  | absent : Paired p .absent .absent

/-- Lists of paired values. -/
abbrev AllPaired (p : Pairing) : List Value → List Value → Prop :=
  List.Forall₂ (Paired p)

variable {a b c d : Value}

theorem Paired.arrays {m n : Nat} {as bs : List Value} (hid : (m, n) ∈ p.ids)
    (h : AllPaired p as bs) : Paired p (.array m as) (.array n bs) :=
  .array hid h.length_eq fun _ hpair => (List.forall₂_iff_zip.1 h).2 hpair

theorem Paired.mono (hq : p.Within q) (h : Paired p a b) : Paired q a b := by
  induction h with
  | int => exact .int
  | bool => exact .bool
  | string => exact .string
  | null => exact .null
  | array hid hlen _ ih => exact .array (hq.ids _ hid) hlen ih
  | function hid hname hparameters hbody hscope =>
    exact .function (hq.ids _ hid) hname hparameters hbody (hscope.mono hq)
  | builtin => exact .builtin
  | returned hid _ ih => exact .returned (hq.ids _ hid) ih
  | error => exact .error
  | absent => exact .absent

theorem AllPaired.mono (hq : p.Within q) {as bs : List Value} (h : AllPaired p as bs) :
    AllPaired q as bs :=
  List.Forall₂.imp (fun _ _ h => Paired.mono hq h) h

theorem Paired.type?_eq (h : Paired p a b) : a.type? = b.type? := by
  cases h <;> rfl

/-- What is identical on one side is identical on the other. -/
theorem Paired.identical_eq (hids : OneToOne p.ids) (h : Paired p a b) (h' : Paired p c d) :
    a.identical c = b.identical d := by
  have hnumbers : ∀ {m n k l : Nat}, (m, n) ∈ p.ids → (k, l) ∈ p.ids → (m == k) = (n == l) := by
    intro m n k l hmn hkl
    have := hids _ hmn _ hkl
    by_cases heq : m = k
    · rw [beq_iff_eq.2 heq, beq_iff_eq.2 (this.1 heq)]
    · rw [beq_eq_false_iff_ne.2 heq, beq_eq_false_iff_ne.2 fun h => heq (this.2 h)]
  cases h <;> cases h' <;> first | rfl | exact hnumbers ‹_› ‹_›

/-! ### Writing values -/

/-- **Values that nothing tells apart** that is done with a value in order to write it. -/
structure Indistinct (a b : Value) : Prop where
  inspect_eq : a.inspect = b.inspect
  reach_eq : a.reach = b.reach
  flaw_eq : a.flaw? = b.flaw?

theorem indistinct_lists {as bs : List Value} (h : List.Forall₂ Indistinct as bs) :
    inspectAll as = inspectAll bs ∧ reachAll as = reachAll bs ∧ flawIn? as = flawIn? bs := by
  induction h with
  | nil => exact ⟨rfl, rfl, rfl⟩
  | cons h _ ih =>
    obtain ⟨hinspect, hreach, hflaw⟩ := ih
    refine ⟨?_, ?_, ?_⟩
    · rw [inspectAll, inspectAll, h.inspect_eq, hinspect]
    · rw [reachAll, reachAll, h.reach_eq, hreach]
    · rw [flawIn?, flawIn?, h.flaw_eq, hflaw]

/-- **Paired values are written alike.** -/
theorem Paired.indistinct (h : Paired p a b) : Indistinct a b := by
  induction h with
  | array _ hlen _ ih =>
    obtain ⟨hinspect, hreach, hflaw⟩ :=
      indistinct_lists (List.forall₂_iff_zip.2 ⟨hlen, fun h => ih _ h⟩)
    refine ⟨?_, ?_, ?_⟩
    · rw [inspect, inspect, hinspect]
    · rw [reach, reach, hreach]
    · rw [flaw?, flaw?, hflaw]
  | function _ hname hparameters hbody _ =>
    have htrees := hbody.indistinct
    refine ⟨?_, ?_, ?_⟩
    · rw [inspect, inspect, hname, Ident.declarations_eq_of_sameAll hparameters, htrees.render_eq]
    · rw [reach, reach, htrees.reach_eq]
    · rw [flaw?, flaw?, Node.flaw?, Node.flaw?, htrees.misplaced_eq]
  | returned _ _ ih =>
    refine ⟨?_, ?_, ?_⟩
    · rw [inspect, inspect, ih.inspect_eq]
    · rw [reach, reach, ih.reach_eq]
    · rw [flaw?, flaw?, ih.flaw_eq]
  | _ => exact ⟨rfl, rfl, rfl⟩

/-- What is shown of a value: its type, and the form in which it is written. -/
def shown (value : Value) : Option String × String :=
  (value.type?, value.inspect)

theorem AllPaired.writtenAll_eq {as bs : List Value} (h : AllPaired p as bs) (room : Room) :
    writtenAll as room = writtenAll bs room := by
  obtain ⟨hinspect, hreach, hflaw⟩ := indistinct_lists (h.imp fun _ _ h => Paired.indistinct h)
  rw [writtenAll, writtenAll, hinspect, hreach, hflaw]

end Value

/-! ## Frames -/

theorem rel_mono {α β : Type} {R S : α → β → Prop} (h : ∀ a b, R a b → S a b) {x : Option α}
    {y : Option β} (hr : Option.Rel R x y) : Option.Rel S x y := by
  cases hr with
  | none => exact .none
  | some hab => exact .some (h _ _ hab)

namespace Frame

/-- **Paired frames**: each binds a name once, and both bind the same names, to paired values. -/
structure Paired (p : Pairing) (f g : Frame) : Prop where
  nodup_left : (f.map Prod.fst).Nodup
  nodup_right : (g.map Prod.fst).Nodup
  find : ∀ name, Option.Rel (Value.Paired p) (f.find? name) (g.find? name)

theorem Paired.nil (p : Pairing) : Paired p [] [] :=
  ⟨List.nodup_nil, List.nodup_nil, fun _ => .none⟩

theorem Paired.mono (hq : p.Within q) {f g : Frame} (h : Paired p f g) : Paired q f g :=
  ⟨h.nodup_left, h.nodup_right, fun name => rel_mono (fun _ _ => Value.Paired.mono hq) (h.find name)⟩

theorem names_bind (f : Frame) (name : String) (value : Value) :
    (f.bind name value).map Prod.fst =
      if name ∈ f.map Prod.fst then f.map Prod.fst else f.map Prod.fst ++ [name] := by
  fun_induction Frame.bind f name value with
  | case1 => rfl
  | case2 old rest => simp
  | case3 other old rest hne ih =>
    rw [List.map_cons, ih, List.map_cons]
    by_cases hmem : name ∈ rest.map Prod.fst
    · rw [if_pos hmem, if_pos (List.mem_cons_of_mem _ hmem)]
    · rw [if_neg hmem, if_neg, List.cons_append]
      simpa [Ne.symm hne] using hmem

theorem nodup_bind {f : Frame} (h : (f.map Prod.fst).Nodup) (name : String) (value : Value) :
    ((f.bind name value).map Prod.fst).Nodup := by
  rw [names_bind]
  split
  · exact h
  · next hmem =>
    refine List.nodup_append.2 ⟨h, by simp, ?_⟩
    rintro other hother _ hname rfl
    rw [List.mem_singleton.1 hname] at hother
    exact hmem hother

theorem Paired.bind {f g : Frame} (h : Paired p f g) (name : String) {a b : Value}
    (hvalue : a.Paired p b) : Paired p (f.bind name a) (g.bind name b) := by
  refine ⟨nodup_bind h.nodup_left name a, nodup_bind h.nodup_right name b, fun other => ?_⟩
  rw [find?_bind, find?_bind]
  by_cases heq : other = name
  · rw [if_pos heq, if_pos heq]
    exact .some hvalue
  · rw [if_neg heq, if_neg heq]
    exact h.find other

/-! ### Listing the bindings -/

/-- What is shown of a binding: the name, and what is shown of the value. -/
def shown (binding : String × Value) : String × Option String × String :=
  (binding.1, binding.2.shown)

end Frame

/-! ## Worlds -/

namespace World

/-- **Paired worlds**: the numbers of a pairing are in use in them, and paired frames are paired. -/
structure Paired (p : Pairing) (w w' : World) : Prop where
  ids_oneToOne : OneToOne p.ids
  frames_oneToOne : OneToOne p.frames
  ids_lt : ∀ pair ∈ p.ids, pair.1 < w.nextId ∧ pair.2 < w'.nextId
  frames_lt : ∀ pair ∈ p.frames, pair.1 < w.frames.size ∧ pair.2 < w'.frames.size
  frame : ∀ pair ∈ p.frames, Frame.Paired p (w.frame pair.1) (w'.frame pair.2)

variable {w w' : World} {s s' : Scope}

/-- The pairing of two new worlds. -/
theorem paired_initial : Paired ⟨[], [(0, 0)]⟩ initial initial := by
  refine ⟨by simp [OneToOne], by simp [OneToOne], by simp, by simp [initial], ?_⟩
  intro pair hpair
  rw [List.mem_singleton.1 hpair]
  exact .nil _

namespace Paired

variable (h : Paired p w w')
include h

/-- A name stands for paired values. -/
theorem lookup (hs : Scope.Paired p s s') (name : String) :
    Option.Rel (Value.Paired p) (w.lookup? s name) (w'.lookup? s' name) := by
  induction hs with
  | nil => exact .none
  | @cons m n outer outer' hpair _ ih =>
    have hfind := (h.frame _ hpair).find name
    rw [lookup?, lookup?]
    generalize Frame.find? (w.frame m) name = x at *
    generalize Frame.find? (w'.frame n) name = y at *
    cases hfind with
    | none => exact ih
    | some hvalue => exact .some hvalue

theorem bind (hs : Scope.Paired p s s') (name : String) {a b : Value} (hvalue : a.Paired p b) :
    Paired p (w.bind s name a) (w'.bind s' name b) := by
  cases hs with
  | nil => exact h
  | @cons m n outer outer' hpair _ =>
    refine ⟨h.ids_oneToOne, h.frames_oneToOne, h.ids_lt, ?_, ?_⟩
    · intro pair hmem
      rw [size_frames_bind, size_frames_bind]
      exact h.frames_lt pair hmem
    · intro pair hmem
      have hlt := h.frames_lt _ hpair
      have hone := h.frames_oneToOne pair hmem _ hpair
      by_cases heq : pair.1 = m
      · rw [heq, hone.1 heq, frame_bind_self w hlt.1, frame_bind_self w' hlt.2]
        exact (h.frame _ hpair).bind name hvalue
      · rw [frame_bind_of_ne w (Ne.symm heq), frame_bind_of_ne w' fun h => heq (hone.2 h.symm)]
        exact h.frame pair hmem

/-- What is written makes no difference. -/
theorem write (text text' : String) : Paired p (w.write text) (w'.write text') :=
  ⟨h.ids_oneToOne, h.frames_oneToOne, h.ids_lt, h.frames_lt, h.frame⟩

/-- Two new numbers belong together. -/
theorem fresh :
    Paired (p.withIds w.nextId w'.nextId) { w with nextId := w.nextId + 1 }
      { w' with nextId := w'.nextId + 1 } := by
  refine ⟨h.ids_oneToOne.cons h.ids_lt, h.frames_oneToOne, ?_, h.frames_lt, fun pair hmem => ?_⟩
  · intro pair hmem
    rcases List.mem_cons.1 hmem with rfl | hmem
    · exact ⟨Nat.lt_succ_self _, Nat.lt_succ_self _⟩
    · have := h.ids_lt pair hmem
      exact ⟨Nat.lt_succ_of_lt this.1, Nat.lt_succ_of_lt this.2⟩
  · exact (h.frame pair hmem).mono (p.within_withIds _ _)

/-- Two new frames belong together. -/
theorem enclosed (s s' : Scope) :
    Paired (p.withFrames w.frames.size w'.frames.size) (w.enclosed s).1 (w'.enclosed s').1 := by
  have hsize : ∀ (w : World) (s : Scope), (w.enclosed s).1.frames.size = w.frames.size + 1 :=
    fun w s => Array.size_push _
  refine ⟨h.ids_oneToOne, h.frames_oneToOne.cons h.frames_lt, h.ids_lt, ?_, ?_⟩
  · intro pair hmem
    rw [hsize, hsize]
    rcases List.mem_cons.1 hmem with rfl | hmem
    · exact ⟨Nat.lt_succ_self _, Nat.lt_succ_self _⟩
    · have := h.frames_lt pair hmem
      exact ⟨Nat.lt_succ_of_lt this.1, Nat.lt_succ_of_lt this.2⟩
  · intro pair hmem
    rcases List.mem_cons.1 hmem with rfl | hmem
    · rw [frame_enclosed, frame_enclosed]
      exact .nil _
    · have hlt := h.frames_lt pair hmem
      rw [frame_enclosed_of_lt w s hlt.1, frame_enclosed_of_lt w' s' hlt.2]
      exact (h.frame pair hmem).mono (p.within_withFrames _ _)

/-- Parameters are bound to paired arguments. -/
theorem bindParameters (hs : Scope.Paired p s s') {is js : List Ident}
    (hparameters : List.Forall₂ (fun i j => i.same j) is js) {as bs : List Value}
    (harguments : Value.AllPaired p as bs) :
    Paired p (Eval.bindParameters s is as w) (Eval.bindParameters s' js bs w') := by
  induction hparameters generalizing w w' as bs with
  | nil => exact h
  | cons hi _ ih =>
    cases harguments with
    | nil => exact h
    | cons hvalue harguments =>
      rw [Eval.bindParameters, Eval.bindParameters, Ident.name_eq_of_same hi]
      exact ih (h.bind hs _ hvalue) harguments

end Paired

end World

end LimLang
