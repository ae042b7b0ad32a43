import LimLang.Value

/-! # The world of an evaluation

Evaluation happens in a *world*: the frames of variables made so far, the number for the next array,
function or returned value, and the text written so far.  Frames are never removed, so the number of a
frame stays good.  A scope is a list of such numbers: a name is looked up in the innermost frame that
binds it, and bound in the innermost frame alone.  A new frame encloses no other by being stored
somewhere; it is put in front of the scope that encloses it.
-/
namespace LimLang

/-- **A frame**: names with their values, the earliest bound first. -/
abbrev Frame := List (String × Value)

namespace Frame

/-- The value of a name. -/
def find? (frame : Frame) (name : String) : Option Value :=
  frame.lookup name

/-- Binds a name, in the place of an earlier binding if there is one. -/
def bind (frame : Frame) (name : String) (value : Value) : Frame :=
  match frame with
  | [] => [(name, value)]
  | (other, old) :: rest =>
      if other = name then (name, value) :: rest else (other, old) :: bind rest name value

/-- The bindings in the order of their names. -/
def sorted (frame : Frame) : Frame :=
  frame.mergeSort fun a b => decide (a.1 ≤ b.1)

@[simp] theorem find?_nil (name : String) : Frame.find? [] name = none := rfl

theorem find?_bind (frame : Frame) (name other : String) (value : Value) :
    (frame.bind name value).find? other =
      if other = name then some value else frame.find? other := by
  fun_induction Frame.bind frame name value with
  | case1 => simp only [find?, List.lookup_cons, List.lookup_nil]; grind
  | case2 => simp only [find?, List.lookup_cons]; grind
  | case3 => simp_all only [find?, List.lookup_cons]; grind

end Frame

/-- **What evaluation works on.** -/
structure World where
  /-- All frames, by number. -/
  frames : Array Frame
  /-- The number of the next array, function or returned value. -/
  nextId : Nat
  /-- What has been written. -/
  output : String

namespace World

/-- A world with one empty frame, in which nothing has been written. -/
def initial : World where
  frames := #[[]]
  nextId := 0
  output := ""

/-- The scope of the one frame of a new world. -/
def globalScope : Scope := [0]

/-- The frame of a number. -/
def frame (w : World) (id : FrameId) : Frame :=
  w.frames.getD id []

/-- **Looks a name up** in a scope, from the innermost frame outwards. -/
def lookup? (w : World) : Scope → String → Option Value
  | [], _ => none
  | id :: outer, name =>
      match (w.frame id).find? name with
      | some value => some value
      | none => w.lookup? outer name

/-- **Binds a name** in the innermost frame of a scope. -/
def bind (w : World) (scope : Scope) (name : String) (value : Value) : World :=
  match scope with
  | [] => w
  | id :: _ => { w with frames := w.frames.modify id fun frame => frame.bind name value }

/-- **A new scope** that encloses nothing yet and is enclosed by `scope`. -/
def enclosed (w : World) (scope : Scope) : World × Scope :=
  let id := w.frames.size
  ({ w with frames := w.frames.push [] }, id :: scope)

/-- Writes a text. -/
def write (w : World) (text : String) : World :=
  { w with output := w.output ++ text }

/-- The bindings of a scope's innermost frame, in the order of their names. -/
def bindings (w : World) : Scope → Frame
  | [] => []
  | id :: _ => (w.frame id).sorted

/-- The names of a scope, frame by frame. -/
def listing (w : World) : Scope → String
  | [] => "None"
  | id :: outer =>
      "Environment([" ++ ", ".intercalate ((w.frame id).sorted.map fun binding => Text.quote binding.1)
        ++ "], outer=" ++ w.listing outer ++ ")"

theorem frame_bind_self (w : World) {id : FrameId} (h : id < w.frames.size) (outer : Scope)
    (name : String) (value : Value) :
    (w.bind (id :: outer) name value).frame id = (w.frame id).bind name value := by
  simp only [bind, frame, Array.getD_eq_getD_getElem?, Array.getElem?_modify]
  simp [h]

theorem frame_bind_of_ne (w : World) {id other : FrameId} (h : id ≠ other) (outer : Scope)
    (name : String) (value : Value) :
    (w.bind (id :: outer) name value).frame other = w.frame other := by
  simp [bind, frame, Array.getD_eq_getD_getElem?, Array.getElem?_modify, h]

/-- Where a frame is not there, there is nothing to bind a name in. -/
theorem frame_bind_of_le (w : World) {id : FrameId} (h : w.frames.size ≤ id) (outer : Scope)
    (name : String) (value : Value) :
    (w.bind (id :: outer) name value).frame id = w.frame id := by
  simp [bind, frame, Array.getD_eq_getD_getElem?, Nat.not_lt.2 h]

/-- **What a name stands for in a frame** after a name has been bound. -/
theorem find?_frame_bind (w : World) (first : FrameId) (outer : Scope) (name other : String)
    (value : Value) (id : FrameId) :
    Frame.find? ((w.bind (first :: outer) name value).frame id) other =
      if first = id ∧ first < w.frames.size ∧ other = name then some value
      else Frame.find? (w.frame id) other := by
  by_cases hid : first = id
  · subst hid
    by_cases hlt : first < w.frames.size
    · rw [frame_bind_self w hlt, Frame.find?_bind]
      simp only [hlt, true_and]
    · rw [frame_bind_of_le w (Nat.not_lt.1 hlt), if_neg fun h => hlt h.2.1]
  · rw [frame_bind_of_ne w hid, if_neg fun h => hid h.1]

/-- Binding a name leaves the other names alone. -/
theorem lookup?_bind_of_ne (w : World) (scope inner : Scope) {name other : String} (h : other ≠ name)
    (value : Value) : (w.bind scope name value).lookup? inner other = w.lookup? inner other := by
  cases scope with
  | nil => rfl
  | cons first rest =>
    induction inner with
    | nil => rfl
    | cons id outer ih => rw [lookup?, lookup?, find?_frame_bind, if_neg fun h' => h h'.2.2, ih]

@[simp] theorem size_frames_bind (w : World) (scope : Scope) (name : String) (value : Value) :
    (w.bind scope name value).frames.size = w.frames.size := by
  unfold bind
  split <;> simp

/-- A new scope's own frame is empty. -/
theorem frame_enclosed (w : World) (scope : Scope) :
    (w.enclosed scope).1.frame w.frames.size = [] := by
  simp [enclosed, frame]

/-- A new scope leaves the frames there are alone. -/
theorem frame_enclosed_of_lt (w : World) (scope : Scope) {id : FrameId} (h : id < w.frames.size) :
    (w.enclosed scope).1.frame id = w.frame id := by
  simp [enclosed, frame, Array.getD_eq_getD_getElem?, Array.getElem?_push, Nat.ne_of_lt h]

/-- A frame that is not there is as empty as a new one. -/
theorem frame_enclosed_eq (w : World) (scope : Scope) (id : FrameId) :
    (w.enclosed scope).1.frame id = w.frame id := by
  by_cases hid : id = w.frames.size
  · rw [hid, frame_enclosed]
    simp [frame]
  · simp [enclosed, frame, Array.getD_eq_getD_getElem?, Array.getElem?_push, hid]

end World

end LimLang
