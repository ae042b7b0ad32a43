import LimLang.Fault
import LimLang.Tree.Display
import LimLang.Tree.Reach
import LimLang.Tree.Same
import LimLang.Value

/-! # Writing trees and values

Trees and values are written, displayed and compared in limited *room*: what reaches farther than there
is room for is too deep.  Trees that are put together by hand, and values made from them, may also lack
a part that is needed.
-/
namespace LimLang

/-- **How far something may reach**, if that is limited at all. -/
abbrev Room := Option Nat

namespace Room

/-- Whether there is room for something that reaches so far. -/
def holds (room : Room) (reach : Nat) : Bool :=
  match room with
  | some limit => decide (reach ≤ limit)
  | none => true

@[simp] theorem holds_none (reach : Nat) : Room.holds none reach = true := rfl

/-- A result that takes some room, unless a fault is in its way. -/
def guard {α : Type} (room : Room) (reach : Nat) (fault? : Option Fault) (result : α) :
    Except Crash α :=
  if room.holds reach then
    match fault? with
    | some fault => .error (.fault fault)
    | none => .ok result
  else .error .tooDeep

/-- With room for everything, what has no fault is the result. -/
@[simp] theorem guard_none {α : Type} (reach : Nat) (result : α) :
    Room.guard none reach none result = .ok result := rfl

end Room

namespace Node

/-- Why a tree cannot be rendered. -/
def flaw? (node : Node) : Option Fault :=
  node.misplaced?.map fun label => .noSuchPart label "condition"

/-- The source text of a tree. -/
def written (node : Node) (room : Room) : Except Crash String :=
  room.guard (node.reach .rendering) node.flaw? node.render

/-- Why a tree cannot be displayed. -/
def displayFlaw? (node : Node) : Option Fault :=
  (if node.isForeign then some node.label else node.foreignItem?).map
    fun label => .noSuchPart label "display"

/-- The display of a tree at a depth. -/
def displayed (node : Node) (depth : Int) (room : Room) : Except Crash String :=
  room.guard (node.reach .displaying) node.displayFlaw? (node.display depth)

/-- Whether two trees are the same. -/
def compared (a b : Node) (room : Room) : Except Crash Bool :=
  room.guard (min (a.reach .comparing) (b.reach .comparing)) none (a.same b)

/-- The nodes of a tree. -/
def walked (node : Node) (room : Room) : Except Crash (List (String × Token)) :=
  room.guard (node.reach .walking) none node.walk

end Node

namespace Value

mutual

/-- Why a value cannot be written: a part of it is missing, or a function's body cannot be rendered. -/
def flaw? : Value → Option Fault
  | array _ elements => flawIn? elements
  | function _ closure => closure.body.flaw?
  | returned _ value => value.flaw?
  | absent => some (.noValue "inspect")
  | _ => none

/-- Why the first of several values that cannot be written cannot. -/
def flawIn? : List Value → Option Fault
  | [] => none
  | value :: values => value.flaw? <|> flawIn? values

end

mutual

/-- How far a value reaches when it is written. -/
def reach : Value → Nat
  | array _ elements => 3 + reachAll elements
  | function _ closure => 3 + closure.body.reach .rendering
  | returned _ value => 1 + value.reach
  | _ => 1

/-- How far the farthest of several values reaches. -/
def reachAll : List Value → Nat
  | [] => 0
  | value :: values => max value.reach (reachAll values)

end

/-- The form of a value as it is written. -/
def written (value : Value) (room : Room) : Except Crash String :=
  room.guard value.reach value.flaw? value.inspect

/-- The forms of several values as they are written. -/
def writtenAll (values : List Value) (room : Room) : Except Crash (List String) :=
  room.guard (reachAll values) (flawIn? values) (inspectAll values)

end Value

end LimLang
