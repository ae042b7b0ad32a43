import LimLang.Template.Format

/-! # What can be reached from an argument

A field may ask for more than an argument itself.  By number one reaches the characters of a text; by
name one reaches the class of a thing, the name and the ancestors of a class, and the members that a class
defines or hands down.  Everything reached this way is a *facet*, and can be asked in turn.

A member is a definition when it is reached from the class, and bound to its holder when it is reached from
a thing of the class.  Where a holder lies in memory is of no interest: it is shown as zero.
-/
namespace LimLang

/-- **The classes of things.** -/
inductive ThingClass where
  /-- What all things have in common. -/
  | object
  /-- Classes are things, too. -/
  | cls
  | text
  /-- A fixed list of things. -/
  | tuple
  /-- The class of nothing. -/
  | nothing
  /-- A method, as a class defines it. -/
  | method
  /-- An operator, as a class defines it. -/
  | operator
  /-- A method of one thing. -/
  | boundMethod
  /-- An operator of one thing. -/
  | boundOperator
  deriving DecidableEq, Repr

/-- What a member does with the thing it is reached from. -/
inductive MemberKind where
  /-- It works on that thing. -/
  | method
  /-- It works on that thing, and an operator stands for it. -/
  | operator
  /-- It works on the class it is reached through. -/
  | ofClass
  /-- It makes things of the class that defines it. -/
  | maker
  /-- It works on its arguments alone. -/
  | detached
  deriving DecidableEq, Repr

namespace ThingClass

/-- The name of a class. -/
def name : ThingClass → String
  | object => "object"
  | cls => "type"
  | text => "str"
  | tuple => "tuple"
  | nothing => "NoneType"
  | method => "method_descriptor"
  | operator => "wrapper_descriptor"
  | boundMethod => "builtin_function_or_method"
  | boundOperator => "method-wrapper"

/-- A class and its ancestors, the nearest first. -/
def lineage : ThingClass → List ThingClass
  | object => [object]
  | c => [c, object]

/-- What is on record about a class. -/
def doc? : ThingClass → Option String
  | object =>
      some ("The base class of the class hierarchy.\n\n"
        ++ "When called, it accepts no arguments and returns a new featureless\n"
        ++ "instance that has no instance attributes and cannot be given any.\n")
  | cls =>
      some ("type(object) -> the object's type\n"
        ++ "type(name, bases, dict, **kwds) -> a new type")
  | text =>
      some ("str(object='') -> str\n"
        ++ "str(bytes_or_buffer[, encoding[, errors]]) -> str\n\n"
        ++ "Create a new string object from the given object. If encoding or\n"
        ++ "errors is specified, then the object must expose a data buffer\n"
        ++ "that will be decoded using the given encoding and error handler.\n"
        ++ "Otherwise, returns the result of object.__str__() (if defined)\n"
        ++ "or repr(object).\n"
        ++ "encoding defaults to sys.getdefaultencoding().\n"
        ++ "errors defaults to 'strict'.")
  | tuple =>
      some ("Built-in immutable sequence.\n\n"
        ++ "If no argument is given, the constructor returns an empty tuple.\n"
        ++ "If iterable is specified the tuple is initialized from iterable's items.\n\n"
        ++ "If the argument is a tuple, the return value is the same object.")
  | _ => none

/-- What is on record about calling a class. -/
def signature? : ThingClass → Option String
  | object => some "()"
  | tuple => some "(iterable=(), /)"
  | _ => none

/-- The methods that a class defines. -/
def methods : ThingClass → List String
  | object =>
      ["__reduce_ex__", "__reduce__", "__getstate__", "__format__", "__sizeof__", "__dir__"]
  | cls =>
      ["mro", "__subclasses__", "__instancecheck__", "__subclasscheck__", "__dir__", "__sizeof__"]
  | text =>
      ["encode", "replace", "split", "rsplit", "join", "capitalize", "casefold", "title", "center",
        "count", "expandtabs", "find", "partition", "index", "ljust", "lower", "lstrip", "rfind",
        "rindex", "rjust", "rstrip", "rpartition", "splitlines", "strip", "swapcase", "translate",
        "upper", "startswith", "endswith", "removeprefix", "removesuffix", "isascii", "islower",
        "isupper", "istitle", "isspace", "isdecimal", "isdigit", "isnumeric", "isalpha", "isalnum",
        "isidentifier", "isprintable", "zfill", "format", "format_map", "__format__", "__sizeof__",
        "__getnewargs__"]
  | tuple => ["__getnewargs__", "index", "count"]
  | nothing => []
  | method | operator | boundMethod | boundOperator => ["__reduce__"]

/-- The operators that a class defines. -/
def operators : ThingClass → List String
  | object =>
      ["__repr__", "__hash__", "__str__", "__getattribute__", "__setattr__", "__delattr__", "__lt__",
        "__le__", "__eq__", "__ne__", "__gt__", "__ge__", "__init__"]
  | cls =>
      ["__repr__", "__call__", "__getattribute__", "__setattr__", "__delattr__", "__init__", "__or__",
        "__ror__"]
  | text =>
      ["__repr__", "__hash__", "__str__", "__getattribute__", "__lt__", "__le__", "__eq__", "__ne__",
        "__gt__", "__ge__", "__iter__", "__mod__", "__rmod__", "__len__", "__getitem__", "__add__",
        "__mul__", "__rmul__", "__contains__"]
  | tuple =>
      ["__repr__", "__hash__", "__getattribute__", "__lt__", "__le__", "__eq__", "__ne__", "__gt__",
        "__ge__", "__iter__", "__len__", "__getitem__", "__add__", "__mul__", "__rmul__",
        "__contains__"]
  | nothing => ["__repr__", "__bool__"]
  | method | operator => ["__repr__", "__call__", "__getattribute__", "__get__"]
  | boundMethod | boundOperator =>
      ["__repr__", "__hash__", "__call__", "__getattribute__", "__lt__", "__le__", "__eq__", "__ne__",
        "__gt__", "__ge__"]

/-- The other members that a class defines. -/
def otherMembers : ThingClass → List (String × MemberKind)
  | object =>
      [("__new__", .maker), ("__subclasshook__", .ofClass), ("__init_subclass__", .ofClass)]
  | cls => [("__new__", .maker), ("__prepare__", .ofClass)]
  | text => [("__new__", .maker), ("maketrans", .detached)]
  | tuple => [("__new__", .maker), ("__class_getitem__", .ofClass)]
  | nothing => [("__new__", .maker)]
  | _ => []

/-- The member of a name that a class defines itself. -/
def ownMember? (c : ThingClass) (name : String) : Option MemberKind :=
  if name ∈ c.methods then some .method
  else if name ∈ c.operators then some .operator
  else c.otherMembers.lookup name

/-- The member of a name that a class has, with the class that defines it: the nearest one does. -/
def member? (c : ThingClass) (name : String) : Option (ThingClass × MemberKind) :=
  c.lineage.findSome? fun owner => (owner.ownMember? name).map fun kind => (owner, kind)

end ThingClass

/-- **What is reached from an argument.** -/
inductive Facet where
  | text (cs : List Char)
  | nothing
  | cls (c : ThingClass)
  /-- Several classes in a tuple. -/
  | classes (cs : List ThingClass)
  /-- A method or an operator, as the class `owner` defines it. -/
  | definition (owner : ThingClass) (isOperator : Bool) (name : String)
  /-- A member of the class `owner`, bound to its holder. -/
  | bound (holder : Facet) (owner : ThingClass) (kind : MemberKind) (name : String)
  deriving Repr

namespace Facet

/-- The class of a facet. -/
def classOf : Facet → ThingClass
  | text _ => .text
  | nothing => .nothing
  | cls _ => .cls
  | classes _ => .tuple
  | definition _ isOperator _ => if isOperator then .operator else .method
  | bound _ _ .operator _ => .boundOperator
  | bound _ _ _ _ => .boundMethod

/-- A class as it is shown. -/
def shownClass (c : ThingClass) : String :=
  "<class '" ++ c.name ++ "'>"

/-- Several classes as they are shown: a comma follows a single one. -/
def shownClasses : List ThingClass → String
  | [c] => "(" ++ shownClass c ++ ",)"
  | cs => "(" ++ ", ".intercalate (cs.map shownClass) ++ ")"

/-- **A facet as running text.** -/
def shown : Facet → List Char
  | text cs => cs
  | nothing => "None".toList
  | cls c => (shownClass c).toList
  | classes cs => (shownClasses cs).toList
  | definition owner isOperator name =>
      ((if isOperator then "<slot wrapper '" else "<method '") ++ name ++ "' of '" ++ owner.name
        ++ "' objects>").toList
  | bound holder _ .operator name =>
      ("<method-wrapper '" ++ name ++ "' of " ++ holder.classOf.name ++ " object at 0x0>").toList
  | bound holder _ _ name =>
      ("<built-in method " ++ name ++ " of " ++ holder.classOf.name ++ " object at 0x0>").toList

/-- A facet in quotes, if it is a text. -/
def quoted : Facet → List Char
  | text cs => (Text.quote (String.ofList cs)).toList
  | facet => facet.shown

/-- How a fault calls a facet that lacks something. -/
def description : Facet → String
  | cls c => "type object '" ++ c.name ++ "'"
  | facet => "'" ++ facet.classOf.name ++ "' object"

/-- A text, if there is one. -/
def ofText? : Option String → Facet
  | some s => text s.toList
  | none => nothing

/-- A member that was found in the class `owner`, reached from `holder` through the class `through`. -/
def take (holder : Facet) (through owner : ThingClass) (kind : MemberKind) (name : String) : Facet :=
  match kind with
  | .method | .operator => bound holder owner kind name
  | .ofClass => bound (cls through) owner kind name
  | .maker | .detached => bound (cls owner) owner kind name

/-- The member that a facet has through its class. -/
def inherited? (facet : Facet) (name : String) : Option Facet :=
  (facet.classOf.member? name).map fun (owner, kind) => facet.take facet.classOf owner kind name

/-- What a class tells about itself. -/
def ofClass? (c : ThingClass) : String → Option Facet
  | "__name__" | "__qualname__" => some (text c.name.toList)
  | "__module__" => some (text "builtins".toList)
  | "__doc__" => some (ofText? c.doc?)
  | "__text_signature__" => some (ofText? c.signature?)
  | "__mro__" => some (classes c.lineage)
  | "__bases__" => some (classes c.lineage.tail)
  | "__base__" =>
      match c.lineage.tail with
      | base :: _ => some (cls base)
      | [] => some nothing
  | _ => none

/-- The member of a class, as it defines it. -/
def defined? (c : ThingClass) (name : String) : Option Facet :=
  (c.member? name).map fun (owner, kind) =>
    match kind with
    | .method => definition owner false name
    | .operator => definition owner true name
    | kind => take (cls c) c owner kind name

/-- What a member tells about itself, given where its name is qualified. -/
def ofMember? (name place : String) : String → Option Facet
  | "__name__" => some (text name.toList)
  | "__qualname__" => some (text (place ++ "." ++ name).toList)
  | _ => none

/-- The name of the class that a holder is, or else belongs to. -/
def className : Facet → String
  | cls c => c.name
  | facet => facet.classOf.name

/-- What facets of each form tell about themselves. -/
def own? (facet : Facet) (name : String) : Option Facet :=
  match facet with
  | cls c => ofClass? c name <|> defined? c name
  | definition owner _ member =>
      if name = "__objclass__" then some (cls owner) else ofMember? member owner.name name
  | bound holder owner .operator member =>
      if name = "__objclass__" then some (cls owner)
      else if name = "__self__" then some holder
      else ofMember? member owner.name name
  | bound holder _ kind member =>
      if name = "__self__" then some (if kind = .detached then nothing else holder)
      else if name = "__module__" then some nothing
      else ofMember? member holder.className name
  | _ => none

/-- **What a facet has under a name.** -/
def named (facet : Facet) (name : String) : Except TemplateFault Facet :=
  if name = "__class__" then .ok (cls facet.classOf)
  else
    match facet.own? name with
    | some reached => .ok reached
    | none =>
        if name = "__doc__" then .ok (ofText? facet.classOf.doc?)
        else
          match facet.inherited? name with
          | some reached => .ok reached
          | none => .error (.noAttribute facet.description name)

/-- **What a facet has at a place**, which may be no number. -/
def item (facet : Facet) (place : Option Nat) : Except TemplateFault Facet :=
  match facet, place with
  | text cs, some i =>
      match cs[i]? with
      | some c => .ok (text [c])
      | none => .error (.outOfRange "string")
  | text _, none => .error .textIndex
  | classes cs, some i =>
      match cs[i]? with
      | some c => .ok (cls c)
      | none => .error (.outOfRange "tuple")
  | classes _, none => .error .tupleIndex
  | cls c, _ => .error (.notIndexed ("type '" ++ c.name ++ "'"))
  | facet, _ => .error (.notIndexed facet.description)

/-- A facet after a conversion. -/
def convert (facet : Facet) : Option Char → Except TemplateFault Facet
  | none => .ok facet
  | some 's' => .ok (text facet.shown)
  | some 'r' => .ok (text facet.quoted)
  | some 'a' => .ok (text (Text.narrow facet.quoted))
  | some c => .error (.unknownConversion c)

/-- A facet shaped by a format.  Only texts have formats; all else takes the empty one. -/
def format (facet : Facet) (format : List Char) : Except TemplateFault (List Char) :=
  match facet with
  | text cs => Format.apply format cs
  | facet => if format.isEmpty then .ok facet.shown else .error (.noFormat facet.classOf.name)

end Facet

end LimLang
