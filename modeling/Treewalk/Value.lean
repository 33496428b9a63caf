import Std.Data.ExtTreeMap
import Treewalk.Decimal.Layout
import Treewalk.Syntax
import Treewalk.Text.Quoted

/-!
# Values

**Numbers, strings, truth values and `nil` are compared by what they are; functions, classes and
instances by which they are.**  Each function value and each class is given an identity when it
comes to be, and each instance a place in the store.  A function holds the frame it was declared
in; a class holds its ancestors, which never change; an instance knows its class, while its
fields are kept in the store.
-/

namespace Treewalk

/-! ### Functions and classes -/

/-- The place of a frame of variables in the store. -/
structure FrameId where
  index : Nat
deriving DecidableEq, Repr

/-- A function with the frame around its declaration. -/
structure Closure where
  declaration : FunctionDecl
  frame : FrameId
  isInitializer : Bool

/-- The number of parameters. -/
def Closure.arity (f : Closure) : Nat :=
  f.declaration.params.length

/-- The name of the function. -/
def Closure.name (f : Closure) : String :=
  f.declaration.name.text

/-- One class by itself: its identity, its name, and the methods that it declares. -/
structure ClassLayer where
  identity : Nat
  name : String
  methods : Std.ExtTreeMap String Closure

/-- A class: its own layer, and those of its superclass, the superclass of that, and so on. -/
structure ClassValue where
  own : ClassLayer
  ancestors : List ClassLayer

namespace ClassValue

/-- The layers of a class, its own first. -/
def layers (c : ClassValue) : List ClassLayer :=
  c.own :: c.ancestors

/-- The method of this name in the first layer that declares one (`find_method`). -/
def findMethod? (c : ClassValue) (name : String) : Option Closure :=
  c.layers.findSome? fun layer => layer.methods[name]?

/-- The method that initializes instances, if there is one. -/
def initializer? (c : ClassValue) : Option Closure :=
  c.findMethod? initializerName

/-- The number of arguments that a call of the class takes (`Class::arity`). -/
def arity (c : ClassValue) : Nat :=
  (c.initializer?.map Closure.arity).getD 0

end ClassValue

/-- An instance: its place in the store, and its class. -/
structure Instance where
  index : Nat
  ofClass : ClassValue

/-- The functions that are there from the start. -/
inductive Native where
  | clock
deriving DecidableEq, Repr

/-- The name under which a native function is found. -/
def Native.name : Native → String
  | .clock => "clock"

/-- The number of arguments of a native function. -/
def Native.arity : Native → Nat
  | .clock => 0

/-! ### Values -/

/-- A value of a running program. -/
inductive Value where
  | native (function : Native)
  | function (identity : Nat) (closure : Closure)
  | class (value : ClassValue)
  | instance (value : Instance)
  | number (value : Float)
  | string (value : String)
  | bool (value : Bool)
  | nil

namespace Value

instance : Inhabited Value := ⟨.nil⟩

/-- Only `nil` and `false` count as false (`is_truthy`). -/
def isTruthy : Value → Bool
  | .nil => false
  | .bool value => value
  | _ => true

/-- Are two values equal (`eq`)?  Values of different types never are. -/
def equals : Value → Value → Bool
  | .nil, .nil => true
  | .bool a, .bool b => a == b
  | .number a, .number b => a == b
  | .string a, .string b => a == b
  | .function a _, .function b _ => a == b
  | .class a, .class b => a.own.identity == b.own.identity
  | .instance a, .instance b => a.index == b.index
  | .native a, .native b => decide (a = b)
  | _, _ => false

/-- The text that `print` writes. -/
def text : Value → String
  | .native _ => "<native fn>"
  | .function _ closure => "<fn " ++ closure.name ++ ">"
  | .class value => value.own.name
  | .instance value => value.ofClass.own.name ++ " instance"
  | .number value => Decimal.valueText value
  | .string value => value
  | .bool value => if value then "true" else "false"
  | .nil => "nil"

/-- The number of arguments that a value takes when it is called, if it can be called. -/
def arity? : Value → Option Nat
  | .native f => some f.arity
  | .function _ closure => some closure.arity
  | .class value => some value.arity
  | _ => none

end Value

/-- A value that a constant of the source denotes. -/
def Literal.value : Literal → Value
  | .number value => .number value
  | .string value => .string value
  | .true => .bool Bool.true
  | .false => .bool Bool.false
  | .nil => .nil

end Treewalk
