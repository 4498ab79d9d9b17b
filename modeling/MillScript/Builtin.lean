/-! # The functions a script can call

    Each function has a fixed list of parameters in declared order.  A
    parameter has a name, a kind of value it takes, and is required or
    may be left out. -/

namespace MillScript

/-- What a parameter takes. -/
inductive ParamKind where
  | length
  | number
  | anyNumber
  | string
deriving DecidableEq

namespace ParamKind

def name : ParamKind → String
  | .length => "length"
  | .number => "unitless number"
  | .anyNumber => "number"
  | .string => "string"

end ParamKind

/-- One parameter of a function. -/
structure Param where
  name : String
  kind : ParamKind
  required : Bool
deriving DecidableEq

namespace Param

/-- A parameter that every call has to give. -/
def need (name : String) (kind : ParamKind) : Param := ⟨name, kind, true⟩

/-- A parameter that a call may leave out. -/
def may (name : String) (kind : ParamKind) : Param := ⟨name, kind, false⟩

end Param

/-- The functions of the script language. -/
inductive Builtin where
  | cutterDiameter
  | material
  | defineMaterial
  | rpm
  | scale
  | comment
  | dwell
  | drill
  | circlePocket
  | groove
  | groovePocket
  | linspace
deriving DecidableEq

namespace Builtin

/-- All functions, in the order in which they are listed to people. -/
def all : List Builtin :=
  [.cutterDiameter, .material, .defineMaterial, .rpm, .scale, .comment, .dwell, .drill,
    .circlePocket, .groove, .groovePocket, .linspace]

/-- The name by which a script calls the function. -/
def name : Builtin → String
  | .cutterDiameter => "cutter_diameter"
  | .material => "material"
  | .defineMaterial => "define_material"
  | .rpm => "rpm"
  | .scale => "scale"
  | .comment => "comment"
  | .dwell => "dwell"
  | .drill => "drill"
  | .circlePocket => "circle_pocket"
  | .groove => "groove"
  | .groovePocket => "groove_pocket"
  | .linspace => "linspace"

open Param ParamKind in
/-- The parameters of a function in declared order. -/
def params : Builtin → List Param
  | .cutterDiameter => [need "diameter" length]
  | .material => [need "name" string]
  | .defineMaterial =>
    [need "name" string, need "stepover" number, need "stepdown" length,
      need "feed_rate" number, need "plunge_rate" number, need "rpm" number]
  | .rpm => [need "rpm" number]
  | .scale => [need "x" number, need "y" number]
  | .comment => [need "text" string]
  | .dwell => [need "seconds" number]
  | .drill => [need "x" length, need "y" length, need "depth" length, may "peck" length]
  | .circlePocket =>
    [need "x" length, need "y" length, may "radius" length, need "depth" length,
      may "diameter" length]
  | .groove =>
    [need "x1" length, need "y1" length, may "x2" length, may "y2" length,
      need "depth" length, may "cx" length, may "cy" length, may "up" length]
  | .groovePocket =>
    [need "x" length, need "y" length, need "width" length, need "height" length,
      need "depth" length]
  | .linspace => [need "start" anyNumber, need "stop" anyNumber, need "count" number]

/-- The function of a name. -/
def ofName? (text : String) : Option Builtin :=
  all.find? fun f => f.name == text

/-- The place of a parameter among those of the function. -/
def slot? (f : Builtin) (param : String) : Option Nat :=
  f.params.findIdx? fun p => p.name == param

@[simp] theorem ofName?_name (f : Builtin) : ofName? f.name = some f := by
  cases f <;> rfl

end Builtin

end MillScript
