import Machining.Document.Parts
import Machining.Settings.Config

/-!
# Configurations in documents

A configuration is a record of three sections.  Every section and every part of one may be left
out, and an override or a path may be `null`.
-/

set_option autoImplicit false

namespace Machining

/-- The removal policies a name can stand for. -/
def RemovalPolicy.all : List RemovalPolicy := [allMotion, cuttingOnly]

/-- The mesh kinds a name can stand for. -/
def MeshKind.all : List MeshKind := [topFaces, surface]

/-- A removal policy by its name. -/
def RemovalPolicy.ofNode? (k : Convention) : Node → Option RemovalPolicy :=
  Node.choice? k all name

/-- A mesh kind by its name. -/
def MeshKind.ofNode? (k : Convention) : Node → Option MeshKind :=
  Node.choice? k all name

namespace Config

/-- The parts of the first section. -/
def simulationFields (c : Config Float) : List (String × Node) :=
  [("time_step", .real c.timeStep), ("removal_policy", .text c.removalPolicy.name),
    ("mesh_export", .text c.meshKind.name)]

/-- The parts of the second section. -/
def overrideFields (c : Config Float) : List (String × Node) :=
  [("voxel_size", .ofOption .real c.overrides.cell),
    ("tool_diameter", .ofOption .real c.overrides.toolDiameter),
    ("width", .ofOption .real c.overrides.width),
    ("height", .ofOption .real c.overrides.height),
    ("depth", .ofOption .real c.overrides.depth)]

/-- The parts of the third section. -/
def outputFields (c : Config Float) : List (String × Node) :=
  [("collision_report", .ofOption .text c.reportPath),
    ("stock_mesh", .ofOption .text c.meshPath)]

/-- The sections with their parts. -/
def sections (c : Config Float) : List (String × List (String × Node)) :=
  [("simulation", c.simulationFields), ("overrides", c.overrideFields),
    ("output", c.outputFields)]

/-- A configuration as a record. -/
def toNode (c : Config Float) : Node := .record (c.sections.map fun s => (s.1, .record s.2))

/-- The parts of a section that have a value. -/
def present (fields : List (String × Node)) : List (String × Node) :=
  fields.filter fun
    | (_, .null) => false
    | _ => true

/-- A configuration as tables, without the parts that have no value. -/
def tables (c : Config Float) : List (String × List (String × Node)) :=
  c.sections.map fun s => (s.1, present s.2)

/-- The first section of a value. -/
def simulationOfNode? (k : Convention) (v : Node) :
    Option (Float × RemovalPolicy × MeshKind) := do
  guard (v.isStructure k 3)
  let timeStep ← v.defaulted? 0 ["time_step"] Config.default.timeStep Node.real?
  let policy ← v.defaulted? 1 ["removal_policy"] .allMotion (RemovalPolicy.ofNode? k)
  let kind ← v.defaulted? 2 ["mesh_export"] .topFaces (MeshKind.ofNode? k)
  some (timeStep, policy, kind)

/-- The overrides a value stands for. -/
def overridesOfNode? (k : Convention) (v : Node) : Option (Overrides Float) := do
  guard (v.isStructure k 5)
  let cell ← v.defaulted? 0 ["voxel_size"] none (Node.nullable? Node.real?)
  let toolDiameter ← v.defaulted? 1 ["tool_diameter"] none (Node.nullable? Node.real?)
  let width ← v.defaulted? 2 ["width"] none (Node.nullable? Node.real?)
  let height ← v.defaulted? 3 ["height"] none (Node.nullable? Node.real?)
  let depth ← v.defaulted? 4 ["depth"] none (Node.nullable? Node.real?)
  some { cell, toolDiameter, width, height, depth }

/-- The third section of a value. -/
def outputOfNode? (k : Convention) (v : Node) : Option (Option String × Option String) := do
  guard (v.isStructure k 2)
  let report ← v.defaulted? 0 ["collision_report"] none (Node.nullable? Node.text?)
  let mesh ← v.defaulted? 1 ["stock_mesh"] none (Node.nullable? Node.text?)
  some (report, mesh)

/-- The configuration a value stands for. -/
def ofNode? (k : Convention) (v : Node) : Option (Config Float) := do
  guard (v.isStructure k 3)
  let d : Config Float := .default
  let (timeStep, removalPolicy, meshKind) ←
    v.defaulted? 0 ["simulation"] (d.timeStep, d.removalPolicy, d.meshKind) (simulationOfNode? k)
  let overrides ← v.defaulted? 1 ["overrides"] d.overrides (overridesOfNode? k)
  let (reportPath, meshPath) ←
    v.defaulted? 2 ["output"] (d.reportPath, d.meshPath) (outputOfNode? k)
  some { timeStep, removalPolicy, meshKind, overrides, reportPath, meshPath }

end Config

end Machining
