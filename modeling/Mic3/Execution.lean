import Mic3.Outputs

/-! Validated execution choices of a catalog release: invocations, the modes map, parameter
preparation, and the JSON documents they are stored as. -/
namespace Mic3

/-- A letter or digit of `[a-z0-9]`. -/
def keyEdge (c : Char) : Bool := ('a' ≤ c && c ≤ 'z') || ('0' ≤ c && c ≤ '9')

/-- `[a-z0-9](?:[a-z0-9-]{0,61}[a-z0-9])?`, the whole text. -/
def isKey (value : String) : Bool :=
  let cs := value.toList
  cs.length ≤ 63 && cs.all (fun c => keyEdge c || c = '-') &&
    cs.head?.any keyEdge && cs.getLast?.any keyEdge

def validateKey (value : String) : Except Raised String :=
  if isKey value then pure value
  else throw (.modelError
    "Model and mode identifiers must be lowercase path-safe names of up to 63 characters.")

structure Invocation where
  arguments : List String
  workingDirectory : String
  outputDirectory : String
  outputRequirements : OutputRequirements
  deriving DecidableEq

namespace Invocation

def argument : Json → Except Raised String
  | .str arg =>
    if arg = "" ∨ arg.toList.any (·.toNat = 0) then
      throw (.modelError "Execution arguments must be a nonempty list of strings.")
    else pure arg
  | _ => throw (.modelError "Execution arguments must be a nonempty list of strings.")

def argumentList : Json → Except Raised (List String)
  | .arr [] => throw (.modelError "Execution arguments must be a nonempty list of strings.")
  | .arr items => items.mapM argument
  | _ => throw (.modelError "Execution arguments must be a nonempty list of strings.")

def isDirectory (path : String) : Bool :=
  !path.toList.any (·.toNat = 0) && PurePosixPath.isAbsolute path &&
    ['.', '.'] ∉ (PurePosixPath.parse path).parts

def directory : Json → Except Raised String
  | .str path =>
    if isDirectory path then pure path
    else throw (.modelError "Execution directories must be absolute container paths.")
  | _ => throw (.modelError "Execution directories must be absolute container paths.")

def fields : List String := ["arguments", "working_directory", "output_directory"]

def malformed : Raised :=
  .modelError "Execution definition requires arguments, working_directory and output_directory."

def fromDict (value : Json) : Except Raised Invocation :=
  match value with
  | .obj members =>
    let keys := members.map (·.1)
    if ¬ fields ⊆ keys ∨ ¬ keys ⊆ "required_outputs" :: fields then throw malformed
    else do
    let arguments ← argumentList ((value.get? "arguments").getD .null)
    let workingDirectory ← directory ((value.get? "working_directory").getD .null)
    let outputDirectory ← directory ((value.get? "output_directory").getD .null)
    let requirements ← OutputRequirements.fromList ((value.get? "required_outputs").getD (.arr []))
    return ⟨arguments, workingDirectory, outputDirectory, requirements⟩
  | _ => throw malformed

/-- The fingerprint's part of an invocation; output checks are not inputs. -/
def computationFields (i : Invocation) : List (String × Json) :=
  [("arguments", .arr (i.arguments.map .str)), ("working_directory", .str i.workingDirectory),
    ("output_directory", .str i.outputDirectory)]

def computationDict (i : Invocation) : Json := .obj i.computationFields

def toDict (i : Invocation) : Json :=
  if i.outputRequirements.requiredFiles = [] then i.computationDict
  else .obj (i.computationFields ++
    [("required_outputs", .arr (i.outputRequirements.requiredFiles.map .str))])

end Invocation

/-- The modes dict, in insertion order. -/
structure ExecutionDefinition where
  modes : List (String × Invocation)

namespace ExecutionDefinition

/-- `modes.get(mode)`. -/
def mode? (d : ExecutionDefinition) (mode : String) : Option Invocation := d.modes.lookup mode

def modeItem (kv : String × Json) : Except Raised (String × Invocation) := do
  let key ← validateKey kv.1
  let invocation ← Invocation.fromDict kv.2
  return (key, invocation)

def fromDict (value : Json) : Except Raised ExecutionDefinition :=
  match value with
  | .obj members =>
    if members.map (·.1) ≠ ["modes"] then
      throw (.modelError "Execution definition requires a modes object.")
    else match value.get? "modes" with
      | some (.obj []) => throw (.modelError "At least one catalog mode is required.")
      | some (.obj modes) => do return ⟨← modes.mapM modeItem⟩
      | _ => throw (.modelError "At least one catalog mode is required.")
  | _ => throw (.modelError "Execution definition requires a modes object.")

def toDict (d : ExecutionDefinition) : Json :=
  .obj [("modes", .obj (d.modes.map fun (key, invocation) => (key, invocation.toDict)))]

/-- The only effective parameters there are today. -/
def modeParameters (mode : String) : Json := .obj [("mode", .str mode)]

def unsupportedMode (d : ExecutionDefinition) : Raised :=
  .modelError ("Unsupported mode; supported modes: " ++
    String.intercalate ", " (sorted (d.modes.map (·.1))) ++ ".")

/-- The mode that `prepare` selects. -/
def prepareMode (d : ExecutionDefinition) (parameters : Json) : Except Raised String :=
  match parameters with
  | .obj members =>
    if members.map (·.1) ≠ ["mode"] then
      throw (.modelError "Exactly the mode parameter is required.")
    else match parameters.get? "mode" with
      | some (.str mode) =>
        if (d.mode? mode).isSome then pure mode
        else throw d.unsupportedMode
      | _ => throw d.unsupportedMode
  | _ => throw (.modelError "Exactly the mode parameter is required.")

def prepare (d : ExecutionDefinition) (parameters : Json) : Except Raised Json := do
  return modeParameters (← d.prepareMode parameters)

def resolve (d : ExecutionDefinition) (parameters : Json) : Except Raised Invocation := do
  match d.mode? (← d.prepareMode parameters) with
  | some invocation => return invocation
  | none => throw .keyError

theorem prepareMode_noFailure (d : ExecutionDefinition) (parameters : Json) :
    NoFailure (d.prepareMode parameters) := by
  unfold prepareMode
  split
  · split
    · exact .throw (fun _ _ he => by cases he)
    · split
      · split
        · exact .pure _
        · exact .throw (fun _ _ he => by cases he)
      · exact .throw (fun _ _ he => by cases he)
  · exact .throw (fun _ _ he => by cases he)

theorem resolve_noFailure (d : ExecutionDefinition) (parameters : Json) :
    NoFailure (d.resolve parameters) := by
  refine .bind (prepareMode_noFailure d parameters) fun mode => ?_
  split
  · exact .pure _
  · exact .throw (fun _ _ he => by cases he)

end ExecutionDefinition
end Mic3
