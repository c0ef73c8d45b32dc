import Mic3.Errors
import Mic3.Json

/-! Required output files: what `OutputRequirements.from_list` accepts, over `PurePosixPath` and
`PureWindowsPath` as the standard library parses them. -/
namespace Mic3

instance lawfulBEqChars : LawfulBEq (List Char) := List.instLawfulBEq

/-- `PurePosixPath`: the root, and the segments that are neither empty nor `.`. -/
structure PurePosixPath where
  root : List Char
  tail : List (List Char)

namespace PurePosixPath

def splitroot : List Char → List Char × List Char
  | '/' :: '/' :: '/' :: rest => (['/'], '/' :: '/' :: rest)
  | '/' :: '/' :: rest => (['/', '/'], rest)
  | '/' :: rest => (['/'], rest)
  | path => ([], path)

def parse (path : String) : PurePosixPath :=
  let (root, rel) := splitroot path.toList
  ⟨root, (rel.splitOn '/').filter fun x => x ≠ [] ∧ x ≠ ['.']⟩

def isAbsolute (path : String) : Bool := path.toList.head? = some '/'

def parts (p : PurePosixPath) : List (List Char) :=
  if p.root = [] then p.tail else p.root :: p.tail

/-- `str(path)`. -/
def str (p : PurePosixPath) : List Char :=
  let text := p.root ++ ['/'].intercalate p.tail
  if text = [] then ['.'] else text

end PurePosixPath

/-- Whether `PureWindowsPath(path).drive` is nonempty: a UNC or device prefix, or a drive letter. -/
def windowsDrive (path : String) : Bool :=
  let sep := fun c => c = '/' ∨ c = '\\'
  match path.toList with
  | a :: b :: _ => if sep a then sep b else b = ':'
  | _ => false

def sorted (texts : List String) : List String := texts.insertionSort (· ≤ ·)

structure OutputRequirements where
  requiredFiles : List String
  deriving DecidableEq

namespace OutputRequirements

/-- The condition under which `from_list` refuses one nonempty path. -/
def refused (path : String) : Bool :=
  let parsed := PurePosixPath.parse path
  PurePosixPath.isAbsolute path || windowsDrive path || path = "." || ['.', '.'] ∈ parsed.parts ||
    parsed.str ≠ path.toList || path.toList.any (· ∈ ['\\', '*', '?', '[', ']']) ||
    path.toList.any (·.toNat < 32)

def checkPath : Json → Except Raised String
  | .str path =>
    if path = "" then throw (.modelError "Required output paths must be nonempty strings.")
    else if refused path then throw (.modelError
      "Required outputs must be normalized relative file paths without wildcards.")
    else pure path
  | _ => throw (.modelError "Required output paths must be nonempty strings.")

def fromList : Json → Except Raised OutputRequirements
  | .arr items => do
    let paths ← items.mapM checkPath
    if ¬ paths.Nodup then throw (.modelError "Required output paths must be unique.")
    return ⟨sorted paths⟩
  | _ => throw (.modelError "required_outputs must be a list of relative file paths.")

end OutputRequirements
end Mic3
