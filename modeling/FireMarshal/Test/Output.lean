import FireMarshal.Lib.SequenceMatcher
import FireMarshal.Config.Config

/-! The comparison of outputs with reference outputs (`cmpOutput` in `wlutil/test.py`).

Files hold text. A directory lists all paths below it, in the order in which `glob` comes to them; the order is that
of the file system. -/

namespace FireMarshal

/-! ### Files -/

inductive Node where
  | file (text : List Char)
  | dir
deriving DecidableEq, Repr

/-- A directory, with all paths below it. -/
structure Tree where
  entries : Dict (List String) Node
  nodup : entries.keys.Nodup
  parents : ∀ p ∈ entries.keys, p ≠ [] ∧ (p.dropLast = [] ∨ entries.lookup p.dropLast = some .dir)

/-- What text mode reads by default: all line terminators become LF. -/
def universalNewlines : List Char → List Char
  | '\r' :: '\n' :: cs => '\n' :: universalNewlines cs
  | '\r' :: cs => '\n' :: universalNewlines cs
  | c :: cs => c :: universalNewlines cs
  | [] => []

/-- The lines of a text, with their terminators LF. -/
def splitLines : List Char → List (List Char)
  | [] => []
  | c :: cs =>
    if c = '\n' then [c] :: splitLines cs
    else
      match splitLines cs with
      | [] => [[c]]
      | line :: lines => (c :: line) :: lines

def readlines (text : List Char) : List String := (splitLines text).map String.ofList

def removeCR (line : String) : String := String.ofList (line.toList.filter (· ≠ '\r'))

/-! ### Comparisons -/

/-- `difflib.unified_diff`, whose lines are joined: equal sequences of lines have no difference. -/
structure UnifiedDiff where
  run : (a b : List String) → (fromfile tofile : String) → String
  run_eq_empty : ∀ a b fromfile tofile, run a b fromfile tofile = "" ↔ a = b

inductive OSError where
  | isADirectoryError (path : String)
deriving DecidableEq, Repr

/-- The arguments of `cmpOutput`; `stripUart` is that of the builder if `strip` is set. -/
structure Comparison where
  testDir : String
  refDir : String
  stripUart : Option (List String → List String) := none
  unifiedDiff : UnifiedDiff

def cmpUartlog (stripUart : Option (List String → List String)) (rPath tPath : String) (rLines tLines : List String) :
    Option String :=
  let tLines := tLines.map removeCR
  let tLines := match stripUart with
    | some strip => strip tLines
    | none => tLines
  let m := SequenceMatcher.findLongestMatch rLines tLines
  if m.size ≠ rLines.length then
    if m.size = 0 then some (rPath ++ " and " ++ tPath ++ " do not match")
    else
      some (tPath ++ " matches only at " ++ rPath ++ ":" ++ toString m.a ++ "," ++ toString (m.a + m.size) ++ "\n" ++
        String.join ((rLines.drop m.a).take m.size))
  else none

def cmpRegular (diff : UnifiedDiff) (rPath tPath : String) (rLines tLines : List String) : Option String :=
  let diffString := diff.run rLines tLines rPath tPath
  if diffString ≠ "" then some diffString else none

def isUartlog (p : List String) : Bool := p.getLast? = some "uartlog"

namespace Comparison

/-- The body of the loop over the paths of the reference directory. The reference is read with universal newlines,
    the output is not. -/
def cmpPath (c : Comparison) (test : Tree) (p : List String) (node : Node) : Except OSError (Option String) :=
  let rPath := p.foldl joinPath c.refDir
  let tPath := p.foldl joinPath c.testDir
  match test.entries.lookup p, node with
  | none, _ => .ok (some ("Missing file or directory: " ++ tPath))
  | some _, .dir => .ok none
  | some .dir, .file _ => .error (.isADirectoryError tPath)
  | some (.file t), .file r =>
    let rLines := readlines (universalNewlines r)
    let tLines := readlines t
    .ok (if isUartlog p then cmpUartlog c.stripUart rPath tPath rLines tLines
      else cmpRegular c.unifiedDiff rPath tPath rLines tLines)

def cmpPaths (c : Comparison) (test : Tree) : Dict (List String) Node → Except OSError (Option String)
  | [] => .ok none
  | (p, node) :: rest =>
    match c.cmpPath test p node with
    | .ok none => c.cmpPaths test rest
    | result => result

def cmpOutput (c : Comparison) (test : Tree) (ref : Option Tree) : Except OSError (Option String) :=
  match ref with
  | none => .ok (some ("reference directory: " ++ c.refDir ++ " does not exist"))
  | some ref => c.cmpPaths test ref.entries

end Comparison
end FireMarshal
