import Mathlib.Tactic.Common

/-! The file checker of the incremental build, `WithMetadataChecker` (`wlutil.py`). It extends the `MD5Checker` of
    doit, whose state of a file is its modification time, size and MD5, by the file's mode and owner.

    A saved state is a Python tuple until doit writes it to its database; from then on it is read back as a list,
    and no list equals a tuple. -/

namespace FireMarshal.Build.Checker

/-- A value in a saved state. -/
inductive Value where
  | time (t : Nat)
  | int (n : Nat)
  | str (s : String)
deriving DecidableEq, Repr

/-- A Python sequence. -/
inductive Seq where
  | tuple (items : List Value)
  | list (items : List Value)
deriving DecidableEq, Repr

inductive PyError where
  | valueError
  | typeError
deriving DecidableEq, Repr

namespace Seq

def items : Seq → List Value
  | tuple vs => vs
  | list vs => vs

def toTuple (s : Seq) : Seq := tuple s.items

def take (n : Nat) : Seq → Seq
  | tuple vs => tuple (vs.take n)
  | list vs => list (vs.take n)

def drop (n : Nat) : Seq → Seq
  | tuple vs => tuple (vs.drop n)
  | list vs => list (vs.drop n)

def add : Seq → Seq → Except PyError Seq
  | tuple a, tuple b => .ok (tuple (a ++ b))
  | list a, list b => .ok (list (a ++ b))
  | _, _ => .error .typeError

/-- What comes back from the database. -/
def reload (s : Seq) : Seq := list s.items

end Seq

/-- What `os.stat` and a read of the file tell. -/
structure File where
  mtime : Nat
  content : List UInt8
  mode : Nat
  uid : Nat
  gid : Nat
deriving DecidableEq, Repr

def File.size (f : File) : Nat := f.content.length

section

variable (md5 : List UInt8 → String)

/-! ### `MD5Checker` -/

def md5State (f : File) : Seq := .tuple [.time f.mtime, .int f.size, .str (md5 f.content)]

def md5CheckModified (f : File) (state : Seq) : Except PyError Bool :=
  match state.items with
  | [timestamp, size, fileMd5] =>
    if .time f.mtime = timestamp then .ok false
    else if .int f.size ≠ size then .ok true
    else .ok (decide (fileMd5 ≠ .str (md5 f.content)))
  | _ => .error .valueError

/-- `MD5Checker.get_state`; `none` when the modification time is the saved one. -/
def md5GetState (f : File) (currentState : Option Seq) : Option Seq :=
  if (currentState.bind (·.items.head?)) = some (.time f.mtime) then none else some (md5State md5 f)

/-! ### `WithMetadataChecker` -/

def extractStat (f : File) : Seq := .tuple [.int f.mode, .int f.uid, .int f.gid]

def checkModified (f : File) (state : Seq) : Except PyError Bool :=
  let state := state.toTuple
  if extractStat f ≠ state.drop 3 then .ok true else md5CheckModified md5 f (state.take 3)

def getState (f : File) (currentState : Option Seq) : Except PyError (Option Seq) :=
  let stat := extractStat f
  let currentState := currentState.map Seq.toTuple
  let md5State := md5GetState md5 f (currentState.map (·.take 3))
  let metaState := if currentState.map (·.drop 3) = some stat then none else some stat
  match md5State, metaState with
  | none, none => .ok none
  | none, some _ =>
    match currentState with
    | none => .error .typeError
    | some currentState => some <$> (currentState.take 3).add stat
  | some md5State, _ => some <$> md5State.add stat

/-! ### Histories -/

structure Watch where
  file : File
  saved : Option Seq := none
  /-- A call of `get_state` raised an exception. -/
  raised : Bool := false
  /-- What `MD5Checker` saves in the same history. -/
  plain : Option Seq := none
  last : Option File := none

inductive Event where
  | change (f : File)
  /-- A call of `get_state`; doit keeps the saved state if it returns `None`. -/
  | save
  /-- doit starts again and reads its database. -/
  | reload
deriving DecidableEq, Repr

def Watch.step (s : Watch) : Event → Watch
  | .change f => { s with file := f }
  | .save =>
    match getState md5 s.file s.saved with
    | .error _ => { s with raised := true }
    | .ok new =>
      { s with
        saved := new <|> s.saved
        plain := md5GetState md5 s.file s.plain <|> s.plain
        last := some s.file }
  | .reload => { s with saved := s.saved.map Seq.reload, plain := s.plain.map Seq.reload }

end

end FireMarshal.Build.Checker
