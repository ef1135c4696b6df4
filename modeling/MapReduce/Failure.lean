/-
# Failures

Every way in which planning, storing or running can fail. A failure is its
cause; the wording is given once, by `Failure.message`. An execution error also
has a number, says whose fault it is, and may carry the text of the error that
caused it: `ExecError.classify` wraps a foreign error and passes an execution
error on unchanged.

Key definitions: `PlanFault`, `ValidationFault`, `SettingsFault`,
`StorageFault`, `ExecError`, `ExecError.classify`, `Failure`,
`Failure.message`.
-/
import MapReduce.Number.Reading
import MapReduce.Operator.Basic
import MapReduce.Value.Tuple

namespace MapReduce

/-- The phases of a job. -/
inductive Phase where
  | map
  | combine
  | reduce
deriving DecidableEq

/-- The name of a phase. -/
def Phase.name : Phase → String
  | .map => "map"
  | .combine => "combine"
  | .reduce => "reduce"

/-- A truth value as text. -/
def boolText (b : Bool) : String := if b then "true" else "false"

/-- Why a plan cannot be built. -/
inductive PlanFault where
  | duplicateOperator (key : Key)
  | unknownEnd (source target missing : Key)
  | cycle (source target : Key)
  | danglingSource (source : Key)
  | danglingEdge (source target : Key)
  | unmirrored (source target : Key)
  | cyclic
  | disconnected (operators roots : Nat)
  | sealedPlan (job : Key) (phase : Phase)
  | reopened (job : Key) (phase : Phase)
  | duplicateJob (key : Key)
  | unknownJob (key : Key)
  | jobCycle (source target : Key)
  | reported (text : String)
deriving DecidableEq

/-- The wording of a plan fault. -/
def PlanFault.message : PlanFault → String
  | .duplicateOperator k => "operator " ++ k.display ++ " already in plan"
  | .unknownEnd a b k =>
    "cannot connect " ++ a.display ++ " -> " ++ b.display ++ ": " ++ k.display ++
      " is not in the plan"
  | .cycle a b => "connecting " ++ a.display ++ " -> " ++ b.display ++ " would create a cycle"
  | .danglingSource a => "dangling edge source " ++ a.display
  | .danglingEdge a b => "dangling edge " ++ a.display ++ " -> " ++ b.display
  | .unmirrored a b =>
    "edge " ++ a.display ++ " -> " ++ b.display ++ " missing from predecessor index"
  | .cyclic => "phase plan contains a cycle"
  | .disconnected n r =>
    "phase plan is not connected: " ++ Nat.repr n ++ " operators, " ++ Nat.repr r ++ " roots"
  | .sealedPlan k p => k.display ++ ": " ++ p.name ++ " plan is sealed"
  | .reopened k p =>
    k.display ++ ": " ++ p.name ++ " phase is already done and cannot be reopened"
  | .duplicateJob k => "duplicate job " ++ k.display
  | .unknownJob k => "unknown job " ++ k.display
  | .jobCycle a b => "edge " ++ a.display ++ " -> " ++ b.display ++ " would create a cycle"
  | .reported text => text

/-- Why a plan that can be built may not be run. -/
inductive ValidationFault where
  | skewFlag (flag fileSet : Bool)
  | sortWithoutQuantiles
  | sortArity (columns arity : Nat)
  | secondaryWithoutKey
  | secondaryArity (columns arity : Nat)
  | noFragment
  | fragmentRange (fragment inputs : Nat)
  | fragmentReplicated (fragment : Nat) (file : FileSpec)
  | zeroParallelism
  | unfinished (job : Key) (mapDone reduceDone : Bool)
  | manyLeaves (job : Key) (phase : Phase) (leaves : Nat)
  | skewZeroParallelism
  | tooManyInputs (inputs : Nat)
  | tooFewInputs (inputs : Nat)
  | tooFewReducers (key : Tuple) (partitions parallelism : Nat)
  | otherParallelism (job : Key) (path : String) (planned requested : Nat)
  | noQuantileFile (job : Key)
  | reported (text : String)
deriving DecidableEq

/-- The wording of a validation fault. -/
def ValidationFault.message : ValidationFault → String
  | .skewFlag flag fileSet =>
    "skewed join flag is " ++ boolText flag ++ " but partition file is " ++
      (if fileSet then "set" else "unset")
  | .sortWithoutQuantiles => "global sort requires a quantile file"
  | .sortArity n arity =>
    "sort order has " ++ Nat.repr n ++ " columns but the key has " ++ Nat.repr arity
  | .secondaryWithoutKey => "secondary sort order set without a secondary key"
  | .secondaryArity n arity =>
    "secondary sort order has " ++ Nat.repr n ++ " columns but the key has " ++ Nat.repr arity
  | .noFragment => "fragment-replicate join without a fragment index"
  | .fragmentRange f n =>
    "fragment " ++ Nat.repr f ++ " out of range for " ++ Nat.repr n ++ " join inputs"
  | .fragmentReplicated f file =>
    "fragment " ++ Nat.repr f ++ " must not be replicated, found " ++ file.display
  | .zeroParallelism => "requested parallelism must be positive"
  | .unfinished k m r =>
    k.display ++ ": both phases must be done before freezing (map=" ++ boolText m ++
      ", reduce=" ++ boolText r ++ ")"
  | .manyLeaves k p n =>
    k.display ++ ": " ++ p.name ++ " plan has " ++ Nat.repr n ++ " leaves, expected at most one"
  | .skewZeroParallelism => "skewed join requires a parallelism of at least 1"
  | .tooManyInputs n =>
    Nat.repr n ++ "-way skewed join is unsupported: skewed join takes exactly two inputs"
  | .tooFewInputs n => "skewed join needs two inputs, got " ++ Nat.repr n
  | .tooFewReducers key n p =>
    "not enough reducers for skewed join: key " ++ key.shown ++ " needs " ++ Nat.repr n ++
      " partitions, parallelism is " ++ Nat.repr p
  | .otherParallelism k path n requested =>
    k.display ++ ": partition file " ++ path ++ " was planned for " ++ Nat.repr n ++
      " reducers, job requests " ++ Nat.repr requested
  | .noQuantileFile k => k.display ++ ": global sort without quantile file"
  | .reported text => text

/-- Why a setting is refused. -/
inductive SettingsFault where
  | unreadable (property given : String) (fault : NumberFault)
  | notPositive (property : String)
  | notFraction (property : String) (given : Float64Bits)
  | zeroHeap
  | reported (text : String)
deriving DecidableEq

/-- The wording of a settings fault. -/
def SettingsFault.message : SettingsFault → String
  | .unreadable property given fault => property ++ "=" ++ quoted given ++ ": " ++ fault.message
  | .notPositive property => property ++ " must be positive"
  | .notFraction property given => property ++ " must be in (0, 1], got " ++ given.render .plain
  | .zeroHeap => "reducer heap must be non-zero"
  | .reported text => text

/-- What a file system refuses. -/
inductive FileFault where
  | missing
  | occupied
  | notDirectory
  | isDirectory
  | nameTooLong
  | zeroInName
deriving DecidableEq

/-- The wording of a file system's refusal. -/
def FileFault.message : FileFault → String
  | .missing => "No such file or directory (os error 2)"
  | .occupied => "File exists (os error 17)"
  | .notDirectory => "Not a directory (os error 20)"
  | .isDirectory => "Is a directory (os error 21)"
  | .nameTooLong => "File name too long (os error 36)"
  | .zeroInName => "file name contained an unexpected NUL byte"

/-- Why a stored file cannot be written, read or used. -/
inductive StorageFault where
  | notFound (path : String)
  | parent (fault : FileFault)
  | create (fault : FileFault)
  | read (path : String) (fault : FileFault)
  | delete (fault : FileFault)
  | version (path : String) (found : Nat)
  | digest (path : String)
  /-- The content is no document of the expected form. -/
  | document
  | reported (text : String)
deriving DecidableEq

/-- The wording of a storage fault. -/
def StorageFault.message : StorageFault → String
  | .notFound path => "path not found: " ++ path
  | .parent e => "mkparent: " ++ e.message
  | .create e => "create: " ++ e.message
  | .read path e => "read " ++ path ++ ": " ++ e.message
  | .delete e => "delete: " ++ e.message
  | .version path v => path ++ ": unsupported partition file version " ++ Nat.repr v
  | .digest path => path ++ ": partition file digest mismatch"
  | .document => "malformed document"
  | .reported text => text

/-- Whose fault an execution error is. -/
inductive Origin where
  | user
  | input
  | bug
  | remote
deriving DecidableEq

/-- The name of an origin. -/
def Origin.name : Origin → String
  | .user => "User"
  | .input => "Input"
  | .bug => "Bug"
  | .remote => "Remote"

/-- An error met while running. -/
structure ExecError where
  code : Nat
  origin : Origin
  text : String
  cause : Option String
deriving DecidableEq

/-- What an execution error is made from. -/
inductive Cause where
  | exec (e : ExecError)
  | other (text : String)
deriving DecidableEq

namespace ExecError

/-- A value in a bag has the wrong type. -/
def badValueCode : Nat := 2103

/-- An aggregate failed. -/
def aggregateCode : Nat := 2106

/-- A row cannot be routed. -/
def routingCode : Nat := 2107

/-- Keys arrive out of order. -/
def unsortedCode : Nat := 2108

/-- A function is not registered. -/
def unknownFunctionCode : Nat := 2109

/-- The error as text. -/
def message (e : ExecError) : String := "ERROR " ++ Nat.repr e.code ++ ": " ++ e.text

/-- An execution error passes unchanged; any other error becomes the cause of a
failed computation. -/
def classify (context : String) : Cause → ExecError
  | .exec e => e
  | .other text => ⟨aggregateCode, .bug, "Error while computing " ++ context, some text⟩

end ExecError

/-- A failure, by its cause. -/
inductive Failure where
  | construction (fault : PlanFault)
  | validation (fault : ValidationFault)
  | settings (fault : SettingsFault)
  | storage (fault : StorageFault)
  | invariant (text : String)
  | exec (error : ExecError)
deriving DecidableEq

/-- The wording of a failure. -/
def Failure.message : Failure → String
  | .construction e => "plan construction error: " ++ e.message
  | .validation e => "plan validation error: " ++ e.message
  | .settings e => "invalid configuration: " ++ e.message
  | .storage e => "storage error: " ++ e.message
  | .invariant text => "internal invariant failed: " ++ text
  | .exec e => e.message

end MapReduce
