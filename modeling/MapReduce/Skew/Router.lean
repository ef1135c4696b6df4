/-
# Routing the rows of a skewed join

Rows of the skewed input whose key is spread go to the key's reducers in turn;
rows of the other input with such a key go to all of them, so that every
reducer can join its share. All other rows go where the hash of their key says.

Key definitions: `JoinSide`, `Router`, `Router.ofMap`, `Router.route`.
-/
import MapReduce.Skew.PartitionMap
import MapReduce.Value.Encoding

namespace MapReduce

/-- The two inputs of a skewed join. -/
inductive JoinSide where
  /-- The input that was sampled. -/
  | skewed
  /-- The input that is joined with it. -/
  | probe
deriving DecidableEq

/-- The name of an input. -/
def JoinSide.name : JoinSide → String
  | .skewed => "skewed"
  | .probe => "probe"

/-- A map that cannot be routed by. -/
def routingError (text : String) : ExecError := ⟨ExecError.routingCode, .bug, text, none⟩

/-- Why a map cannot be routed by: it has no reducers, or an entry needs none or
more than there are, or one starts beyond the last. -/
def PartitionMap.routingFault? (m : PartitionMap) : Option ExecError :=
  let p := m.parallelism.toNat
  if p = 0 then some (routingError "partition map has zero parallelism")
  else
    match m.entries.find? (fun e => e.partitions == 0 || decide (p < e.partitions.toNat)) with
    | some e => some (routingError ("key " ++ e.key.shown ++ " needs " ++
        Nat.repr e.partitions.toNat ++ " partitions but only " ++ Nat.repr p ++ " reducers exist"))
    | none =>
      match m.entries.find? (fun e => decide (p ≤ e.firstReducer.toNat)) with
      | some e => some (routingError ("key " ++ e.key.shown ++ " starts at reducer " ++
          Nat.repr e.firstReducer.toNat ++ " but only " ++ Nat.repr p ++ " reducers exist"))
      | none => none

/-- A map that can be routed by. -/
structure Router where
  map : PartitionMap
  sound : map.routingFault? = none

namespace Router

/-- The router of a map. -/
def ofMap (m : PartitionMap) : Except ExecError Router :=
  match h : m.routingFault? with
  | some e => .error e
  | none => .ok ⟨m, h⟩

/-- The number of reducers. -/
def parallelism (r : Router) : Nat := r.map.parallelism.toNat

/-- The reducer of a key that is not spread. -/
def defaultReducer (r : Router) (key : Tuple) : Nat := key.hash % r.parallelism

/-- The reducer of row `seq` of the skewed input. -/
def routeSkewed (r : Router) (key : Tuple) (seq : Nat) : Nat :=
  match r.map.find? key with
  | some e => e.reducer (seq % e.partitions.toNat) r.parallelism
  | none => r.defaultReducer key

/-- The reducers of a row of the other input. -/
def routeProbe (r : Router) (key : Tuple) : List Nat :=
  match r.map.find? key with
  | some e => e.reducers r.parallelism
  | none => [r.defaultReducer key]

/-- The reducers of row `seq` of an input. -/
def route (r : Router) (side : JoinSide) (key : Tuple) (seq : Nat) : List Nat :=
  match side with
  | .skewed => [r.routeSkewed key seq]
  | .probe => r.routeProbe key

end Router

end MapReduce
