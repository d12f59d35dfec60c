import DagExec.Model.Graph

/-!
# What the two executors share: `common.rs`, `observe.rs`

The loops of `common.rs`, and the three loops that `sequential.rs` and `parallel.rs` write out in the same words:
seeding the ready queue, gathering a task's arguments, reporting the remaining keys of a cycle.
-/

namespace DagExec

open Outcome WhileLoop

variable {K O E ω R : Type}

/-- `observe.rs`: the hooks the schedulers call; `R` is the observer's own state. -/
class ExecObserver (R : Type) where
  markReady : NodeId → Nat → R → R
  markStart : NodeId → Option Nat → R → R
  markFinish : NodeId → R → R

/-- `NoopObserver`. -/
instance : ExecObserver Unit where
  markReady _ _ r := r
  markStart _ _ r := r
  markFinish _ r := r

/-! ## `common.rs` -/

/-- One iteration of the marking loop on the mask and the stack, top first. Dependencies are pushed in order, so the
last one ends on top. -/
def markBody (dag : Dag K O E ω) :
    List Bool × List NodeId → Ctl (List Bool × List NodeId) (Outcome (ExecError K E) (List Bool))
  | (needed, []) => .done (.ok needed)
  | (needed, id :: stack) => andThen do
    let seen ← index needed id
    if seen then pure (needed, stack)
    else
      let needed ← store needed id true
      let nd ← index dag.nodes id
      pure (needed, nd.deps.reverse ++ stack)

/-- `mark_needed`. -/
def markNeeded (dag : Dag K O E ω) (outputs : List K) : Outcome (ExecError K E) (List Bool) := do
  let ids ← outputs.mapM fun k => okOr (dag.index.get k) (.outputMissing k)
  whileLoop (markBody dag) (List.replicate dag.nodes.length false, ids.reverse)

/-- `dependents[dep.0].push(NodeId(i))`. -/
def pushDependent {ε : Type} (i : NodeId) (dependents : List (List NodeId)) (dep : NodeId) :
    Outcome ε (List (List NodeId)) := do
  let dsts ← index dependents dep
  store dependents dep (dsts ++ [i])

/-- The body of the loop of `build_kahn_metadata`. -/
def kahnBody {ε : Type} (dag : Dag K O E ω) (needed : List Bool) (acc : List (List NodeId) × List Nat × Nat) (i : NodeId) :
    Outcome ε (List (List NodeId) × List Nat × Nat) := do
  let isNeeded ← index needed i
  if isNeeded then
    let nd ← index dag.nodes i
    let indeg ← store acc.2.1 i nd.deps.length
    let dependents ← nd.deps.foldlM (pushDependent i) acc.1
    pure (dependents, indeg, acc.2.2 + 1)
  else pure acc

/-- `build_kahn_metadata`: `(dependents, indeg, needed_count)`. -/
def buildKahnMetadata {ε : Type} (dag : Dag K O E ω) (needed : List Bool) :
    Outcome ε (List (List NodeId) × List Nat × Nat) :=
  let n := dag.nodes.length
  (List.range n).foldlM (kahnBody dag needed) (List.replicate n [], List.replicate n 0, 0)

/-- The body of the loop of `collect_outputs`. -/
def collectBody [DecidableEq K] (dag : Dag K O E ω) (vals : List (Option O)) (out : HashMap K O) (k : K) :
    Outcome (ExecError K E) (HashMap K O) := do
  let id ← okOr (dag.index.get k) (.outputMissing k)
  let slot ← index vals id
  let v ← okOr slot (.outputMissing k)
  pure (out.insert k v)

/-- `collect_outputs`. -/
def collectOutputs [DecidableEq K] (dag : Dag K O E ω) (outKeys : List K) (vals : List (Option O)) :
    Outcome (ExecError K E) (HashMap K O) :=
  outKeys.foldlM (collectBody dag vals) HashMap.empty

/-! ## Loops that both executors write out -/

/-- `if *is_needed && indeg[i] == 0 { push_back; mark_ready }`. -/
def seedBody [ExecObserver R] {ε : Type} (indeg : List Nat) (acc : List NodeId × R) (p : Bool × NodeId) :
    Outcome ε (List NodeId × R) :=
  if p.1 then do
    let deg ← index indeg p.2
    if deg = 0 then pure (acc.1 ++ [p.2], ExecObserver.markReady p.2 (acc.1.length + 1) acc.2)
    else pure acc
  else pure acc

/-- Seed: the needed nodes with `indeg == 0`, in insertion order. -/
def seed [ExecObserver R] {ε : Type} (needed : List Bool) (indeg : List Nat) (observer : R) :
    Outcome ε (List NodeId × R) :=
  needed.zipIdx.foldlM (seedBody indeg) ([], observer)

/-- The arguments of a task: the values of its dependencies, in declared order. -/
def gatherArgs (vals : List (Option O)) (deps : List NodeId) : Outcome (ExecError K E) (List O) :=
  deps.mapM fun dep => do
    let slot ← index vals dep
    okOr slot (.internalInvariant "dep missing during exec")

/-- `indeg[dst.0] -= 1; if indeg[dst.0] == 0 { push_back(dst); mark_ready }`. -/
def releaseBody [ExecObserver R] {ε : Type} (acc : List Nat × List NodeId × R) (dst : NodeId) :
    Outcome ε (List Nat × List NodeId × R) := do
  let deg ← index acc.1 dst
  let deg ← decrement deg
  let indeg ← store acc.1 dst deg
  if deg = 0 then
    pure (indeg, acc.2.1 ++ [dst], ExecObserver.markReady dst (acc.2.1.length + 1) acc.2.2)
  else pure (indeg, acc.2.1, acc.2.2)

/-- `if *is_needed && indeg[i] > 0 { remaining.push(key) }`. -/
def remainingBody {ε : Type} (dag : Dag K O E ω) (indeg : List Nat) (remaining : List K) (p : Bool × NodeId) :
    Outcome ε (List K) :=
  if p.1 then do
    let deg ← index indeg p.2
    if 0 < deg then
      let nd ← index dag.nodes p.2
      pure (remaining ++ [nd.key])
    else pure remaining
  else pure remaining

/-- The keys a `Cycle` error reports. -/
def remainingKeys {ε : Type} (dag : Dag K O E ω) (needed : List Bool) (indeg : List Nat) : Outcome ε (List K) :=
  needed.zipIdx.foldlM (remainingBody dag indeg) []

/-! ## What is fixed before the first node is processed -/

/-- The locals neither executor changes after its preparation. -/
structure Plan (K O E ω : Type) where
  dag : Dag K O E ω
  needed : List Bool
  dependents : List (List NodeId)
  neededCount : Nat

/-- The locals a run starts from. -/
structure Prepared (K O E ω R : Type) where
  plan : Plan K O E ω
  vals : List (Option O)
  indeg : List Nat
  ready : List NodeId
  observer : R

/-- From `mark_needed` to the seeded queue. -/
def prepare [ExecObserver R] (dag : Dag K O E ω) (outKeys : List K) (observer : R) :
    Outcome (ExecError K E) (Prepared K O E ω R) := do
  let needed ← markNeeded dag outKeys
  let kahn ← buildKahnMetadata dag needed
  let seeded ← seed needed kahn.2.1 observer
  pure {
    plan := { dag := dag, needed := needed, dependents := kahn.1, neededCount := kahn.2.2 }
    vals := List.replicate dag.nodes.length none
    indeg := kahn.2.1
    ready := seeded.1
    observer := seeded.2 }

end DagExec
