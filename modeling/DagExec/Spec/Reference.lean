import DagExec.Model.Graph
import DagExec.Lib.DepGraph
import DagExec.Lib.ListFacts

/-!
# What a DAG means, without an executor

`Evaluates dag i v`: `v` is a value of node `i`, by recursion over the dependencies: the source's value, or what the
task function returns on values of its dependencies in declared order, repetitions included. The relation is
inductive, so a node that reaches a cycle has no value.

- `Evaluates.unique`: with deterministic task functions the value is unique, it is *the* reference value;
- `evaluates_not_reachesCycle`: a node with a value reaches no cycle;
- `evaluable_iff`: a node is evaluable exactly when values for its argument list exist.
-/

namespace DagExec

open DepGraph ListFacts

variable {K O E ω : Type}

namespace Dag

variable (dag : Dag K O E ω)

/-- The nodes the requested keys name. -/
def Requested (outs : List K) : Set NodeId := { i | ∃ k ∈ outs, dag.index.get k = some i }

/-- The needed nodes: those reachable from the requested ones. -/
def Needed (outs : List K) (i : NodeId) : Prop := i ∈ Closure dag.depsOf (dag.Requested outs)

/-- Every requested key exists. -/
def KeysExist (outs : List K) : Prop := ∀ k ∈ outs, ∃ i, dag.index.get k = some i

/-- The needed subgraph has no directed cycle. -/
def Acyclic (outs : List K) : Prop := ∀ i, dag.Needed outs i → ¬ OnCycle dag.depsOf i

def IsSource (i : NodeId) : Prop := ∃ nd v, dag.nodes[i]? = some nd ∧ nd.kind = .source v

def IsTask (i : NodeId) (f : TaskFn O E ω) : Prop := ∃ nd, dag.nodes[i]? = some nd ∧ nd.kind = .task f

/-- The task functions depend on their arguments only. -/
def Deterministic : Prop := ∀ i f, dag.IsTask i f → ∀ w w' args, f w args = f w' args

end Dag

/-- The values of a node. -/
inductive Evaluates (dag : Dag K O E ω) : NodeId → O → Prop
  | source {i : NodeId} {nd : Node K O E ω} {v : O} (hi : dag.nodes[i]? = some nd) (hk : nd.kind = .source v) :
      Evaluates dag i v
  | task {i : NodeId} {nd : Node K O E ω} {f : TaskFn O E ω} {args : List O} {w : ω} {v : O}
      (hi : dag.nodes[i]? = some nd) (hk : nd.kind = .task f) (hlen : args.length = nd.deps.length)
      (hargs : ∀ (j : Nat) (d : NodeId) (a : O), nd.deps[j]? = some d → args[j]? = some a → Evaluates dag d a)
      (hf : f w args = .ok v) : Evaluates dag i v

/-- `args` are values of the dependencies of `i`, in declared order. -/
def RefArgs (dag : Dag K O E ω) (i : NodeId) (args : List O) : Prop :=
  List.Forall₂ (Evaluates dag) (dag.depsOf i) args

/-- All transitive dependencies of `i` are acyclic and have a value. -/
def Evaluable (dag : Dag K O E ω) (i : NodeId) : Prop :=
  ∀ d, DependsOn dag.depsOf i d → ¬ OnCycle dag.depsOf d ∧ ∃ v, Evaluates dag d v

/-- `i` is an evaluable task whose function returns `Err(e)` on the reference values of its dependencies. -/
def FailsWith (dag : Dag K O E ω) (i : NodeId) (e : E) : Prop :=
  Evaluable dag i ∧ ∃ f args w, dag.IsTask i f ∧ RefArgs dag i args ∧ f w args = .err e

/-- No needed task returns `Err` or panics on reference values of its dependencies. -/
def TasksSucceed (dag : Dag K O E ω) (outs : List K) : Prop :=
  ∀ i f args, dag.Needed outs i → dag.IsTask i f → RefArgs dag i args → ∀ w, ∃ v, f w args = .ok v

/-- No needed task panics on reference values of its dependencies. -/
def TasksReturn (dag : Dag K O E ω) (outs : List K) : Prop :=
  ∀ i f args, dag.Needed outs i → dag.IsTask i f → RefArgs dag i args → ∀ w, f w args ≠ .panic

section

variable {dag : Dag K O E ω} {outs : List K}

theorem TasksSucceed.returns (h : TasksSucceed dag outs) : TasksReturn dag outs := by
  intro i f args hi hf ha w hw
  obtain ⟨v, hv⟩ := h i f args hi hf ha w
  rw [hw] at hv
  cases hv

theorem TasksSucceed.not_failsWith (h : TasksSucceed dag outs) {i : NodeId} {e : E} (hi : dag.Needed outs i) :
    ¬ FailsWith dag i e := by
  rintro ⟨-, f, args, w, hf, ha, he⟩
  obtain ⟨v, hv⟩ := h i f args hi hf ha w
  rw [he] at hv
  cases hv

theorem Dag.IsTask.get {i : NodeId} {f : TaskFn O E ω} {nd : Node K O E ω} (h : dag.IsTask i f)
    (hi : dag.nodes[i]? = some nd) : nd.kind = .task f := by
  obtain ⟨nd', hi', hk⟩ := h
  rw [hi] at hi'
  cases hi'
  exact hk

theorem Dag.IsTask.lt {i : NodeId} {f : TaskFn O E ω} (h : dag.IsTask i f) : i < dag.nodes.length := by
  obtain ⟨nd, hi, -⟩ := h
  exact (List.getElem?_eq_some_iff.mp hi).1

theorem Dag.IsTask.not_source {i : NodeId} {f : TaskFn O E ω} (h : dag.IsTask i f) : ¬ dag.IsSource i := by
  rintro ⟨nd, v, hi, hk⟩
  rw [h.get hi] at hk
  cases hk

/-- The two constructors with the arguments as one relation. -/
theorem Evaluates.of_refArgs {i : NodeId} {f : TaskFn O E ω} {args : List O} {w : ω} {v : O} (hi : dag.IsTask i f)
    (hargs : RefArgs dag i args) (hf : f w args = .ok v) : Evaluates dag i v := by
  obtain ⟨nd, hnd, hk⟩ := hi
  rw [RefArgs, Dag.depsOf_of_get hnd] at hargs
  refine .task hnd hk hargs.length_eq.symm (fun j d a hd ha => ?_) hf
  obtain ⟨a', ha', he⟩ := forall₂_get_left hargs hd
  rw [ha'] at ha
  cases ha
  exact he

theorem refArgs_of_get {i : NodeId} {nd : Node K O E ω} {args : List O} (hi : dag.nodes[i]? = some nd)
    (hlen : args.length = nd.deps.length)
    (hargs : ∀ (j : Nat) (d : NodeId) (a : O), nd.deps[j]? = some d → args[j]? = some a → Evaluates dag d a) :
    RefArgs dag i args := by
  rw [RefArgs, Dag.depsOf_of_get hi, List.forall₂_iff_get]
  exact ⟨hlen.symm, fun j hj hj' => hargs j _ _ (List.getElem?_eq_getElem hj) (List.getElem?_eq_getElem hj')⟩

theorem refArgs_dep {i d : NodeId} {args : List O} (h : RefArgs dag i args) (hd : d ∈ dag.depsOf i) :
    ∃ v, Evaluates dag d v := by
  obtain ⟨j, hj⟩ := List.getElem?_of_mem hd
  obtain ⟨v, _, hv⟩ := forall₂_get_left h hj
  exact ⟨v, hv⟩

/-- The dependencies of a node with a value have values. -/
theorem Evaluates.dep {i d : NodeId} {v : O} (h : Evaluates dag i v) (hd : d ∈ dag.depsOf i) :
    ∃ w, Evaluates dag d w := by
  cases h with
  | source hi hk => rw [Dag.depsOf_source hi hk] at hd; cases hd
  | task hi hk hlen hargs hf => exact refArgs_dep (refArgs_of_get hi hlen hargs) hd

/-- **Reference values are unique** when task functions are deterministic. -/
theorem Evaluates.unique (hdet : dag.Deterministic) {i : NodeId} {v v' : O} (h : Evaluates dag i v)
    (h' : Evaluates dag i v') : v = v' := by
  induction h generalizing v' with
  | source hi hk =>
    cases h' with
    | source hi' hk' => rw [hi] at hi'; cases hi'; rw [hk] at hk'; cases hk'; rfl
    | task hi' hk' => rw [hi] at hi'; cases hi'; rw [hk] at hk'; cases hk'
  | @task i nd f args w v hi hk hlen hargs hf ih =>
    cases h' with
    | source hi' hk' => rw [hi] at hi'; cases hi'; rw [hk] at hk'; cases hk'
    | @task _ _ _ args' w' _ hi' hk' hlen' hargs' hf' =>
      rw [hi] at hi'; cases hi'; rw [hk] at hk'; cases hk'
      have hsame : args = args' := by
        refine List.ext_getElem (hlen.trans hlen'.symm) fun j hj hj' => ?_
        have hd := List.getElem?_eq_getElem (hlen ▸ hj)
        exact ih j _ _ hd (List.getElem?_eq_getElem hj) (hargs' j _ _ hd (List.getElem?_eq_getElem hj'))
      rw [← hsame, hdet i f ⟨nd, hi, hk⟩ w' w args, hf] at hf'
      cases hf'
      rfl

theorem RefArgs.unique (hdet : dag.Deterministic) {i : NodeId} {args args' : List O} (h : RefArgs dag i args)
    (h' : RefArgs dag i args') : args = args' := by
  refine List.ext_getElem (h.length_eq.symm.trans h'.length_eq) fun j hj hj' => ?_
  obtain ⟨d, hd, he⟩ := forall₂_get_right h (List.getElem?_eq_getElem hj)
  obtain ⟨d', hd', he'⟩ := forall₂_get_right h' (List.getElem?_eq_getElem hj')
  rw [hd] at hd'
  cases hd'
  exact he.unique hdet he'

theorem Evaluates.acc {i : NodeId} {v : O} (h : Evaluates dag i v) : Acc (fun d i => d ∈ dag.depsOf i) i := by
  induction h with
  | source hi hk =>
    refine Acc.intro _ fun d hd => ?_
    rw [Dag.depsOf_source hi hk] at hd
    cases hd
  | task hi hk hlen hargs hf ih =>
    refine Acc.intro _ fun d hd => ?_
    rw [Dag.depsOf_of_get hi] at hd
    obtain ⟨j, hj⟩ := List.getElem?_of_mem hd
    have hlt := (List.getElem?_eq_some_iff.mp hj).1
    exact ih j d _ hj (List.getElem?_eq_getElem (hlen ▸ hlt))

/-- A node with a value reaches no cycle. -/
theorem evaluates_not_reachesCycle {i : NodeId} {v : O} (h : Evaluates dag i v) : ¬ ReachesCycle dag.depsOf i :=
  not_reachesCycle_of_acc h.acc

/-- If the direct dependencies have values, all transitive ones do. -/
theorem evaluable_of_deps {i : NodeId} (h : ∀ d ∈ dag.depsOf i, ∃ v, Evaluates dag d v) : Evaluable dag i := by
  intro d hd
  obtain ⟨v, hv⟩ := DependsOn.induct (P := fun d => ∃ v, Evaluates dag d v) hd h fun a ⟨v, hv⟩ d hd => hv.dep hd
  exact ⟨fun hc => evaluates_not_reachesCycle hv ⟨d, .refl, hc⟩, v, hv⟩

/-- A node is evaluable exactly when values for its argument list exist. -/
theorem evaluable_iff {i : NodeId} : Evaluable dag i ↔ ∃ args, RefArgs dag i args := by
  constructor
  · intro h
    have hall : ∀ d ∈ dag.depsOf i, ∃ v, Evaluates dag d v := fun d hd => (h d (.single hd)).2
    obtain ⟨args, hargs⟩ : ∃ args, List.Forall₂ (Evaluates dag) (dag.depsOf i) args := by
      generalize dag.depsOf i = ds at hall
      induction ds with
      | nil => exact ⟨[], .nil⟩
      | cons d ds ih =>
        obtain ⟨v, hv⟩ := hall d List.mem_cons_self
        obtain ⟨vs, hvs⟩ := ih fun d' hd' => hall d' (List.mem_cons_of_mem _ hd')
        exact ⟨v :: vs, .cons hv hvs⟩
    exact ⟨args, hargs⟩
  · rintro ⟨args, hargs⟩
    exact evaluable_of_deps fun d hd => refArgs_dep hargs hd

/-- A failing task has no value, with deterministic task functions. -/
theorem FailsWith.not_evaluates (hdet : dag.Deterministic) {i : NodeId} {e : E} (h : FailsWith dag i e) :
    ¬ ∃ v, Evaluates dag i v := by
  obtain ⟨-, f, args, w, hf, hargs, he⟩ := h
  rintro ⟨v, hv⟩
  cases hv with
  | source hi hk => rw [hf.get hi] at hk; cases hk
  | @task _ _ _ args' w' _ hi hk hlen hargs' hf' =>
    rw [hf.get hi] at hk
    cases hk
    rw [RefArgs.unique hdet (refArgs_of_get hi hlen hargs') hargs, hdet i f hf w' w, he] at hf'
    cases hf'

/-! ## The needed nodes -/

theorem Dag.Needed.lt {i : NodeId} (h : dag.Needed outs i) : i < dag.nodes.length := by
  obtain ⟨s, ⟨k, _, hk⟩, hr⟩ := h
  rcases Relation.ReflTransGen.cases_tail hr with rfl | ⟨j, _, hd⟩
  · exact Dag.index_lt hk
  · exact Dag.lt_of_mem_depsOf hd

theorem Dag.Needed.dep {i d : NodeId} (h : dag.Needed outs i) (hd : d ∈ dag.depsOf i) : dag.Needed outs d :=
  Closure.dep h hd

theorem Dag.needed_finite : { i | dag.Needed outs i }.Finite :=
  (Set.finite_lt_nat dag.nodes.length).subset fun _ h => Dag.Needed.lt h

theorem Dag.source_or_task {i : NodeId} (h : i < dag.nodes.length) : dag.IsSource i ∨ ∃ f, dag.IsTask i f := by
  have hi := List.getElem?_eq_getElem h
  cases hk : dag.nodes[i].kind with
  | source v => exact .inl ⟨_, v, hi, hk⟩
  | task f => exact .inr ⟨f, _, hi, hk⟩

theorem Dag.IsSource.depsOf {i : NodeId} (h : dag.IsSource i) : dag.depsOf i = [] := by
  obtain ⟨nd, v, hi, hk⟩ := h
  exact depsOf_source hi hk

theorem Dag.Acyclic.not_reachesCycle (h : dag.Acyclic outs) {i : NodeId} (hn : dag.Needed outs i) :
    ¬ ReachesCycle dag.depsOf i := by
  rintro ⟨j, hj, hc⟩
  exact h j (Closure.reaches hn hj) hc

end

end DagExec
