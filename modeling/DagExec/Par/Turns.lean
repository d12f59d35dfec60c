import DagExec.Par.Steps

/-!
# Taking turns

`dispatch_task_try` keeps its place among the workers in `next_worker`, over calls and unreduced. Nothing else moves it,
and nothing else sends a task (`SameTurn`). So along any stretch of steps, from any state, the workers asked are those
whose turn it is, one after the other (`Stretch.inTurn`).
-/

namespace DagExec

open ListFacts Outcome

variable {K O E ω R : Type}

/-! ## The workers asked -/

/-- What an attempt of `dispatch_task_try` finds: whom it asks, as it is when asked. -/
structure Probe (O E ω : Type) where
  idx : Nat
  worker : Worker O E ω

/-- The queue was full when tried. -/
def Probe.Full (ctx : Ctx K O E ω) (p : Probe O E ω) : Prop :=
  p.worker.status.gone = false ∧ ctx.queueCap ≤ p.worker.queue.length

/-- The queue had room when tried. -/
def Probe.Room (ctx : Ctx K O E ω) (p : Probe O E ω) : Prop :=
  p.worker.status.gone = false ∧ p.worker.queue.length < ctx.queueCap

/-- The worker asked in this step, when it is an attempt. -/
def State.asked (s : State K O E ω R) : Action ω → List (Probe O E ω)
  | .worker _ _ => []
  | .scheduler =>
    match s.pc with
    | .dispatch _ (_ + 1) =>
      (s.workers[s.nextWorker % s.workers.length]?).toList.map (Probe.mk (s.nextWorker % s.workers.length))
    | _ => []

def Event.dispatchWorker : Event O E → Option Nat
  | .dispatched w _ => some w
  | _ => none

/-- The workers tasks have been sent to, in order. -/
def State.sentTo (s : State K O E ω R) : List Nat := s.log.filterMap Event.dispatchWorker

/-- Nobody is asked: nothing is sent, and the turn stays where it is. -/
structure SameTurn (s s' : State K O E ω R) : Prop where
  nextWorker : s'.nextWorker = s.nextWorker
  size : s'.workers.length = s.workers.length
  sentTo : s'.sentTo = s.sentTo

variable {ctx : Ctx K O E ω} {s s' t u : State K O E ω R}

theorem SameTurn.refl (s : State K O E ω R) : SameTurn s s := ⟨rfl, rfl, rfl⟩

theorem SameTurn.trans (h : SameTurn s t) (h' : SameTurn t u) : SameTurn s u :=
  ⟨h'.nextWorker.trans h.nextWorker, h'.size.trans h.size, h'.sentTo.trans h.sentTo⟩

/-- Leaving the function asks nobody either. -/
theorem SameTurn.orLeave {α : Type} {o : Outcome (ExecError K E) α} {go : α → State K O E ω R}
    (hgo : ∀ a, SameTurn s (go a)) : SameTurn s (s.orLeave o go) := by
  cases o with
  | ok a => exact hgo a
  | err e => exact ⟨rfl, rfl, rfl⟩
  | panic p => exact ⟨rfl, rfl, rfl⟩
  | diverge => exact .refl s

theorem SameTurn.enterDispatch (task : Task O E ω) : SameTurn s (s.enterDispatch task) :=
  SameTurn.orLeave fun _ => ⟨rfl, rfl, rfl⟩

/-! ## Steps of the workers -/

/-- Tasks have only been taken out of the channels. -/
def OnlyTaken (ws ws' : List (Worker O E ω)) : Prop := List.Forall₂ (fun wk' wk => wk'.queue <:+ wk.queue) ws' ws

theorem OnlyTaken.refl (ws : List (Worker O E ω)) : OnlyTaken ws ws := List.forall₂_same.mpr fun _ _ => List.suffix_refl _

theorem OnlyTaken.trans {ws ws' ws'' : List (Worker O E ω)} (h : OnlyTaken ws ws') (h' : OnlyTaken ws' ws'') :
    OnlyTaken ws ws'' := by
  refine List.forall₂_iff_get.mpr ⟨h'.length_eq.trans h.length_eq, fun i hi hi' => ?_⟩
  have hmid : i < ws'.length := h.length_eq.symm ▸ hi'
  exact (h'.get hi hmid).trans (h.get hmid hi')

theorem OnlyTaken.not_mem {ws ws' : List (Worker O E ω)} (h : OnlyTaken ws ws') {task : Task O E ω}
    (hnot : ∀ wk ∈ ws, task ∉ wk.queue) : ∀ wk ∈ ws', task ∉ wk.queue := by
  intro wk' hwk' hmem
  obtain ⟨wk, hwk, hsuf⟩ := forall₂_mem_right h.flip hwk'
  exact hnot wk hwk (List.IsSuffix.subset hsuf hmem)

/-- A step of a worker: nobody is asked, and only its own channel can get shorter. -/
structure Serves (s s' : State K O E ω R) : Prop extends SameTurn s s' where
  pc : s'.pc = s.pc
  taken : OnlyTaken s.workers s'.workers

theorem WorkerStep.serves {resRx : Bool} {w : Nat} {wk wk' : Worker O E ω} {new : List (TaskResult O E)}
    {seen : List (Event O E)} (h : WorkerStep resRx w wk wk' new seen) :
    wk'.queue <:+ wk.queue ∧ seen.filterMap Event.dispatchWorker = [] := by
  cases h with
  | move hm =>
    cases hm with
    | take hs hq => exact ⟨hq ▸ List.suffix_cons _ _, rfl⟩
    | leave => exact ⟨List.suffix_refl _, rfl⟩
    | finish => exact ⟨List.suffix_refl _, rfl⟩
    | panic => exact ⟨List.nil_suffix, rfl⟩
  | hungUp => exact ⟨List.nil_suffix, rfl⟩

theorem work_serves {w : Nat} {env : ω} (hs : s.work w env = some s') : Serves s s' := by
  obtain ⟨wk, wk', new, seen, hwk, hstep, rfl⟩ := work_cases hs
  obtain ⟨hq, hseen⟩ := hstep.serves
  refine ⟨⟨rfl, List.length_set, ?_⟩, rfl, ?_⟩
  · simp only [State.sentTo, List.filterMap_append, hseen, List.append_nil]
  · exact forall₂_set (S := fun x y : Worker O E ω => x.queue <:+ y.queue) (fun _ => List.suffix_refl _) hwk hq

/-! ## Steps of the scheduler -/

theorem asked_attempt {task : Task O E ω} {left : Nat} (hpc : s.pc = .dispatch task (left + 1)) {wk : Worker O E ω}
    (hwk : s.workers[s.nextWorker % s.workers.length]? = some wk) :
    s.asked .scheduler = [⟨s.nextWorker % s.workers.length, wk⟩] := by
  simp [State.asked, hpc, hwk]

theorem asked_eq_nil (hpc : ∀ task left, s.pc ≠ .dispatch task (left + 1)) : s.asked .scheduler = [] := by
  cases hp : s.pc with
  | dispatch task left =>
    cases left with
    | zero => simp [State.asked, hp]
    | succ left => exact absurd hp (hpc task left)
  | _ => simp [State.asked, hp]

theorem SameTurn.checkCycle (plan : Plan K O E ω) : SameTurn s (s.checkCycle plan) := by
  unfold State.checkCycle
  split
  · exact SameTurn.orLeave fun _ => ⟨rfl, rfl, rfl⟩
  · exact ⟨rfl, rfl, rfl⟩

theorem SameTurn.closeTx (i : Nat) (r : Ret K O E) : SameTurn s (s.closeTx i r) := by
  unfold State.closeTx
  split
  · exact ⟨rfl, List.length_set, rfl⟩
  · exact ⟨rfl, rfl, rfl⟩

theorem SameTurn.joinWorker {i : Nat} {r : Ret K O E} (hs : s.joinWorker i r = some s') : SameTurn s s' := by
  unfold State.joinWorker at hs
  split at hs
  · split at hs <;> cases hs
    exact ⟨rfl, rfl, rfl⟩
  · cases hs
    exact ⟨rfl, rfl, rfl⟩

section

variable [ExecObserver R]

theorem SameTurn.runSource (plan : Plan K O E ω) (id : NodeId) (v : O) : SameTurn s (s.runSource plan id v) :=
  SameTurn.orLeave fun _ => ⟨rfl, rfl, rfl⟩

theorem SameTurn.runNode (plan : Plan K O E ω) (id : NodeId) : SameTurn s (s.runNode plan id) := by
  refine SameTurn.orLeave fun nd => ?_
  cases nd.kind with
  | source v => exact .runSource plan id v
  | task f => exact SameTurn.orLeave fun args => .enterDispatch _

theorem SameTurn.pickNext (plan : Plan K O E ω) : SameTurn s (s.pickNext plan) := by
  unfold State.pickNext
  split
  · exact SameTurn.trans (t := { s with pending := none }) ⟨rfl, rfl, rfl⟩ (.enterDispatch _)
  · split
    · exact ⟨rfl, rfl, rfl⟩
    · rename_i id ready hr
      exact SameTurn.trans (t := { s with ready := ready }) ⟨rfl, rfl, rfl⟩ (.runNode plan id)

theorem SameTurn.receive (plan : Plan K O E ω) (res : TaskResult O E) : SameTurn s (s.receive plan res) := by
  refine SameTurn.orLeave fun inFlight => ?_
  -- the result is recorded in the log
  have hlog : SameTurn s { s with
      inFlight := inFlight, observer := ExecObserver.markFinish res.id s.observer, log := s.log ++ [Event.received res] } :=
    ⟨rfl, rfl, by simp [State.sentTo, Event.dispatchWorker]⟩
  cases res.out with
  | ok v => exact hlog.trans (SameTurn.orLeave fun _ => ⟨rfl, rfl, rfl⟩)
  | error e => exact hlog.trans (SameTurn.orLeave fun _ => ⟨rfl, rfl, rfl⟩)

theorem SameTurn.recv {plan : Plan K O E ω} (hs : s.recv plan = some s') : SameTurn s s' := by
  unfold State.recv at hs
  cases hr : s.results with
  | nil =>
    simp only [hr] at hs
    split at hs <;> cases hs
    exact ⟨rfl, rfl, rfl⟩
  | cons res results =>
    simp only [hr, Option.some.injEq] at hs
    exact hs ▸ SameTurn.trans (t := { s with results := results }) ⟨rfl, rfl, rfl⟩ (.receive plan res)

/-- **The turn is moved by the attempts of `dispatch_task_try` only.** -/
theorem schedule_sameTurn (hs : s.schedule ctx = some s') (hpc : ∀ task left, s.pc ≠ .dispatch task (left + 1)) :
    SameTurn s s' := by
  unfold State.schedule at hs
  cases hp : s.pc with
  | outer =>
    simp only [hp] at hs
    split at hs <;> cases hs
    · exact ⟨rfl, rfl, rfl⟩
    · exact ⟨rfl, rfl, rfl⟩
  | inner =>
    simp only [hp] at hs
    split at hs <;> cases hs
    · exact .pickNext ctx.plan
    · exact ⟨rfl, rfl, rfl⟩
  | dispatch task left =>
    cases left with
    | zero =>
      simp only [hp] at hs
      cases hs
      exact ⟨rfl, rfl, rfl⟩
    | succ left => exact absurd hp (hpc task left)
  | check =>
    simp only [hp, Option.some.injEq] at hs
    exact hs ▸ .checkCycle ctx.plan
  | recv =>
    simp only [hp] at hs
    exact .recv hs
  | close i r =>
    simp only [hp, Option.some.injEq] at hs
    exact hs ▸ .closeTx i r
  | join i r =>
    simp only [hp] at hs
    exact .joinWorker hs
  | returned r => simp only [hp] at hs; cases hs
  | panicked p => simp only [hp] at hs; cases hs

/-- A step: nobody is asked, or the worker whose turn it is. -/
inductive Turn (ctx : Ctx K O E ω) (s : State K O E ω R) : List (Probe O E ω) → State K O E ω R → Prop
  | none {s' : State K O E ω R} (h : SameTurn s s') : Turn ctx s [] s'
  | ask {s' : State K O E ω R} {task : Task O E ω} {left : Nat} {wk : Worker O E ω}
      (h : Attempt ctx s task left (s.nextWorker % s.workers.length) wk s') :
      Turn ctx s [⟨s.nextWorker % s.workers.length, wk⟩] s'

theorem step_turn (hW : 0 < s.workers.length) {a : Action ω} (hs : step ctx a s = some s') :
    Turn ctx s (s.asked a) s' := by
  cases a with
  | worker w env => exact .none (work_serves hs).toSameTurn
  | scheduler =>
    by_cases hpc : ∃ task left, s.pc = .dispatch task (left + 1)
    · obtain ⟨task, left, hpc⟩ := hpc
      obtain ⟨wk, hwk, hatt⟩ := schedule_attempt hW hpc hs
      rw [asked_attempt hpc hwk]
      exact .ask hatt
    · have hpc' : ∀ task left, s.pc ≠ .dispatch task (left + 1) := fun task left h => hpc ⟨task, left, h⟩
      rw [asked_eq_nil hpc']
      exact .none (schedule_sameTurn hs hpc')

/-- A stretch of steps, with the workers asked in it. -/
inductive Stretch (ctx : Ctx K O E ω) (s : State K O E ω R) : List (Probe O E ω) → State K O E ω R → Prop
  | refl : Stretch ctx s [] s
  | tail {probes : List (Probe O E ω)} {t u : State K O E ω R} (a : Action ω) (h : Stretch ctx s probes t)
      (hs : step ctx a t = some u) : Stretch ctx s (probes ++ t.asked a) u

/-- A run is a stretch. -/
theorem exists_stretch (h : Machine.Reach (step ctx) s t) : ∃ probes, Stretch ctx s probes t := by
  induction h with
  | refl => exact ⟨[], .refl⟩
  | tail a _ hs ih =>
    obtain ⟨probes, hstretch⟩ := ih
    exact ⟨_, hstretch.tail a hs⟩

/-- Where a stretch has got to: the workers are asked in turn, and as long as they all have room, each is sent a
task. -/
structure InTurn (ctx : Ctx K O E ω) (s : State K O E ω R) (probes : List (Probe O E ω)) (t : State K O E ω R) :
    Prop where
  size : t.workers.length = s.workers.length
  turns : probes.map Probe.idx = turns s.workers.length s.nextWorker probes.length
  nextWorker : t.nextWorker % s.workers.length = (s.nextWorker + probes.length) % s.workers.length
  bound : s.nextWorker ≤ s.workers.length → t.nextWorker ≤ s.workers.length
  sentTo : (∀ p ∈ probes, p.Room ctx) → t.sentTo = s.sentTo ++ probes.map Probe.idx

theorem InTurn.step (hW : 0 < s.workers.length) {probes asked : List (Probe O E ω)} (h : InTurn ctx s probes t)
    (hturn : Turn ctx t asked u) : InTurn ctx s (probes ++ asked) u := by
  cases hturn with
  | none hsame =>
    rw [List.append_nil]
    exact ⟨hsame.size.trans h.size, h.turns, hsame.nextWorker ▸ h.nextWorker, fun hle => hsame.nextWorker ▸ h.bound hle,
      fun hroom => hsame.sentTo.trans (h.sentTo hroom)⟩
  | @ask _ task left wk hatt =>
    have hidx : t.nextWorker % t.workers.length = (s.nextWorker + probes.length) % s.workers.length := by
      rw [h.size, h.nextWorker]
    rw [hidx] at hatt ⊢
    have hnext : u.nextWorker = (s.nextWorker + probes.length) % s.workers.length + 1 := by cases hatt <;> rfl
    have hsize : u.workers.length = t.workers.length := by
      cases hatt with
      | sent => exact List.length_set
      | _ => rfl
    refine ⟨hsize.trans h.size, ?_, ?_, fun _ => ?_, fun hroom => ?_⟩
    · rw [List.map_append, h.turns, List.length_append, List.length_singleton, turns_succ]
      rfl
    · rw [hnext, List.length_append, List.length_singleton, Nat.mod_add_mod, Nat.add_assoc]
    · rw [hnext]
      exact Nat.mod_lt _ hW
    · have hlast := hroom _ (List.mem_append_right _ List.mem_cons_self)
      have hsent := h.sentTo fun p hp => hroom p (List.mem_append_left _ hp)
      simp only [State.sentTo] at hsent
      cases hatt with
      | gone hgone => exact absurd (hgone.symm.trans hlast.1) (by decide)
      | sent => simp [State.sentTo, List.filterMap_append, hsent, Event.dispatchWorker]
      | full _ hfull => exact absurd hlast.2 (Nat.not_lt.mpr hfull)

theorem Stretch.inTurn (hW : 0 < s.workers.length) {probes : List (Probe O E ω)} (h : Stretch ctx s probes t) :
    InTurn ctx s probes t := by
  induction h with
  | refl => exact ⟨rfl, rfl, rfl, id, fun _ => (List.append_nil _).symm⟩
  | tail a _ hs ih => exact ih.step hW (step_turn (ih.size ▸ hW) hs)

end

end DagExec
