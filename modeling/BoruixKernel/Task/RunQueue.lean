import BoruixKernel.Task.ScheduledOnce

/-!
# The operations of the scheduler as wholes

What `add_task`, `enqueue_ready`, `fetch_next_task`, `kill_task` and the others do if nothing
happens in between, with what they return.  Where an operation waits for ever for a lock it
has no result.

A lock that is tried may be taken; whether it is, is an argument.
-/

namespace BoruixKernel

namespace Scheduler

variable (s : Scheduler)

def enqueueReady (cpu t : Nat) : Option (Bool × Scheduler) :=
  if (s.tasks t).inRunQueue then some (false, s)
  else
    let s := s.setFlag t true
    if (s.tasks t).statusHeld then none
    else if (s.tasks t).taskStatus = .Exited then some (false, s.setFlag t false)
    else some (true, ((s.setStatus t .Ready).add cpu t).addReady cpu 1)

/-- The list of all tasks with one more, unless it is there. -/
def registerTask (t : Nat) : Scheduler :=
  { s with allTasks := if t ∈ s.allTasks then s.allTasks else s.allTasks ++ [t] }

/-- `add_task`, with the pid if the program loads. -/
def addTask (cpu : Nat) (loads : Bool) : Option Nat × Scheduler :=
  let pid := s.nextPid
  if loads then
    let s : Scheduler := { s.modifyTask pid (fun _ => .new) with nextPid := pid + 1 }
    (some pid, ((s.registerTask pid).add cpu pid).addReady cpu 1)
  else (none, { s with nextPid := pid + 1 })

/-- Half of what the victim has, but at least one. -/
def toSteal (bestLen : UInt64) : Nat := (if bestLen / 2 = 0 then 1 else bestLen / 2).toNat

def fetchNextTask (cpu : Nat) (contended : Bool) : Option (Option Nat × Scheduler) :=
  match s.fetch cpu with
  | some (t, s) => some (some t, s.addReady cpu (-1))
  | none =>
    match s.bestVictim cpu with
    | some (i, len) =>
      if len ≥ 2 ∧ !contended then stealLoop i cpu (toSteal len) none s else some (none, s)
    | none => some (none, s)

/-- The loop of `fetch_next_task_try`: it returns the first task that is ready. -/
def stealOneLoop (victim : Nat) : Nat → Scheduler → Option (Option Nat × Scheduler)
  | 0, s => some (none, s)
  | n + 1, s =>
    match s.fetch victim with
    | none => some (none, s)
    | some (t, s) =>
      let s := s.addReady victim (-1)
      if (s.tasks t).statusHeld then none
      else if (s.tasks t).taskStatus = .Ready then some (some t, s)
      else stealOneLoop victim n ((s.add victim t).addReady victim 1)

/-- What it does, a loop that steals more of them does before it has found two. -/
theorem stealOneLoop_stealLoop {s s' : Scheduler} (cpu : Nat)
    (hsteal : stealOneLoop victim n s = some (first, s')) :
    ∃ m, stealLoop victim cpu m none s = some (first, s') := by
  induction n generalizing s with
  | zero => exact ⟨0, hsteal⟩
  | succ n ih =>
    rw [stealOneLoop] at hsteal
    split at hsteal
    · next hfetch => exact ⟨1, by rw [stealLoop, hfetch, hsteal]⟩
    · next t s1 hfetch =>
      dsimp only at hsteal
      split_ifs at hsteal with hheld hready
      · exact ⟨1, by simp [stealLoop, hfetch, hheld, hready, hsteal]⟩
      · obtain ⟨m, hm⟩ := ih hsteal
        exact ⟨m + 1, by simp [stealLoop, hfetch, hheld, hready, hm]⟩

def fetchNextTaskTry (cpu : Nat) (ownContended contended : Bool) : Option (Option Nat × Scheduler) :=
  if ownContended then some (none, s)
  else
    match s.fetch cpu with
    | some (t, s) => some (some t, s.addReady cpu (-1))
    | none =>
      match s.bestVictim cpu with
      | some (i, len) =>
        if len ≥ 2 ∧ !contended then stealOneLoop i (toSteal len) s else some (none, s)
      | none => some (none, s)

/-- `set_current_task`, as `run_tasks` does with a task it fetched. -/
def runTask (cpu t : Nat) : Option Scheduler :=
  if (s.tasks t).statusHeld then none else some ((s.setStatus t .Running).setCurrentTask cpu (some t))

def suspendTask (cpu : Nat) : Option Scheduler :=
  match s.current cpu with
  | none => some s
  | some t => (s.enqueueReady cpu t).map fun (_, s) => s.setCurrentTask cpu none

/-- One round of `wait_while`. -/
def waitWhile (cpu q : Nat) (condition : Bool) : Option Scheduler :=
  match s.current cpu with
  | none => some s
  | some t =>
    if condition then
      if (s.tasks t).statusHeld then none
      else
        let s := (s.setStatus t .Waiting).setFlag t false
        let ts := s.waiters q
        some ((s.setWaiters q (if t ∈ ts then ts else ts ++ [t])).setCurrentTask cpu none)
    else some s

def wakeOne (cpu q : Nat) : Option Scheduler :=
  match (s.waiters q).getLast? with
  | none => some s
  | some t =>
    if (s.tasks t).statusHeld then none
    else ((s.setWaiters q (s.waiters q).dropLast).enqueueReady cpu t).map (·.2)

/-- The loop of `wake_all`. -/
def enqueueAll (cpu : Nat) : List Nat → Scheduler → Option Scheduler
  | [], s => some s
  | t :: ts, s => (s.enqueueReady cpu t).bind fun (_, s) => enqueueAll cpu ts s

def wakeAll (cpu q : Nat) : Option Scheduler :=
  enqueueAll cpu (s.waiters q) (s.setWaiters q [])

/-- `exit_current_and_run_next` under the lock of the status of the parent. -/
def wakeParentHeld (t : Nat) : Option Scheduler :=
  match (s.tasks t).parent with
  | none => some s
  | some p =>
    if (s.tasks p).statusHeld then none
    else if (s.tasks p).taskStatus = .Waiting then
      -- `enqueue_ready` takes the lock of the status again, unless the flag is set.
      if (s.tasks p).inRunQueue then some (s.setStatus p .Ready) else none
    else some s

/-- `exit_current_and_run_next` for the current task `t`. -/
def exitTask (cpu t : Nat) (code : Int) : Option Scheduler :=
  if (s.tasks t).statusHeld then none
  else
    let s := (s.setStatus t .Exited).modifyTask t fun task => { task with exitCode := code }
    (s.wakeParentHeld t).map fun s => s.setCurrentTask cpu none

def markKilled (pid : Nat) (code : Int) : Scheduler :=
  ((s.setStatus pid .Exited).modifyTask pid fun task => { task with exitCode := code }).setFlag pid false

/-- The hook wakes the tasks of a wait queue. -/
def runKillHook (cpu : Nat) : Option Scheduler :=
  match s.killHook with
  | none => some s
  | some q => s.wakeAll cpu q

/-- `kill_task`: wake the parent if it waits. -/
def wakeParentOf (cpu t : Nat) : Option Scheduler :=
  match (s.tasks t).parent with
  | none => some s
  | some p =>
    if (s.tasks p).statusHeld then none
    else if (s.tasks p).taskStatus = .Waiting then (s.enqueueReady cpu p).map (·.2)
    else some s

/-- `kill_task`: take the task out of one ready queue. -/
def retainOthers (pid : Nat) (s : Scheduler) (i : Nat) : Scheduler :=
  let queue := (s.queues i).filter (· ≠ pid)
  { s.setQueue i queue with
    readyCounts := Function.update s.readyCounts i (UInt64.ofNat queue.length) }

def killTask (cpu pid : Nat) (code : Int) : Option (Bool × Scheduler) :=
  if s.current cpu = some pid then (s.exitTask cpu pid code).map (true, ·)
  else if pid ∈ s.allTasks then
    if (s.tasks pid).statusHeld then none
    else
      ((s.markKilled pid code).runKillHook cpu).bind fun s => (s.wakeParentOf cpu pid).map fun s =>
        (true, (List.range MAX_CPUS).foldl (retainOthers pid) s)
  else some (false, s)

inductive Op where
  | addTask (loads : Bool)
  | enqueueReady (t : Nat)
  | fetchNextTask (contended : Bool)
  | fetchNextTaskTry (ownContended contended : Bool)
  | killTask (pid : Nat) (code : Int)
  | runTask (t : Nat)
  | suspendTask
  | waitWhile (q : Nat) (condition : Bool)
  | wakeOne (q : Nat)
  | wakeAll (q : Nat)
deriving DecidableEq, Repr

/-- What an operation returns: the task that was fetched, a pid, whether it did something. -/
inductive Answer where
  | fetched (t : Option Nat)
  | pid (t : Option Nat)
  | done (b : Bool)
  | unit
deriving DecidableEq, Repr

def perform (rawCpu : Nat) (op : Op) (s : Scheduler) : Option (Answer × Scheduler) :=
  let cpu := Pmm.currentCpuId rawCpu
  match op with
  | .addTask loads => some (.pid (s.addTask cpu loads).1, (s.addTask cpu loads).2)
  | .enqueueReady t => (s.enqueueReady cpu t).map fun (b, s) => (.done b, s)
  | .fetchNextTask contended => (s.fetchNextTask cpu contended).map fun (t, s) => (.fetched t, s)
  | .fetchNextTaskTry ownContended contended =>
    (s.fetchNextTaskTry cpu ownContended contended).map fun (t, s) => (.fetched t, s)
  | .killTask pid code => (s.killTask cpu pid code).map fun (b, s) => (.done b, s)
  | .runTask t => (s.runTask cpu t).map (.unit, ·)
  | .suspendTask => (s.suspendTask cpu).map (.unit, ·)
  | .waitWhile q condition => (s.waitWhile cpu q condition).map (.unit, ·)
  | .wakeOne q => (s.wakeOne cpu q).map (.unit, ·)
  | .wakeAll q => (s.wakeAll cpu q).map (.unit, ·)

/-- The states reached by operations that satisfy a condition. -/
inductive Performs (ok : Scheduler → Nat → Op → Prop) (init : Scheduler) : Scheduler → Prop
  | init : Performs ok init init
  | step {s s' : Scheduler} (raw : Nat) (op : Op) {a : Answer} (h : Performs ok init s)
      (hok : ok s raw op) (hop : perform raw op s = some (a, s')) : Performs ok init s'

/-- What holds at first and is kept by every operation holds in every state. -/
theorem Performs.invariant {ok : Scheduler → Nat → Op → Prop} {init s : Scheduler}
    {P : Scheduler → Prop} (hinit : P init)
    (hkeep : ∀ {s s' raw op a}, P s → ok s raw op → perform raw op s = some (a, s') → P s')
    (h : Performs ok init s) : P s := by
  induction h with
  | init => exact hinit
  | step _ _ _ hok hop ih => exact hkeep ih hok hop

/-! ## Where a fetch gets its task from -/

section Fetches

variable {s s' : Scheduler} {cpu : Nat} {first : Option Nat} {ownContended contended : Bool}

/-- A fetch takes a task of the own queue, or nothing, or what `steal` takes from the longest other
queue. -/
inductive Fetched (s : Scheduler) (cpu : Nat) (contended : Bool)
    (steal : Nat → Nat → Option (Option Nat × Scheduler)) : Option Nat → Scheduler → Prop
  | own {t s₁} (hfetch : s.fetch cpu = some (t, s₁)) :
      Fetched s cpu contended steal (some t) (s₁.addReady cpu (-1))
  | nothing : Fetched s cpu contended steal none s
  | stolen {i len first s'} (hfetch : s.fetch cpu = none) (hfree : contended = false)
      (hvictim : s.bestVictim cpu = some (i, len)) (hlen : len ≥ 2)
      (hsteal : steal i (toSteal len) = some (first, s')) : Fetched s cpu contended steal first s'

theorem fetchNextTask_fetched (hop : s.fetchNextTask cpu contended = some (first, s')) :
    s.Fetched cpu contended (stealLoop · cpu · none s) first s' := by
  unfold fetchNextTask at hop
  split at hop
  · next hfetch =>
    cases hop
    exact .own hfetch
  · next hfetch =>
    split at hop
    · next hvictim =>
      split at hop
      · next hlen => exact .stolen hfetch (by simpa using hlen.2) hvictim hlen.1 hop
      · cases hop
        exact .nothing
    · cases hop
      exact .nothing

theorem fetchNextTaskTry_fetched
    (hop : s.fetchNextTaskTry cpu ownContended contended = some (first, s')) :
    s.Fetched cpu (ownContended || contended) (stealOneLoop · · s) first s' := by
  unfold fetchNextTaskTry at hop
  split at hop
  · cases hop
    exact .nothing
  · next hown =>
    split at hop
    · next hfetch =>
      cases hop
      exact .own hfetch
    · next hfetch =>
      split at hop
      · next hvictim =>
        split at hop
        · next hlen => exact .stolen hfetch (by simpa [hown] using hlen.2) hvictim hlen.1 hop
        · cases hop
          exact .nothing
      · cases hop
        exact .nothing

end Fetches

/-! ## What `enqueue_ready` keeps, those who call it keep -/

section Keeps

variable {s s' : Scheduler} {cpu t q : Nat} {P : Scheduler → Prop}
  (henqueue : ∀ {s s' t b}, P s → s.enqueueReady cpu t = some (b, s') → P s')
  (hwaiters : ∀ {s q ts}, P s → P (s.setWaiters q ts))

include henqueue in
theorem enqueueAll_keeps (h : P s) (hop : enqueueAll cpu ts s = some s') : P s' := by
  induction ts generalizing s with
  | nil =>
    cases hop
    exact h
  | cons t ts ih =>
    obtain ⟨⟨b, s1⟩, hfirst, hrest⟩ := Option.bind_eq_some_iff.mp hop
    exact ih (henqueue h hfirst) hrest

include henqueue hwaiters

theorem wakeAll_keeps (h : P s) (hop : s.wakeAll cpu q = some s') : P s' :=
  enqueueAll_keeps henqueue (hwaiters h) hop

theorem wakeOne_keeps (h : P s) (hop : s.wakeOne cpu q = some s') : P s' := by
  unfold wakeOne at hop
  split at hop
  · cases hop
    exact h
  · split at hop
    · cases hop
    · obtain ⟨⟨b, s1⟩, hrun, rfl⟩ := Option.map_eq_some_iff.mp hop
      exact henqueue (hwaiters h) hrun

/-- The hook and the parent of a task that is killed. -/
theorem killWakes_keeps (h : P s) (hhook : s.runKillHook cpu = some s1)
    (hparent : s1.wakeParentOf cpu t = some s') : P s' := by
  have h1 : P s1 := by
    unfold runKillHook at hhook
    split at hhook
    · cases hhook
      exact h
    · exact wakeAll_keeps henqueue hwaiters h hhook
  unfold wakeParentOf at hparent
  split at hparent
  · cases hparent
    exact h1
  · split_ifs at hparent
    · obtain ⟨⟨b, s2⟩, hrun, rfl⟩ := Option.map_eq_some_iff.mp hparent
      exact henqueue h1 hrun
    · cases hparent
      exact h1

end Keeps

end Scheduler

end BoruixKernel
