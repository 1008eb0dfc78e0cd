import BoruixKernel.Lib.Interleaving
import BoruixKernel.Pmm.Allocator

/-!
# The scheduler

Tasks, ready queues and wait queues, and the operations of the scheduler cut into their
lock-protected sections.  A section that other CPUs cannot observe half done is one
`Section`, and an operation is the list of its sections; what an operation does next can
depend on what a section found, so running a section yields the sections that follow it.

A task is named by its pid.  What is left out of a task is its memory, its registers and
its open files, and of an operation the hints it gives to other CPUs to reschedule.  A
task that goes on after it was blocked does so by a new call.
-/

namespace BoruixKernel

open Function

inductive TaskStatus where
  | Ready
  | Running
  | Exited
  | Waiting
deriving DecidableEq, Repr

/-- The part of a task control block that the scheduler uses. -/
structure TaskControlBlock where
  taskStatus : TaskStatus
  inRunQueue : Bool
  exitCode : Int
  parent : Option Nat
  children : List Nat
  stride : UInt64
  pass : UInt64
  /-- The lock of `taskStatus` is held for ever, by a CPU that waits for it itself. -/
  statusHeld : Bool
deriving DecidableEq, Repr

/-- A new task: priority 16, so that the stride is 100000 / 16. -/
def TaskControlBlock.new : TaskControlBlock :=
  ⟨.Ready, false, 0, none, [], 6250, 0, false⟩

structure Scheduler where
  tasks : Nat → TaskControlBlock
  /-- The ready queue of each CPU. -/
  queues : Nat → List Nat
  readyCounts : Nat → UInt64
  current : Nat → Option Nat
  waiters : Nat → List Nat
  allTasks : List Nat
  nextPid : Nat
  cpuCount : Nat
  /-- The wait queue that `kill_task` wakes through its hook. -/
  killHook : Option Nat

/-- The lock-protected sections of the operations. -/
inductive Section where
  /-- `add_task`: take a new pid, and make the task if its program loads. -/
  | newTask (loads : Bool)
  /-- `add_task`: put the task in the list of all tasks. -/
  | register (t : Nat)
  /-- `sys_fork`: make a child of the current task, if its memory can be copied. -/
  | fork (copied : Bool)
  /-- `enqueue_ready`: claim the flag. -/
  | swapFlag (t : Nat)
  /-- `enqueue_ready`: under the lock of the status. -/
  | markReady (t : Nat)
  /-- `TaskManager::add` under the lock of the ready queue. -/
  | pushReady (t : Nat)
  | incReady
  /-- `fetch_next_task` on the own queue; whether the lock of a victim will be taken. -/
  | fetchLocal (contended : Bool)
  /-- `fetch_next_task`: the search for the most loaded CPU. -/
  | pickVictim (contended : Bool)
  /-- `fetch_next_task` under the locks of both queues. -/
  | steal (victim : Nat) (bestLen : UInt64)
  /-- `set_current_task`: under the lock of the status. -/
  | markRunning (t : Nat)
  /-- `set_current_task`: under the lock of the processor. -/
  | setCurrent (t : Nat)
  | clearCurrent
  | suspendCurrent
  /-- `WaitQueue::wait_while`, with the value of the condition. -/
  | waitWhile (q : Nat) (condition : Bool)
  | markWaiting (t : Nat)
  | clearFlag (t : Nat)
  | pushWaiter (q t : Nat)
  | wakeOne (q : Nat)
  | wakeAll (q : Nat)
  /-- `sys_waitpid` under the lock of the children. -/
  | waitpid (pid : Int)
  | exitCurrent (code : Int)
  | markExited (t : Nat)
  | setExitCode (t : Nat) (code : Int)
  /-- `exit_current_and_run_next` under the lock of the status of the parent. -/
  | wakeParentLocked (t : Nat)
  /-- A CPU that waits for a lock it holds. -/
  | deadlock
  | kill (pid : Nat) (code : Int)
  /-- `kill_task`: look at the status of the parent. -/
  | wakeParent (t : Nat)
  /-- `kill_task` under the lock of one ready queue. -/
  | retain (pid cpu : Nat)
deriving DecidableEq, Repr

namespace Scheduler

variable (s : Scheduler)

def modifyTask (t : Nat) (f : TaskControlBlock → TaskControlBlock) : Scheduler :=
  { s with tasks := update s.tasks t (f (s.tasks t)) }

def setQueue (cpu : Nat) (queue : List Nat) : Scheduler :=
  { s with queues := update s.queues cpu queue }

def setStatus (t : Nat) (status : TaskStatus) : Scheduler :=
  s.modifyTask t fun task => { task with taskStatus := status }

def setFlag (t : Nat) (flag : Bool) : Scheduler :=
  s.modifyTask t fun task => { task with inRunQueue := flag }

def add (cpu t : Nat) : Scheduler := s.setQueue cpu (s.queues cpu ++ [t])

/-- The counters wrap around. -/
def addReady (cpu : Nat) (n : UInt64) : Scheduler :=
  { s with readyCounts := update s.readyCounts cpu (s.readyCounts cpu + n) }

def setCurrentTask (cpu : Nat) (t : Option Nat) : Scheduler :=
  { s with current := update s.current cpu t }

def setWaiters (q : Nat) (ts : List Nat) : Scheduler :=
  { s with waiters := update s.waiters q ts }

/-! ## Taking a task from a queue -/

/-- The loop of `TaskManager::fetch`: the index of the first task with the least pass,
where a pass of `u64::MAX` is never less. -/
def minPassIdx (s : Scheduler) : List Nat → Nat → UInt64 → Nat → Nat
  | [], _, _, minIdx => minIdx
  | t :: queue, idx, minPass, minIdx =>
    let pass := (s.tasks t).pass
    if pass < minPass then s.minPassIdx queue (idx + 1) pass idx
    else s.minPassIdx queue (idx + 1) minPass minIdx

def fetch (cpu : Nat) : Option (Nat × Scheduler) :=
  let queue := s.queues cpu
  let idx := s.minPassIdx queue 0 0xFFFFFFFFFFFFFFFF 0
  queue[idx]?.map fun t =>
    (t, (s.setQueue cpu (queue.eraseIdx idx)).modifyTask t fun task =>
      { task with inRunQueue := false, pass := task.pass + task.stride })

/-- The search for a victim: the first of the most loaded CPUs. -/
def bestVictim (cpu : Nat) : Option (Nat × UInt64) :=
  (List.range (min s.cpuCount MAX_CPUS)).foldl (fun best i =>
    let len := s.readyCounts i
    if i ≠ cpu ∧ len > (best.map (·.2)).getD 0 then some (i, len) else best) none

/-- The loop that moves tasks of the victim: the first one is handed out, the others go
to the own queue, and one that is not ready goes back. -/
def stealLoop (victim cpu : Nat) : Nat → Option Nat → Scheduler → Option (Option Nat × Scheduler)
  | 0, first, s => some (first, s)
  | n + 1, first, s =>
    match s.fetch victim with
    | none => some (first, s)
    | some (t, s) =>
      let s := s.addReady victim (-1)
      if (s.tasks t).statusHeld then none
      else if (s.tasks t).taskStatus = .Ready then
        match first with
        | none => stealLoop victim cpu n (some t) s
        | some first => stealLoop victim cpu n (some first) ((s.add cpu t).addReady cpu 1)
      else stealLoop victim cpu n first ((s.add victim t).addReady victim 1)

/-- What each round of the stealing loop keeps, the loop keeps. -/
theorem stealLoop_keeps {victim cpu n : Nat} {P : Option Nat → Scheduler → Prop}
    (hhand : ∀ {s s1 : Scheduler} {t : Nat}, P none s → s.fetch victim = some (t, s1) →
      (s1.tasks t).taskStatus = .Ready → P (some t) (s1.addReady victim (-1)))
    (hmove : ∀ {s s1 : Scheduler} {t u : Nat}, P (some u) s → s.fetch victim = some (t, s1) →
      (s1.tasks t).taskStatus = .Ready →
        P (some u) (((s1.addReady victim (-1)).add cpu t).addReady cpu 1))
    (hback : ∀ {s s1 : Scheduler} {t : Nat} {first : Option Nat}, P first s →
      s.fetch victim = some (t, s1) → (s1.tasks t).taskStatus ≠ .Ready →
        P first (((s1.addReady victim (-1)).add victim t).addReady victim 1))
    {s s' : Scheduler} {first first' : Option Nat} (h : P first s)
    (hsteal : stealLoop victim cpu n first s = some (first', s')) : P first' s' := by
  induction n generalizing first s with
  | zero =>
    cases hsteal
    exact h
  | succ n ih =>
    rw [stealLoop] at hsteal
    split at hsteal
    · cases hsteal
      exact h
    · next t s1 hfetch =>
      dsimp only at hsteal
      split at hsteal
      · cases hsteal
      · split at hsteal
        · next hready =>
          split at hsteal
          · exact ih (hhand h hfetch hready) hsteal
          · exact ih (hmove h hfetch hready) hsteal
        · next hready => exact ih (hback h hfetch hready) hsteal

/-! ## Operations -/

/-- What `run_tasks` does with a task it fetched. -/
def dispatch (t : Nat) : List Section := [.markRunning t, .setCurrent t]

/-- `schedule` switches to the idle loop, which clears the current task once more. -/
def switchToIdle : List Section := [.clearCurrent]

/-- The child that `sys_waitpid` reports: the first one that matches and has exited. -/
def exitedChild (pid : Int) (children : List Nat) : Option Nat :=
  children.find? fun c => (pid = -1 ∨ (c : Int) = pid) ∧ (s.tasks c).taskStatus = .Exited

/-- The sections of `exit_current_and_run_next` for a task. -/
def exitSections (t : Nat) (code : Int) : List Section :=
  [.markExited t, .setExitCode t code, .wakeParentLocked t, .clearCurrent] ++ switchToIdle

/-- The sections of `kill_task` for a task that is not the current one. -/
def killSections (pid : Nat) (code : Int) : List Section :=
  [.markExited pid, .setExitCode pid code, .clearFlag pid] ++ (s.killHook.map Section.wakeAll).toList ++
    [.wakeParent pid] ++ (List.range MAX_CPUS).map (.retain pid)

/-- What a section does on a CPU. -/
def exec (rawCpu : Nat) (sec : Section) (s : Scheduler) : Option (Scheduler × List Section) :=
  let cpu := Pmm.currentCpuId rawCpu
  match sec with
  | .newTask loads =>
    let pid := s.nextPid
    if loads then
      some ({ s.modifyTask pid (fun _ => .new) with nextPid := pid + 1 },
        [.register pid, .pushReady pid, .incReady])
    else some ({ s with nextPid := pid + 1 }, [])
  | .register t =>
    some ({ s with allTasks := if t ∈ s.allTasks then s.allTasks else s.allTasks ++ [t] }, [])
  | .fork copied =>
    match s.current cpu with
    | none => some (s, [])
    | some p =>
      let pid := s.nextPid
      if copied then
        let child : TaskControlBlock := { TaskControlBlock.new with
          parent := some p, stride := (s.tasks p).stride, pass := (s.tasks p).pass }
        let s := s.modifyTask p fun task => { task with children := task.children ++ [pid] }
        some ({ s.modifyTask pid (fun _ => child) with nextPid := pid + 1 }, [.swapFlag pid])
      else some ({ s with nextPid := pid + 1 }, [])
  | .swapFlag t =>
    if (s.tasks t).inRunQueue then some (s, []) else some (s.setFlag t true, [.markReady t])
  | .markReady t =>
    if (s.tasks t).statusHeld then none
    else if (s.tasks t).taskStatus = .Exited then some (s.setFlag t false, [])
    else some (s.setStatus t .Ready, [.pushReady t, .incReady])
  | .pushReady t => some (s.add cpu t, [])
  | .incReady => some (s.addReady cpu 1, [])
  | .fetchLocal contended =>
    match s.fetch cpu with
    | some (t, s) => some (s.addReady cpu (-1), dispatch t)
    | none => some (s, [.pickVictim contended])
  | .pickVictim contended =>
    match s.bestVictim cpu with
    | some (i, len) => some (s, if len ≥ 2 ∧ !contended then [.steal i len] else [])
    | none => some (s, [])
  | .steal victim bestLen =>
    let toSteal := if bestLen / 2 = 0 then 1 else bestLen / 2
    (stealLoop victim cpu toSteal.toNat none s).map fun (first, s) =>
      (s, match first with
        | some t => dispatch t
        | none => [])
  | .markRunning t =>
    if (s.tasks t).statusHeld then none else some (s.setStatus t .Running, [])
  | .setCurrent t => some (s.setCurrentTask cpu (some t), [])
  | .clearCurrent => some (s.setCurrentTask cpu none, [])
  | .suspendCurrent =>
    match s.current cpu with
    | none => some (s, [])
    | some t => some (s, [.swapFlag t, .clearCurrent] ++ switchToIdle)
  | .waitWhile q condition =>
    match s.current cpu with
    | none => some (s, [])
    | some t =>
      some (s, if condition then
        [.markWaiting t, .clearFlag t, .pushWaiter q t, .clearCurrent] ++ switchToIdle
      else [])
  | .markWaiting t =>
    if (s.tasks t).statusHeld then none else some (s.setStatus t .Waiting, [])
  | .clearFlag t => some (s.setFlag t false, [])
  | .pushWaiter q t =>
    let ts := s.waiters q
    some (s.setWaiters q (if t ∈ ts then ts else ts ++ [t]), [])
  | .wakeOne q =>
    match (s.waiters q).getLast? with
    | none => some (s, [])
    | some t =>
      if (s.tasks t).statusHeld then none
      else some (s.setWaiters q (s.waiters q).dropLast, [.swapFlag t])
  | .wakeAll q => some (s.setWaiters q [], (s.waiters q).map .swapFlag)
  | .waitpid pid =>
    match s.current cpu with
    | none => some (s, [])
    | some t =>
      let children := (s.tasks t).children
      match s.exitedChild pid children with
      | some c =>
        some (s.modifyTask t fun task => { task with children := children.erase c }, [])
      | none =>
        if children.any fun c => pid = -1 ∨ (c : Int) = pid then
          if (s.tasks t).statusHeld then none
          else some (s.setStatus t .Waiting, switchToIdle)
        else some (s, [])
  | .exitCurrent code =>
    match s.current cpu with
    | none => some (s, [])
    | some t => some (s, exitSections t code)
  | .markExited t =>
    if (s.tasks t).statusHeld then none else some (s.setStatus t .Exited, [])
  | .setExitCode t code => some (s.modifyTask t fun task => { task with exitCode := code }, [])
  | .wakeParentLocked t =>
    match (s.tasks t).parent with
    | none => some (s, [])
    | some p =>
      if (s.tasks p).statusHeld then none
      else if (s.tasks p).taskStatus = .Waiting then
        -- `enqueue_ready` takes the lock of the status again, unless the flag is set.
        if (s.tasks p).inRunQueue then some (s.setStatus p .Ready, [])
        else some (s.modifyTask p fun task =>
          { task with taskStatus := .Ready, inRunQueue := true, statusHeld := true }, [.deadlock])
      else some (s, [])
  | .deadlock => none
  | .kill pid code =>
    if s.current cpu = some pid then some (s, exitSections pid code)
    else if pid ∈ s.allTasks then some (s, s.killSections pid code)
    else some (s, [])
  | .wakeParent t =>
    match (s.tasks t).parent with
    | none => some (s, [])
    | some p =>
      if (s.tasks p).statusHeld then none
      else some (s, if (s.tasks p).taskStatus = .Waiting then [.swapFlag p] else [])
  | .retain pid i =>
    let queue := (s.queues i).filter (· ≠ pid)
    some ({ s.setQueue i queue with
      readyCounts := update s.readyCounts i (UInt64.ofNat queue.length) }, [])

/-! ## What a section can do -/

/-- Sections that look for something to do, and may find nothing. -/
def Looks : Section → Prop
  | .fork _ | .swapFlag _ | .pickVictim _ | .suspendCurrent | .waitWhile .. | .wakeOne _ | .waitpid _
  | .exitCurrent _ | .wakeParentLocked _ | .kill .. | .wakeParent _ => True
  | _ => False

/-- The sections that change a task: how they change it, and what follows. -/
inductive Changes (cpu : Nat) (s : Scheduler) :
    Section → Nat → (TaskControlBlock → TaskControlBlock) → List Section → Prop
  | setFlag {t} (h : (s.tasks t).inRunQueue = false) : Changes cpu s (.swapFlag t) t
      (fun task => { task with inRunQueue := true }) [.markReady t]
  | exitedFlag {t} : Changes cpu s (.markReady t) t (fun task => { task with inRunQueue := false }) []
  | ready {t} (h : (s.tasks t).taskStatus ≠ .Exited) : Changes cpu s (.markReady t) t
      (fun task => { task with taskStatus := .Ready }) [.pushReady t, .incReady]
  | running {t} : Changes cpu s (.markRunning t) t (fun task => { task with taskStatus := .Running }) []
  | waiting {t} : Changes cpu s (.markWaiting t) t (fun task => { task with taskStatus := .Waiting }) []
  | exited {t} : Changes cpu s (.markExited t) t (fun task => { task with taskStatus := .Exited }) []
  | clearFlag {t} : Changes cpu s (.clearFlag t) t (fun task => { task with inRunQueue := false }) []
  | exitCode {t code} : Changes cpu s (.setExitCode t code) t (fun task => { task with exitCode := code }) []
  | reaped {pid t c} (h : s.exitedChild pid (s.tasks t).children = some c) : Changes cpu s (.waitpid pid) t
      (fun task => { task with children := (s.tasks t).children.erase c }) []
  | waitpid {pid t} (h : s.current cpu = some t) : Changes cpu s (.waitpid pid) t
      (fun task => { task with taskStatus := .Waiting }) switchToIdle
  | parent {t p} (hp : (s.tasks t).parent = some p) (h : (s.tasks p).taskStatus = .Waiting) :
      Changes cpu s (.wakeParentLocked t) p (fun task => { task with taskStatus := .Ready }) []
  | parentLocked {t p} (hp : (s.tasks t).parent = some p) (h : (s.tasks p).taskStatus = .Waiting) :
      Changes cpu s (.wakeParentLocked t) p (fun task =>
        { task with taskStatus := .Ready, inRunQueue := true, statusHeld := true }) [.deadlock]

/-- What a section does, with one case for each way it can go. -/
inductive Effect (cpu : Nat) (s : Scheduler) : Section → Scheduler → List Section → Prop
  | idle {sec} (h : Looks sec) : Effect cpu s sec s []
  | change {sec t f next} (h : Changes cpu s sec t f next) : Effect cpu s sec (s.modifyTask t f) next
  | newTask : Effect cpu s (.newTask true)
      { s.modifyTask s.nextPid (fun _ => .new) with nextPid := s.nextPid + 1 }
      [.register s.nextPid, .pushReady s.nextPid, .incReady]
  | fork {p} (h : s.current cpu = some p) : Effect cpu s (.fork true)
      { (s.modifyTask p fun task => { task with children := task.children ++ [s.nextPid] }).modifyTask
          s.nextPid (fun _ => { TaskControlBlock.new with
            parent := some p, stride := (s.tasks p).stride, pass := (s.tasks p).pass }) with
        nextPid := s.nextPid + 1 } [.swapFlag s.nextPid]
  | skipPid {sec} (h : sec = .newTask false ∨ sec = .fork false) :
      Effect cpu s sec { s with nextPid := s.nextPid + 1 } []
  | register {t} : Effect cpu s (.register t)
      { s with allTasks := if t ∈ s.allTasks then s.allTasks else s.allTasks ++ [t] } []
  | pushReady {t} : Effect cpu s (.pushReady t) (s.add cpu t) []
  | incReady : Effect cpu s .incReady (s.addReady cpu 1) []
  | fetched {b t s'} (h : s.fetch cpu = some (t, s')) :
      Effect cpu s (.fetchLocal b) (s'.addReady cpu (-1)) (dispatch t)
  | noneReady {b} : Effect cpu s (.fetchLocal b) s [.pickVictim b]
  | victim {b i len} (h : s.bestVictim cpu = some (i, len)) :
      Effect cpu s (.pickVictim b) s [.steal i len]
  | steal {victim len n first s'} (h : stealLoop victim cpu n none s = some (first, s')) :
      Effect cpu s (.steal victim len) s' (first.elim [] dispatch)
  | setCurrent {t} : Effect cpu s (.setCurrent t) (s.setCurrentTask cpu (some t)) []
  | clearCurrent : Effect cpu s .clearCurrent (s.setCurrentTask cpu none) []
  | suspend {t} (h : s.current cpu = some t) :
      Effect cpu s .suspendCurrent s ([.swapFlag t, .clearCurrent] ++ switchToIdle)
  | waitWhile {q b t} (h : s.current cpu = some t) : Effect cpu s (.waitWhile q b) s
      ([.markWaiting t, .clearFlag t, .pushWaiter q t, .clearCurrent] ++ switchToIdle)
  | pushWaiter {q t} : Effect cpu s (.pushWaiter q t)
      (s.setWaiters q (if t ∈ s.waiters q then s.waiters q else s.waiters q ++ [t])) []
  | wakeOne {q t} (h : (s.waiters q).getLast? = some t) :
      Effect cpu s (.wakeOne q) (s.setWaiters q (s.waiters q).dropLast) [.swapFlag t]
  | wakeAll {q} : Effect cpu s (.wakeAll q) (s.setWaiters q []) ((s.waiters q).map .swapFlag)
  | exit {sec t code} (hsec : sec = .exitCurrent code ∨ sec = .kill t code) (h : s.current cpu = some t) :
      Effect cpu s sec s (exitSections t code)
  | kill {pid code} (hne : s.current cpu ≠ some pid) (h : pid ∈ s.allTasks) :
      Effect cpu s (.kill pid code) s (s.killSections pid code)
  | wakeParent {t p} (h : (s.tasks t).parent = some p) : Effect cpu s (.wakeParent t) s [.swapFlag p]
  | retain {pid i} : Effect cpu s (.retain pid i)
      { s.setQueue i ((s.queues i).filter (· ≠ pid)) with
        readyCounts := update s.readyCounts i
          (UInt64.ofNat ((s.queues i).filter (· ≠ pid)).length) } []

theorem exec_effect {s s' : Scheduler}
    (h : exec raw sec s = some (s', next)) : Effect (Pmm.currentCpuId raw) s sec s' next := by
  cases sec with
  | newTask loads => cases loads <;> cases h <;> first | exact .newTask | exact .skipPid (.inl rfl)
  | fork copied =>
    simp only [exec] at h
    split at h
    · cases h
      exact .idle trivial
    · next hp =>
      cases copied <;> cases h
      · exact .skipPid (.inr rfl)
      · exact .fork hp
  | swapFlag t =>
    simp only [exec] at h
    split at h <;> cases h
    · exact .idle trivial
    · next hflag => exact .change (.setFlag (by simpa using hflag))
  | markReady t =>
    simp only [exec] at h
    split_ifs at h with _ hexited <;> cases h
    · exact .change .exitedFlag
    · exact .change (.ready hexited)
  | fetchLocal b =>
    simp only [exec] at h
    split at h <;> cases h
    · next hfetch => exact .fetched hfetch
    · exact .noneReady
  | pickVictim b =>
    simp only [exec] at h
    split at h <;> cases h
    · next hvictim =>
      split
      · exact .victim hvictim
      · exact .idle trivial
    · exact .idle trivial
  | steal victim len =>
    obtain ⟨⟨first, s1⟩, hsteal, ⟨⟩⟩ := Option.map_eq_some_iff.mp h
    cases first <;> exact .steal hsteal
  | suspendCurrent =>
    simp only [exec] at h
    split at h <;> cases h
    · exact .idle trivial
    · next ht => exact .suspend ht
  | waitWhile q b =>
    simp only [exec] at h
    split at h <;> cases h
    · exact .idle trivial
    · next ht =>
      split
      · exact .waitWhile ht
      · exact .idle trivial
  | wakeOne q =>
    simp only [exec] at h
    split at h
    · cases h
      exact .idle trivial
    · next ht =>
      split at h <;> cases h
      exact .wakeOne ht
  | waitpid pid =>
    simp only [exec] at h
    split at h
    · cases h
      exact .idle trivial
    · next ht =>
      split at h
      · next hc =>
        cases h
        exact .change (.reaped hc)
      · split_ifs at h <;> cases h
        · exact .change (.waitpid ht)
        · exact .idle trivial
  | exitCurrent code =>
    simp only [exec] at h
    split at h <;> cases h
    · exact .idle trivial
    · next ht => exact .exit (.inl rfl) ht
  | wakeParentLocked t =>
    simp only [exec] at h
    split at h
    · cases h
      exact .idle trivial
    · next hp =>
      split_ifs at h with _ hwaiting <;> cases h
      · exact .change (.parent hp hwaiting)
      · exact .change (.parentLocked hp hwaiting)
      · exact .idle trivial
  | kill pid code =>
    simp only [exec] at h
    split_ifs at h with ht hall <;> cases h
    · exact .exit (.inr rfl) ht
    · exact .kill ht hall
    · exact .idle trivial
  | wakeParent t =>
    simp only [exec] at h
    split at h
    · cases h
      exact .idle trivial
    · next hp =>
      split_ifs at h <;> cases h
      · exact .wakeParent hp
      · exact .idle trivial
  | markRunning t | markWaiting t | markExited t =>
    simp only [exec] at h
    split at h <;> cases h
    exact .change (by constructor)
  | clearFlag t | setExitCode t code =>
    cases h
    exact .change (by constructor)
  | register | pushReady | incReady | setCurrent | clearCurrent | pushWaiter | wakeAll | retain =>
    cases h
    constructor
  | deadlock => cases h

/-! ## Runs -/

/-- The operations that a CPU may begin: their first sections.  `enqueue_ready` is called
for a task that exists. -/
def IsCall : Section → Prop
  | .newTask _ | .fork _ | .fetchLocal _ | .suspendCurrent | .waitWhile .. | .wakeOne _ | .wakeAll _
  | .waitpid _ | .exitCurrent _ | .kill .. => True
  | .swapFlag t => t < s.nextPid
  | _ => False

instance (sec : Section) : Decidable (s.IsCall sec) := by
  cases sec <;> unfold IsCall <;> infer_instance

/-- The scheduler before the first task: pids start at 1. -/
def boot (cpuCount : Nat) (killHook : Option Nat) : Scheduler where
  tasks _ := .new
  queues _ := []
  readyCounts _ := 0
  current _ := none
  waiters _ := []
  allTasks := []
  nextPid := 1
  cpuCount
  killHook

end Scheduler

end BoruixKernel
