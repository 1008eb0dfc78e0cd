import BoruixKernel.Task.ReadyCounts

/-!
# The flag of tasks in a ready queue

`in_run_queue` is to be set for the tasks in the ready queues.  `enqueue_ready` and a fetch
from the own queue keep to that.  `add_task` puts a task into a queue and leaves the flag
clear, stealing clears the flag of tasks that it moves to another queue or puts back, and
`wait_while` clears the flag of the current task even if it has been enqueued.  Without these
the flag counts the places of a task in the queues, of which there is at most one.
-/

namespace BoruixKernel

open Option Multiset

namespace Scheduler

/-- The flag says which tasks are in a ready queue. -/
def FlagsAccurate (s : Scheduler) : Prop :=
  ∀ t, (s.tasks t).inRunQueue = true ↔ ∃ i < MAX_CPUS, t ∈ s.queues i

/-- No task is added, only tasks that are ready are stolen, no more than one at a time, and
no task waits that is in a ready queue. -/
def KeepsFlags (s : Scheduler) (raw : Nat) : Op → Prop
  | .addTask loads => loads = false
  | .fetchNextTask contended =>
    s.queues (Pmm.currentCpuId raw) = [] → contended = false →
      ∀ v ∈ s.bestVictim (Pmm.currentCpuId raw), v.2 ≥ 2 →
        v.2 < 4 ∧ ∀ p ∈ s.fetch v.1, (s.tasks p.1).taskStatus = .Ready
  | .fetchNextTaskTry ownContended contended =>
    ownContended = false → s.queues (Pmm.currentCpuId raw) = [] → contended = false →
      ∀ v ∈ s.bestVictim (Pmm.currentCpuId raw), v.2 ≥ 2 →
        ∀ p ∈ s.fetch v.1, (s.tasks p.1).taskStatus = .Ready
  | .waitWhile _ condition =>
    condition = true → ∀ t ∈ s.current (Pmm.currentCpuId raw), (s.tasks t).inRunQueue = false
  | _ => True

instance (s : Scheduler) (raw : Nat) (op : Op) : Decidable (s.KeepsFlags raw op) := by
  cases op <;> unfold KeepsFlags <;> infer_instance

def places (s : Scheduler) (t : Nat) : Nat := if (s.tasks t).inRunQueue then 1 else 0

/-- The flag counts the places of each task. -/
def FlagInv (s : Scheduler) : Prop := ∀ t, s.readyTasks.count t = s.places t

variable {s s' : Scheduler} {cpu t pid victim : Nat}

theorem mem_readyTasks : t ∈ s.readyTasks ↔ ∃ i < MAX_CPUS, t ∈ s.queues i := by
  simp [readyTasks, mem_sum]

theorem FlagInv.accurate (h : s.FlagInv) : s.FlagsAccurate := by
  intro t
  rw [← mem_readyTasks, ← count_pos, h t, places]
  split <;> simp_all

theorem FlagInv.boot (cpuCount : Nat) (killHook : Option Nat) : (boot cpuCount killHook).FlagInv := by
  intro t
  have hempty : (Scheduler.boot cpuCount killHook).readyTasks = 0 := Finset.sum_eq_zero fun _ _ => rfl
  rw [hempty]
  rfl

/-! ## Operations that change queues and flags together -/

/-- Each task gets as many places as its flag says. -/
def SamePlaces (s s' : Scheduler) : Prop :=
  ∀ t, s'.readyTasks.count t + s.places t = s.readyTasks.count t + s'.places t

theorem SamePlaces.flagInv (h : s.SamePlaces s') (hs : s.FlagInv) : s'.FlagInv := by
  intro t
  have := h t
  have := hs t
  omega

theorem SamePlaces.trans (h : s.SamePlaces s') (h' : s'.SamePlaces s'') : s.SamePlaces s'' := by
  intro t
  have := h t
  have := h' t
  omega

/-- Neither queues nor flags are touched. -/
theorem SamePlaces.of_eq (hqueues : s'.queues = s.queues)
    (hflags : ∀ t, (s'.tasks t).inRunQueue = (s.tasks t).inRunQueue) : s.SamePlaces s' := by
  intro t
  unfold readyTasks places
  rw [hqueues, hflags]

theorem FlagInv.of_eq (h : s.FlagInv) (hqueues : s'.queues = s.queues)
    (hflags : ∀ t, (s'.tasks t).inRunQueue = (s.tasks t).inRunQueue) : s'.FlagInv :=
  (SamePlaces.of_eq hqueues hflags).flagInv h

theorem inRunQueue_modifyTask (hf : (f (s.tasks t)).inRunQueue = (s.tasks t).inRunQueue) (u : Nat) :
    ((s.modifyTask t f).tasks u).inRunQueue = (s.tasks u).inRunQueue := by
  unfold modifyTask
  by_cases hu : u = t
  · subst hu
    simp [Function.update_self, hf]
  · simp [Function.update_of_ne hu]

theorem SamePlaces.enqueueReady (hcpu : cpu < MAX_CPUS)
    (hop : s.enqueueReady cpu t = some (b, s')) : s.SamePlaces s' := by
  unfold Scheduler.enqueueReady at hop
  split at hop
  · cases hop
    exact .of_eq rfl fun _ => rfl
  · next hflag =>
    dsimp only at hop
    split_ifs at hop <;> cases hop
    · refine .of_eq rfl fun u => ?_
      by_cases hu : u = t
      · subst hu
        simp [setFlag, Scheduler.modifyTask, hflag]
      · simp [setFlag, Scheduler.modifyTask, hu]
    · intro u
      rw [readyTasks_push hcpu, count_add, count_singleton]
      have hready : ((s.setFlag t true).setStatus t .Ready).readyTasks = s.readyTasks := rfl
      rw [hready]
      unfold places
      by_cases hu : u = t
      · subst hu
        simp [setFlag, setStatus, Scheduler.modifyTask, add, setQueue, addReady, hflag, add_comm]
      · simp [setFlag, setStatus, Scheduler.modifyTask, add, setQueue, addReady, hu]

theorem SamePlaces.exitTask (hop : s.exitTask cpu t code = some s') : s.SamePlaces s' := by
  unfold Scheduler.exitTask at hop
  split at hop
  · cases hop
  · obtain ⟨s1, hwake, rfl⟩ := map_eq_some_iff.mp hop
    refine .of_eq (wakeParentHeld_frame hwake).1 fun u => ?_
    have hmarked : (((s.setStatus t .Exited).modifyTask t fun task =>
        { task with exitCode := code }).tasks u).inRunQueue = (s.tasks u).inRunQueue :=
      (inRunQueue_modifyTask rfl u).trans (inRunQueue_modifyTask rfl u)
    refine Eq.trans ?_ hmarked
    change (s1.tasks u).inRunQueue = _
    unfold wakeParentHeld at hwake
    split at hwake
    · cases hwake
      rfl
    · split_ifs at hwake <;> cases hwake
      · exact inRunQueue_modifyTask rfl u
      · rfl

/-! ## A task that is killed -/

/-- The task has exited, with its flag clear. -/
def ExitedOut (s : Scheduler) (pid : Nat) : Prop :=
  (s.tasks pid).taskStatus = .Exited ∧ (s.tasks pid).inRunQueue = false

theorem ExitedOut.enqueueReady (h : s.ExitedOut pid) (hop : s.enqueueReady cpu t = some (b, s')) :
    s'.ExitedOut pid := by
  unfold Scheduler.enqueueReady at hop
  split at hop
  · cases hop
    exact h
  · dsimp only at hop
    by_cases hpid : pid = t
    · subst hpid
      have hexited : ((s.setFlag pid true).tasks pid).taskStatus = .Exited := by
        simpa [setFlag, modifyTask] using h.1
      rw [if_pos hexited] at hop
      split at hop <;> cases hop
      simpa [ExitedOut, setFlag, modifyTask] using h.1
    · split_ifs at hop <;> cases hop <;>
        simpa [ExitedOut, setFlag, setStatus, modifyTask, add, setQueue, addReady, hpid] using h

theorem markKilled_exitedOut : (s.markKilled pid code).ExitedOut pid := by
  simp [ExitedOut, markKilled, setFlag, setStatus, modifyTask]

theorem queues_retainOthers (l : List Nat) (i : Nat) : (l.foldl (retainOthers pid) s).queues i =
      if i ∈ l then (s.queues i).filter (· ≠ pid) else s.queues i := by
  induction l generalizing s with
  | nil => rfl
  | cons j l ih =>
    rw [List.foldl_cons, ih]
    by_cases hi : i = j
    · subst hi
      simp [retainOthers, setQueue]
    · simp [retainOthers, setQueue, hi]

theorem tasks_retainOthers (l : List Nat) : (l.foldl (retainOthers pid) s).tasks = s.tasks := by
  induction l generalizing s with
  | nil => rfl
  | cons j l ih =>
    rw [List.foldl_cons, ih]
    rfl

theorem count_readyTasks : s.readyTasks.count t = s.queued t := by
  unfold readyTasks queued
  rw [count_sum']
  simp

/-- The task is taken out of all queues, and the others stay. -/
theorem count_retainOthers (t : Nat) :
    ((List.range MAX_CPUS).foldl (retainOthers pid) s).readyTasks.count t =
      if t = pid then 0 else s.readyTasks.count t := by
  have hqueue : ∀ i ∈ Finset.range MAX_CPUS,
      (((List.range MAX_CPUS).foldl (retainOthers pid) s).queues i).count t =
        if t = pid then 0 else (s.queues i).count t := by
    intro i hi
    rw [queues_retainOthers, if_pos (List.mem_range.mpr (Finset.mem_range.mp hi))]
    split
    · next heq =>
      subst heq
      exact List.count_eq_zero.mpr (by simp)
    · next hne => exact List.count_filter (by simpa using hne)
  rw [count_readyTasks, count_readyTasks, queued, Finset.sum_congr rfl hqueue]
  split
  · exact Finset.sum_eq_zero fun _ _ => rfl
  · rfl

theorem FlagInv.killTask (h : s.FlagInv) (hcpu : cpu < MAX_CPUS)
    (hop : s.killTask cpu pid code = some (b, s')) : s'.FlagInv := by
  unfold Scheduler.killTask at hop
  split at hop
  · obtain ⟨s1, hexit, ⟨⟩⟩ := map_eq_some_iff.mp hop
    exact (SamePlaces.exitTask hexit).flagInv h
  · split at hop
    · split at hop
      · cases hop
      · obtain ⟨s1, hhook, hop⟩ := bind_eq_some_iff.mp hop
        obtain ⟨s2, hparent, ⟨⟩⟩ := map_eq_some_iff.mp hop
        have hsame : (s.markKilled pid code).SamePlaces s2 :=
          killWakes_keeps (fun hs hop => hs.trans (.enqueueReady hcpu hop)) id (fun _ => rfl) hhook hparent
        have hout : s2.ExitedOut pid := killWakes_keeps (P := (·.ExitedOut pid)) .enqueueReady id
          markKilled_exitedOut hhook hparent
        intro t
        rw [count_retainOthers, places, tasks_retainOthers]
        by_cases ht : t = pid
        · rw [if_pos ht, ht, hout.2]
          rfl
        · -- The others have in the state with the task marked what they had before.
          have hbefore : (s.markKilled pid code).places t = s.places t := by
            simp [places, markKilled, setFlag, setStatus, modifyTask, ht]
          have hcount : (s.markKilled pid code).readyTasks = s.readyTasks := rfl
          have hafter := hsame t
          rw [hbefore, hcount, h t, add_comm] at hafter
          rw [if_neg ht]
          exact Nat.add_left_cancel hafter
    · cases hop
      exact h

/-! ## Fetches -/

/-- A task that is fetched had one place, and has none. -/
theorem FlagInv.fetch (h : s.FlagInv) (hcpu : cpu < MAX_CPUS) (hfetch : s.fetch cpu = some (t, s'))
    (n : UInt64) : (s'.addReady cpu n).FlagInv := by
  have hready := readyTasks_fetch hcpu hfetch
  have hflag : ∀ u, (s'.tasks u).inRunQueue = if u = t then false else (s.tasks u).inRunQueue := by
    intro u
    unfold Scheduler.fetch at hfetch
    obtain ⟨v, -, ⟨⟩⟩ := map_eq_some_iff.mp hfetch
    by_cases hu : u = t
    · subst hu
      simp [modifyTask]
    · simp [modifyTask, setQueue, hu]
  intro u
  have hu := h u
  rw [hready, count_add, count_singleton] at hu
  rw [readyTasks_addReady]
  change _ = if (s'.tasks u).inRunQueue then 1 else 0
  rw [hflag]
  unfold places at hu
  by_cases hut : u = t
  · simp only [hut, if_true] at hu ⊢
    split at hu <;> simp_all
  · simpa [hut] using hu

section Steal

variable (h : s.FlagInv) (hvictim : victim < MAX_CPUS)
  (hready : ∀ p ∈ s.fetch victim, (s.tasks p.1).taskStatus = .Ready)
include h hvictim hready

/-- Stealing one task that is ready. -/
theorem FlagInv.stealOneLoop (hsteal : stealOneLoop victim n s = some (first, s')) :
    s'.FlagInv := by
  cases n with
  | zero =>
    cases hsteal
    exact h
  | succ n =>
    rw [Scheduler.stealOneLoop] at hsteal
    split at hsteal
    · cases hsteal
      exact h
    · next t s1 hfetch =>
      dsimp only at hsteal
      have hstatus : ((s1.addReady victim (-1)).tasks t).taskStatus = .Ready :=
        (fetch_status hfetch t).trans (hready (t, s1) hfetch)
      rw [if_pos hstatus] at hsteal
      split at hsteal
      · cases hsteal
      · cases hsteal
        exact h.fetch hvictim hfetch _

theorem FlagInv.stealLoop (hsteal : stealLoop victim cpu 1 none s = some (first, s')) : s'.FlagInv := by
  have hsame : Scheduler.stealOneLoop victim 1 s = Scheduler.stealLoop victim cpu 1 none s := by
    rw [Scheduler.stealLoop, Scheduler.stealOneLoop]
    rfl
  exact h.stealOneLoop hvictim hready (hsame.trans hsteal)

end Steal

theorem toSteal_eq_one (hle : len ≥ 2) (hlt : len < 4) : toSteal len = 1 := by
  have hle : 2 ≤ len.toNat := hle
  have hlt : len.toNat < 4 := hlt
  have hhalf : (len / 2).toNat = 1 := by
    rw [UInt64.toNat_div]
    change len.toNat / 2 = 1
    omega
  unfold toSteal
  split
  · rfl
  · exact hhalf

theorem FlagInv.fetchNextTask (h : s.FlagInv) (hok : s.KeepsFlags raw (.fetchNextTask contended))
    (hop : s.fetchNextTask (Pmm.currentCpuId raw) contended = some (first, s')) : s'.FlagInv := by
  cases fetchNextTask_fetched hop with
  | own hfetch => exact h.fetch (currentCpuId_lt raw) hfetch _
  | nothing => exact h
  | stolen hfetch hfree hvictim hlen hsteal =>
    obtain ⟨hfew, hready⟩ := hok (fetch_eq_none_iff.mp hfetch) hfree _ hvictim hlen
    rw [toSteal_eq_one hlen hfew] at hsteal
    exact h.stealLoop (bestVictim_lt hvictim) hready hsteal

theorem FlagInv.fetchNextTaskTry (h : s.FlagInv)
    (hok : s.KeepsFlags raw (.fetchNextTaskTry ownContended contended))
    (hop : s.fetchNextTaskTry (Pmm.currentCpuId raw) ownContended contended = some (first, s')) :
    s'.FlagInv := by
  cases fetchNextTaskTry_fetched hop with
  | own hfetch => exact h.fetch (currentCpuId_lt raw) hfetch _
  | nothing => exact h
  | stolen hfetch hfree hvictim hlen hsteal =>
    obtain ⟨hown, hfree⟩ := Bool.or_eq_false_iff.mp hfree
    exact h.stealOneLoop (bestVictim_lt hvictim)
      (hok hown (fetch_eq_none_iff.mp hfetch) hfree _ hvictim hlen) hsteal

/-! ## Runs -/

/-- A task that waits is in no ready queue, so there is nothing to clear. -/
theorem FlagInv.waitWhile (h : s.FlagInv) (hok : s.KeepsFlags raw (.waitWhile q condition))
    (hop : s.waitWhile (Pmm.currentCpuId raw) q condition = some s') : s'.FlagInv := by
  unfold Scheduler.waitWhile at hop
  split at hop
  · cases hop
    exact h
  · next t hcurrent =>
    split at hop
    · next hcondition =>
      split at hop <;> cases hop
      have hflag := hok hcondition t hcurrent
      refine h.of_eq rfl fun u => ?_
      by_cases hu : u = t
      · subst hu
        simp [setCurrentTask, setWaiters, setFlag, setStatus, modifyTask, hflag]
      · simp [setCurrentTask, setWaiters, setFlag, setStatus, modifyTask, hu]
    · cases hop
      exact h

theorem FlagInv.perform (h : s.FlagInv) (hok : s.KeepsFlags raw op)
    (hop : perform raw op s = some (a, s')) : s'.FlagInv := by
  have hcpu := currentCpuId_lt raw
  cases op with
  | addTask loads =>
    cases hop
    cases hok
    exact h.of_eq rfl fun _ => rfl
  | enqueueReady t =>
    obtain ⟨_, hrun, ⟨⟩⟩ := map_eq_some_iff.mp hop
    exact (SamePlaces.enqueueReady hcpu hrun).flagInv h
  | fetchNextTask contended =>
    obtain ⟨_, hrun, ⟨⟩⟩ := map_eq_some_iff.mp hop
    exact h.fetchNextTask hok hrun
  | fetchNextTaskTry ownContended contended =>
    obtain ⟨_, hrun, ⟨⟩⟩ := map_eq_some_iff.mp hop
    exact h.fetchNextTaskTry hok hrun
  | killTask pid code =>
    obtain ⟨_, hrun, ⟨⟩⟩ := map_eq_some_iff.mp hop
    exact h.killTask hcpu hrun
  | runTask t =>
    obtain ⟨_, hrun, ⟨⟩⟩ := map_eq_some_iff.mp hop
    unfold Scheduler.runTask at hrun
    split at hrun <;> cases hrun
    have hflags : ∀ u, ((s.setStatus t .Running).tasks u).inRunQueue = (s.tasks u).inRunQueue :=
      inRunQueue_modifyTask rfl
    exact h.of_eq rfl hflags
  | suspendTask =>
    obtain ⟨_, hrun, ⟨⟩⟩ := map_eq_some_iff.mp hop
    unfold Scheduler.suspendTask at hrun
    split at hrun
    · cases hrun
      exact h
    · obtain ⟨⟨_, s1⟩, henqueue, rfl⟩ := map_eq_some_iff.mp hrun
      have hcleared : s1.SamePlaces (s1.setCurrentTask (Pmm.currentCpuId raw) none) :=
        .of_eq rfl fun _ => rfl
      exact ((SamePlaces.enqueueReady hcpu henqueue).trans hcleared).flagInv h
  | waitWhile q condition =>
    obtain ⟨_, hrun, ⟨⟩⟩ := map_eq_some_iff.mp hop
    exact h.waitWhile hok hrun
  | wakeOne q =>
    obtain ⟨_, hrun, ⟨⟩⟩ := map_eq_some_iff.mp hop
    exact wakeOne_keeps (fun hs hop => (SamePlaces.enqueueReady hcpu hop).flagInv hs) id h hrun
  | wakeAll q =>
    obtain ⟨_, hrun, ⟨⟩⟩ := map_eq_some_iff.mp hop
    exact wakeAll_keeps (fun hs hop => (SamePlaces.enqueueReady hcpu hop).flagInv hs) id h hrun

end Scheduler

end BoruixKernel
