import BoruixKernel.Task.Scheduler

/-!
# A task is scheduled at most once

A task that is to run has one *claim*: a place in a ready queue, a CPU whose current
task it is, or a CPU that is about to make it one of these.  `claims` counts them.  Two
sections make a claim: `swapFlag` when it finds the flag clear, and `newTask`; all others
at most pass claims on (`exec_held`).  So the number of claims stays at most one in every
run in which `enqueue_ready` finds the flag clear only for tasks without a claim.

The code does not keep to that.  `suspend_current_and_run_next` enqueues the current task
before it clears the current task, and a waker may find a task that is still current.
-/

namespace BoruixKernel

open Interleaving Function List

namespace Scheduler

/-- The configurations of the CPUs. -/
abbrev Configuration := Config Scheduler Section

/-- No task is twice in the ready queues, and none that is current is in one. -/
def ScheduledOnce (s : Scheduler) : Prop :=
  (∀ t, (Finset.range MAX_CPUS).sum (fun cpu => (s.queues cpu).count t) ≤ 1) ∧
    ∀ cpu < MAX_CPUS, ∀ t, s.current cpu = some t → ∀ i < MAX_CPUS, t ∉ s.queues i

/-! ## Claims -/

def queued (s : Scheduler) (t : Nat) : Nat :=
  (Finset.range MAX_CPUS).sum fun cpu => (s.queues cpu).count t

/-- 1 if the value is the task. -/
def isTask (t : Nat) (o : Option Nat) : Nat := if o = some t then 1 else 0

/-- CPUs whose current task it is. -/
def running (s : Scheduler) (t : Nat) : Nat :=
  (Finset.range MAX_CPUS).sum fun cpu => isTask t (s.current cpu)

/-- Claims in the shared state. -/
def held (s : Scheduler) (t : Nat) : Nat := s.queued t + s.running t

/-- Sections that carry a claim of the task. -/
def carries (t : Nat) : Section → Nat
  | .markReady u | .pushReady u | .setCurrent u => if u = t then 1 else 0
  | _ => 0

/-- All claims of a task on a machine with `n` CPUs. -/
def claims (n : Nat) (cfg : Configuration) (t : Nat) : Nat :=
  cfg.shared.held t + load (carries t) n cfg

/-- The claims that a section makes. -/
def gain (s : Scheduler) (t : Nat) : Section → Nat
  | .swapFlag u => if u = t ∧ !(s.tasks u).inRunQueue then 1 else 0
  | .newTask _ => if t = s.nextPid then 1 else 0
  | _ => 0

section Held

variable {s s' : Scheduler} {t u cpu : Nat}

theorem held_congr (hqueues : s'.queues = s.queues) (hcurrent : s'.current = s.current) :
    s'.held t = s.held t := by
  unfold held queued running
  rw [hqueues, hcurrent]

@[simp] theorem held_modifyTask (u : Nat) (f : TaskControlBlock → TaskControlBlock) :
    (s.modifyTask u f).held t = s.held t :=
  held_congr rfl rfl

@[simp] theorem held_addReady (n : UInt64) : (s.addReady cpu n).held t = s.held t :=
  held_congr rfl rfl

theorem currentCpuId_lt (raw : Nat) : Pmm.currentCpuId raw < MAX_CPUS := by
  unfold Pmm.currentCpuId
  split
  · decide
  · omega

theorem held_setQueue (hcpu : cpu < MAX_CPUS) (queue : List Nat) :
    (s.setQueue cpu queue).held t + (s.queues cpu).count t = s.held t + queue.count t := by
  have hfun : (fun c => ((s.setQueue cpu queue).queues c).count t) =
      update (fun c => (s.queues c).count t) cpu (queue.count t) := by
    funext c
    by_cases hc : c = cpu
    · subst hc
      simp [setQueue]
    · simp [setQueue, hc]
  have hsum := sum_update hcpu (fun c => (s.queues c).count t) (queue.count t)
  rw [← hfun] at hsum
  have hrunning : (s.setQueue cpu queue).running t = s.running t := rfl
  unfold held
  rw [hrunning]
  unfold queued
  omega

theorem held_add (hcpu : cpu < MAX_CPUS) :
    (s.add cpu u).held t = s.held t + if u = t then 1 else 0 := by
  have h := held_setQueue (s := s) (t := t) hcpu (s.queues cpu ++ [u])
  rw [count_append, count_singleton] at h
  simp only [beq_iff_eq] at h
  rw [add]
  omega

theorem held_setCurrentTask (hcpu : cpu < MAX_CPUS) (o : Option Nat) :
    (s.setCurrentTask cpu o).held t + isTask t (s.current cpu) = s.held t + isTask t o := by
  have hfun : (fun c => isTask t ((s.setCurrentTask cpu o).current c)) =
      update (fun c => isTask t (s.current c)) cpu (isTask t o) := by
    funext c
    by_cases hc : c = cpu
    · subst hc
      simp [setCurrentTask]
    · simp [setCurrentTask, hc]
  have hsum := sum_update hcpu (fun c => isTask t (s.current c)) (isTask t o)
  rw [← hfun] at hsum
  have hqueued : (s.setCurrentTask cpu o).queued t = s.queued t := rfl
  unfold held
  rw [hqueued]
  unfold running
  omega

/-- A task that is fetched leaves its queue. -/
theorem fetch_held (hcpu : cpu < MAX_CPUS) (hfetch : s.fetch cpu = some (u, s')) :
    s'.held t + (if u = t then 1 else 0) = s.held t := by
  unfold fetch at hfetch
  obtain ⟨v, hv, ⟨⟩⟩ := Option.map_eq_some_iff.mp hfetch
  obtain ⟨hlt, rfl⟩ := List.getElem?_eq_some_iff.mp hv
  have hperm := (getElem_cons_eraseIdx_perm hlt).count_eq t
  rw [count_cons] at hperm
  have hset := held_setQueue (s := s) (t := t) hcpu
    ((s.queues cpu).eraseIdx (s.minPassIdx (s.queues cpu) 0 0xFFFFFFFFFFFFFFFF 0))
  simp only [beq_iff_eq] at hperm
  rw [held_modifyTask]
  omega

/-- Stealing moves claims, and hands out at most one. -/
theorem stealLoop_held (hvictim : victim < MAX_CPUS) (hcpu : cpu < MAX_CPUS)
    (hsteal : stealLoop victim cpu n first s = some (first', s')) :
    s'.held t + isTask t first' = s.held t + isTask t first := by
  refine stealLoop_keeps (P := fun f r => r.held t + isTask t f = s.held t + isTask t first)
    (fun h hfetch _ => ?_) (fun h hfetch _ => ?_) (fun h hfetch _ => ?_) rfl hsteal
  all_goals
    have hheld := fetch_held (t := t) hvictim hfetch
  · simp only [held_addReady, isTask, Option.some.injEq, reduceCtorEq, if_false] at h ⊢
    omega
  · rw [held_addReady, held_add hcpu, held_addReady]
    omega
  · rw [held_addReady, held_add hvictim, held_addReady]
    omega

end Held

/-! ## What a section does to the claims -/

/-- The CPUs and tasks a section names exist, where the section itself does not check. -/
def SectionOk (nextPid : Nat) : Section → Prop
  | .steal victim _ => victim < MAX_CPUS
  | .retain _ cpu => cpu < MAX_CPUS
  | .register t | .swapFlag t | .pushWaiter _ t => t < nextPid
  | _ => True

section Exec

variable {s s' : Scheduler} {t raw cpu u : Nat} {sec : Section} {next : List Section}

/-- The victim is another CPU, with its ready count. -/
theorem bestVictim_spec {i : Nat} (h : s.bestVictim cpu = some (i, len)) :
    i < MAX_CPUS ∧ i ≠ cpu ∧ len = s.readyCounts i := by
  have hfold : ∀ (l : List Nat) (best : Option (Nat × UInt64)), (∀ j ∈ l, j < MAX_CPUS) →
      (∀ b ∈ best, b.1 < MAX_CPUS ∧ b.1 ≠ cpu ∧ b.2 = s.readyCounts b.1) →
      ∀ b ∈ l.foldl (fun best i => if i ≠ cpu ∧ s.readyCounts i > (best.map (·.2)).getD 0
        then some (i, s.readyCounts i) else best) best,
        b.1 < MAX_CPUS ∧ b.1 ≠ cpu ∧ b.2 = s.readyCounts b.1 := by
    intro l
    induction l with
    | nil => exact fun best _ hbest => hbest
    | cons j l ih =>
      intro best hl hbest
      refine ih _ (fun k hk => hl k (mem_cons_of_mem _ hk)) fun b hb => ?_
      dsimp only at hb
      split at hb
      · next hj =>
        cases hb
        exact ⟨hl j mem_cons_self, hj.1, rfl⟩
      · exact hbest b hb
  refine hfold _ none (fun j hj => ?_) (by simp) (i, len) h
  rw [mem_range] at hj
  omega

theorem bestVictim_lt (h : s.bestVictim cpu = some (i, len)) : i < MAX_CPUS := (bestVictim_spec h).1

/-- A section that leaves queues and current tasks alone. -/
theorem exec_held_frame (hqueues : s'.queues = s.queues) (hcurrent : s'.current = s.current)
    (hnext : (next.map (carries t)).sum ≤ carries t sec + s.gain t sec) :
    s'.held t + (next.map (carries t)).sum ≤ s.held t + carries t sec + s.gain t sec := by
  rw [held_congr hqueues hcurrent]
  omega

/-- A section that leaves queues and current tasks alone, and is followed by sections
without a claim. -/
theorem exec_held_quiet (hqueues : s'.queues = s.queues) (hcurrent : s'.current = s.current)
    (hnext : (next.map (carries t)).sum = 0) :
    s'.held t + (next.map (carries t)).sum ≤ s.held t + carries t sec + s.gain t sec :=
  exec_held_frame hqueues hcurrent (by omega)

theorem carries_map_eq_zero (hf : ∀ i, carries t (f i) = 0) (l : List Nat) :
    ((l.map f).map (carries t)).sum = 0 := by
  induction l with
  | nil => rfl
  | cons a l ih => simpa [hf a] using ih

theorem carries_killSections (pid : Nat) (code : Int) :
    ((s.killSections pid code).map (carries t)).sum = 0 := by
  have hretain := carries_map_eq_zero (t := t) (f := Section.retain pid) (fun _ => rfl)
    (List.range MAX_CPUS)
  have hhook : ((s.killHook.map Section.wakeAll).toList.map (carries t)).sum = 0 := by
    cases s.killHook <;> rfl
  rw [killSections, map_append, sum_append, hretain, map_append, sum_append,
    map_append, sum_append, hhook]
  rfl

/-- A section passes on the claim it carries, and makes at most those of `gain`. -/
theorem exec_held (hexec : exec raw sec s = some (s', next)) (hok : SectionOk s.nextPid sec) :
    s'.held t + (next.map (carries t)).sum ≤ s.held t + carries t sec + s.gain t sec := by
  have hcpu := currentCpuId_lt raw
  cases exec_effect hexec with
  | change h =>
    refine exec_held_frame rfl rfl ?_
    cases h with
    | setFlag hflag => simp [carries, gain, hflag]
    | ready => simp [carries, gain]
    | _ => exact Nat.zero_le _
  | newTask => exact exec_held_frame rfl rfl (by simp [carries, gain, eq_comm (a := t)])
  | pushReady => simp [held_add hcpu, carries, gain]
  | fetched hfetch =>
    have := fetch_held (t := t) hcpu hfetch
    simp only [held_addReady, dispatch, map_cons, map_nil, carries, sum_cons,
      sum_nil, gain]
    omega
  | @steal victim len n first s1 hsteal =>
    have := stealLoop_held (t := t) hok hcpu hsteal
    cases first with
    | none => simpa [isTask, carries, gain] using this.le
    | some u => simpa [isTask, dispatch, carries, gain] using this.le
  | @setCurrent u =>
    have := held_setCurrentTask (s := s) (t := t) hcpu (some u)
    simp only [isTask, Option.some.injEq] at this
    simp only [carries, gain, map_nil, sum_nil]
    omega
  | clearCurrent =>
    have := held_setCurrentTask (s := s) (t := t) hcpu none
    simp only [isTask, reduceCtorEq, if_false] at this
    simp only [carries, gain, map_nil, sum_nil]
    omega
  | wakeAll => exact exec_held_quiet rfl rfl (carries_map_eq_zero (fun _ => rfl) _)
  | kill => exact exec_held_quiet rfl rfl (carries_killSections ..)
  | @retain pid i =>
    have := held_setQueue (s := s) (t := t) hok ((s.queues i).filter (· ≠ pid))
    have hcount := (filter_sublist (p := (· ≠ pid)) (l := s.queues i)).count_le t
    have hheld : ∀ counts, held { s.setQueue i ((s.queues i).filter (· ≠ pid)) with
        readyCounts := counts } t = (s.setQueue i ((s.queues i).filter (· ≠ pid))).held t :=
      fun _ => held_congr rfl rfl
    simp only [carries, gain, map_nil, sum_nil, hheld]
    omega
  | _ => exact exec_held_quiet rfl rfl rfl

/-- Waiting tasks, parents and the tasks of the list of all tasks exist. -/
structure Known (s : Scheduler) : Prop where
  allTasks : ∀ t ∈ s.allTasks, t < s.nextPid
  waiters : ∀ q, ∀ t ∈ s.waiters q, t < s.nextPid
  parents : ∀ t p, (s.tasks t).parent = some p → p < s.nextPid

/-- Nothing that `Known` is about has changed. -/
structure SameTasks (s s' : Scheduler) : Prop where
  allTasks : s'.allTasks = s.allTasks
  waiters : s'.waiters = s.waiters
  nextPid : s'.nextPid = s.nextPid
  parent : ∀ t, (s'.tasks t).parent = (s.tasks t).parent

theorem SameTasks.trans {s'' : Scheduler} (h : SameTasks s s') (h' : SameTasks s' s'') :
    SameTasks s s'' where
  allTasks := h'.allTasks.trans h.allTasks
  waiters := h'.waiters.trans h.waiters
  nextPid := h'.nextPid.trans h.nextPid
  parent t := (h'.parent t).trans (h.parent t)

theorem SameTasks.known (h : SameTasks s s') (hs : s.Known) : s'.Known where
  allTasks t ht := h.nextPid ▸ hs.allTasks t (h.allTasks ▸ ht)
  waiters q t ht := h.nextPid ▸ hs.waiters q t (h.waiters ▸ ht)
  parents t p hp := h.nextPid ▸ hs.parents t p (h.parent t ▸ hp)

theorem modifyTask_same {f : TaskControlBlock → TaskControlBlock}
    (hf : ∀ task, (f task).parent = task.parent) (u : Nat) : SameTasks s (s.modifyTask u f) where
  allTasks := rfl
  waiters := rfl
  nextPid := rfl
  parent t := by
    by_cases h : t = u
    · subst h
      simp [modifyTask, hf]
    · simp [modifyTask, h]

theorem setQueue_same (cpu : Nat) (queue : List Nat) : SameTasks s (s.setQueue cpu queue) :=
  ⟨rfl, rfl, rfl, fun _ => rfl⟩

theorem fetch_same (hfetch : s.fetch cpu = some (u, s')) : SameTasks s s' := by
  unfold fetch at hfetch
  obtain ⟨v, -, ⟨⟩⟩ := Option.map_eq_some_iff.mp hfetch
  exact SameTasks.trans (setQueue_same ..) (modifyTask_same (by exact fun _ => rfl) _)

theorem stealLoop_same {victim n : Nat} {first first' : Option Nat}
    (hsteal : stealLoop victim cpu n first s = some (first', s')) : SameTasks s s' := by
  refine stealLoop_keeps (P := fun _ r => SameTasks s r) (fun h hfetch _ => ?_) (fun h hfetch _ => ?_)
    (fun h hfetch _ => ?_) ⟨rfl, rfl, rfl, fun _ => rfl⟩ hsteal
  all_goals
    have hsame := h.trans (fetch_same hfetch)
    exact ⟨hsame.allTasks, hsame.waiters, hsame.nextPid, hsame.parent⟩

/-- What a section leaves behind names only tasks that exist. -/
structure LeavesKnown (s : Scheduler) (sec : Section) (s' : Scheduler) (next : List Section) :
    Prop where
  nextPid : s.nextPid ≤ s'.nextPid
  known : s'.Known
  next : ∀ sec' ∈ next, SectionOk s'.nextPid sec'
  gain : ∀ t, s'.nextPid ≤ t → s.gain t sec = 0

theorem SameTasks.leavesKnown (h : SameTasks s s') (hs : s.Known)
    (hnext : ∀ sec' ∈ next, SectionOk s.nextPid sec')
    (hgain : ∀ t, s.nextPid ≤ t → s.gain t sec = 0) : LeavesKnown s sec s' next :=
  ⟨h.nextPid.ge, h.known hs, h.nextPid ▸ hnext, h.nextPid ▸ hgain⟩

theorem LeavesKnown.refl (hs : s.Known) (hnext : ∀ sec' ∈ next, SectionOk s.nextPid sec')
    (hgain : ∀ t, s.nextPid ≤ t → s.gain t sec = 0) : LeavesKnown s sec s next :=
  ⟨Nat.le_refl _, hs, hnext, hgain⟩

/-- Only a new task is claimed before it exists. -/
theorem gain_eq_zero (hok : SectionOk s.nextPid sec) (hsec : ∀ loads, sec ≠ .newTask loads) (t : Nat)
    (ht : s.nextPid ≤ t) : s.gain t sec = 0 := by
  cases sec with
  | newTask loads => exact (hsec loads rfl).elim
  | swapFlag u =>
    refine if_neg fun h => ?_
    cases h.1
    exact Nat.not_lt.mpr ht hok
  | _ => rfl

/-- The lists of tasks are put together without repetition. -/
theorem mem_of_mem_insert {l : List Nat} {n : Nat} (hl : ∀ t ∈ l, t < n) (hu : u < n) :
    ∀ t ∈ (if u ∈ l then l else l ++ [u]), t < n := by
  intro t ht
  split at ht
  · exact hl t ht
  · rcases mem_append.mp ht with ht | ht
    · exact hl t ht
    · exact mem_singleton.mp ht ▸ hu

theorem Known.setWaiters (hs : s.Known) {q : Nat} {ts : List Nat}
    (hts : ∀ t ∈ ts, t < s.nextPid) : (s.setWaiters q ts).Known where
  allTasks := hs.allTasks
  waiters r t ht := by
    by_cases hr : r = q
    · subst hr
      exact hts t (by simpa [Scheduler.setWaiters] using ht)
    · exact hs.waiters r t (by simpa [Scheduler.setWaiters, hr] using ht)
  parents := hs.parents

/-- A new pid, perhaps for a task with a known parent. -/
theorem Known.newTask {tasks : Nat → TaskControlBlock} (hs : s.Known)
    (htasks : ∀ t p, (tasks t).parent = some p → (s.tasks t).parent = some p ∨ p < s.nextPid) :
    Known { s with tasks := tasks, nextPid := s.nextPid + 1 } where
  allTasks t ht := (hs.allTasks t ht).trans (Nat.lt_succ_self _)
  waiters q t ht := (hs.waiters q t ht).trans (Nat.lt_succ_self _)
  parents t p hp := ((htasks t p hp).elim (hs.parents t p) id).trans (Nat.lt_succ_self _)

/-- A current task has a claim, so it exists. -/
theorem current_lt (hfresh : ∀ t, s.nextPid ≤ t → s.held t = 0) (hcpu : cpu < MAX_CPUS)
    (hcurrent : s.current cpu = some u) : u < s.nextPid := by
  have hrunning : 1 ≤ s.running u := by
    have := sum_update hcpu (fun cpu => isTask u (s.current cpu)) 0
    simp only [isTask, hcurrent, if_true] at this
    unfold running isTask
    omega
  by_contra hle
  have := hfresh u (by omega)
  unfold held at this
  omega

theorem sectionOk_exitSections (n u : Nat) (code : Int) :
    ∀ sec ∈ exitSections u code, SectionOk n sec := by
  simp [exitSections, switchToIdle, SectionOk]

theorem sectionOk_killSections (n pid : Nat) (code : Int) :
    ∀ sec ∈ s.killSections pid code, SectionOk n sec := by
  intro sec hsec
  simp only [killSections, cons_append, nil_append, append_assoc, mem_cons,
    mem_append, Option.mem_toList, Option.map_eq_some_iff, mem_map,
    mem_range] at hsec
  rcases hsec with rfl | rfl | rfl | ⟨q, -, rfl⟩ | rfl | ⟨i, hi, rfl⟩
  all_goals first | exact hi | trivial

/-- A section leaves only known tasks behind, if it began with known tasks. -/
theorem exec_known (hexec : exec raw sec s = some (s', next)) (hok : SectionOk s.nextPid sec)
    (hs : s.Known) (hfresh : ∀ t, s.nextPid ≤ t → s.held t = 0) : LeavesKnown s sec s' next := by
  have hcurrent : ∀ {u}, s.current (Pmm.currentCpuId raw) = some u → u < s.nextPid :=
    current_lt hfresh (currentCpuId_lt raw)
  cases exec_effect hexec with
  | idle h => exact .refl hs nofun (gain_eq_zero hok fun _ heq => by rw [heq] at h; exact h)
  | change h =>
    refine (modifyTask_same (fun task => ?_) _).leavesKnown hs ?_ ?_
    · cases h <;> rfl
    · cases h <;> simp [switchToIdle, SectionOk]
    · exact gain_eq_zero hok fun _ heq => by cases h <;> cases heq
  | newTask =>
    refine ⟨Nat.le_succ _, ?_, by simp [SectionOk], fun t ht => if_neg (Nat.ne_of_gt ht)⟩
    refine hs.newTask fun t p hp => ?_
    by_cases ht : t = s.nextPid
    · simp [modifyTask, ht, TaskControlBlock.new] at hp
    · exact .inl (by simpa [modifyTask, ht] using hp)
  | @fork p hp =>
    refine ⟨Nat.le_succ _, hs.newTask fun t r hr => ?_, by simp [SectionOk], fun _ _ => rfl⟩
    by_cases ht : t = s.nextPid
    · simp only [modifyTask, ht, update_self, Option.some.injEq] at hr
      exact .inr (hr ▸ hcurrent hp)
    · have hsame := (modifyTask_same (s := s) (u := p)
        (f := fun task => { task with children := task.children ++ [s.nextPid] }) fun _ => rfl).parent t
      refine .inl (hsame.symm.trans ?_)
      rw [← hr]
      simp [modifyTask, update_of_ne ht]
  | skipPid h =>
    refine ⟨Nat.le_succ _, hs.newTask fun _ _ => .inl, nofun, fun t ht => ?_⟩
    rcases h with rfl | rfl
    · exact if_neg (Nat.ne_of_gt ht)
    · rfl
  | fetched hfetch =>
    have h := fetch_same hfetch
    exact SameTasks.leavesKnown ⟨h.allTasks, h.waiters, h.nextPid, h.parent⟩ hs
      (by simp [dispatch, SectionOk]) fun _ _ => rfl
  | victim h => exact .refl hs (by simpa [SectionOk] using (bestVictim_spec h).1) fun _ _ => rfl
  | @steal _ _ _ first _ hsteal =>
    refine (stealLoop_same hsteal).leavesKnown hs ?_ fun _ _ => rfl
    cases first <;> simp [dispatch, SectionOk]
  | suspend h | waitWhile h => exact .refl hs (by simp [switchToIdle, SectionOk, hcurrent h]) fun _ _ => rfl
  | @pushWaiter q u =>
    refine ⟨Nat.le_refl _, hs.setWaiters fun t ht => ?_, nofun, fun _ _ => rfl⟩
    exact mem_of_mem_insert (hs.waiters q) hok t ht
  | @wakeOne q u hu =>
    refine ⟨Nat.le_refl _, hs.setWaiters fun t ht => ?_, fun sec' hsec => ?_, fun _ _ => rfl⟩
    · exact hs.waiters q t (mem_of_mem_dropLast ht)
    · rw [mem_singleton.mp hsec]
      exact hs.waiters q u (mem_of_getLast? hu)
  | @wakeAll q =>
    refine ⟨Nat.le_refl _, hs.setWaiters nofun, fun sec' hsec => ?_, fun _ _ => rfl⟩
    obtain ⟨u, hu, rfl⟩ := mem_map.mp hsec
    exact hs.waiters q u hu
  | exit hsec =>
    exact .refl hs (sectionOk_exitSections _ _ _) (by rcases hsec with rfl | rfl <;> exact fun _ _ => rfl)
  | kill => exact .refl hs (sectionOk_killSections _ _ _) fun _ _ => rfl
  | @wakeParent t p hp => exact .refl hs (by simpa [SectionOk] using hs.parents t p hp) fun _ _ => rfl
  | register =>
    refine ⟨Nat.le_refl _, ⟨fun t ht => ?_, hs.waiters, hs.parents⟩, nofun, fun _ _ => rfl⟩
    exact mem_of_mem_insert hs.allTasks hok t ht
  | noneReady => exact .refl hs (by simp [SectionOk]) fun _ _ => rfl
  | incReady | pushReady | setCurrent | clearCurrent | retain =>
    exact ⟨Nat.le_refl _, ⟨hs.allTasks, hs.waiters, hs.parents⟩, nofun, fun _ _ => rfl⟩

end Exec

/-! ## Runs -/

/-- A CPU of the machine goes on, or begins operations. -/
def Legal (n : Nat) (cfg : Configuration) : Event Section → Prop
  | .run cpu => cpu < n
  | .call cpu sections => cpu < n ∧ ∀ sec ∈ sections, cfg.shared.IsCall sec

/-- `enqueue_ready` finds the flag clear only for a task without a claim. -/
def WakesParked (n : Nat) (cfg : Configuration) : Event Section → Prop
  | .run cpu =>
    match (cfg.todo cpu).head? with
    | some (.swapFlag t) => (cfg.shared.tasks t).inRunQueue = true ∨ claims n cfg t = 0
    | _ => True
  | .call _ _ => True

instance (n : Nat) (cfg : Configuration) (ev : Event Section) : Decidable (Legal n cfg ev) := by
  cases ev <;> unfold Legal <;> infer_instance

instance (n : Nat) (cfg : Configuration) (ev : Event Section) :
    Decidable (WakesParked n cfg ev) := by
  unfold WakesParked
  split
  · split <;> infer_instance
  · infer_instance

/-- Every CPU has nothing to do yet. -/
def bootConfig (cpuCount : Nat) (killHook : Option Nat) : Configuration :=
  ⟨boot cpuCount killHook, fun _ => []⟩

/-- What is named exists. -/
structure Named (n : Nat) (cfg : Configuration) : Prop where
  fresh : ∀ t, cfg.shared.nextPid ≤ t → claims n cfg t = 0
  known : cfg.shared.Known
  todo : ∀ cpu, ∀ sec ∈ cfg.todo cpu, SectionOk cfg.shared.nextPid sec

/-- What is named exists, and a task has one claim at most. -/
structure Inv (n : Nat) (cfg : Configuration) : Prop extends Named n cfg where
  once : ∀ t, claims n cfg t ≤ 1

section Runs

variable {n cpu : Nat} {cfg cfg' : Configuration} {s s' : Scheduler} {next : List Section}

theorem claims_boot (n cpuCount : Nat) (killHook : Option Nat) (t : Nat) :
    claims n (bootConfig cpuCount killHook) t = 0 := by
  simp [claims, held, queued, running, load, bootConfig, boot, isTask]

theorem Named.boot (n cpuCount : Nat) (killHook : Option Nat) :
    Named n (bootConfig cpuCount killHook) where
  fresh t _ := claims_boot n cpuCount killHook t
  known := ⟨fun _ h => by simp [bootConfig, Scheduler.boot] at h,
    fun _ _ h => by simp [bootConfig, Scheduler.boot] at h,
    fun _ _ h => by simp [bootConfig, Scheduler.boot, TaskControlBlock.new] at h⟩
  todo := by simp [bootConfig]

theorem IsCall.sectionOk (h : s.IsCall sec) : SectionOk s.nextPid sec := by
  cases sec <;> first | exact h | trivial

theorem IsCall.carries_eq_zero (h : s.IsCall sec) (t : Nat) : carries t sec = 0 := by
  cases sec <;> first | rfl | exact h.elim

variable {sections rest : List Section}

/-- A call makes no claim before it runs. -/
theorem claims_call (hok : Legal n cfg (.call cpu sections)) (t : Nat) :
    claims n ⟨cfg.shared, update cfg.todo cpu (sections ++ cfg.todo cpu)⟩ t =
      claims n cfg t := by
  obtain ⟨hcpu, hcall⟩ := hok
  have hzero : (sections.map (carries t)).sum = 0 := by
    rw [sum_eq_zero]
    intro w hw
    obtain ⟨sec, hsec, rfl⟩ := mem_map.mp hw
    exact IsCall.carries_eq_zero (hcall sec hsec) t
  have hload := load_call (carries t) exec cfg sections hcpu rfl
  simp only [claims]
  omega

theorem Named.call (h : Named n cfg) (hok : Legal n cfg (.call cpu sections)) :
    Named n ⟨cfg.shared, update cfg.todo cpu (sections ++ cfg.todo cpu)⟩ := by
  refine ⟨fun t ht => claims_call hok t ▸ h.fresh t ht, h.known, ?_⟩
  refine forall_todo_update h.todo fun sec hsec => ?_
  rcases mem_append.mp hsec with hsec | hsec
  · exact IsCall.sectionOk (hok.2 sec hsec)
  · exact h.todo cpu sec hsec

theorem SectionOk.mono (hm : m ≤ m') (h : SectionOk m sec) : SectionOk m' sec := by
  cases sec <;> first | exact Nat.lt_of_lt_of_le h hm | exact h

theorem gain_cases (s : Scheduler) (t : Nat) (sec : Section) : s.gain t sec = 0 ∨ s.gain t sec = 1 ∧
      (sec = .swapFlag t ∧ (s.tasks t).inRunQueue = false ∨ t = s.nextPid) := by
  unfold gain
  split
  · split
    · next h =>
      obtain ⟨rfl, hflag⟩ := h
      exact .inr ⟨rfl, .inl ⟨rfl, by simpa using hflag⟩⟩
    · exact .inl rfl
  · split
    · next h => exact .inr ⟨rfl, .inr h⟩
    · exact .inl rfl
  · exact .inl rfl

/-- The one claim that a section makes is for a task without a claim. -/
theorem Inv.gain (h : Inv n cfg) (hwake : WakesParked n cfg (.run cpu))
    (htodo : cfg.todo cpu = sec :: rest) (t : Nat) : claims n cfg t + cfg.shared.gain t sec ≤ 1 := by
  have honce := h.once t
  rcases gain_cases cfg.shared t sec with hgain | ⟨hgain, ⟨rfl, hflag⟩ | ht⟩
  · omega
  · simp only [WakesParked, htodo, head?_cons] at hwake
    rcases hwake with hset | hzero
    · rw [hset] at hflag
      cases hflag
    · omega
  · have := h.fresh t ht.ge
    omega

theorem Named.held_eq_zero (h : Named n cfg) (ht : cfg.shared.nextPid ≤ t) :
    cfg.shared.held t = 0 := by
  have := h.fresh t ht
  unfold claims at this
  omega

/-- Running a section makes no more claims than those of `gain`. -/
theorem Named.claims_run (h : Named n cfg) (hcpu : cpu < n) (htodo : cfg.todo cpu = sec :: rest)
    (hexec : exec cpu sec cfg.shared = some (s', next)) (t : Nat) :
    claims n ⟨s', update cfg.todo cpu (next ++ rest)⟩ t ≤
      claims n cfg t + cfg.shared.gain t sec := by
  have hload := load_run (carries t) next s' hcpu htodo
  have hstep := exec_held (t := t) hexec (h.todo cpu sec (htodo ▸ mem_cons_self))
  simp only [claims]
  omega

theorem Named.run (h : Named n cfg) (hcpu : cpu < n) (htodo : cfg.todo cpu = sec :: rest)
    (hexec : exec cpu sec cfg.shared = some (s', next)) :
    Named n ⟨s', update cfg.todo cpu (next ++ rest)⟩ := by
  obtain ⟨hpid, hknown, hnext, hgain⟩ := exec_known hexec
    (h.todo cpu sec (htodo ▸ mem_cons_self)) h.known fun _ => h.held_eq_zero
  refine ⟨fun t ht => ?_, hknown, ?_⟩
  · have hzero := h.fresh t (hpid.trans ht)
    have := h.claims_run hcpu htodo hexec t
    rw [hzero, hgain t ht] at this
    omega
  · refine forall_todo_update (fun c sec' hsec' => (h.todo c sec' hsec').mono hpid) ?_
    intro sec' hsec'
    rcases mem_append.mp hsec' with hsec' | hsec'
    · exact hnext sec' hsec'
    · exact (h.todo cpu sec' (htodo ▸ mem_cons_of_mem _ hsec')).mono hpid

theorem Inv.step (h : Inv n cfg) (hlegal : Legal n cfg ev) (hwake : WakesParked n cfg ev)
    (hstep : cfg.step exec ev = some cfg') : Inv n cfg' := by
  obtain ⟨cpu, sec, rest, s', next, rfl, htodo, hexec, rfl⟩ | ⟨cpu, sections, rfl, rfl⟩ :=
    Config.step_cases hstep
  · refine ⟨h.toNamed.run hlegal htodo hexec, fun t => ?_⟩
    exact (h.claims_run hlegal htodo hexec t).trans (h.gain hwake htodo t)
  · exact ⟨h.toNamed.call hlegal, fun t => claims_call hlegal t ▸ h.once t⟩

/-- With one claim a task has one place. -/
theorem Inv.scheduledOnce (h : Inv n cfg) : ScheduledOnce cfg.shared := by
  have hheld : ∀ t, cfg.shared.queued t + cfg.shared.running t ≤ 1 := fun t => by
    have := h.once t
    unfold claims held at this
    omega
  refine ⟨fun t => Nat.le_trans (Nat.le_add_right _ _) (hheld t), ?_⟩
  intro cpu hcpu t hcurrent i hi hmem
  have hrunning := sum_update hcpu (fun cpu => isTask t (cfg.shared.current cpu)) 0
  have hqueued := sum_update hi (fun cpu => (cfg.shared.queues cpu).count t) 0
  have hcount := count_pos_iff.mpr hmem
  have := hheld t
  unfold queued running at this
  simp only [isTask, hcurrent, if_true] at hrunning
  unfold isTask at this
  omega

end Runs

/-- In every run in which `enqueue_ready` finds the flag clear only for tasks that are in
no ready queue, current on no CPU and in the hands of none, a task is scheduled at most
once. -/
theorem scheduledOnce_of_wakesParked (n cpuCount : Nat) (killHook : Option Nat)
    (cfg : Configuration)
    (h : Reach exec (fun cfg ev => Legal n cfg ev ∧ WakesParked n cfg ev)
      (bootConfig cpuCount killHook) cfg) : ScheduledOnce cfg.shared := by
  have hinv : Inv n cfg := by
    refine h.invariant ⟨.boot n cpuCount killHook, fun t => ?_⟩ fun hinv hok hstep => ?_
    · rw [claims_boot]
      exact Nat.zero_le 1
    · exact hinv.step hok.1 hok.2 hstep
  exact hinv.scheduledOnce

/-- A CPU begins an operation and runs `k` sections. -/
def callAndRun (cpu : Nat) (sec : Section) (k : Nat) : List (Event Section) :=
  .call cpu [sec] :: List.replicate k (.run cpu)

/-- A new task becomes the current task of CPU 0. -/
def startTask : List (Event Section) :=
  callAndRun 0 (.newTask true) 4 ++ callAndRun 0 (.fetchLocal false) 3

/-- The task then waits in a queue, and CPU 1 wakes it. -/
def parkAndWake : List (Event Section) :=
  startTask ++ callAndRun 0 (.waitWhile 0 true) 6 ++ callAndRun 1 (.wakeOne 0) 5

theorem scheduledOnce_parkAndWake :
    ∃ cfg, Reach exec (fun cfg ev => Legal 2 cfg ev ∧ WakesParked 2 cfg ev) (bootConfig 2 none) cfg ∧
      cfg.shared.queues 1 = [1] ∧ ScheduledOnce cfg.shared := by
  obtain ⟨cfg, hreach, hqueue⟩ := Reach.exists_runAll exec
    (fun cfg ev => Legal 2 cfg ev ∧ WakesParked 2 cfg ev) (bootConfig 2 none)
    (P := fun cfg => cfg.shared.queues 1 = [1]) parkAndWake (by decide +kernel)
  exact ⟨cfg, hreach, hqueue, scheduledOnce_of_wakesParked 2 2 none cfg hreach⟩

/-- `suspend_current_and_run_next` pushes the task before it clears the current task: after
the push, and before `clear_current_task`, the task is in both places. -/
theorem suspend_not_scheduledOnce :
    ∃ cfg, Reach exec (Legal 1) (bootConfig 1 none) cfg ∧ cfg.shared.current 0 = some 1 ∧
      cfg.shared.queues 0 = [1] ∧ ¬ ScheduledOnce cfg.shared := by
  obtain ⟨cfg, hreach, hcurrent, hqueue⟩ := Reach.exists_runAll exec (Legal 1)
    (bootConfig 1 none)
    (P := fun cfg => cfg.shared.current 0 = some 1 ∧ cfg.shared.queues 0 = [1])
    (startTask ++ callAndRun 0 .suspendCurrent 4) (by decide +kernel)
  refine ⟨cfg, hreach, hcurrent, hqueue, fun h => ?_⟩
  exact h.2 0 (by decide) 1 hcurrent 0 (by decide) (by rw [hqueue]; decide)

end Scheduler

end BoruixKernel
