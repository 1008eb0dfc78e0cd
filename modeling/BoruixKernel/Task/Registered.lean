import BoruixKernel.Task.ReadyCounts

/-!
# The list of all tasks

`add_task` puts a task in `ALL_TASKS` before it puts it in a ready queue, and no operation
takes a task out of the list, so tasks made by `add_task` are registered wherever they are.
`sys_fork` puts the child into the children of its parent and, by `enqueue_ready`, into a
ready queue, but never into the list.

Replacing the program of a task (`exec`) changes nothing of what the scheduler has.
-/

namespace BoruixKernel

open Interleaving Function List

namespace Scheduler

/-- The task is current on a CPU, in a ready queue, in a wait queue or a child. -/
def Placed (s : Scheduler) (t : Nat) : Prop :=
  (∃ cpu, s.current cpu = some t) ∨ (∃ i, t ∈ s.queues i) ∨ (∃ q, t ∈ s.waiters q) ∨
    ∃ p, t ∈ (s.tasks p).children

/-- `kill_task` finds every such task that has not exited. -/
def LiveRegistered (s : Scheduler) : Prop :=
  ∀ t, s.Placed t → (s.tasks t).taskStatus ≠ .Exited → t ∈ s.allTasks

/-- CPUs begin the operations of the system; `enqueue_ready` is only called by them. -/
def Operates (n : Nat) (cfg : Configuration) : Event Section → Prop
  | .run cpu => cpu < n
  | .call cpu sections => cpu < n ∧ ∀ sec ∈ sections, cfg.shared.IsCall sec ∧ ∀ t, sec ≠ .swapFlag t

def ForksNot (cfg : Configuration) : Event Section → Prop
  | .run cpu => ∀ sec ∈ (cfg.todo cpu).head?, sec = .fork true → cfg.shared.current (Pmm.currentCpuId cpu) = none
  | .call .. => True

/-- Tasks that a section is about to put somewhere. -/
def placing : Section → List Nat
  | .swapFlag t | .markReady t | .pushReady t | .setCurrent t | .pushWaiter _ t => [t]
  | _ => []

/-- Sections only place tasks that are registered before. -/
def PlacesRegistered (all : List Nat) : List Section → Prop
  | [] => True
  | .register t :: secs => PlacesRegistered (t :: all) secs
  | sec :: secs => (∀ t ∈ placing sec, t ∈ all) ∧ PlacesRegistered all secs

/-- Without forks there are no children, and all tasks that are somewhere are registered. -/
structure RegInv (s : Scheduler) : Prop where
  parent : ∀ t, (s.tasks t).parent = none
  children : ∀ t, (s.tasks t).children = []
  current : ∀ cpu t, s.current cpu = some t → t ∈ s.allTasks
  queues : ∀ i, ∀ t ∈ s.queues i, t ∈ s.allTasks
  waiters : ∀ q, ∀ t ∈ s.waiters q, t ∈ s.allTasks

variable {s s' : Scheduler} {cpu t raw : Nat} {sec : Section} {secs next : List Section} {all : List Nat}

theorem RegInv.liveRegistered (h : s.RegInv) : s.LiveRegistered := by
  rintro t (⟨cpu, hcpu⟩ | ⟨i, hi⟩ | ⟨q, hq⟩ | ⟨p, hp⟩) _
  · exact h.current cpu t hcpu
  · exact h.queues i t hi
  · exact h.waiters q t hq
  · rw [h.children] at hp
    cases hp

theorem RegInv.boot (cpuCount : Nat) (killHook : Option Nat) : (boot cpuCount killHook).RegInv :=
  ⟨fun _ => rfl, fun _ => rfl, nofun, nofun, nofun⟩

/-! ## Sections to come -/

theorem PlacesRegistered.mono (h : PlacesRegistered all secs)
    (hsub : ∀ t ∈ all, t ∈ all') : PlacesRegistered all' secs := by
  induction secs generalizing all all' with
  | nil => trivial
  | cons sec secs ih =>
    cases sec with
    | register t =>
      refine ih h fun u hu => ?_
      rcases mem_cons.mp hu with rfl | hu
      · exact mem_cons_self
      · exact mem_cons_of_mem _ (hsub u hu)
    | _ => exact ⟨fun u hu => hsub u (h.1 u hu), ih h.2 hsub⟩

theorem PlacesRegistered.append (h : PlacesRegistered all secs)
    (h' : PlacesRegistered all secs') : PlacesRegistered all (secs ++ secs') := by
  induction secs generalizing all with
  | nil => exact h'
  | cons sec secs ih =>
    cases sec with
    | register t => exact ih h (h'.mono fun _ => mem_cons_of_mem t)
    | _ => exact ⟨h.1, ih h.2 h'⟩

/-- Sections that register nothing. -/
theorem PlacesRegistered.of_forall (h : ∀ sec ∈ secs, ∀ t ∈ placing sec, t ∈ all) :
    PlacesRegistered all secs := by
  induction secs generalizing all with
  | nil => trivial
  | cons sec secs ih =>
    have htail : ∀ sec' ∈ secs, ∀ t ∈ placing sec', t ∈ all :=
      fun sec' hsec' => h sec' (mem_cons_of_mem _ hsec')
    cases sec with
    | register u =>
      have hrest : PlacesRegistered all secs := ih htail
      exact hrest.mono fun _ => mem_cons_of_mem u
    | _ => exact ⟨h _ mem_cons_self, ih htail⟩

/-! ## What a section does -/

section Setters

section

variable (h : s.RegInv)

include h

theorem RegInv.modifyTask (t : Nat) (hparent : (f (s.tasks t)).parent = none)
    (hchildren : (f (s.tasks t)).children = []) :
    (s.modifyTask t f).RegInv := by
  refine ⟨fun u => ?_, fun u => ?_, h.current, h.queues, h.waiters⟩
  · by_cases hu : u = t
    · subst hu
      simpa [Scheduler.modifyTask] using hparent
    · simpa [Scheduler.modifyTask, hu] using h.parent u
  · by_cases hu : u = t
    · subst hu
      simpa [Scheduler.modifyTask] using hchildren
    · simpa [Scheduler.modifyTask, hu] using h.children u

theorem RegInv.setQueue (i : Nat) (hqueue : ∀ t ∈ queue, t ∈ s.allTasks) :
    (s.setQueue i queue).RegInv := by
  refine ⟨h.parent, h.children, h.current, fun j t ht => ?_, h.waiters⟩
  by_cases hj : j = i
  · subst hj
    simp only [Scheduler.setQueue, update_self] at ht
    exact hqueue t ht
  · simp only [Scheduler.setQueue, update_of_ne hj] at ht
    exact h.queues j t ht

theorem RegInv.add (i : Nat) (ht : t ∈ s.allTasks) : (s.add i t).RegInv := by
  refine h.setQueue i fun u hu => ?_
  rcases mem_append.mp hu with hu | hu
  · exact h.queues i u hu
  · exact mem_singleton.mp hu ▸ ht

theorem RegInv.addReady (i : Nat) (n : UInt64) : (s.addReady i n).RegInv :=
  ⟨h.parent, h.children, h.current, h.queues, h.waiters⟩

theorem RegInv.setCurrentTask (cpu : Nat) (ho : ∀ t ∈ o, t ∈ s.allTasks) :
    (s.setCurrentTask cpu o).RegInv := by
  refine ⟨h.parent, h.children, fun c t ht => ?_, h.queues, h.waiters⟩
  by_cases hc : c = cpu
  · subst hc
    simp only [Scheduler.setCurrentTask, update_self] at ht
    exact ho t ht
  · simp only [Scheduler.setCurrentTask, update_of_ne hc] at ht
    exact h.current c t ht

theorem RegInv.setWaiters (q : Nat) (hts : ∀ t ∈ ts, t ∈ s.allTasks) :
    (s.setWaiters q ts).RegInv := by
  refine ⟨h.parent, h.children, h.current, h.queues, fun r t ht => ?_⟩
  by_cases hr : r = q
  · subst hr
    simp only [Scheduler.setWaiters, update_self] at ht
    exact hts t ht
  · simp only [Scheduler.setWaiters, update_of_ne hr] at ht
    exact h.waiters r t ht

/-- A fetch takes a task that was in a queue. -/
theorem RegInv.fetch (hfetch : s.fetch cpu = some (t, s')) :
    s'.RegInv ∧ s'.allTasks = s.allTasks ∧ t ∈ s.allTasks := by
  unfold Scheduler.fetch at hfetch
  obtain ⟨v, hv, ⟨⟩⟩ := Option.map_eq_some_iff.mp hfetch
  refine ⟨?_, rfl, h.queues cpu t (mem_of_getElem? hv)⟩
  refine RegInv.modifyTask ?_ t (h.parent t) (h.children t)
  exact h.setQueue cpu fun u hu => h.queues cpu u (mem_of_mem_eraseIdx hu)

theorem RegInv.stealLoop (hsteal : stealLoop victim cpu n none s = some (first, s')) :
    s'.RegInv ∧ s'.allTasks = s.allTasks ∧ ∀ t ∈ first, t ∈ s.allTasks := by
  refine stealLoop_keeps
    (P := fun f r => r.RegInv ∧ r.allTasks = s.allTasks ∧ ∀ t ∈ f, t ∈ s.allTasks)
    (fun hr hfetch _ => ?_) (fun hr hfetch _ => ?_) (fun hr hfetch _ => ?_) ⟨h, rfl, fun _ ht => by cases ht⟩ hsteal
  all_goals
    obtain ⟨hkeep, hall, hfirst⟩ := hr
    obtain ⟨hfetched, hsame, ht⟩ := hkeep.fetch hfetch
  · refine ⟨hfetched.addReady _ _, hsame.trans hall, fun u hu => ?_⟩
    cases hu
    exact hall ▸ ht
  · exact ⟨((hfetched.addReady _ _).add _ (hsame ▸ ht)).addReady _ _, hsame.trans hall, hfirst⟩
  · exact ⟨((hfetched.addReady _ _).add _ (hsame ▸ ht)).addReady _ _, hsame.trans hall, hfirst⟩

end

end Setters

/-- What a section leaves behind: the tasks that are somewhere, or about to be, are
registered, and the list has not become shorter. -/
structure Leaves (s s' : Scheduler) (next : List Section) : Prop where
  inv : s'.RegInv
  all : ∀ t ∈ s.allTasks, t ∈ s'.allTasks
  next : PlacesRegistered s'.allTasks next

/-- A section that changes nothing. -/
theorem RegInv.leaves (h : s.RegInv) (hnext : ∀ sec ∈ next, ∀ t ∈ placing sec, t ∈ s.allTasks) :
    Leaves s s next := ⟨h, fun _ => id, .of_forall hnext⟩

/-- A section that changes a task, but neither its parent nor its children. -/
theorem RegInv.leaves_modifyTask (h : s.RegInv) (t : Nat)
    (hparent : (f (s.tasks t)).parent = (s.tasks t).parent)
    (hchildren : (f (s.tasks t)).children = (s.tasks t).children)
    (hnext : ∀ sec ∈ next, ∀ t ∈ placing sec, t ∈ s.allTasks) : Leaves s (s.modifyTask t f) next :=
  ⟨h.modifyTask t (hparent.trans (h.parent t)) (hchildren.trans (h.children t)), fun _ => id,
    .of_forall hnext⟩

theorem placing_dispatch (t : Nat) : ∀ sec ∈ dispatch t, ∀ u ∈ placing sec, u = t := by
  simp [dispatch, placing]

theorem placing_killSections (pid : Nat) (code : Int) :
    ∀ sec ∈ s.killSections pid code, placing sec = [] := by
  intro sec hsec
  simp only [killSections, mem_append, mem_cons, not_mem_nil, or_false, mem_map,
    Option.mem_toList, Option.map_eq_some_iff] at hsec
  rcases hsec with (((rfl | rfl | rfl) | ⟨q, -, rfl⟩) | rfl) | ⟨i, -, rfl⟩ <;> rfl

theorem placing_exitSections (t : Nat) (code : Int) : ∀ sec ∈ exitSections t code, placing sec = [] := by
  simp [exitSections, switchToIdle, placing]

/-- Sections that place no task. -/
theorem none_placed (hnext : ∀ sec ∈ next, placing sec = []) : ∀ sec ∈ next, ∀ t ∈ placing sec, t ∈ all := by
  intro sec hsec t ht
  rw [hnext sec hsec] at ht
  cases ht

theorem RegInv.exec (h : s.RegInv) (hplacing : ∀ t ∈ placing sec, t ∈ s.allTasks)
    (hfork : sec = .fork true → s.current (Pmm.currentCpuId raw) = none)
    (hexec : exec raw sec s = some (s', next)) : Leaves s s' next := by
  cases exec_effect hexec with
  | idle => exact h.leaves (by simp)
  | change hchange =>
    cases hchange with
    | setFlag | ready => exact h.leaves_modifyTask _ rfl rfl (by simpa [placing] using hplacing)
    | reaped hc =>
      -- Without children there is nothing to wait for.
      rw [h.children] at hc
      cases hc
    | parent hp | parentLocked hp =>
      rw [h.parent] at hp
      cases hp
    | _ => exact h.leaves_modifyTask _ rfl rfl (by simp [switchToIdle, placing])
  | newTask =>
    have hnew := h.modifyTask s.nextPid (f := fun _ => .new) rfl rfl
    refine ⟨⟨hnew.parent, hnew.children, h.current, h.queues, h.waiters⟩, fun _ => id, ?_⟩
    -- The section that registers the task comes before the one that pushes it.
    exact ⟨fun t ht => mem_singleton.mp ht ▸ mem_cons_self, by simp [placing], trivial⟩
  | fork hp =>
    rw [hfork rfl] at hp
    cases hp
  | @register t =>
    have hsub : ∀ u ∈ s.allTasks, u ∈ if t ∈ s.allTasks then s.allTasks else s.allTasks ++ [t] := by
      intro u hu
      split
      · exact hu
      · exact mem_append_left _ hu
    exact ⟨⟨h.parent, h.children, fun c u hu => hsub u (h.current c u hu),
      fun i u hu => hsub u (h.queues i u hu), fun q u hu => hsub u (h.waiters q u hu)⟩, hsub, trivial⟩
  | @pushReady t => exact ⟨h.add _ (hplacing t mem_cons_self), fun _ => id, trivial⟩
  | @fetched _ t _ hfetch =>
    obtain ⟨hkeep, hall, ht⟩ := h.fetch hfetch
    refine ⟨hkeep.addReady _ _, fun u hu => hall ▸ hu, .of_forall fun sec hsec u hu => ?_⟩
    rw [placing_dispatch t sec hsec u hu]
    exact hall ▸ ht
  | @steal _ _ _ first _ hsteal =>
    obtain ⟨hkeep, hall, hfirst⟩ := h.stealLoop hsteal
    refine ⟨hkeep, fun u hu => hall ▸ hu, .of_forall ?_⟩
    cases first with
    | none => simp
    | some t =>
      intro sec hsec u hu
      rw [placing_dispatch t sec hsec u hu]
      exact hall ▸ hfirst t rfl
  | @setCurrent t =>
    refine ⟨h.setCurrentTask _ fun u hu => ?_, fun _ => id, trivial⟩
    cases hu
    exact hplacing t mem_cons_self
  | clearCurrent => exact ⟨h.setCurrentTask _ (fun u hu => by cases hu), fun _ => id, trivial⟩
  | suspend hcurrent | waitWhile hcurrent =>
    exact h.leaves (by simpa [placing, switchToIdle] using h.current _ _ hcurrent)
  | @pushWaiter q t =>
    refine ⟨h.setWaiters q fun u hu => ?_, fun _ => id, trivial⟩
    split at hu
    · exact h.waiters q u hu
    · rcases mem_append.mp hu with hu | hu
      · exact h.waiters q u hu
      · exact hplacing u hu
  | @wakeOne q t hlast =>
    refine ⟨h.setWaiters q fun u hu => h.waiters q u (mem_of_mem_dropLast hu), fun _ => id, ?_⟩
    exact ⟨fun u hu => mem_singleton.mp hu ▸ h.waiters q t (mem_of_getLast? hlast), trivial⟩
  | @wakeAll q =>
    refine ⟨h.setWaiters q (by simp), fun _ => id, .of_forall fun sec hsec u hu => ?_⟩
    obtain ⟨t, ht, rfl⟩ := mem_map.mp hsec
    exact mem_singleton.mp hu ▸ h.waiters q t ht
  | @exit _ t code => exact h.leaves (none_placed (placing_exitSections t code))
  | @kill pid code => exact h.leaves (none_placed (placing_killSections pid code))
  | wakeParent hp =>
    rw [h.parent] at hp
    cases hp
  | @retain pid i =>
    have hqueue : (s.setQueue i ((s.queues i).filter (· ≠ pid))).RegInv :=
      h.setQueue i fun u hu => h.queues i u (mem_of_mem_filter hu)
    exact ⟨⟨h.parent, h.children, h.current, hqueue.queues, h.waiters⟩, fun _ => id, trivial⟩
  | noneReady | victim => exact h.leaves (by simp [placing])
  | skipPid | incReady =>
    exact ⟨⟨h.parent, h.children, h.current, h.queues, h.waiters⟩, fun _ => id, trivial⟩

/-! ## Runs -/

structure RunInv (cfg : Configuration) : Prop where
  inv : cfg.shared.RegInv
  todo : ∀ cpu, PlacesRegistered cfg.shared.allTasks (cfg.todo cpu)

theorem PlacesRegistered.tail (h : PlacesRegistered s.allTasks (sec :: secs))
    (hall : ∀ t ∈ s.allTasks, t ∈ s'.allTasks) (hexec : exec raw sec s = some (s', next)) :
    PlacesRegistered s'.allTasks secs := by
  cases sec with
  | register t =>
    cases hexec
    have hsecs : PlacesRegistered (t :: s.allTasks) secs := h
    refine hsecs.mono fun u hu => ?_
    rcases mem_cons.mp hu with rfl | hu
    · dsimp only
      split
      · next hmem => exact hmem
      · exact mem_append_right _ mem_cons_self
    · exact hall u hu
  | _ => exact PlacesRegistered.mono h.2 hall

theorem PlacesRegistered.head (h : PlacesRegistered all (sec :: secs)) : ∀ t ∈ placing sec, t ∈ all := by
  cases sec with
  | register => exact nofun
  | _ => exact h.1

theorem RunInv.step {cfg cfg' : Configuration} (h : RunInv cfg) (hoperates : Operates n cfg ev)
    (hforks : ForksNot cfg ev) (hstep : cfg.step exec ev = some cfg') :
    RunInv cfg' := by
  obtain ⟨cpu, sec, rest, s', next, rfl, htodo, hexec, rfl⟩ | ⟨cpu, sections, rfl, rfl⟩ :=
    Config.step_cases hstep
  · have hplaces := htodo ▸ h.todo cpu
    have hleaves := h.inv.exec hplaces.head (fun heq => hforks sec (by rw [htodo]; rfl) heq) hexec
    refine ⟨hleaves.inv, (Function.forall_update_iff cfg.todo _).mpr ⟨?_, fun c _ => ?_⟩⟩
    · exact hleaves.next.append (hplaces.tail hleaves.all hexec)
    · exact (h.todo c).mono hleaves.all
  · refine ⟨h.inv, (Function.forall_update_iff cfg.todo _).mpr ⟨?_, fun c _ => h.todo c⟩⟩
    refine PlacesRegistered.append (.of_forall (none_placed fun sec hsec => ?_)) (h.todo cpu)
    -- A call begins with none of the sections that place a task.
    obtain ⟨hcall, hswap⟩ := hoperates.2 sec hsec
    cases sec <;> first | rfl | exact hcall.elim | exact (hswap _ rfl).elim

theorem RunInv.boot (cpuCount : Nat) (killHook : Option Nat) : RunInv (bootConfig cpuCount killHook) :=
  ⟨.boot cpuCount killHook, fun _ => trivial⟩

/-- In every run without forks every task that is somewhere and has not exited is in the
list. -/
theorem liveRegistered_of_forksNot (n cpuCount : Nat) (killHook : Option Nat) (cfg : Configuration)
    (h : Reach exec (fun cfg ev => Operates n cfg ev ∧ ForksNot cfg ev) (bootConfig cpuCount killHook) cfg) :
    cfg.shared.LiveRegistered := by
  have hinv : RunInv cfg := h.invariant (.boot cpuCount killHook)
    fun hinv hok hstep => hinv.step hok.1 hok.2 hstep
  exact hinv.inv.liveRegistered

instance (sec : Section) : Decidable (∀ t, sec ≠ .swapFlag t) :=
  decidable_of_iff (∀ t ∈ placing sec, sec ≠ .swapFlag t)
    ⟨fun h t ht => h t (ht ▸ mem_cons_self) ht, fun h t _ => h t⟩

instance (n : Nat) (cfg : Configuration) : ∀ ev, Decidable (Operates n cfg ev)
  | .run _ | .call .. => by unfold Operates; infer_instance

instance (cfg : Configuration) : ∀ ev, Decidable (ForksNot cfg ev)
  | .run _ | .call .. => by unfold ForksNot; infer_instance

/-- A task is added, runs, and waits in a queue. -/
theorem liveRegistered_of_forksNot_wait : ∃ cfg : Configuration,
    cfg.shared.waiters 0 = [1] ∧ cfg.shared.LiveRegistered := by
  obtain ⟨cfg, hreach, hwaiters⟩ := Reach.exists_runAll exec
    (fun cfg ev => Operates 1 cfg ev ∧ ForksNot cfg ev) (bootConfig 1 none)
    (P := fun cfg => cfg.shared.waiters 0 = [1])
    (startTask ++ callAndRun 0 (.waitWhile 0 true) 6) (by decide +kernel)
  exact ⟨cfg, hwaiters, liveRegistered_of_forksNot 1 1 none cfg hreach⟩

/-- A task forks: the child is in a ready queue, and not in the list. -/
theorem fork_not_registered : ∃ cfg, Reach exec (Operates 1) (bootConfig 1 none) cfg ∧
    2 ∈ cfg.shared.queues 0 ∧ (cfg.shared.tasks 2).taskStatus = .Ready ∧ 2 ∉ cfg.shared.allTasks ∧
      ¬ cfg.shared.LiveRegistered := by
  obtain ⟨cfg, hreach, hqueue, hstatus, hall⟩ := Reach.exists_runAll exec (Operates 1) (bootConfig 1 none)
    (P := fun cfg => 2 ∈ cfg.shared.queues 0 ∧ (cfg.shared.tasks 2).taskStatus = .Ready ∧
      2 ∉ cfg.shared.allTasks)
    (startTask ++ callAndRun 0 (.fork true) 5) (by decide +kernel)
  refine ⟨cfg, hreach, hqueue, hstatus, hall, fun h => hall (h 2 (.inr (.inl ⟨0, hqueue⟩)) ?_)⟩
  rw [hstatus]
  exact nofun

end Scheduler

end BoruixKernel
