import BoruixKernel.Task.ScheduledOnce

/-!
# Exited is final

Here operations are atomic: while one is under way, no other CPU moves.  A CPU between two
operations may hold a task that it has fetched and not yet made current.

Only `enqueue_ready` looks whether a task has exited.  So an exited task stays exited as
long as nothing else can get hold of it: when it exits it is current on no other CPU, in
the hands of none, and in no ready queue, from which `kill_task` removes it anyway.  The
code does not see to that: `kill_task` marks a task that runs on another CPU, and there
`wait_while` overwrites the mark.
-/

namespace BoruixKernel

open Interleaving List Function

namespace Scheduler

def Exited (s : Scheduler) (t : Nat) : Prop := (s.tasks t).taskStatus = .Exited

/-- Exited tasks stay so, and enter no ready queue. -/
def ExitedStays (s s' : Scheduler) : Prop :=
  ∀ t, s.Exited t → s'.Exited t ∧ ∀ i < MAX_CPUS, t ∈ s'.queues i → t ∈ s.queues i

theorem ExitedStays.refl (s : Scheduler) : ExitedStays s s := fun _ h => ⟨h, fun _ _ hi => hi⟩

theorem ExitedStays.trans (h : ExitedStays s1 s2) (h' : ExitedStays s2 s3) : ExitedStays s1 s3 := by
  intro t ht
  obtain ⟨ht2, hq2⟩ := h t ht
  obtain ⟨ht3, hq3⟩ := h' t ht2
  exact ⟨ht3, fun i hi hmem => hq2 i hi (hq3 i hi hmem)⟩

/-! ## Atomic operations -/

/-- A CPU between two operations: it has nothing to do, is about to clear the current task
in the idle loop, or to make a fetched task current. -/
def AtRest : List Section → Prop
  | [] | [.clearCurrent] => True
  | [.markRunning t, .setCurrent u] => t = u
  | _ => False

/-- The other CPUs are between operations, and an operation begins when the one before it
is over. -/
def Atomic (n : Nat) (cfg : Configuration) (ev : Event Section) : Prop :=
  (∀ c < n, c ≠ ev.cpu → AtRest (cfg.todo c)) ∧
    match ev with
    | .run _ => True
    | .call cpu sections => cfg.todo cpu = [] ∧ sections.length = 1

/-- The task that the next operation of a CPU makes exit. -/
def exitTarget (cfg : Configuration) (cpu : Nat) : Option Nat :=
  match (cfg.todo cpu).head? with
  | some (.exitCurrent _) => cfg.shared.current (Pmm.currentCpuId cpu)
  | some (.kill pid _) => some pid
  | _ => none

/-- A task that is made to exit is current on no other CPU and in the hands of none, and if
it exits itself it is in no ready queue. -/
def ExitsAlone (n : Nat) (cfg : Configuration) : Event Section → Prop
  | .run cpu => ∀ t ∈ exitTarget cfg cpu,
    (∀ i < MAX_CPUS, i ≠ Pmm.currentCpuId cpu → cfg.shared.current i ≠ some t) ∧
    (∀ c < n, .markRunning t ∉ cfg.todo c) ∧
    (cfg.shared.current (Pmm.currentCpuId cpu) = some t → ∀ i < MAX_CPUS, t ∉ cfg.shared.queues i)
  | .call _ _ => True

/-! ## What a section does to exited tasks -/

/-- Sections that give a task another status than `Exited`, or a place. -/
def Revives (t : Nat) : Section → Prop
  | .markRunning u | .setCurrent u | .pushReady u | .markWaiting u => u = t
  | _ => False

/-- Sections that take a task from a queue or act for the current task; they stand alone. -/
def Opening : Section → Prop
  | .fetchLocal _ | .pickVictim _ | .steal .. | .waitWhile .. | .waitpid _ | .exitCurrent _
  | .kill .. => True
  | _ => False

/-- Sections that need no care. -/
def Harmless : Section → Prop
  | .markRunning _ | .setCurrent _ | .pushReady _ | .markWaiting _ | .markExited _ => False
  | sec => ¬ Opening sec

/-- What a section needs, so that exited tasks are let alone. -/
def CalmPre (s : Scheduler) (cpu : Nat) : Section → Prop
  | .newTask _ | .fork _ => ¬ s.Exited s.nextPid
  | .fetchLocal _ => ∀ t, s.Exited t → s.queued t = 0
  | .steal victim _ => victim < MAX_CPUS ∧ ∀ t, s.Exited t → s.queued t = 0
  | .waitWhile .. | .waitpid _ => ∀ t, s.current cpu = some t → ¬ s.Exited t
  | .markRunning t | .setCurrent t | .pushReady t | .markWaiting t => ¬ s.Exited t
  | .exitCurrent _ | .kill .. | .markExited _ => False
  | _ => True

/-- The section lets exited tasks alone. -/
structure Calm (cpu : Nat) (s : Scheduler) (sec : Section) (s' : Scheduler) (next : List Section) :
    Prop where
  exited : ∀ t, s'.Exited t ↔ s.Exited t
  queues : ∀ t, s.Exited t → ∀ i < MAX_CPUS, t ∈ s'.queues i → t ∈ s.queues i ∧ sec ≠ .retain t i
  current : ∀ t i, s.Exited t → s'.current i = some t →
    s.current i = some t ∧ (i = cpu → sec ≠ .clearCurrent)
  revives : ∀ t, s.Exited t → ∀ sec' ∈ next, ¬ Revives t sec'
  opening : ∀ sec' ∈ next, Opening sec' → Opening sec ∧ next = [sec']
  exits : ∀ t, .markExited t ∉ next

section Calm

variable {s s' : Scheduler} {t u raw cpu : Nat} {next : List Section}

theorem Harmless.not_revives (h : Harmless sec) : ¬ Revives t sec := by
  cases sec <;> first | exact h.elim | exact id

theorem Harmless.not_opening (h : Harmless sec) : ¬ Opening sec := by
  cases sec <;> exact h.elim

theorem exited_modifyTask (hf : (f (s.tasks u)).taskStatus = .Exited ↔ s.Exited u) :
    (s.modifyTask u f).Exited t ↔ s.Exited t := by
  unfold Exited modifyTask at *
  by_cases h : t = u
  · subst h
    simpa using hf
  · simp [h]

/-- Sections that change neither queues nor current tasks. -/
theorem Calm.frame (hexited : ∀ t, s'.Exited t ↔ s.Exited t) (hqueues : s'.queues = s.queues)
    (hcurrent : s'.current = s.current) (hsec : ∀ t i, sec ≠ .retain t i)
    (hclear : sec ≠ .clearCurrent) (hrevives : ∀ t, s.Exited t → ∀ sec' ∈ next, ¬ Revives t sec')
    (hopening : ∀ sec' ∈ next, Opening sec' → Opening sec ∧ next = [sec'])
    (hexits : ∀ t, .markExited t ∉ next) : Calm cpu s sec s' next where
  exited := hexited
  queues t _ i _ hi := ⟨hqueues ▸ hi, hsec t i⟩
  current _ _ _ hi := ⟨hcurrent ▸ hi, fun _ => hclear⟩
  revives := hrevives
  opening := hopening
  exits := hexits

/-- Such sections that are followed by harmless ones. -/
theorem Calm.harmless (hexited : ∀ t, s'.Exited t ↔ s.Exited t) (hqueues : s'.queues = s.queues)
    (hcurrent : s'.current = s.current) (hsec : ∀ t i, sec ≠ .retain t i)
    (hclear : sec ≠ .clearCurrent) (hnext : ∀ sec' ∈ next, Harmless sec') :
    Calm cpu s sec s' next :=
  .frame hexited hqueues hcurrent hsec hclear (fun _ _ sec' h => (hnext sec' h).not_revives)
    (fun sec' h ho => ((hnext sec' h).not_opening ho).elim) fun _ h => hnext _ h

theorem queued_eq_zero_iff : s.queued t = 0 ↔ ∀ i < MAX_CPUS, t ∉ s.queues i := by
  simp [queued, Finset.sum_eq_zero_iff, count_eq_zero]

/-- Taking tasks from queues changes neither current tasks nor who has exited. -/
structure Fetches (s s' : Scheduler) : Prop where
  current : s'.current = s.current
  exited : ∀ t, s'.Exited t ↔ s.Exited t

theorem fetch_fetches (hfetch : s.fetch cpu = some (u, s')) : Fetches s s' := by
  unfold fetch at hfetch
  obtain ⟨v, -, ⟨⟩⟩ := Option.map_eq_some_iff.mp hfetch
  exact ⟨rfl, fun t => exited_modifyTask (s := s.setQueue cpu _) Iff.rfl⟩

theorem stealLoop_fetches
    (hsteal : stealLoop victim cpu n first s = some (first', s')) : Fetches s s' := by
  refine stealLoop_keeps (P := fun _ r => Fetches s r) (fun h hfetch _ => ?_) (fun h hfetch _ => ?_)
    (fun h hfetch _ => ?_) ⟨rfl, fun _ => Iff.rfl⟩ hsteal
  all_goals
    obtain ⟨hcurrent, hexited⟩ := fetch_fetches hfetch
    exact ⟨hcurrent.trans h.current, fun t => (hexited t).trans (h.exited t)⟩

/-- What is not in the queues is not taken from them. -/
theorem Fetches.queued_eq_zero (h : Fetches s s') (hheld : s'.held t + isTask t first = s.held t)
    (hzero : s.queued t = 0) :
    s'.queued t = 0 ∧ first ≠ some t := by
  have hrunning : s'.running t = s.running t := by
    unfold running
    rw [h.current]
  unfold held at hheld
  refine ⟨by omega, fun hfirst => ?_⟩
  simp only [isTask, hfirst, if_true] at hheld
  omega

/-- A task that is fetched when no exited task is in the queues has not exited. -/
theorem Fetches.calm (cpu : Nat) (sec : Section) (first : Option Nat) (h : Fetches s s')
    (hsec : Opening sec) (hheld : ∀ t, s'.held t + isTask t first = s.held t)
    (hzero : ∀ t, s.Exited t → s.queued t = 0) :
    Calm cpu s sec s' (first.elim [] dispatch) where
  exited := h.exited
  queues t ht i hi hmem :=
    (queued_eq_zero_iff.mp (h.queued_eq_zero (hheld t) (hzero t ht)).1 i hi hmem).elim
  current t i _ hi := ⟨h.current ▸ hi, fun _ => by rintro rfl; exact hsec⟩
  revives t ht sec' hsec' := by
    have hne := (h.queued_eq_zero (hheld t) (hzero t ht)).2
    cases first with
    | none => cases hsec'
    | some u =>
      have hut : u ≠ t := fun hut => hne (congrArg some hut)
      simp only [Option.elim, dispatch, mem_cons, not_mem_nil, or_false] at hsec'
      rcases hsec' with rfl | rfl <;> exact hut
  opening sec' hsec' ho := by
    cases first with
    | none => cases hsec'
    | some u =>
      simp only [Option.elim, dispatch, mem_cons, not_mem_nil, or_false] at hsec'
      rcases hsec' with rfl | rfl <;> exact ho.elim
  exits t := by
    cases first with
    | none => exact not_mem_nil
    | some u => simp [dispatch]

theorem exited_setStatus_of_not (hu : ¬ s.Exited u)
    (hstatus : status ≠ .Exited) : (s.setStatus u status).Exited t ↔ s.Exited t :=
  exited_modifyTask ⟨fun h => (hstatus h).elim, fun h => (hu h).elim⟩

theorem exited_newTask (t : Nat) (task : TaskControlBlock) (hu : ¬ s.Exited u)
    (htask : task.taskStatus ≠ .Exited) : (s.modifyTask u fun _ => task).Exited t ↔ s.Exited t :=
  exited_modifyTask ⟨fun h => (htask h).elim, fun h => (hu h).elim⟩

/-- With what it needs, a section lets exited tasks alone. -/
theorem exec_calm (hexec : exec raw sec s = some (s', next))
    (hpre : CalmPre s (Pmm.currentCpuId raw) sec) :
    Calm (Pmm.currentCpuId raw) s sec s' next := by
  have hcpu := currentCpuId_lt raw
  cases exec_effect hexec with
  | idle h =>
    refine .harmless (fun _ => Iff.rfl) rfl rfl ?_ ?_ (by simp)
    · rintro t i rfl
      exact h
    · rintro rfl
      exact h
  | change h =>
    cases h with
    | ready hu =>
      refine .frame (fun _ => exited_setStatus_of_not hu (by simp)) rfl rfl (by simp) (by simp)
        (fun t ht sec' hsec' => ?_) (by simp [Opening]) (by simp)
      simp only [mem_cons, not_mem_nil, or_false] at hsec'
      rcases hsec' with rfl | rfl
      · exact fun h => hu (h ▸ ht)
      · exact id
    | running | waiting =>
      exact .harmless (fun _ => exited_setStatus_of_not hpre (by simp)) rfl rfl (by simp) (by simp) (by simp)
    | exited => exact hpre.elim
    | waitpid hu =>
      exact .harmless (fun _ => exited_setStatus_of_not (hpre _ hu) (by simp)) rfl rfl (by simp) (by simp)
        (by simp [switchToIdle, Harmless, Opening])
    | parent _ hwaiting | parentLocked _ hwaiting =>
      refine .harmless (fun _ => exited_modifyTask ⟨by simp, fun h => ?_⟩) rfl rfl (by simp) (by simp)
        (by simp [Harmless, Opening])
      cases hwaiting.symm.trans h
    | _ =>
      exact .harmless (fun _ => exited_modifyTask Iff.rfl) rfl rfl (by simp) (by simp)
        (by simp [Harmless, Opening])
  | newTask =>
    refine .frame (fun t => exited_newTask t .new hpre (by simp [TaskControlBlock.new])) rfl rfl (by simp) (by simp)
      (fun t ht sec' hsec' => ?_) (by simp [Opening]) (by simp)
    simp only [mem_cons, not_mem_nil, or_false] at hsec'
    rcases hsec' with rfl | rfl | rfl
    · exact id
    · exact fun h => hpre (h ▸ ht)
    · exact id
  | @fork p =>
    refine .harmless (fun t => ?_) rfl rfl (by simp) (by simp) (by simp [Harmless, Opening])
    have hparent : ∀ {t : Nat}, (s.modifyTask p fun task =>
        { task with children := task.children ++ [s.nextPid] }).Exited t ↔ s.Exited t :=
      exited_modifyTask Iff.rfl
    refine Iff.trans ?_ (hparent (t := t))
    exact exited_newTask t _ (fun h => hpre (hparent.mp h)) (by simp [TaskControlBlock.new])
  | skipPid h =>
    rcases h with rfl | rfl <;> exact .harmless (fun _ => Iff.rfl) rfl rfl (by simp) (by simp) (by simp)
  | @pushReady u =>
    refine ⟨fun _ => Iff.rfl, fun t ht i _ hmem => ⟨?_, by simp⟩, fun _ _ _ h => ⟨h, fun _ => by simp⟩,
      (by simp), (by simp), by simp⟩
    by_cases hi : i = Pmm.currentCpuId raw
    · subst hi
      simp only [add, setQueue, update_self, mem_append, mem_singleton] at hmem
      exact hmem.resolve_right fun h => hpre (h ▸ ht)
    · simpa [add, setQueue, hi] using hmem
  | @fetched _ u _ hfetch =>
    have h := fetch_fetches hfetch
    refine Fetches.calm _ _ (some u) ⟨h.current, h.exited⟩ trivial (fun t => ?_) hpre
    simpa [isTask] using fetch_held (t := t) hcpu hfetch
  | noneReady | victim =>
    exact .frame (fun _ => Iff.rfl) rfl rfl (by simp) (by simp) (by simp [Revives]) (by simp [Opening]) (by simp)
  | steal hsteal =>
    exact Fetches.calm _ _ _ (stealLoop_fetches hsteal) trivial
      (fun t => by simpa [isTask] using stealLoop_held (t := t) hpre.1 hcpu hsteal) hpre.2
  | setCurrent =>
    refine ⟨fun _ => Iff.rfl, fun _ _ _ _ h => ⟨h, by simp⟩, fun t i ht h => ⟨?_, fun _ => by simp⟩,
      (by simp), (by simp), by simp⟩
    by_cases hi : i = Pmm.currentCpuId raw
    · subst hi
      simp only [setCurrentTask, update_self, Option.some.injEq] at h
      exact (hpre (h ▸ ht)).elim
    · simpa [setCurrentTask, hi] using h
  | clearCurrent =>
    refine ⟨fun _ => Iff.rfl, fun _ _ _ _ h => ⟨h, by simp⟩, fun t i _ h => ?_, (by simp), (by simp), by simp⟩
    by_cases hi : i = Pmm.currentCpuId raw
    · subst hi
      simp [setCurrentTask] at h
    · exact ⟨by simpa [setCurrentTask, hi] using h, fun h' => (hi h').elim⟩
  | @waitWhile _ _ u hu =>
    refine .frame (fun _ => Iff.rfl) rfl rfl (by simp) (by simp) (fun t ht => ?_)
      (by simp [switchToIdle, Opening]) (by simp [switchToIdle])
    have hne : u ≠ t := fun h => hpre u hu (h ▸ ht)
    simpa [switchToIdle, Revives] using hne
  | @retain pid i =>
    refine ⟨fun _ => Iff.rfl, fun t _ j _ hmem => ?_, fun _ _ _ h => ⟨h, fun _ => by simp⟩,
      (by simp), (by simp), by simp⟩
    by_cases hj : j = i
    · subst hj
      simp only [setQueue, update_self, mem_filter, decide_eq_true_eq] at hmem
      exact ⟨hmem.1, fun h => by injection h with h; exact hmem.2 h.symm⟩
    · exact ⟨by simpa [setQueue, hj] using hmem, fun h => by injection h with _ h; exact hj h.symm⟩
  | exit hsec => rcases hsec with rfl | rfl <;> exact hpre.elim
  | kill => exact hpre.elim
  | _ =>
    exact .harmless (fun _ => Iff.rfl) rfl rfl (by simp) (by simp) (by simp [switchToIdle, Harmless, Opening])

end Calm

/-! ## The invariant -/

/-- Sections of an exit that come before the current task is cleared. -/
def Departs : Section → Prop
  | .setExitCode .. | .wakeParentLocked _ | .deadlock => True
  | _ => False

/-- The rest of an exit whose task is marked and still current. -/
def Leaving (todo : List Section) : Prop :=
  ∃ front, todo = front ++ [.clearCurrent, .clearCurrent] ∧ ∀ sec ∈ front, Departs sec

/-- An exit or a kill that is about to mark its task: the others have no hold on it. -/
structure Pending (cfg : Configuration) (cpu t : Nat) : Prop where
  sections : (∃ code, cfg.todo cpu = exitSections t code ∧
      ∀ i < MAX_CPUS, t ∉ cfg.shared.queues i) ∨
    (∃ code, cfg.todo cpu = cfg.shared.killSections t code ∧
      cfg.shared.current (Pmm.currentCpuId cpu) ≠ some t)
  current : ∀ i < MAX_CPUS, i ≠ Pmm.currentCpuId cpu → cfg.shared.current i ≠ some t
  revives : ∀ c, ∀ sec ∈ cfg.todo c, ¬ Revives t sec
  known : t < cfg.shared.nextPid

/-- Where exited tasks can be, and what can happen to them. -/
structure ExitInv (n : Nat) (cfg : Configuration) : Prop extends Named n cfg where
  idle : ∀ c, n ≤ c → cfg.todo c = []
  exited_lt : ∀ t, cfg.shared.Exited t → t < cfg.shared.nextPid
  opening : ∀ c, ∀ sec ∈ cfg.todo c, Opening sec → cfg.todo c = [sec]
  queues : ∀ t, cfg.shared.Exited t → ∀ i < MAX_CPUS, t ∈ cfg.shared.queues i →
    ∃ c, .retain t i ∈ cfg.todo c
  current : ∀ t, cfg.shared.Exited t → ∀ i < MAX_CPUS, cfg.shared.current i = some t →
    ∃ c, Pmm.currentCpuId c = i ∧ Leaving (cfg.todo c)
  revives : ∀ t, cfg.shared.Exited t → ∀ c, ∀ sec ∈ cfg.todo c, ¬ Revives t sec
  pending : ∀ c t, .markExited t ∈ cfg.todo c → Pending cfg c t

section Runs

variable {cfg cfg' : Configuration} {s' s : Scheduler} {next : List Section}

theorem AtRest.mem (h : AtRest todo) (hsec : sec ∈ todo) : sec = .clearCurrent ∨
    ∃ t, (sec = .markRunning t ∨ sec = .setCurrent t) ∧ .markRunning t ∈ todo := by
  unfold AtRest at h
  split at h
  · cases hsec
  · exact .inl (mem_singleton.mp hsec)
  · next t u =>
    cases h
    simp only [mem_cons, not_mem_nil, or_false] at hsec
    exact .inr ⟨t, hsec, mem_cons_self⟩
  · cases h

theorem AtRest.not_leaving (h : AtRest todo) : ¬ Leaving todo := by
  rintro ⟨front, rfl, hfront⟩
  cases front with
  | nil => exact h
  | cons sec front =>
    rcases h.mem (mem_cons_self) with rfl | ⟨t, rfl | rfl, -⟩
    · exact hfront _ mem_cons_self
    · exact hfront _ mem_cons_self
    · exact hfront _ mem_cons_self

theorem Leaving.not_singleton : ¬ Leaving [sec] := by
  rintro ⟨front, heq, -⟩
  have := congrArg List.length heq
  simp at this

/-- An exit goes on with sections of the exit. -/
theorem Departs.goes_on (h : Departs sec) (hexec : exec cpu sec s = some (s', next)) :
    ∀ sec' ∈ next, Departs sec' := by
  cases exec_effect hexec with
  | change hchange => cases hchange <;> first | exact h.elim | simp [Departs]
  | idle => exact nofun
  | skipPid hsec | exit hsec => rcases hsec with rfl | rfl <;> exact h.elim
  | _ => exact h.elim

theorem ExitInv.atRest (h : ExitInv n cfg) (hatomic : Atomic n cfg ev) (hc : c ≠ ev.cpu) :
    AtRest (cfg.todo c) := by
  by_cases hn : c < n
  · exact hatomic.1 c hn hc
  · rw [h.idle c (by omega)]
    trivial

section Run

variable (h : ExitInv n cfg) (hrest : ∀ c, c ≠ cpu → AtRest (cfg.todo c))
  (htodo : cfg.todo cpu = sec :: rest)

include hrest in
theorem eq_of_mem_todo (hmem : sec ∈ cfg.todo c) (hsec : sec ≠ .clearCurrent)
    (hrevives : ∀ t, ¬ Revives t sec) : c = cpu := by
  by_contra hc
  rcases (hrest c hc).mem hmem with rfl | ⟨t, rfl | rfl, -⟩
  · exact hsec rfl
  · exact hrevives t rfl
  · exact hrevives t rfl

include h hrest in
/-- Only the CPU that is in the middle of an operation has an exited task in a queue. -/
theorem ExitInv.retains (ht : cfg.shared.Exited t) (hi : i < MAX_CPUS)
    (hmem : t ∈ cfg.shared.queues i) : .retain t i ∈ cfg.todo cpu := by
  obtain ⟨c, hc⟩ := h.queues t ht i hi hmem
  exact eq_of_mem_todo hrest hc nofun (fun _ => id) ▸ hc

include h hrest in
/-- Only that CPU has an exited task as its current one. -/
theorem ExitInv.leaving (ht : cfg.shared.Exited t) (hi : i < MAX_CPUS)
    (hcurrent : cfg.shared.current i = some t) :
    Pmm.currentCpuId cpu = i ∧ Leaving (cfg.todo cpu) := by
  obtain ⟨c, hc, hleaving⟩ := h.current t ht i hi hcurrent
  by_cases heq : c = cpu
  · exact heq ▸ ⟨hc, hleaving⟩
  · exact ((hrest c heq).not_leaving hleaving).elim

include h hrest in
/-- So the invariant is kept if what is left to do on that CPU keeps it. -/
theorem ExitInv.update (hcpu : cpu < n) (hnamed : Named n ⟨s', Function.update cfg.todo cpu todo⟩)
    (hlt : ∀ t, s'.Exited t → t < s'.nextPid) (hopening : ∀ sec ∈ todo, Opening sec → todo = [sec])
    (hqueues : ∀ t, s'.Exited t → ∀ i < MAX_CPUS, t ∈ s'.queues i → .retain t i ∈ todo)
    (hcurrent : ∀ t, s'.Exited t → ∀ i < MAX_CPUS, s'.current i = some t →
      Pmm.currentCpuId cpu = i ∧ Leaving todo)
    (hrevives : ∀ t, s'.Exited t → (∀ c, ∀ sec ∈ cfg.todo c, ¬ Revives t sec) ∧
      ∀ sec ∈ todo, ¬ Revives t sec)
    (hpending : ∀ t, .markExited t ∈ todo → Pending ⟨s', Function.update cfg.todo cpu todo⟩ cpu t) :
    ExitInv n ⟨s', Function.update cfg.todo cpu todo⟩ := by
  refine ⟨hnamed, fun c hc => ?_, hlt, ?_, fun t ht i hi hmem => ?_, fun t ht i hi hc => ?_,
    fun t ht => forall_todo_update (hrevives t ht).1 (hrevives t ht).2, ?_⟩
  · exact (update_of_ne (by omega) ..).trans (h.idle c hc)
  · exact (forall_update_iff _ fun _ l => ∀ sec ∈ l, Opening sec → l = [sec]).mpr
      ⟨hopening, fun c _ => h.opening c⟩
  · exact ⟨cpu, by simpa only [update_self] using hqueues t ht i hi hmem⟩
  · exact ⟨cpu, by simpa only [update_self] using hcurrent t ht i hi hc⟩
  · intro c t hsec
    by_cases hc : c = cpu
    · subst hc
      exact hpending t (by simpa only [update_self] using hsec)
    · simp only [update_of_ne hc] at hsec
      exact (hc (eq_of_mem_todo hrest hsec nofun fun _ => id)).elim

include h htodo in
theorem ExitInv.rest_eq_nil (hopening : Opening sec) : rest = [] := by
  have := h.opening cpu sec (htodo ▸ mem_cons_self) hopening
  rw [htodo] at this
  injection this

include h hrest htodo in
/-- Before an operation that takes tasks from the queues no exited task is in one. -/
theorem ExitInv.queued_eq_zero (hopening : Opening sec) (t : Nat) (ht : cfg.shared.Exited t) :
    cfg.shared.queued t = 0 := by
  rw [queued_eq_zero_iff]
  intro i hi hmem
  have hretain := h.retains hrest ht hi hmem
  rw [htodo, h.rest_eq_nil htodo hopening, mem_singleton] at hretain
  subst hretain
  exact hopening

include h hrest htodo in
/-- An operation that acts for the current task finds one that has not exited. -/
theorem ExitInv.current_not_exited (hopening : Opening sec) (hi : i < MAX_CPUS)
    (ht : cfg.shared.current i = some t) : ¬ cfg.shared.Exited t := by
  intro hexited
  obtain ⟨-, hleaving⟩ := h.leaving hrest hexited hi ht
  rw [htodo, h.rest_eq_nil htodo hopening] at hleaving
  exact Leaving.not_singleton hleaving

include h hrest htodo in
/-- A section finds what it needs, unless it is one that makes a task exit. -/
theorem ExitInv.calmPre (hexit : ∀ code, sec ≠ .exitCurrent code)
    (hkill : ∀ pid code, sec ≠ .kill pid code) (hmark : ∀ t, sec ≠ .markExited t) :
    CalmPre cfg.shared (Pmm.currentCpuId cpu) sec := by
  have hmem : sec ∈ cfg.todo cpu := htodo ▸ mem_cons_self
  have hfresh : ¬ cfg.shared.Exited cfg.shared.nextPid := fun hexited =>
    Nat.lt_irrefl _ (h.exited_lt _ hexited)
  cases sec with
  | newTask | fork => exact hfresh
  | fetchLocal => exact h.queued_eq_zero hrest htodo trivial
  | steal victim =>
    exact ⟨h.todo cpu _ hmem, h.queued_eq_zero hrest htodo trivial⟩
  | waitWhile | waitpid =>
    exact fun t => h.current_not_exited hrest htodo trivial (currentCpuId_lt cpu)
  | markRunning u | setCurrent u | pushReady u | markWaiting u =>
    exact fun hexited => h.revives u hexited cpu _ hmem rfl
  | exitCurrent code => exact (hexit code rfl).elim
  | kill pid code => exact (hkill pid code rfl).elim
  | markExited t => exact (hmark t rfl).elim
  | _ => trivial

include h hrest htodo in
theorem ExitInv.run_calm (hcpu : cpu < n) (hexec : exec cpu sec cfg.shared = some (s', next))
    (hcalm : Calm (Pmm.currentCpuId cpu) cfg.shared sec s' next) (hmark : ∀ t, sec ≠ .markExited t) :
    ExitInv n ⟨s', Function.update cfg.todo cpu (next ++ rest)⟩ := by
  have hknown := exec_known hexec (h.todo cpu sec (htodo ▸ mem_cons_self)) h.known
    fun _ => h.held_eq_zero
  have hmem : ∀ {sec'}, sec' ∈ rest → sec' ∈ cfg.todo cpu := fun hsec' =>
    htodo ▸ mem_cons_of_mem _ hsec'
  refine h.update hrest hcpu (h.toNamed.run hcpu htodo hexec) (fun t ht => ?_) (fun sec' hsec' ho => ?_)
    (fun t ht i hi hqueue => ?_) (fun t ht i hi hcurrent => ?_) (fun t ht => ?_) fun t hsec' => ?_
  · exact (h.exited_lt t ((hcalm.exited t).mp ht)).trans_le hknown.nextPid
  · rcases mem_append.mp hsec' with hsec' | hsec'
    · obtain ⟨hopen, hnext⟩ := hcalm.opening sec' hsec' ho
      rw [hnext, h.rest_eq_nil htodo hopen]
      rfl
    · have := h.opening cpu sec' (hmem hsec') ho
      rw [htodo] at this
      injection this with _ hnil
      rw [hnil] at hsec'
      cases hsec'
  · obtain ⟨hold, hne⟩ := hcalm.queues t ((hcalm.exited t).mp ht) i hi hqueue
    have hretain := h.retains hrest ((hcalm.exited t).mp ht) hi hold
    rw [htodo] at hretain
    exact mem_append_right _ ((mem_cons.mp hretain).resolve_left fun heq => hne heq.symm)
  · obtain ⟨hold, hne⟩ := hcalm.current t i ((hcalm.exited t).mp ht) hcurrent
    obtain ⟨rfl, front, heq, hfront⟩ := h.leaving hrest ((hcalm.exited t).mp ht) hi hold
    refine ⟨rfl, ?_⟩
    rw [htodo] at heq
    cases front with
    | nil =>
      injection heq with hsec
      exact (hne rfl hsec).elim
    | cons first front =>
      injection heq with hsec hrest'
      subst hsec hrest'
      refine ⟨next ++ front, (append_assoc ..).symm, fun sec' hsec' => ?_⟩
      rcases mem_append.mp hsec' with hsec' | hsec'
      · exact (hfront sec mem_cons_self).goes_on hexec sec' hsec'
      · exact hfront sec' (mem_cons_of_mem _ hsec')
  · have hrevives := h.revives t ((hcalm.exited t).mp ht)
    refine ⟨hrevives, fun sec' hsec' => ?_⟩
    rcases mem_append.mp hsec' with hsec' | hsec'
    · exact hcalm.revives t ((hcalm.exited t).mp ht) sec' hsec'
    · exact hrevives cpu sec' (hmem hsec')
  · -- A pending mark is the first section of its CPU.
    have hold := hmem ((mem_append.mp hsec').resolve_left (hcalm.exits t))
    rcases (h.pending cpu t hold).sections with ⟨code, heq, -⟩ | ⟨code, heq, -⟩
    all_goals
      rw [htodo] at heq
      injection heq with hsec
      exact (hmark t hsec).elim

include h hrest htodo in
/-- An operation that makes a task exit begins: only what is left changes. -/
theorem ExitInv.run_opening (hcpu : cpu < n) (hopening : Opening sec)
    (hexec : exec cpu sec cfg.shared = some (cfg.shared, next))
    (hnext : ∀ sec' ∈ next, ¬ Opening sec' ∧ ∀ t, ¬ Revives t sec')
    (hpending : ∀ t, .markExited t ∈ next →
      Pending ⟨cfg.shared, Function.update cfg.todo cpu next⟩ cpu t) :
    ExitInv n ⟨cfg.shared, Function.update cfg.todo cpu (next ++ rest)⟩ := by
  have hnamed := h.toNamed.run hcpu htodo hexec
  rw [h.rest_eq_nil htodo hopening, append_nil] at hnamed ⊢
  refine h.update hrest hcpu hnamed h.exited_lt (fun sec' hsec' ho => ((hnext sec' hsec').1 ho).elim)
    (fun t ht i hi hqueue => ?_) (fun t ht i hi hcurrent => ?_)
    (fun t ht => ⟨h.revives t ht, fun sec' hsec' => (hnext sec' hsec').2 t⟩) hpending
  · exact (queued_eq_zero_iff.mp (h.queued_eq_zero hrest htodo hopening t ht) i hi hqueue).elim
  · exact (h.current_not_exited hrest htodo hopening hi hcurrent ht).elim

end Run

theorem exitSections_safe (t : Nat) (code : Int) :
    ∀ sec ∈ exitSections t code, ¬ Opening sec ∧ ∀ u, ¬ Revives u sec := by
  simp [exitSections, switchToIdle, Opening, Revives]

theorem killSections_safe (s : Scheduler) (pid : Nat) (code : Int) :
    ∀ sec ∈ s.killSections pid code, ¬ Opening sec ∧ ∀ u, ¬ Revives u sec := by
  intro sec hsec
  simp only [killSections, cons_append, nil_append, append_assoc, mem_cons,
    mem_append, Option.mem_toList, Option.map_eq_some_iff, mem_map,
    mem_range] at hsec
  rcases hsec with rfl | rfl | rfl | ⟨q, -, rfl⟩ | rfl | ⟨i, hi, rfl⟩ <;> exact ⟨id, fun _ => id⟩

theorem markExited_mem_exitSections (h : .markExited u ∈ exitSections t code) : u = t := by
  simpa [exitSections, switchToIdle] using h

theorem markExited_mem_killSections (h : .markExited u ∈ s.killSections t code) : u = t := by
  simpa [killSections] using h

theorem AtRest.not_revives (h : AtRest todo) (hno : .markRunning t ∉ todo) :
    ∀ sec ∈ todo, ¬ Revives t sec := by
  intro sec hsec hrevives
  rcases h.mem hsec with rfl | ⟨u, rfl | rfl, hmem⟩
  · exact hrevives
  · cases hrevives
    exact hno hmem
  · cases hrevives
    exact hno hmem

section

variable (h : ExitInv n cfg) (hrest : ∀ c, c ≠ cpu → AtRest (cfg.todo c))

include h hrest

/-- An exit begins for a task that is alone. -/
theorem ExitInv.run_exit (htodo : cfg.todo cpu = sec :: rest) (hcpu : cpu < n) (hopening : Opening sec)
    (hnext : ∀ sec' ∈ next, ¬ Opening sec' ∧ ∀ t, ¬ Revives t sec')
    (hexec : exec cpu sec cfg.shared = some (cfg.shared, next))
    (hmark : ∀ u, .markExited u ∈ next → u = t) (ht : t ∈ exitTarget cfg cpu)
    (halone : ExitsAlone n cfg (.run cpu)) (hknown : t < cfg.shared.nextPid)
    (hsections : (∃ code, next = exitSections t code ∧
        ∀ i < MAX_CPUS, t ∉ cfg.shared.queues i) ∨
      (∃ code, next = cfg.shared.killSections t code ∧
        cfg.shared.current (Pmm.currentCpuId cpu) ≠ some t)) :
    ExitInv n ⟨cfg.shared, Function.update cfg.todo cpu (next ++ rest)⟩ := by
  obtain ⟨hcurrent, hhands, -⟩ := halone t ht
  refine h.run_opening hrest htodo hcpu hopening hexec hnext fun u hu => ?_
  cases hmark u hu
  refine ⟨by simpa only [update_self] using hsections, hcurrent, ?_, hknown⟩
  refine forall_todo_update (fun c => ?_) fun sec' hsec' => (hnext sec' hsec').2 t
  by_cases hc : c = cpu
  · subst hc
    rw [htodo, h.rest_eq_nil htodo hopening]
    intro sec' hsec' hrevives
    cases mem_singleton.mp hsec'
    cases sec <;> first | exact hopening | exact hrevives
  · by_cases hn : c < n
    · exact (hrest c hc).not_revives (hhands c hn)
    · rw [h.idle c (by omega)]
      exact nofun

/-- A task is marked: it is nowhere but where the rest of the operation removes it from. -/
theorem ExitInv.run_mark (htodo : cfg.todo cpu = .markExited t :: rest) (hcpu : cpu < n)
    (hexec : exec cpu (.markExited t) cfg.shared = some (s', next)) :
    ExitInv n ⟨s', Function.update cfg.todo cpu (next ++ rest)⟩ ∧ ExitedStays cfg.shared s' := by
  have hnamed := h.toNamed.run hcpu htodo hexec
  have hpending := h.pending cpu t (htodo ▸ mem_cons_self)
  simp only [exec] at hexec
  split at hexec
  · cases hexec
  cases hexec
  have hself : (cfg.shared.setStatus t .Exited).Exited t := by
    simp [Exited, setStatus, modifyTask]
  have hother : ∀ {u}, u ≠ t → ((cfg.shared.setStatus t .Exited).Exited u ↔ cfg.shared.Exited u) := by
    intro u hu
    simp [Exited, setStatus, modifyTask, hu]
  have hsafe : ∀ sec' ∈ rest, ¬ Opening sec' := by
    intro sec' hsec'
    have hmem := mem_cons_of_mem (.markExited t) hsec'
    rcases hpending.sections with ⟨code, heq, -⟩ | ⟨code, heq, -⟩
    · exact (exitSections_safe t code sec' (by rwa [← heq, htodo])).1
    · exact (killSections_safe _ t code sec' (by rwa [← heq, htodo])).1
  refine ⟨h.update hrest hcpu hnamed (fun u hu => ?_) (fun sec' hsec' ho => (hsafe sec' hsec' ho).elim)
    (fun u hu i hi hqueue => ?_) (fun u hu i hi hcurrent => ?_) (fun u hu => ?_) fun u hsec' => ?_,
    fun u hu => ⟨?_, fun _ _ hi => hi⟩⟩
  · by_cases hut : u = t
    · exact hut ▸ hpending.known
    · exact h.exited_lt u ((hother hut).mp hu)
  · by_cases hut : u = t
    · subst hut
      rcases hpending.sections with ⟨code, -, hnot⟩ | ⟨code, heq, -⟩
      · exact (hnot i hi hqueue).elim
      · rw [htodo] at heq
        injection heq with _ heq
        simp [heq, hi]
    · have hretain := h.retains hrest ((hother hut).mp hu) hi hqueue
      rw [htodo] at hretain
      exact (mem_cons.mp hretain).resolve_left (by simp)
  · by_cases hut : u = t
    · subst hut
      have hi' : Pmm.currentCpuId cpu = i := by
        by_contra hne
        exact hpending.current i hi (Ne.symm hne) hcurrent
      subst hi'
      rcases hpending.sections with ⟨code, heq, -⟩ | ⟨code, -, hnot⟩
      · rw [htodo] at heq
        injection heq with _ heq
        exact ⟨rfl, [.setExitCode u code, .wakeParentLocked u], heq, by simp [Departs]⟩
      · exact (hnot hcurrent).elim
    · obtain ⟨-, front, heq, hfront⟩ := h.leaving hrest ((hother hut).mp hu) hi hcurrent
      rw [htodo] at heq
      cases front with
      | nil => cases heq
      | cons first front =>
        injection heq with hfirst
        subst hfirst
        exact (hfront _ mem_cons_self).elim
  · have hrevives : ∀ c, ∀ sec' ∈ cfg.todo c, ¬ Revives u sec' := by
      by_cases hut : u = t
      · exact hut ▸ hpending.revives
      · exact h.revives u ((hother hut).mp hu)
    exact ⟨hrevives, fun sec' hsec' => hrevives cpu sec' (htodo ▸ mem_cons_of_mem _ hsec')⟩
  · exfalso
    rcases hpending.sections with ⟨code, heq, -⟩ | ⟨code, heq, -⟩
    all_goals
      rw [htodo] at heq
      injection heq with _ heq
      simp [heq, switchToIdle] at hsec'
  · by_cases hut : u = t
    · exact hut ▸ hself
    · exact (hother hut).mpr hu

/-- Running a section keeps the invariant, and exited tasks stay so. -/
theorem ExitInv.run (htodo : cfg.todo cpu = sec :: rest) (hcpu : cpu < n)
    (halone : ExitsAlone n cfg (.run cpu)) (hexec : exec cpu sec cfg.shared = some (s', next)) :
    ExitInv n ⟨s', Function.update cfg.todo cpu (next ++ rest)⟩ ∧ ExitedStays cfg.shared s' := by
  by_cases hopening : (∃ code, sec = .exitCurrent code) ∨ ∃ pid code, sec = .kill pid code
  · have hcurrent_lt : ∀ {t}, cfg.shared.current (Pmm.currentCpuId cpu) = some t →
        t < cfg.shared.nextPid := current_lt (fun _ => h.held_eq_zero) (currentCpuId_lt cpu)
    rcases hopening with ⟨code, rfl⟩ | ⟨pid, code, rfl⟩
    · have hexec' := hexec
      simp only [exec] at hexec'
      split at hexec'
      · cases hexec'
        exact ⟨h.run_opening hrest htodo hcpu trivial hexec (by simp) (by simp), .refl _⟩
      · next t ht =>
        cases hexec'
        have htarget : t ∈ exitTarget cfg cpu := by
          simp [exitTarget, htodo, ht]
        exact ⟨h.run_exit hrest htodo hcpu trivial (exitSections_safe t code) hexec
          (fun _ => markExited_mem_exitSections) htarget halone (hcurrent_lt ht)
          (.inl ⟨code, rfl, (halone t htarget).2.2 ht⟩), .refl _⟩
    · have htarget : pid ∈ exitTarget cfg cpu := by
        simp [exitTarget, htodo]
      have hexec' := hexec
      simp only [exec] at hexec'
      split at hexec'
      · next ht =>
        cases hexec'
        exact ⟨h.run_exit hrest htodo hcpu trivial (exitSections_safe pid code) hexec
          (fun _ => markExited_mem_exitSections) htarget halone (hcurrent_lt ht)
          (.inl ⟨code, rfl, (halone pid htarget).2.2 ht⟩), .refl _⟩
      · next hne =>
        split at hexec'
        · next hall =>
          cases hexec'
          exact ⟨h.run_exit hrest htodo hcpu trivial (killSections_safe _ pid code) hexec
            (fun _ => markExited_mem_killSections) htarget halone (h.known.allTasks pid hall)
            (.inr ⟨code, rfl, hne⟩), .refl _⟩
        · cases hexec'
          exact ⟨h.run_opening hrest htodo hcpu trivial hexec (by simp) (by simp), .refl _⟩
  · by_cases hmark : ∃ t, sec = .markExited t
    · obtain ⟨t, rfl⟩ := hmark
      exact h.run_mark hrest htodo hcpu hexec
    · rw [not_or] at hopening
      have hcalm := exec_calm hexec (h.calmPre hrest htodo (fun code heq => hopening.1 ⟨code, heq⟩)
        (fun pid code heq => hopening.2 ⟨pid, code, heq⟩) fun t heq => hmark ⟨t, heq⟩)
      refine ⟨h.run_calm hrest htodo hcpu hexec hcalm fun t heq => hmark ⟨t, heq⟩, fun t ht => ?_⟩
      exact ⟨(hcalm.exited t).mpr ht, fun i hi hmem => (hcalm.queues t ht i hi hmem).1⟩

end

/-- A call changes only what is left to do. -/
theorem ExitInv.call {sections : List Section} (h : ExitInv n cfg)
    (hlegal : Legal n cfg (.call cpu sections)) (hatomic : Atomic n cfg (.call cpu sections)) :
    ExitInv n ⟨cfg.shared, Function.update cfg.todo cpu (sections ++ cfg.todo cpu)⟩ := by
  have hnamed := h.toNamed.call hlegal
  have hrest : ∀ c, c ≠ cpu → AtRest (cfg.todo c) := fun c hc => h.atRest hatomic hc
  obtain ⟨-, hnil, hlength⟩ := hatomic
  obtain ⟨sec, rfl⟩ := length_eq_one_iff.mp hlength
  have hcall := hlegal.2 sec mem_cons_self
  rw [hnil] at hnamed ⊢
  refine h.update hrest hlegal.1 hnamed h.exited_lt (fun sec' hsec' _ => ?_)
    (fun t ht i hi hqueue => ?_) (fun t ht i hi hcurrent => ?_)
    (fun t ht => ⟨h.revives t ht, fun sec' hsec' => ?_⟩) fun t hsec' => ?_
  · rw [mem_singleton.mp hsec']
    rfl
  · have hretain := h.retains hrest ht hi hqueue
    rw [hnil] at hretain
    cases hretain
  · obtain ⟨-, hleaving⟩ := h.leaving hrest ht hi hcurrent
    rw [hnil] at hleaving
    exact ((show AtRest [] from trivial).not_leaving hleaving).elim
  · cases mem_singleton.mp hsec'
    cases sec <;> first | exact id | exact hcall.elim
  · cases mem_singleton.mp hsec'
    exact hcall.elim

theorem ExitInv.step (h : ExitInv n cfg) (hlegal : Legal n cfg ev) (hatomic : Atomic n cfg ev)
    (halone : ExitsAlone n cfg ev) (hstep : cfg.step exec ev = some cfg') :
    ExitInv n cfg' ∧ ExitedStays cfg.shared cfg'.shared := by
  obtain ⟨cpu, sec, rest, s', next, rfl, htodo, hexec, rfl⟩ | ⟨cpu, sections, rfl, rfl⟩ :=
    Config.step_cases hstep
  · exact h.run (fun c hc => h.atRest hatomic hc) htodo hlegal halone hexec
  · exact ⟨h.call hlegal hatomic, .refl _⟩

theorem ExitInv.boot (n cpuCount : Nat) (killHook : Option Nat) :
    ExitInv n (bootConfig cpuCount killHook) := by
  have hexited : ∀ t, ¬ (Scheduler.boot cpuCount killHook).Exited t := nofun
  exact ⟨.boot n cpuCount killHook, fun _ _ => rfl, fun t ht => (hexited t ht).elim, nofun,
    fun t ht => (hexited t ht).elim, fun t ht => (hexited t ht).elim,
    fun t ht => (hexited t ht).elim, nofun⟩

end Runs

/-- With atomic operations, in every run in which a task is made to exit only while it is
current on no other CPU, in the hands of none, and, if it exits itself, in no ready queue:
from every state that is reached, tasks that have exited stay so and enter no ready
queue. -/
theorem exitedStays_of_exitsAlone (n cpuCount : Nat) (killHook : Option Nat)
    (cfg cfg' : Configuration)
    (h : Reach exec (fun cfg ev => Legal n cfg ev ∧ Atomic n cfg ev ∧ ExitsAlone n cfg ev)
      (bootConfig cpuCount killHook) cfg)
    (h' : Reach exec (fun cfg ev => Legal n cfg ev ∧ Atomic n cfg ev ∧ ExitsAlone n cfg ev)
      cfg cfg') : ExitedStays cfg.shared cfg'.shared := by
  have hinv : ExitInv n cfg := by
    refine h.invariant (.boot n cpuCount killHook) fun hinv hok hstep => ?_
    exact (hinv.step hok.1 hok.2.1 hok.2.2 hstep).1
  have hlater : ExitInv n cfg' ∧ ExitedStays cfg.shared cfg'.shared := by
    refine h'.invariant (P := fun later => ExitInv n later ∧ ExitedStays cfg.shared later.shared)
      ⟨hinv, .refl _⟩ fun hlater hok hstep => ?_
    obtain ⟨hnext, hstays⟩ := hlater.1.step hok.1 hok.2.1 hok.2.2 hstep
    exact ⟨hnext, hlater.2.trans hstays⟩
  exact hlater.2

instance : DecidablePred AtRest := fun todo => by
  unfold AtRest
  split <;> infer_instance

instance (n : Nat) (cfg : Configuration) : ∀ ev, Decidable (Atomic n cfg ev)
  | .run _ | .call .. => by unfold Atomic; infer_instance

instance (n : Nat) (cfg : Configuration) : ∀ ev, Decidable (ExitsAlone n cfg ev)
  | .run _ | .call .. => by unfold ExitsAlone; infer_instance

instance (s : Scheduler) (t : Nat) : Decidable (s.Exited t) := by
  unfold Exited
  infer_instance

/-- CPU 0 runs a task that waits; CPU 1 kills it, and wakes it in vain. -/
theorem exitedStays_killWaiting :
    ∃ cfg cfg' : Configuration,
      Reach exec (fun cfg ev => Legal 2 cfg ev ∧ Atomic 2 cfg ev ∧ ExitsAlone 2 cfg ev)
        (bootConfig 2 none) cfg ∧
      Reach exec (fun cfg ev => Legal 2 cfg ev ∧ Atomic 2 cfg ev ∧ ExitsAlone 2 cfg ev) cfg cfg' ∧
      cfg.shared.Exited 1 ∧ cfg.shared.waiters 0 = [1] ∧ cfg'.shared.waiters 0 = [] ∧
      ExitedStays cfg.shared cfg'.shared := by
  obtain ⟨cfg, hreach, ⟨hexited, hwaits⟩, hwake⟩ := Reach.exists_runAll exec
    (fun cfg ev => Legal 2 cfg ev ∧ Atomic 2 cfg ev ∧ ExitsAlone 2 cfg ev) (bootConfig 2 none)
    (P := fun cfg => (cfg.shared.Exited 1 ∧ cfg.shared.waiters 0 = [1]) ∧
      (runAll exec (fun cfg ev => Legal 2 cfg ev ∧ Atomic 2 cfg ev ∧ ExitsAlone 2 cfg ev)
        (callAndRun 1 (.wakeOne 0) 3) cfg).any fun cfg' => decide (cfg'.shared.waiters 0 = []))
    (startTask ++ callAndRun 0 (.waitWhile 0 true) 6 ++ callAndRun 1 (.kill 1 9) 69)
    (by decide +kernel)
  obtain ⟨cfg', hreach', hwoken⟩ := Reach.exists_runAll _ _ _ _ hwake
  exact ⟨cfg, cfg', hreach, hreach', hexited, hwaits, hwoken,
    exitedStays_of_exitsAlone 2 2 none cfg cfg' hreach hreach'⟩

/-- CPU 1 kills the task that CPU 0 runs, and there the task waits. -/
theorem killed_task_waits :
    ∃ cfg cfg' : Configuration,
      Reach exec (fun cfg ev => Legal 2 cfg ev ∧ Atomic 2 cfg ev) (bootConfig 2 none) cfg ∧
      Reach exec (fun cfg ev => Legal 2 cfg ev ∧ Atomic 2 cfg ev) cfg cfg' ∧
      cfg.shared.Exited 1 ∧ (cfg'.shared.tasks 1).taskStatus = .Waiting ∧
      ¬ ExitedStays cfg.shared cfg'.shared := by
  obtain ⟨cfg, hreach, hexited, hwait⟩ := Reach.exists_runAll exec
    (fun cfg ev => Legal 2 cfg ev ∧ Atomic 2 cfg ev) (bootConfig 2 none)
    (P := fun cfg => cfg.shared.Exited 1 ∧
      (runAll exec (fun cfg ev => Legal 2 cfg ev ∧ Atomic 2 cfg ev)
        (callAndRun 0 (.waitWhile 0 true) 6) cfg).any
          fun cfg' => decide ((cfg'.shared.tasks 1).taskStatus = .Waiting))
    (startTask ++ callAndRun 1 (.kill 1 9) 69) (by decide +kernel)
  obtain ⟨cfg', hreach', hwaiting⟩ := Reach.exists_runAll _ _ _ _ hwait
  refine ⟨cfg, cfg', hreach, hreach', hexited, hwaiting, fun h => ?_⟩
  have := (h 1 hexited).1
  rw [Exited, hwaiting] at this
  cases this

end Scheduler

end BoruixKernel
