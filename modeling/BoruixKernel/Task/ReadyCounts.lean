import BoruixKernel.Task.ExitedFinal
import BoruixKernel.Task.RunQueue

/-!
# The ready counts, and what a fetch does to the ready queues

`READY_COUNTS` follows the lengths of the ready queues, as numbers of 64 bits, if operations
are not interrupted.  A fetch takes one task out of one queue; stealing moves others from the
victim to the own queue, and puts back those that are not ready, so the tasks in all the
queues together are the same but for the one that is handed out.
-/

namespace BoruixKernel

open Function Option

namespace Scheduler

def CountsMatch (s : Scheduler) : Prop :=
  ∀ i < MAX_CPUS, s.readyCounts i = UInt64.ofNat (s.queues i).length

/-- The tasks in all ready queues, with multiplicity. -/
def readyTasks (s : Scheduler) : Multiset Nat :=
  (Finset.range MAX_CPUS).sum fun i => (s.queues i : Multiset Nat)

/-- The tasks that are handed out. -/
def handed : Option Nat → Multiset Nat
  | none => 0
  | some t => {t}

/-- What a fetch on a CPU returns and leaves behind.  With an empty queue of its own, the
CPU gets what it gets by stealing. -/
structure FetchOk (s : Scheduler) (cpu : Nat) (first : Option Nat) (s' : Scheduler) : Prop where
  conserves : s.readyTasks = handed first + s'.readyTasks
  stolen : s.queues cpu = [] → ∀ t, first = some t ∨ t ∈ s'.queues cpu → (s.tasks t).taskStatus = .Ready

variable {s s' : Scheduler} {cpu t i victim : Nat} {first : Option Nat}

/-! ## Counts -/

variable {queue : List Nat} {raw : Nat} {op : Op}

theorem CountsMatch.of_eq (h : s.CountsMatch) (hqueues : s'.queues = s.queues)
    (hcounts : s'.readyCounts = s.readyCounts) : s'.CountsMatch := by
  intro i hi
  rw [hqueues, hcounts]
  exact h i hi

/-- A queue and its count are changed together. -/
theorem CountsMatch.update (h : s.CountsMatch) (cpu : Nat)
    (hcount : count = UInt64.ofNat queue.length) (hqueues : s'.queues = update s.queues cpu queue)
    (hcounts : s'.readyCounts = update s.readyCounts cpu count) : s'.CountsMatch := by
  intro i hi
  rw [hqueues, hcounts]
  by_cases hc : i = cpu
  · subst hc
    rw [update_self, update_self, hcount]
  · rw [update_of_ne hc, update_of_ne hc]
    exact h i hi

theorem CountsMatch.modifyTask (h : s.CountsMatch) (t : Nat) (f : TaskControlBlock → TaskControlBlock) :
    (s.modifyTask t f).CountsMatch := h.of_eq rfl rfl

theorem CountsMatch.push (h : s.CountsMatch) (hcpu : cpu < MAX_CPUS) (t : Nat) :
    ((s.add cpu t).addReady cpu 1).CountsMatch := by
  refine h.update cpu ?_ rfl rfl
  rw [List.length_append, UInt64.ofNat_add, ← h cpu hcpu]
  rfl

/-- `fetch` takes one task out of the queue. -/
theorem fetch_queues (hfetch : s.fetch cpu = some (t, s')) :
    ∃ queue, s'.queues = update s.queues cpu queue ∧ (s.queues cpu).Perm (t :: queue) := by
  unfold fetch at hfetch
  obtain ⟨v, hv, ⟨⟩⟩ := map_eq_some_iff.mp hfetch
  obtain ⟨hlt, rfl⟩ := List.getElem?_eq_some_iff.mp hv
  exact ⟨_, rfl, (List.getElem_cons_eraseIdx_perm hlt).symm⟩

theorem fetch_readyCounts (hfetch : s.fetch cpu = some (t, s')) : s'.readyCounts = s.readyCounts := by
  unfold fetch at hfetch
  obtain ⟨v, -, ⟨⟩⟩ := map_eq_some_iff.mp hfetch
  rfl

theorem CountsMatch.fetch (h : s.CountsMatch) (hcpu : cpu < MAX_CPUS)
    (hfetch : s.fetch cpu = some (t, s')) : (s'.addReady cpu (-1)).CountsMatch := by
  obtain ⟨queue, hqueues, hperm⟩ := fetch_queues hfetch
  have hcount : s.readyCounts cpu + -1 = UInt64.ofNat queue.length := by
    rw [h cpu hcpu, hperm.length_eq, List.length_cons, UInt64.ofNat_add, UInt64.add_assoc]
    exact UInt64.add_zero _
  refine h.update cpu hcount hqueues ?_
  rw [addReady, fetch_readyCounts hfetch]

theorem CountsMatch.stealLoop (h : s.CountsMatch) (hvictim : victim < MAX_CPUS)
    (hcpu : cpu < MAX_CPUS) (hsteal : stealLoop victim cpu n first s = some (first', s')) :
    s'.CountsMatch := by
  refine stealLoop_keeps (P := fun _ r => r.CountsMatch) (fun h hfetch _ => ?_) (fun h hfetch _ => ?_)
    (fun h hfetch _ => ?_) h hsteal
  · exact h.fetch hvictim hfetch
  · exact (h.fetch hvictim hfetch).push hcpu _
  · exact (h.fetch hvictim hfetch).push hvictim _

theorem CountsMatch.enqueueReady (h : s.CountsMatch) (hcpu : cpu < MAX_CPUS)
    (hop : s.enqueueReady cpu t = some (b, s')) : s'.CountsMatch := by
  unfold Scheduler.enqueueReady at hop
  split at hop
  · cases hop
    exact h
  · dsimp only at hop
    split_ifs at hop <;> cases hop
    · exact h.of_eq rfl rfl
    · exact ((h.modifyTask t _).modifyTask t _).push hcpu t

theorem CountsMatch.setWaiters (h : s.CountsMatch) :
    (s.setWaiters q ts).CountsMatch := h.of_eq rfl rfl

theorem CountsMatch.addTask (h : s.CountsMatch) (hcpu : cpu < MAX_CPUS) (loads : Bool) :
    (s.addTask cpu loads).2.CountsMatch := by
  cases loads with
  | false => exact h.of_eq rfl rfl
  | true =>
    refine CountsMatch.push ?_ hcpu _
    exact h.of_eq rfl rfl

/-- A task that exits wakes its parent without touching the queues. -/
theorem wakeParentHeld_frame (hop : s.wakeParentHeld t = some s') :
    s'.queues = s.queues ∧ s'.readyCounts = s.readyCounts := by
  unfold wakeParentHeld at hop
  split at hop
  · cases hop
    exact ⟨rfl, rfl⟩
  · split_ifs at hop <;> cases hop <;> exact ⟨rfl, rfl⟩

theorem CountsMatch.exitTask (h : s.CountsMatch) (hop : s.exitTask cpu t code = some s') :
    s'.CountsMatch := by
  unfold Scheduler.exitTask at hop
  split at hop
  · cases hop
  · obtain ⟨s1, hwake, rfl⟩ := map_eq_some_iff.mp hop
    obtain ⟨hqueues, hcounts⟩ := wakeParentHeld_frame hwake
    exact h.of_eq hqueues hcounts

theorem CountsMatch.retainOthers (h : s.CountsMatch) (pid : Nat) (l : List Nat) :
    (l.foldl (retainOthers pid) s).CountsMatch := by
  induction l generalizing s with
  | nil => exact h
  | cons i l ih => exact ih (h.update i rfl rfl rfl)

theorem CountsMatch.killTask (h : s.CountsMatch) (hcpu : cpu < MAX_CPUS)
    (hop : s.killTask cpu pid code = some (b, s')) : s'.CountsMatch := by
  unfold Scheduler.killTask at hop
  split at hop
  · obtain ⟨s1, hexit, ⟨⟩⟩ := map_eq_some_iff.mp hop
    exact h.exitTask hexit
  · split at hop
    · split at hop
      · cases hop
      · obtain ⟨s1, hhook, hop⟩ := bind_eq_some_iff.mp hop
        obtain ⟨s2, hparent, ⟨⟩⟩ := map_eq_some_iff.mp hop
        have hmarked : (s.markKilled pid code).CountsMatch := h.of_eq rfl rfl
        exact (killWakes_keeps (fun hs => hs.enqueueReady hcpu) .setWaiters hmarked hhook
          hparent).retainOthers pid _
    · cases hop
      exact h

/-! ## Conservation -/

theorem readyTasks_update (hcpu : cpu < MAX_CPUS) (hqueues : s'.queues = update s.queues cpu queue) :
    s'.readyTasks + (s.queues cpu : Multiset Nat) = s.readyTasks + (queue : Multiset Nat) := by
  have hfun : (fun i => (s'.queues i : Multiset Nat)) =
      update (fun i => (s.queues i : Multiset Nat)) cpu (queue : Multiset Nat) := by
    funext i
    rw [hqueues]
    by_cases hi : i = cpu
    · subst hi
      simp [update_self]
    · simp [update_of_ne hi]
  have hsum := Interleaving.sum_update hcpu (fun i => (s.queues i : Multiset Nat)) (queue : Multiset Nat)
  rw [← hfun] at hsum
  exact hsum

theorem readyTasks_fetch (hcpu : cpu < MAX_CPUS) (hfetch : s.fetch cpu = some (t, s')) :
    s.readyTasks = {t} + s'.readyTasks := by
  obtain ⟨queue, hqueues, hperm⟩ := fetch_queues hfetch
  have hupdate := readyTasks_update hcpu hqueues
  rw [Multiset.coe_eq_coe.mpr hperm, ← Multiset.cons_coe, ← Multiset.singleton_add, ← add_assoc] at hupdate
  rw [add_comm]
  exact (add_right_cancel hupdate).symm

theorem readyTasks_push (hcpu : cpu < MAX_CPUS) (n : UInt64) :
    ((s.add cpu t).addReady cpu n).readyTasks = {t} + s.readyTasks := by
  have hupdate : ((s.add cpu t).addReady cpu n).readyTasks + _ = _ := readyTasks_update hcpu rfl
  rw [← Multiset.coe_add, ← add_assoc, add_right_comm] at hupdate
  rw [add_comm]
  exact add_right_cancel hupdate

@[simp] theorem readyTasks_addReady (n : UInt64) : (s.addReady cpu n).readyTasks = s.readyTasks := rfl

@[simp] theorem handed_none_add : handed none + s.readyTasks = s.readyTasks := zero_add _

theorem stealLoop_conserves (hvictim : victim < MAX_CPUS) (hcpu : cpu < MAX_CPUS)
    (hsteal : stealLoop victim cpu n none s = some (first, s')) :
    s.readyTasks = handed first + s'.readyTasks := by
  refine stealLoop_keeps (P := fun f r => s.readyTasks = handed f + r.readyTasks)
    (fun h hfetch _ => ?_) (fun h hfetch _ => ?_) (fun h hfetch _ => ?_) handed_none_add.symm hsteal
  · rw [h, handed_none_add, readyTasks_fetch hvictim hfetch, readyTasks_addReady, handed]
  · rw [h, readyTasks_fetch hvictim hfetch, readyTasks_push hcpu, readyTasks_addReady]
  · rw [h, readyTasks_fetch hvictim hfetch, readyTasks_push hvictim, readyTasks_addReady]

/-! ## What is stolen -/

theorem fetch_status (hfetch : s.fetch cpu = some (t, s')) (u : Nat) :
    (s'.tasks u).taskStatus = (s.tasks u).taskStatus := by
  unfold fetch at hfetch
  obtain ⟨v, -, ⟨⟩⟩ := map_eq_some_iff.mp hfetch
  by_cases hu : u = t
  · subst hu
    simp [modifyTask, setQueue]
  · simp [modifyTask, setQueue, hu]

/-- The tasks that are handed out or in the own queue were ready, and no status has
changed. -/
def OnlyReady (s : Scheduler) (cpu : Nat) (first : Option Nat) (s' : Scheduler) : Prop :=
  (∀ t, (s'.tasks t).taskStatus = (s.tasks t).taskStatus) ∧
    ∀ t, first = some t ∨ t ∈ s'.queues cpu → (s.tasks t).taskStatus = .Ready

theorem OnlyReady.fetch (h : s.OnlyReady cpu first r) (hne : cpu ≠ victim)
    (hfetch : r.fetch victim = some (t, r')) : s.OnlyReady cpu first r' := by
  obtain ⟨queue, hqueues, -⟩ := fetch_queues hfetch
  refine ⟨fun u => (fetch_status hfetch u).trans (h.1 u), fun u hu => h.2 u ?_⟩
  rwa [hqueues, update_of_ne hne] at hu

theorem OnlyReady.handed (h : s.OnlyReady cpu none r) (hready : (r.tasks t).taskStatus = .Ready) :
    s.OnlyReady cpu (some t) r := by
  refine ⟨h.1, fun u hu => ?_⟩
  rcases hu with hu | hu
  · cases hu
    rw [← h.1, hready]
  · exact h.2 u (.inr hu)

/-- Tasks that are put back go to the victim. -/
theorem OnlyReady.back (h : s.OnlyReady cpu first r) (hne : cpu ≠ victim) :
    s.OnlyReady cpu first (r.add victim t) := by
  refine ⟨h.1, fun u hu => h.2 u ?_⟩
  simp only [add, setQueue, update_of_ne hne] at hu
  exact hu

theorem OnlyReady.moved (h : s.OnlyReady cpu first r) (hready : (r.tasks t).taskStatus = .Ready) :
    s.OnlyReady cpu first (r.add cpu t) := by
  refine ⟨h.1, fun u hu => ?_⟩
  simp only [add, setQueue, update_self, List.mem_append, List.mem_singleton] at hu
  rcases hu with hu | hu | rfl
  · exact h.2 u (.inl hu)
  · exact h.2 u (.inr hu)
  · rw [← h.1, hready]

theorem stealLoop_onlyReady (hne : cpu ≠ victim) (hempty : s.queues cpu = [])
    (hsteal : stealLoop victim cpu n none s = some (first, s')) : s.OnlyReady cpu first s' := by
  have hinit : s.OnlyReady cpu none s := ⟨fun _ => rfl, fun t ht => by simp [hempty] at ht⟩
  refine stealLoop_keeps (P := fun f r => s.OnlyReady cpu f r) (fun h hfetch hready => ?_)
    (fun h hfetch hready => ?_) (fun h hfetch _ => ?_) hinit hsteal
  · exact (h.fetch hne hfetch).handed hready
  · exact (h.fetch hne hfetch).moved hready
  · exact (h.fetch hne hfetch).back hne

/-! ## Fetches -/

section Fetch

theorem fetch_eq_none_iff : s.fetch cpu = none ↔ s.queues cpu = [] := by
  have hbound : ∀ (queue : List Nat) (idx minIdx : Nat) (minPass : UInt64), minIdx < idx + queue.length →
      s.minPassIdx queue idx minPass minIdx < idx + queue.length := by
    intro queue
    induction queue with
    | nil => exact fun _ _ _ h => h
    | cons t queue ih =>
      intro idx minIdx minPass h
      rw [List.length_cons] at h ⊢
      rw [minPassIdx]
      split
      · have := ih (idx + 1) idx (s.tasks t).pass (by omega)
        omega
      · have := ih (idx + 1) minIdx minPass (by omega)
        omega
  unfold fetch
  rw [map_eq_none_iff, List.getElem?_eq_none_iff]
  constructor
  · intro hle
    by_contra hne
    have hpos := List.length_pos_iff.mpr hne
    have := hbound (s.queues cpu) 0 0 0xFFFFFFFFFFFFFFFF (by omega)
    omega
  · intro hempty
    rw [hempty]
    exact Nat.zero_le _

/-- A task of the own queue. -/
theorem FetchOk.own (hcpu : cpu < MAX_CPUS) (hfetch : s.fetch cpu = some (t, s')) (n : UInt64) :
    s.FetchOk cpu (some t) (s'.addReady cpu n) where
  conserves := by rw [readyTasks_addReady, readyTasks_fetch hcpu hfetch, handed]
  stolen hempty := by
    rw [fetch_eq_none_iff.mpr hempty] at hfetch
    cases hfetch

/-- Nothing is fetched. -/
theorem FetchOk.nothing : s.FetchOk cpu none s where
  conserves := handed_none_add.symm
  stolen hempty t ht := by simp [hempty] at ht

section Fetched

variable (hfetched : s.Fetched cpu contended steal first s')
  (hloop : ∀ {i m r}, steal i m = some r → ∃ n, Scheduler.stealLoop i cpu n none s = some r)
  (hcpu : cpu < MAX_CPUS)

include hfetched hloop hcpu

theorem Fetched.ok : s.FetchOk cpu first s' := by
  cases hfetched with
  | own hfetch => exact .own hcpu hfetch _
  | nothing => exact .nothing
  | stolen hfetch _ hvictim _ hsteal =>
    obtain ⟨hi, hne, -⟩ := bestVictim_spec hvictim
    obtain ⟨n, hsteal⟩ := hloop hsteal
    exact ⟨stealLoop_conserves hi hcpu hsteal,
      fun _ => (stealLoop_onlyReady hne.symm (fetch_eq_none_iff.mp hfetch) hsteal).2⟩

theorem CountsMatch.fetched (h : s.CountsMatch) : s'.CountsMatch := by
  cases hfetched with
  | own hfetch => exact h.fetch hcpu hfetch
  | nothing => exact h
  | stolen _ _ hvictim _ hsteal =>
    obtain ⟨n, hsteal⟩ := hloop hsteal
    exact h.stealLoop (bestVictim_lt hvictim) hcpu hsteal

end Fetched

end Fetch

/-! ## All operations -/

theorem CountsMatch.perform (h : s.CountsMatch) (hop : perform raw op s = some (a, s')) :
    s'.CountsMatch := by
  have hcpu := currentCpuId_lt raw
  cases op with
  | addTask loads =>
    cases hop
    exact h.addTask hcpu loads
  | enqueueReady t =>
    obtain ⟨_, hrun, ⟨⟩⟩ := map_eq_some_iff.mp hop
    exact h.enqueueReady hcpu hrun
  | fetchNextTask contended =>
    obtain ⟨_, hrun, ⟨⟩⟩ := map_eq_some_iff.mp hop
    exact h.fetched (fetchNextTask_fetched hrun) (fun hsteal => ⟨_, hsteal⟩) hcpu
  | fetchNextTaskTry ownContended contended =>
    obtain ⟨_, hrun, ⟨⟩⟩ := map_eq_some_iff.mp hop
    exact h.fetched (fetchNextTaskTry_fetched hrun) (stealOneLoop_stealLoop _) hcpu
  | killTask pid code =>
    obtain ⟨_, hrun, ⟨⟩⟩ := map_eq_some_iff.mp hop
    exact h.killTask hcpu hrun
  | runTask t =>
    obtain ⟨_, hrun, ⟨⟩⟩ := map_eq_some_iff.mp hop
    unfold Scheduler.runTask at hrun
    split at hrun <;> cases hrun
    exact h.of_eq rfl rfl
  | suspendTask =>
    obtain ⟨_, hrun, ⟨⟩⟩ := map_eq_some_iff.mp hop
    unfold Scheduler.suspendTask at hrun
    split at hrun
    · cases hrun
      exact h
    · obtain ⟨_, henqueue, rfl⟩ := map_eq_some_iff.mp hrun
      exact (h.enqueueReady hcpu henqueue).of_eq rfl rfl
  | waitWhile q condition =>
    obtain ⟨_, hrun, ⟨⟩⟩ := map_eq_some_iff.mp hop
    unfold Scheduler.waitWhile at hrun
    split at hrun
    · cases hrun
      exact h
    · split_ifs at hrun <;> cases hrun <;> exact h.of_eq rfl rfl
  | wakeOne q =>
    obtain ⟨_, hrun, ⟨⟩⟩ := map_eq_some_iff.mp hop
    exact wakeOne_keeps (fun hs => hs.enqueueReady hcpu) .setWaiters h hrun
  | wakeAll q =>
    obtain ⟨_, hrun, ⟨⟩⟩ := map_eq_some_iff.mp hop
    exact wakeAll_keeps (fun hs => hs.enqueueReady hcpu) .setWaiters h hrun

theorem fetched_ok (hop : perform raw op s = some (.fetched first, s')) :
    s.FetchOk (Pmm.currentCpuId raw) first s' := by
  have hcpu := currentCpuId_lt raw
  cases op with
  | fetchNextTask contended =>
    obtain ⟨_, hrun, ⟨⟩⟩ := map_eq_some_iff.mp hop
    exact (fetchNextTask_fetched hrun).ok (fun hsteal => ⟨_, hsteal⟩) hcpu
  | fetchNextTaskTry ownContended contended =>
    obtain ⟨_, hrun, ⟨⟩⟩ := map_eq_some_iff.mp hop
    exact (fetchNextTaskTry_fetched hrun).ok (stealOneLoop_stealLoop _) hcpu
  | addTask => cases hop
  | enqueueReady | killTask | runTask | suspendTask | waitWhile | wakeOne | wakeAll =>
    obtain ⟨_, -, ⟨⟩⟩ := map_eq_some_iff.mp hop

/-- From a state in which the counts match, every sequence of operations of any CPUs leads to
states in which they match, and in which a fetch takes exactly the task it returns out of the
ready queues; what it steals was ready. -/
theorem readyCounts_and_fetches {init : Scheduler} (hinit : init.CountsMatch)
    (h : Performs (fun _ _ _ => True) init s) :
    s.CountsMatch ∧ ∀ raw op first s', perform raw op s = some (.fetched first, s') →
      s.FetchOk (Pmm.currentCpuId raw) first s' := by
  constructor
  · exact h.invariant hinit fun hs _ hop => hs.perform hop
  · intro raw op first s' hop
    exact fetched_ok hop

/-- A new task on CPU 0 is fetched there, and the counts follow. -/
theorem readyCounts_and_fetches_start :
    (boot 1 none).CountsMatch ∧ ∃ s, Performs (fun _ _ _ => True) (boot 1 none) s ∧
      s.queues 0 = [1] ∧ s.readyCounts 0 = 1 ∧ s.CountsMatch ∧
      ∃ s', perform 0 (.fetchNextTask false) s = some (.fetched (some 1), s') ∧
        s.FetchOk 0 (some 1) s' := by
  have hboot : (boot 1 none).CountsMatch := fun _ _ => rfl
  have hadd : Performs (fun _ _ _ => True) (boot 1 none) ((boot 1 none).addTask 0 true).2 :=
    .step 0 (.addTask true) .init trivial rfl
  have hok := readyCounts_and_fetches hboot hadd
  exact ⟨hboot, _, hadd, rfl, rfl, hok.1, _, rfl, hok.2 0 (.fetchNextTask false) (some 1) _ rfl⟩

end Scheduler

end BoruixKernel
