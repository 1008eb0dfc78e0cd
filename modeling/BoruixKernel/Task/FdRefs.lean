import BoruixKernel.Lib.Interleaving
import BoruixKernel.Task.FdMap

/-!
# Reference counts of handles

The tables of all tasks, and the count that each handle keeps of the slots it is in.  An
operation is *balanced* if it changes the counts of the handles by as much as the slots
change.  All are, except for `dup` when no descriptor is free: it has raised the count
before it asks for one.  `kill_task` leaves the table of its target as it is, so that the
slots of a task that was killed stay counted.
-/

namespace BoruixKernel

open Function Finset FdTable

/-- 1 if a slot holds the handle. -/
def isHandle (h : HandleId) (o : Option HandleId) : Nat := if o = some h then 1 else 0

namespace FdTable

variable {t t' t₂ : FdTable} {hs hs' hs₂ : Handles} {h : HandleId} {fd : Nat}

/-! ## Slots that hold a handle -/

/-- The slots that hold a handle. -/
def holds (t : FdTable) (h : HandleId) : Nat := t.entries.count (some h)

theorem holds_eq_sum (hn : t.entries.length ≤ n) :
    t.holds h = (Finset.range n).sum fun fd => isHandle h (t.getFd fd) := by
  unfold holds getFd
  generalize t.entries = entries at hn ⊢
  induction entries generalizing n with
  | nil =>
    refine (sum_eq_zero fun fd _ => ?_).symm
    rw [List.getElem?_nil]
    rfl
  | cons e entries ih =>
    obtain ⟨m, rfl⟩ : ∃ m, n = m + 1 := ⟨n - 1, by
      rw [List.length_cons] at hn
      omega⟩
    rw [sum_range_succ', List.count_cons, ih (Nat.le_of_succ_le_succ hn)]
    simp only [List.getElem?_cons_succ, List.getElem?_cons_zero, Option.join_some, beq_iff_eq]
    rfl

theorem holds_congr (hget : t'.getFd = t.getFd) : t'.holds h = t.holds h := by
  rw [holds_eq_sum (Nat.le_max_left t'.entries.length t.entries.length),
    holds_eq_sum (Nat.le_max_right t'.entries.length t.entries.length), hget]

theorem holds_update (hget : t'.getFd = update t.getFd fd o) :
    t'.holds h + isHandle h (t.getFd fd) = t.holds h + isHandle h o := by
  obtain ⟨n, ht, ht', hfd⟩ : ∃ n, t.entries.length ≤ n ∧ t'.entries.length ≤ n ∧ fd < n :=
    ⟨t.entries.length + t'.entries.length + fd + 1, by omega, by omega, by omega⟩
  have hfun : (fun i => isHandle h (t'.getFd i)) =
      update (fun i => isHandle h (t.getFd i)) fd (isHandle h o) := by
    funext i
    rw [hget]
    by_cases hi : i = fd
    · subst hi
      simp
    · simp [hi]
  rw [holds_eq_sum ht, holds_eq_sum ht', hfun]
  exact Interleaving.sum_update hfd _ _

theorem holds_eq_zero (hnone : ∀ fd, t.getFd fd = none) : t.holds h = 0 := by
  rw [holds_eq_sum (Nat.le_refl _)]
  refine sum_eq_zero fun fd _ => ?_
  rw [hnone]
  rfl

variable (t h fd) in
theorem isHandle_le_holds : isHandle h (t.getFd fd) ≤ t.holds h := by
  by_cases hlt : fd < t.entries.length
  · have hempty := holds_update (h := h) (getFd_setSlot hlt none false)
    have hzero : isHandle h none = 0 := rfl
    omega
  · rw [getFd_of_le (Nat.not_lt.mp hlt)]
    exact Nat.zero_le _

/-! ## Balanced operations -/

theorem refcount_incRef (h' : HandleId) :
    (hs.incRef h' h).refcount = (hs h).refcount + isHandle h (some h') := by
  unfold Handles.incRef isHandle
  by_cases heq : h' = h
  · subst heq
    simp
  · have hne : h ≠ h' := fun he => heq he.symm
    simp [hne, heq]

theorem refcount_decRef (hpos : 0 < (hs h').refcount) :
    (hs.decRef h' h).refcount + isHandle h (some h') = (hs h).refcount := by
  unfold Handles.decRef isHandle
  by_cases heq : h' = h
  · subst heq
    simp only [update_self, if_true]
    rw [if_neg (Nat.pos_iff_ne_zero.mp hpos)]
    omega
  · have hne : h ≠ h' := fun he => heq he.symm
    simp [hne, heq]

/-- The counts of the handles change by as much as the slots, and no other handle comes
into a slot. -/
structure Balanced (t : FdTable) (hs : Handles) (t' : FdTable) (hs' : Handles) : Prop where
  counts : ∀ h, (hs' h).refcount + t.holds h = (hs h).refcount + t'.holds h
  handles : ∀ fd h, t'.getFd fd = some h → ∃ i, t.getFd i = some h

/-- No count is less than the slots of the table. -/
def Covered (t : FdTable) (hs : Handles) : Prop := ∀ h, t.holds h ≤ (hs h).refcount

theorem Balanced.of_getFd_eq (hget : t'.getFd = t.getFd) : Balanced t hs t' hs :=
  ⟨fun h => by rw [holds_congr hget], fun fd h hfd => ⟨fd, hget ▸ hfd⟩⟩

theorem Balanced.refl : Balanced t hs t hs := .of_getFd_eq rfl

theorem Balanced.trans (h1 : Balanced t hs t' hs') (h2 : Balanced t' hs' t₂ hs₂) :
    Balanced t hs t₂ hs₂ := by
  refine ⟨fun h => ?_, fun fd h hfd => ?_⟩
  · have := h1.counts h
    have := h2.counts h
    omega
  · obtain ⟨i, hi⟩ := h2.handles fd h hfd
    exact h1.handles i h hi

/-- One slot has been written. -/
theorem Balanced.of_update (hget : t'.getFd = update t.getFd fd o)
    (ho : ∀ h, o = some h → ∃ i, t.getFd i = some h)
    (hcount : ∀ h, (hs' h).refcount + isHandle h (t.getFd fd) = (hs h).refcount + isHandle h o) :
    Balanced t hs t' hs' := by
  refine ⟨fun h => ?_, fun i h hi => ?_⟩
  · have := holds_update (h := h) hget
    have := hcount h
    omega
  · rw [hget] at hi
    by_cases hfd : i = fd
    · subst hfd
      rw [update_self] at hi
      exact ho h hi
    · rw [update_of_ne hfd] at hi
      exact ⟨i, hi⟩

theorem Balanced.covered (hb : Balanced t hs t' hs') (hc : Covered t hs) : Covered t' hs' := by
  intro h
  have := hb.counts h
  have := hc h
  omega

theorem closeFd_balanced (fd : Nat) (hc : Covered t hs) :
    Balanced t hs (t.closeFd fd hs).2.1 (t.closeFd fd hs).2.2 := by
  refine .of_update getFd_closeFd (fun h hnone => by cases hnone) fun h => ?_
  by_cases hlt : fd < t.entries.length
  · rw [closeFd_of_lt hlt]
    cases hget : t.getFd fd with
    | none => rfl
    | some h' =>
      have hone : isHandle h' (t.getFd fd) = 1 := by
        rw [hget]
        exact if_pos rfl
      have hpos : 0 < (hs h').refcount := by
        have := hc h'
        have := isHandle_le_holds t h' fd
        omega
      exact refcount_decRef hpos
  · rw [closeFd_of_le (Nat.not_lt.mp hlt), getFd_of_le (Nat.not_lt.mp hlt)]

theorem closeWhere_balanced (hc : Covered t hs) :
    Balanced t hs (closeWhere p is t hs).1 (closeWhere p is t hs).2 := by
  induction is generalizing t hs with
  | nil => exact .refl
  | cons i is ih =>
    rw [closeWhere]
    split
    · have hclose := closeFd_balanced i hc
      exact hclose.trans (ih (hclose.covered hc))
    · exact ih hc

/-- `alloc_fd`, as far as slots go. -/
theorem getFd_allocFd (hrun : t.allocFd minFd h c = some (r, t')) :
    (∃ fd, r = .ok fd ∧ t.getFd fd = none ∧ t'.getFd = update t.getFd fd (some h)) ∨
      (∃ e, r = .error e) ∧ t'.getFd = t.getFd ∧
        ∀ n, minFd ≤ n → n ≤ MaxFd → t.getFd n ≠ none := by
  unfold allocFd at hrun
  split at hrun
  · cases hrun
    refine .inr ⟨⟨_, rfl⟩, rfl, fun n hn hle => ?_⟩
    omega
  · next hge =>
    obtain ⟨r', t1, hrun', hcases⟩ := allocLoop_eq (t := t) h c
      (Nat.add_sub_of_le (Nat.le_succ_of_le (Nat.not_lt.mp hge)))
    rw [hrun'] at hrun
    cases hrun
    rcases hcases with ⟨fd, rfl, -, -, hnone, -, hget, -⟩ | ⟨rfl, hused, hgrown⟩
    · exact .inl ⟨fd, rfl, hnone, hget⟩
    · exact .inr ⟨⟨_, rfl⟩, funext hgrown.getFd, hused⟩

theorem dup_balanced (hfree : t.getFd fd = none ∨ ∃ n, minFd ≤ n ∧ n ≤ MaxFd ∧ t.getFd n = none)
    (hrun : t.dup fd minFd c hs = some (r, t', hs')) : Balanced t hs t' hs' := by
  unfold dup at hrun
  split at hrun
  · cases hrun
    exact .refl
  · next handle hget =>
    obtain ⟨⟨r', t1⟩, halloc, ⟨⟩⟩ := Option.map_eq_some_iff.mp hrun
    rcases getFd_allocFd halloc with ⟨n, -, hnone, hupdate⟩ | ⟨-, -, hused⟩
    · refine .of_update hupdate (fun h heq => ⟨fd, heq ▸ hget⟩) fun h => ?_
      rw [hnone, refcount_incRef]
      rfl
    · rcases hfree with hclosed | ⟨n, hn, hle, hnone⟩
      · rw [hget] at hclosed
        cases hclosed
      · exact absurd hnone (hused n hn hle)

theorem getFd_ensureLen (hrun : t.ensureLen len = some t') : t'.getFd = t.getFd := by
  by_cases hlen : 8 * len < 2 ^ 63
  · obtain ⟨t1, hrun1, hgrown, -⟩ := ensureLen_eq t _ hlen
    rw [hrun1] at hrun
    cases hrun
    exact funext hgrown.getFd
  · unfold ensureLen at hrun
    split at hrun
    · rw [if_pos (Nat.not_lt.mp hlen)] at hrun
      cases hrun
    · cases hrun
      rfl

theorem dup2_balanced (hc : Covered t hs)
    (hrun : t.dup2 oldfd newfd c hs = some (r, t', hs')) : Balanced t hs t' hs' := by
  unfold dup2 at hrun
  split at hrun
  · cases hrun
    exact .refl
  · next handle hget =>
    obtain ⟨t1, hensure, hrun⟩ := Option.bind_eq_some_iff.mp hrun
    have hgrown := getFd_ensureLen hensure
    have hsame : Balanced t hs t1 hs := .of_getFd_eq hgrown
    split at hrun
    · cases hrun
    · next entry hentry =>
      obtain ⟨hlt, -⟩ := List.getElem?_eq_some_iff.mp hentry
      rw [getElem?_of_lt hlt] at hentry
      cases hentry
      split at hrun
      · -- The descriptor itself: only the flag is written.
        cases hrun
        refine hsame.trans (.of_getFd_eq ?_)
        rw [getFd_setSlot hlt, update_eq_self]
      · next hne =>
        cases hrun
        refine hsame.trans ?_
        -- The target is closed, if it was open; then the handle goes into an empty slot.
        have hclosed : ∀ {t₂ hs₂}, newfd < t₂.entries.length → t₂.getFd newfd = none →
            t₂.getFd oldfd = some handle →
            Balanced t₂ hs₂ (t₂.setSlot newfd (some handle) c) (hs₂.incRef handle) := by
          intro t₂ hs₂ hlt2 hnone hold
          refine .of_update (getFd_setSlot hlt2 _ c) (fun h heq => ⟨oldfd, heq ▸ hold⟩) fun h => ?_
          rw [hnone, refcount_incRef]
          rfl
        have hold : t1.getFd oldfd = some handle := by rw [hgrown, hget]
        cases hentry : t1.getFd newfd with
        | none => exact hclosed hlt hentry hold
        | some old =>
          have hclose : Balanced t1 hs _ _ := closeFd_balanced newfd (hsame.covered hc)
          refine hclose.trans (hclosed ?_ ?_ ?_)
          · rw [closeFd_of_lt hlt]
            simpa [setSlot] using hlt
          · rw [getFd_closeFd, update_self]
          · rw [getFd_closeFd, update_of_ne hne, hold]

/-- `fork_clone` counts every slot once more. -/
theorem refcount_forkClone : ((t.forkClone hs).2 h).refcount = (hs h).refcount + t.holds h := by
  unfold forkClone holds
  generalize t.entries = entries
  induction entries generalizing hs with
  | nil => rfl
  | cons e entries ih =>
    rw [List.foldl_cons, ih, List.count_cons]
    cases e with
    | none => simp
    | some h' =>
      rw [refcount_incRef, isHandle]
      simp only [beq_iff_eq]
      omega

theorem getFd_closeAll : (t.closeAll hs).1.getFd fd = none := by
  refine slot_eq_none.mp ?_
  rw [closeAll, slot_closeWhere (fun _ _ _ _ _ => rfl) List.nodup_range]
  by_cases hlt : fd < t.entries.length
  · rw [if_pos ⟨List.mem_range.mpr hlt, rfl⟩]
  · rw [slot_eq_none.mpr (getFd_of_le (Nat.not_lt.mp hlt)), ite_self]

end FdTable

/-! ## The tables of all tasks -/

/-- Every task has a table; a task that has exited keeps it. -/
structure FdWorld where
  handles : Handles
  nextHandle : HandleId
  tables : Nat → FdTable
  exited : Nat → Bool
  nextTask : Nat

/-- A call on the table of a task, or an event that has to do with it. -/
inductive FdEvent where
  /-- `add_task`: a task with an empty table. -/
  | spawn
  /-- `alloc_fd` of a new handle, which is dropped if there is no descriptor for it. -/
  | allocFd (task minFd node : Nat) (flags : UInt32) (cloexec : Bool)
  | dup (task fd minFd : Nat) (cloexec : Bool)
  | dup2 (task oldfd newfd : Nat) (cloexec : Bool)
  | closeFd (task fd : Nat)
  /-- `fork_clone` for the table of a new child. -/
  | fork (task : Nat)
  | closeOnExec (task : Nat)
  | closeAll (task : Nat)
  /-- `exit_current_and_run_next`, also of a task that kills itself. -/
  | exit (task : Nat)
  /-- `kill_task` of a task that is not the current one. -/
  | kill (task : Nat)
deriving DecidableEq, Repr

namespace FdWorld

variable (w : FdWorld)

def setTable (task : Nat) (t : FdTable) (hs : Handles) : FdWorld :=
  { w with tables := update w.tables task t, handles := hs }

/-- After `alloc_fd` of a new handle. -/
def stored (task node : Nat) (flags : UInt32) (r : Except FdError Nat) (t : FdTable) : FdWorld :=
  match r with
  | .ok _ => { w.setTable task t (update w.handles w.nextHandle (.new node flags)) with
      nextHandle := w.nextHandle + 1 }
  | .error _ => w.setTable task t w.handles

/-- Nothing, if the task does not exist or the operation panics. -/
def step : FdEvent → Option FdWorld
  | .spawn => some { w with
      tables := update w.tables w.nextTask .new
      exited := update w.exited w.nextTask false
      nextTask := w.nextTask + 1 }
  | .allocFd task minFd node flags cloexec =>
    if w.nextTask ≤ task then none
    else ((w.tables task).allocFd minFd w.nextHandle cloexec).map fun (r, t) =>
      w.stored task node flags r t
  | .dup task fd minFd cloexec =>
    if w.nextTask ≤ task then none
    else ((w.tables task).dup fd minFd cloexec w.handles).map fun (_, t, hs) => w.setTable task t hs
  | .dup2 task oldfd newfd cloexec =>
    if w.nextTask ≤ task then none
    else ((w.tables task).dup2 oldfd newfd cloexec w.handles).map fun (_, t, hs) => w.setTable task t hs
  | .closeFd task fd =>
    if w.nextTask ≤ task then none
    else
      let closed := ((w.tables task).closeFd fd w.handles).2
      some (w.setTable task closed.1 closed.2)
  | .fork task =>
    if w.nextTask ≤ task then none
    else
      let cloned := (w.tables task).forkClone w.handles
      some { w.setTable w.nextTask cloned.1 cloned.2 with
        exited := update w.exited w.nextTask false
        nextTask := w.nextTask + 1 }
  | .closeOnExec task =>
    if w.nextTask ≤ task then none
    else
      let closed := (w.tables task).closeOnExec w.handles
      some (w.setTable task closed.1 closed.2)
  | .closeAll task =>
    if w.nextTask ≤ task then none
    else
      let closed := (w.tables task).closeAll w.handles
      some (w.setTable task closed.1 closed.2)
  | .exit task =>
    if w.nextTask ≤ task then none
    else
      let closed := (w.tables task).closeAll w.handles
      some { w.setTable task closed.1 closed.2 with exited := update w.exited task true }
  | .kill task =>
    if w.nextTask ≤ task then none
    else some { w with exited := update w.exited task true }

def init : FdWorld where
  handles _ := ⟨0, 0, 0, 0⟩
  nextHandle := 0
  tables _ := .new
  exited _ := false
  nextTask := 0

/-- The slots of tasks that have not exited that hold a handle. -/
def refs (h : HandleId) : Nat :=
  (Finset.range w.nextTask).sum fun task => if w.exited task then 0 else (w.tables task).holds h

def RefsExact : Prop := ∀ h, (w.handles h).refcount = w.refs h

/-- A table is used by a task that has not exited, `dup` finds a free descriptor, and only
a task without open descriptors is killed. -/
def EventOk : FdEvent → Prop
  | .spawn => True
  | .allocFd task .. | .dup2 task .. | .closeFd task _ | .fork task | .closeOnExec task | .closeAll task
  | .exit task => w.exited task = false
  | .dup task fd minFd _ => w.exited task = false ∧
      ((w.tables task).getFd fd = none ∨
        ∃ n, minFd ≤ n ∧ n ≤ MaxFd ∧ (w.tables task).getFd n = none)
  | .kill task => w.exited task = true ∨ ∀ fd, (w.tables task).getFd fd = none

/-- The states reached by events that satisfy a condition. -/
inductive Reach (ok : FdWorld → FdEvent → Prop) : FdWorld → Prop
  | init : Reach ok init
  | step {w w' : FdWorld} {e : FdEvent} : Reach ok w → ok w e → w.step e = some w' → Reach ok w'

variable {w} {task : Nat} {t : FdTable} {h : HandleId}

/-- The invariant: handles that do not exist yet are in no slot. -/
structure Inv (w : FdWorld) : Prop where
  exact : w.RefsExact
  fresh : ∀ task fd h, (w.tables task).getFd fd = some h → h < w.nextHandle

/-- What a task adds to the slots. -/
def share (w : FdWorld) (h : HandleId) (task : Nat) : Nat :=
  if w.exited task then 0 else (w.tables task).holds h

theorem refs_update (w' : FdWorld) (h : HandleId) (htask : task < w.nextTask) (hnext : w'.nextTask = w.nextTask)
    (hother : ∀ i, i ≠ task → w'.share h i = w.share h i) :
    w'.refs h + w.share h task = w.refs h + w'.share h task := by
  have hfun : w'.share h = update (w.share h) task (w'.share h task) := by
    funext i
    by_cases hi : i = task
    · subst hi
      simp
    · rw [update_of_ne hi, hother i hi]
  have hsum := Interleaving.sum_update htask (w.share h) (w'.share h task)
  rw [← hfun] at hsum
  unfold refs
  rw [hnext]
  exact hsum

theorem share_setTable_ne (hi : i ≠ task) : (w.setTable task t hs).share h i = w.share h i := by
  unfold share setTable
  simp [update_of_ne hi]

theorem share_setTable : (w.setTable task t hs).share h task = if w.exited task then 0 else t.holds h := by
  unfold share setTable
  simp

theorem share_of_live (hlive : w.exited task = false) : w.share h task = (w.tables task).holds h := by
  unfold share
  rw [hlive]
  rfl

/-- The slots of one task are among those that are counted. -/
theorem Inv.covered (hinv : Inv w) (htask : task < w.nextTask) (hlive : w.exited task = false) :
    (w.tables task).Covered w.handles := by
  intro h
  rw [hinv.exact h, ← share_of_live hlive]
  have hzero := refs_update (w.setTable task .new w.handles) h htask rfl
    fun i hi => share_setTable_ne hi
  have hnew : (w.setTable task .new w.handles).share h task = 0 := by
    rw [share_setTable, hlive]
    rfl
  omega

/-- A balanced operation on the table of a task. -/
theorem Inv.setTable (hinv : Inv w) (htask : task < w.nextTask) (hlive : w.exited task = false)
    (hb : (w.tables task).Balanced w.handles t hs) : Inv (w.setTable task t hs) := by
  refine ⟨fun h => ?_, fun i fd h hget => ?_⟩
  · have hupdate := refs_update (w.setTable task t hs) h htask rfl
      fun i hi => share_setTable_ne hi
    rw [share_of_live hlive, share_setTable, hlive] at hupdate
    have hexact := hinv.exact h
    have hbal := hb.counts h
    change (hs h).refcount = _
    simp only [Bool.false_eq_true, if_false] at hupdate
    omega
  · by_cases hi : i = task
    · subst hi
      simp only [FdWorld.setTable, update_self] at hget
      obtain ⟨j, hj⟩ := hb.handles fd h hget
      exact hinv.fresh i j h hj
    · simp only [FdWorld.setTable, update_of_ne hi] at hget
      exact hinv.fresh i fd h hget

variable (t hs) in
/-- A new task, with a table whose slots have been counted. -/
theorem Inv.newTask (hinv : Inv w) (hcount : ∀ h, (hs h).refcount = (w.handles h).refcount + t.holds h)
    (hold : ∀ fd h, t.getFd fd = some h → h < w.nextHandle) :
    Inv { w.setTable w.nextTask t hs with
      exited := update w.exited w.nextTask false, nextTask := w.nextTask + 1 } := by
  refine ⟨fun h => ?_, fun i fd h hget => ?_⟩
  · change (hs h).refcount = _
    rw [hcount h, hinv.exact h]
    unfold refs
    rw [sum_range_succ]
    have hlast : (if update w.exited w.nextTask false w.nextTask then 0
        else ((w.setTable w.nextTask t hs).tables w.nextTask).holds h) = t.holds h := by
      simp [FdWorld.setTable]
    rw [hlast]
    refine congrArg (· + _) (sum_congr rfl fun i hi => ?_)
    have hne : i ≠ w.nextTask := Nat.ne_of_lt (mem_range.mp hi)
    simp [FdWorld.setTable, update_of_ne hne]
  · by_cases hi : i = w.nextTask
    · subst hi
      simp only [FdWorld.setTable, update_self] at hget
      exact hold fd h hget
    · simp only [FdWorld.setTable, update_of_ne hi] at hget
      exact hinv.fresh i fd h hget

/-- A task whose slots are empty may exit. -/
theorem Inv.exited (hinv : Inv w) (hempty : w.exited task = true ∨ ∀ fd, (w.tables task).getFd fd = none) :
    Inv { w with exited := update w.exited task true } := by
  refine ⟨fun h => ?_, hinv.fresh⟩
  change (w.handles h).refcount = _
  rw [hinv.exact h]
  refine sum_congr rfl fun i _ => ?_
  by_cases hi : i = task
  · subst hi
    simp only [update_self, if_true]
    rcases hempty with hexited | hnone
    · rw [if_pos hexited]
    · rw [holds_eq_zero hnone, ite_self]
  · simp [update_of_ne hi]

/-- A new handle goes into a slot. -/
theorem Inv.stored (hinv : Inv w) (htask : task < w.nextTask) (hlive : w.exited task = false)
    (hrun : (w.tables task).allocFd minFd w.nextHandle c = some (r, t)) (node : Nat)
    (flags : UInt32) :
    Inv (w.stored task node flags r t) := by
  rcases getFd_allocFd hrun with ⟨fd, rfl, hnone, hget⟩ | ⟨⟨e, rfl⟩, hsame, -⟩
  · have hunused : w.refs w.nextHandle = 0 := by
      refine sum_eq_zero fun i _ => ?_
      split
      · rfl
      · rw [holds_eq_sum (Nat.le_refl _)]
        refine sum_eq_zero fun j _ => if_neg fun hj => ?_
        exact Nat.lt_irrefl _ (hinv.fresh i j _ hj)
    refine ⟨fun h => ?_, fun i j h hj => ?_⟩
    · have hsame : (w.stored task node flags (.ok fd) t).share h = (w.setTable task t
          (update w.handles w.nextHandle (.new node flags))).share h := rfl
      have hupdate : (w.stored task node flags (.ok fd) t).refs h + w.share h task =
          w.refs h + (w.stored task node flags (.ok fd) t).share h task :=
        refs_update _ _ htask rfl fun i hi => by rw [hsame, share_setTable_ne hi]
      have hshare : (w.stored task node flags (.ok fd) t).share h task = t.holds h := by
        rw [hsame, share_setTable, hlive]
        rfl
      have hholds := holds_update (h := h) hget
      rw [share_of_live hlive, hshare] at hupdate
      rw [hnone] at hholds
      have hzero : isHandle h none = 0 := rfl
      change (update w.handles w.nextHandle (.new node flags) h).refcount = _
      by_cases hh : h = w.nextHandle
      · subst hh
        rw [update_self]
        have hone : isHandle w.nextHandle (some w.nextHandle) = 1 := if_pos rfl
        change 1 = _
        omega
      · rw [update_of_ne hh, hinv.exact h]
        have hnot : isHandle h (some w.nextHandle) = 0 := if_neg fun heq => hh (Option.some.inj heq).symm
        omega
    · change h < w.nextHandle + 1
      by_cases hi : i = task
      · subst hi
        simp only [FdWorld.stored, FdWorld.setTable, update_self, hget] at hj
        by_cases hjfd : j = fd
        · subst hjfd
          rw [update_self] at hj
          rw [← Option.some.inj hj]
          exact Nat.lt_succ_self _
        · rw [update_of_ne hjfd] at hj
          exact Nat.lt_succ_of_lt (hinv.fresh i j h hj)
      · simp only [FdWorld.stored, FdWorld.setTable, update_of_ne hi] at hj
        exact Nat.lt_succ_of_lt (hinv.fresh i j h hj)
  · exact hinv.setTable htask hlive (.of_getFd_eq hsame)

theorem Inv.step (hinv : Inv w) (hok : w.EventOk e) (hstep : w.step e = some w') : Inv w' := by
  have hguard : ∀ {task : Nat} {o : Option FdWorld}, (if w.nextTask ≤ task then none else o) = some w' →
      task < w.nextTask ∧ o = some w' := by
    intro task o h
    split at h
    · cases h
    · next hlt => exact ⟨Nat.not_le.mp hlt, h⟩
  cases e with
  | spawn =>
    cases hstep
    refine hinv.newTask .new w.handles (fun h => rfl) fun fd h hget => ?_
    rw [getFd_of_le (Nat.zero_le fd)] at hget
    cases hget
  | allocFd task minFd node flags c =>
    obtain ⟨htask, hrun⟩ := hguard hstep
    obtain ⟨⟨r, t⟩, halloc, rfl⟩ := Option.map_eq_some_iff.mp hrun
    exact hinv.stored htask hok halloc node flags
  | dup task fd minFd c =>
    obtain ⟨htask, hrun⟩ := hguard hstep
    obtain ⟨⟨r, t, hs⟩, hdup, rfl⟩ := Option.map_eq_some_iff.mp hrun
    exact hinv.setTable htask hok.1 (dup_balanced hok.2 hdup)
  | dup2 task oldfd newfd c =>
    obtain ⟨htask, hrun⟩ := hguard hstep
    obtain ⟨⟨r, t, hs⟩, hdup, rfl⟩ := Option.map_eq_some_iff.mp hrun
    exact hinv.setTable htask hok (dup2_balanced (hinv.covered htask hok) hdup)
  | closeFd task fd =>
    obtain ⟨htask, hrun⟩ := hguard hstep
    cases hrun
    exact hinv.setTable htask hok (closeFd_balanced fd (hinv.covered htask hok))
  | fork task =>
    obtain ⟨-, hrun⟩ := hguard hstep
    cases hrun
    exact hinv.newTask _ _ (fun h => refcount_forkClone) fun fd h hget => hinv.fresh task fd h hget
  | closeOnExec task =>
    obtain ⟨htask, hrun⟩ := hguard hstep
    cases hrun
    exact hinv.setTable htask hok (closeWhere_balanced (hinv.covered htask hok))
  | closeAll task =>
    obtain ⟨htask, hrun⟩ := hguard hstep
    cases hrun
    exact hinv.setTable htask hok (closeWhere_balanced (hinv.covered htask hok))
  | exit task =>
    obtain ⟨htask, hrun⟩ := hguard hstep
    cases hrun
    refine (hinv.setTable htask hok (closeWhere_balanced (hinv.covered htask hok))).exited
      (.inr fun fd => ?_)
    simp only [FdWorld.setTable, update_self]
    exact getFd_closeAll
  | kill task =>
    obtain ⟨-, hrun⟩ := hguard hstep
    cases hrun
    exact hinv.exited hok

theorem inv_init : Inv init := by
  refine ⟨fun h => rfl, fun task fd h hget => ?_⟩
  rw [getFd_of_le (Nat.zero_le fd)] at hget
  cases hget

/-- The counts are exact after every sequence of events that satisfy the condition. -/
theorem Reach.refsExact (hreach : Reach EventOk w) : w.RefsExact := by
  have hinv : Inv w := by
    induction hreach with
    | init => exact inv_init
    | step _ hok hstep ih => exact ih.step hok hstep
  exact hinv.exact

/-- A handle in the tables of a parent and its child. -/
theorem refsExact_fork : ∃ w, Reach EventOk w ∧ w.refs 0 = 2 ∧ w.RefsExact := by
  have hspawn : Reach EventOk _ := .step .init (e := .spawn) trivial rfl
  have hopen : Reach EventOk _ := hspawn.step (e := .allocFd 0 0 5 0 false) rfl rfl
  have hfork : Reach EventOk _ := hopen.step (e := .fork 0) rfl rfl
  exact ⟨_, hfork, rfl, hfork.refsExact⟩

def run : List FdEvent → FdWorld → Option FdWorld
  | [], w => some w
  | e :: es, w => (w.step e).bind (run es)

theorem Reach.run (es : List FdEvent) (hreach : Reach (fun _ _ => True) w) (hrun : run es w = some w') :
    Reach (fun _ _ => True) w' := by
  induction es generalizing w with
  | nil =>
    cases hrun
    exact hreach
  | cons e es ih =>
    obtain ⟨w1, hstep, hrest⟩ := Option.bind_eq_some_iff.mp hrun
    exact ih (hreach.step trivial hstep) hrest

/-- `dup` with a bound above the limit fails and leaves the count raised; the open
descriptors of a task that is killed stay counted. -/
theorem dup_leaks_reference :
    (∃ w, Reach (fun _ _ => True) w ∧ (w.handles 0).refcount = 2 ∧ w.refs 0 = 1) ∧
      ∃ w, Reach (fun _ _ => True) w ∧ (w.handles 0).refcount = 1 ∧ w.refs 0 = 0 := by
  refine ⟨⟨_, Reach.init.run [.spawn, .allocFd 0 0 5 0 false, .dup 0 0 1000001 false] rfl,
    rfl, rfl⟩, ⟨_, Reach.init.run [.spawn, .allocFd 0 0 5 0 false, .kill 0] rfl, rfl, rfl⟩⟩

end FdWorld

end BoruixKernel
