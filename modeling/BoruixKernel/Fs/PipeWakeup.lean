import BoruixKernel.Fs.Pipe

/-!
# Readers of a pipe that wait

A reader that finds the pipe empty calls `WaitQueue::wait`, and never comes back from it:
the section `wait` puts itself in front again.  So a byte that is written while a reader
waits, or has decided to wait, does not reach it.  As long as bytes are written and the last
writer leaves only while no reader is in `wait`, no wakeup is lost.
-/

namespace BoruixKernel

open Function List

open Interleaving (Config Event Reach)

/-! ## Wait queues -/

namespace Parking

variable {p p' : Parking κ}

@[simp] theorem waiters_enqueueReady : (p.enqueueReady t).waiters = p.waiters := by
  unfold enqueueReady
  split
  · rfl
  · split <;> rfl

theorem waiters_resume (h : p.resume t = some p') : p'.waiters = p.waiters := by
  unfold resume at h
  split at h <;> cases h <;> rfl

theorem waiters_foldl_enqueueReady (ts : List Nat) : (ts.foldl enqueueReady p).waiters = p.waiters := by
  induction ts generalizing p with
  | nil => rfl
  | cons t ts ih => rw [foldl_cons, ih, waiters_enqueueReady]

variable [DecidableEq κ]

theorem mem_waiters_park (h : u ∈ (p.park q t).waiters q') : u ∈ p.waiters q' ∨ q' = q ∧ u = t := by
  unfold park at h
  by_cases hq : q' = q
  · subst hq
    simp only [update_self] at h
    split at h
    · exact .inl h
    · rcases mem_append.mp h with h | h
      · exact .inl h
      · exact .inr ⟨rfl, mem_singleton.mp h⟩
  · simp only [update_of_ne hq] at h
    exact .inl h

theorem mem_waiters_wakeOne (h : u ∈ (p.wakeOne q).waiters q') : u ∈ p.waiters q' := by
  unfold wakeOne at h
  split at h
  · exact h
  · rw [waiters_enqueueReady] at h
    by_cases hq : q' = q
    · subst hq
      simp only [update_self] at h
      exact mem_of_mem_dropLast h
    · simp only [update_of_ne hq] at h
      exact h

theorem mem_waiters_wakeAll (h : u ∈ (p.wakeAll q).waiters q') : u ∈ p.waiters q' := by
  unfold wakeAll at h
  rw [waiters_foldl_enqueueReady] at h
  by_cases hq : q' = q
  · subst hq
    simp only [update_self] at h
    cases h
  · simp only [update_of_ne hq] at h
    exact h

end Parking

namespace PipeState

/-! ## What is to be shown -/

/-- The task is parked in `read_wait`. -/
def ParkedReader (s : PipeState) (t : Nat) : Prop :=
  t ∈ s.parking.waiters .readWait ∧ s.parking.status t = .Waiting ∧ t ∉ s.parking.ready

instance (s : PipeState) (t : Nat) : Decidable (s.ParkedReader t) := by
  unfold ParkedReader
  infer_instance

/-- `read` would return: there is a byte, or no writer left. -/
def Readable (s : PipeState) : Prop := 0 < s.inner.ring.len ∨ s.inner.writers = 0

variable (cfg : Config PipeState PipeSection)

/-- Some task is about to wake readers. -/
def WakePending : Prop :=
  ∃ t, .wakeOne .readWait ∈ cfg.todo t ∨ .wakeAll .readWait ∈ cfg.todo t

/-- The task returns from its call, with no help from others. -/
def Returns (t : Nat) : Prop :=
  ∃ k cfg', Interleaving.runAll exec (fun _ _ => True) (List.replicate k (.run t)) cfg = some cfg' ∧
    cfg'.todo t = []

/-- A parked reader of a readable pipe is about to be woken, and one that is woken while
there is data returns. -/
def NoLostWakeup : Prop :=
  (∀ t, cfg.shared.ParkedReader t → cfg.shared.Readable → WakePending cfg) ∧
  (∀ t, cfg.shared.parking.status t = .Ready → .wait .readWait ∈ cfg.todo t →
    0 < cfg.shared.inner.ring.len → Returns cfg t)

/-! ## A task that waits -/

variable {s s' : PipeState} {cfg cfg' : Config PipeState PipeSection} {t u : Nat}
  {sec : PipeSection} {next : List PipeSection}

/-- `wait` is not left. -/
theorem waits_step (hwait : .wait q ∈ cfg.todo u)
    (hstep : cfg.step exec ev = some cfg') : .wait q ∈ cfg'.todo u := by
  by_cases hu : u = ev.cpu
  · obtain ⟨t, sec, rest, s', next, rfl, htodo, hexec, rfl⟩ | ⟨t, sections, rfl, rfl⟩ :=
      Config.step_cases hstep <;> cases hu <;> simp only [Event.cpu, update_self] at hwait ⊢
    · rw [htodo] at hwait
      refine mem_append.mpr ((mem_cons.mp hwait).imp ?_ id)
      rintro rfl
      obtain ⟨p, -, ⟨⟩⟩ := Option.map_eq_some_iff.mp hexec
      exact mem_singleton_self _
    · exact mem_append_right _ hwait
  · rw [Interleaving.todo_step_of_ne hu hstep]
    exact hwait

/-- A task that has called `wait` never returns, whatever the others do. -/
theorem waits_for_ever (hwait : .wait q ∈ cfg.todo u)
    (h : Reach exec ok cfg cfg') : .wait q ∈ cfg'.todo u :=
  h.invariant (P := fun cfg => .wait q ∈ cfg.todo u) hwait fun hwait _ hstep => waits_step hwait hstep

/-! ## Runs in which no byte is written while a reader waits -/

/-- The section puts bytes into the pipe, or the last writer leaves. -/
def MakesReadable (s : PipeState) : PipeSection → Prop
  | .write buf => buf ≠ [] ∧ s.inner.readers ≠ 0 ∧ s.inner.ring.len < PipeCapacity
  | .close write => write = true ∧ s.inner.writers = 1
  | _ => False

instance (s : PipeState) : ∀ sec, Decidable (s.MakesReadable sec)
  | .read _ | .write _ | .close _ | .wait _ | .wakeOne _ | .wakeAll _ => by
    unfold MakesReadable; infer_instance

/-- Such a section runs only while no reader is in `wait`. -/
def NoneWaits (cfg : Config PipeState PipeSection) : Event PipeSection → Prop
  | .run t => ∀ sec ∈ (cfg.todo t).head?, cfg.shared.MakesReadable sec →
      ∀ u, .wait .readWait ∉ cfg.todo u
  | .call .. => True

/-- A pipe in which a reader has to wait. -/
def Dry (s : PipeState) : Prop := s.inner.ring.len = 0 ∧ 0 < s.inner.writers

theorem Dry.step (h : s.Dry) (hnot : ¬ s.MakesReadable sec) : (s.step t sec).1.Dry := by
  cases sec with
  | read len =>
    have hempty : ¬ 0 < s.inner.ring.len := by
      rw [h.1]
      exact Nat.lt_irrefl 0
    rw [PipeState.step, readRound, if_neg hempty, if_neg (Nat.ne_of_gt h.2)]
    exact h
  | write buf =>
    rw [PipeState.step, writeRound]
    have hroom : s.inner.ring.len < PipeCapacity := by
      rw [h.1]
      decide
    split_ifs with hbuf hreaders hfull
    · exact h
    · exact h
    · exact h
    · exact (hnot ⟨hbuf, hreaders, hroom⟩).elim
  | close write =>
    cases write with
    | false => exact h
    | true =>
      have hmany : s.inner.writers ≠ 1 := fun heq => hnot ⟨rfl, heq⟩
      exact ⟨h.1, Nat.sub_pos_of_lt (Nat.lt_of_le_of_ne h.2 (Ne.symm hmany))⟩
  | wait | wakeOne | wakeAll => exact h

/-- A reader decides to wait only if the pipe is dry. -/
theorem dry_of_wait_mem (hwait : .wait .readWait ∈ (s.step t sec).2) (hsec : sec ≠ .wait .readWait) :
    (s.step t sec).1.Dry := by
  cases sec with
  | read len =>
    simp only [PipeState.step, readRound] at hwait ⊢
    split_ifs at hwait ⊢ with hlen hwriters
    · simp at hwait
    · cases hwait
    · exact ⟨Nat.eq_zero_of_not_pos hlen, Nat.pos_of_ne_zero hwriters⟩
  | write buf =>
    simp only [PipeState.step, writeRound] at hwait
    split_ifs at hwait <;> simp at hwait
  | close write => simp [PipeState.step] at hwait
  | wait q =>
    cases q with
    | readWait => exact (hsec rfl).elim
    | writeWait => simp [PipeState.step] at hwait
  | wakeOne q | wakeAll q => cases hwait

theorem mem_waiters_step (hmem : u ∈ (s.step t sec).1.parking.waiters q) :
    u ∈ s.parking.waiters q ∨ sec = .wait q ∧ u = t := by
  cases sec with
  | read len =>
    refine .inl ?_
    simp only [PipeState.step, readRound] at hmem
    split_ifs at hmem <;> exact hmem
  | write buf =>
    refine .inl ?_
    simp only [PipeState.step, writeRound] at hmem
    split_ifs at hmem <;> exact hmem
  | close write => cases write <;> exact .inl hmem
  | wait q' =>
    rcases Parking.mem_waiters_park hmem with hmem | ⟨rfl, rfl⟩
    · exact .inl hmem
    · exact .inr ⟨rfl, rfl⟩
  | wakeOne q' => exact .inl (Parking.mem_waiters_wakeOne hmem)
  | wakeAll q' => exact .inl (Parking.mem_waiters_wakeAll hmem)

/-- The pipe is dry while a reader is in `wait`, and only such readers are in the queue. -/
structure WakeInv (cfg : Config PipeState PipeSection) : Prop where
  dry : ∀ t, .wait .readWait ∈ cfg.todo t → cfg.shared.Dry
  inside : ∀ t ∈ cfg.shared.parking.waiters .readWait, .wait .readWait ∈ cfg.todo t

theorem WakeInv.init (readers writers : Nat) : WakeInv ⟨.init readers writers, fun _ => []⟩ :=
  ⟨fun _ h => (not_mem_nil h).elim, fun _ h => (not_mem_nil h).elim⟩

theorem WakeInv.run (h : WakeInv cfg) (hok : NoneWaits cfg (.run t))
    (htodo : cfg.todo t = sec :: rest) (hexec : exec t sec cfg.shared = some (s', next)) :
    WakeInv ⟨s', update cfg.todo t (next ++ rest)⟩ := by
  have hstep : cfg.step exec (.run t) = some ⟨s', update cfg.todo t (next ++ rest)⟩ := by
    rw [Config.step, htodo]
    simp [hexec]
  obtain ⟨p, hresume, heq⟩ := Option.map_eq_some_iff.mp hexec
  -- Resuming the task does not touch the pipe.
  have hkept : ∀ u, .wait .readWait ∈ cfg.todo u → s'.Dry := by
    intro u hu
    have hdry : Dry { cfg.shared with parking := p } := h.dry u hu
    have hnot : ¬ MakesReadable { cfg.shared with parking := p } sec := by
      intro hmakes
      refine hok sec (by rw [htodo]; rfl) ?_ u hu
      cases sec <;> exact hmakes
    have := hdry.step (t := t) hnot
    rwa [heq] at this
  refine ⟨fun u hu => ?_, fun u hu => ?_⟩
  · by_cases hold : .wait .readWait ∈ cfg.todo u
    · exact hkept u hold
    · have hut : u = t := by
        by_contra hne
        rw [Interleaving.todo_step_of_ne hne hstep] at hu
        exact hold hu
      subst hut
      simp only [update_self] at hu
      rw [htodo, mem_cons, not_or] at hold
      have hnext := (mem_append.mp hu).resolve_right hold.2
      have hmem : .wait .readWait ∈ (PipeState.step { cfg.shared with parking := p } u sec).2 := by
        rw [heq]
        exact hnext
      have hdry := dry_of_wait_mem hmem (Ne.symm hold.1)
      rwa [heq] at hdry
  · have hmem : u ∈ (PipeState.step { cfg.shared with parking := p } t sec).1.parking.waiters .readWait := by
      rw [heq]
      exact hu
    refine waits_step ?_ hstep
    rcases mem_waiters_step hmem with hmem | ⟨rfl, rfl⟩
    · rw [Parking.waiters_resume hresume] at hmem
      exact h.inside u hmem
    · rw [htodo]
      exact mem_cons_self

theorem WakeInv.step (h : WakeInv cfg) (hcall : Calls cfg ev) (hok : NoneWaits cfg ev)
    (hstep : cfg.step exec ev = some cfg') : WakeInv cfg' := by
  obtain ⟨t, sec, rest, s', next, rfl, htodo, hexec, rfl⟩ | ⟨t, sections, rfl, rfl⟩ :=
    Config.step_cases hstep
  · exact h.run hok htodo hexec
  · refine ⟨fun u hu => ?_, fun u hu => waits_step (h.inside u hu) hstep⟩
    refine h.dry u ?_
    -- A call does not begin with `wait`.
    unfold Calls at hcall
    split at hcall
    · next heq => cases heq
    · next t' sec heq =>
      cases heq
      by_cases hut : u = t
      · subst hut
        simp only [update_self, hcall.1, append_nil, mem_singleton] at hu
        rw [← hu] at hcall
        exact hcall.2.elim
      · simp only [update_of_ne hut] at hu
        exact hu
    · exact hcall.elim

/-- In every run in which bytes are written and the last writer leaves only while no reader
is in `wait`, no wakeup is lost. -/
theorem noLostWakeup_of_noneWaits (readers writers : Nat) (cfg : Config PipeState PipeSection)
    (h : Reach exec (fun cfg ev => Calls cfg ev ∧ NoneWaits cfg ev)
      ⟨.init readers writers, fun _ => []⟩ cfg) : NoLostWakeup cfg := by
  have hinv : WakeInv cfg := h.invariant (.init readers writers) fun hinv hok hstep => hinv.step hok.1 hok.2 hstep
  refine ⟨fun t hparked hreadable => ?_, fun t _ hwait hlen => ?_⟩
  · have hdry := hinv.dry t (hinv.inside t hparked.1)
    rcases hreadable with hlen | hwriters
    · exact (Nat.ne_of_gt hlen hdry.1).elim
    · exact (Nat.ne_of_gt hdry.2 hwriters).elim
  · exact (Nat.ne_of_gt hlen (hinv.dry t hwait).1).elim

/-- The condition for runs of the first `n` tasks. -/
def NoneWaitsBelow (n : Nat) (cfg : Config PipeState PipeSection) (ev : Event PipeSection) : Prop :=
  ev.cpu < n ∧ ∀ sec ∈ (cfg.todo ev.cpu).head?, cfg.shared.MakesReadable sec →
    ∀ u < n, .wait .readWait ∉ cfg.todo u

instance (n : Nat) (cfg : Config PipeState PipeSection) (ev : Event PipeSection) :
    Decidable (NoneWaitsBelow n cfg ev) := by
  unfold NoneWaitsBelow
  infer_instance

/-- A writer puts a byte in, then a reader takes it and waits for more. -/
theorem noLostWakeup_of_noneWaits_write_read : ∃ cfg : Config PipeState PipeSection,
    cfg.shared.received = [7] ∧ cfg.shared.ParkedReader 1 ∧ NoLostWakeup cfg := by
  obtain ⟨cfg, hreach, hreceived, hparked⟩ := Reach.exists_runAll exec
    (fun cfg ev => Calls cfg ev ∧ NoneWaitsBelow 2 cfg ev) ⟨.init 1 1, fun _ => []⟩
    (P := fun cfg => cfg.shared.received = [7] ∧ cfg.shared.ParkedReader 1)
    [.call 0 [.write [7]], .run 0, .call 1 [.read 1], .run 1, .run 1, .call 1 [.read 1], .run 1, .run 1]
    (by decide +kernel)
  refine ⟨cfg, hreceived, hparked, noLostWakeup_of_noneWaits 1 1 cfg (hreach.mono ?_)⟩
  rintro cfg (t | ⟨t, sections⟩) hreach ⟨hcall, -, hnone⟩
  · refine ⟨hcall, fun sec hsec hmakes u => ?_⟩
    by_cases hu : u < 2
    · exact hnone sec hsec hmakes u hu
    · have hidle : cfg.todo u = [] := hreach.todo_eq fun hok heq => hu (heq ▸ hok.2.1)
      rw [hidle]
      exact not_mem_nil
  · exact ⟨hcall, trivial⟩

/-- A reader finds the pipe empty and parks; a writer puts a byte in and wakes it; the
reader runs, and parks again.  It is parked for ever, with the byte in the pipe and no task
that has anything left to do. -/
theorem reader_parks_again : ∃ cfg, Reach exec Calls ⟨.init 1 1, fun _ => []⟩ cfg ∧
    cfg.shared.ParkedReader 0 ∧ cfg.shared.inner.ring.len = 1 ∧ (∀ t, t ≠ 0 → cfg.todo t = []) ∧
      (∀ cfg', Reach exec Calls cfg cfg' → .wait .readWait ∈ cfg'.todo 0) ∧ ¬ NoLostWakeup cfg := by
  obtain ⟨cfg, hreach, ⟨hmem, hstatus, hready, hlen, hreader, hwriter⟩, hothers⟩ :=
    Reach.exists_runAll_idle exec Calls ⟨.init 1 1, fun _ => []⟩
    (P := fun cfg => 0 ∈ cfg.shared.parking.waiters .readWait ∧
      cfg.shared.parking.status 0 = .Waiting ∧ 0 ∉ cfg.shared.parking.ready ∧
      cfg.shared.inner.ring.len = 1 ∧ cfg.todo 0 = [.wait .readWait, .read 1] ∧ cfg.todo 1 = [])
    2 [.call 0 [.read 1], .run 0, .run 0, .call 1 [.write [7]], .run 1, .run 1, .run 1, .run 0]
    (by decide) (by decide +kernel)
  have hidle : ∀ t, t ≠ 0 → cfg.todo t = [] := by
    intro t ht
    by_cases h1 : t = 1
    · rw [h1, hwriter]
    · rw [hothers t (by omega)]
  refine ⟨cfg, hreach, ⟨hmem, hstatus, hready⟩, hlen, hidle, fun cfg' h => ?_, fun hnone => ?_⟩
  · refine waits_for_ever ?_ h
    rw [hreader]
    exact mem_cons_self
  · obtain ⟨t, ht⟩ := hnone.1 0 ⟨hmem, hstatus, hready⟩ (.inl (by omega))
    by_cases h0 : t = 0
    · rw [h0, hreader] at ht
      simp at ht
    · rw [hidle t h0] at ht
      simp at ht

end PipeState

end BoruixKernel
