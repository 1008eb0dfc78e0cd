import Mathlib

/-!
# Interleavings of atomic sections

CPUs that share a state.  Each CPU has a list of atomic sections left to run; running
the first one changes the shared state and may put further sections in front of the
rest.  A call puts its sections in front as well, so that it may interrupt another one.

`Reach` are the configurations reached by events that satisfy a condition.  Invariants
come by `Reach.invariant`.  For invariants that count something, `load` adds up a weight
over the sections that are left, with one equation for each kind of event.
-/

namespace Interleaving

open Function

variable {σ ω : Type*}

/-- A shared state, and the sections each CPU has left. -/
structure Config (σ ω : Type*) where
  shared : σ
  todo : Nat → List ω

/-- A CPU runs its next section, or begins a call. -/
inductive Event (ω : Type*) where
  | run (cpu : Nat)
  | call (cpu : Nat) (sections : List ω)

def Event.cpu : Event ω → Nat
  | .run cpu | .call cpu _ => cpu

/-- What a section does on a CPU: the new shared state and the sections to run next.
Without a value the section waits. -/
abbrev Exec (σ ω : Type*) := Nat → ω → σ → Option (σ × List ω)

def Config.step (exec : Exec σ ω) (cfg : Config σ ω) : Event ω → Option (Config σ ω)
  | .run cpu =>
    match cfg.todo cpu with
    | [] => none
    | sec :: rest =>
      (exec cpu sec cfg.shared).map fun (s, next) =>
        ⟨s, update cfg.todo cpu (next ++ rest)⟩
  | .call cpu sections =>
    some ⟨cfg.shared, update cfg.todo cpu (sections ++ cfg.todo cpu)⟩

/-- An event runs the first section of a CPU, or puts sections in front. -/
theorem Config.step_cases {cfg cfg' : Config σ ω} (h : cfg.step exec ev = some cfg') :
    (∃ cpu sec rest s next, ev = .run cpu ∧ cfg.todo cpu = sec :: rest ∧
      exec cpu sec cfg.shared = some (s, next) ∧
      cfg' = ⟨s, update cfg.todo cpu (next ++ rest)⟩) ∨
    (∃ cpu sections, ev = .call cpu sections ∧
      cfg' = ⟨cfg.shared, update cfg.todo cpu (sections ++ cfg.todo cpu)⟩) := by
  cases ev with
  | run cpu =>
    rw [Config.step] at h
    split at h
    · cases h
    · next sec rest htodo =>
      obtain ⟨⟨s, next⟩, hexec, rfl⟩ := Option.map_eq_some_iff.mp h
      exact .inl ⟨cpu, sec, rest, s, next, rfl, htodo, hexec, rfl⟩
  | call cpu sections =>
    cases h
    exact .inr ⟨cpu, sections, rfl, rfl⟩

/-- The configurations reached from `init` by events that satisfy `ok`. -/
inductive Reach (exec : Exec σ ω) (ok : Config σ ω → Event ω → Prop) (init : Config σ ω) :
    Config σ ω → Prop
  | init : Reach exec ok init init
  | step {cfg cfg' : Config σ ω} {ev : Event ω} (h : Reach exec ok init cfg) (hok : ok cfg ev)
      (hstep : cfg.step exec ev = some cfg') : Reach exec ok init cfg'

section Reach

variable {exec : Exec σ ω} {ok : Config σ ω → Event ω → Prop} {init cfg cfg' : Config σ ω}
  {P : Config σ ω → Prop}

/-- What holds at first and is kept by every event holds in every reached
configuration. -/
theorem Reach.invariant (hinit : P init)
    (hkeep : ∀ {cfg cfg' ev}, P cfg → ok cfg ev → cfg.step exec ev = some cfg' → P cfg')
    (h : Reach exec ok init cfg) : P cfg := by
  induction h with
  | init => exact hinit
  | step _ hok hstep ih => exact hkeep ih hok hstep

/-- Conditions that hold along a run may be weakened. -/
theorem Reach.mono (h : Reach exec ok init cfg)
    (himp : ∀ {cfg ev}, Reach exec ok init cfg → ok cfg ev → ok' cfg ev) :
    Reach exec ok' init cfg := by
  induction h with
  | init => exact .init
  | step h hok hstep ih => exact ih.step (himp h hok) hstep

/-- What every section keeps of the shared state holds in every reached configuration. -/
theorem Reach.shared {P : σ → Prop} (hinit : P init.shared)
    (hkeep : ∀ {cpu sec s s' next}, P s → exec cpu sec s = some (s', next) → P s')
    (h : Reach exec ok init cfg) : P cfg.shared := by
  refine h.invariant (P := fun cfg => P cfg.shared) hinit fun hP _ hstep => ?_
  obtain ⟨_, _, _, _, _, _, _, hexec, rfl⟩ | ⟨_, _, _, rfl⟩ := Config.step_cases hstep
  · exact hkeep hP hexec
  · exact hP

/-- Run a list of events, each of which has to satisfy the condition. -/
def runAll (exec : Exec σ ω) (ok : Config σ ω → Event ω → Prop)
    [∀ cfg ev, Decidable (ok cfg ev)] : List (Event ω) → Config σ ω → Option (Config σ ω)
  | [], cfg => some cfg
  | ev :: evs, cfg =>
    if ok cfg ev then (cfg.step exec ev).bind (runAll exec ok evs) else none

theorem Reach.runAll [∀ cfg ev, Decidable (ok cfg ev)] (h : Reach exec ok init cfg)
    (hrun : runAll exec ok evs cfg = some cfg') :
    Reach exec ok init cfg' := by
  induction evs generalizing cfg with
  | nil =>
    cases hrun
    exact h
  | cons ev evs ih =>
    rw [Interleaving.runAll] at hrun
    split at hrun
    · next hok =>
      obtain ⟨cfg1, hstep, hrest⟩ := Option.bind_eq_some_iff.mp hrun
      exact ih (h.step hok hstep) hrest
    · cases hrun

variable (exec ok init) in
/-- A list of events that ends in a state with a decidable property reaches such a state. -/
theorem Reach.exists_runAll [∀ cfg ev, Decidable (ok cfg ev)] [DecidablePred P]
    (evs : List (Event ω)) (hrun : (Interleaving.runAll exec ok evs init).any (decide <| P ·)) :
    ∃ cfg, Reach exec ok init cfg ∧ P cfg := by
  cases hcfg : Interleaving.runAll exec ok evs init with
  | none =>
    rw [hcfg] at hrun
    cases hrun
  | some cfg =>
    rw [hcfg] at hrun
    exact ⟨cfg, Reach.init.runAll hcfg, of_decide_eq_true hrun⟩

/-- An event leaves the sections of other CPUs alone. -/
theorem todo_step_of_ne (hc : c ≠ ev.cpu) (hstep : cfg.step exec ev = some cfg') :
    cfg'.todo c = cfg.todo c := by
  obtain ⟨_, _, _, _, _, rfl, _, _, rfl⟩ | ⟨_, _, rfl, rfl⟩ := Config.step_cases hstep <;>
    exact update_of_ne hc ..

/-- CPUs of no event have the sections they had. -/
theorem Reach.todo_eq (h : Reach exec ok init cfg) (hc : ∀ {cfg ev}, ok cfg ev → c ≠ ev.cpu) :
    cfg.todo c = init.todo c :=
  h.invariant (P := fun cfg => cfg.todo c = init.todo c) rfl fun heq hok hstep =>
    (todo_step_of_ne (hc hok) hstep).trans heq

theorem todo_runAll [∀ cfg ev, Decidable (ok cfg ev)] (hc : ∀ ev ∈ evs, c ≠ ev.cpu)
    (hrun : runAll exec ok evs cfg = some cfg') :
    cfg'.todo c = cfg.todo c := by
  induction evs generalizing cfg with
  | nil =>
    cases hrun
    rfl
  | cons ev evs ih =>
    rw [Interleaving.runAll] at hrun
    split at hrun
    · obtain ⟨cfg1, hstep, hrest⟩ := Option.bind_eq_some_iff.mp hrun
      rw [ih (fun ev hev => hc ev (List.mem_cons_of_mem _ hev)) hrest,
        todo_step_of_ne (hc ev List.mem_cons_self) hstep]
    · cases hrun

variable (exec ok init) in
/-- The same for events of the first `n` CPUs, after which the others are as they were. -/
theorem Reach.exists_runAll_idle [∀ cfg ev, Decidable (ok cfg ev)] [DecidablePred P] (n : Nat)
    (evs : List (Event ω)) (hcpu : ∀ ev ∈ evs, ev.cpu < n)
    (hrun : (Interleaving.runAll exec ok evs init).any (decide <| P ·)) :
    ∃ cfg, Reach exec ok init cfg ∧ P cfg ∧ ∀ c, n ≤ c → cfg.todo c = init.todo c := by
  cases hcfg : Interleaving.runAll exec ok evs init with
  | none =>
    rw [hcfg] at hrun
    cases hrun
  | some cfg =>
    rw [hcfg] at hrun
    refine ⟨cfg, Reach.init.runAll hcfg, of_decide_eq_true hrun, fun c hc => ?_⟩
    exact todo_runAll (fun ev hev heq => (hcpu ev hev).not_ge (heq ▸ hc)) hcfg

end Reach

/-- What holds of all sections that are left, if one CPU gets new ones. -/
theorem forall_todo_update {P : ω → Prop} {todo : Nat → List ω} {cpu : Nat} {l : List ω}
    (h : ∀ c, ∀ sec ∈ todo c, P sec) (hl : ∀ sec ∈ l, P sec) :
    ∀ c, ∀ sec ∈ update todo cpu l c, P sec := by
  intro c
  by_cases hc : c = cpu
  · subst hc
    rw [update_self]
    exact hl
  · rw [update_of_ne hc]
    exact h c

/-! ## Counting over the sections that are left -/

theorem sum_update [AddCommMonoid M] (hi : i < n) (f : Nat → M) (v : M) :
    (Finset.range n).sum (update f i v) + f i = (Finset.range n).sum f + v := by
  have hmem : i ∈ Finset.range n := Finset.mem_range.mpr hi
  rw [Finset.sum_update_of_mem hmem, ← Finset.add_sum_erase (Finset.range n) f hmem, Finset.erase_eq,
    add_assoc, add_comm, add_assoc, add_left_comm, add_assoc]

variable (w : ω → Nat) (n : Nat)

/-- The weight of the sections that `n` CPUs have left. -/
def load (cfg : Config σ ω) : Nat :=
  (Finset.range n).sum fun cpu => ((cfg.todo cpu).map w).sum

variable {w n} {exec : Exec σ ω} {cfg cfg' : Config σ ω}

theorem load_update {s : σ} (hcpu : cpu < n) (l : List ω) :
    load w n ⟨s, update cfg.todo cpu l⟩ + ((cfg.todo cpu).map w).sum =
      load w n cfg + (l.map w).sum := by
  have hfun : (fun c => ((update cfg.todo cpu l c).map w).sum) =
      update (fun c => ((cfg.todo c).map w).sum) cpu (l.map w).sum := by
    funext c
    by_cases hc : c = cpu
    · subst hc
      simp
    · simp [hc]
  simp only [load, hfun]
  exact sum_update hcpu _ _

variable (w exec cfg) in
/-- A call adds the weight of its sections. -/
theorem load_call (sections : List ω) (hcpu : cpu < n)
    (hstep : cfg.step exec (.call cpu sections) = some cfg') :
    load w n cfg' = load w n cfg + (sections.map w).sum := by
  cases hstep
  have h : load w n ⟨cfg.shared, update cfg.todo cpu (sections ++ cfg.todo cpu)⟩ +
      ((cfg.todo cpu).map w).sum = _ := load_update hcpu (sections ++ cfg.todo cpu)
  rw [List.map_append, List.sum_append] at h
  omega

variable (w) in
/-- A section that is run gives its weight for that of the sections that follow it. -/
theorem load_run (next : List ω) (s : σ) (hcpu : cpu < n) (htodo : cfg.todo cpu = sec :: rest) :
    load w n ⟨s, update cfg.todo cpu (next ++ rest)⟩ + w sec =
      load w n cfg + (next.map w).sum := by
  have h : load w n ⟨s, update cfg.todo cpu (next ++ rest)⟩ +
      ((cfg.todo cpu).map w).sum = _ := load_update hcpu (next ++ rest)
  rw [htodo, List.map_append, List.sum_append, List.map_cons, List.sum_cons] at h
  omega

end Interleaving
