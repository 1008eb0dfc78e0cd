import BoruixKernel.Pmm.HighOrder

/-!
# The throttle of compaction

`allocate` compares the number of calls with the number at the last compaction, and compacts memory
only if it has grown by 1024.  The number of calls is a figure of the statistics, and `reset_stats`
sets it back to zero without the number it is compared with.  Then no call compacts memory until
the count has caught up.

Whether a sequence of calls that find nothing compacts memory thus depends on two numbers and on
the calls alone (`Due`), and not on the state of the lists.
-/

namespace BoruixKernel

namespace Pmm

/-- `reset_stats`, as far as the allocator reads the statistics. -/
def resetStats (p : Pmm) : Pmm := { p with allocCalls := 0 }

inductive Call where
  | allocate (rawCpu order : Nat)
  | deallocate (rawCpu pfn : Nat)
  | compact
  | resetStats
deriving DecidableEq

namespace Call

def exec (p : Pmm) : Call → Pmm
  | allocate rawCpu order => (p.allocate rawCpu order).2
  | deallocate rawCpu pfn => p.deallocate rawCpu pfn
  | compact => p.compact
  | resetStats => p.resetStats

/-- The number of calls after a call. -/
def count (calls : Nat) : Call → Nat
  | allocate _ order => if order < MAX_ORDER then (calls + 1) % 2 ^ 64 else calls
  | deallocate .. | compact => calls
  | resetStats => 0

/-- A request for more than a page. -/
def high : Call → Bool
  | allocate _ order => 0 < order && order < MAX_ORDER
  | _ => false

/-- The call finds no block and sees no larger one, if it asks for more than a page. -/
def Starves (p : Pmm) : Call → Prop
  | allocate rawCpu order => 0 < order → order < MAX_ORDER →
      (p.countCall.findBlock order (currentCpuId rawCpu)).1 = none ∧ p.countCall.maxFreeOrder < order
  | _ => True

/-- The call compacts memory because it finds no block. -/
def Compacts (p : Pmm) : Call → Prop
  | allocate rawCpu order => p.Compacts rawCpu order
  | _ => False

end Call

def execAll (p : Pmm) (calls : List Call) : Pmm := calls.foldl Call.exec p

/-- All requests for more than a page find nothing. -/
def Starving : Pmm → List Call → Prop
  | _, [] => True
  | p, c :: cs => c.Starves p ∧ Starving (c.exec p) cs

def SomeCompacts : Pmm → List Call → Prop
  | _, [] => False
  | p, c :: cs => c.Compacts p ∨ SomeCompacts (c.exec p) cs

/-- At one of the requests for more than a page the number of calls is 1024 above `last`. -/
def Due (last : Nat) : Nat → List Call → Prop
  | _, [] => False
  | calls, c :: cs => (c.high = true ∧ 1024 ≤ c.count calls - last) ∨ Due last (c.count calls) cs

instance (last : Nat) : ∀ calls cs, Decidable (Due last calls cs)
  | _, [] => .isFalse id
  | calls, c :: cs =>
    have := instDecidableDue last (c.count calls) cs
    inferInstanceAs (Decidable (_ ∨ _))

theorem handOut_counters (p : Pmm) (idx order : Nat) :
    (p.handOut idx order).2.allocCalls = p.allocCalls ∧
      (p.handOut idx order).2.compactLastAllocCall = p.compactLastAllocCall := by
  unfold handOut
  simp only []
  split
  · exact ⟨rfl, rfl⟩
  · exact ⟨rfl, rfl⟩

/-- The second attempt changes neither number. -/
theorem retryGlobal_counters (p : Pmm) (order cpu : Nat) :
    (p.retryGlobal order cpu).2.allocCalls = p.allocCalls ∧
      (p.retryGlobal order cpu).2.compactLastAllocCall = p.compactLastAllocCall := by
  have hrest := (allocGlobal_listsOnly p order cpu).toRest
  rw [retryGlobal]
  split
  · next idx p1 halloc =>
    rw [halloc] at hrest
    obtain ⟨hcalls, hlast⟩ := handOut_counters p1 idx order
    exact ⟨hcalls.trans hrest.allocCalls, hlast.trans hrest.compactLastAllocCall⟩
  · next p1 halloc =>
    rw [halloc] at hrest
    exact ⟨hrest.allocCalls, hrest.compactLastAllocCall⟩

/-- What a call of `allocate` does to the two numbers. -/
theorem allocate_counters (horder : order < MAX_ORDER) (p : Pmm) (rawCpu : Nat) :
    (p.allocate rawCpu order).2.allocCalls = p.countCall.allocCalls ∧
      (¬ p.Compacts rawCpu order →
        (p.allocate rawCpu order).2.compactLastAllocCall = p.compactLastAllocCall) := by
  by_cases hcompact : p.Compacts rawCpu order
  · refine ⟨?_, fun hnot => absurd hcompact hnot⟩
    rw [hcompact.allocate, (retryGlobal_counters ..).1, (compact_rest _).allocCalls]
  have hrest := findBlock_rest p.countCall order (currentCpuId rawCpu)
  rw [allocate_eq horder]
  split
  · next idx p1 hfind =>
    rw [hfind] at hrest
    obtain ⟨hcalls, hlast⟩ := handOut_counters p1 idx order
    exact ⟨hcalls.trans hrest.allocCalls, fun _ => hlast.trans hrest.compactLastAllocCall⟩
  · next p1 hfind =>
    rw [findBlock_none hfind, if_neg]
    · exact ⟨rfl, fun _ => rfl⟩
    · rintro ⟨hhigh, hinterval, hfragmented⟩
      exact hcompact ⟨horder, congrArg Prod.fst hfind, hhigh, hinterval, hfragmented⟩

theorem deallocate_counters (p : Pmm) (rawCpu pfn : Nat) :
    (p.deallocate rawCpu pfn).allocCalls = p.allocCalls ∧
      (p.deallocate rawCpu pfn).compactLastAllocCall = p.compactLastAllocCall := by
  unfold deallocate
  split
  · exact ⟨rfl, rfl⟩
  split
  · exact ⟨rfl, rfl⟩
  split
  · exact ⟨rfl, rfl⟩
  simp only []
  split
  · exact ⟨rfl, rfl⟩
  · have hrest := percpuPush_rest p (currentCpuId rawCpu) pfn (p.frames pfn).order
    exact ⟨hrest.allocCalls, hrest.compactLastAllocCall⟩

theorem exec_allocCalls (p : Pmm) (c : Call) : (c.exec p).allocCalls = c.count p.allocCalls := by
  cases c with
  | allocate rawCpu order =>
    by_cases horder : order < MAX_ORDER
    · rw [Call.count, if_pos horder]
      exact (allocate_counters horder p rawCpu).1
    · rw [Call.count, if_neg horder, Call.exec, Pmm.allocate, if_pos (Nat.not_lt.mp horder)]
  | deallocate rawCpu pfn => exact (deallocate_counters p rawCpu pfn).1
  | compact => exact (compact_rest p).allocCalls
  | resetStats => rfl

theorem exec_compactLast {c : Call} (h : ¬ c.Compacts p) :
    (c.exec p).compactLastAllocCall = p.compactLastAllocCall := by
  cases c with
  | allocate rawCpu order =>
    by_cases horder : order < MAX_ORDER
    · exact (allocate_counters horder p rawCpu).2 h
    · rw [Call.exec, Pmm.allocate, if_pos (Nat.not_lt.mp horder)]
  | deallocate rawCpu pfn => exact (deallocate_counters p rawCpu pfn).2
  | compact => exact (compact_rest p).compactLastAllocCall
  | resetStats => rfl

/-- What `init` leaves as it is in a new allocator. -/
theorem init_counters (hinit : init mmap = .ok p) :
    p.allocCalls = 0 ∧ p.compactLastAllocCall = 0 ∧ ∀ cpu o, (p.caches cpu).heads o = none := by
  obtain ⟨st, hrecord, rfl⟩ := init_eq_ok hinit
  obtain ⟨hrest, hcaches⟩ := initReserve_rest reserveTarget (ofRegions (initConfig mmap) st)
  exact ⟨hrest.allocCalls, hrest.compactLastAllocCall, fun cpu o => by rw [hcaches]; rfl⟩

/-- A request that finds nothing compacts memory exactly if the number of calls has grown enough. -/
theorem Call.Starves.compacts_iff {c : Call} (h : c.Starves p) :
    c.Compacts p ↔ c.high = true ∧ 1024 ≤ c.count p.allocCalls - p.compactLastAllocCall := by
  cases c with
  | allocate rawCpu order =>
    simp only [Call.high, Bool.and_eq_true, decide_eq_true_eq, Call.count]
    constructor
    · intro hcompact
      rw [if_pos hcompact.inRange]
      exact ⟨⟨hcompact.high, hcompact.inRange⟩, hcompact.interval⟩
    · rintro ⟨⟨hpos, horder⟩, hinterval⟩
      rw [if_pos horder] at hinterval
      obtain ⟨hfind, hmax⟩ := h hpos horder
      exact ⟨horder, hfind, hpos, hinterval, hmax⟩
  | deallocate | compact | resetStats => exact iff_of_false id fun h => Bool.noConfusion h.1

/-- Until the first compaction only the calls matter. -/
theorem Starving.someCompacts_iff {calls : List Call} (h : Starving p calls) :
    SomeCompacts p calls ↔ Due p.compactLastAllocCall p.allocCalls calls := by
  induction calls generalizing p with
  | nil => exact Iff.rfl
  | cons c cs ih =>
    obtain ⟨hstarves, hrest⟩ := h
    rw [SomeCompacts, Due, hstarves.compacts_iff]
    refine or_congr_right' fun hnot => ?_
    have hlast := exec_compactLast fun hcompact => hnot (hstarves.compacts_iff.mp hcompact)
    rw [ih hrest, hlast, exec_allocCalls]

section Barren

variable {p : Pmm} {order rawCpu : Nat}

/-- There is no block of the order anywhere, and the caches are empty. -/
structure Barren (p : Pmm) (rawCpu order : Nat) : Prop where
  nothing : p.NothingFor (currentCpuId rawCpu) order
  high : 0 < order
  inRange : order < MAX_ORDER
  fragmented : p.maxFreeOrder < order
  caches : ∀ cpu o, (p.caches cpu).heads o = none

theorem compact_of_empty (hempty : ∀ cpu o, (p.caches cpu).heads o = none) : p.compact = p := by
  have hpop (cpu o : Nat) : p.percpuPopRaw cpu o = (none, p) := by
    rw [percpuPopRaw]
    simp [hempty]
  have hdrain (cpu o n : Nat) : drainCache cpu o n p = p := by
    cases n with
    | zero => rfl
    | succ n => rw [drainCache, hpop]
  have hfold : ∀ slots : List (Nat × Nat),
      slots.foldl (fun p slot => drainCache slot.1 slot.2 p.totalFrames p) p = p := by
    intro slots
    induction slots with
    | nil => rfl
    | cons slot slots ih =>
      obtain ⟨cpu, o⟩ := slot
      rw [List.foldl_cons]
      simp only [hdrain]
      exact ih
  exact hfold cacheSlots

/-- A request there changes the two numbers only. -/
theorem Barren.allocate (h : Barren p rawCpu order) (c l : Nat) :
    (p.withCounters c l).allocate rawCpu order =
      (.none, p.withCounters ((c + 1) % 2 ^ 64)
        (if 1024 ≤ (c + 1) % 2 ^ 64 - l then (c + 1) % 2 ^ 64 else l)) := by
  have hnothing := h.nothing.withCounters c l
  split
  · next hdue =>
    have hcompact : (p.withCounters c l).Compacts rawCpu order := by
      refine ⟨h.inRange, ?_, h.high, hdue, ?_⟩
      · exact (findBlock_eq_none h.inRange).mpr (nothingFor_countCall.mpr hnothing)
      · rw [countCall_withCounters, maxFreeOrder_withCounters]
        exact h.fragmented
    have hsame : { (p.withCounters c l).countCall with
        compactLastAllocCall := (p.withCounters c l).countCall.allocCalls }.compact =
        p.withCounters ((c + 1) % 2 ^ 64) ((c + 1) % 2 ^ 64) := compact_of_empty h.caches
    have hnone : ((p.withCounters ((c + 1) % 2 ^ 64) ((c + 1) % 2 ^ 64)).allocGlobal order
        (currentCpuId rawCpu)).1 = none :=
      (allocGlobal_eq_none h.inRange).mpr (h.nothing.withCounters _ _).toGlobalEmpty
    rw [hcompact.allocate, hsame, retryGlobal]
    split
    · next halloc =>
      rw [halloc] at hnone
      cases hnone
    · next halloc => rw [allocGlobal_none halloc]
  · next hdue =>
    refine allocate_eq_none h.inRange hnothing fun hcompact => hdue hcompact.interval

theorem Barren.starving (h : Barren p rawCpu order) (n c l : Nat) :
    Starving (p.withCounters c l) (List.replicate n (.allocate rawCpu order)) := by
  induction n generalizing c l with
  | zero => trivial
  | succ n ih =>
    refine ⟨fun _ _ => ⟨?_, ?_⟩, ?_⟩
    · exact (findBlock_eq_none h.inRange).mpr (nothingFor_countCall.mpr (h.nothing.withCounters c l))
    · rw [countCall_withCounters, maxFreeOrder_withCounters]
      exact h.fragmented
    · rw [Call.exec, h.allocate]
      exact ih _ _

/-- Before the next compaction is due, the requests are counted and nothing else happens. -/
theorem Barren.execAll (h : Barren p rawCpu order) (hsmall : c + n < 2 ^ 64)
    (hnotDue : c + n < l + 1024) :
    (p.withCounters c l).execAll (List.replicate n (.allocate rawCpu order)) = p.withCounters (c + n) l := by
  induction n generalizing c with
  | zero => rfl
  | succ n ih =>
    have hcall := h.allocate c l
    rw [Nat.mod_eq_of_lt (by omega), if_neg (by omega)] at hcall
    rw [List.replicate_succ, Pmm.execAll, List.foldl_cons, Call.exec, hcall]
    have hrest := ih (c := c + 1) (by omega) (by omega)
    rw [Nat.add_assoc, Nat.add_comm 1 n] at hrest
    exact hrest

end Barren

theorem smallMap_barren : ∃ p, init smallMap = .ok p ∧ Barren p 0 18 := by
  obtain ⟨p, hinit, hfind, hmax⟩ := exists_init smallMap
    (fun p => (p.findBlock 18 0).1 = none ∧ p.maxFreeOrder < 18) (by decide +kernel)
  exact ⟨p, hinit, (findBlock_eq_none (by decide)).mp hfind, by decide, by decide, hmax,
    (init_counters hinit).2.2⟩

end Pmm

end BoruixKernel
