import BoruixKernel.Pmm.Init

/-!
# The counts of the caches

A cache counts the blocks of each of its lists.  The operations on free lists, regions and the
reserve leave the caches and the links of the blocks in them alone (`Counted.keep`), so that the
counts can only get wrong where a block enters or leaves a cache.  There the count goes along, as
long as its 16 bits suffice; they do, since no list is longer than its limit between two calls.
-/

namespace BoruixKernel

open LinkedList

namespace Pmm

/-! ## The counts -/

/-- Every count is the length of its list. -/
structure Counted (p : Pmm) : Prop where
  length : ∀ c o l, Chain p.next ((p.caches c).heads o) l → (p.caches c).counts o = l.length

/-- Moreover no cache list is longer than it may be between calls. -/
structure Tallied (p : Pmm) : Prop extends Counted p where
  limited : ∀ c o, (p.caches c).counts o ≤ perCpuLimit o

theorem perCpuLimit_le (o : Nat) : perCpuLimit o ≤ 64 := by
  unfold perCpuLimit
  repeat' split
  all_goals decide

section Counted

variable {p p' : Pmm}

/-- If only one list changes, only that one has to be counted again. -/
theorem Counted.update (hc : Counted p) (h : Rep p own) (c0 o0 : Nat)
    (hothers : ∀ c o, ¬ (c = c0 ∧ o = o0) → (p'.caches c).heads o = (p.caches c).heads o ∧
      (p'.caches c).counts o = (p.caches c).counts o)
    (hnext : ∀ c o f, ¬ (c = c0 ∧ o = o0) → own f = some (.block f o (.cache c)) → p'.next f = p.next f)
    (hself : ∀ l, Chain p'.next ((p'.caches c0).heads o0) l → (p'.caches c0).counts o0 = l.length) :
    Counted p' := by
  refine ⟨fun c o l hl => ?_⟩
  by_cases hco : c = c0 ∧ o = o0
  · obtain ⟨rfl, rfl⟩ := hco
    exact hself l hl
  · obtain ⟨l', hl', hmem⟩ := h.cache c o
    have hchain : Chain p'.next ((p'.caches c).heads o) l' := by
      rw [(hothers c o hco).1]
      exact hl'.congr fun f hf => hnext c o f hco ((hmem f).mp hf)
    rw [hl.unique hchain, (hothers c o hco).2]
    exact hc.length c o l' hl'

/-- What changes neither the caches nor the links of the blocks in them. -/
theorem Counted.keep (hc : Counted p) (h : Rep p own) (hcaches : p'.caches = p.caches)
    (hlinks : ∀ f o c, own f = some (.block f o (.cache c)) → p'.next f = p.next f) : Counted p' := by
  refine ⟨fun c o l hl => ?_⟩
  obtain ⟨l', hl', hmem⟩ := h.cache c o
  have hchain : Chain p'.next ((p'.caches c).heads o) l' := by
    rw [hcaches]
    exact hl'.congr fun f hf => hlinks f o c ((hmem f).mp hf)
  rw [hl.unique hchain, hcaches]
  exact hc.length c o l' hl'

theorem Tallied.of_caches (hc : Tallied p) (hc' : Counted p') (hcaches : p'.caches = p.caches) :
    Tallied p' := ⟨hc', hcaches ▸ hc.limited⟩

theorem Counted.listSteps (hc : Counted p) (h : Rep p own)
    (hsteps : ListSteps (p, own) (p', own')) : Counted p' :=
  hc.keep h hsteps.listsOnly.caches fun f o c =>
    (hsteps.stores h).2.2 f o (.cache c) (by simp) id

theorem Tallied.listSteps (hc : Tallied p) (h : Rep p own)
    (hsteps : ListSteps (p, own) (p', own')) : Tallied p' :=
  hc.of_caches (hc.toCounted.listSteps h hsteps) hsteps.listsOnly.caches

theorem Counted.reservePop (hc : Counted p) (h : Rep p own) (hpop : p.reservePop = (some b, p')) :
    Counted p' ∧ p'.caches = p.caches := by
  obtain ⟨hb, -⟩ := h.reservePop hpop
  unfold Pmm.reservePop at hpop
  split at hpop
  · cases hpop
    refine ⟨hc.keep h rfl fun f o c hf => ?_, rfl⟩
    have hfb : f ≠ b := by
      rintro rfl
      rw [hb] at hf
      cases hf
    rw [next, modifyFrame_frames, if_neg hfb]
    rfl
  · cases hpop

theorem Counted.reservePush (hc : Counted p) (h : Rep p own) (hb : own b = some (.block b 0 .held)) :
    Counted (p.reservePush b) := by
  refine hc.keep h rfl fun f o c hf => ?_
  have hfb : f ≠ b := by
    rintro rfl
    rw [hb] at hf
    cases hf
  rw [next, Pmm.reservePush, modifyFrame_frames, if_neg hfb]
  rfl

theorem setCache_counts (head : Option Nat) (count c o : Nat) :
    ((p.setCache cpu k head count).caches c).counts o =
      if c = cpu ∧ o = k then count else (p.caches c).counts o := by
  by_cases hc : c = cpu
  · subst hc
    by_cases ho : o = k
    · simp [setCache, ho]
    · simp [setCache, ho]
  · simp [setCache, hc]

theorem Counted.percpuPopRaw (hc : Counted p) (h : Rep p own) (hpop : p.percpuPopRaw cpu k = (some b, p')) :
    Counted p' ∧ 0 < (p.caches (cpu % MAX_CPUS)).counts k ∧
      ∀ c o, (p'.caches c).counts o =
        if c = cpu % MAX_CPUS ∧ o = k then (p.caches c).counts o - 1 else (p.caches c).counts o := by
  unfold Pmm.percpuPopRaw at hpop
  cases hhead : (p.caches (cpu % MAX_CPUS)).heads k with
  | none => simp [hhead] at hpop
  | some head =>
    simp only [hhead, Prod.mk.injEq, Option.some.injEq] at hpop
    obtain ⟨rfl, rfl⟩ := hpop
    obtain ⟨l, hl, hmem⟩ := h.cache (cpu % MAX_CPUS) k
    have hnd := hl.nodup
    have hcount := hc.length _ _ _ hl
    rw [hhead] at hl
    obtain ⟨l2, rfl, hl2⟩ := hl.tail
    have hframes : ∀ f, f ≠ head → (Pmm.next (modifyFrame (p.setCache (cpu % MAX_CPUS) k (p.frames head).next
        ((p.caches (cpu % MAX_CPUS)).counts k - 1)) head fun f =>
          { f with next := none, prev := none, state := .Allocated, migratable := true })) f = p.next f := by
      intro f hf
      rw [next, modifyFrame_frames, if_neg hf]
      rfl
    have hcounts (c o : Nat) : ((modifyFrame (p.setCache (cpu % MAX_CPUS) k (p.frames head).next
        ((p.caches (cpu % MAX_CPUS)).counts k - 1)) head fun f =>
          { f with next := none, prev := none, state := .Allocated, migratable := true }).caches c).counts o =
        if c = cpu % MAX_CPUS ∧ o = k then (p.caches c).counts o - 1 else (p.caches c).counts o := by
      rw [modifyFrame_caches, setCache_counts]
      split
      · next hco => rw [hco.1, hco.2]
      · rfl
    refine ⟨hc.update h (cpu % MAX_CPUS) k (fun c o hco => ?_) (fun c o f hco hf => ?_)
      fun l' hl' => ?_, ?_, hcounts⟩
    · refine ⟨?_, by rw [hcounts, if_neg hco]⟩
      rw [modifyFrame_caches, setCache_heads, if_neg hco]
    · refine hframes f ?_
      rintro rfl
      have hown := (hmem f).mp List.mem_cons_self
      rw [hf] at hown
      cases hown
      exact hco ⟨rfl, rfl⟩
    · rw [modifyFrame_caches, setCache_heads, if_pos ⟨rfl, rfl⟩] at hl'
      have hchain : Chain _ (p.frames head).next l2 := hl2.congr fun f hf =>
        hframes f fun heq => (List.nodup_cons.mp hnd).1 (heq ▸ hf)
      rw [hcounts, if_pos ⟨rfl, rfl⟩, hcount, hl'.unique hchain, List.length_cons, Nat.add_sub_cancel]
    · rw [hcount]
      exact Nat.succ_pos _

theorem percpuPushRaw_counts (cpu b k c o : Nat) : ((p.percpuPushRaw cpu b k).caches c).counts o =
      if c = cpu % MAX_CPUS ∧ o = k then min ((p.caches c).counts o + 1) 65535 else (p.caches c).counts o := by
  rw [Pmm.percpuPushRaw, setCache_counts]
  split
  · next hco => rw [hco.1, hco.2]
  · rfl

theorem Counted.percpuPushRaw (hc : Counted p) (h : Rep p own) (cpu : Nat)
    (hb : own b = some (.block b k .held)) (hroom : (p.caches (cpu % MAX_CPUS)).counts k < 65535) :
    Counted (p.percpuPushRaw cpu b k) := by
  have hne : ∀ {f o c}, own f = some (.block f o (.cache c)) → f ≠ b := by
    rintro f o c hf rfl
    rw [hb] at hf
    cases hf
  have hnext : ∀ f, f ≠ b → (p.percpuPushRaw cpu b k).next f = p.next f := by
    intro f hf
    rw [next, Pmm.percpuPushRaw, setCache_frames, modifyFrame_frames, if_neg hf]
    rfl
  refine hc.update h (cpu % MAX_CPUS) k (fun c o hco => ?_) (fun c o f _ hf => hnext f (hne hf)) fun l' hl' => ?_
  · refine ⟨?_, by rw [percpuPushRaw_counts, if_neg hco]⟩
    rw [Pmm.percpuPushRaw, setCache_heads, if_neg hco]
    rfl
  · obtain ⟨l, hl, hmem⟩ := h.cache (cpu % MAX_CPUS) k
    have hchain : Chain (p.percpuPushRaw cpu b k).next
        (((p.percpuPushRaw cpu b k).caches (cpu % MAX_CPUS)).heads k) (b :: l) := by
      refine ⟨by rw [Pmm.percpuPushRaw, setCache_heads, if_pos ⟨rfl, rfl⟩], ?_⟩
      rw [next, Pmm.percpuPushRaw, setCache_frames, modifyFrame_frames, if_pos rfl]
      exact hl.congr fun f hf => hnext f (hne ((hmem f).mp hf))
    have hcount := hc.length _ _ _ hl
    rw [percpuPushRaw_counts, if_pos ⟨rfl, rfl⟩, hl'.unique hchain, List.length_cons]
    omega

/-- Draining takes off as many blocks as it is told, if there are so many. -/
theorem Counted.drainCache (hc : Counted p) (h : Rep p own) (cpu k n : Nat) :
    Counted (Pmm.drainCache cpu k n p) ∧ ∀ c o, ((Pmm.drainCache cpu k n p).caches c).counts o =
      if c = cpu % MAX_CPUS ∧ o = k then (p.caches c).counts o - n else (p.caches c).counts o := by
  induction n generalizing p own with
  | zero => exact ⟨hc, fun c o => by rw [Nat.sub_zero, ite_self]; rfl⟩
  | succ n ih =>
    rw [Pmm.drainCache]
    split
    · next b p1 hpop =>
      obtain ⟨hc1, -, hcounts1⟩ := hc.percpuPopRaw h hpop
      obtain ⟨own1, hquiet1, htaken⟩ := h.quiet_percpuPopRaw hpop
      obtain ⟨own2, hlisted2, -⟩ := hquiet1.rep.freeHeld htaken.self
      have hcaches : (p1.freeAndMerge b k).caches = p1.caches := hlisted2.steps.listsOnly.caches
      obtain ⟨hc3, hcounts3⟩ := ih (hc1.listSteps hquiet1.rep hlisted2.steps) hlisted2.rep
      refine ⟨hc3, fun c o => ?_⟩
      rw [hcounts3, hcaches, hcounts1]
      split
      · omega
      · rfl
    · next p1 hpop =>
      -- The list is empty, and so its count is zero.
      rw [percpuPopRaw_none hpop]
      refine ⟨hc, fun c o => ?_⟩
      split
      · next hco =>
        have hzero := hc.length _ _ [] (percpuPopRaw_empty hpop)
        rw [hco.1, hco.2, hzero, List.length_nil, Nat.zero_sub]
      · rfl

theorem Tallied.drainCache (hc : Tallied p) (h : Rep p own) (cpu k n : Nat) :
    Tallied (Pmm.drainCache cpu k n p) := by
  obtain ⟨hc', hcounts⟩ := hc.toCounted.drainCache h cpu k n
  refine ⟨hc', fun c o => ?_⟩
  rw [hcounts]
  have := hc.limited c o
  split
  · omega
  · exact this

/-- A freed block goes to a cache, and what is over the limit goes on to the free lists. -/
theorem Tallied.percpuPush (hc : Tallied p) (h : Rep p own) (cpu : Nat)
    (hb : own b = some (.block b k .held)) : Tallied (p.percpuPush cpu b k) := by
  have hlimit := hc.limited (cpu % MAX_CPUS) k
  have hle := perCpuLimit_le k
  obtain ⟨own1, hquiet1, -⟩ := h.quiet_percpuPushRaw cpu hb
  have hc1 := hc.toCounted.percpuPushRaw h cpu hb (by omega)
  obtain ⟨hc2, hcounts2⟩ := hc1.drainCache hquiet1.rep cpu k
    (((p.percpuPushRaw cpu b k).caches (cpu % MAX_CPUS)).counts k - perCpuLimit k)
  refine ⟨hc2, fun c o => ?_⟩
  rw [Pmm.percpuPush, hcounts2]
  split
  · next hco =>
    rw [hco.1, hco.2]
    omega
  · next hco =>
    rw [percpuPushRaw_counts, if_neg hco]
    exact hc.limited c o

theorem Tallied.compact (hc : Tallied p) (h : Rep p own) : Tallied p.compact := by
  have hfold : ∀ (slots : List (Nat × Nat)) {p own}, Rep p own → Tallied p →
      Tallied (slots.foldl (fun p slot => Pmm.drainCache slot.1 slot.2 p.totalFrames p) p) := by
    intro slots
    induction slots with
    | nil => exact fun _ hc => hc
    | cons slot slots ih =>
      intro p own h hc
      obtain ⟨own1, hquiet1, -⟩ := h.drainCache slot.1 slot.2 p.totalFrames
      exact ih hquiet1.rep (hc.drainCache h slot.1 slot.2 p.totalFrames)
  exact hfold cacheSlots h hc

/-- The rest of a batch is counted as it goes to the cache. -/
theorem Counted.refillLoop_some (hc : Counted p) (h : Inv p own) (hk : k < MAX_ORDER) (cpu b n : Nat)
    (hroom : (p.caches (cpu % MAX_CPUS)).counts k + n ≤ 65535) :
    Counted (refillLoop cpu k n (some b) p).2 ∧
      ∀ c o, ((refillLoop cpu k n (some b) p).2.caches c).counts o ≤
        if c = cpu % MAX_CPUS ∧ o = k then (p.caches c).counts o + n else (p.caches c).counts o := by
  induction n generalizing p own with
  | zero => exact ⟨hc, fun c o => by rw [Nat.add_zero, ite_self]; exact Nat.le_refl _⟩
  | succ n ih =>
    rw [refillLoop]
    split
    · next d p1 halloc =>
      obtain ⟨own1, hinv1, htaken, hsteps⟩ := h.allocGlobal hk halloc
      have hcaches : p1.caches = p.caches := hsteps.listsOnly.caches
      have hc1 := hc.listSteps h.toRep hsteps
      obtain ⟨own2, hquiet2, -⟩ := hinv1.toRep.quiet_percpuPushRaw cpu htaken.self
      have hc2 := hc1.percpuPushRaw hinv1.toRep cpu htaken.self (by rw [hcaches]; omega)
      have hcount : ((p1.percpuPushRaw cpu d k).caches (cpu % MAX_CPUS)).counts k =
          min ((p.caches (cpu % MAX_CPUS)).counts k + 1) 65535 := by
        rw [percpuPushRaw_counts, if_pos ⟨rfl, rfl⟩, hcaches]
      obtain ⟨hc3, hcounts3⟩ := ih hc2 (hinv1.quiet hquiet2) (by omega)
      refine ⟨hc3, fun c o => (hcounts3 c o).trans ?_⟩
      rw [percpuPushRaw_counts, hcaches]
      split <;> omega
    · next p1 halloc =>
      obtain rfl := allocGlobal_none halloc
      refine ⟨hc, fun c o => ?_⟩
      show (p1.caches c).counts o ≤ _
      split <;> omega

theorem perCpuBatch_le (o : Nat) : perCpuBatch o ≤ perCpuLimit o := Nat.min_le_left _ _

section

variable (hc : Tallied p)

include hc

/-- A batch for an empty cache stays within the limit. -/
theorem Tallied.percpuRefill (h : Inv p own) (hk : k < MAX_ORDER)
    (hempty : (p.caches (cpu % MAX_CPUS)).counts k = 0) (halloc : p.percpuRefill cpu k = (some b, p')) :
    Tallied p' := by
  have hbatch := perCpuBatch_le k
  have hle := perCpuLimit_le k
  unfold Pmm.percpuRefill at halloc
  cases hn : perCpuBatch k with
  | zero => simp [hn, refillLoop] at halloc
  | succ n =>
    rw [hn, refillLoop] at halloc
    split at halloc
    · next d p1 hfirst =>
      obtain ⟨own1, hinv1, -, hsteps⟩ := h.allocGlobal hk hfirst
      have hcaches : p1.caches = p.caches := hsteps.listsOnly.caches
      have hloop := (hc.toCounted.listSteps h.toRep hsteps).refillLoop_some hinv1 hk cpu d n
        (by rw [hcaches]; omega)
      simp only [halloc] at hloop
      obtain ⟨hc', hcounts⟩ := hloop
      refine ⟨hc', fun c o => (hcounts c o).trans ?_⟩
      rw [hcaches]
      split
      · next hco =>
        rw [hco.1, hco.2]
        omega
      · exact hc.limited c o
    · cases halloc

theorem Tallied.findBlock (h : Inv p own) (hk : k < MAX_ORDER)
    (hfind : p.findBlock k cpu = (some b, p')) : Tallied p' := by
  unfold Pmm.findBlock at hfind
  split at hfind
  · next idx p1 hpop =>
    cases hfind
    obtain ⟨hc', -, hcounts⟩ := hc.toCounted.percpuPopRaw h.toRep hpop
    refine ⟨hc', fun c o => ?_⟩
    rw [hcounts]
    have := hc.limited c o
    split
    · omega
    · exact this
  · next p1 hpop =>
    have hempty := hc.length _ _ [] (percpuPopRaw_empty hpop)
    obtain rfl := percpuPopRaw_none hpop
    split at hfind
    · next idx p2 hrefill =>
      cases hfind
      exact hc.percpuRefill h hk hempty hrefill
    · next p2 hrefill =>
      obtain rfl := percpuRefill_none hrefill
      split at hfind
      · next idx p3 hglobal =>
        cases hfind
        obtain ⟨own3, -, -, hsteps⟩ := h.allocGlobal hk hglobal
        exact hc.listSteps h.toRep hsteps
      · next p3 hglobal =>
        obtain rfl := allocGlobal_none hglobal
        split at hfind
        · obtain ⟨hc', hcaches⟩ := hc.toCounted.reservePop h.toRep hfind
          exact hc.of_caches hc' hcaches
        · cases hfind

theorem Tallied.handOut (b k : Nat) : Tallied (p.handOut b k).2 := by
  unfold Pmm.handOut
  simp only []
  split
  · exact ⟨⟨hc.length⟩, hc.limited⟩
  · exact ⟨⟨hc.length⟩, hc.limited⟩

theorem Tallied.retryGlobal (h : Inv p own) (hk : k < MAX_ORDER)
    (hretry : p.retryGlobal k cpu = (r, p')) : Tallied p' := by
  unfold Pmm.retryGlobal at hretry
  split at hretry
  · next idx p1 halloc =>
    obtain ⟨own1, -, -, hsteps⟩ := h.allocGlobal hk halloc
    have hout := (hc.listSteps h.toRep hsteps).handOut idx k
    rwa [hretry] at hout
  · next p1 halloc =>
    cases hretry
    rwa [allocGlobal_none halloc]

theorem Tallied.allocate (h : Inv p own) (halloc : p.allocate rawCpu k = (r, p')) : Tallied p' := by
  unfold Pmm.allocate at halloc
  split at halloc
  · cases halloc
    exact hc
  · next hk =>
    have hk : k < MAX_ORDER := by omega
    simp only [] at halloc
    have h0 := (h.counters ((p.allocCalls + 1) % 2 ^ 64) p.compactLastAllocCall).1
    have hc0 : Tallied { p with allocCalls := (p.allocCalls + 1) % 2 ^ 64 } := ⟨⟨hc.length⟩, hc.limited⟩
    generalize { p with allocCalls := (p.allocCalls + 1) % 2 ^ 64 } = q at h0 hc0 halloc
    split at halloc
    · next idx p1 hfind =>
      have hout := (hc0.findBlock h0 hk hfind).handOut idx k
      rwa [halloc] at hout
    · next p1 hfind =>
      obtain rfl := findBlock_none hfind
      split at halloc
      · have h1 := (h0.counters p1.allocCalls p1.allocCalls).1
        have hc1 : Tallied { p1 with compactLastAllocCall := p1.allocCalls } := ⟨⟨hc0.length⟩, hc0.limited⟩
        obtain ⟨own2, hquiet2, -⟩ := h1.toRep.compact
        exact (hc1.compact h1.toRep).retryGlobal (h1.quiet hquiet2) hk halloc
      · cases halloc
        exact hc0

theorem Tallied.deallocate (h : Inv p own) (rawCpu : Nat) (hb : own b = some (.block b k .held)) :
    Tallied (p.deallocate rawCpu b) := by
  obtain ⟨horder, -⟩ := h.tag hb (by simp)
  unfold Pmm.deallocate
  split
  · exact hc
  split
  · exact hc
  split
  · exact hc
  rw [horder]
  simp only []
  split
  · next hzero =>
    obtain ⟨rfl, -⟩ := hzero
    exact ⟨⟨(hc.toCounted.reservePush h.toRep hb).length⟩, hc.limited⟩
  · have hc' := hc.percpuPush h.toRep (currentCpuId rawCpu) hb
    exact ⟨⟨hc'.length⟩, hc'.limited⟩

theorem Tallied.initReserve (h : Inv p own) (hroom : p.reserveCount + n ≤ reserveTarget) :
    Tallied (Pmm.initReserve n p) := by
  induction n generalizing p own with
  | zero => exact hc
  | succ n ih =>
    rw [Pmm.initReserve]
    split
    · next b p1 halloc =>
      obtain ⟨own1, hinv1, htaken, hsteps⟩ := h.allocGlobal (by decide) halloc
      have hcount : p1.reserveCount = p.reserveCount := hsteps.listsOnly.reserveCount
      obtain ⟨own2, hquiet2, -⟩ := hinv1.toRep.quiet_reservePush htaken.self (by omega)
      have hc1 := hc.listSteps h.toRep hsteps
      refine ih (hc1.of_caches (hc1.toCounted.reservePush hinv1.toRep htaken.self) rfl)
        (hinv1.quiet hquiet2) ?_
      show p1.reserveCount + 1 + n ≤ reserveTarget
      omega
    · next p1 halloc =>
      obtain rfl := allocGlobal_none halloc
      exact hc

end

end Counted

end Pmm

end BoruixKernel
