import BoruixKernel.Lib.Interleaving
import BoruixKernel.Lib.UInt64
import BoruixKernel.Pmm.Allocator

/-!
# TLB shootdowns

`send_tlb_shootdown_target` and the handler `lapic_tlb_ipi`, cut into their accesses to
shared memory.  Calls and handlers are agents that run in any interleaving; interrupts
that have been sent and not delivered are counted for each CPU.

A call takes a number from `TLB_SEQ`, interrupts the CPUs that use its address space, and
waits until the number each of them has acknowledged is no less.  The handler flushes
first and reads the number to acknowledge last, so that an acknowledgement vouches for a
flush after every number taken before that flush, but not for one taken between the two.
And a CPU whose interrupt is already pending is left out of the wait.
-/

namespace BoruixKernel

open Interleaving Function List UInt64

namespace Shootdown

/-- A call that has taken its number. -/
structure Call where
  p4 : UInt64
  selfApic : UInt64
  count : Nat
  seq : UInt64
  /-- The bits of the mask. -/
  mask : List Nat
  /-- The CPUs whose `CURRENT_CR3` was read equal to `p4`. -/
  targets : List Nat
  /-- How often each CPU had flushed when the number was taken. -/
  before : Nat → Nat

/-- The end of the loop over the CPUs. -/
def Call.max (call : Call) : Nat := min call.count MAX_CPUS

/-- A wait that ended without timeout, and what there was then. -/
structure Wait where
  call : Call
  unrespMask : List Nat
  flushes : Nat → Nat

/-- The shared variables; the last two fields record what has happened. -/
structure State where
  cpuCount : Nat
  apicIds : Nat → UInt64
  currentCr3 : Nat → UInt64
  /-- The bit `IPI_TLB_BIT` of `IPI_PENDING`. -/
  tlbPending : Nat → Bool
  tlbSeq : UInt64
  tlbAck : Nat → UInt64
  tlbWaitReady : Bool
  tlbUnrespMask : List Nat
  /-- Interrupts sent to a CPU and not yet delivered. -/
  inFlight : Nat → Nat
  /-- The handler runs, with interrupts disabled. -/
  inHandler : Nat → Bool
  flushes : Nat → Nat
  ended : List Wait

/-- The accesses, with what the code around them carries in local variables. -/
inductive Access where
  /-- `send_tlb_shootdown_target`: the number of CPUs. -/
  | enter (selfApic p4 : UInt64)
  | incSeq (selfApic p4 : UInt64) (count : Nat)
  /-- The loop over the CPUs, at the load of `APIC_IDS[i]`. -/
  | loadApic (call : Call) (i : Nat)
  | loadCr3 (call : Call) (i : Nat)
  | setPending (call : Call) (i : Nat)
  | sendIpi (call : Call) (i : Nat)
  | loadReady (call : Call)
  /-- The wait, with `left` rounds to go, at CPU `i`. -/
  | loadUnresp (call : Call) (left i : Nat)
  | loadAck (call : Call) (left i : Nat)
  /-- After the timeout. -/
  | loadBad (call : Call) (bad : List Nat) (i : Nat)
  | orUnresp (bad : List Nat)
  /-- `lapic_tlb_ipi` on a CPU. -/
  | deliver (cpu : Nat)
  | flush (cpu : Nat)
  | clearPending (cpu : Nat)
  | loadSeq (cpu : Nat)
  | storeAck (cpu : Nat) (seq : UInt64)
  | iret (cpu : Nat)
  /-- `set_current_cr3_for`. -/
  | setCr3 (cpu : Nat) (p4 : UInt64)

/-- What an access does, and which one follows. -/
def exec : Exec State Access := fun _ acc s =>
  match acc with
  | .enter selfApic p4 =>
    some (s, if s.cpuCount ≤ 1 then [] else [.incSeq selfApic p4 s.cpuCount])
  | .incSeq selfApic p4 count =>
    let seq := s.tlbSeq + 1
    some ({ s with tlbSeq := seq }, [.loadApic ⟨p4, selfApic, count, seq, [], [], s.flushes⟩ 0])
  | .loadApic call i =>
    some (s,
      if i < call.max then
        if s.apicIds i = call.selfApic then [.loadApic call (i + 1)] else [.loadCr3 call i]
      else [.loadReady call])
  | .loadCr3 call i =>
    some (s,
      if s.currentCr3 i ≠ call.p4 then [.loadApic call (i + 1)]
      else [.setPending { call with targets := call.targets ++ [i] } i])
  | .setPending call i =>
    if s.tlbPending i then some (s, [.loadApic call (i + 1)])
    else some ({ s with tlbPending := update s.tlbPending i true }, [.sendIpi call i])
  | .sendIpi call i =>
    some ({ s with inFlight := update s.inFlight i (s.inFlight i + 1) },
      [.loadApic { call with mask := call.mask ++ [i] } (i + 1)])
  | .loadReady call =>
    some (s, if call.mask = [] ∨ !s.tlbWaitReady then [] else [.loadUnresp call 1000000 0])
  | .loadUnresp call left i =>
    if i < call.max then
      some (s,
        if i ∉ call.mask ∨ i ∈ s.tlbUnrespMask then [.loadUnresp call left (i + 1)]
        else [.loadAck call left i])
    else some ({ s with ended := ⟨call, s.tlbUnrespMask, s.flushes⟩ :: s.ended }, [])
  | .loadAck call left i =>
    some (s,
      if s.tlbAck i < call.seq then
        if left ≤ 1 then [.loadBad call [] 0] else [.loadUnresp call (left - 1) 0]
      else [.loadUnresp call left (i + 1)])
  | .loadBad call bad i =>
    some (s,
      if i < call.max then
        if i ∈ call.mask ∧ s.tlbAck i < call.seq then [.loadBad call (bad ++ [i]) (i + 1)]
        else [.loadBad call bad (i + 1)]
      else if bad ≠ [] then [.orUnresp bad] else [])
  | .orUnresp bad => some ({ s with tlbUnrespMask := s.tlbUnrespMask ++ bad }, [])
  | .deliver cpu =>
    if s.inHandler cpu ∨ s.inFlight cpu = 0 then none
    else some ({ s with
      inFlight := update s.inFlight cpu (s.inFlight cpu - 1)
      inHandler := update s.inHandler cpu true }, [.flush cpu])
  | .flush cpu =>
    some ({ s with flushes := update s.flushes cpu (s.flushes cpu + 1) },
      if cpu < MAX_CPUS then [.clearPending cpu] else [.iret cpu])
  | .clearPending cpu =>
    some ({ s with tlbPending := update s.tlbPending cpu false }, [.loadSeq cpu])
  | .loadSeq cpu => some (s, [.storeAck cpu s.tlbSeq])
  | .storeAck cpu seq => some ({ s with tlbAck := update s.tlbAck cpu seq }, [.iret cpu])
  | .iret cpu => some ({ s with inHandler := update s.inHandler cpu false }, [])
  | .setCr3 cpu p4 =>
    some (if cpu < MAX_CPUS then
      { s with currentCr3 := update s.currentCr3 cpu p4 } else s, [])

/-- What an agent may begin: a call, the handler, or a change of the address space. -/
def IsCall : Access → Prop
  | .enter .. | .deliver _ | .setCr3 .. => True
  | _ => False

/-- The start: nothing has been sent. -/
def boot (cpuCount : Nat) (apicIds currentCr3 : Nat → UInt64) (tlbWaitReady : Bool) : State where
  cpuCount
  apicIds
  currentCr3
  tlbPending _ := false
  tlbSeq := 0
  tlbAck _ := 0
  tlbWaitReady
  tlbUnrespMask := []
  inFlight _ := 0
  inHandler _ := false
  flushes _ := 0
  ended := []

/-- A wait without timeout, with no target marked as unresponsive, vouches for a flush of
every target after the number was taken. -/
def Wait.Vouches (w : Wait) : Prop :=
  (∀ i ∈ w.call.targets, i ∉ w.unrespMask) → ∀ i ∈ w.call.targets, w.call.before i < w.flushes i

/-! ## Runs -/

/-- One of `n` agents goes on, or begins something. -/
def Legal (n : Nat) (_ : Config State Access) : Event Access → Prop
  | .run a => a < n
  | .call a accs => a < n ∧ ∀ acc ∈ accs, IsCall acc

/-- The handler has flushed, and not yet read the number to acknowledge. -/
def HasFlushed : Access → Prop
  | .clearPending _ | .loadSeq _ => True
  | _ => False

/-- No number is taken while a handler is between its flush and its reading of `TLB_SEQ`,
the numbers do not wrap around, and no call finds an interrupt already pending. -/
def Apart (n : Nat) (cfg : Config State Access) : Event Access → Prop
  | .run a =>
    match (cfg.todo a).head? with
    | some (.incSeq ..) =>
      (∀ b < n, ∀ acc ∈ cfg.todo b, ¬ HasFlushed acc) ∧ cfg.shared.tlbSeq.toNat + 1 < 2 ^ 64
    | some (.setPending _ i) => cfg.shared.tlbPending i = false
    | _ => True
  | .call _ _ => True

/-! ## The invariant -/

/-- The CPU has flushed after the call took its number. -/
def Call.Flushed (call : Call) (s : State) (cpu : Nat) : Prop := call.before cpu < s.flushes cpu

/-- The call that an access belongs to, once it has its number. -/
def Access.call? : Access → Option Call
  | .loadApic call _ | .loadCr3 call _ | .setPending call _ | .sendIpi call _ | .loadReady call
  | .loadUnresp call _ _ | .loadAck call _ _ | .loadBad call _ _ => some call
  | _ => none

/-- What the rest of a handler vouches for. -/
def HandlerOk (s : State) (call : Call) : Access → Prop
  | .clearPending cpu | .loadSeq cpu => call.Flushed s cpu
  | .storeAck cpu seq => call.seq ≤ seq → call.Flushed s cpu
  | _ => True

/-- What acknowledgements say about a call. -/
structure CallOk (cfg : Config State Access) (call : Call) : Prop where
  seq_le : call.seq ≤ cfg.shared.tlbSeq
  before_le : ∀ cpu, call.before cpu ≤ cfg.shared.flushes cpu
  acked : ∀ cpu, call.seq ≤ cfg.shared.tlbAck cpu → call.Flushed cfg.shared cpu
  handlers : ∀ a, ∀ acc ∈ cfg.todo a, HandlerOk cfg.shared call acc

/-- The mask holds the targets, apart from one CPU that is to be added. -/
def Call.Masked (call : Call) (extra : List Nat) : Prop :=
  (∀ i ∈ call.targets, i ∈ call.mask ∨ i ∈ extra) ∧ (∀ i ∈ call.mask, i < call.max) ∧
    ∀ i ∈ extra, i < call.max

/-- The wait has seen the CPUs below `i` acknowledge. -/
def Call.Seen (call : Call) (s : State) (i : Nat) : Prop :=
  ∀ j < i, j ∈ call.mask → j ∈ s.tlbUnrespMask ∨ call.Flushed s j

/-- What is known at an access. -/
def Progress (s : State) : Access → Prop
  | .loadApic call _ | .loadReady call | .loadBad call _ _ => call.Masked []
  | .loadCr3 call i => call.Masked [] ∧ i < call.max
  | .setPending call i | .sendIpi call i => call.Masked [i]
  | .loadUnresp call _ i | .loadAck call _ i => call.Masked [] ∧ call.Seen s i
  | .storeAck _ seq => seq ≤ s.tlbSeq
  | _ => True

structure Inv (n : Nat) (cfg : Config State Access) : Prop where
  idle : ∀ a, n ≤ a → cfg.todo a = []
  acks : ∀ cpu, cfg.shared.tlbAck cpu ≤ cfg.shared.tlbSeq
  calls : ∀ a, ∀ acc ∈ cfg.todo a, ∀ call ∈ acc.call?, CallOk cfg call
  progress : ∀ a, ∀ acc ∈ cfg.todo a, Progress cfg.shared acc
  ended : ∀ w ∈ cfg.shared.ended, w.Vouches

section Runs

variable {s s' : State} {call : Call} {next : List Access}

/-- Numbers, flushes and unresponsive CPUs only grow. -/
structure Later (s s' : State) : Prop where
  tlbSeq : s.tlbSeq ≤ s'.tlbSeq
  flushes : ∀ cpu, s.flushes cpu ≤ s'.flushes cpu
  unresp : ∀ i ∈ s.tlbUnrespMask, i ∈ s'.tlbUnrespMask

theorem Later.of_eq (hseq : s'.tlbSeq = s.tlbSeq) (hflushes : s'.flushes = s.flushes)
    (hunresp : s'.tlbUnrespMask = s.tlbUnrespMask) : Later s s' :=
  ⟨hseq.ge, fun _ => hflushes.ge _, fun _ => hunresp ▸ id⟩

theorem Later.flushed (h : Later s s') (hf : call.Flushed s cpu) : call.Flushed s' cpu :=
  Nat.lt_of_lt_of_le hf (h.flushes cpu)

theorem Later.handlerOk (h : Later s s') (hok : HandlerOk s call acc) : HandlerOk s' call acc := by
  cases acc with
  | clearPending | loadSeq => exact h.flushed hok
  | storeAck => exact fun hseq => h.flushed (hok hseq)
  | _ => trivial

theorem Later.seen (h : Later s s') (hseen : call.Seen s i) : call.Seen s' i := by
  intro j hj hmem
  rcases hseen j hj hmem with hunresp | hflushed
  · exact .inl (h.unresp j hunresp)
  · exact .inr (h.flushed hflushed)

theorem Later.progress (h : Later s s') (hp : Progress s acc) : Progress s' acc := by
  cases acc with
  | loadUnresp | loadAck => exact ⟨hp.1, h.seen hp.2⟩
  | storeAck => exact le_trans hp h.tlbSeq
  | _ => exact hp

theorem lt_add_one {x : UInt64} (h : x.toNat + 1 < 2 ^ 64) : x < x + 1 := by
  have hone : (1 : UInt64).toNat = 1 := rfl
  rw [UInt64.lt_iff_toNat_lt, UInt64.toNat_add, hone, Nat.mod_eq_of_lt h]
  exact Nat.lt_succ_self _

theorem exec_later (hexec : exec a acc s = some (s', next))
    (hwrap : ∀ selfApic p4 count, acc = .incSeq selfApic p4 count → s.tlbSeq.toNat + 1 < 2 ^ 64) :
    Later s s' := by
  cases acc with
  | incSeq selfApic p4 count =>
    cases hexec
    have hlt := hwrap selfApic p4 count rfl
    exact ⟨(lt_add_one hlt).le, fun _ => Nat.le_refl _, fun _ => id⟩
  | setPending call i =>
    simp only [exec] at hexec
    split at hexec <;> cases hexec <;> exact .of_eq rfl rfl rfl
  | loadUnresp call left i =>
    simp only [exec] at hexec
    split at hexec <;> cases hexec <;> exact .of_eq rfl rfl rfl
  | orUnresp bad =>
    cases hexec
    exact ⟨le_refl _, fun _ => Nat.le_refl _, fun _ => mem_append_left _⟩
  | deliver cpu =>
    simp only [exec] at hexec
    split at hexec <;> cases hexec
    exact .of_eq rfl rfl rfl
  | flush cpu =>
    cases hexec
    refine ⟨le_refl _, fun c => ?_, fun _ => id⟩
    by_cases hc : c = cpu
    · subst hc
      simp
    · simp [hc]
  | setCr3 cpu p4 =>
    cases hexec
    split <;> exact .of_eq rfl rfl rfl
  | _ =>
    cases hexec
    exact .of_eq rfl rfl rfl

/-- Which access follows which. -/
inductive Follows (s : State) : Access → Access → Prop
  | enter {selfApic p4} : Follows s (.enter selfApic p4) (.incSeq selfApic p4 s.cpuCount)
  | incSeq {selfApic p4 count} : Follows s (.incSeq selfApic p4 count)
      (.loadApic ⟨p4, selfApic, count, s.tlbSeq + 1, [], [], s.flushes⟩ 0)
  | self {call i} : Follows s (.loadApic call i) (.loadApic call (i + 1))
  | other {call i} (h : i < call.max) : Follows s (.loadApic call i) (.loadCr3 call i)
  | sent {call i} : Follows s (.loadApic call i) (.loadReady call)
  | skip {call i} : Follows s (.loadCr3 call i) (.loadApic call (i + 1))
  | target {call i} : Follows s (.loadCr3 call i)
      (.setPending { call with targets := call.targets ++ [i] } i)
  | pending {call i} (h : s.tlbPending i = true) : Follows s (.setPending call i) (.loadApic call (i + 1))
  | set {call i} : Follows s (.setPending call i) (.sendIpi call i)
  | send {call i} : Follows s (.sendIpi call i) (.loadApic { call with mask := call.mask ++ [i] } (i + 1))
  | wait {call : Call} : Follows s (.loadReady call) (.loadUnresp call 1000000 0)
  | skipUnresp {call left i} (h : i ∉ call.mask ∨ i ∈ s.tlbUnrespMask) :
      Follows s (.loadUnresp call left i) (.loadUnresp call left (i + 1))
  | look {call left i} : Follows s (.loadUnresp call left i) (.loadAck call left i)
  | acked {call left i} (h : ¬ s.tlbAck i < call.seq) :
      Follows s (.loadAck call left i) (.loadUnresp call left (i + 1))
  | again {call left i} : Follows s (.loadAck call left i) (.loadUnresp call (left - 1) 0)
  | timeout {call left i} : Follows s (.loadAck call left i) (.loadBad call [] 0)
  | bad {call bad bad' i} : Follows s (.loadBad call bad i) (.loadBad call bad' (i + 1))
  | mark {call bad i} : Follows s (.loadBad call bad i) (.orUnresp bad)
  | deliver {cpu} : Follows s (.deliver cpu) (.flush cpu)
  | flush {cpu} : Follows s (.flush cpu) (.clearPending cpu)
  | flushOnly {cpu} : Follows s (.flush cpu) (.iret cpu)
  | clearPending {cpu} : Follows s (.clearPending cpu) (.loadSeq cpu)
  | loadSeq {cpu} : Follows s (.loadSeq cpu) (.storeAck cpu s.tlbSeq)
  | storeAck {cpu seq} : Follows s (.storeAck cpu seq) (.iret cpu)

theorem exec_follows (hexec : exec a acc s = some (s', next)) : ∀ acc' ∈ next, Follows s acc acc' := by
  intro acc' hmem
  cases acc
  all_goals
    simp only [exec] at hexec
    repeat' split at hexec
    all_goals cases hexec
    all_goals first | cases mem_singleton.mp hmem | cases hmem
    all_goals constructor
    all_goals assumption

theorem Call.Masked.push (h : call.Masked [i]) :
    ({ call with mask := call.mask ++ [i] } : Call).Masked [] := by
  obtain ⟨htargets, hmask, hextra⟩ := h
  refine ⟨fun j hj => .inl (mem_append.mpr (htargets j hj)), fun j hj => ?_, nofun⟩
  rcases mem_append.mp hj with hj | hj
  · exact hmask j hj
  · exact hextra j hj

theorem Call.Masked.target (h : call.Masked []) (hi : i < call.max) :
    ({ call with targets := call.targets ++ [i] } : Call).Masked [i] := by
  obtain ⟨htargets, hmask, -⟩ := h
  refine ⟨fun j hj => ?_, hmask, fun j hj => mem_singleton.mp hj ▸ hi⟩
  rcases mem_append.mp hj with hj | hj
  · exact (htargets j hj).imp_right nofun
  · exact .inr hj

theorem Call.Seen.succ (h : call.Seen s i)
    (hi : i ∈ call.mask → i ∈ s.tlbUnrespMask ∨ call.Flushed s i) : call.Seen s (i + 1) := by
  intro j hj hmem
  by_cases hji : j = i
  · subst hji
    exact hi hmem
  · exact h j (by omega) hmem

/-- What is known at an access is known, one further, at the next. -/
theorem Follows.progress (h : Follows s acc acc') (hp : Progress s acc)
    (hacked : ∀ call ∈ acc.call?, ∀ cpu, call.seq ≤ s.tlbAck cpu → call.Flushed s cpu)
    (hpending : ∀ call i, acc = .setPending call i → s.tlbPending i = false) : Progress s acc' := by
  cases h with
  | incSeq => exact ⟨nofun, nofun, nofun⟩
  | other hi => exact ⟨hp, hi⟩
  | skip | timeout => exact hp.1
  | target => exact hp.1.target hp.2
  | pending hset =>
    rw [hpending _ _ rfl] at hset
    cases hset
  | send => exact hp.push
  | wait => exact ⟨hp, nofun⟩
  | skipUnresp hskip =>
    exact ⟨hp.1, hp.2.succ fun hi => .inl (hskip.resolve_left (not_not_intro hi))⟩
  | acked hack => exact ⟨hp.1, hp.2.succ fun _ => .inr (hacked _ rfl _ (not_lt.mp hack))⟩
  | again => exact ⟨hp.1, nofun⟩
  | loadSeq => exact le_refl _
  | self | sent | set | look | bad => exact hp
  | enter | mark | deliver | flush | flushOnly | clearPending | storeAck => trivial

/-- A call keeps its number; a new one has the next number. -/
theorem Follows.sameCall (h : Follows s acc acc') : ∀ call' ∈ acc'.call?,
    (∃ call ∈ acc.call?, call'.seq = call.seq ∧ call'.before = call.before) ∨
      ((∃ selfApic p4 count, acc = .incSeq selfApic p4 count) ∧
        call'.seq = s.tlbSeq + 1 ∧ call'.before = s.flushes) := by
  rintro call' hcall'
  cases h with
  | incSeq =>
    cases hcall'
    exact .inr ⟨⟨_, _, _, rfl⟩, rfl, rfl⟩
  | enter | mark | deliver | flush | flushOnly | clearPending | loadSeq | storeAck => cases hcall'
  | _ =>
    cases hcall'
    exact .inl ⟨_, rfl, rfl, rfl⟩

section

variable (hexec : exec a acc s = some (s', next))

include hexec

/-- A handler vouches for the flush it has made. -/
theorem exec_handler (hok : HandlerOk s call acc) (hbefore : ∀ cpu, call.before cpu ≤ s.flushes cpu) :
    ∀ acc' ∈ next, HandlerOk s' call acc' := by
  intro acc' hmem
  cases exec_follows hexec acc' hmem with
  | flush =>
    cases hexec
    simp only [HandlerOk, Call.Flushed, update_self]
    exact Nat.lt_succ_of_le (hbefore _)
  | clearPending =>
    cases hexec
    exact hok
  | loadSeq =>
    cases hexec
    exact fun _ => hok
  | _ => trivial

theorem exec_ack : s'.tlbAck = s.tlbAck ∨
      ∃ cpu seq, acc = .storeAck cpu seq ∧ s'.tlbAck = update s.tlbAck cpu seq := by
  cases acc with
  | storeAck cpu seq =>
    cases hexec
    exact .inr ⟨cpu, seq, rfl, rfl⟩
  | setPending | loadUnresp | deliver =>
    simp only [exec] at hexec
    split at hexec <;> cases hexec <;> exact .inl rfl
  | setCr3 =>
    cases hexec
    split <;> exact .inl rfl
  | _ =>
    cases hexec
    exact .inl rfl

theorem exec_ended :
    s'.ended = s.ended ∨ ∃ call left i, acc = .loadUnresp call left i ∧ call.max ≤ i ∧
      s'.ended = ⟨call, s.tlbUnrespMask, s.flushes⟩ :: s.ended := by
  cases acc with
  | loadUnresp call left i =>
    simp only [exec] at hexec
    split at hexec <;> cases hexec
    · exact .inl rfl
    · next hi => exact .inr ⟨call, left, i, rfl, by omega, rfl⟩
  | setPending | deliver =>
    simp only [exec] at hexec
    split at hexec <;> cases hexec <;> exact .inl rfl
  | setCr3 =>
    cases hexec
    split <;> exact .inl rfl
  | _ =>
    cases hexec
    exact .inl rfl

end

/-- The call that takes a number finds no acknowledgement and no handler that knows it. -/
theorem Inv.callOk_new (h : Inv n cfg) (hflushed : ∀ b < n, ∀ acc ∈ cfg.todo b, ¬ HasFlushed acc)
    (hseq : cfg.shared.tlbSeq < call.seq) :
    (∀ cpu, call.seq ≤ cfg.shared.tlbAck cpu → call.Flushed cfg.shared cpu) ∧
      ∀ b, ∀ acc ∈ cfg.todo b, HandlerOk cfg.shared call acc := by
  refine ⟨fun cpu hack => (not_le_of_gt hseq (hack.trans (h.acks cpu))).elim, fun b acc hacc => ?_⟩
  have hb : b < n := by
    by_contra hb
    rw [h.idle b (by omega)] at hacc
    cases hacc
  cases acc with
  | clearPending | loadSeq => exact (hflushed b hb _ hacc trivial).elim
  | storeAck cpu seq =>
    have hstored : seq ≤ cfg.shared.tlbSeq := h.progress b _ hacc
    exact fun hle => (not_le_of_gt hseq (hle.trans hstored)).elim
  | _ => trivial

/-- A call is served as before after a step. -/
theorem CallOk.step (hok : CallOk cfg call) (hlater : Later cfg.shared s')
    (htodo : cfg.todo a = acc :: rest) (hexec : exec a acc cfg.shared = some (s', next)) :
    CallOk ⟨s', update cfg.todo a (next ++ rest)⟩ call := by
  have hhead : acc ∈ cfg.todo a := htodo ▸ mem_cons_self
  refine ⟨hok.seq_le.trans hlater.tlbSeq, fun cpu => (hok.before_le cpu).trans (hlater.flushes cpu),
    fun cpu hack => ?_, ?_⟩
  · rcases exec_ack hexec with heq | ⟨c, seq, rfl, heq⟩
    · simp only [heq] at hack
      exact hlater.flushed (hok.acked cpu hack)
    · simp only [heq] at hack
      by_cases hc : cpu = c
      · subst hc
        rw [update_self] at hack
        exact hlater.flushed (hok.handlers a _ hhead hack)
      · rw [update_of_ne hc] at hack
        exact hlater.flushed (hok.acked cpu hack)
  · refine forall_todo_update (fun b acc' hacc' => hlater.handlerOk (hok.handlers b acc' hacc')) ?_
    intro acc' hacc'
    rcases mem_append.mp hacc' with hacc' | hacc'
    · exact exec_handler hexec (hok.handlers a acc hhead) hok.before_le acc' hacc'
    · exact hlater.handlerOk (hok.handlers a acc' (htodo ▸ mem_cons_of_mem _ hacc'))

theorem CallOk.congr (hok : CallOk cfg call) (hseq : call'.seq = call.seq)
    (hbefore : call'.before = call.before) : CallOk cfg call' := by
  refine ⟨hseq ▸ hok.seq_le, hbefore ▸ hok.before_le, fun cpu hack => ?_, fun b acc hacc => ?_⟩
  · have := hok.acked cpu (hseq ▸ hack)
    simpa only [Call.Flushed, hbefore] using this
  · have := hok.handlers b acc hacc
    cases acc with
    | clearPending | loadSeq => simpa only [HandlerOk, Call.Flushed, hbefore] using this
    | storeAck => simpa only [HandlerOk, Call.Flushed, hbefore, hseq] using this
    | _ => trivial

/-- An access keeps the invariant. -/
theorem Inv.run (h : Inv n cfg) (ha : a < n) (hapart : Apart n cfg (.run a))
    (htodo : cfg.todo a = acc :: rest) (hexec : exec a acc cfg.shared = some (s', next)) :
    Inv n ⟨s', update cfg.todo a (next ++ rest)⟩ := by
  have hhead : acc ∈ cfg.todo a := htodo ▸ mem_cons_self
  have hmem : ∀ {acc'}, acc' ∈ rest → acc' ∈ cfg.todo a := fun hacc' =>
    htodo ▸ mem_cons_of_mem _ hacc'
  have hlater : Later cfg.shared s' := exec_later hexec fun selfApic p4 count heq => by
    simp only [Apart, htodo, heq, head?_cons] at hapart
    exact hapart.2
  have hcalls : ∀ b, ∀ acc' ∈ cfg.todo b, ∀ call ∈ acc'.call?,
      CallOk ⟨s', update cfg.todo a (next ++ rest)⟩ call := fun b acc' hacc' call hcall =>
    (h.calls b acc' hacc' call hcall).step hlater htodo hexec
  refine ⟨fun b hb => ?_, fun cpu => ?_, ?_, ?_, fun w hw => ?_⟩
  · simp only [update_of_ne (show b ≠ a by omega)]
    exact h.idle b hb
  · rcases exec_ack hexec with heq | ⟨c, seq, rfl, heq⟩
    · simp only [heq]
      exact (h.acks cpu).trans hlater.tlbSeq
    · have hseq : seq ≤ cfg.shared.tlbSeq := h.progress a _ hhead
      simp only [heq]
      by_cases hc : cpu = c
      · subst hc
        rw [update_self]
        exact hseq.trans hlater.tlbSeq
      · rw [update_of_ne hc]
        exact (h.acks cpu).trans hlater.tlbSeq
  · refine forall_todo_update hcalls fun acc' hacc' => ?_
    rcases mem_append.mp hacc' with hacc' | hacc'
    · intro call' hcall'
      rcases (exec_follows hexec acc' hacc').sameCall call' hcall' with
        ⟨call, hcall, hseq, hbefore⟩ | ⟨⟨selfApic, p4, count, rfl⟩, hseq, hbefore⟩
      · exact (hcalls a acc hhead call hcall).congr hseq hbefore
      · simp only [Apart, htodo, head?_cons] at hapart
        have hlt : cfg.shared.tlbSeq < call'.seq := hseq ▸ lt_add_one hapart.2
        obtain ⟨hacked, hhandlers⟩ := h.callOk_new hapart.1 hlt
        cases hexec
        refine ⟨hseq.le, fun _ => by simp only [hbefore, Nat.le_refl], hacked, ?_⟩
        refine forall_todo_update (fun b acc1 hacc1 => hlater.handlerOk (hhandlers b acc1 hacc1)) ?_
        intro acc1 hacc1
        rcases mem_append.mp hacc1 with hacc1 | hacc1
        · cases mem_singleton.mp hacc1
          trivial
        · exact hlater.handlerOk (hhandlers a acc1 (hmem hacc1))
    · exact hcalls a acc' (hmem hacc')
  · refine forall_todo_update (fun b acc' hacc' => hlater.progress (h.progress b acc' hacc')) ?_
    intro acc' hacc'
    rcases mem_append.mp hacc' with hacc' | hacc'
    · refine hlater.progress ((exec_follows hexec acc' hacc').progress (h.progress a acc hhead)
        (fun call hcall => (h.calls a acc hhead call hcall).acked) fun call i heq => ?_)
      simp only [Apart, htodo, heq, head?_cons] at hapart
      exact hapart
    · exact hlater.progress (h.progress a acc' (hmem hacc'))
  · rcases exec_ended hexec with heq | ⟨call, left, i, rfl, hi, heq⟩
    · exact h.ended w (heq ▸ hw)
    · simp only [heq, mem_cons] at hw
      rcases hw with rfl | hw
      · obtain ⟨⟨htargets, hmask, -⟩, hseen⟩ := h.progress a _ hhead
        intro hresp j hj
        have hj' : j ∈ call.mask := (htargets j hj).resolve_right nofun
        exact (hseen j ((hmask j hj').trans_le hi) hj').resolve_left (hresp j hj)
      · exact h.ended w hw

theorem Inv.step (h : Inv n cfg) (hlegal : Legal n cfg ev) (hapart : Apart n cfg ev)
    (hstep : cfg.step exec ev = some cfg') : Inv n cfg' := by
  obtain ⟨a, acc, rest, s', next, rfl, htodo, hexec, rfl⟩ | ⟨a, accs, rfl, rfl⟩ :=
    Config.step_cases hstep
  · exact h.run hlegal hapart htodo hexec
  · obtain ⟨ha, hcall⟩ := hlegal
    have hnew : ∀ acc ∈ accs ++ cfg.todo a, acc ∈ cfg.todo a ∨ IsCall acc := by
      intro acc hacc
      rcases mem_append.mp hacc with hacc | hacc
      · exact .inr (hcall acc hacc)
      · exact .inl hacc
    have hquiet : ∀ {acc}, IsCall acc → acc.call? = none ∧ (∀ call, HandlerOk cfg.shared call acc) ∧
        Progress cfg.shared acc := by
      intro acc hacc
      cases acc <;> first | exact hacc.elim | exact ⟨rfl, fun _ => trivial, trivial⟩
    refine ⟨fun b hb => ?_, h.acks, ?_, ?_, h.ended⟩
    · simp only [update_of_ne (show b ≠ a by omega)]
      exact h.idle b hb
    · have hcalls : ∀ b, ∀ acc ∈ cfg.todo b, ∀ call ∈ acc.call?,
          CallOk ⟨cfg.shared, update cfg.todo a (accs ++ cfg.todo a)⟩ call := by
        intro b acc hacc call hcall
        obtain ⟨hseq, hbefore, hacked, hhandlers⟩ := h.calls b acc hacc call hcall
        refine ⟨hseq, hbefore, hacked, forall_todo_update hhandlers fun acc' hacc' => ?_⟩
        rcases hnew acc' hacc' with hacc' | hacc'
        · exact hhandlers a acc' hacc'
        · exact (hquiet hacc').2.1 call
      refine forall_todo_update hcalls fun acc hacc call hcall => ?_
      rcases hnew acc hacc with hacc | hacc
      · exact hcalls a acc hacc call hcall
      · rw [(hquiet hacc).1] at hcall
        cases hcall
    · refine forall_todo_update h.progress fun acc hacc => ?_
      rcases hnew acc hacc with hacc | hacc
      · exact h.progress a acc hacc
      · exact (hquiet hacc).2.2

theorem Inv.boot (n cpuCount : Nat) (apicIds currentCr3 : Nat → UInt64) (ready : Bool) :
    Inv n ⟨boot cpuCount apicIds currentCr3 ready, fun _ => []⟩ :=
  ⟨fun _ _ => rfl, fun _ => le_refl _, nofun, nofun, nofun⟩

end Runs

/-- In every run in which no call takes a number while a handler is between its flush and
its reading of `TLB_SEQ`, numbers do not wrap around and no call finds an interrupt already
pending, a wait that ends without timeout vouches for a flush of every target. -/
theorem vouches_of_apart (n cpuCount : Nat) (apicIds currentCr3 : Nat → UInt64) (ready : Bool)
    (cfg : Config State Access)
    (h : Reach exec (fun cfg ev => Legal n cfg ev ∧ Apart n cfg ev)
      ⟨boot cpuCount apicIds currentCr3 ready, fun _ => []⟩ cfg) :
    ∀ w ∈ cfg.shared.ended, w.Vouches := by
  have hinv : Inv n cfg := by
    refine h.invariant (.boot n cpuCount apicIds currentCr3 ready) fun hinv hok hstep => ?_
    exact hinv.step hok.1 hok.2 hstep
  exact hinv.ended

instance : DecidablePred IsCall := fun acc => by
  cases acc <;> unfold IsCall <;> infer_instance

instance : DecidablePred HasFlushed := fun acc => by
  cases acc <;> unfold HasFlushed <;> infer_instance

instance (n : Nat) (cfg : Config State Access) (ev : Event Access) : Decidable (Legal n cfg ev) := by
  cases ev <;> unfold Legal <;> infer_instance

instance (n : Nat) (cfg : Config State Access) (ev : Event Access) : Decidable (Apart n cfg ev) := by
  unfold Apart
  split
  · split <;> infer_instance
  · infer_instance

/-- Three CPUs, of which CPU 1 uses the address space at `0x1000`. -/
def threeCpus : Config State Access :=
  ⟨boot 3 UInt64.ofNat (fun i => if i = 1 then 0x1000 else 0) true, fun _ => []⟩

/-- An agent begins something and makes `k` accesses. -/
def begin (a : Nat) (acc : Access) (k : Nat) : List (Event Access) :=
  .call a [acc] :: List.replicate k (.run a)

/-- A call of CPU 0 sends the interrupt, CPU 1 handles it, and the wait ends. -/
theorem vouches_oneCall :
    ∃ cfg, Reach exec (fun cfg ev => Legal 2 cfg ev ∧ Apart 2 cfg ev) threeCpus cfg ∧
      (∃ w ∈ cfg.shared.ended, w.call.targets = [1] ∧ w.unrespMask = []) ∧
      ∀ w ∈ cfg.shared.ended, w.Vouches := by
  obtain ⟨cfg, hreach, hended⟩ := Reach.exists_runAll exec
    (fun cfg ev => Legal 2 cfg ev ∧ Apart 2 cfg ev) threeCpus
    (P := fun cfg => ∃ w ∈ cfg.shared.ended, w.call.targets = [1] ∧ w.unrespMask = [])
    (begin 0 (.enter 0 0x1000) 11 ++ begin 1 (.deliver 1) 6 ++ List.replicate 5 (.run 0))
    (by decide +kernel)
  exact ⟨cfg, hreach, hended,
    vouches_of_apart 2 3 UInt64.ofNat (fun i => if i = 1 then 0x1000 else 0) true cfg hreach⟩

/-- A call of CPU 2 takes its number after CPU 1 has flushed for the call of CPU 0; the
handler acknowledges the new number, and the wait of CPU 2 ends without another flush. -/
theorem acked_without_flush :
    ∃ cfg, Reach exec (Legal 3) threeCpus cfg ∧ ∃ w ∈ cfg.shared.ended, w.call.targets = [1] ∧
      w.unrespMask = [] ∧ w.flushes 1 = w.call.before 1 ∧ ¬ w.Vouches := by
  obtain ⟨cfg, hreach, w, hw, htargets, hunresp, hflushes⟩ := Reach.exists_runAll exec
    (Legal 3) threeCpus
    (P := fun cfg => ∃ w ∈ cfg.shared.ended, w.call.targets = [1] ∧ w.unrespMask = [] ∧
      w.flushes 1 = w.call.before 1)
    (begin 0 (.enter 0 0x1000) 7 ++ begin 1 (.deliver 1) 2 ++ begin 2 (.enter 2 0x1000) 2 ++
      [.run 1] ++ List.replicate 9 (.run 2) ++ [.run 1, .run 1] ++ List.replicate 5 (.run 2))
    (by decide +kernel)
  refine ⟨cfg, hreach, w, hw, htargets, hunresp, hflushes, fun h => ?_⟩
  have hlt := h (by simp [hunresp]) 1 (by simp [htargets])
  omega

end Shootdown

end BoruixKernel
