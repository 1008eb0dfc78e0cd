import BoruixKernel.Lib.Interleaving

/-!
# Deferred shootdowns

`tlb_shootdown_request` puts an address space into a slot of three words, and
`tlb_deferred_poll` sends the shootdown when its time has come and clears the slot.  Both
are cut into their accesses to shared memory, and of `send_tlb_shootdown_target` only its
start is recorded.

A call reads the slot and later writes it.  If nothing else touches the slot in between, a
request is kept: what a call is about to overwrite or to clear has been sent.  But nothing
protects the slot, so that the poll may clear a request that came after its reading.
-/

namespace BoruixKernel

open Interleaving Function List

namespace DeferredShootdown

def TLB_DEFER_TICKS : UInt64 := 2

/-- A request, with the number of shootdowns that had been started when it began. -/
structure Request where
  p4 : UInt64
  start : Nat
deriving DecidableEq

/-- The shared variables; the last two fields record what has happened. -/
structure State where
  cpuCount : Nat
  /-- `LAPIC_TICKS[0]`. -/
  lapicTicks : UInt64
  deferredCr3 : UInt64
  deferredDeadline : UInt64
  deferredPending : UInt64
  /-- The shootdowns that have been started, in order. -/
  sends : List UInt64
  /-- The requests that have returned, on a machine with several CPUs. -/
  returned : List Request

/-- The accesses, with what the code around them carries in local variables. -/
inductive Access where
  /-- `tlb_shootdown_request`: the number of CPUs. -/
  | enter (p4 : UInt64)
  | loadTicks (r : Request)
  | loadPending (r : Request) (now : UInt64)
  | loadCr3 (r : Request) (now : UInt64)
  | loadDeadline (r : Request) (now pending : UInt64)
  /-- `send_tlb_shootdown_target` starts. -/
  | send (p4 : UInt64)
  | storeCr3 (r : Request) (now : UInt64)
  | storeDeadline (r : Request) (now : UInt64)
  | storePending (r : Request)
  /-- `tlb_deferred_poll`. -/
  | poll
  | pollTicks
  | pollDeadline (now : UInt64)
  | pollCr3
  | clearPending
  /-- The timer of CPU 0. -/
  | tick
deriving DecidableEq

/-- What an access does, and which ones follow. -/
def exec : Exec State Access := fun _ acc s =>
  match acc with
  | .enter p4 => some (s, if s.cpuCount ≤ 1 then [] else [.loadTicks ⟨p4, s.sends.length⟩])
  | .loadTicks r => some (s, [.loadPending r s.lapicTicks])
  | .loadPending r now =>
    some (s, if s.deferredPending ≠ 0 then [.loadCr3 r now] else [.storeCr3 r now])
  | .loadCr3 r now => some (s, [.loadDeadline r now s.deferredCr3])
  | .loadDeadline r now pending =>
    if pending = r.p4 ∧ now < s.deferredDeadline then
      some ({ s with returned := r :: s.returned }, [])
    else some (s, if pending ≠ 0 then [.send pending, .storeCr3 r now] else [.storeCr3 r now])
  | .send p4 => some ({ s with sends := s.sends ++ [p4] }, [])
  | .storeCr3 r now => some ({ s with deferredCr3 := r.p4 }, [.storeDeadline r now])
  | .storeDeadline r now =>
    some ({ s with deferredDeadline := now + TLB_DEFER_TICKS }, [.storePending r])
  | .storePending r => some ({ s with deferredPending := 1, returned := r :: s.returned }, [])
  | .poll => some (s, if s.deferredPending = 0 then [] else [.pollTicks])
  | .pollTicks => some (s, [.pollDeadline s.lapicTicks])
  | .pollDeadline now => some (s, if now < s.deferredDeadline then [] else [.pollCr3])
  | .pollCr3 =>
    let p4 := s.deferredCr3
    some (s, if p4 = 0 then [.clearPending] else [.send p4, .clearPending])
  | .clearPending => some ({ s with deferredPending := 0 }, [])
  | .tick => some ({ s with lapicTicks := s.lapicTicks + 1 }, [])

/-- What an agent may begin. -/
def IsCall : Access → Prop
  | .enter _ | .poll | .tick => True
  | _ => False

/-- The start: the slot is empty. -/
def boot (cpuCount : Nat) (lapicTicks : UInt64) : State where
  cpuCount
  lapicTicks
  deferredCr3 := 0
  deferredDeadline := 0
  deferredPending := 0
  sends := []
  returned := []

/-- The shootdown was started after the request began. -/
def Sent (s : State) (r : Request) : Prop := r.p4 ∈ s.sends.drop r.start

/-- A request is not lost: its shootdown was started, or the slot still holds it. -/
def Kept (s : State) (r : Request) : Prop :=
  r.p4 ≠ 0 → Sent s r ∨ (s.deferredCr3 = r.p4 ∧ s.deferredPending = 1)

/-! ## Runs -/

/-- One of `n` agents goes on, or begins something. -/
def Legal (n : Nat) (_ : Config State Access) : Event Access → Prop
  | .run a => a < n
  | .call a accs => a < n ∧ ∀ acc ∈ accs, IsCall acc

/-- Accesses of a call that has read the slot and is not over. -/
def InSlot : Access → Bool
  | .enter _ | .loadTicks _ | .loadPending .. | .poll | .tick => false
  | _ => true

/-- A call reads the slot for the first time only while no other call is between its first
reading of the slot and its end. -/
def Serial (n : Nat) (cfg : Config State Access) : Event Access → Prop
  | .run a =>
    match cfg.todo a with
    | .loadPending .. :: rest | .poll :: rest =>
      (∀ acc ∈ rest, InSlot acc = false) ∧
        ∀ b < n, b ≠ a → ∀ acc ∈ cfg.todo b, InSlot acc = false
    | _ => True
  | .call _ _ => True

/-! ## The invariant -/

/-- Every request that has returned has been sent. -/
def AllSent (s : State) : Prop := ∀ r ∈ s.returned, r.p4 ≠ 0 → Sent s r

/-- What is known in the course of a call that has read the slot. -/
def WindowOk (s : State) : List Access → Prop
  | [] | [.pollTicks] | [.pollDeadline _] | [.pollCr3] => True
  | [.loadCr3 _ _] => s.deferredPending = 1
  | [.loadDeadline _ _ pending] => pending = s.deferredCr3 ∧ s.deferredPending = 1
  | [.send p4, .storeCr3 _ _] | [.send p4, .clearPending] => p4 = s.deferredCr3
  | [.storeCr3 _ _] | [.clearPending] => AllSent s
  | [.storeDeadline r _] | [.storePending r] => AllSent s ∧ s.deferredCr3 = r.p4
  | _ => False

/-- The request an access belongs to. -/
def Access.request? : Access → Option Request
  | .loadTicks r | .loadPending r _ | .loadCr3 r _ | .loadDeadline r _ _ | .storeCr3 r _
  | .storeDeadline r _ | .storePending r => some r
  | _ => none

/-- What holds of the slot and of the requests that have returned. -/
structure SlotOk (s : State) : Prop where
  flag : s.deferredPending = 0 ∨ s.deferredPending = 1
  started : ∀ r ∈ s.returned, r.start ≤ s.sends.length
  kept : ∀ r ∈ s.returned, Kept s r

/-- The requests are kept, and one call at most has read the slot and is not over. -/
structure Inv (n : Nat) (cfg : Config State Access) : Prop where
  idle : ∀ a, n ≤ a → cfg.todo a = []
  starting : ∀ a, ∀ acc ∈ cfg.todo a, ∀ r ∈ acc.request?, r.start ≤ cfg.shared.sends.length
  slot : SlotOk cfg.shared
  window : ∃ a, (∀ b, b ≠ a → (cfg.todo b).filter InSlot = []) ∧
    WindowOk cfg.shared ((cfg.todo a).filter InSlot)

section Runs

variable {s s' : State} {acc : Access} {rest next window : List Access}

/-- A shootdown of what the slot holds, and what its call does next. -/
theorem WindowOk.of_send (h : WindowOk s (.send p4 :: window)) :
    p4 = s.deferredCr3 ∧ ((∃ r now, window = [.storeCr3 r now]) ∨ window = [.clearPending]) := by
  cases window with
  | nil => exact h.elim
  | cons acc rest =>
    cases rest with
    | cons => cases acc <;> exact h.elim
    | nil =>
      cases acc with
      | storeCr3 r now => exact ⟨h, .inl ⟨r, now, rfl⟩⟩
      | clearPending => exact ⟨h, .inr rfl⟩
      | _ => exact h.elim

theorem Sent.push (h : Sent s r) (hstart : r.start ≤ s.sends.length) (p4 : UInt64) :
    Sent { s with sends := s.sends ++ [p4] } r := by
  unfold Sent at *
  rw [drop_append_of_le_length hstart]
  exact mem_append_left _ h

/-- What the slot holds has been sent once the shootdown of the slot is started. -/
theorem allSent_send (hstarted : ∀ r ∈ s.returned, r.start ≤ s.sends.length)
    (hkept : ∀ r ∈ s.returned, Kept s r) :
    AllSent { s with sends := s.sends ++ [s.deferredCr3] } := by
  intro r hr hp4
  rcases hkept r hr hp4 with hsent | ⟨hslot, -⟩
  · exact hsent.push (hstarted r hr) _
  · unfold Sent
    rw [drop_append_of_le_length (hstarted r hr), hslot]
    exact mem_append_right _ mem_cons_self

/-- Without a pending flag, or with nothing in the slot, everything has been sent. -/
theorem allSent_of_empty (hkept : ∀ r ∈ s.returned, Kept s r)
    (hempty : s.deferredPending = 0 ∨ s.deferredCr3 = 0) : AllSent s := by
  intro r hr hp4
  rcases hkept r hr hp4 with hsent | ⟨hslot, hpending⟩
  · exact hsent
  · rcases hempty with h | h
    · rw [h] at hpending
      cases hpending
    · exact (hp4 (hslot.symm.trans h)).elim

theorem AllSent.kept (h : AllSent s) : ∀ r ∈ s.returned, Kept s r :=
  fun r hr hp4 => .inl (h r hr hp4)

section

variable (hexec : exec a acc s = some (s', next))

include hexec

/-- An access of the call that has read the slot. -/
theorem exec_window (hslot : InSlot acc = true) (h : SlotOk s)
    (hstart : ∀ r ∈ acc.request?, r.start ≤ s.sends.length) (hwindow : WindowOk s (acc :: window)) :
    SlotOk s' ∧ WindowOk s' (next ++ window) := by
  obtain ⟨hflag, hstarted, hkept⟩ := h
  cases acc with
  | loadCr3 r now =>
    cases hexec
    cases window with
    | nil => exact ⟨⟨hflag, hstarted, hkept⟩, rfl, hwindow⟩
    | cons => exact hwindow.elim
  | loadDeadline r now pending =>
    cases window with
    | cons => exact hwindow.elim
    | nil =>
      obtain ⟨rfl, hpending⟩ := hwindow
      simp only [exec] at hexec
      split at hexec
      · next hsame =>
        cases hexec
        refine ⟨⟨hflag, ?_, ?_⟩, trivial⟩
        · exact forall_mem_cons.mpr ⟨hstart r rfl, hstarted⟩
        · exact forall_mem_cons.mpr ⟨fun _ => .inr ⟨hsame.1, hpending⟩, hkept⟩
      · cases hexec
        refine ⟨⟨hflag, hstarted, hkept⟩, ?_⟩
        split
        · rfl
        · next hzero => exact allSent_of_empty hkept (.inr (not_not.mp hzero))
  | send p4 =>
    cases hexec
    obtain ⟨rfl, hnext⟩ := hwindow.of_send
    have hall := allSent_send hstarted hkept
    refine ⟨⟨hflag, fun r hr => ?_, hall.kept⟩, ?_⟩
    · exact (hstarted r hr).trans (by simp)
    · rcases hnext with ⟨r, now, rfl⟩ | rfl
      · exact hall
      · exact hall
  | storeCr3 r now =>
    cases hexec
    cases window with
    | nil => exact ⟨⟨hflag, hstarted, AllSent.kept hwindow⟩, hwindow, rfl⟩
    | cons => exact hwindow.elim
  | storeDeadline r now =>
    cases hexec
    cases window with
    | nil => exact ⟨⟨hflag, hstarted, hwindow.1.kept⟩, hwindow⟩
    | cons => exact hwindow.elim
  | storePending r =>
    cases hexec
    cases window with
    | nil =>
      refine ⟨⟨.inr rfl, ?_, ?_⟩, trivial⟩
      · exact forall_mem_cons.mpr ⟨hstart r rfl, hstarted⟩
      · exact forall_mem_cons.mpr ⟨fun _ => .inr ⟨hwindow.2, rfl⟩,
          fun r' hr' hp4 => .inl (hwindow.1 r' hr' hp4)⟩
    | cons => exact hwindow.elim
  | pollTicks =>
    cases hexec
    cases window with
    | nil => exact ⟨⟨hflag, hstarted, hkept⟩, trivial⟩
    | cons => exact hwindow.elim
  | pollDeadline now =>
    cases hexec
    cases window with
    | nil =>
      refine ⟨⟨hflag, hstarted, hkept⟩, ?_⟩
      split <;> trivial
    | cons => exact hwindow.elim
  | pollCr3 =>
    cases hexec
    cases window with
    | nil =>
      refine ⟨⟨hflag, hstarted, hkept⟩, ?_⟩
      split
      · next hzero => exact allSent_of_empty hkept (.inr hzero)
      · rfl
    | cons => exact hwindow.elim
  | clearPending =>
    cases hexec
    cases window with
    | nil => exact ⟨⟨.inl rfl, hstarted, AllSent.kept hwindow⟩, trivial⟩
    | cons => exact hwindow.elim
  | enter | loadTicks | loadPending | poll | tick => cases hslot

/-- The accesses of a call that has read the slot are followed by such accesses. -/
theorem exec_inSlot (hslot : InSlot acc = true) : next.filter InSlot = next := by
  cases acc with
  | loadDeadline r now pending =>
    simp only [exec] at hexec
    split at hexec <;> cases hexec
    · rfl
    · split <;> rfl
  | pollDeadline now | pollCr3 =>
    cases hexec
    split <;> rfl
  | enter | loadTicks | loadPending | poll | tick => cases hslot
  | _ =>
    cases hexec
    rfl

theorem exec_sends : s.sends.length ≤ s'.sends.length := by
  cases acc with
  | send p4 =>
    cases hexec
    simp
  | loadDeadline r now pending =>
    simp only [exec] at hexec
    split at hexec <;> cases hexec <;> exact Nat.le_refl _
  | _ =>
    cases hexec
    exact Nat.le_refl _

/-- A call goes on with the request it began with. -/
theorem exec_request (hstart : ∀ r ∈ acc.request?, r.start ≤ s.sends.length) :
    ∀ acc' ∈ next, ∀ r ∈ acc'.request?, r.start ≤ s.sends.length := by
  intro acc' hacc' r hr
  cases acc with
  | enter p4 =>
    cases hexec
    split at hacc'
    · cases hacc'
    · cases mem_singleton.mp hacc'
      cases hr
      exact Nat.le_refl _
  | loadDeadline r' now pending =>
    simp only [exec] at hexec
    split at hexec <;> cases hexec
    · cases hacc'
    · split at hacc'
      · simp only [mem_cons, not_mem_nil, or_false] at hacc'
        rcases hacc' with rfl | rfl <;> cases hr
        exact hstart _ rfl
      · cases mem_singleton.mp hacc'
        cases hr
        exact hstart _ rfl
  | loadPending r' now =>
    cases hexec
    split at hacc' <;> cases mem_singleton.mp hacc' <;> cases hr <;> exact hstart _ rfl
  | poll =>
    cases hexec
    split at hacc'
    · cases hacc'
    · cases mem_singleton.mp hacc'
      cases hr
  | pollDeadline now =>
    cases hexec
    split at hacc'
    · cases hacc'
    · cases mem_singleton.mp hacc'
      cases hr
  | pollCr3 =>
    cases hexec
    split at hacc'
    · cases mem_singleton.mp hacc'
      cases hr
    · simp only [mem_cons, not_mem_nil, or_false] at hacc'
      rcases hacc' with rfl | rfl <;> cases hr
  | loadTicks | loadCr3 | storeCr3 | storeDeadline =>
    cases hexec
    cases mem_singleton.mp hacc'
    cases hr
    exact hstart _ rfl
  | pollTicks =>
    cases hexec
    cases mem_singleton.mp hacc'
    cases hr
  | send | storePending | clearPending | tick =>
    cases hexec
    cases hacc'

/-- Other accesses leave the slot as it is. -/
theorem exec_outside (hslot : InSlot acc = false) (h : SlotOk s) :
    SlotOk s' ∧ ∀ {w}, WindowOk s w → WindowOk s' w := by
  cases acc with
  | enter | loadTicks | loadPending | poll =>
    cases hexec
    exact ⟨h, id⟩
  | tick =>
    cases hexec
    exact ⟨⟨h.flag, h.started, h.kept⟩, id⟩
  | _ => cases hslot

/-- The first reading of the slot. -/
theorem exec_opens (hslot : InSlot acc = false) (h : SlotOk s) : WindowOk s' (next.filter InSlot) := by
  cases acc with
  | loadPending r now =>
    cases hexec
    split
    · next hpending => exact h.flag.resolve_left hpending
    · next hpending => exact allSent_of_empty h.kept (.inl (not_not.mp hpending))
  | enter | poll =>
    cases hexec
    split <;> trivial
  | loadTicks | tick =>
    cases hexec
    trivial
  | _ => cases hslot

/-- Only a first reading of the slot is followed by accesses of the slot. -/
theorem exec_stays_outside (hslot : InSlot acc = false) (hpending : ∀ r now, acc ≠ .loadPending r now)
    (hpoll : acc ≠ .poll) : next.filter InSlot = [] := by
  cases acc with
  | loadPending r now => exact (hpending r now rfl).elim
  | poll => exact (hpoll rfl).elim
  | enter =>
    cases hexec
    split <;> rfl
  | loadTicks | tick =>
    cases hexec
    rfl
  | _ => cases hslot

end

/-- An access keeps the invariant. -/
theorem Inv.run (h : Inv n cfg) (ha : a < n) (hserial : Serial n cfg (.run a))
    (htodo : cfg.todo a = acc :: rest) (hexec : exec a acc cfg.shared = some (s', next)) :
    Inv n ⟨s', update cfg.todo a (next ++ rest)⟩ := by
  have hstart := h.starting a acc (htodo ▸ mem_cons_self)
  have hstarting : ∀ b, ∀ acc' ∈ cfg.todo b, ∀ r ∈ acc'.request?, r.start ≤ s'.sends.length :=
    fun b acc' hacc' r hr => (h.starting b acc' hacc' r hr).trans (exec_sends hexec)
  obtain ⟨o, hother, hwindow⟩ := h.window
  have hmoved : SlotOk s' ∧ ∃ o, (∀ b, b ≠ o →
      (update cfg.todo a (next ++ rest) b).filter InSlot = []) ∧
      WindowOk s' ((update cfg.todo a (next ++ rest) o).filter InSlot) := by
    cases hslot : InSlot acc with
    | true =>
      -- Only the owner of the window has such an access.
      have ho : a = o := by
        by_contra hne
        have := hother a hne
        rw [htodo, filter_cons_of_pos hslot] at this
        cases this
      subst ho
      rw [htodo, filter_cons_of_pos hslot] at hwindow
      obtain ⟨hok, hnext⟩ := exec_window hexec hslot h.slot hstart hwindow
      refine ⟨hok, a, fun b hb => ?_, ?_⟩
      · rw [update_of_ne hb]
        exact hother b hb
      · rwa [update_self, filter_append, exec_inSlot hexec hslot]
    | false =>
      obtain ⟨hok, hkeep⟩ := exec_outside hexec hslot h.slot
      refine ⟨hok, ?_⟩
      by_cases hopens : (∃ r now, acc = .loadPending r now) ∨ acc = .poll
      · -- No other call is in a window, and this one opens one.
        have hrest : rest.filter InSlot = [] ∧
            ∀ b, b ≠ a → (cfg.todo b).filter InSlot = [] := by
          have hempty : (∀ acc ∈ rest, InSlot acc = false) ∧
              ∀ b < n, b ≠ a → ∀ acc ∈ cfg.todo b, InSlot acc = false := by
            simp only [Serial, htodo] at hserial
            rcases hopens with ⟨r, now, rfl⟩ | rfl <;> exact hserial
          refine ⟨filter_eq_nil_iff.mpr fun acc' hacc' => ?_, fun b hb => ?_⟩
          · simp [hempty.1 acc' hacc']
          · refine filter_eq_nil_iff.mpr fun acc' hacc' => ?_
            by_cases hbn : b < n
            · simp [hempty.2 b hbn hb acc' hacc']
            · rw [h.idle b (by omega)] at hacc'
              cases hacc'
        refine ⟨a, fun b hb => ?_, ?_⟩
        · rw [update_of_ne hb]
          exact hrest.2 b hb
        · rw [update_self, filter_append, hrest.1, append_nil]
          exact exec_opens hexec hslot h.slot
      · rw [not_or] at hopens
        have hnext := exec_stays_outside hexec hslot
          (fun r now heq => hopens.1 ⟨r, now, heq⟩) hopens.2
        have hsame : ∀ b, (update cfg.todo a (next ++ rest) b).filter InSlot =
            (cfg.todo b).filter InSlot := by
          intro b
          by_cases hb : b = a
          · subst hb
            rw [update_self, filter_append, hnext, htodo, filter_cons, hslot]
            rfl
          · rw [update_of_ne hb]
        exact ⟨o, fun b hb => (hsame b).trans (hother b hb), hsame o ▸ hkeep hwindow⟩
  refine ⟨fun b hb => ?_, ?_, hmoved.1, hmoved.2⟩
  · simp only [update_of_ne (show b ≠ a by omega)]
    exact h.idle b hb
  · refine forall_todo_update hstarting fun acc' hacc' r hr => ?_
    rcases mem_append.mp hacc' with hacc' | hacc'
    · exact (exec_request hexec hstart acc' hacc' r hr).trans (exec_sends hexec)
    · exact hstarting a acc' (htodo ▸ mem_cons_of_mem _ hacc') r hr

theorem Inv.step (h : Inv n cfg) (hlegal : Legal n cfg ev) (hserial : Serial n cfg ev)
    (hstep : cfg.step exec ev = some cfg') : Inv n cfg' := by
  obtain ⟨a, acc, rest, s', next, rfl, htodo, hexec, rfl⟩ | ⟨a, accs, rfl, rfl⟩ :=
    Config.step_cases hstep
  · exact h.run hlegal hserial htodo hexec
  · obtain ⟨ha, hcall⟩ := hlegal
    have hquiet : ∀ acc ∈ accs, InSlot acc = false ∧ acc.request? = none := by
      intro acc hacc
      have := hcall acc hacc
      cases acc <;> first | exact ⟨rfl, rfl⟩ | exact this.elim
    have hnone : accs.filter InSlot = [] :=
      filter_eq_nil_iff.mpr fun acc hacc => by simp [(hquiet acc hacc).1]
    have hsame : ∀ b, (update cfg.todo a (accs ++ cfg.todo a) b).filter InSlot =
        (cfg.todo b).filter InSlot := by
      intro b
      by_cases hb : b = a
      · subst hb
        rw [update_self, filter_append, hnone, nil_append]
      · rw [update_of_ne hb]
    obtain ⟨o, hother, hwindow⟩ := h.window
    refine ⟨fun b hb => ?_, ?_, h.slot, o, fun b hb => (hsame b).trans (hother b hb), ?_⟩
    · simp only [update_of_ne (show b ≠ a by omega)]
      exact h.idle b hb
    · refine forall_todo_update h.starting fun acc hacc r hr => ?_
      rcases mem_append.mp hacc with hacc | hacc
      · rw [(hquiet acc hacc).2] at hr
        cases hr
      · exact h.starting a acc hacc r hr
    · simp only [hsame o]
      exact hwindow

theorem Inv.boot (n cpuCount : Nat) (ticks : UInt64) : Inv n ⟨boot cpuCount ticks, fun _ => []⟩ :=
  ⟨fun _ _ => rfl, nofun, ⟨.inl rfl, nofun, nofun⟩, 0, fun _ _ => rfl, trivial⟩

end Runs

/-- In every run in which a call reads the slot for the first time only while no other one
is between its first reading and its end, no request is lost. -/
theorem kept_of_serial (n cpuCount : Nat) (ticks : UInt64) (cfg : Config State Access)
    (h : Reach exec (fun cfg ev => Legal n cfg ev ∧ Serial n cfg ev)
      ⟨boot cpuCount ticks, fun _ => []⟩ cfg) :
    ∀ r ∈ cfg.shared.returned, Kept cfg.shared r := by
  have hinv : Inv n cfg := by
    refine h.invariant (.boot n cpuCount ticks) fun hinv hok hstep => ?_
    exact hinv.step hok.1 hok.2 hstep
  exact hinv.slot.kept

instance : DecidablePred IsCall := fun acc => by
  cases acc <;> unfold IsCall <;> infer_instance

instance (n : Nat) (cfg : Config State Access) (ev : Event Access) : Decidable (Legal n cfg ev) := by
  cases ev <;> unfold Legal <;> infer_instance

instance (n : Nat) (cfg : Config State Access) (ev : Event Access) : Decidable (Serial n cfg ev) := by
  unfold Serial
  split
  · split <;> infer_instance
  · infer_instance

/-- An agent begins something and makes `k` accesses. -/
def begin (a : Nat) (acc : Access) (k : Nat) : List (Event Access) :=
  .call a [acc] :: List.replicate k (.run a)

/-- A request is put into the empty slot, and two ticks pass. -/
def fill : List (Event Access) :=
  begin 0 (.enter 0x1000) 6 ++ begin 0 .tick 1 ++ begin 0 .tick 1

/-- The poll sends the request, and another one is put into the slot. -/
theorem kept_fillPoll :
    ∃ cfg, Reach exec (fun cfg ev => Legal 2 cfg ev ∧ Serial 2 cfg ev)
        ⟨boot 2 0, fun _ => []⟩ cfg ∧
      cfg.shared.returned = [⟨0x2000, 1⟩, ⟨0x1000, 0⟩] ∧
      ∀ r ∈ cfg.shared.returned, Kept cfg.shared r := by
  obtain ⟨cfg, hreach, hreturned⟩ := Reach.exists_runAll exec
    (fun cfg ev => Legal 2 cfg ev ∧ Serial 2 cfg ev) ⟨boot 2 0, fun _ => []⟩
    (P := fun cfg => cfg.shared.returned = [⟨0x2000, 1⟩, ⟨0x1000, 0⟩])
    (fill ++ begin 1 .poll 6 ++ begin 0 (.enter 0x2000) 6) (by decide +kernel)
  exact ⟨cfg, hreach, hreturned, kept_of_serial 2 2 0 cfg hreach⟩

/-- The poll has read and sent the first request; the second one is put into the slot, and
then the poll clears the flag. -/
theorem cleared_without_send :
    ∃ cfg, Reach exec (Legal 2) ⟨boot 2 0, fun _ => []⟩ cfg ∧
      cfg.shared.returned = [⟨0x2000, 1⟩, ⟨0x1000, 0⟩] ∧ cfg.shared.sends = [0x1000, 0x1000] ∧
      cfg.shared.deferredPending = 0 ∧ ¬ ∀ r ∈ cfg.shared.returned, Kept cfg.shared r := by
  obtain ⟨cfg, hreach, hreturned, hsends, hpending⟩ := Reach.exists_runAll exec
    (Legal 2) ⟨boot 2 0, fun _ => []⟩
    (P := fun cfg => cfg.shared.returned = [⟨0x2000, 1⟩, ⟨0x1000, 0⟩] ∧
      cfg.shared.sends = [0x1000, 0x1000] ∧ cfg.shared.deferredPending = 0)
    (fill ++ begin 1 .poll 5 ++ begin 0 (.enter 0x2000) 9 ++ [.run 1]) (by decide +kernel)
  refine ⟨cfg, hreach, hreturned, hsends, hpending, fun h => ?_⟩
  rcases h ⟨0x2000, 1⟩ (by simp [hreturned]) (by decide) with hsent | ⟨-, hset⟩
  · simp [Sent, hsends] at hsent
  · rw [hpending] at hset
    cases hset

end DeferredShootdown

end BoruixKernel
