import BoruixKernel.Pmm.Conservation

/-!
# Coalescing

No two buddies are in the free lists as blocks of the same order.  In terms of owners this is a
property of the blocks whose place is `global`.  Only one kind of step adds such a block, and that
step comes with what `free_and_merge` found out about the buddy (`ListStep.push`); all others can
only take one away.
-/

namespace BoruixKernel

open LinkedList

namespace Pmm

/-- The first frame of the other half of the block of twice the size. -/
def buddyOf (b k : Nat) : Nat := b ^^^ 2 ^ k

/-- A block of the free lists. -/
def InLists (own : Owners) (b k : Nat) : Prop := own b = some (.block b k .global)

/-- A block in the free lists that could be merged has no buddy there. -/
def Coalesced (own : Owners) : Prop :=
  ∀ {b k}, k < MAX_ORDER - 1 → InLists own b k → ¬ InLists own (buddyOf b k) k

section Steps

variable {own own' : Owners}

theorem buddyOf_ne (b k : Nat) : buddyOf b k ≠ b := by
  intro h
  have hzero : b ^^^ (b ^^^ 2 ^ k) = b ^^^ b := congrArg (b ^^^ ·) h
  rw [← Nat.xor_assoc, Nat.xor_self, Nat.zero_xor] at hzero
  exact (Nat.two_pow_pos k).ne' hzero

theorem buddyOf_buddyOf (b k : Nat) : buddyOf (buddyOf b k) k = b := by
  rw [buddyOf, buddyOf, Nat.xor_assoc, Nat.xor_self, Nat.xor_zero]

theorem Coalesced.mono (h : Coalesced own) (hsub : ∀ {f o}, InLists own' f o → InLists own f o) :
    Coalesced own' := fun hk hb hbuddy => h hk (hsub hb) (hsub hbuddy)

/-- A block that moves to a place outside the free lists adds nothing to them. -/
theorem InLists.of_move (hwhole : own.Whole) (hb : own b = some (.block b k old))
    (hpl : pl ≠ .global) (hf : InLists (own.assign b k pl) f o) : InLists own f o := by
  rcases (hwhole.move_start hb).mp hf with ⟨-, -, hglobal⟩ | ⟨-, hown⟩
  · exact absurd hglobal.symm hpl
  · exact hown

/-- A block without a buddy in the free lists may enter them. -/
theorem Coalesced.push (h : Coalesced own) (hwhole : own.Whole)
    (hb : own b = some (.block b k old)) (hbuddy : k < MAX_ORDER - 1 → ¬ InLists own (buddyOf b k) k) :
    Coalesced (own.assign b k .global) := by
  intro c j hj hc hc'
  rcases (hwhole.move_start hb).mp hc with ⟨rfl, rfl, -⟩ | ⟨-, hown⟩
  · rcases (hwhole.move_start hb).mp hc' with ⟨hself, -⟩ | ⟨-, hown'⟩
    · exact buddyOf_ne c j hself
    · exact hbuddy hj hown'
  · rcases (hwhole.move_start hb).mp hc' with ⟨rfl, rfl, -⟩ | ⟨-, hown'⟩
    · refine hbuddy hj ?_
      rwa [buddyOf_buddyOf]
    · exact h hj hown hown'

theorem ListStep.coalesced (h : ListStep s t) (hrep : Rep s.1 s.2)
    (hs : Coalesced s.2) : Coalesced t.2 := by
  cases h with
  | push hb _ hbuddy => exact hs.push hrep.whole hb hbuddy
  | take hb => exact hs.mono (InLists.of_move hrep.whole hb (by simp))
  | relabel _ hx => exact hs.mono fun {f o} => (hx.listed f o id).mp
  | write | region => exact hs

theorem Step.coalesced (h : Step s t) (hrep : Rep s.1 s.2)
    (hs : Coalesced s.2) : Coalesced t.2 := by
  cases h with
  | list h => exact h.coalesced hrep hs
  | cachePop hpop => exact hs.mono (InLists.of_move hrep.whole (hrep.percpuPopRaw hpop).1 (by simp))
  | cachePush cpu hb => exact hs.mono (InLists.of_move hrep.whole hb (by simp))
  | reservePop hpop => exact hs.mono (InLists.of_move hrep.whole (hrep.reservePop hpop).1 (by simp))
  | reservePush hb _ => exact hs.mono (InLists.of_move hrep.whole hb (by simp))
  | counters => exact hs

end Steps

/-- At every point of every run, no two blocks of the same order in the free lists, of whatever
shards, are buddies. -/
theorem PmmRun.buddies_merged {mmap : List MemmapEntry} {p : Pmm} {held : List (Nat × Nat)}
    (hmap : MemmapOk mmap) (hrun : PmmRun mmap p held) :
    ∃ c : Contents, c.Of p ∧ ∀ order < MAX_ORDER - 1, ∀ shard shard', ∀ b ∈ c.global order shard,
      ∀ b' ∈ c.global order shard', b ^^^ b' ≠ 2 ^ order := by
  obtain ⟨own, h, hcoalesced⟩ := hrun.invariant (I := fun s => Coalesced s.2) hmap
    (fun _ _ _ _ _ hb => (recordedOwners_not_block hb).elim)
    fun hrep hs hstep => hstep.coalesced hrep hs
  obtain ⟨c, hof, hc⟩ := h.inv.toRep.contents
  refine ⟨c, hof, fun order horder shard shard' b hb b' hb' hxor => ?_⟩
  have hbuddy : buddyOf b order = b' := by
    rw [buddyOf, ← hxor, ← Nat.xor_assoc, Nat.xor_self, Nat.zero_xor]
  refine hcoalesced horder ((hc.global order shard b).mp hb).1 ?_
  rw [hbuddy]
  exact ((hc.global order shard' b').mp hb').1

theorem buddies_merged_smallMap : ∃ p, PmmRun smallMap p [(296, 2)] ∧ ∃ c : Contents, c.Of p ∧
    ∀ order < MAX_ORDER - 1, ∀ shard shard', ∀ b ∈ c.global order shard,
      ∀ b' ∈ c.global order shard', b ^^^ b' ≠ 2 ^ order := by
  obtain ⟨p, hrun⟩ := smallMap_run
  exact ⟨p, hrun, PmmRun.buddies_merged smallMap_ok hrun⟩

end Pmm

end BoruixKernel
