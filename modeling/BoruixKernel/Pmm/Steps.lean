import BoruixKernel.Pmm.Ownership
import BoruixKernel.Pmm.Rest

/-!
# Elementary steps

Every call of the allocator is a sequence of elementary steps on the data structure and its
owners: a block enters or leaves a list, the metadata of a loose block are written, frames in no
list are given other owners, or a field that is no list changes.  What every step keeps, every
call keeps (`Steps.invariant`).  The steps of the free lists and the regions are set apart, as
they are all that most operations take (`ListSteps`).

A step says what the code has checked before it takes it.  A block enters a free list only if its
buddy is not in a free list as a block of the same order, and a page enters the reserve only if
the reserve is not full.
-/

namespace BoruixKernel

namespace Pmm

/-- A state that agrees with the owners does so after a change of what they do not mention. -/
theorem Rep.congr (h : Rep p own) (hframes : p'.frames = p.frames) (hlists : p'.lists = p.lists)
    (hcaches : p'.caches = p.caches) (hreserve : p'.reserveHead = p.reserveHead)
    (htotal : p'.totalFrames = p.totalFrames) (hmeta : p'.metadata = p.metadata) : Rep p' own := by
  have hnext : p'.next = p.next := by
    funext f
    rw [next, next, hframes]
  have hprev : p'.prev = p.prev := by
    funext f
    rw [prev, prev, hframes]
  constructor
  · exact h.whole
  · rw [htotal, hmeta]
    exact h.bound
  · rw [hnext, hprev, hlists]
    exact h.global
  · rw [hnext, hcaches]
    exact h.cache
  · rw [hnext, hreserve]
    exact h.reserve
  · rw [hframes]
    exact h.tag
  · rw [hframes]
    exact h.free
  · rw [hframes]
    exact h.cached
  · rw [hframes]
    exact h.orders

/-- A step of the free lists and the regions. -/
inductive ListStep : Pmm × Owners → Pmm × Owners → Prop
  | push {p : Pmm} {own : Owners} {b k : Nat} {pl : Place} (hb : own b = some (.block b k pl))
      (hpl : pl.Out)
      (hbuddy : k < MAX_ORDER - 1 → own (b ^^^ 2 ^ k) ≠ some (.block (b ^^^ 2 ^ k) k .global)) :
      ListStep (p, own) (p.pushToGlobal b k, own.assign b k .global)
  | take {p : Pmm} {own : Owners} {b k : Nat} (hb : own b = some (.block b k .global)) :
      ListStep (p, own) (p.takeGlobal b k, own.assign b k .held)
  | write {p : Pmm} {own : Owners} {b k o : Nat} (hb : own b = some (.block b k .loose))
      (ho : o < MAX_ORDER) : ListStep (p, own) (p.modifyFrame b fun _ => .detached o, own)
  | relabel {p : Pmm} {own own' : Owners} (hrep : Rep p own') (hx : own.Relabels own') :
      ListStep (p, own) (p, own')
  | region {p : Pmm} {own : Owners} {regions : List (Option UninitRegion)} {i : Nat} :
      ListStep (p, own) ({ p with regions := regions, lastUninitIdx := i }, own)

inductive Step : Pmm × Owners → Pmm × Owners → Prop
  | list {s t : Pmm × Owners} (h : ListStep s t) : Step s t
  | cachePop {p p' : Pmm} {own : Owners} {cpu b k : Nat}
      (hpop : p.percpuPopRaw cpu k = (some b, p')) : Step (p, own) (p', own.assign b k .held)
  | cachePush {p : Pmm} {own : Owners} {b k : Nat} (cpu : Nat)
      (hb : own b = some (.block b k .held)) :
      Step (p, own) (p.percpuPushRaw cpu b k, own.assign b k (.cache (cpu % MAX_CPUS)))
  | reservePop {p p' : Pmm} {own : Owners} {b : Nat} (hpop : p.reservePop = (some b, p')) :
      Step (p, own) (p', own.assign b 0 .held)
  | reservePush {p : Pmm} {own : Owners} {b : Nat} (hb : own b = some (.block b 0 .held))
      (hroom : p.reserveCount < reserveTarget) :
      Step (p, own) (p.reservePush b, own.assign b 0 .reserve)
  | counters {p : Pmm} {own : Owners} {a c l : Nat} :
      Step (p, own)
        ({ p with allocatedFrames := a, allocCalls := c, compactLastAllocCall := l }, own)

/-- A sequence of steps of the free lists and the regions. -/
abbrev ListSteps : Pmm × Owners → Pmm × Owners → Prop := Relation.ReflTransGen ListStep

abbrev Steps : Pmm × Owners → Pmm × Owners → Prop := Relation.ReflTransGen Step

section Steps

variable {s t : Pmm × Owners}

theorem ListStep.steps (h : ListStep s t) : ListSteps s t := .single h

theorem Step.steps (h : Step s t) : Steps s t := .single h

theorem ListSteps.steps (h : ListSteps s t) : Steps s t := by
  induction h with
  | refl => exact .refl
  | tail _ hlast ih => exact ih.tail (.list hlast)

/-- A step keeps the data structure and the owners in agreement. -/
theorem ListStep.rep (h : ListStep s t) (hrep : Rep s.1 s.2) : Rep t.1 t.2 := by
  cases h with
  | push hb hpl _ => exact hrep.pushToGlobal hb hpl
  | take hb => exact hrep.takeGlobal hb
  | write hb ho => exact hrep.writeLoose hb ho
  | relabel hrep' _ => exact hrep'
  | region => exact hrep.congr rfl rfl rfl rfl rfl rfl

theorem Step.rep (h : Step s t) (hrep : Rep s.1 s.2) : Rep t.1 t.2 := by
  cases h with
  | list h => exact h.rep hrep
  | cachePop hpop => exact (hrep.percpuPopRaw hpop).2
  | cachePush cpu hb => exact hrep.percpuPushRaw hb trivial
  | reservePop hpop => exact (hrep.reservePop hpop).2
  | reservePush hb _ => exact hrep.reservePush hb trivial
  | counters => exact hrep.congr rfl rfl rfl rfl rfl rfl

/-- What every step keeps, a sequence of steps keeps. -/
theorem Steps.invariant {I : Pmm × Owners → Prop}
    (hstep : ∀ {s t}, Rep s.1 s.2 → I s → Step s t → I t) (h : Steps s t) (hrep : Rep s.1 s.2)
    (hs : I s) : I t := by
  have hboth : Rep t.1 t.2 ∧ I t := by
    induction h with
    | refl => exact ⟨hrep, hs⟩
    | tail _ hlast ih => exact ⟨hlast.rep ih.1, hstep ih.1 ih.2 hlast⟩
  exact hboth.2

theorem ListStep.listsOnly (h : ListStep s t) : ListsOnly s.1 t.1 := by
  cases h with
  | push => exact pushToGlobal_listsOnly ..
  | take =>
    dsimp only [takeGlobal]
    exact (removeFromListWithList_listsOnly ..).modifyFrame _ _
  | write =>
    dsimp only
    exact (ListsOnly.refl _).modifyFrame _ _
  | relabel => exact .refl _
  | region => exact ⟨⟨rfl, rfl, rfl, rfl, rfl⟩, rfl, rfl, rfl⟩

theorem ListSteps.listsOnly (h : ListSteps s t) : ListsOnly s.1 t.1 := by
  induction h with
  | refl => exact .refl _
  | tail _ hlast ih => exact ih.trans hlast.listsOnly

/-! ## Blocks in caches and in the reserve -/

/-- The blocks in the caches and in the reserve are the same after a step of the free lists. -/
theorem ListStep.sameStores (h : ListStep s t) (hrep : Rep s.1 s.2) : s.2.SameStores t.2 := by
  cases h with
  | @push p own b k pl hb hpl _ =>
    refine Owners.sameStores_of_eq fun x => ?_
    by_cases hx : b ≤ x ∧ x < b + 2 ^ k
    · exact .inr ⟨_, _, _, _, _, _, hrep.whole.whole hb hx, Owners.assign_inside hx, .inr hpl, .inl rfl⟩
    · exact .inl (Owners.assign_outside hx)
  | @take p own b k hb =>
    refine Owners.sameStores_of_eq fun x => ?_
    by_cases hx : b ≤ x ∧ x < b + 2 ^ k
    · exact .inr ⟨_, _, _, _, _, _, hrep.whole.whole hb hx, Owners.assign_inside hx, .inl rfl,
        .inr trivial⟩
    · exact .inl (Owners.assign_outside hx)
  | relabel _ hx => exact fun f o pl _ hout => hx.listed f o hout
  | write | region => exact fun _ _ _ _ _ => Iff.rfl

/-- The links of the blocks in the caches and in the reserve are the same. -/
def SameLinks (s t : Pmm × Owners) : Prop :=
  ∀ f o pl, pl ≠ .global → ¬ pl.Out → s.2 f = some (.block f o pl) → t.1.next f = s.1.next f

theorem ListStep.sameLinks (h : ListStep s t) (hrep : Rep s.1 s.2) : SameLinks s t := by
  intro f o q hg hout hf
  cases h with
  | @push p own b k pl hb hpl _ =>
    dsimp only at hrep hf
    have hne : p.lists k (shardForPfn b) ≠ some b := by
      intro hhead
      have hown := (hrep.head_global hhead).1
      rw [hb] at hown
      cases hown
      exact hpl
    have hfb : f ≠ b := by
      rintro rfl
      rw [hb] at hf
      cases hf
      exact hout hpl
    dsimp only
    rw [next, pushToGlobal_frames f hne, if_neg hfb]
    split <;> rfl
  | @take p own b k hb =>
    obtain ⟨l, hl, hmem⟩ := hrep.global k (shardForPfn b)
    have hbl : b ∈ l := (hmem b).mpr ⟨hb, rfl⟩
    -- The block and its neighbours are in the free list.
    have hfl : f ∉ l := by
      intro hc
      have hglobal := ((hmem f).mp hc).1
      rw [hf] at hglobal
      cases hglobal
      exact hg rfl
    have hfb : f ≠ b := fun hc => hfl (hc ▸ hbl)
    have hprev : p.prev b ≠ some f := by
      intro hc
      rcases hl.prev_mem hbl with ⟨-, hp⟩ | ⟨-, y, hy, hp, -⟩
      · rw [hp] at hc
        cases hc
      · rw [hp] at hc
        cases hc
        exact hfl hy
    dsimp only [takeGlobal]
    rw [next, modifyFrame_frames, if_neg hfb,
      removeFromListWithList_frames _ _ (hl.prev_ne hbl) (hl.chain.next_ne hbl), if_neg hfb,
      if_neg hprev]
  | @write p own b k j hb hj =>
    dsimp only at hf
    have hfb : f ≠ b := by
      rintro rfl
      rw [hb] at hf
      cases hf
      exact hout trivial
    dsimp only
    rw [next, modifyFrame_frames, if_neg hfb]
    rfl
  | relabel | region => rfl

theorem ListSteps.stores (h : ListSteps s t) (hrep : Rep s.1 s.2) :
    Rep t.1 t.2 ∧ s.2.SameStores t.2 ∧ SameLinks s t := by
  induction h with
  | refl => exact ⟨hrep, fun _ _ _ _ _ => Iff.rfl, fun _ _ _ _ _ _ => rfl⟩
  | tail _ hlast ih =>
    obtain ⟨hrep', hsame, hlinks⟩ := ih
    refine ⟨hlast.rep hrep', hsame.trans (hlast.sameStores hrep'), fun f o pl hg hout hf => ?_⟩
    have hf' := (hsame f o pl hg hout).mpr hf
    exact (hlast.sameLinks hrep' f o pl hg hout hf').trans (hlinks f o pl hg hout hf)

end Steps

end Pmm

end BoruixKernel
