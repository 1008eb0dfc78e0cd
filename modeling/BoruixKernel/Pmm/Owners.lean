import BoruixKernel.Pmm.Allocator

/-!
# Who owns a frame

`Owners` says of every frame whether it is in a region that is not initialised, or in
which block it is and where that block is kept.  As a function it cannot put a frame in
two blocks, so that a partition of memory is a value of this type.

A block in the hands of the running operation is `loose`: its metadata need not say
what it is, but no tag says that it is free.  A block of the client is `held`, and its
metadata say its order, which is what `deallocate` relies on.

`Owners.usage` is the abstract state: it forgets where free frames are kept, so that an
operation that only reorganises memory does not change it.
-/

namespace BoruixKernel

/-! ## Owners -/

inductive Place where
  | global
  | cache (cpu : Nat)
  | reserve
  | held
  | loose
deriving DecidableEq

/-- What a frame belongs to. -/
inductive Owner where
  | uninit
  | block (start order : Nat) (place : Place)
deriving DecidableEq

/-- The owner of every frame; `none` for a frame the allocator does not manage. -/
abbrev Owners := Nat → Option Owner

namespace Place

/-- The tag of a block in its metadata. -/
def state : Place → FrameState
  | global => .FreeGlobal
  | cache _ => .FreePerCpu
  | reserve | held | loose => .Allocated

/-- A block in no list. -/
def Out : Place → Prop
  | held | loose => True
  | _ => False

instance : DecidablePred Out := fun pl => by cases pl <;> unfold Out <;> infer_instance

/-- The orders a place is for: the reserve keeps pages, and there are 64 caches. -/
def Fits : Place → Nat → Prop
  | reserve, k => k = 0
  | cache c, _ => c < MAX_CPUS
  | _, _ => True

end Place

/-- Frames of a block in no list. -/
def Owner.Out : Owner → Prop
  | .uninit => False
  | .block _ _ pl => pl.Out

instance : DecidablePred Owner.Out
  | .uninit => .isFalse id
  | .block _ _ pl => inferInstanceAs (Decidable pl.Out)

namespace Owners

/-- Give the frames of a block to that block. -/
def assign (own : Owners) (b k : Nat) (pl : Place) : Owners := fun x =>
  if b ≤ x ∧ x < b + 2 ^ k then some (.block b k pl) else own x

variable {own : Owners} {b k x : Nat} {pl : Place}

theorem assign_inside (h : b ≤ x ∧ x < b + 2 ^ k) :
    own.assign b k pl x = some (.block b k pl) := if_pos h

theorem assign_outside (h : ¬ (b ≤ x ∧ x < b + 2 ^ k)) : own.assign b k pl x = own x := if_neg h

@[simp] theorem assign_self : own.assign b k pl b = some (.block b k pl) :=
  assign_inside ⟨Nat.le_refl _, Nat.lt_add_of_pos_right (Nat.two_pow_pos k)⟩

/-- A block owns all its frames and no others, is aligned, and is where it fits. -/
structure Whole (own : Owners) : Prop where
  inside : ∀ {x b k pl}, own x = some (.block b k pl) → b ≤ x ∧ x < b + 2 ^ k
  whole : ∀ {x b k pl}, own x = some (.block b k pl) →
    ∀ {y}, b ≤ y ∧ y < b + 2 ^ k → own y = some (.block b k pl)
  aligned : ∀ {x b k pl}, own x = some (.block b k pl) → 2 ^ k ∣ b
  order : ∀ {x b k pl}, own x = some (.block b k pl) → k < MAX_ORDER
  fits : ∀ {x b k pl}, own x = some (.block b k pl) → pl.Fits k

/-- The first frame of a block belongs to it. -/
theorem Whole.start (h : own.Whole) (hx : own x = some (.block b k pl)) :
    own b = some (.block b k pl) :=
  h.whole hx ⟨Nat.le_refl _, Nat.lt_add_of_pos_right (Nat.two_pow_pos k)⟩

/-- Frames that form a block, and are made up of whole blocks, may become one block. -/
theorem Whole.assign (h : own.Whole) (hal : 2 ^ k ∣ b) (hk : k < MAX_ORDER) (hfit : pl.Fits k)
    (hsub : ∀ x c j q, b ≤ x ∧ x < b + 2 ^ k → own x = some (.block c j q) →
      b ≤ c ∧ c + 2 ^ j ≤ b + 2 ^ k) :
    (own.assign b k pl).Whole := by
  have hcases : ∀ {x c j q}, own.assign b k pl x = some (.block c j q) →
      (b = c ∧ k = j ∧ pl = q ∧ b ≤ x ∧ x < b + 2 ^ k) ∨
        ¬ (b ≤ x ∧ x < b + 2 ^ k) ∧ own x = some (.block c j q) := by
    intro x c j q hx
    by_cases hin : b ≤ x ∧ x < b + 2 ^ k
    · rw [assign_inside hin] at hx
      cases hx
      exact .inl ⟨rfl, rfl, rfl, hin⟩
    · rw [assign_outside hin] at hx
      exact .inr ⟨hin, hx⟩
  constructor
  · intro x c j q hx
    rcases hcases hx with ⟨rfl, rfl, rfl, hin⟩ | ⟨-, hx⟩
    · exact hin
    · exact h.inside hx
  · intro x c j q hx y hy
    rcases hcases hx with ⟨rfl, rfl, rfl, -⟩ | ⟨hout, hx⟩
    · exact assign_inside hy
    · have hy' := h.whole hx hy
      rw [assign_outside, hy']
      intro hin
      -- The block of `y` would lie inside, and with it `x`.
      have hcj := hsub y c j q hin hy'
      have hxin := h.inside hx
      omega
  · intro x c j q hx
    rcases hcases hx with ⟨rfl, rfl, rfl, -⟩ | ⟨-, hx⟩
    · exact hal
    · exact h.aligned hx
  · intro x c j q hx
    rcases hcases hx with ⟨rfl, rfl, rfl, -⟩ | ⟨-, hx⟩
    · exact hk
    · exact h.order hx
  · intro x c j q hx
    rcases hcases hx with ⟨rfl, rfl, rfl, -⟩ | ⟨-, hx⟩
    · exact hfit
    · exact h.fits hx

theorem Whole.move (h : own.Whole) (hb : own b = some (.block b k old)) (hfit : pl.Fits k) :
    (own.assign b k pl).Whole := by
  refine h.assign (h.aligned hb) (h.order hb) hfit fun x c j q hx hc => ?_
  have hx' := h.whole hb hx
  rw [hx'] at hc
  cases hc
  exact ⟨Nat.le_refl _, Nat.le_refl _⟩

variable {q : Place} {own' own'' : Owners}

section

variable (h : own.Whole) (hb : own b = some (.block b k old))

include h hb

/-- Which blocks there are after a move. -/
theorem Whole.move_start : own.assign b k pl f = some (.block f o q) ↔
      (f = b ∧ o = k ∧ q = pl) ∨ f ≠ b ∧ own f = some (.block f o q) := by
  by_cases hf : f = b
  · subst hf
    rw [assign_self]
    simp [eq_comm]
  · by_cases hin : b ≤ f ∧ f < b + 2 ^ k
    · rw [assign_inside hin, h.whole hb hin]
      simp [hf, Ne.symm hf, eq_comm]
    · rw [assign_outside hin]
      simp [hf]

/-- A move changes the owner of no frame to or from nobody, and of none that is not
initialised. -/
theorem Whole.move_none : own.assign b k pl x = none ↔ own x = none := by
  by_cases hin : b ≤ x ∧ x < b + 2 ^ k
  · rw [assign_inside hin, h.whole hb hin]
    simp
  · rw [assign_outside hin]

theorem Whole.move_uninit : own.assign b k pl x = some .uninit ↔ own x = some .uninit := by
  by_cases hin : b ≤ x ∧ x < b + 2 ^ k
  · rw [assign_inside hin, h.whole hb hin]
    simp
  · rw [assign_outside hin]

/-- The blocks of a list that a block is pushed to. -/
theorem Whole.mem_push (hne : old ≠ pl) (hmem : ∀ f, f ∈ l ↔ own f = some (.block f k pl))
    (f : Nat) :
    f ∈ b :: l ↔ own.assign b k pl f = some (.block f k pl) := by
  rw [h.move_start hb, List.mem_cons, hmem]
  constructor
  · rintro (rfl | hf)
    · exact .inl ⟨rfl, rfl, rfl⟩
    · refine .inr ⟨?_, hf⟩
      rintro rfl
      rw [hb] at hf
      cases hf
      exact hne rfl
  · rintro (⟨rfl, -⟩ | ⟨-, hf⟩)
    · exact .inl rfl
    · exact .inr hf

/-- The blocks of a list that loses its first block. -/
theorem Whole.mem_pop (hne : pl ≠ old) (hnd : (b :: l).Nodup)
    (hmem : ∀ f, f ∈ b :: l ↔ own f = some (.block f k old)) (f : Nat) :
    f ∈ l ↔ own.assign b k pl f = some (.block f k old) := by
  rw [h.move_start hb, ← hmem, List.mem_cons]
  constructor
  · intro hf
    refine .inr ⟨?_, .inr hf⟩
    rintro rfl
    exact (List.nodup_cons.mp hnd).1 hf
  · rintro (⟨-, -, hc⟩ | ⟨hfb, hf⟩)
    · exact absurd hc.symm hne
    · exact hf.resolve_left hfb

end

/-- Make the frames of a block free. -/
def release (own : Owners) (b k : Nat) : Owners := fun x =>
  if b ≤ x ∧ x < b + 2 ^ k then some .uninit else own x

theorem Whole.release (h : own.Whole) (hb : own b = some (.block b k pl)) :
    (own.release b k).Whole := by
  have hcases : ∀ {x c j q}, own.release b k x = some (.block c j q) →
      ¬ (b ≤ x ∧ x < b + 2 ^ k) ∧ own x = some (.block c j q) := by
    intro x c j q hx
    by_cases hin : b ≤ x ∧ x < b + 2 ^ k
    · rw [Owners.release, if_pos hin] at hx
      cases hx
    · rw [Owners.release, if_neg hin] at hx
      exact ⟨hin, hx⟩
  refine ⟨fun hx => h.inside (hcases hx).2, ?_, fun hx => h.aligned (hcases hx).2,
    fun hx => h.order (hcases hx).2, fun hx => h.fits (hcases hx).2⟩
  intro x c j q hx y hy
  obtain ⟨hout, hx⟩ := hcases hx
  have hy' := h.whole hx hy
  rw [Owners.release, if_neg, hy']
  intro hin
  rw [h.whole hb hin] at hy'
  cases hy'
  exact hout (h.inside hx)

theorem Whole.cut (h : own.Whole) (hb : own b = some (.block b (k + 1) pl)) (hq : q.Fits k) :
    ((own.assign (b + 2 ^ k) k q).assign b k q).Whole := by
  have hal := h.aligned hb
  have hk := h.order hb
  have hlo : 2 ^ k ∣ b := Nat.dvd_trans (Nat.pow_dvd_pow 2 (Nat.le_succ k)) hal
  have hclear : ∀ x, b ≤ x ∧ x < b + 2 ^ (k + 1) →
      own.release b (k + 1) x = some .uninit := fun x hx => if_pos hx
  have hhi : ((own.release b (k + 1)).assign (b + 2 ^ k) k q).Whole := by
    refine (h.release hb).assign (Nat.dvd_add hlo (Nat.dvd_refl _)) (by omega) hq ?_
    intro x c j r hx hc
    rw [hclear x (by omega)] at hc
    cases hc
  have hboth := hhi.assign hlo (by omega) hq fun x c j r hx hc => by
    rw [assign_outside (by omega), hclear x (by omega)] at hc
    cases hc
  have heq : ((own.release b (k + 1)).assign (b + 2 ^ k) k q).assign b k q =
      (own.assign (b + 2 ^ k) k q).assign b k q := by
    funext x
    by_cases h1 : b ≤ x ∧ x < b + 2 ^ k
    · rw [assign_inside h1, assign_inside h1]
    · rw [assign_outside h1, assign_outside h1]
      by_cases h2 : b + 2 ^ k ≤ x ∧ x < b + 2 ^ k + 2 ^ k
      · rw [assign_inside h2, assign_inside h2]
      · rw [assign_outside h2, assign_outside h2, Owners.release, if_neg (by omega)]
  rwa [heq] at hboth

/-! ### Usage -/

/-- What the client can tell: free frames are all alike, wherever they are kept. -/
def usage (own : Owners) : Owners := fun x =>
  (own x).map fun o => if o.Out then o else .uninit

/-- All frames of a block are free. -/
def Free (own : Owners) (b k : Nat) : Prop :=
  ∀ x, b ≤ x ∧ x < b + 2 ^ k → own.usage x = some .uninit

theorem usage_block (h : pl.Out) :
    own.usage x = some (.block b k pl) ↔ own x = some (.block b k pl) := by
  unfold usage
  cases hx : own x with
  | none => simp
  | some o =>
    cases o with
    | uninit => simp [Owner.Out]
    | block c j q =>
      by_cases hq : q.Out
      · simp [Owner.Out, hq]
      · simp only [Option.map_some, Owner.Out, hq, if_false, Option.some.injEq, reduceCtorEq,
          Owner.block.injEq, false_iff]
        rintro ⟨-, -, rfl⟩
        exact hq h

theorem usage_none : own.usage x = none ↔ own x = none := Option.map_eq_none_iff

theorem usage_assign (h : pl.Out) : (own.assign b k pl).usage = own.usage.assign b k pl := by
  funext x
  by_cases hx : b ≤ x ∧ x < b + 2 ^ k
  · simp [usage, assign, hx, Owner.Out, h]
  · simp [usage, assign, hx]

theorem usage_assign_listed (h : ¬ pl.Out) : (own.assign b k pl).usage = own.usage.release b k := by
  funext x
  by_cases hx : b ≤ x ∧ x < b + 2 ^ k
  · simp [usage, assign, release, hx, Owner.Out, h]
  · simp [usage, assign, release, hx]

/-- Releasing a block that was just taken. -/
theorem Free.release_assign (h : own.Free b k) :
    (own.usage.assign b k pl).release b k = own.usage := by
  funext x
  by_cases hx : b ≤ x ∧ x < b + 2 ^ k
  · rw [release, if_pos hx, h x hx]
  · rw [release, if_neg hx, assign_outside hx]

@[simp] theorem assign_assign : (own.assign b k q).assign b k pl = own.assign b k pl := by
  funext x
  by_cases hx : b ≤ x ∧ x < b + 2 ^ k
  · rw [assign_inside hx, assign_inside hx]
  · rw [assign_outside hx, assign_outside hx, assign_outside hx]

theorem Whole.free_of_listed (h : own.Whole) (hb : own b = some (.block b k pl)) (hpl : ¬ pl.Out) :
    own.Free b k := by
  intro x hx
  simp [usage, h.whole hb hx, Owner.Out, hpl]

/-- The same blocks are in the caches and in the reserve. -/
def SameStores (own own' : Owners) : Prop :=
  ∀ f o pl, pl ≠ .global → ¬ pl.Out → (own' f = some (.block f o pl) ↔ own f = some (.block f o pl))

theorem SameStores.trans (h : own.SameStores own') (h' : own'.SameStores own'') :
    own.SameStores own'' :=
  fun f o pl hg hout => (h' f o pl hg hout).trans (h f o pl hg hout)

/-- Frames change hands between the free lists and blocks in no list. -/
theorem sameStores_of_eq (h : ∀ x, own' x = own x ∨ ∃ b k pl c j q, own x = some (.block b k pl) ∧
      own' x = some (.block c j q) ∧ (pl = .global ∨ pl.Out) ∧ (q = .global ∨ q.Out)) :
    own.SameStores own' := by
  intro f o pl hg hout
  rcases h f with heq | ⟨b, k, q, c, j, q', hb, hc, hq, hq'⟩
  · rw [heq]
  · rw [hb, hc]
    constructor
    · rintro ⟨⟩
      exact absurd hq' (by simp [hg, hout])
    · rintro ⟨⟩
      exact absurd hq (by simp [hg, hout])

/-- Only frames that are in no list change hands, and they end up in blocks in no list. -/
def Relabels (own own' : Owners) : Prop :=
  ∀ x, own' x = own x ∨ ∃ o o', own x = some o ∧ own' x = some o' ∧ (o = .uninit ∨ o.Out) ∧ o'.Out

theorem relabels_assign (hpl : pl.Out)
    (hx : ∀ x, b ≤ x ∧ x < b + 2 ^ k → ∃ o, own x = some o ∧ (o = .uninit ∨ o.Out)) :
    own.Relabels (own.assign b k pl) := by
  intro x
  by_cases hin : b ≤ x ∧ x < b + 2 ^ k
  · obtain ⟨o, ho, hout⟩ := hx x hin
    exact .inr ⟨o, _, ho, assign_inside hin, hout, hpl⟩
  · exact .inl (assign_outside hin)

theorem Relabels.trans (h : own.Relabels own') (h' : own'.Relabels own'') : own.Relabels own'' := by
  intro x
  rcases h' x with heq' | ⟨o', o'', ho', ho'', hout', hout''⟩
  · rw [heq']
    exact h x
  · rcases h x with heq | ⟨o, o1, ho, ho1, hout, -⟩
    · exact .inr ⟨o', o'', heq ▸ ho', ho'', hout', hout''⟩
    · exact .inr ⟨o, o'', ho, ho'', hout, hout''⟩

/-- The blocks in lists stay as they are. -/
theorem Relabels.listed (h : own.Relabels own') (f o : Nat) (hpl : ¬ pl.Out) :
    own' f = some (.block f o pl) ↔ own f = some (.block f o pl) := by
  rcases h f with heq | ⟨c, c', hc, hc', hout, hout'⟩
  · rw [heq]
  · rw [hc, hc']
    constructor
    · rintro ⟨⟩
      exact absurd hout' hpl
    · rintro ⟨⟩
      exact absurd (hout.resolve_left (by simp)) hpl

theorem Relabels.none_iff (h : own.Relabels own') : own' x = none ↔ own x = none := by
  rcases h x with heq | ⟨o, o', ho, ho', -⟩
  · rw [heq]
  · simp [ho, ho']

/-- Moving a block from one place that is no list to another one. -/
theorem Whole.relabels_move (h : own.Whole) (hb : own b = some (.block b k old)) (hold : old.Out)
    (hpl : pl.Out) : own.Relabels (own.assign b k pl) :=
  relabels_assign hpl fun _ hx => ⟨_, h.whole hb hx, .inr hold⟩

/-- The owners after a block in no list was cut in two. -/
theorem Whole.relabels_cut (h : own.Whole) (hb : own b = some (.block b (k + 1) pl))
    (hpl : pl.Out) :
    own.Relabels ((own.assign (b + 2 ^ k) k .loose).assign b k .loose) := by
  have hhi : own.Relabels (own.assign (b + 2 ^ k) k .loose) :=
    relabels_assign trivial fun x hx => ⟨_, h.whole hb (by omega), .inr hpl⟩
  refine hhi.trans (relabels_assign trivial fun x hx => ⟨.block b (k + 1) pl, ?_, .inr hpl⟩)
  rw [assign_outside (by omega)]
  exact h.whole hb (by omega)

/-- A block is taken: its frames were free, and now it is held. -/
structure Taken (own own' : Owners) (b k : Nat) : Prop where
  free : own.Free b k
  usage : own'.usage = own.usage.assign b k .held

/-- The block that was taken. -/
theorem Taken.self (h : Taken own own' b k) : own' b = some (.block b k .held) := by
  have hout : Place.held.Out := trivial
  rw [← usage_block hout, h.usage, assign_self]

/-- Reorganising memory after a block was taken. -/
theorem Taken.trans (h : Taken own own' b k) (heq : own''.usage = own'.usage) :
    Taken own own'' b k := ⟨h.free, heq.trans h.usage⟩

theorem Whole.taken (h : own.Whole) (hb : own b = some (.block b k pl)) (hpl : ¬ pl.Out) :
    Taken own (own.assign b k .held) b k := ⟨h.free_of_listed hb hpl, usage_assign trivial⟩

end Owners

end BoruixKernel
