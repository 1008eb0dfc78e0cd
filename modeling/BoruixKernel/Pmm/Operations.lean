import BoruixKernel.Lib.TwoPow
import BoruixKernel.Pmm.Steps

/-!
# What the operations do to the owners

Every operation of the allocator keeps the data structure and the owners in agreement,
and its effect on the usage of memory is one of three: nothing, one block taken, or one
block released.  The operations on lists come first (`Quiet`: the regions do not
change), then those that take memory from the regions, then the calls of the client.
Each of them is a sequence of elementary steps (`Steps`).
-/

namespace BoruixKernel

open LinkedList List Owners

namespace Pmm

/-! ## List operations -/

/-- A step between states that agree with their owners, and that leaves the regions and
the counter of allocated frames alone. -/
structure Quiet (p : Pmm) (own : Owners) (p' : Pmm) (own' : Owners) : Prop where
  rep : Rep p' own'
  uninit : ∀ x, own' x = some .uninit ↔ own x = some .uninit
  regions : p'.regions = p.regions
  allocated : p'.allocatedFrames = p.allocatedFrames
  steps : Steps (p, own) (p', own')

/-- The same for a step that leaves the caches and the reserve alone as well. -/
structure Listed (p : Pmm) (own : Owners) (p' : Pmm) (own' : Owners) : Prop where
  rep : Rep p' own'
  uninit : ∀ x, own' x = some .uninit ↔ own x = some .uninit
  regions : p'.regions = p.regions
  steps : ListSteps (p, own) (p', own')

variable {p p' : Pmm} {own own' : Owners} {b k cpu x i before after : Nat}

section Quiet

theorem Quiet.refl (h : Rep p own) : Quiet p own p own := ⟨h, fun _ => .rfl, rfl, rfl, .refl⟩

theorem Quiet.trans (h : Quiet p own p' own') (h' : Quiet p' own' p'' own'') :
    Quiet p own p'' own'' where
  rep := h'.rep
  uninit x := (h'.uninit x).trans (h.uninit x)
  regions := h'.regions.trans h.regions
  allocated := h'.allocated.trans h.allocated
  steps := h.steps.trans h'.steps

theorem Listed.trans (h : Listed p own p' own') (h' : Listed p' own' p'' own'') :
    Listed p own p'' own'' where
  rep := h'.rep
  uninit x := (h'.uninit x).trans (h.uninit x)
  regions := h'.regions.trans h.regions
  steps := h.steps.trans h'.steps

theorem Listed.quiet (h : Listed p own p' own') : Quiet p own p' own' :=
  ⟨h.rep, h.uninit, h.regions, h.steps.listsOnly.allocatedFrames, h.steps.steps⟩

variable {shards orders : List Nat}

section

variable (h : Rep p own)

include h

/-- A block in no list is put in its free list. -/
theorem Rep.listed_pushToGlobal (hb : own b = some (.block b k pl)) (hpl : pl.Out)
    (hbuddy : k < MAX_ORDER - 1 → own (b ^^^ 2 ^ k) ≠ some (.block (b ^^^ 2 ^ k) k .global)) :
    Listed p own (p.pushToGlobal b k) (own.assign b k .global) where
  rep := h.pushToGlobal hb hpl
  uninit _ := h.whole.move_uninit hb
  regions := by rw [pushToGlobal_rest]
  steps := (ListStep.push hb hpl hbuddy).steps

/-- A block is taken out of its free list. -/
theorem Rep.listed_takeGlobal (hb : own b = some (.block b k .global)) :
    Listed p own (p.takeGlobal b k) (own.assign b k .held) where
  rep := h.takeGlobal hb
  uninit _ := h.whole.move_uninit hb
  regions := by
    rw [Pmm.takeGlobal, removeFromListWithList_rest]
    rfl
  steps := (ListStep.take hb).steps

/-- A free block next to a loose one is taken, and the two are joined. -/
theorem Rep.mergeBuddy (hb : own b = some (.block b k .loose))
    (hbuddy : own (b ^^^ 2 ^ k) = some (.block (b ^^^ 2 ^ k) k .global)) (hk : k < MAX_ORDER - 1) :
    let start := if b ^^^ 2 ^ k < b then b ^^^ 2 ^ k else b
    ∃ own', Listed p own (p.takeGlobal (b ^^^ 2 ^ k) k) own' ∧
      own' start = some (.block start (k + 1) .loose) ∧
      own'.usage.release start (k + 1) = own.usage.release b k := by
  intro start
  have hpos := Nat.two_pow_pos k
  have hk' : k + 1 < MAX_ORDER := by omega
  have htake := h.listed_takeGlobal hbuddy
  have hb1 : own.assign (b ^^^ 2 ^ k) k .held b = some (.block b k .loose) := by
    rw [assign_outside, hb]
    intro hin
    have := h.whole.whole hbuddy hin
    simp [hb] at this
  have hself : own.assign (b ^^^ 2 ^ k) k .held (b ^^^ 2 ^ k) =
      some (.block (b ^^^ 2 ^ k) k .held) := assign_self
  -- The halves of the joined block, in either order.
  obtain ⟨⟨hlo, hrelabel⟩, hrange⟩ : (Rep (p.takeGlobal (b ^^^ 2 ^ k) k)
      ((own.assign (b ^^^ 2 ^ k) k .held).assign start (k + 1) .loose) ∧
      (own.assign (b ^^^ 2 ^ k) k .held).Relabels
        ((own.assign (b ^^^ 2 ^ k) k .held).assign start (k + 1) .loose)) ∧
      ∀ x, (start ≤ x ∧ x < start + 2 ^ (k + 1)) ↔
        (b ≤ x ∧ x < b + 2 ^ k) ∨ (b ^^^ 2 ^ k ≤ x ∧ x < (b ^^^ 2 ^ k) + 2 ^ k) := by
    rcases TwoPow.buddy_cases (h.whole.aligned hb) with ⟨hal, heq⟩ | ⟨hal, heq⟩
    · have hstart : start = b := if_neg (by omega)
      rw [hstart]
      rw [heq] at hself htake hb1 ⊢
      exact ⟨htake.rep.join hb1 hself trivial trivial hal hk', fun x => by omega⟩
    · have hstart : start = b ^^^ 2 ^ k := if_pos (by omega)
      rw [hstart]
      have hb2 := hb1
      nth_rewrite 2 3 [heq] at hb2
      exact ⟨htake.rep.join hself hb2 trivial trivial hal hk', fun x => by omega⟩
  refine ⟨_, ⟨hlo, fun x => ?_, htake.regions,
    htake.steps.tail (.relabel hlo hrelabel)⟩, assign_self, ?_⟩
  · by_cases hin : start ≤ x ∧ x < start + 2 ^ (k + 1)
    · rw [assign_inside hin]
      rcases (hrange x).mp hin with hx | hx
      · simp [h.whole.whole hb hx]
      · simp [h.whole.whole hbuddy hx]
    · rw [assign_outside hin]
      exact htake.uninit x
  · funext x
    by_cases hin : start ≤ x ∧ x < start + 2 ^ (k + 1)
    · rw [Owners.release, if_pos hin]
      rcases (hrange x).mp hin with hx | hx
      · rw [Owners.release, if_pos hx]
      · have hfree := h.whole.free_of_listed hbuddy id x hx
        rw [Owners.release, hfree, ite_self]
    · have hx := fun hc => hin ((hrange x).mpr hc)
      have hloose : Place.loose.Out := trivial
      have hheld : Place.held.Out := trivial
      rw [Owners.release, if_neg hin, usage_assign hloose, assign_outside hin,
        usage_assign hheld, assign_outside fun hc => hx (.inr hc), Owners.release,
        if_neg fun hc => hx (.inl hc)]

/-- A loose block is put in its free list as it is. -/
theorem Rep.freeUnmerged (hb : own b = some (.block b k .loose))
    (hbuddy : k < MAX_ORDER - 1 → own (b ^^^ 2 ^ k) ≠ some (.block (b ^^^ 2 ^ k) k .global)) :
    ∃ own', Listed p own (p.pushToGlobal b k) own' ∧ own'.usage = own.usage.release b k :=
  ⟨_, h.listed_pushToGlobal hb trivial hbuddy, usage_assign_listed id⟩

/-- A loose block is given back to the free lists. -/
theorem Rep.freeAndMerge (hb : own b = some (.block b k .loose)) :
    ∃ own', Listed p own (p.freeAndMerge b k) own' ∧ own'.usage = own.usage.release b k := by
  -- The order goes up with every merge.
  induction hn : MAX_ORDER - 1 - k generalizing p own b k with
  | zero =>
    rw [Pmm.freeAndMerge, dif_neg (by omega)]
    exact h.freeUnmerged hb fun hlt => absurd hlt (by omega)
  | succ n ih =>
    have hk : k < MAX_ORDER - 1 := by omega
    rw [Pmm.freeAndMerge, dif_pos hk]
    simp only []
    split
    · next hout =>
      refine h.freeUnmerged hb fun _ hown => ?_
      have := (h.bound (x := b ^^^ 2 ^ k) (by simp [hown])).1
      omega
    · split
      · next htag =>
        refine h.freeUnmerged hb fun _ hown => ?_
        obtain ⟨horder, hstate⟩ := h.tag hown (by simp)
        exact htag.elim (fun hne => hne hstate) fun hne => hne horder
      · next htag =>
        simp only [ne_eq, not_or, Decidable.not_not] at htag
        obtain ⟨o, ho⟩ := h.free htag.1
        obtain rfl : o = k := (h.tag ho (by simp)).1.symm.trans htag.2
        obtain ⟨own', hquiet, hself, husage⟩ := h.mergeBuddy hb ho hk
        obtain ⟨own'', hquiet', husage'⟩ := ih hquiet.rep hself (by omega)
        exact ⟨own'', hquiet.trans hquiet', husage'.trans husage⟩

/-! ### Taking blocks from the lists -/

theorem Rep.popShards (hpop : p.popShards k shards = (some b, p')) :
    own b = some (.block b k .global) ∧ p' = p.takeGlobal b k := by
  induction shards with
  | nil => simp [Pmm.popShards] at hpop
  | cons shard shards ih =>
    rw [Pmm.popShards] at hpop
    split at hpop
    · next idx hidx =>
      cases hpop
      obtain ⟨hb, rfl⟩ := h.head_global hidx
      exact ⟨hb, rfl⟩
    · exact ih hpop

end

theorem popShards_none (hpop : p.popShards k shards = (none, p')) : p' = p := by
  induction shards with
  | nil =>
    cases hpop
    rfl
  | cons shard shards ih =>
    rw [Pmm.popShards] at hpop
    split at hpop
    · cases hpop
    · exact ih hpop

/-- The lower half of a block is the buddy of the upper one. -/
theorem upper_xor (hal : 2 ^ (k + 1) ∣ b) : (b + 2 ^ k) ^^^ 2 ^ k = b := by
  have hlo : 2 ^ k ∣ b := Nat.dvd_trans (Nat.pow_dvd_pow 2 (Nat.le_succ k)) hal
  rcases TwoPow.buddy_cases hlo with ⟨-, heq⟩ | ⟨hal', heq⟩
  · rw [← heq, Nat.xor_assoc, Nat.xor_self, Nat.xor_zero]
  · -- Not both of two neighbours are multiples of twice their distance.
    have hdvd := (Nat.dvd_add_right hal').mp (heq ▸ hal)
    have := Nat.le_of_dvd (Nat.two_pow_pos k) hdvd
    rw [Nat.pow_succ] at *
    omega

/-- The upper parts of a block that is too large go to the free lists. -/
theorem Rep.splitDown (h : Rep p own) (hb : own b = some (.block b (k + n) pl)) (hpl : pl.Out) :
    ∃ own', Listed p own (splitDown b k n p) own' ∧ own' b = some (.block b k .loose) ∧
      own'.usage = (own.usage.release b (k + n)).assign b k .loose := by
  have hloose : Place.loose.Out := trivial
  induction n generalizing p own pl with
  | zero =>
    have hrep := h.loosen (h.whole.move hb trivial) fun x hx => ⟨_, h.whole.whole hb hx, .inr hpl⟩
    refine ⟨own.assign b k .loose, ⟨hrep, fun _ => h.whole.move_uninit hb, rfl, ?_⟩,
      assign_self, ?_⟩
    · exact (ListStep.relabel hrep (h.whole.relabels_move hb hpl hloose)).steps
    · rw [usage_assign hloose]
      funext x
      by_cases hx : b ≤ x ∧ x < b + 2 ^ k
      · rw [assign_inside hx, assign_inside hx]
      · rw [assign_outside hx, assign_outside hx]
        exact (if_neg hx).symm
  | succ n ih =>
    have hpow : 2 ^ (k + (n + 1)) = 2 ^ (k + n) * 2 := Nat.pow_succ ..
    have hcut := h.cut (k := k + n) hb hpl
    have hhi : (own.assign (b + 2 ^ (k + n)) (k + n) .loose).assign b (k + n) .loose
        (b + 2 ^ (k + n)) = some (.block (b + 2 ^ (k + n)) (k + n) .loose) := by
      rw [assign_outside (by omega), assign_self]
    have hself : (own.assign (b + 2 ^ (k + n)) (k + n) .loose).assign b (k + n) .loose b =
        some (.block b (k + n) .loose) := assign_self
    have hwrite := hcut.writeLoose hhi (hcut.whole.order hhi)
    have hpush := hwrite.listed_pushToGlobal hhi trivial fun _ hown => by
      rw [upper_xor (k := k + n) (h.whole.aligned hb), hself] at hown
      cases hown
    have hlo : ((own.assign (b + 2 ^ (k + n)) (k + n) .loose).assign b (k + n) .loose).assign
        (b + 2 ^ (k + n)) (k + n) .global b = some (.block b (k + n) .loose) := by
      rw [assign_outside (by omega), assign_self]
    obtain ⟨own', hquiet, hself', husage⟩ := ih hpush.rep hlo hloose
    have hsteps : ListSteps (p, own) (p.modifyFrame (b + 2 ^ (k + n)) fun _ => .detached (k + n),
        (own.assign (b + 2 ^ (k + n)) (k + n) .loose).assign b (k + n) .loose) :=
      (ListStep.relabel hcut (h.whole.relabels_cut hb hpl)).steps.tail
        (.write hhi (hcut.whole.order hhi))
    refine ⟨own', ⟨hquiet.rep, fun x => ?_, hquiet.regions.trans hpush.regions,
      (hsteps.trans hpush.steps).trans hquiet.steps⟩,
      hself', husage.trans ?_⟩
    · rw [hquiet.uninit, hpush.uninit]
      by_cases h1 : b ≤ x ∧ x < b + 2 ^ (k + n)
      · rw [assign_inside h1, h.whole.whole hb (by omega)]
        simp
      · rw [assign_outside h1]
        by_cases h2 : b + 2 ^ (k + n) ≤ x ∧ x < b + 2 ^ (k + n) + 2 ^ (k + n)
        · rw [assign_inside h2, h.whole.whole hb (by omega)]
          simp
        · rw [assign_outside h2]
    · congr 1
      rw [usage_assign_listed id, usage_assign hloose, usage_assign hloose]
      funext x
      simp only [Owners.release, Owners.assign]
      split_ifs <;> first | rfl | omega

/-- The metadata of a loose block are written, and the block is held. -/
theorem Rep.steps_hold (h : Rep p own) (hb : own b = some (.block b k .loose)) :
    ListSteps (p, own) (p.modifyFrame b fun _ => .detached k, own.assign b k .held) :=
  (ListStep.write hb (h.whole.order hb)).steps.tail
    (.relabel (h.hold hb) (h.whole.relabels_move hb trivial trivial))

/-- A block of a larger order is taken and split. -/
theorem Rep.allocFromHigher (h : Rep p own) (hle : ∀ o ∈ orders, k ≤ o)
    (halloc : p.allocFromHigher k cpu orders = (some b, p')) :
    ∃ own', Listed p own p' own' ∧ Owners.Taken own own' b k := by
  induction orders with
  | nil => simp [Pmm.allocFromHigher] at halloc
  | cons higher orders ih =>
    rw [Pmm.allocFromHigher] at halloc
    split at halloc
    · next idx p1 hpop =>
      cases halloc
      obtain ⟨hb, rfl⟩ := h.popShards hpop
      have htake := h.listed_takeGlobal hb
      have htaken := h.whole.taken hb id
      have hk : k + (higher - k) = higher := by
        have := hle higher mem_cons_self
        omega
      have hself : own.assign b higher .held b = some (.block b (k + (higher - k)) .held) := by
        rw [hk, assign_self]
      obtain ⟨own1, hquiet, hb1, husage⟩ := htake.rep.splitDown hself trivial
      have hheld : Place.held.Out := trivial
      refine ⟨own1.assign b k .held, ⟨hquiet.rep.hold hb1, fun x => ?_,
        hquiet.regions.trans htake.regions,
        (htake.steps.trans hquiet.steps).trans (hquiet.rep.steps_hold hb1)⟩, ?_, ?_⟩
      · rw [hquiet.rep.whole.move_uninit hb1, hquiet.uninit, htake.uninit]
      · intro x hx
        refine htaken.free x ⟨hx.1, hx.2.trans_le ?_⟩
        exact Nat.add_le_add_left (Nat.pow_le_pow_right (by decide) (by omega)) _
      · rw [usage_assign hheld, husage, hk, htaken.usage, htaken.free.release_assign,
          assign_assign]
    · next p1 hpop =>
      obtain rfl := popShards_none hpop
      exact ih (fun o ho => hle o (mem_cons_of_mem _ ho)) halloc

theorem allocFromHigher_none (halloc : p.allocFromHigher k cpu orders = (none, p')) : p' = p := by
  induction orders with
  | nil =>
    cases halloc
    rfl
  | cons higher orders ih =>
    rw [Pmm.allocFromHigher] at halloc
    split at halloc
    · cases halloc
    · next p1 hpop =>
      obtain rfl := popShards_none hpop
      exact ih halloc

theorem Rep.allocFromList (h : Rep p own) (halloc : p.allocFromList k cpu = (some b, p')) :
    ∃ own', Listed p own p' own' ∧ Owners.Taken own own' b k := by
  rw [Pmm.allocFromList] at halloc
  split at halloc
  · next idx p1 hpop =>
    cases halloc
    obtain ⟨hb, rfl⟩ := h.popShards hpop
    exact ⟨_, h.listed_takeGlobal hb, h.whole.taken hb id⟩
  · next p1 hpop =>
    obtain rfl := popShards_none hpop
    refine h.allocFromHigher (fun o ho => ?_) halloc
    obtain ⟨i, -, rfl⟩ := mem_map.mp ho
    omega

theorem allocFromList_none (halloc : p.allocFromList k cpu = (none, p')) : p' = p := by
  rw [Pmm.allocFromList] at halloc
  split at halloc
  · cases halloc
  · next p1 hpop =>
    obtain rfl := popShards_none hpop
    exact allocFromHigher_none halloc

end Quiet

/-! ## Regions -/

/-- The invariant of the allocator: the lists and the regions agree with the owners. -/
structure Inv (p : Pmm) (own : Owners) : Prop extends Rep p own where
  uninit : ∀ x, own x = some .uninit ↔
    ∃ (i : Nat) (r : UninitRegion), p.regions[i]? = some (some r) ∧ r.startPfn ≤ x ∧ x < r.endPfn
  apart : ∀ (i j : Nat) (r r' : UninitRegion), p.regions[i]? = some (some r) →
    p.regions[j]? = some (some r') → i ≠ j → r.endPfn ≤ r'.startPfn ∨ r'.endPfn ≤ r.startPfn

theorem Inv.quiet (h : Inv p own) (hq : Quiet p own p' own') : Inv p' own' where
  toRep := hq.rep
  uninit x := by
    rw [hq.uninit, hq.regions]
    exact h.uninit x
  apart := by
    rw [hq.regions]
    exact h.apart

theorem two_pow_trailingZeros_dvd (hn : n ≠ 0) : 2 ^ trailingZeros n ∣ n := by
  induction n using Nat.strongRecOn with
  | _ n ih =>
    rw [trailingZeros, dif_neg hn]
    split
    · simp
    · obtain ⟨m, rfl⟩ : 2 ∣ n := by omega
      rw [Nat.mul_div_cancel_left m (by decide), Nat.pow_succ, Nat.mul_comm 2 m]
      exact Nat.mul_dvd_mul_right (ih m (by omega) (by omega)) 2

/-- The next block of the gap is aligned, has an order of the allocator and ends in the
gap. -/
theorem gapOrder_spec (h : cursor < aligned) :
    2 ^ gapOrder cursor aligned ∣ cursor ∧ cursor + 2 ^ gapOrder cursor aligned ≤ aligned ∧
      gapOrder cursor aligned < MAX_ORDER := by
  refine ⟨?_, ?_, ?_⟩
  · by_cases hc : cursor = 0
    · simp [hc]
    · exact Nat.dvd_trans (Nat.pow_dvd_pow 2 (Nat.min_le_right ..)) (two_pow_trailingZeros_dvd hc)
  · have hle : 2 ^ gapOrder cursor aligned ≤ 2 ^ Nat.log 2 (aligned - cursor) :=
      Nat.pow_le_pow_right (by decide) (by unfold gapOrder; omega)
    have := Nat.pow_log_le_self 2 (x := aligned - cursor) (by omega)
    omega
  · unfold gapOrder MAX_ORDER
    omega

/-- The next block of the gap, with its metadata written. -/
theorem Rep.gapLoose (h : Rep p own) (hlt : cursor < aligned)
    (hfree : ∀ x, cursor ≤ x ∧ x < aligned → own x = some .uninit) :
    Rep (p.modifyFrame cursor fun _ => .detached (gapOrder cursor aligned))
        (own.assign cursor (gapOrder cursor aligned) .loose) ∧
      ListSteps (p, own) (p.modifyFrame cursor fun _ => .detached (gapOrder cursor aligned),
        own.assign cursor (gapOrder cursor aligned) .loose) := by
  obtain ⟨hal, hle, hk⟩ := gapOrder_spec hlt
  have hin : ∀ x, cursor ≤ x ∧ x < cursor + 2 ^ gapOrder cursor aligned → own x = some .uninit :=
    fun x hx => hfree x (by omega)
  have hloose : Rep p (own.assign cursor (gapOrder cursor aligned) .loose) := by
    refine h.loosen (h.whole.assign hal hk trivial fun x c j q hx hc => ?_) fun x hx => ?_
    · rw [hin x hx] at hc
      cases hc
    · exact ⟨_, hin x hx, .inl rfl⟩
  have hrelabel : own.Relabels (own.assign cursor (gapOrder cursor aligned) .loose) :=
    relabels_assign trivial fun x hx => ⟨_, hin x hx, .inl rfl⟩
  exact ⟨hloose.writeLoose assign_self hk,
    (ListStep.relabel hloose hrelabel).steps.tail (.write assign_self hk)⟩

/-- One round of the loop: the next block of the gap goes to the free lists. -/
theorem Rep.gapBlock (h : Rep p own) (hlt : cursor < aligned)
    (hfree : ∀ x, cursor ≤ x ∧ x < aligned → own x = some .uninit) :
    let p' := (p.modifyFrame cursor fun _ => .detached (gapOrder cursor aligned)).freeAndMerge cursor
      (gapOrder cursor aligned)
    ∃ own', Rep p' own' ∧ own'.usage = own.usage ∧
      (∀ x, own' x = some .uninit ↔
        own x = some .uninit ∧ ¬ (cursor ≤ x ∧ x < cursor + 2 ^ gapOrder cursor aligned)) ∧
      p'.regions = p.regions ∧ ListSteps (p, own) (p', own') := by
  obtain ⟨hloose, hsteps⟩ := h.gapLoose hlt hfree
  obtain ⟨-, hle, -⟩ := gapOrder_spec hlt
  obtain ⟨own', hlisted, husage⟩ := hloose.freeAndMerge assign_self
  refine ⟨own', hlisted.rep, ?_, fun x => ?_, hlisted.regions, hsteps.trans hlisted.steps⟩
  · have hfree' : own.Free cursor (gapOrder cursor aligned) := by
      intro x hx
      simp [Owners.usage, hfree x (by omega), Owner.Out]
    have hout : Place.loose.Out := trivial
    rw [husage, usage_assign hout, hfree'.release_assign]
  · rw [hlisted.uninit]
    by_cases hx : cursor ≤ x ∧ x < cursor + 2 ^ gapOrder cursor aligned
    · simp [assign_inside hx, hx]
    · simp [assign_outside hx, hx]

/-- The frames before the first aligned one go to the free lists. -/
theorem Rep.freeGap (h : Rep p own) (hfree : ∀ x, cursor ≤ x ∧ x < aligned → own x = some .uninit) :
    ∃ own', Rep (p.freeGap cursor aligned) own' ∧ own'.usage = own.usage ∧
      (∀ x, own' x = some .uninit ↔ own x = some .uninit ∧ ¬ (cursor ≤ x ∧ x < aligned)) ∧
      (p.freeGap cursor aligned).regions = p.regions ∧
      ListSteps (p, own) (p.freeGap cursor aligned, own') := by
  induction hn : aligned - cursor using Nat.strongRecOn generalizing p own cursor with
  | _ n ih =>
    rw [Pmm.freeGap]
    split
    · next hlt =>
      have hpos := Nat.two_pow_pos (gapOrder cursor aligned)
      obtain ⟨-, hle, -⟩ := gapOrder_spec hlt
      obtain ⟨own1, hrep, husage, huninit, hregions, hsteps⟩ := h.gapBlock hlt hfree
      obtain ⟨own', hrep', husage', huninit', hregions', hsteps'⟩ :=
        ih (aligned - (cursor + 2 ^ gapOrder cursor aligned)) (by omega) hrep
          (fun x hx => (huninit x).mpr ⟨hfree x (by omega), by omega⟩) rfl
      refine ⟨own', hrep', husage'.trans husage, fun x => ?_, hregions'.trans hregions,
        hsteps.trans hsteps'⟩
      rw [huninit', huninit, and_assoc]
      refine and_congr_right fun _ => ?_
      omega
    · next hge =>
      refine ⟨own, h, rfl, fun x => ?_, rfl, .refl⟩
      have : ¬ (cursor ≤ x ∧ x < aligned) := by omega
      simp [this]

section Regions

variable {r : UninitRegion}

/-- What is left of a region after its frames below `a` are used. -/
theorem mem_remaining (hle : r.startPfn ≤ a) :
    (∃ r', (if a = r.endPfn then none else some { r with startPfn := a }) = some r' ∧
        r'.startPfn ≤ x ∧ x < r'.endPfn) ↔
      (r.startPfn ≤ x ∧ x < r.endPfn) ∧ a ≤ x := by
  by_cases heq : a = r.endPfn
  · simp only [heq, if_true, reduceCtorEq, false_and, exists_false, false_iff]
    omega
  · simp only [heq, if_false, Option.some.injEq, exists_eq_left']
    omega

/-- The frames of a region below `a` are given to somebody else, and the region starts
at `a`. -/
theorem Inv.shrinkRegion (h : Inv p own) (hr : p.regions[i]? = some (some r)) (hle : r.startPfn ≤ a)
    (hend : a ≤ r.endPfn) (hrep : Rep p' own') (hregions : p'.regions =
      p.regions.set i (if a = r.endPfn then none else some { r with startPfn := a }))
    (huninit : ∀ x, own' x = some .uninit ↔
      own x = some .uninit ∧ ¬ (r.startPfn ≤ x ∧ x < a)) : Inv p' own' := by
  have hi : i < p.regions.length := (List.getElem?_eq_some_iff.mp hr).1
  have hget : ∀ j, j ≠ i → p'.regions[j]? = p.regions[j]? := by
    intro j hj
    rw [hregions, getElem?_set_ne (Ne.symm hj)]
  have hself : p'.regions[i]? =
      some (if a = r.endPfn then none else some { r with startPfn := a }) := by
    rw [hregions, getElem?_set_self hi]
  have hsub : ∀ (j : Nat) (r' : UninitRegion), p'.regions[j]? = some (some r') →
      ∃ r0 : UninitRegion, p.regions[j]? = some (some r0) ∧ r0.startPfn ≤ r'.startPfn ∧
        r'.endPfn = r0.endPfn := by
    intro j r' hj
    by_cases hji : j = i
    · subst hji
      rw [hself] at hj
      split at hj
      · simp at hj
      · simp only [Option.some.injEq] at hj
        subst hj
        exact ⟨r, hr, hle, rfl⟩
    · rw [hget j hji] at hj
      exact ⟨r', hj, Nat.le_refl _, rfl⟩
  refine ⟨hrep, fun x => ?_, fun j j' r1 r2 h1 h2 hne => ?_⟩
  · rw [huninit, h.uninit]
    constructor
    · rintro ⟨⟨j, r', hj, hx⟩, hout⟩
      by_cases hji : j = i
      · subst hji
        rw [hr] at hj
        cases hj
        obtain ⟨r'', heq, hx'⟩ := (mem_remaining hle).mpr ⟨hx, by omega⟩
        exact ⟨j, r'', by rw [hself, heq], hx'⟩
      · exact ⟨j, r', (hget j hji).trans hj, hx⟩
    · rintro ⟨j, r', hj, hx⟩
      by_cases hji : j = i
      · subst hji
        rw [hself, Option.some.injEq] at hj
        obtain ⟨hx', hax⟩ := (mem_remaining hle).mp ⟨r', hj, hx⟩
        exact ⟨⟨j, r, hr, hx'⟩, by omega⟩
      · rw [hget j hji] at hj
        refine ⟨⟨j, r', hj, hx⟩, ?_⟩
        have := h.apart j i r' r hj hr hji
        omega
  · obtain ⟨r1', hr1, hs1, he1⟩ := hsub j r1 h1
    obtain ⟨r2', hr2, hs2, he2⟩ := hsub j' r2 h2
    have := h.apart j j' r1' r2' hr1 hr2 hne
    omega

/-- The frames of a region are not initialised. -/
theorem Inv.region_uninit (h : Inv p own) (hr : p.regions.getD i none = some r)
    (hx : r.startPfn ≤ x ∧ x < r.endPfn) : own x = some .uninit := by
  refine (h.uninit x).mpr ⟨i, r, ?_, hx⟩
  rw [getD_eq_getElem?_getD] at hr
  cases hget : p.regions[i]? with
  | none =>
    rw [hget] at hr
    cases hr
  | some entry =>
    rw [hget, Option.getD_some] at hr
    rw [hr]

/-- A block is taken from a region, and the gap before it goes to the free lists. -/
theorem Inv.allocFromRegions (h : Inv p own) (hk : k < MAX_ORDER)
    (halloc : p.allocFromRegions k is = (some b, p')) :
    ∃ own', Inv p' own' ∧ own' b = some (.block b k .loose) ∧ own.Free b k ∧
      own'.usage = own.usage.assign b k .loose ∧ ListSteps (p, own) (p', own') := by
  induction is with
  | nil => simp [Pmm.allocFromRegions] at halloc
  | cons i is ih =>
    rw [Pmm.allocFromRegions] at halloc
    simp only [] at halloc
    split at halloc
    · next r hr =>
      have hr : p.regions[i]? = some (some r) := by
        rw [getD_eq_getElem?_getD] at hr
        cases hget : p.regions[i]? with
        | none => simp [hget] at hr
        | some o =>
          rw [hget, Option.getD_some] at hr
          rw [hr]
      split at halloc
      · next hfit =>
        have hpos := Nat.two_pow_pos k
        obtain ⟨hle, -, hal⟩ := TwoPow.roundUp_spec (n := r.startPfn) hpos
        rw [Prod.mk.injEq, Option.some.injEq] at halloc
        obtain ⟨hb, rfl⟩ := halloc
        rw [hb] at hfit ⊢
        have hb' : (r.startPfn + 2 ^ k - 1) / 2 ^ k * 2 ^ k = b := hb
        rw [hb'] at hle hal
        have hin : ∀ x, r.startPfn ≤ x ∧ x < r.endPfn → own x = some .uninit :=
          fun x hx => (h.uninit x).mpr ⟨i, r, hr, hx⟩
        have hgap : ∀ x, r.startPfn ≤ x ∧ x < b → own x = some .uninit :=
          fun x hx => hin x ⟨hx.1, by omega⟩
        obtain ⟨own1, hrep, husage, huninit, hregions, hsteps⟩ := h.toRep.freeGap hgap
        have hin1 : ∀ x, b ≤ x ∧ x < b + 2 ^ k → own1 x = some .uninit :=
          fun x hx => (huninit x).mpr ⟨hin x (by omega), by omega⟩
        have hloose : Rep (p.freeGap r.startPfn b) (own1.assign b k .loose) := by
          refine hrep.loosen (hrep.whole.assign hal hk trivial fun x c j q hx hc => ?_) fun x hx => ?_
          · rw [hin1 x hx] at hc
            cases hc
          · exact ⟨_, hin1 x hx, .inl rfl⟩
        have hout : Place.loose.Out := trivial
        have hrelabel : own1.Relabels (own1.assign b k .loose) :=
          relabels_assign hout fun x hx => ⟨_, hin1 x hx, .inl rfl⟩
        refine ⟨own1.assign b k .loose, ?_, assign_self, fun x hx => ?_, ?_,
          (hsteps.tail (.relabel hloose hrelabel)).tail .region⟩
        · refine h.shrinkRegion (a := b + 2 ^ k) hr (by omega) hfit ?_ ?_ fun x => ?_
          · exact hloose.congr rfl rfl rfl rfl rfl rfl
          · rw [hregions]
          · by_cases hx : b ≤ x ∧ x < b + 2 ^ k
            · rw [assign_inside hx]
              simp only [Option.some.injEq, reduceCtorEq, false_iff]
              omega
            · rw [assign_outside hx, huninit]
              refine and_congr_right fun _ => ?_
              omega
        · simp [Owners.usage, hin x (by omega), Owner.Out]
        · rw [usage_assign hout, husage]
      · exact ih halloc
    · exact ih halloc

theorem allocFromRegions_none (halloc : p.allocFromRegions k is = (none, p')) : p' = p := by
  induction is with
  | nil =>
    cases halloc
    rfl
  | cons i is ih =>
    rw [Pmm.allocFromRegions] at halloc
    simp only [] at halloc
    split at halloc
    · split at halloc
      · cases halloc
      · exact ih halloc
    · exact ih halloc

/-- A block is taken from the free lists or from a region. -/
theorem Inv.allocGlobal (h : Inv p own) (hk : k < MAX_ORDER)
    (halloc : p.allocGlobal k cpu = (some b, p')) :
    ∃ own', Inv p' own' ∧ Owners.Taken own own' b k ∧ ListSteps (p, own) (p', own') := by
  rw [Pmm.allocGlobal] at halloc
  split at halloc
  · next idx p1 hlist =>
    cases halloc
    obtain ⟨own', hquiet, htaken⟩ := h.toRep.allocFromList hlist
    exact ⟨own', h.quiet hquiet.quiet, htaken, hquiet.steps⟩
  · next p1 hlist =>
    obtain rfl := allocFromList_none hlist
    split at halloc
    · next idx p2 hregion =>
      cases halloc
      obtain ⟨own', hinv, hb, hfree, husage, hsteps⟩ := h.allocFromRegions hk hregion
      have hheld : Place.held.Out := trivial
      have hhold := hinv.toRep.steps_hold hb
      refine ⟨own'.assign b k .held, ?_, ⟨hfree, ?_⟩, hsteps.trans hhold⟩
      · exact hinv.quiet ⟨hinv.toRep.hold hb, fun _ => hinv.whole.move_uninit hb, rfl, rfl,
          hhold.steps⟩
      · rw [usage_assign hheld, husage, assign_assign]
    · cases halloc

theorem allocGlobal_none (halloc : p.allocGlobal k cpu = (none, p')) : p' = p := by
  rw [Pmm.allocGlobal] at halloc
  split at halloc
  · cases halloc
  · next p1 hlist =>
    obtain rfl := allocFromList_none hlist
    split at halloc
    · cases halloc
    · next p2 hregion =>
      cases halloc
      exact allocFromRegions_none hregion

end Regions

/-! ## Caches -/

section Caches

theorem percpuPopRaw_empty (hpop : p.percpuPopRaw cpu k = (none, p')) :
    (p.caches (cpu % MAX_CPUS)).heads k = none := by
  unfold Pmm.percpuPopRaw at hpop
  simp only [] at hpop
  split at hpop
  · cases hpop
  · assumption

theorem percpuPopRaw_none (hpop : p.percpuPopRaw cpu k = (none, p')) : p' = p := by
  unfold percpuPopRaw at hpop
  simp only [] at hpop
  split at hpop
  · cases hpop
  · cases hpop
    rfl

section

variable (h : Rep p own)

include h

theorem Rep.quiet_percpuPopRaw (hpop : p.percpuPopRaw cpu k = (some b, p')) :
    ∃ own', Quiet p own p' own' ∧ Owners.Taken own own' b k := by
  obtain ⟨hb, hrep⟩ := h.percpuPopRaw hpop
  have hrest := percpuPopRaw_rest p cpu k
  rw [hpop] at hrest
  refine ⟨_, ⟨hrep, fun _ => h.whole.move_uninit hb, ?_, hrest.allocatedFrames,
    (Step.cachePop hpop).steps⟩, h.whole.taken hb id⟩
  unfold Pmm.percpuPopRaw at hpop
  simp only [] at hpop
  split at hpop <;> cases hpop
  rfl

theorem Rep.quiet_percpuPushRaw (cpu : Nat) (hb : own b = some (.block b k .held)) :
    ∃ own', Quiet p own (p.percpuPushRaw cpu b k) own' ∧ own'.usage = own.usage.release b k :=
  ⟨_, ⟨h.percpuPushRaw hb trivial, fun _ => h.whole.move_uninit hb, rfl, rfl,
    (Step.cachePush cpu hb).steps⟩, usage_assign_listed id⟩

/-- A held block may be taken as a loose one, -/
theorem Rep.loosenHeld (hb : own b = some (.block b k .held)) :
    Rep p (own.assign b k .loose) ∧ ListSteps (p, own) (p, own.assign b k .loose) := by
  have hheld : Place.held.Out := trivial
  have hloose : Place.loose.Out := trivial
  have hrep := h.loosen (h.whole.move hb trivial) fun x hx => ⟨_, h.whole.whole hb hx, .inr hheld⟩
  exact ⟨hrep, (ListStep.relabel hrep (h.whole.relabels_move hb hheld hloose)).steps⟩

/-- and so it may be freed as well. -/
theorem Rep.freeHeld (hb : own b = some (.block b k .held)) :
    ∃ own', Listed p own (p.freeAndMerge b k) own' ∧ own'.usage = own.usage.release b k := by
  have hloose : Place.loose.Out := trivial
  obtain ⟨hrep, hsteps⟩ := h.loosenHeld hb
  obtain ⟨own', hquiet, husage⟩ := hrep.freeAndMerge assign_self
  refine ⟨own', ⟨hquiet.rep, fun x => ?_, hquiet.regions,
    hsteps.trans hquiet.steps⟩, husage.trans ?_⟩
  · rw [hquiet.uninit, h.whole.move_uninit hb]
  · funext x
    by_cases hx : b ≤ x ∧ x < b + 2 ^ k
    · simp [Owners.release, hx]
    · simp [Owners.release, hx, usage_assign hloose, assign_outside hx]

/-- Draining a cache only reorganises memory. -/
theorem Rep.drainCache (cpu k n : Nat) :
    ∃ own', Quiet p own (drainCache cpu k n p) own' ∧ own'.usage = own.usage := by
  induction n generalizing p own with
  | zero => exact ⟨own, .refl h, rfl⟩
  | succ n ih =>
    rw [Pmm.drainCache]
    split
    · next b p1 hpop =>
      obtain ⟨own1, hquiet1, htaken⟩ := h.quiet_percpuPopRaw hpop
      obtain ⟨own2, hquiet2, husage2⟩ := hquiet1.rep.freeHeld htaken.self
      obtain ⟨own3, hquiet3, husage3⟩ := ih hquiet2.rep
      refine ⟨own3, (hquiet1.trans hquiet2.quiet).trans hquiet3, ?_⟩
      rw [husage3, husage2, htaken.usage, htaken.free.release_assign]
    · next p1 hpop =>
      obtain rfl := percpuPopRaw_none hpop
      exact ⟨own, .refl h, rfl⟩

/-- Draining a list as often as it has blocks empties it. -/
theorem Rep.drainCache_empty (hl : Chain p.next ((p.caches (cpu % MAX_CPUS)).heads k) l)
    (hn : l.length ≤ n) : ((Pmm.drainCache cpu k n p).caches (cpu % MAX_CPUS)).heads k = none := by
  induction n generalizing p own l with
  | zero =>
    obtain rfl := length_eq_zero_iff.mp (Nat.le_zero.mp hn)
    exact hl
  | succ n ih =>
    rw [Pmm.drainCache]
    split
    · next b p1 hpop =>
      obtain ⟨hb, hrep1⟩ := h.percpuPopRaw hpop
      obtain ⟨own2, hquiet2, -⟩ := hrep1.freeHeld assign_self
      have hsame : (own.assign b k .held).SameStores own2 := (hquiet2.steps.stores hrep1).2.1
      obtain ⟨l2, hl2, hmem2⟩ := hquiet2.rep.cache (cpu % MAX_CPUS) k
      refine ih hquiet2.rep hl2 ?_
      -- The blocks left are those of the list but for the first one.
      obtain ⟨l0, hl0, hmem0⟩ := h.cache (cpu % MAX_CPUS) k
      obtain rfl := hl0.unique hl
      have hsub : ∀ f ∈ b :: l2, f ∈ l0 := by
        intro f hf
        rw [hmem0]
        rcases mem_cons.mp hf with rfl | hf
        · exact hb
        · rw [hmem2, hsame f k _ (by simp) id, h.whole.move_start hb] at hf
          rcases hf with ⟨-, -, hc⟩ | ⟨-, hf⟩
          · cases hc
          · exact hf
      have hnd : (b :: l2).Nodup := by
        refine nodup_cons.mpr ⟨fun hf => ?_, hl2.nodup⟩
        rw [hmem2, hsame b k _ (by simp) id, assign_self] at hf
        cases hf
      have := (hnd.subperm hsub).length_le
      rw [length_cons] at this
      omega
    · next p1 hpop =>
      rw [percpuPopRaw_none hpop]
      exact percpuPopRaw_empty hpop

/-- The fuel of `drainPercpuAll` is enough: a list has no more blocks than there are
frames. -/
theorem Rep.drainCache_totalFrames :
    ((Pmm.drainCache cpu k p.totalFrames p).caches (cpu % MAX_CPUS)).heads k = none := by
  obtain ⟨l, hl, hmem⟩ := h.cache (cpu % MAX_CPUS) k
  refine h.drainCache_empty hl ?_
  have hsub : ∀ f ∈ l, f ∈ List.range p.totalFrames := by
    intro f hf
    rw [mem_range]
    exact (h.bound (by simp [(hmem f).mp hf])).1
  have := (hl.nodup.subperm hsub).length_le
  rwa [length_range] at this

theorem Rep.percpuPush (cpu : Nat) (hb : own b = some (.block b k .held)) :
    ∃ own', Quiet p own (p.percpuPush cpu b k) own' ∧ own'.usage = own.usage.release b k := by
  obtain ⟨own1, hquiet1, husage1⟩ := h.quiet_percpuPushRaw cpu hb
  obtain ⟨own2, hquiet2, husage2⟩ := hquiet1.rep.drainCache cpu k
    (((p.percpuPushRaw cpu b k).caches (cpu % MAX_CPUS)).counts k - perCpuLimit k)
  exact ⟨own2, hquiet1.trans hquiet2, husage2.trans husage1⟩

/-- Emptying the caches only reorganises memory. -/
theorem Rep.compact : ∃ own', Quiet p own p.compact own' ∧ own'.usage = own.usage := by
  have hfold : ∀ (slots : List (Nat × Nat)) {p own}, Rep p own → ∃ own',
      Quiet p own (slots.foldl (fun p slot => Pmm.drainCache slot.1 slot.2 p.totalFrames p) p)
        own' ∧ own'.usage = own.usage := by
    intro slots
    induction slots with
    | nil => exact fun {p own} h => ⟨own, .refl h, rfl⟩
    | cons slot slots ih =>
      intro p own h
      obtain ⟨own1, hquiet1, husage1⟩ := h.drainCache slot.1 slot.2 p.totalFrames
      obtain ⟨own2, hquiet2, husage2⟩ := ih hquiet1.rep
      exact ⟨own2, hquiet1.trans hquiet2, husage2.trans husage1⟩
  exact hfold cacheSlots h

end

/-- The rest of a batch goes to the cache. -/
theorem Inv.refillLoop_some (h : Inv p own) (hk : k < MAX_ORDER) (cpu b n : Nat) :
    ∃ own', Inv (refillLoop cpu k n (some b) p).2 own' ∧ own'.usage = own.usage ∧
      (refillLoop cpu k n (some b) p).1 = some b ∧
      Steps (p, own) ((refillLoop cpu k n (some b) p).2, own') := by
  induction n generalizing p own with
  | zero => exact ⟨own, h, rfl, rfl, .refl⟩
  | succ n ih =>
    rw [refillLoop]
    split
    · next c p1 halloc =>
      obtain ⟨own1, hinv1, htaken, hsteps1⟩ := h.allocGlobal hk halloc
      obtain ⟨own2, hquiet2, husage2⟩ := hinv1.toRep.quiet_percpuPushRaw cpu htaken.self
      obtain ⟨own3, hinv3, husage3, hfirst, hsteps3⟩ := ih (hinv1.quiet hquiet2)
      refine ⟨own3, hinv3, ?_, hfirst, (hsteps1.steps.trans hquiet2.steps).trans hsteps3⟩
      rw [husage3, husage2, htaken.usage, htaken.free.release_assign]
    · next p1 halloc =>
      obtain rfl := allocGlobal_none halloc
      exact ⟨own, h, rfl, rfl, .refl⟩

/-- A batch is taken, and its first block is handed out. -/
theorem Inv.percpuRefill (h : Inv p own) (hk : k < MAX_ORDER)
    (halloc : p.percpuRefill cpu k = (some b, p')) :
    ∃ own', Inv p' own' ∧ Owners.Taken own own' b k ∧ Steps (p, own) (p', own') := by
  unfold Pmm.percpuRefill at halloc
  cases hn : perCpuBatch k with
  | zero => simp [hn, refillLoop] at halloc
  | succ n =>
    rw [hn, refillLoop] at halloc
    split at halloc
    · next c p1 hfirst =>
      obtain ⟨own1, hinv1, htaken, hsteps1⟩ := h.allocGlobal hk hfirst
      obtain ⟨own2, hinv2, husage2, hc, hsteps2⟩ := hinv1.refillLoop_some hk cpu c n
      simp only [halloc, Option.some.injEq] at hc hinv2 hsteps2
      subst hc
      exact ⟨own2, hinv2, htaken.trans husage2, hsteps1.steps.trans hsteps2⟩
    · cases halloc

/-- The first block of a batch is the one handed out. -/
theorem refillLoop_first (cpu k n b : Nat) (p : Pmm) : (refillLoop cpu k n (some b) p).1 = some b := by
  induction n generalizing p with
  | zero => rfl
  | succ n ih =>
    rw [refillLoop]
    split
    · exact ih _
    · rfl

theorem percpuRefill_none (halloc : p.percpuRefill cpu k = (none, p')) : p' = p := by
  unfold percpuRefill at halloc
  cases hn : perCpuBatch k with
  | zero =>
    rw [hn] at halloc
    cases halloc
    rfl
  | succ n =>
    rw [hn, refillLoop] at halloc
    split at halloc
    · next c p1 hfirst =>
      have hsome := refillLoop_first cpu k n c p1
      simp only [] at halloc
      rw [halloc] at hsome
      cases hsome
    · next p1 hfirst =>
      cases halloc
      exact allocGlobal_none hfirst

end Caches

/-! ## Calls -/

section Calls

/-- The counters of the statistics are not part of the invariant. -/
theorem Inv.congr (h : Inv p own) (hframes : p'.frames = p.frames) (hlists : p'.lists = p.lists)
    (hcaches : p'.caches = p.caches) (hreserve : p'.reserveHead = p.reserveHead)
    (htotal : p'.totalFrames = p.totalFrames) (hmeta : p'.metadata = p.metadata)
    (hregions : p'.regions = p.regions) : Inv p' own where
  toRep := h.toRep.congr hframes hlists hcaches hreserve htotal hmeta
  uninit := by
    rw [hregions]
    exact h.uninit
  apart := by
    rw [hregions]
    exact h.apart

theorem reservePop_none (hpop : p.reservePop = (none, p')) : p' = p := by
  unfold reservePop at hpop
  split at hpop
  · cases hpop
  · cases hpop
    rfl

theorem Rep.quiet_reservePop (h : Rep p own) (hpop : p.reservePop = (some b, p')) :
    ∃ own', Quiet p own p' own' ∧ Owners.Taken own own' b 0 := by
  obtain ⟨hb, hrep⟩ := h.reservePop hpop
  have hrest := reservePop_rest p
  rw [hpop] at hrest
  refine ⟨_, ⟨hrep, fun _ => h.whole.move_uninit hb, ?_, hrest.allocatedFrames,
    (Step.reservePop hpop).steps⟩, h.whole.taken hb id⟩
  unfold Pmm.reservePop at hpop
  split at hpop <;> cases hpop
  rfl

theorem Rep.quiet_reservePush (h : Rep p own) (hb : own b = some (.block b 0 .held))
    (hroom : p.reserveCount < reserveTarget) :
    ∃ own', Quiet p own (p.reservePush b) own' ∧ own'.usage = own.usage.release b 0 :=
  ⟨_, ⟨h.reservePush hb trivial, fun _ => h.whole.move_uninit hb, rfl, rfl,
    (Step.reservePush hb hroom).steps⟩, usage_assign_listed id⟩

/-- Filling the reserve only reorganises memory. -/
theorem Inv.initReserve (h : Inv p own) (hroom : p.reserveCount + n ≤ reserveTarget) :
    ∃ own', Inv (initReserve n p) own' ∧ own'.usage = own.usage ∧
      (initReserve n p).allocatedFrames = p.allocatedFrames ∧
      Steps (p, own) (initReserve n p, own') := by
  induction n generalizing p own with
  | zero => exact ⟨own, h, rfl, rfl, .refl⟩
  | succ n ih =>
    rw [Pmm.initReserve]
    split
    · next b p1 halloc =>
      obtain ⟨own1, hinv1, htaken, hsteps1⟩ := h.allocGlobal (by decide) halloc
      have hlists := allocGlobal_listsOnly p 0 0
      rw [halloc] at hlists
      have hcount : p1.reserveCount = p.reserveCount := hlists.reserveCount
      obtain ⟨own2, hquiet2, husage2⟩ :=
        hinv1.toRep.quiet_reservePush htaken.self (by omega)
      have hroom2 : p1.reserveCount + 1 + n ≤ reserveTarget := by omega
      obtain ⟨own3, hinv3, husage3, heq3, hsteps3⟩ := ih (hinv1.quiet hquiet2) hroom2
      refine ⟨own3, hinv3, ?_, heq3.trans (hquiet2.allocated.trans hlists.allocatedFrames),
        (hsteps1.steps.trans hquiet2.steps).trans hsteps3⟩
      rw [husage3, husage2, htaken.usage, htaken.free.release_assign]
    · next p1 halloc =>
      obtain rfl := allocGlobal_none halloc
      exact ⟨own, h, rfl, rfl, .refl⟩

/-- A block is found in one of the four places. -/
theorem Inv.findBlock (h : Inv p own) (hk : k < MAX_ORDER)
    (hfind : p.findBlock k cpu = (some b, p')) :
    ∃ own', Inv p' own' ∧ Owners.Taken own own' b k ∧ Steps (p, own) (p', own') := by
  unfold Pmm.findBlock at hfind
  split at hfind
  · next idx p1 hpop =>
    cases hfind
    obtain ⟨own', hquiet, htaken⟩ := h.toRep.quiet_percpuPopRaw hpop
    exact ⟨own', h.quiet hquiet, htaken, hquiet.steps⟩
  · next p1 hpop =>
    obtain rfl := percpuPopRaw_none hpop
    split at hfind
    · next idx p2 hrefill =>
      cases hfind
      exact h.percpuRefill hk hrefill
    · next p2 hrefill =>
      obtain rfl := percpuRefill_none hrefill
      split at hfind
      · next idx p3 hglobal =>
        cases hfind
        obtain ⟨own', hinv, htaken, hsteps⟩ := h.allocGlobal hk hglobal
        exact ⟨own', hinv, htaken, hsteps.steps⟩
      · next p3 hglobal =>
        obtain rfl := allocGlobal_none hglobal
        split at hfind
        · next hzero =>
          subst hzero
          obtain ⟨own', hquiet, htaken⟩ := h.toRep.quiet_reservePop hfind
          exact ⟨own', h.quiet hquiet, htaken, hquiet.steps⟩
        · cases hfind

/-- A search that finds nothing changes nothing. -/
theorem findBlock_none (hfind : p.findBlock k cpu = (none, p')) : p' = p := by
  unfold findBlock at hfind
  split at hfind
  · cases hfind
  · next p1 hpop =>
    obtain rfl := percpuPopRaw_none hpop
    split at hfind
    · cases hfind
    · next p2 hrefill =>
      obtain rfl := percpuRefill_none hrefill
      split at hfind
      · cases hfind
      · next p3 hglobal =>
        obtain rfl := allocGlobal_none hglobal
        split at hfind
        · exact reservePop_none hfind
        · cases hfind
          rfl

/-- What a call of `allocate` does: its result, and the counter of allocated frames. -/
inductive AllocSpec (own own' : Owners) (k before : Nat) : AllocResult → Nat → Prop
  | frame {b : Nat} (htaken : Owners.Taken own own' b k) :
      AllocSpec own own' k before (.frame b) (before + 2 ^ k)
  | none (husage : own'.usage = own.usage) : AllocSpec own own' k before .none before
  | panic {after : Nat} : AllocSpec own own' k before .panic after

theorem AllocSpec.of_frame (h : AllocSpec own own' k before (.frame b) after) :
    Owners.Taken own own' b k ∧ after = before + 2 ^ k := by
  cases h with
  | frame htaken => exact ⟨htaken, rfl⟩

theorem AllocSpec.of_none (h : AllocSpec own own' k before .none after) :
    own'.usage = own.usage ∧ after = before := by
  cases h with
  | none husage => exact ⟨husage, rfl⟩

variable {own₀ : Owners}

theorem Inv.handOut (h : Inv p own) (htaken : Owners.Taken own₀ own b k) :
    Inv (p.handOut b k).2 own ∧
      AllocSpec own₀ own k p.allocatedFrames (p.handOut b k).1
        (p.handOut b k).2.allocatedFrames ∧ Steps (p, own) ((p.handOut b k).2, own) := by
  unfold Pmm.handOut
  simp only []
  have hinv : Inv { p with allocatedFrames := p.allocatedFrames + 2 ^ k } own :=
    h.congr rfl rfl rfl rfl rfl rfl rfl
  split
  · exact ⟨hinv, .frame htaken, Step.counters.steps⟩
  · exact ⟨hinv, .panic, Step.counters.steps⟩

/-- The second attempt, from a state with the same usage of memory. -/
theorem Inv.retryGlobal (h : Inv p own) (hk : k < MAX_ORDER) (husage : own.usage = own₀.usage)
    (hretry : p.retryGlobal k cpu = (r, p')) :
    ∃ own', Inv p' own' ∧ AllocSpec own₀ own' k p.allocatedFrames r p'.allocatedFrames ∧
      Steps (p, own) (p', own') := by
  unfold Pmm.retryGlobal at hretry
  split at hretry
  · next idx p1 halloc =>
    obtain ⟨own1, hinv1, htaken, hsteps⟩ := h.allocGlobal hk halloc
    have hlists := allocGlobal_listsOnly p k cpu
    rw [halloc] at hlists
    have htaken0 : Owners.Taken own₀ own1 idx k :=
      ⟨fun x hx => husage ▸ htaken.free x hx, husage ▸ htaken.usage⟩
    obtain ⟨hinv, hspec, hsteps'⟩ := hinv1.handOut htaken0
    rw [hretry] at hinv hspec hsteps'
    rw [hlists.allocatedFrames] at hspec
    exact ⟨own1, hinv, hspec, hsteps.steps.trans hsteps'⟩
  · next p1 halloc =>
    cases hretry
    rw [allocGlobal_none halloc]
    exact ⟨own, h, .none husage, .refl⟩

theorem Inv.counters (h : Inv p own) (calls last : Nat) :
    Inv { p with allocCalls := calls, compactLastAllocCall := last } own ∧
      Steps (p, own) ({ p with allocCalls := calls, compactLastAllocCall := last }, own) :=
  ⟨h.congr rfl rfl rfl rfl rfl rfl rfl, Step.counters.steps⟩

theorem Inv.allocate (h : Inv p own) (halloc : p.allocate rawCpu k = (r, p')) :
    ∃ own', Inv p' own' ∧ AllocSpec own own' k p.allocatedFrames r p'.allocatedFrames ∧
      Steps (p, own) (p', own') := by
  unfold Pmm.allocate at halloc
  split at halloc
  · cases halloc
    exact ⟨own, h, .none rfl, .refl⟩
  · next hk =>
    have hk : k < MAX_ORDER := by omega
    simp only [] at halloc
    obtain ⟨h0, hsteps0⟩ := h.counters ((p.allocCalls + 1) % 2 ^ 64) p.compactLastAllocCall
    have heq0 : { p with allocCalls := (p.allocCalls + 1) % 2 ^ 64 }.allocatedFrames =
      p.allocatedFrames := rfl
    rw [← heq0]
    generalize { p with allocCalls := (p.allocCalls + 1) % 2 ^ 64 } = q at h0 hsteps0 halloc
    split at halloc
    · next idx p1 hfind =>
      obtain ⟨own', hinv, htaken, hsteps⟩ := h0.findBlock hk hfind
      have hrest := findBlock_rest q k (currentCpuId rawCpu)
      rw [hfind] at hrest
      obtain ⟨hinv', hspec, hsteps'⟩ := hinv.handOut htaken
      rw [halloc] at hinv' hspec hsteps'
      rw [hrest.allocatedFrames] at hspec
      exact ⟨own', hinv', hspec, (hsteps0.trans hsteps).trans hsteps'⟩
    · next p1 hfind =>
      obtain rfl := findBlock_none hfind
      split at halloc
      · obtain ⟨h1, hsteps1⟩ := h0.counters p1.allocCalls p1.allocCalls
        obtain ⟨own1, hquiet1, husage1⟩ := h1.toRep.compact
        obtain ⟨own', hinv, hspec, hsteps⟩ := (h1.quiet hquiet1).retryGlobal hk husage1 halloc
        rw [hquiet1.allocated] at hspec
        exact ⟨own', hinv, hspec,
          ((hsteps0.trans hsteps1).trans hquiet1.steps).trans hsteps⟩
      · cases halloc
        exact ⟨own, h0, .none rfl, hsteps0⟩

theorem Inv.deallocate (h : Inv p own) (rawCpu : Nat) (hb : own b = some (.block b k .held)) :
    ∃ own', Inv (p.deallocate rawCpu b) own' ∧ own'.usage = own.usage.release b k ∧
      (p.deallocate rawCpu b).allocatedFrames = fetchSub p.allocatedFrames (2 ^ k) ∧
      Steps (p, own) (p.deallocate rawCpu b, own') := by
  have hbound := h.bound (x := b) (by simp [hb])
  obtain ⟨horder, hstate⟩ := h.tag hb (by simp)
  have hstate : (p.frames b).state = .Allocated := hstate
  unfold Pmm.deallocate
  rw [if_neg (by omega), hbound.2, if_neg (by simp), hstate, if_neg (by simp), horder]
  simp only []
  split
  · next hzero =>
    obtain ⟨rfl, hroom⟩ := hzero
    obtain ⟨own', hquiet, husage⟩ := h.toRep.quiet_reservePush hb hroom
    refine ⟨own', (h.quiet hquiet).congr rfl rfl rfl rfl rfl rfl rfl, husage, ?_,
      hquiet.steps.tail .counters⟩
    exact congrArg (fetchSub · (2 ^ 0)) hquiet.allocated
  · obtain ⟨own', hquiet, husage⟩ := h.toRep.percpuPush (currentCpuId rawCpu) hb
    refine ⟨own', (h.quiet hquiet).congr rfl rfl rfl rfl rfl rfl rfl, husage, ?_,
      hquiet.steps.tail .counters⟩
    exact congrArg (fetchSub · (2 ^ k)) hquiet.allocated

end Calls

end Pmm

end BoruixKernel
