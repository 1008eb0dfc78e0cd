import BoruixKernel.Lib.LinkedList
import BoruixKernel.Pmm.Owners

/-!
# The owners and the data structure

The invariant of the frame allocator.  `Rep p own` ties the owners to the data
structure: the lists of `p` hold exactly the blocks `own` says they hold, and the tags
in the metadata agree.

There is one lemma for each change of place (`Rep.pushToGlobal`, `Rep.takeGlobal`,
`Rep.percpuPushRaw`, …), and the relabelling of blocks that are in no list.
-/

namespace BoruixKernel

open LinkedList Owners

/-! ## The data structure -/

namespace Pmm

def next (p : Pmm) (f : Nat) : Option Nat := (p.frames f).next

def prev (p : Pmm) (f : Nat) : Option Nat := (p.frames f).prev

section Updates

variable (p : Pmm) (a : Nat) (g : BuddyFrame → BuddyFrame)

theorem modifyFrame_frames (f : Nat) :
    (p.modifyFrame a g).frames f = if f = a then g (p.frames a) else p.frames f :=
  Function.update_apply ..

@[simp] theorem modifyFrame_lists : (p.modifyFrame a g).lists = p.lists := rfl

@[simp] theorem modifyFrame_caches : (p.modifyFrame a g).caches = p.caches := rfl

@[simp] theorem modifyFrame_reserveHead : (p.modifyFrame a g).reserveHead = p.reserveHead := rfl

@[simp] theorem modifyFrame_totalFrames : (p.modifyFrame a g).totalFrames = p.totalFrames := rfl

@[simp] theorem modifyFrame_metadata : (p.modifyFrame a g).metadata = p.metadata := rfl

@[simp] theorem modifyFrame_regions : (p.modifyFrame a g).regions = p.regions := rfl

variable (order shard : Nat) (head : Option Nat)

theorem setList_lists (o s : Nat) : (p.setList order shard head).lists o s =
      if o = order ∧ s = shard then head else p.lists o s := by
  by_cases ho : o = order
  · subst ho
    by_cases hs : s = shard
    · simp [setList, hs]
    · simp [setList, hs]
  · simp [setList, ho]

@[simp] theorem setList_frames : (p.setList order shard head).frames = p.frames := rfl

variable (count : Nat)

theorem setCache_heads (c o : Nat) : ((p.setCache a order head count).caches c).heads o =
      if c = a ∧ o = order then head else (p.caches c).heads o := by
  by_cases hc : c = a
  · subst hc
    by_cases ho : o = order
    · simp [setCache, ho]
    · simp [setCache, ho]
  · simp [setCache, hc]

@[simp] theorem setCache_frames : (p.setCache a order head count).frames = p.frames := rfl

end Updates

/-- The lists and the tags agree with the owners. -/
structure Rep (p : Pmm) (own : Owners) : Prop where
  whole : own.Whole
  bound : ∀ {x}, own x ≠ none → x < p.totalFrames ∧ p.metadata (x / framesPerBlock) = true
  global : ∀ o s, ∃ l, DChain p.next p.prev none (p.lists o s) l ∧
    ∀ f, f ∈ l ↔ own f = some (.block f o .global) ∧ shardForPfn f = s
  cache : ∀ c o, ∃ l, Chain p.next ((p.caches c).heads o) l ∧
    ∀ f, f ∈ l ↔ own f = some (.block f o (.cache c))
  reserve : ∃ l, Chain p.next p.reserveHead l ∧
    ∀ f, f ∈ l ↔ own f = some (.block f 0 .reserve)
  tag : ∀ {f o pl}, own f = some (.block f o pl) → pl ≠ .loose →
    (p.frames f).order = o ∧ (p.frames f).state = pl.state
  free : ∀ {f}, (p.frames f).state = .FreeGlobal → ∃ o, own f = some (.block f o .global)
  cached : ∀ {f}, (p.frames f).state = .FreePerCpu → ∃ o c, own f = some (.block f o (.cache c))
  orders : ∀ f, (p.frames f).order < MAX_ORDER

/-- The heads of the lists with single links, the caches and the reserve. -/
def head (p : Pmm) : Place → Nat → Option Nat
  | .cache c, o => (p.caches c).heads o
  | .reserve, 0 => p.reserveHead
  | _, _ => none

/-- The places with such lists. -/
def Place.Single : Place → Prop
  | .cache _ | .reserve => True
  | _ => False

/-- The list of a place holds its blocks. -/
def Lists (p : Pmm) (own : Owners) (q : Place) (o : Nat) : Prop :=
  ∃ l, Chain p.next (p.head q o) l ∧ ∀ f, f ∈ l ↔ own f = some (.block f o q)

theorem head_setCache (p : Pmm) (cpu order count : Nat) (first : Option Nat) (q : Place) (o : Nat) :
    (p.setCache cpu order first count).head q o =
      if q = .cache cpu ∧ o = order then first else p.head q o := by
  cases q with
  | cache c => simp [head, setCache_heads]
  | reserve => cases o <;> rfl
  | _ => rfl

variable {o : Nat}

theorem head_of_ne_reserve {p p' : Pmm} (hq : ¬ (.reserve = q ∧ 0 = o)) (hcaches : p'.caches = p.caches) :
    p'.head q o = p.head q o := by
  cases q with
  | cache c => exact congrArg (fun caches => (caches c).heads o) hcaches
  | reserve =>
    cases o with
    | zero => exact (hq ⟨rfl, rfl⟩).elim
    | succ o => rfl
  | _ => rfl

theorem Rep.lists (h : Rep p own) (hq : Place.Single q) (o : Nat) : Lists p own q o := by
  cases q with
  | cache c => exact h.cache c o
  | reserve =>
    cases o with
    | zero => exact h.reserve
    | succ o => exact ⟨[], rfl, fun f => ⟨nofun, fun hf => nomatch h.whole.fits hf⟩⟩
  | _ => exact hq.elim

/-! ## Moving a block -/

section Move

variable {p p' : Pmm} {own : Owners} {b k : Nat} {old pl : Place}

section

variable (h : Rep p own) (hb : own b = some (.block b k old))

include h hb

/-- A free list that the block neither leaves nor enters. -/
theorem Rep.keepGlobal (hold : ¬ (old = .global ∧ k = o ∧ shardForPfn b = s))
    (hpl : ¬ (pl = .global ∧ k = o ∧ shardForPfn b = s)) (hlist : p'.lists o s = p.lists o s)
    (hlinks : ∀ f, own f = some (.block f o .global) → shardForPfn f = s → f ≠ b →
      p'.next f = p.next f ∧ p'.prev f = p.prev f) :
    ∃ l, DChain p'.next p'.prev none (p'.lists o s) l ∧
      ∀ f, f ∈ l ↔ own.assign b k pl f = some (.block f o .global) ∧ shardForPfn f = s := by
  obtain ⟨l, hl, hmem⟩ := h.global o s
  have hout : ∀ f ∈ l, f ≠ b := by
    rintro f hf rfl
    obtain ⟨hf, hs⟩ := (hmem f).mp hf
    rw [hb] at hf
    cases hf
    exact hold ⟨rfl, rfl, hs⟩
  refine ⟨l, ?_, fun f => ?_⟩
  · rw [hlist]
    refine hl.congr (fun f hf => ?_) fun f hf => ?_
    · exact (hlinks f ((hmem f).mp hf).1 ((hmem f).mp hf).2 (hout f hf)).1
    · exact (hlinks f ((hmem f).mp hf).1 ((hmem f).mp hf).2 (hout f hf)).2
  · rw [h.whole.move_start hb]
    constructor
    · intro hf
      exact ⟨.inr ⟨hout f hf, ((hmem f).mp hf).1⟩, ((hmem f).mp hf).2⟩
    · rintro ⟨⟨rfl, rfl, rfl⟩ | ⟨-, hf⟩, hs⟩
      · exact absurd ⟨rfl, rfl, hs⟩ hpl
      · exact (hmem f).mpr ⟨hf, hs⟩

/-- A list with single links that the block neither leaves nor enters. -/
theorem Rep.keepSingle (hq : Place.Single q) (hold : ¬ (old = q ∧ k = o)) (hpl : ¬ (pl = q ∧ k = o))
    (hlist : p'.head q o = p.head q o)
    (hlinks : ∀ f, own f = some (.block f o q) → f ≠ b → p'.next f = p.next f) :
    Lists p' (own.assign b k pl) q o := by
  obtain ⟨l, hl, hmem⟩ := h.lists hq o
  have hout : ∀ f ∈ l, f ≠ b := by
    rintro f hf rfl
    have hf := (hmem f).mp hf
    rw [hb] at hf
    cases hf
    exact hold ⟨rfl, rfl⟩
  refine ⟨l, ?_, fun f => ?_⟩
  · rw [hlist]
    exact hl.congr fun f hf => hlinks f ((hmem f).mp hf) (hout f hf)
  · rw [h.whole.move_start hb]
    constructor
    · exact fun hf => .inr ⟨hout f hf, (hmem f).mp hf⟩
    · rintro (⟨rfl, rfl, rfl⟩ | ⟨-, hf⟩)
      · exact absurd ⟨rfl, rfl⟩ hpl
      · exact (hmem f).mpr hf

/-- What a move has to establish: the tag of the block, and the lists. -/
structure Moved (p p' : Pmm) (own : Owners) (b k : Nat) (pl : Place) : Prop where
  total : p'.totalFrames = p.totalFrames
  metadata : p'.metadata = p.metadata
  self : (p'.frames b).order = k ∧ (p'.frames b).state = pl.state
  others : ∀ f, f ≠ b →
    (p'.frames f).order = (p.frames f).order ∧ (p'.frames f).state = (p.frames f).state
  global : ∀ o s, ∃ l, DChain p'.next p'.prev none (p'.lists o s) l ∧
    ∀ f, f ∈ l ↔ own.assign b k pl f = some (.block f o .global) ∧ shardForPfn f = s
  cache : ∀ c o, ∃ l, Chain p'.next ((p'.caches c).heads o) l ∧
    ∀ f, f ∈ l ↔ own.assign b k pl f = some (.block f o (.cache c))
  reserve : ∃ l, Chain p'.next p'.reserveHead l ∧
    ∀ f, f ∈ l ↔ own.assign b k pl f = some (.block f 0 .reserve)

theorem Rep.move (hfit : pl.Fits k) (hm : Moved p p' own b k pl) : Rep p' (own.assign b k pl) where
  whole := h.whole.move hb hfit
  bound := by
    intro x hx
    rw [Ne, h.whole.move_none hb] at hx
    rw [hm.total, hm.metadata]
    exact h.bound hx
  global := hm.global
  cache := hm.cache
  reserve := hm.reserve
  tag := by
    intro f o q hf hq
    rcases (h.whole.move_start hb).mp hf with ⟨rfl, rfl, rfl⟩ | ⟨hne, hf⟩
    · exact hm.self
    · rw [(hm.others f hne).1, (hm.others f hne).2]
      exact h.tag hf hq
  free := by
    intro f hf
    by_cases hne : f = b
    · subst hne
      rw [hm.self.2] at hf
      cases pl <;> cases hf
      exact ⟨k, assign_self⟩
    · rw [(hm.others f hne).2] at hf
      obtain ⟨o, ho⟩ := h.free hf
      exact ⟨o, (h.whole.move_start hb).mpr (.inr ⟨hne, ho⟩)⟩
  cached := by
    intro f hf
    by_cases hne : f = b
    · subst hne
      rw [hm.self.2] at hf
      cases pl <;> cases hf
      exact ⟨k, _, assign_self⟩
    · rw [(hm.others f hne).2] at hf
      obtain ⟨o, c, ho⟩ := h.cached hf
      exact ⟨o, c, (h.whole.move_start hb).mpr (.inr ⟨hne, ho⟩)⟩
  orders := by
    intro f
    by_cases hne : f = b
    · subst hne
      rw [hm.self.1]
      exact h.whole.order hb
    · rw [(hm.others f hne).1]
      exact h.orders f

/-- A block leaves a list with single links or enters one, in front, and nothing but its own
metadata is written. -/
theorem Rep.moveSingle (hfit : pl.Fits k) (hold : old ≠ .global) (hpl : pl ≠ .global) (hne : old ≠ pl)
    (hsame : p'.totalFrames = p.totalFrames ∧ p'.metadata = p.metadata ∧ p'.lists = p.lists)
    (hself : (p'.frames b).order = k ∧ (p'.frames b).state = pl.state)
    (hothers : ∀ f, f ≠ b → p'.frames f = p.frames f)
    (hkeep : ∀ q o, ¬ (old = q ∧ k = o) → ¬ (pl = q ∧ k = o) → p'.head q o = p.head q o)
    (hpop : Place.Single old → p.head old k = some b ∧ p'.head old k = p.next b)
    (hpush : Place.Single pl → p'.head pl k = some b ∧ p'.next b = p.head pl k) :
    Rep p' (own.assign b k pl) := by
  have hnext : ∀ f, f ≠ b → p'.next f = p.next f := fun f hf =>
    congrArg BuddyFrame.next (hothers f hf)
  have hsingle : ∀ q, Place.Single q → ∀ o, Lists p' (own.assign b k pl) q o := by
    intro q hq o
    by_cases hleave : old = q ∧ k = o
    · obtain ⟨rfl, rfl⟩ := hleave
      obtain ⟨l, hl, hmem⟩ := h.lists hq k
      have hnd := hl.nodup
      rw [(hpop hq).1] at hl
      obtain ⟨l₂, rfl, hl₂⟩ := hl.tail
      refine ⟨l₂, ?_, h.whole.mem_pop hb (Ne.symm hne) hnd hmem⟩
      rw [(hpop hq).2]
      exact hl₂.congr fun f hf => hnext f fun hc => (List.nodup_cons.mp hnd).1 (hc ▸ hf)
    by_cases henter : pl = q ∧ k = o
    · obtain ⟨rfl, rfl⟩ := henter
      obtain ⟨l, hl, hmem⟩ := h.lists hq k
      refine ⟨b :: l, ⟨(hpush hq).1, ?_⟩, h.whole.mem_push hb hne hmem⟩
      rw [(hpush hq).2]
      refine hl.congr fun f hf => hnext f ?_
      rintro rfl
      have := (hmem f).mp hf
      rw [hb] at this
      cases this
      exact hne rfl
    exact h.keepSingle hb hq hleave henter (hkeep q o hleave henter) fun f _ => hnext f
  refine h.move hb hfit ⟨hsame.1, hsame.2.1, hself, fun f hf => ?_, fun o s => ?_,
    fun c => hsingle (.cache c) trivial, hsingle .reserve trivial 0⟩
  · rw [hothers f hf]
    exact ⟨rfl, rfl⟩
  · refine h.keepGlobal hb (fun hc => hold hc.1) (fun hc => hpl hc.1) (by rw [hsame.2.2])
      fun f _ _ hf => ⟨hnext f hf, ?_⟩
    exact congrArg BuddyFrame.prev (hothers f hf)

end

end Move

/-! ## Global lists -/

section Global

variable {p : Pmm} {b k : Nat}

theorem Rep.head_global (h : Rep p own) (hf : p.lists o s = some f) :
    own f = some (.block f o .global) ∧ shardForPfn f = s := by
  obtain ⟨l, hl, hmem⟩ := h.global o s
  exact (hmem f).mp (hl.chain.head_mem hf)

theorem pushToGlobal_frames (f : Nat) (hne : p.lists k (shardForPfn b) ≠ some b) :
    (p.pushToGlobal b k).frames f =
      if f = b then ⟨k, .FreeGlobal, true, p.lists k (shardForPfn b), none⟩
      else if p.lists k (shardForPfn b) = some f then { p.frames f with prev := some b }
      else p.frames f := by
  simp only [pushToGlobal, setList_frames]
  cases hhead : p.lists k (shardForPfn b) with
  | none => simp [modifyFrame_frames]
  | some head =>
    have hne : head ≠ b := by simpa [hhead] using hne
    simp only [modifyFrame_frames, Option.some.injEq]
    by_cases hfb : f = b
    · simp [hfb, Ne.symm hne]
    · by_cases hfh : f = head
      · simp [hfh, hne]
      · simp [hfb, hfh, Ne.symm hfh]

theorem pushToGlobal_lists (o s : Nat) : (p.pushToGlobal b k).lists o s =
      if o = k ∧ s = shardForPfn b then some b else p.lists o s := by
  simp only [pushToGlobal, setList_lists]
  cases p.lists k (shardForPfn b) <;> rfl

/-- Only metadata and free lists change. -/
theorem pushToGlobal_rest (p : Pmm) (b k : Nat) : p.pushToGlobal b k =
      { p with frames := (p.pushToGlobal b k).frames, lists := (p.pushToGlobal b k).lists } := by
  simp only [pushToGlobal]
  cases p.lists k (shardForPfn b) <;> rfl

theorem Rep.pushToGlobal (h : Rep p own) (hb : own b = some (.block b k old)) (hout : old.Out) :
    Rep (p.pushToGlobal b k) (own.assign b k .global) := by
  have hgl : old ≠ .global := by
    rintro rfl
    exact hout
  have hne : p.lists k (shardForPfn b) ≠ some b := by
    intro hhead
    have := (h.head_global hhead).1
    rw [hb] at this
    cases this
    exact hgl rfl
  have hframes := fun f => pushToGlobal_frames f hne
  have hnext : ∀ f, f ≠ b → (p.pushToGlobal b k).next f = p.next f := by
    intro f hf
    rw [next, next, hframes, if_neg hf]
    split <;> rfl
  have hsingle : ∀ q, Place.Single q → ∀ o,
      Lists (p.pushToGlobal b k) (own.assign b k .global) q o := by
    intro q hq o
    refine h.keepSingle hb hq ?_ ?_ ?_ fun f _ hfb => hnext f hfb
    · rintro ⟨rfl, -⟩
      cases old <;> first | exact hout | exact hq
    · rintro ⟨rfl, -⟩
      exact hq
    · rw [pushToGlobal_rest]
      cases q <;> cases o <;> rfl
  refine h.move hb trivial ⟨?_, ?_, ?_, ?_, ?_, fun c => hsingle (.cache c) trivial,
    hsingle .reserve trivial 0⟩
  · rw [pushToGlobal_rest]
  · rw [pushToGlobal_rest]
  · rw [hframes, if_pos rfl]
    exact ⟨rfl, rfl⟩
  · intro f hf
    rw [hframes, if_neg hf]
    split <;> exact ⟨rfl, rfl⟩
  · intro o s
    by_cases hos : o = k ∧ s = shardForPfn b
    · obtain ⟨rfl, rfl⟩ := hos
      obtain ⟨l, hl, hmem⟩ := h.global o (shardForPfn b)
      have hbl : ∀ f ∈ l, f ≠ b := by
        rintro f hf rfl
        have := ((hmem f).mp hf).1
        rw [hb] at this
        cases this
        exact hgl rfl
      refine ⟨b :: l, ?_, fun f => ?_⟩
      · rw [pushToGlobal_lists, if_pos ⟨rfl, rfl⟩]
        refine hl.push ?_ ?_ (fun f hf => hnext f (hbl f hf)) fun f hf => ?_
        · rw [next, hframes, if_pos rfl]
        · rw [prev, hframes, if_pos rfl]
        · rw [prev, hframes, if_neg (hbl f hf)]
          split <;> rfl
      · rw [h.whole.move_start hb, List.mem_cons, hmem]
        constructor
        · rintro (rfl | ⟨hf, hs⟩)
          · exact ⟨.inl ⟨rfl, rfl, rfl⟩, rfl⟩
          · exact ⟨.inr ⟨hbl f ((hmem f).mpr ⟨hf, hs⟩), hf⟩, hs⟩
        · rintro ⟨⟨rfl, -⟩ | ⟨-, hf⟩, hs⟩
          · exact .inl rfl
          · exact .inr ⟨hf, hs⟩
    · refine h.keepGlobal hb (fun hc => hgl hc.1) (fun hc => hos ⟨hc.2.1.symm, hc.2.2.symm⟩) ?_ ?_
      · rw [pushToGlobal_lists, if_neg hos]
      · intro f hf hs hfb
        refine ⟨hnext f hfb, ?_⟩
        rw [prev, hframes, if_neg hfb, if_neg]
        · rfl
        · intro hhead
          obtain ⟨hf', hs'⟩ := h.head_global hhead
          rw [hf] at hf'
          cases hf'
          exact hos ⟨rfl, hs.symm.trans hs'⟩

theorem removeFromListWithList_frames (s f : Nat) (hprev : p.prev b ≠ some b)
    (hnext : p.next b ≠ some b) :
    (p.removeFromListWithList b k s).frames f =
      if f = b then { p.frames b with next := none, prev := none }
      else { p.frames f with
        next := if p.prev b = some f then p.next b else p.next f
        prev := if p.next b = some f then p.prev b else p.prev f } := by
  obtain ⟨q, hq⟩ : ∃ q, (p.frames b).prev = q := ⟨_, rfl⟩
  obtain ⟨n, hn⟩ : ∃ n, (p.frames b).next = n := ⟨_, rfl⟩
  simp only [prev, next, hq, hn] at hprev hnext ⊢
  simp only [removeFromListWithList, hq, hn]
  -- The block is none of its neighbours, and these may be the same frame.
  rcases hf : p.frames f with ⟨order, state, migratable, fn, fp⟩
  cases q <;> cases n <;> simp only [modifyFrame_frames, setList_frames] <;> grind

theorem removeFromListWithList_lists (s o t : Nat) : (p.removeFromListWithList b k s).lists o t =
      if (o = k ∧ t = s) ∧ p.prev b = none then p.next b else p.lists o t := by
  obtain ⟨q, hq⟩ : ∃ q, (p.frames b).prev = q := ⟨_, rfl⟩
  obtain ⟨n, hn⟩ : ∃ n, (p.frames b).next = n := ⟨_, rfl⟩
  simp only [removeFromListWithList, prev, next, hq, hn]
  cases q <;> cases n <;> simp [setList_lists]

/-- Only metadata and free lists change. -/
theorem removeFromListWithList_rest (p : Pmm) (b k s : Nat) :
    p.removeFromListWithList b k s = { p with
      frames := (p.removeFromListWithList b k s).frames
      lists := (p.removeFromListWithList b k s).lists } := by
  obtain ⟨q, hq⟩ : ∃ q, (p.frames b).prev = q := ⟨_, rfl⟩
  obtain ⟨n, hn⟩ : ∃ n, (p.frames b).next = n := ⟨_, rfl⟩
  simp only [removeFromListWithList, hq, hn]
  cases q <;> cases n <;> rfl

/-- Unlink a block and reset its tag, as the callers of `removeFromListWithList` do. -/
def takeGlobal (p : Pmm) (b k : Nat) : Pmm :=
  (p.removeFromListWithList b k (shardForPfn b)).modifyFrame b fun f =>
    { f with state := .Allocated, migratable := true, next := none, prev := none }

theorem Rep.takeGlobal (h : Rep p own) (hb : own b = some (.block b k .global)) :
    Rep (p.takeGlobal b k) (own.assign b k .held) := by
  obtain ⟨l, hl, hmem⟩ := h.global k (shardForPfn b)
  have hbl : b ∈ l := (hmem b).mpr ⟨hb, rfl⟩
  have hrem := fun f => removeFromListWithList_frames (k := k) (shardForPfn b) f (hl.prev_ne hbl)
    (hl.chain.next_ne hbl)
  have hframes : ∀ f, f ≠ b → (p.takeGlobal b k).frames f = { p.frames f with
      next := if p.prev b = some f then p.next b else p.next f
      prev := if p.next b = some f then p.prev b else p.prev f } := by
    intro f hf
    rw [Pmm.takeGlobal, modifyFrame_frames, if_neg hf, hrem, if_neg hf]
  have hlists : ∀ o t, (p.takeGlobal b k).lists o t =
      if (o = k ∧ t = shardForPfn b) ∧ p.prev b = none then p.next b else p.lists o t :=
    removeFromListWithList_lists (shardForPfn b)
  -- The neighbours of the block are in its own list.
  have hprev : ∀ f, p.prev b = some f → f ∈ l := by
    intro f hf
    rcases hl.prev_mem hbl with ⟨-, hp⟩ | ⟨-, y, hy, hp, -⟩
    · rw [hp] at hf
      cases hf
    · rw [hp] at hf
      cases hf
      exact hy
  have hnext : ∀ f, f ∉ l → (p.takeGlobal b k).next f = p.next f := by
    intro f hf
    have hfb : f ≠ b := fun hc => hf (hc ▸ hbl)
    rw [next, hframes f hfb]
    exact if_neg fun hc => hf (hprev f hc)
  have hsingle : ∀ q, Place.Single q → ∀ o, Lists (p.takeGlobal b k) (own.assign b k .held) q o := by
    intro q hq o
    refine h.keepSingle hb hq ?_ ?_ ?_ fun f hf hfb => hnext f fun hfl => ?_
    · rintro ⟨rfl, -⟩
      exact hq
    · rintro ⟨rfl, -⟩
      exact hq
    · rw [Pmm.takeGlobal, removeFromListWithList_rest]
      cases q <;> cases o <;> rfl
    · have hf' := ((hmem f).mp hfl).1
      rw [hf] at hf'
      cases hf'
      exact hq
  refine h.move hb trivial ⟨?_, ?_, ?_, ?_, ?_, fun c => hsingle (.cache c) trivial,
    hsingle .reserve trivial 0⟩
  · rw [Pmm.takeGlobal, removeFromListWithList_rest]
    rfl
  · rw [Pmm.takeGlobal, removeFromListWithList_rest]
    rfl
  · rw [Pmm.takeGlobal, modifyFrame_frames, if_pos rfl, hrem, if_pos rfl]
    exact ⟨(h.tag hb (by simp)).1, rfl⟩
  · intro f hf
    rw [hframes f hf]
    exact ⟨rfl, rfl⟩
  · intro o t
    by_cases hot : o = k ∧ t = shardForPfn b
    · obtain ⟨rfl, rfl⟩ := hot
      refine ⟨l.erase b, ?_, fun f => ?_⟩
      · have hhead : (p.takeGlobal b o).lists o (shardForPfn b) =
            if p.lists o (shardForPfn b) = some b then p.next b
            else p.lists o (shardForPfn b) := by
          rw [hlists]
          simp [hl.prev_eq_none hbl]
        rw [hhead]
        refine hl.unlink (by simp) hbl (fun f hf hfb => ?_) fun f hf hfb => ?_
        · rw [next, hframes f hfb]
        · rw [prev, hframes f hfb]
      · rw [h.whole.move_start hb, hl.chain.nodup.mem_erase_iff, hmem]
        simp [and_assoc]
    · refine h.keepGlobal hb (fun hc => hot ⟨hc.2.1.symm, hc.2.2.symm⟩) (by simp) ?_ ?_
      · rw [hlists, if_neg fun hc => hot hc.1]
      · intro f hf hs hfb
        have hfl : f ∉ l := by
          intro hfl
          obtain ⟨hf', hs'⟩ := (hmem f).mp hfl
          rw [hf] at hf'
          cases hf'
          exact hot ⟨rfl, hs.symm.trans hs'⟩
        refine ⟨hnext f hfl, ?_⟩
        rw [prev, hframes f hfb]
        exact if_neg fun hc => hfl (hl.next_mem hbl hc).1

end Global

/-! ## Caches and reserve -/

theorem Rep.head_cache (h : Rep p own) (hf : (p.caches c).heads o = some f) :
    own f = some (.block f o (.cache c)) := by
  obtain ⟨l, hl, hmem⟩ := h.cache c o
  exact (hmem f).mp (hl.head_mem hf)

theorem Rep.percpuPopRaw (h : Rep p own) (hpop : p.percpuPopRaw cpu k = (some b, p')) :
    own b = some (.block b k (.cache (cpu % MAX_CPUS))) ∧ Rep p' (own.assign b k .held) := by
  unfold Pmm.percpuPopRaw at hpop
  cases hhead : (p.caches (cpu % MAX_CPUS)).heads k with
  | none => simp [hhead] at hpop
  | some head =>
    simp only [hhead, Prod.mk.injEq, Option.some.injEq] at hpop
    obtain ⟨rfl, rfl⟩ := hpop
    have hb := h.head_cache hhead
    refine ⟨hb, h.moveSingle hb trivial nofun nofun nofun ⟨rfl, rfl, rfl⟩ ?_ (fun f hf => ?_)
      (fun q o hold _ => ?_) (fun _ => ⟨hhead, ?_⟩) False.elim⟩
    · rw [modifyFrame_frames, if_pos rfl]
      exact ⟨(h.tag hb (by simp)).1, rfl⟩
    · rw [modifyFrame_frames, if_neg hf]
      rfl
    · exact (head_setCache ..).trans (if_neg fun hc => hold ⟨hc.1.symm, hc.2.symm⟩)
    · exact (head_setCache ..).trans (if_pos ⟨rfl, rfl⟩)

theorem Rep.percpuPushRaw (h : Rep p own) (hb : own b = some (.block b k old)) (hout : old.Out) :
    Rep (p.percpuPushRaw cpu b k) (own.assign b k (.cache (cpu % MAX_CPUS))) := by
  have hfit : (Place.cache (cpu % MAX_CPUS)).Fits k := Nat.mod_lt _ (by decide)
  have hself : (p.percpuPushRaw cpu b k).frames b =
      ⟨k, .FreePerCpu, true, (p.caches (cpu % MAX_CPUS)).heads k, none⟩ := Function.update_self ..
  refine h.moveSingle hb hfit (by rintro rfl; exact hout) nofun (by rintro rfl; exact hout)
    ⟨rfl, rfl, rfl⟩ ?_ (fun f hf => Function.update_of_ne hf ..) (fun q o _ hpl => ?_)
    (fun hold => ?_) fun _ => ⟨?_, congrArg BuddyFrame.next hself⟩
  · rw [hself]
    exact ⟨rfl, rfl⟩
  · exact (head_setCache ..).trans (if_neg fun hc => hpl ⟨hc.1.symm, hc.2.symm⟩)
  · cases old <;> first | exact hout.elim | exact hold.elim
  · exact (head_setCache ..).trans (if_pos ⟨rfl, rfl⟩)

theorem Rep.reservePop (h : Rep p own) (hpop : p.reservePop = (some b, p')) :
    own b = some (.block b 0 .reserve) ∧ Rep p' (own.assign b 0 .held) := by
  unfold Pmm.reservePop at hpop
  cases hhead : p.reserveHead with
  | none => simp [hhead] at hpop
  | some first =>
    simp only [hhead, Prod.mk.injEq, Option.some.injEq] at hpop
    obtain ⟨rfl, rfl⟩ := hpop
    obtain ⟨l, hl, hmem⟩ := h.reserve
    have hb := (hmem first).mp (hl.head_mem hhead)
    refine ⟨hb, h.moveSingle hb trivial nofun nofun nofun ⟨rfl, rfl, rfl⟩ ?_ (fun f hf => ?_)
      (fun q o hold _ => ?_) (fun _ => ⟨hhead, rfl⟩) False.elim⟩
    · rw [modifyFrame_frames, if_pos rfl]
      exact ⟨(h.tag hb (by simp)).1, rfl⟩
    · rw [modifyFrame_frames, if_neg hf]
    · exact head_of_ne_reserve hold rfl

theorem Rep.reservePush (h : Rep p own) (hb : own b = some (.block b 0 old)) (hout : old.Out) :
    Rep (p.reservePush b) (own.assign b 0 .reserve) := by
  have hself : (p.reservePush b).frames b = ⟨0, .Allocated, true, p.reserveHead, none⟩ :=
    Function.update_self ..
  refine h.moveSingle hb rfl (by rintro rfl; exact hout) nofun (by rintro rfl; exact hout)
    ⟨rfl, rfl, rfl⟩ ?_ (fun f hf => Function.update_of_ne hf ..)
    (fun q o _ hpl => head_of_ne_reserve hpl rfl) (fun hold => ?_)
    fun _ => ⟨rfl, congrArg BuddyFrame.next hself⟩
  · rw [hself]
    exact ⟨rfl, rfl⟩
  · cases old <;> first | exact hout.elim | exact hold.elim

/-! ## Relabelling

Blocks in no list can be cut and joined without a change of the data structure. -/

section Relabel

variable {p : Pmm} {own own' : Owners}

section

variable (h : Rep p own)

include h

/-- Writing the metadata of a frame that starts no block, or a loose one. -/
theorem Rep.write (hb : ∀ o pl, own b = some (.block b o pl) → pl = .loose)
    (hg : g.state = .Allocated) (horder : g.order < MAX_ORDER) :
    Rep (p.modifyFrame b fun _ => g) own := by
  have hne : ∀ {f o pl}, own f = some (.block f o pl) → pl ≠ .loose → f ≠ b := by
    rintro f o pl hf hpl rfl
    exact hpl (hb o pl hf)
  have hframes : ∀ f, f ≠ b → (p.modifyFrame b fun _ => g).frames f = p.frames f := by
    intro f hf
    rw [modifyFrame_frames, if_neg hf]
  refine ⟨h.whole, h.bound, ?_, ?_, ?_, ?_, ?_, ?_, ?_⟩
  · intro o s
    obtain ⟨l, hl, hmem⟩ := h.global o s
    refine ⟨l, hl.congr (fun f hf => ?_) fun f hf => ?_, hmem⟩
    · rw [next, hframes f (hne ((hmem f).mp hf).1 (by simp))]
      rfl
    · rw [prev, hframes f (hne ((hmem f).mp hf).1 (by simp))]
      rfl
  · intro c o
    obtain ⟨l, hl, hmem⟩ := h.cache c o
    refine ⟨l, hl.congr fun f hf => ?_, hmem⟩
    rw [next, hframes f (hne ((hmem f).mp hf) (by simp))]
    rfl
  · obtain ⟨l, hl, hmem⟩ := h.reserve
    refine ⟨l, hl.congr fun f hf => ?_, hmem⟩
    rw [next, hframes f (hne ((hmem f).mp hf) (by simp))]
    rfl
  · intro f o pl hf hpl
    rw [hframes f (hne hf hpl)]
    exact h.tag hf hpl
  · intro f hf
    by_cases hfb : f = b
    · rw [modifyFrame_frames, if_pos hfb, hg] at hf
      cases hf
    · rw [hframes f hfb] at hf
      exact h.free hf
  · intro f hf
    by_cases hfb : f = b
    · rw [modifyFrame_frames, if_pos hfb, hg] at hf
      cases hf
    · rw [hframes f hfb] at hf
      exact h.cached hf
  · intro f
    rw [modifyFrame_frames]
    split
    · exact horder
    · exact h.orders f

theorem Rep.writeLoose (hb : own b = some (.block b k .loose)) (ho : o < MAX_ORDER) :
    Rep (p.modifyFrame b fun _ => .detached o) own := by
  refine h.write (fun o pl ho => ?_) rfl ho
  rw [hb] at ho
  cases ho
  rfl

/-- The owners may change where nothing is in a list. -/
theorem Rep.relabel (hw : own'.Whole) (hx : own.Relabels own')
    (htag : ∀ f o, own' f = some (.block f o .held) →
      (p.frames f).order = o ∧ (p.frames f).state = .Allocated) : Rep p own' := by
  refine ⟨hw, ?_, ?_, ?_, ?_, ?_, ?_, ?_, h.orders⟩
  · intro x hnone
    rw [Ne, hx.none_iff] at hnone
    exact h.bound hnone
  · intro o s
    obtain ⟨l, hl, hmem⟩ := h.global o s
    refine ⟨l, hl, fun f => ?_⟩
    rw [hmem, hx.listed f o id]
  · intro c o
    obtain ⟨l, hl, hmem⟩ := h.cache c o
    refine ⟨l, hl, fun f => ?_⟩
    rw [hmem, hx.listed f o id]
  · obtain ⟨l, hl, hmem⟩ := h.reserve
    refine ⟨l, hl, fun f => ?_⟩
    rw [hmem, hx.listed f 0 id]
  · intro f o pl hf hpl
    by_cases hout : pl.Out
    · cases pl with
      | held => exact htag f o hf
      | loose => exact absurd rfl hpl
      | global => exact absurd hout id
      | cache c => exact absurd hout id
      | reserve => exact absurd hout id
    · exact h.tag ((hx.listed f o hout).mp hf) hpl
  · intro f hf
    obtain ⟨o, ho⟩ := h.free hf
    exact ⟨o, (hx.listed f o id).mpr ho⟩
  · intro f hf
    obtain ⟨o, c, ho⟩ := h.cached hf
    exact ⟨o, c, (hx.listed f o id).mpr ho⟩

/-- Frames that are free of lists may become one loose block. -/
theorem Rep.loosen (hw : (own.assign b k .loose).Whole)
    (hx : ∀ x, b ≤ x ∧ x < b + 2 ^ k → ∃ o, own x = some o ∧ (o = .uninit ∨ o.Out)) :
    Rep p (own.assign b k .loose) := by
  refine h.relabel hw (relabels_assign trivial hx) fun f o hf => ?_
  by_cases hin : b ≤ f ∧ f < b + 2 ^ k
  · rw [assign_inside hin] at hf
    cases hf
  · rw [assign_outside hin] at hf
    exact h.tag hf (by simp)

theorem Rep.cut (hb : own b = some (.block b (k + 1) pl)) (hpl : pl.Out) :
    Rep p ((own.assign (b + 2 ^ k) k .loose).assign b k .loose) := by
  refine h.relabel (h.whole.cut hb trivial) (h.whole.relabels_cut hb hpl) fun f o hf => ?_
  by_cases h₁ : b ≤ f ∧ f < b + 2 ^ k
  · rw [assign_inside h₁] at hf
    cases hf
  · rw [assign_outside h₁] at hf
    by_cases h₂ : b + 2 ^ k ≤ f ∧ f < b + 2 ^ k + 2 ^ k
    · rw [assign_inside h₂] at hf
      cases hf
    · rw [assign_outside h₂] at hf
      exact h.tag hf (by simp)

theorem Rep.join (hlo : own b = some (.block b k pl))
    (hhi : own (b + 2 ^ k) = some (.block (b + 2 ^ k) k q)) (hpl : pl.Out) (hq : q.Out)
    (hal : 2 ^ (k + 1) ∣ b) (hk : k + 1 < MAX_ORDER) :
    Rep p (own.assign b (k + 1) .loose) ∧ own.Relabels (own.assign b (k + 1) .loose) := by
  have hblock : ∀ x, b ≤ x ∧ x < b + 2 ^ (k + 1) →
      own x = some (.block b k pl) ∨ own x = some (.block (b + 2 ^ k) k q) := by
    intro x hx
    rw [Nat.pow_succ] at hx
    by_cases hlt : x < b + 2 ^ k
    · exact .inl (h.whole.whole hlo ⟨hx.1, hlt⟩)
    · exact .inr (h.whole.whole hhi (by omega))
  have hout : ∀ x, b ≤ x ∧ x < b + 2 ^ (k + 1) → ∃ o, own x = some o ∧ (o = .uninit ∨ o.Out) := by
    intro x hx
    rcases hblock x hx with heq | heq
    · exact ⟨_, heq, .inr hpl⟩
    · exact ⟨_, heq, .inr hq⟩
  refine ⟨h.loosen (h.whole.assign hal hk trivial fun x c j r hx hc => ?_) hout,
    relabels_assign trivial hout⟩
  rcases hblock x hx with heq | heq
  · rw [heq] at hc
    cases hc
    omega
  · rw [heq] at hc
    cases hc
    omega

/-- The metadata of a loose block are written, and the block is held. -/
theorem Rep.hold (hb : own b = some (.block b k .loose)) :
    Rep (p.modifyFrame b fun _ => .detached k) (own.assign b k .held) := by
  have hwrite := h.writeLoose hb (h.whole.order hb)
  refine hwrite.relabel (h.whole.move hb trivial) (h.whole.relabels_move hb trivial trivial)
    fun f o hf => ?_
  rcases (h.whole.move_start hb).mp hf with ⟨rfl, rfl, -⟩ | ⟨-, hf⟩
  · rw [modifyFrame_frames, if_pos rfl]
    exact ⟨rfl, rfl⟩
  · exact hwrite.tag hf (by simp)

end

end Relabel

end Pmm

end BoruixKernel
