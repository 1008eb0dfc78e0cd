import BoruixKernel.Mm.Spaces

/-!
# Other counters

`map_page` counts up and never reads a counter.  Run on a state with other counters it does
the same, as long as the change of the counters commutes with counting
(`mapPageInner_recount`).  What getting a table and storing a leaf keep, `map_page` keeps
(`mapPageInner_steps`).
-/

namespace BoruixKernel

open PointerTrie MapResult

/-- A change of the counters that commutes with counting. -/
def CountsNaturally (f : Option PageTableCountTable → Option PageTableCountTable) : Prop :=
  ∀ c t d, bumpTableCount (f c) t d = f (bumpTableCount c t d)

theorem countsNaturally_none : CountsNaturally fun _ => none := fun _ _ _ => rfl

def MmState.recount {σ : Type} (f : Option PageTableCountTable → Option PageTableCountTable)
    (s : MmState σ) : MmState σ :=
  { s with counts := f s.counts }

section Recount

variable {s : MmState σ}

theorem MmState.recount_setAddr (t : PhysAddr) (i : Fin 512) (addr : PhysAddr)
    (flags : PageTableFlags) :
    (s.recount f).setAddr t i addr flags =
      Prod.map id (·.recount f) (s.setAddr t i addr flags) := by
  unfold setAddr
  split <;> rfl

/-- `?` passes a changed state on when what follows does. -/
theorem MapResult.andThen_recount {α β : Type} {r : MapResult σ α}
    {g : α → MmState σ → MapResult σ β}
    (hg : ∀ a s, g a (s.recount f) = Prod.map id (·.recount f) (g a s)) :
    MapResult.andThen (Prod.map id (·.recount f) r) g =
      Prod.map id (·.recount f) (r.andThen g) := by
  rcases r with ⟨_ | a, s⟩
  · rfl
  · exact hg a s

/-- A test of something other than the counters passes a changed state on. -/
theorem MapResult.ite_recount [Decidable c] {x y x' y' : MapResult σ α}
    (hx : c → x' = Prod.map id (·.recount f) x) (hy : ¬ c → y' = Prod.map id (·.recount f) y) :
    (if c then x' else y') = Prod.map id (·.recount f) (if c then x else y) := by
  by_cases hc : c
  · rw [if_pos hc, if_pos hc, hx hc]
  · rw [if_neg hc, if_neg hc, hy hc]

variable (hf : CountsNaturally f)
include hf

theorem MmState.recount_incCount (s : MmState σ) (t : PhysAddr) :
    (s.recount f).incCount t = (s.incCount t).recount f := by
  simp [incCount, incTableCount, recount, hf s.counts t 1]

theorem MmState.recount_decCount (s : MmState σ) (t : PhysAddr) :
    (s.recount f).decCount t = (s.decCount t).recount f := by
  simp [decCount, decTableCount, recount, hf s.counts t (-1)]

theorem getNextTableByIndex_recount (t : PhysAddr) (i : Fin 512) (s : MmState σ) :
    getNextTableByIndex A t i (s.recount f) =
      Prod.map id (·.recount f) (getNextTableByIndex A t i s) := by
  unfold getNextTableByIndex
  refine ite_recount (fun _ => ite_recount (fun _ => rfl) fun _ => rfl)
    fun _ => ?_
  rw [show (s.recount f).alloc = s.alloc from rfl]
  rcases A.allocateFrame s.alloc with ⟨_ | phys, a⟩
  · rfl
  refine ite_recount (fun _ => rfl) fun _ => ?_
  have hset := MmState.recount_setAddr (s := ({ s with alloc := a } : MmState σ).zeroFrame phys)
    (f := f) t i phys (.PRESENT ||| .WRITABLE ||| .USER_ACCESSIBLE)
  exact (congrArg (MapResult.andThen · _) hset).trans
    (andThen_recount fun _ s => Prod.ext rfl (MmState.recount_incCount hf s phys))

theorem getTables_recount (q : List (Fin 512)) (t : PhysAddr) (s : MmState σ) :
    getTables A q t (s.recount f) = Prod.map id (·.recount f) (getTables A q t s) := by
  induction q generalizing t s with
  | nil => rfl
  | cons i q ih =>
    rw [getTables, getTables, getNextTableByIndex_recount hf]
    exact andThen_recount ih

theorem storeLeaf_recount (l : PageLevel) (page : VirtAddr) (frame : PhysAddr) (flags : PageTableFlags)
    (t : PhysAddr) (s : MmState σ) : storeLeaf l p4 page frame flags t (s.recount f) =
      Prod.map id (·.recount f) (storeLeaf l p4 page frame flags t s) := by
  refine ite_recount (fun _ => rfl) fun _ => ite_recount (fun _ => rfl) fun _ => ?_
  rw [MmState.recount_setAddr]
  refine andThen_recount fun _ s => ?_
  rw [MmState.recount_incCount hf]
  rfl

/-- `map_page` reads no counter. -/
theorem mapPageInner_recount (page : VirtAddr) (frame : PhysAddr) (flags : PageTableFlags)
    (s : MmState σ) :
    mapPageInner A p4 page frame flags (s.recount f) =
      Prod.map id (·.recount f) (mapPageInner A p4 page frame flags s) := by
  rw [mapPageInner_eq, mapPageInner_eq, getTables_recount hf]
  exact andThen_recount (storeLeaf_recount hf _ page frame flags)

end Recount

/-! ## What every call of the mapper keeps -/

section Steps

variable {R : MmState σ → MmState σ → Prop}

/-- A step that removes no table keeps every frame in use. -/
theorem LocalStep.held_mono (hloc : LocalStep A p4 s s') (hinv' : MapperInv A p4 s')
    (hkept : ∀ q t, tableOf s.tables p4 q = some t → tableOf s'.tables p4 q = some t) (hf : f.Frame)
    (hheld : f ∈ A.held s.alloc) : f ∈ A.held s'.alloc := by
  by_cases htab : ∃ q, tableOf s.tables p4 q = some f
  · obtain ⟨q, hq⟩ := htab
    exact hinv'.held q f (hkept q f hq)
  · exact (hloc.outside f ⟨hf, hheld, not_exists.mp htab⟩).2.1

section

variable (htrans : ∀ s₁ s₂ s₃, R s₁ s₂ → R s₂ s₃ → R s₁ s₃)
  (hnext : ∀ s s' q t i r, MapperInv A p4 s → tableOf s.tables p4 q = some t → q.length < 3 →
    getNextTableByIndex A t i s = (r, s') → (∀ msg, r ≠ .error (.panic msg)) → R s s')
include htrans hnext

/-- A relation that getting a table keeps is kept by getting several. -/
theorem getTables_steps (hrefl : R s s) (h : MapperInv A p4 s) (hq : tableOf s.tables p4 q = some t)
    (hlen : q.length + p.length ≤ 3) (hrun : getTables A p t s = (r, s'))
    (hr : ∀ msg, r ≠ .error (.panic msg)) : R s s' := by
  suffices hall : ∀ s0, R s0 s → R s0 s' from hall s hrefl
  clear hrefl
  intro s0 hR
  induction p generalizing q t s with
  | nil =>
    cases hrun
    exact hR
  | cons i p ih =>
    rw [List.length_cons] at hlen
    rw [getTables] at hrun
    rcases hget : getNextTableByIndex A t i s with ⟨_ | c, s₁⟩ <;> rw [hget] at hrun
    · cases hrun
      exact htrans _ _ _ hR (hnext _ _ _ _ _ _ h hq (by omega) hget fun msg heq =>
        hr msg (by rw [Except.error.inj heq]))
    · obtain ⟨hgrow, htab⟩ := getNextTableByIndex_spec h hq (by omega) hget
      refine ih hgrow.inv (htab c rfl) ?_ hrun (htrans _ _ _ hR (hnext _ _ _ _ _ _ h hq (by omega) hget (by simp)))
      rw [List.length_append, List.length_singleton]
      omega

/-- A relation that getting a table and storing a leaf keep is kept by `map_page`, if it
does not panic. -/
theorem mapPageInner_steps (hleaf : ∀ s q t i e, MapperInv A p4 s → tableOf s.tables p4 q = some t →
      (s.tables t i).present = false → tableFormat.leaf q.length e = true →
      R s ((s.setEntry t i e).incCount t)) (hrmap : ∀ (s : MmState σ) m, R s { s with rmap := m })
    (h : MapperInv A p4 s) (hlt : frame.asU64.toNat < 2 ^ 52)
    (hrun : mapPageInner A p4 page frame flags s = (r, s'))
    (hr : ∀ msg, r ≠ .error (.panic msg)) : R s s' := by
  rw [mapPageInner_eq] at hrun
  have hlen := (selectLevel page frame flags).length_path page
  rcases hget : getTables A ((selectLevel page frame flags).path page) p4 s with ⟨_ | t, s₁⟩ <;>
    rw [hget] at hrun
  · cases hrun
    exact getTables_steps htrans hnext (hrmap s s.rmap) h (q := []) rfl (by simpa using hlen) hget
      fun msg heq => hr msg (by rw [Except.error.inj heq])
  have hR := getTables_steps htrans hnext (hrmap s s.rmap) h (q := []) rfl (by simpa using hlen) hget nofun
  obtain ⟨hgrow, htab⟩ := getTables_spec h (q := []) rfl (by simpa using hlen) hget
  rcases storeLeaf_cases hlt hrun with ⟨-, hunused, hframe, -, rfl⟩ | ⟨-, rfl⟩
  · exact htrans _ _ _ hR (htrans _ _ _ (hleaf _ _ t _ _ hgrow.inv (htab t rfl)
      (not_present_of_isUnused hunused) (PageLevel.leaf_pack _ flags hframe)) (hrmap _ _))
  · exact hR

end

end Steps

end BoruixKernel
