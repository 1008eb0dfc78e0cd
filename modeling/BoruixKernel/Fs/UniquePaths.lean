import BoruixKernel.Fs.Tmpfs

/-!
# Paths name nodes

A path that leads from the root to a node is the way back to it, if on every level the
names of the children are components and differ from each other.  `TreeInv` says so, and
the calls on tmpfs keep it, with two exceptions.  A path that comes down to the root has
the empty name as its last part, and `vfs_mkfile` makes a node of that name; and
`vfs_rename` takes any name.
-/

namespace BoruixKernel

open Function List Outcome

variable {ω : Type} {s s' : Vfs ω} {n p : NodeId}

/-! ## The tree -/

/-- The parent of every child is the node that has it, and the names of the children are
components and all different. -/
structure TreeInv (s : Vfs ω) : Prop where
  rootName : (s.nodes vfsRoot).name = ['/']
  rootParent : (s.nodes vfsRoot).parent = none
  rootAlive : s.dropped vfsRoot = false
  rootLt : vfsRoot < s.next
  child : ∀ p c, c ∈ (s.nodes p).children →
    p < c ∧ c < s.next ∧ (s.nodes c).parent = some p ∧ IsComponent (s.nodes c).name
  names : ∀ p, (s.nodes p).children.Pairwise fun c d => (s.nodes c).name ≠ (s.nodes d).name
  links : ∀ n t, (s.nodes n).linkto = some t → t < s.next
  /-- A node keeps its children alive. -/
  alive : ∀ p c, s.dropped p = false → c ∈ (s.nodes p).children → s.dropped c = false
  fresh : ∀ n, s.next ≤ n → s.dropped n = false

theorem vfsInit_treeInv : TreeInv (vfsInit : Vfs ω) where
  rootName := rfl
  rootParent := rfl
  rootAlive := rfl
  rootLt := Nat.one_pos
  child := by simp [vfsInit, VfsNodeMeta.newRoot]
  names := by simp [vfsInit, VfsNodeMeta.newRoot]
  links := by simp [vfsInit, VfsNodeMeta.newRoot]
  alive := by simp [vfsInit]
  fresh := by simp [vfsInit]

/-- The tree is the same; only handles, types and boxes may differ. -/
structure SameTree (s s' : Vfs ω) : Prop where
  next : s'.next = s.next
  dropped : s'.dropped = s.dropped
  name : ∀ n, (s'.nodes n).name = (s.nodes n).name
  parent : ∀ n, (s'.nodes n).parent = (s.nodes n).parent
  children : ∀ n, (s'.nodes n).children = (s.nodes n).children
  links : ∀ n t, (s'.nodes n).linkto = some t → (s.nodes n).linkto = some t ∨ t < s.next

theorem SameTree.refl (s : Vfs ω) : SameTree s s :=
  ⟨rfl, rfl, fun _ => rfl, fun _ => rfl, fun _ => rfl, fun _ _ => .inl⟩

theorem SameTree.trans (h : SameTree s s₁) (h' : SameTree s₁ s') : SameTree s s' where
  next := h'.next.trans h.next
  dropped := h'.dropped.trans h.dropped
  name n := (h'.name n).trans (h.name n)
  parent n := (h'.parent n).trans (h.parent n)
  children n := (h'.children n).trans (h.children n)
  links n t ht := by
    rcases h'.links n t ht with hold | hlt
    · exact h.links n t hold
    · exact .inr (h.next ▸ hlt)

variable {f : VfsNodeMeta → VfsNodeMeta} {parts : List Str} {c : VfsCall}

/-- A change of one node that leaves its place in the tree. -/
theorem SameTree.modify (s : Vfs ω) (n : NodeId) (hname : (f (s.nodes n)).name = (s.nodes n).name)
    (hparent : (f (s.nodes n)).parent = (s.nodes n).parent)
    (hchildren : (f (s.nodes n)).children = (s.nodes n).children)
    (hlinks : ∀ t, (f (s.nodes n)).linkto = some t → (s.nodes n).linkto = some t ∨ t < s.next) :
    SameTree s (s.modify n f) := by
  have hcases : ∀ m, m = n ∨ (s.modify n f).nodes m = s.nodes m := by
    intro m
    by_cases hm : m = n
    · exact .inl hm
    · exact .inr (update_of_ne hm _ _)
  have hself : (s.modify n f).nodes n = f (s.nodes n) := update_self _ _ _
  refine ⟨rfl, rfl, fun m => ?_, fun m => ?_, fun m => ?_, fun m t ht => ?_⟩ <;>
    rcases hcases m with rfl | hm
  · rw [hself, hname]
  · rw [hm]
  · rw [hself, hparent]
  · rw [hm]
  · rw [hself, hchildren]
  · rw [hm]
  · exact hlinks t (hself ▸ ht)
  · exact .inl (hm ▸ ht)

theorem TreeInv.sameTree (h : TreeInv s) (hs : SameTree s s') : TreeInv s' where
  rootName := (hs.name _).trans h.rootName
  rootParent := (hs.parent _).trans h.rootParent
  rootAlive := by rw [hs.dropped, h.rootAlive]
  rootLt := hs.next ▸ h.rootLt
  child p c hc := by
    rw [hs.next, hs.parent, hs.name]
    exact h.child p c (hs.children p ▸ hc)
  names p := by
    rw [hs.children]
    simpa only [hs.name] using h.names p
  links n t ht := by
    rw [hs.next]
    rcases hs.links n t ht with hold | hlt
    · exact h.links n t hold
    · exact hlt
  alive p c hp hc := by
    rw [hs.dropped] at hp ⊢
    exact h.alive p c hp (hs.children p ▸ hc)
  fresh n hn := by
    rw [hs.dropped]
    exact h.fresh n (hs.next ▸ hn)

/-! ## Changes of the tree -/

/-- No child of the node has the name. -/
theorem name_ne_of_find (h : vfsChildFind p name s = none) :
    ∀ c ∈ (s.nodes p).children, (s.nodes c).name ≠ name := by
  intro c hc
  simpa using find?_eq_none.mp h c hc

section Append

variable (name : Str)

theorem childAppend_next : (vfsChildAppend p name s).2.next = s.next + 1 := rfl

theorem childAppend_new (hp : p < s.next) : (vfsChildAppend p name s).2.nodes s.next =
      { name, nodeType := .None, fsid := (s.nodes p).fsid, size := 0, mode := 0o777,
        parent := some p, children := [], linkto := none, linktoPath := none, handle := none,
        isMount := false } := by
  simp only [vfsChildAppend, Vfs.modify]
  rw [update_of_ne (Nat.ne_of_gt hp), update_self]

/-- The node it is put under. -/
theorem childAppend_parent (hp : p < s.next) : (vfsChildAppend p name s).2.nodes p =
      { s.nodes p with children := (s.nodes p).children ++ [s.next] } := by
  simp only [vfsChildAppend, Vfs.modify]
  rw [update_self, update_of_ne (Nat.ne_of_lt hp)]

theorem childAppend_other (hn : n ≠ p) (hn' : n ≠ s.next) :
    (vfsChildAppend p name s).2.nodes n = s.nodes n := by
  simp only [vfsChildAppend, Vfs.modify]
  rw [update_of_ne hn, update_of_ne hn']

end Append

variable {name : Str}

/-- The name of a node can be used for a new child. -/
theorem TreeInv.childAppend (h : TreeInv s) (hp : p < s.next) (hname : IsComponent name)
    (hfree : ∀ c ∈ (s.nodes p).children, (s.nodes c).name ≠ name) :
    TreeInv (vfsChildAppend p name s).2 := by
  have hnew := childAppend_new name hp
  have hpar := childAppend_parent name hp
  have hother : ∀ n, n ≠ p → n ≠ s.next → (vfsChildAppend p name s).2.nodes n = s.nodes n :=
    fun n => childAppend_other name
  have hkept : ∀ n < s.next, ((vfsChildAppend p name s).2.nodes n).name = (s.nodes n).name ∧
      ((vfsChildAppend p name s).2.nodes n).parent = (s.nodes n).parent ∧
      ((vfsChildAppend p name s).2.nodes n).linkto = (s.nodes n).linkto := by
    intro n hn
    by_cases hnp : n = p
    · subst hnp
      rw [hpar]
      exact ⟨rfl, rfl, rfl⟩
    · rw [hother n hnp (Nat.ne_of_lt hn)]
      exact ⟨rfl, rfl, rfl⟩
  have hroot := hkept vfsRoot h.rootLt
  have hchildren : ∀ q c, c ∈ ((vfsChildAppend p name s).2.nodes q).children →
      c ∈ (s.nodes q).children ∨ q = p ∧ c = s.next := by
    intro q c hc
    by_cases hqp : q = p
    · subst hqp
      rw [hpar] at hc
      rcases mem_append.mp hc with hc | hc
      · exact .inl hc
      · exact .inr ⟨rfl, mem_singleton.mp hc⟩
    · by_cases hqn : q = s.next
      · subst hqn
        rw [hnew] at hc
        cases hc
      · rw [hother q hqp hqn] at hc
        exact .inl hc
  constructor
  · exact hroot.1.trans h.rootName
  · exact hroot.2.1.trans h.rootParent
  · exact h.rootAlive
  · exact Nat.lt_succ_of_lt h.rootLt
  · intro q c hc
    rw [childAppend_next]
    rcases hchildren q c hc with hold | ⟨rfl, rfl⟩
    · obtain ⟨hlt, hnext, hparent, hcomp⟩ := h.child q c hold
      rw [(hkept c hnext).1, (hkept c hnext).2.1]
      exact ⟨hlt, Nat.lt_succ_of_lt hnext, hparent, hcomp⟩
    · rw [hnew]
      exact ⟨hp, Nat.lt_succ_self _, rfl, hname⟩
  · intro q
    have hsame : ∀ q, ((s.nodes q).children).Pairwise fun c d =>
        ((vfsChildAppend p name s).2.nodes c).name ≠ ((vfsChildAppend p name s).2.nodes d).name := by
      intro q
      refine (h.names q).imp_of_mem fun hc hd hne => ?_
      rwa [(hkept _ (h.child q _ hc).2.1).1, (hkept _ (h.child q _ hd).2.1).1]
    by_cases hqp : q = p
    · subst hqp
      rw [hpar]
      refine pairwise_append.mpr ⟨hsame q, pairwise_singleton _ _, fun c hc d hd => ?_⟩
      obtain rfl := mem_singleton.mp hd
      rw [hnew, (hkept c (h.child q c hc).2.1).1]
      exact hfree c hc
    · by_cases hqn : q = s.next
      · subst hqn
        rw [hnew]
        exact List.Pairwise.nil
      · rw [hother q hqp hqn]
        exact hsame q
  · intro n t ht
    rw [childAppend_next]
    by_cases hn : n < s.next
    · rw [(hkept n hn).2.2] at ht
      exact Nat.lt_succ_of_lt (h.links n t ht)
    · by_cases hns : n = s.next
      · subst hns
        rw [hnew] at ht
        cases ht
      · have hnp : n ≠ p := by
          rintro rfl
          exact hn hp
        rw [hother n hnp hns] at ht
        exact Nat.lt_succ_of_lt (h.links n t ht)
  · intro q c hq hc
    rcases hchildren q c hc with hold | ⟨-, rfl⟩
    · exact h.alive q c hq hold
    · exact h.fresh _ (Nat.le_refl _)
  · intro n hn
    exact h.fresh n (Nat.le_of_succ_le hn)

theorem TreeInv.shrink (h : TreeInv s) (hname : (f (s.nodes n)).name = (s.nodes n).name)
    (hparent : (f (s.nodes n)).parent = (s.nodes n).parent)
    (hchildren : (f (s.nodes n)).children.Sublist (s.nodes n).children)
    (hlinks : (f (s.nodes n)).linkto = (s.nodes n).linkto) : TreeInv (s.modify n f) := by
  have hself : (s.modify n f).nodes n = f (s.nodes n) := update_self _ _ _
  have hother : ∀ m, m ≠ n → (s.modify n f).nodes m = s.nodes m := fun m hm =>
    update_of_ne hm _ _
  have hkept : ∀ m, ((s.modify n f).nodes m).name = (s.nodes m).name ∧
      ((s.modify n f).nodes m).parent = (s.nodes m).parent ∧
      ((s.modify n f).nodes m).linkto = (s.nodes m).linkto ∧
      ((s.modify n f).nodes m).children.Sublist (s.nodes m).children := by
    intro m
    by_cases hm : m = n
    · subst hm
      rw [hself]
      exact ⟨hname, hparent, hlinks, hchildren⟩
    · rw [hother m hm]
      exact ⟨rfl, rfl, rfl, List.Sublist.refl _⟩
  constructor
  · exact (hkept _).1.trans h.rootName
  · exact (hkept _).2.1.trans h.rootParent
  · exact h.rootAlive
  · exact h.rootLt
  · intro p c hc
    rw [(hkept c).1, (hkept c).2.1]
    exact h.child p c ((hkept p).2.2.2.subset hc)
  · intro p
    simp only [fun m => (hkept m).1]
    exact (h.names p).sublist (hkept p).2.2.2
  · intro m t ht
    exact h.links m t ((hkept m).2.2.1.symm.trans ht)
  · intro p c hp hc
    exact h.alive p c hp ((hkept p).2.2.2.subset hc)
  · exact h.fresh

theorem TreeInv.detach (h : TreeInv s) (p n : NodeId) : TreeInv (s.detach p n) :=
  h.shrink rfl rfl filter_sublist rfl

theorem TreeInv.free (h : TreeInv s) (n : NodeId) : TreeInv (vfsFree n s) := by
  unfold vfsFree
  split
  · exact (h.detach _ _).shrink rfl rfl (nil_sublist _) rfl
  · exact h.shrink rfl rfl (nil_sublist _) rfl

/-- No other child of the same node has the name. -/
def NameFree (s : Vfs ω) (n : NodeId) (name : Str) : Prop :=
  ∀ p c, n ∈ (s.nodes p).children → c ∈ (s.nodes p).children → c ≠ n → (s.nodes c).name ≠ name

/-- The node may get the name: it is a component that is free, or the root keeps its own. -/
def Renamable (s : Vfs ω) (n : NodeId) (name : Str) : Prop :=
  (n = vfsRoot → name = ['/']) ∧ (n ≠ vfsRoot → IsComponent name ∧ NameFree s n name)

theorem TreeInv.rename (h : TreeInv s) (hn : Renamable s n name) :
    TreeInv (s.modify n ({ · with name })) := by
  have hself : (s.modify n ({ · with name })).nodes n = { s.nodes n with name } :=
    update_self _ _ _
  have hother : ∀ m, m ≠ n → (s.modify n ({ · with name })).nodes m = s.nodes m := fun m hm =>
    update_of_ne hm _ _
  have hkept : ∀ m, ((s.modify n ({ · with name })).nodes m).parent = (s.nodes m).parent ∧
      ((s.modify n ({ · with name })).nodes m).linkto = (s.nodes m).linkto ∧
      ((s.modify n ({ · with name })).nodes m).children = (s.nodes m).children := by
    intro m
    by_cases hm : m = n
    · subst hm
      rw [hself]
      exact ⟨rfl, rfl, rfl⟩
    · rw [hother m hm]
      exact ⟨rfl, rfl, rfl⟩
  have hname : ((s.modify n ({ · with name })).nodes n).name = name := by rw [hself]
  have hroot : ∀ p c, c ∈ (s.nodes p).children → c ≠ vfsRoot := by
    rintro p c hc rfl
    exact absurd (h.child p _ hc).1 (Nat.not_lt_zero _)
  constructor
  · by_cases hr : vfsRoot = n
    · rw [hr, hname, hn.1 hr.symm]
    · rw [hother _ hr, h.rootName]
  · exact (hkept _).1.trans h.rootParent
  · exact h.rootAlive
  · exact h.rootLt
  · intro p c hc
    rw [(hkept p).2.2] at hc
    obtain ⟨hlt, hnext, hparent, hcomp⟩ := h.child p c hc
    rw [(hkept c).1]
    refine ⟨hlt, hnext, hparent, ?_⟩
    by_cases hcn : c = n
    · subst hcn
      rw [hname]
      exact (hn.2 (hroot p c hc)).1
    · rw [hother c hcn]
      exact hcomp
  · intro p
    rw [(hkept p).2.2]
    refine (h.names p).imp_of_mem fun {c d} hc hd hne => ?_
    by_cases hcn : c = n
    · subst hcn
      by_cases hdc : d = c
      · exact absurd (by rw [hdc]) hne
      · rw [hname, hother d hdc]
        exact ((hn.2 (hroot p c hc)).2 p d hc hd hdc).symm
    · rw [hother c hcn]
      by_cases hdn : d = n
      · subst hdn
        rw [hname]
        exact (hn.2 (hroot p d hd)).2 p c hd hc hcn
      · rw [hother d hdn]
        exact hne
  · intro m t ht
    exact h.links m t ((hkept m).2.1.symm.trans ht)
  · intro p c hp hc
    exact h.alive p c hp ((hkept p).2.2 ▸ hc)
  · exact h.fresh

/-! ## Steps that leave the tree -/

theorem SameTree.calling (s : Vfs ω) (n : NodeId) (fsid : Nat) : SameTree s (s.calling n fsid) := by
  unfold Vfs.calling
  split
  · exact SameTree.refl s
  · exact ⟨rfl, rfl, fun _ => rfl, fun _ => rfl, fun _ => rfl, fun _ _ => .inl⟩

theorem SameTree.setHandle (s : Vfs ω) (n : NodeId) (value : ω) :
    SameTree s (s.setHandle n value) := by
  have hmod := SameTree.modify s n (f := ({ · with handle := some s.nextHandle })) rfl rfl rfl
    fun _ => .inl
  exact ⟨rfl, rfl, hmod.name, hmod.parent, hmod.children, hmod.links⟩

theorem SameTree.freeHandle (s : Vfs ω) (n : NodeId) : SameTree s (s.freeHandle n) := by
  unfold Vfs.freeHandle
  split
  · exact SameTree.refl s
  · have hmod := SameTree.modify s n (f := ({ · with handle := none })) rfl rfl rfl fun _ => .inl
    exact ⟨rfl, rfl, hmod.name, hmod.parent, hmod.children, hmod.links⟩

section Tmpfs

variable (P : Boxed TmpfsFile ω) (fsid : Nat)

theorem SameTree.heap (s : Vfs ω) (heap : Handle → Option ω) : SameTree s { s with heap } :=
  ⟨rfl, rfl, fun _ => rfl, fun _ => rfl, fun _ => rfl, fun _ _ => .inl⟩

theorem SameTree.release (s : Vfs ω) (n : NodeId) : SameTree s (Tmpfs.release P n s) := by
  unfold Tmpfs.release
  split
  · exact SameTree.refl s
  · split
    · exact SameTree.heap s _
    · exact SameTree.freeHandle s n

theorem SameTree.walk (hrun : Tmpfs.walk P fsid fuel n s = some s') : SameTree s s' := by
  induction fuel generalizing n s s' with
  | zero => cases hrun
  | succ fuel ih =>
    rw [Tmpfs.walk, Option.map_eq_some_iff] at hrun
    obtain ⟨s₁, hfold, rfl⟩ := hrun
    have hchildren : SameTree s s₁ := by
      generalize (s.nodes n).children = cs at hfold
      induction cs generalizing s with
      | nil =>
        cases hfold
        exact SameTree.refl _
      | cons c cs ihc =>
        rw [foldlM_cons] at hfold
        obtain ⟨s₂, hwalk, hrest⟩ := Option.bind_eq_some_iff.mp hfold
        exact (ih hwalk).trans (ihc hrest)
    exact hchildren.trans ((SameTree.calling s₁ n fsid).trans (SameTree.release P _ n))

theorem SameTree.create : (Tmpfs.create P kind type n s).Post fun _ s' => SameTree s s' :=
  post_some ((SameTree.setHandle s n _).trans (SameTree.modify _ n rfl rfl rfl fun _ => .inl))

theorem SameTree.read : (Tmpfs.read P n offset len s).Post fun _ s' => SameTree s s' := by
  unfold Tmpfs.read
  split
  · exact post_some (SameTree.refl s)
  · split
    · exact post_some (SameTree.refl s)
    · split <;> exact post_some (SameTree.refl s)

theorem SameTree.write : (Tmpfs.write P n offset buf s).Post fun _ s' => SameTree s s' := by
  unfold Tmpfs.write
  split
  · exact post_some (SameTree.refl s)
  · split
    · exact post_some (SameTree.refl s)
    · simp only
      split
      · exact post_none
      · refine post_some ((SameTree.heap s _).trans (SameTree.modify _ n ?_ ?_ ?_ ?_))
        · rfl
        · rfl
        · rfl
        · exact fun _ => .inl

end Tmpfs

/-! ## A rule for opening -/

section Rule

variable {reg : Registry ω} {C : Str → Prop} {At : Vfs ω → NodeId → Prop} {R E : Vfs ω → Vfs ω → Prop}
  {s₁ s₂ : Vfs ω} {t : NodeId}

/-- `E` holds of the states in any case, and `R` if there is a node. -/
def Opened (At : Vfs ω → NodeId → Prop) (R E : Vfs ω → Vfs ω → Prop) (s : Vfs ω)
    (res : Except VfsError NodeId) (s' : Vfs ω) : Prop :=
  E s s' ∧ ∀ n, res = .ok n → R s s' ∧ At s' n

/-- What a walk over components in `C` needs, to come only to nodes in `At`. -/
structure OpenRule (reg : Registry ω) (C : Str → Prop) (At : Vfs ω → NodeId → Prop)
    (R E : Vfs ω → Vfs ω → Prop) : Prop where
  stay : ∀ {s n}, At s n → R s s ∧ E s s
  trans : ∀ {s s₁ s₂}, R s s₁ → R s₁ s₂ → R s s₂
  after : ∀ {s s₁ s₂}, R s s₁ → E s₁ s₂ → E s s₂
  root : ∀ {s n}, At s n → At s vfsRoot
  link : ∀ {s n t}, At s n → s.upgrade (s.nodes n).linkto = some t → At s t
  lookup : ∀ {s n c}, At s n → C c → (vfsLookup reg n c s).Post (Opened At R E s)

/-- What is then asked of the way a symbolic link is followed. -/
def Follows (At : Vfs ω → NodeId → Prop) (R E : Vfs ω → Vfs ω → Prop)
    (resolve : NodeId → Vfs ω → VfsResult ω (Option NodeId)) : Prop :=
  ∀ {s n}, At s n → (resolve n s).Post fun res s' =>
    E s s' ∧ ∀ t, res = .ok (some t) → R s s' ∧ At s' t

theorem Opened.failed (h : E s s') : Opened At R E s (.error e) s' := ⟨h, nofun⟩

section

variable (h : OpenRule reg C At R E)

include h

theorem OpenRule.here (hn : At s n) : Opened At R E s (.ok n) s := by
  refine ⟨(h.stay hn).2, ?_⟩
  rintro _ ⟨⟩
  exact ⟨(h.stay hn).1, hn⟩

theorem OpenRule.openParts (hresolve : Follows At R E resolve) (hparts : ∀ c ∈ parts, c ≠ [] → C c)
    (hn : At s n) : (vfsOpenParts reg resolve parts budget n s).Post (Opened At R E s) := by
  induction parts generalizing s n budget with
  | nil => exact post_some (h.here hn)
  | cons part parts ih =>
    have hrest : ∀ c ∈ parts, c ≠ [] → C c := fun c hc => hparts c (mem_cons_of_mem _ hc)
    have hgo : ∀ {s₁ t budget}, R s s₁ → At s₁ t →
        (vfsOpenParts reg resolve parts budget t s₁).Post (Opened At R E s) := fun hR ht =>
      (ih hrest ht).mono fun _ _ hp =>
        ⟨h.after hR hp.1, fun n hn => ⟨h.trans hR (hp.2 n hn).1, (hp.2 n hn).2⟩⟩
    rw [vfsOpenParts]
    split
    · exact ih hrest hn
    next hpart =>
    refine (h.lookup hn (hparts part mem_cons_self hpart)).andThen (fun _ _ hp => .failed hp.1)
      fun next s₁ hp => ?_
    obtain ⟨hR, hnext⟩ := hp.2 next rfl
    split
    · -- A symbolic link is followed, as long as the budget lasts.
      cases budget with
      | zero => exact post_some (.failed hp.1)
      | succ budget =>
        refine (hresolve hnext).andThen (fun _ _ hp => .failed (h.after hR hp.1)) fun target s₂ hp => ?_
        cases target with
        | none => exact post_some (.failed (h.after hR hp.1))
        | some t => exact hgo (h.trans hR (hp.2 t rfl).1) (hp.2 t rfl).2
    · exact hgo hR hnext

theorem OpenRule.follows (ho : ∀ p s, At s vfsRoot → (o p s).Post (Opened At R E s)) :
    Follows At R E (vfsResolveSymlink o) := by
  intro s n hn
  unfold vfsResolveSymlink
  simp only
  split
  · next link hlink =>
    refine post_some ⟨(h.stay hn).2, ?_⟩
    rintro _ ⟨⟩
    exact ⟨(h.stay hn).1, h.link hn hlink⟩
  · split
    · refine (ho _ s (h.root hn)).andThen (fun _ _ hp => ⟨hp.1, nofun⟩) fun t s' hp => ?_
      refine post_some ⟨hp.1, ?_⟩
      rintro _ ⟨⟩
      exact hp.2 t rfl
    · exact post_some ⟨(h.stay hn).2, nofun⟩

theorem OpenRule.open (hC : ∀ c, IsComponent c → C c) (depth : Nat) (path : Str) (hs : At s vfsRoot) :
    (vfsOpen reg depth path s).Post (Opened At R E s) := by
  induction depth generalizing s path with
  | zero => exact post_none
  | succ depth ih =>
    rw [vfsOpen]
    split
    · exact post_some (h.here hs)
    · next hpath =>
      rw [splitOn_normalizePath (mt normalizePath_of_nil hpath)]
      exact h.openParts (h.follows fun p s hs => ih p hs)
        (fun c hc _ => hC c (isComponent_of_mem_pathParts hc)) hs

end

end Rule

/-! ## Opening -/

def tmpfsOnly (P : Boxed TmpfsFile ω) : Registry ω := Registry.register [] "tmpfs".toList (Tmpfs.ops P)

section Calls

variable {P : Boxed TmpfsFile ω}

theorem ops_of_id
    (h : (tmpfsOnly P).getFilesystemById fsid = some fs) : fs.ops = Tmpfs.ops P fs.fsid := by
  have hmem := mem_of_find?_eq_some h
  obtain rfl := mem_singleton.mp hmem
  rfl

/-- After opening, the tree is one again; if a node was found, nothing has changed. -/
def OpenPost (s : Vfs ω) (res : Except VfsError NodeId) (s' : Vfs ω) : Prop :=
  TreeInv s' ∧ ∀ n, res = .ok n → s' = s ∧ n < s.next ∧ s.dropped n = false

variable {current : NodeId} {path : Str}

theorem vfsLookup_post (h : TreeInv s) (hlt : current < s.next) (halive : s.dropped current = false)
    (hpart : IsComponent part) :
    (vfsLookup (tmpfsOnly P) current part s).Post (OpenPost s) := by
  unfold vfsLookup
  cases hfind : vfsChildFind current part s with
  | some c =>
    have hc := mem_of_find?_eq_some hfind
    refine post_some ⟨h, ?_⟩
    rintro _ ⟨⟩
    exact ⟨rfl, (h.child current c hc).2.1, h.alive current c halive hc⟩
  | none =>
    cases hfs : (tmpfsOnly P).getFilesystemById (s.nodes current).fsid with
    | none =>
      refine post_some ⟨h, ?_⟩
      rintro _ ⟨⟩
    | some fs =>
      have hnew := h.childAppend hlt hpart (name_ne_of_find hfind)
      simp only [ops_of_id hfs, Tmpfs.ops]
      refine post_some ⟨?_, ?_⟩
      · exact (hnew.sameTree ((SameTree.calling _ _ _).trans (SameTree.calling _ _ _))).free _
      · rintro _ ⟨⟩

theorem upgrade_eq_some (h : s.upgrade w = some t) : w = some t ∧ s.dropped t = false := by
  simpa [Vfs.upgrade, Option.filter_eq_some_iff] using h

theorem treeInv_rule : OpenRule (tmpfsOnly P) IsComponent
    (fun s n => TreeInv s ∧ n < s.next ∧ s.dropped n = false) (fun s s' => s' = s)
    fun _ s' => TreeInv s' where
  stay hn := ⟨rfl, hn.1⟩
  trans h h' := h'.trans h
  after _ h := h
  root hn := ⟨hn.1, hn.1.rootLt, hn.1.rootAlive⟩
  link hn hlink := by
    obtain ⟨hto, halive⟩ := upgrade_eq_some hlink
    exact ⟨hn.1, hn.1.links _ _ hto, halive⟩
  lookup hn hc := (vfsLookup_post hn.1 hn.2.1 hn.2.2 hc).mono fun _ _ hp =>
    ⟨hp.1, fun n hn => ⟨(hp.2 n hn).1, hp.1, by rw [(hp.2 n hn).1]; exact (hp.2 n hn).2⟩⟩

theorem vfsOpen_post (depth : Nat) (h : TreeInv s) (path : Str) :
    (vfsOpen (tmpfsOnly P) depth path s).Post (OpenPost s) := by
  refine (treeInv_rule.open (fun _ hc => hc) depth path ⟨h, h.rootLt, h.rootAlive⟩).mono ?_
  intro res s' hp
  refine ⟨hp.1, fun n hn => ?_⟩
  obtain ⟨rfl, -, hn⟩ := hp.2 n hn
  exact ⟨rfl, hn⟩

/-! ## The calls -/

theorem vfsMkdirParts_treeInv (hparts : ∀ c ∈ parts, c = [] ∨ IsComponent c) (h : TreeInv s)
    (hlt : current < s.next) :
    (vfsMkdirParts (tmpfsOnly P) parts current s).Post fun _ => TreeInv := by
  induction parts generalizing current s with
  | nil => exact post_some h
  | cons part parts ih =>
    have hrest : ∀ c ∈ parts, c = [] ∨ IsComponent c := fun c hc => hparts c (mem_cons_of_mem _ hc)
    rw [vfsMkdirParts]
    split
    · exact ih hrest h hlt
    · next hne =>
      have hpart := (hparts part mem_cons_self).resolve_left hne
      split
      · next existing hfind =>
        split
        · exact ih hrest h (h.child _ _ (mem_of_find?_eq_some hfind)).2.1
        · exact post_some h
      · next hfind =>
        have hnew := h.childAppend hlt hpart (name_ne_of_find hfind)
        have hdir := SameTree.modify (vfsChildAppend current part s).2 (vfsChildAppend current part s).1
          (f := ({ · with nodeType := .Dir })) rfl rfl rfl fun _ => .inl
        simp only
        refine Outcome.Post.andThen (Q := fun _ s' => SameTree (vfsChildAppend current part s).2 s') ?_
          (fun e s' hs' => hnew.sameTree hs') fun _ s' hs' => ih hrest (hnew.sameTree hs') ?_
        · split
          · next fs hfs =>
            rw [ops_of_id hfs]
            refine (SameTree.create P).mono fun _ s' hs' => hdir.trans ?_
            exact ((SameTree.calling _ _ _).trans (SameTree.calling _ _ _)).trans hs'
          · exact post_some hdir
        · rw [hs'.next]
          exact Nat.lt_succ_self _

theorem vfsMkdir_treeInv (h : TreeInv s) (path : Str) :
    (vfsMkdir (tmpfsOnly P) path s).Post fun _ => TreeInv := by
  refine vfsMkdirParts_treeInv (fun c hc => ?_) h h.rootLt
  rw [trimStart_absolute] at hc
  by_cases hpath : pathParts path = []
  · rw [normalizePath_of_nil hpath] at hc
    exact .inl (mem_singleton.mp hc)
  · rw [splitOn_normalizePath hpath] at hc
    exact .inr (isComponent_of_mem_pathParts hc)

section

variable (depth : Nat) (h : TreeInv s) (hpath : pathParts path ≠ [])

include depth h hpath

/-- A new file, under a path that does not come down to the root. -/
theorem vfsMkfile_post : (vfsMkfile (tmpfsOnly P) depth path s).Post fun res s' =>
      TreeInv s' ∧ ∀ n, res = .ok n → s.next ≤ s'.next := by
  unfold vfsMkfile
  rw [trimStart_absolute, splitOn_normalizePath hpath]
  simp only
  split
  · next hlast => exact absurd (getLast?_eq_none_iff.mp hlast) hpath
  · next name hlast =>
    have hname := isComponent_of_mem_pathParts (mem_of_getLast? hlast)
    refine (vfsOpen_post depth h _).andThen (fun e s' hs' => ⟨hs'.1, ?_⟩) fun parent s₁ hparent => ?_
    · rintro _ ⟨⟩
    obtain ⟨rfl, hlt, -⟩ := hparent.2 parent rfl
    split
    · refine post_some ⟨h, ?_⟩
      rintro _ ⟨⟩
    · next hfind =>
      have hnew := h.childAppend hlt hname (name_ne_of_find (by simpa using hfind))
      refine Outcome.Post.andThen (Q := fun _ s' => SameTree (vfsChildAppend parent name s₁).2 s') ?_
        ?_ ?_
      · split
        · next fs hfs =>
          rw [ops_of_id hfs]
          refine (SameTree.create P).mono fun _ s' hs' => ?_
          exact ((SameTree.calling _ _ _).trans (SameTree.calling _ _ _)).trans hs'
        · exact post_some (SameTree.refl _)
      · intro e s' hs'
        refine ⟨hnew.sameTree hs', ?_⟩
        rintro _ ⟨⟩
      · intro _ s' hs'
        refine post_some ⟨hnew.sameTree hs', fun _ _ => ?_⟩
        rw [hs'.next]
        exact Nat.le_succ _

theorem vfsLink_treeInv : (vfsLink (tmpfsOnly P) depth target path s).Post fun _ => TreeInv := by
  refine (vfsOpen_post depth h target).andThen (fun _ _ hs => hs.1) fun t s₁ ht => ?_
  obtain ⟨rfl, hlt, -⟩ := ht.2 t rfl
  refine (vfsMkfile_post depth h hpath).andThen (fun _ _ hs => hs.1) fun n s₂ hn => ?_
  refine post_some (hn.1.sameTree (SameTree.modify _ n rfl rfl rfl ?_))
  rintro _ ⟨⟩
  exact .inr (Nat.lt_of_lt_of_le hlt (hn.2 n rfl))

theorem vfsSymlink_treeInv :
    (vfsSymlink (tmpfsOnly P) depth target path s).Post fun _ => TreeInv := by
  refine (vfsMkfile_post depth h hpath).andThen (fun _ _ hs => hs.1) fun n s₁ hn => ?_
  exact post_some (hn.1.sameTree (SameTree.modify _ n rfl rfl rfl fun _ => .inl))

end

theorem vfsDelete_treeInv (depth : Nat) (h : TreeInv s) (path : Str) :
    (vfsDelete (tmpfsOnly P) depth path s).Post fun _ => TreeInv := by
  refine (vfsOpen_post depth h path).andThen (fun _ _ hs => hs.1) fun n s₁ hn => ?_
  have h1 := hn.1
  split
  · exact post_some h1
  · next parent hparent =>
    split
    · exact post_some h1
    · refine Outcome.Post.andThen (Q := fun _ s' => TreeInv s') ?_ (fun _ _ hs => hs)
        fun _ s' hs' => post_some (hs'.detach parent n)
      split
      · next fs hfs =>
        rw [ops_of_id hfs]
        refine post_some (h1.sameTree ?_)
        exact ((SameTree.calling _ _ _).trans (SameTree.calling _ _ _)).trans (SameTree.release P _ n)
      · exact post_some h1

/-- A node that may get a name may get it again. -/
theorem Renamable.again (h : Renamable s n name) : Renamable (s.modify n ({ · with name })) n name := by
  have hnodes : ∀ m, m ≠ n → (s.modify n ({ · with name })).nodes m = s.nodes m := fun m hm =>
    update_of_ne hm _ _
  have hchildren : ∀ m, ((s.modify n ({ · with name })).nodes m).children = (s.nodes m).children := by
    intro m
    by_cases hm : m = n
    · subst hm
      simp [Vfs.modify]
    · rw [hnodes m hm]
  refine ⟨h.1, fun hne => ⟨(h.2 hne).1, fun p c hn hc hcn => ?_⟩⟩
  rw [hchildren] at hn hc
  rw [hnodes c hcn]
  exact (h.2 hne).2 p c hn hc hcn

theorem Renamable.sameTree (h : Renamable s n name) (hs : SameTree s s') : Renamable s' n name := by
  refine ⟨h.1, fun hne => ⟨(h.2 hne).1, fun p c hn hc hcn => ?_⟩⟩
  rw [hs.children] at hn hc
  rw [hs.name]
  exact (h.2 hne).2 p c hn hc hcn

theorem vfsRename_treeInv (depth : Nat) (h : TreeInv s)
    (hname : ∀ n s', vfsOpen (tmpfsOnly P) depth path s = some (.ok n, s') → Renamable s n newName) :
    (vfsRename (tmpfsOnly P) depth path newName s).Post fun _ => TreeInv := by
  have hopen : (vfsOpen (tmpfsOnly P) depth path s).Post fun res s' =>
      OpenPost s res s' ∧ ∀ n, res = .ok n → Renamable s n newName := by
    intro res s' hrun
    refine ⟨vfsOpen_post depth h path res s' hrun, ?_⟩
    rintro n rfl
    exact hname n s' hrun
  refine hopen.andThen (fun _ _ hs => hs.1.1) fun n s₁ hn => ?_
  obtain ⟨rfl, -, -⟩ := hn.1.2 n rfl
  have hren := hn.2 n rfl
  refine Outcome.Post.andThen (Q := fun _ s' => TreeInv s' ∧ Renamable s' n newName) ?_
    (fun _ _ hs => hs.1) fun _ s' hs' => post_some (hs'.1.rename hs'.2)
  split
  · next fs hfs =>
    -- tmpfs sets the name as well.
    rw [ops_of_id hfs]
    have hcall := SameTree.calling s₁ n fs.fsid
    refine post_some ⟨?_, ?_⟩
    · exact (h.sameTree hcall).rename (hren.sameTree hcall)
    · exact (hren.sameTree hcall).again
  · exact post_some ⟨h, hren⟩

theorem vfsMount_treeInv (h : TreeInv s) :
    (vfsMount (tmpfsOnly P) src fstype n s).Post fun _ => TreeInv := by
  unfold vfsMount
  split
  · exact post_some h
  · next fs hfs =>
    have hops : fs.ops = Tmpfs.ops P fs.fsid := by
      obtain rfl := mem_singleton.mp (mem_of_find?_eq_some hfs)
      rfl
    rw [hops]
    refine post_some (h.sameTree ?_)
    have hmark := SameTree.modify s n (f := ({ · with fsid := fs.fsid, isMount := true })) rfl rfl rfl
      fun _ => .inl
    exact hmark.trans ((SameTree.calling _ n _).trans ((SameTree.setHandle _ n _).trans
      (SameTree.modify _ n rfl rfl rfl fun _ => .inl)))

theorem vfsUnmount_treeInv (depth : Nat) (h : TreeInv s) (path : Str) :
    (vfsUnmount (tmpfsOnly P) depth path s).Post fun _ => TreeInv := by
  refine (vfsOpen_post depth h path).andThen (fun _ _ hs => hs.1) fun n s₁ hn => ?_
  split
  · exact post_some hn.1
  · next fs hfs =>
    rw [ops_of_id hfs]
    refine Outcome.Post.andThen (Q := fun _ s' => TreeInv s') ?_ (fun _ _ hs => hs)
      fun _ s' hs' => post_some (hs'.sameTree (SameTree.modify _ n rfl rfl rfl fun _ => .inl))
    intro res s' hrun
    obtain ⟨s₂, hwalk, ⟨⟩⟩ := Option.map_eq_some_iff.mp hrun
    exact hn.1.sameTree ((SameTree.calling s₁ n _).trans (SameTree.walk P _ hwalk))

/-- Calls that keep the names apart: no file is made under a path that comes down to the
root, and a new name is a component that no other child of the same node has. -/
def NamesOk (P : Boxed TmpfsFile ω) : VfsCall → Vfs ω → Prop
  | .mkfile path, _ | .symlink _ path, _ | .link _ path, _ => normalizePath path ≠ ['/']
  | .rename path newName, s => ∀ depth n s',
      vfsOpen (tmpfsOnly P) depth path s = some (.ok n, s') → Renamable s n newName
  | _, _ => True

theorem performVfsCall_treeInv (h : TreeInv s) (hc : NamesOk P c s) (depth : Nat) :
    (performVfsCall (tmpfsOnly P) depth s c).Post fun _ => TreeInv := by
  cases c with
  | mkdir path => exact vfsMkdir_treeInv h path
  | mkfile path =>
    exact (vfsMkfile_post depth h (mt normalizePath_of_nil hc)).andThen (fun _ _ hs => hs.1)
      fun _ _ hs => post_some hs.1
  | link target path =>
    exact (vfsLink_treeInv depth h (mt normalizePath_of_nil hc)).andThen (fun _ _ hs => hs)
      fun _ _ hs => post_some hs
  | symlink target path =>
    exact (vfsSymlink_treeInv depth h (mt normalizePath_of_nil hc)).andThen (fun _ _ hs => hs)
      fun _ _ hs => post_some hs
  | delete path => exact vfsDelete_treeInv depth h path
  | rename path newName => exact vfsRename_treeInv depth h (hc depth)
  | «open» path =>
    exact (vfsOpen_post depth h path).andThen (fun _ _ hs => hs.1) fun _ _ hs =>
      post_some hs.1
  | read n offset len =>
    refine Outcome.Post.andThen (Q := fun _ => TreeInv) ?_ (fun _ _ hs => hs)
      fun _ _ hs => post_some hs
    unfold vfsRead
    split
    · exact post_some h
    · next fs hfs =>
      rw [ops_of_id hfs]
      exact (SameTree.read P).mono fun _ s' hs' =>
        h.sameTree ((SameTree.calling s n _).trans hs')
  | write n offset buf =>
    refine Outcome.Post.andThen (Q := fun _ => TreeInv) ?_ (fun _ _ hs => hs)
      fun _ _ hs => post_some hs
    unfold vfsWrite
    split
    · exact post_some h
    · next fs hfs =>
      rw [ops_of_id hfs]
      exact (SameTree.write P).mono fun _ s' hs' =>
        h.sameTree ((SameTree.calling s n _).trans hs')
  | mount src fstype n => exact vfsMount_treeInv h
  | unmount path => exact vfsUnmount_treeInv depth h path

/-! ## The way back -/

/-- The nodes of the tree that are no symbolic links and are reached without one. -/
inductive Plain (s : Vfs ω) : NodeId → Prop
  | root : Plain s vfsRoot
  | child {p c : NodeId} : Plain s p → c ∈ (s.nodes p).children →
      (s.nodes c).nodeType ≠ .Symlink → Plain s c

theorem TreeInv.find_child (h : TreeInv s) {c : NodeId} (hc : c ∈ (s.nodes p).children) :
    vfsChildFind p (s.nodes c).name s = some c := by
  have hnames := h.names p
  unfold vfsChildFind
  generalize (s.nodes p).children = cs at hc hnames
  induction cs with
  | nil => cases hc
  | cons d cs ih =>
    rw [pairwise_cons] at hnames
    rcases mem_cons.mp hc with rfl | hc
    · simp
    · rw [find?_cons_of_neg (by simpa using hnames.1 c hc)]
      exact ih hc hnames.2

/-- The names above a plain node are components, and lead to it. -/
theorem Plain.names (h : TreeInv s) (hn : Plain s n) :
    s.dropped n = false ∧ ∃ names : List Str, (∀ c ∈ names, IsComponent c) ∧
      (∀ fuel, n < fuel → namesUp s fuel n = names) ∧
      ∀ resolve rest budget, vfsOpenParts (tmpfsOnly P) resolve (names ++ rest) budget vfsRoot s =
        vfsOpenParts (tmpfsOnly P) resolve rest budget n s := by
  induction hn with
  | root =>
    refine ⟨h.rootAlive, [], by simp, fun fuel hfuel => ?_, fun _ _ _ => rfl⟩
    obtain ⟨fuel, rfl⟩ := Nat.exists_eq_add_of_lt hfuel
    simp [namesUp, h.rootName, h.rootParent, Vfs.upgrade]
  | @child p c _ hc htype ih =>
    obtain ⟨halive, names, hcomp, hup, hdown⟩ := ih
    obtain ⟨hlt, -, hparent, hname⟩ := h.child p c hc
    refine ⟨h.alive p c halive hc, names ++ [(s.nodes c).name], ?_, fun fuel hfuel => ?_,
      fun resolve rest budget => ?_⟩
    · intro d hd
      rcases mem_append.mp hd with hd | hd
      · exact hcomp d hd
      · rwa [mem_singleton.mp hd]
    · cases fuel with
      | zero => cases hfuel
      | succ fuel =>
        have hslash : (s.nodes c).name ≠ ['/'] := by
          intro heq
          exact hname.2.1 (heq ▸ mem_singleton.mpr rfl)
        have hparent' : s.upgrade (s.nodes c).parent = some p := by
          simp [hparent, Vfs.upgrade, halive]
        rw [namesUp, hparent', if_neg hslash]
        simp [hup fuel (Nat.lt_of_lt_of_le hlt (Nat.le_of_lt_succ hfuel))]
    · rw [append_assoc, hdown, singleton_append, vfsOpenParts, if_neg hname.1]
      have hlook : vfsLookup (tmpfsOnly P) p (s.nodes c).name s = some (.ok c, s) := by
        simp [vfsLookup, h.find_child hc]
      rw [hlook, andThen_ok, if_neg htype]

/-- In a tree, opening the full path of a plain node gives the node. -/
theorem TreeInv.open_plain (h : TreeInv s) (hn : Plain s n) (depth : Nat) :
    vfsOpen (tmpfsOnly P) (depth + 1) (vfsGetFullpath s n) s = some (.ok n, s) := by
  obtain ⟨-, names, hcomp, hup, hdown⟩ := hn.names h (P := P)
  have hfull : vfsGetFullpath s n = '/' :: joinParts names := by
    unfold vfsGetFullpath
    rw [hup _ (Nat.lt_succ_self n)]
    refine if_neg ?_
    rintro ⟨hlen, hlast⟩
    cases hj : joinParts names with
    | nil =>
      rw [hj] at hlen
      simp at hlen
    | cons c rest =>
      rw [hj, getLast?_cons_cons, ← hj] at hlast
      exact joinParts_getLast hcomp hlast
  have hparts : pathParts (vfsGetFullpath s n) = names := by
    rw [hfull, pathParts_joinParts hcomp]
  rw [vfsOpen]
  by_cases hnil : names = []
  · have hroot := hdown (fun _ s => some (.ok none, s)) [] 0
    rw [hnil] at hroot
    cases hroot
    simp [normalizePath_of_nil (hparts.trans hnil)]
  · have hne : pathParts (vfsGetFullpath s n) ≠ [] := by rwa [hparts]
    simp only [mt normalizePath_eq_slash.mp hne, if_false, splitOn_normalizePath hne, hparts]
    rw [← append_nil names, hdown]
    rfl

theorem TreeInv.drop (h : TreeInv s) (hlt : n < s.next) (hne : n ≠ vfsRoot)
    (hfree : ∀ p, s.dropped p = false → n ∉ (s.nodes p).children) :
    TreeInv { s with dropped := update s.dropped n true } := by
  have hold : ∀ m, update s.dropped n true m = false → m ≠ n ∧ s.dropped m = false := by
    intro m hm
    by_cases hmn : m = n
    · subst hmn
      simp at hm
    · exact ⟨hmn, by rwa [update_of_ne hmn] at hm⟩
  refine { h with rootAlive := ?_, alive := fun p c hp hc => ?_, fresh := fun m hm => ?_ }
  · exact (update_of_ne hne.symm _ _).trans h.rootAlive
  · obtain ⟨-, hp'⟩ := hold p hp
    have hcn : c ≠ n := by
      rintro rfl
      exact hfree p hp' hc
    exact (update_of_ne hcn _ _).trans (h.alive p c hp' hc)
  · have hmn : m ≠ n := by
      rintro rfl
      exact Nat.not_lt.mpr hm hlt
    exact (update_of_ne hmn _ _).trans (h.fresh m hm)

theorem VfsRun.treeInv (h : VfsRun (tmpfsOnly P) (NamesOk P) s) : TreeInv s := by
  induction h with
  | init => exact vfsInit_treeInv
  | call _ hok _ hrun ih => exact performVfsCall_treeInv ih hok _ _ _ hrun
  | drop _ hlt hne hfree ih => exact ih.drop hlt hne hfree

/-- Paths name nodes: in every run in which no file is made at the root path and new names
are free components, opening the full path of a node gives the node. -/
theorem VfsRun.open_fullpath (h : VfsRun (tmpfsOnly P) (NamesOk P) s) (hn : Plain s n)
    (depth : Nat) :
    vfsOpen (tmpfsOnly P) (depth + 1) (vfsGetFullpath s n) s = some (.ok n, s) :=
  h.treeInv.open_plain hn depth

end Calls

/-! ## Two nodes with one path -/

def tmpfsAlone : Registry TmpfsFile := tmpfsOnly (Boxed.self TmpfsFile)

/-- The state after some calls, as long as they return. -/
def afterCalls (reg : Registry ω) (depth : Nat) (calls : List VfsCall) : Vfs ω :=
  calls.foldl (fun s c => ((performVfsCall reg depth s c).map (·.2)).getD s) vfsInit

theorem VfsRun.afterCalls (h : VfsRun reg ok (afterCalls reg depth calls))
    (hok : ok c (BoruixKernel.afterCalls reg depth calls))
    (hnode : ∀ n, c.node? = some n → n < (BoruixKernel.afterCalls reg depth calls).next ∧
      (BoruixKernel.afterCalls reg depth calls).dropped n = false)
    (hret : (performVfsCall reg depth (BoruixKernel.afterCalls reg depth calls) c).isSome) :
    VfsRun reg ok (BoruixKernel.afterCalls reg depth (calls ++ [c])) := by
  obtain ⟨⟨r, s'⟩, hrun⟩ := Option.isSome_iff_exists.mp hret
  have hstate : BoruixKernel.afterCalls reg depth (calls ++ [c]) = s' := by
    simp only [BoruixKernel.afterCalls, foldl_append, foldl_cons, foldl_nil] at hrun ⊢
    rw [hrun]
    rfl
  rw [hstate]
  exact .call h hok hnode hrun

/-- A directory, a file in it and a link. -/
def treeCalls : List VfsCall :=
  [.mount none "tmpfs".toList 0, .mkdir "/a/b".toList, .mkfile "a/./f".toList,
    .symlink "/a/f".toList "/a/b/../l".toList]

theorem treeCalls_run :
    VfsRun tmpfsAlone (NamesOk (Boxed.self TmpfsFile)) (afterCalls tmpfsAlone 1 treeCalls) := by
  have hmount : VfsRun tmpfsAlone (NamesOk (Boxed.self TmpfsFile))
      (afterCalls tmpfsAlone 1 (treeCalls.take 1)) := by
    have hinit : VfsRun tmpfsAlone (NamesOk (Boxed.self TmpfsFile)) (afterCalls tmpfsAlone 1 []) :=
      .init
    refine hinit.afterCalls trivial ?_ (by decide +kernel)
    rintro _ ⟨⟩
    exact ⟨by decide, rfl⟩
  have hdir : VfsRun tmpfsAlone (NamesOk (Boxed.self TmpfsFile))
      (afterCalls tmpfsAlone 1 (treeCalls.take 2)) :=
    hmount.afterCalls trivial (by rintro _ ⟨⟩) (by decide +kernel)
  have hfile : VfsRun tmpfsAlone (NamesOk (Boxed.self TmpfsFile))
      (afterCalls tmpfsAlone 1 (treeCalls.take 3)) := by
    refine hdir.afterCalls (c := .mkfile "a/./f".toList) ?_ (by rintro _ ⟨⟩) (by decide +kernel)
    change normalizePath _ ≠ _
    decide +kernel
  refine hfile.afterCalls (c := .symlink "/a/f".toList "/a/b/../l".toList) ?_ (by rintro _ ⟨⟩)
    (by decide +kernel)
  change normalizePath _ ≠ _
  decide +kernel

theorem open_fullpath_file :
    let s := afterCalls tmpfsAlone 1 treeCalls
    Plain s 3 ∧ vfsGetFullpath s 3 = "/a/f".toList ∧
      vfsOpen tmpfsAlone 1 (vfsGetFullpath s 3) s = some (.ok 3, s) := by
  have hplain : Plain (afterCalls tmpfsAlone 1 treeCalls) 3 := by
    refine .child (p := 1) (.child .root ?_ ?_) ?_ ?_ <;> decide +kernel
  exact ⟨hplain, by decide +kernel, VfsRun.open_fullpath treeCalls_run hplain 0⟩

/-- A file that is renamed to the name of another one is out of reach. -/
theorem rename_hides_file :
    let s := afterCalls tmpfsAlone 1 [.mount none "tmpfs".toList 0, .mkfile "/a".toList,
      .mkfile "/b".toList, .rename "/b".toList "a".toList]
    VfsRun tmpfsAlone (fun _ _ => True) s ∧ Plain s 2 ∧
      (vfsOpen tmpfsAlone 1 (vfsGetFullpath s 2) s).map (·.1.toOption) = some (some 1) := by
  refine ⟨?_, .child .root (by decide +kernel) (by decide +kernel), by decide +kernel⟩
  have hmount : VfsRun tmpfsAlone (fun _ _ => True)
      (afterCalls tmpfsAlone 1 [.mount none "tmpfs".toList 0]) := by
    have hinit : VfsRun tmpfsAlone (fun _ _ => True) (afterCalls tmpfsAlone 1 []) := .init
    refine hinit.afterCalls trivial ?_ (by decide +kernel)
    rintro _ ⟨⟩
    exact ⟨by decide, rfl⟩
  have hfirst := hmount.afterCalls (c := .mkfile "/a".toList) trivial (by rintro _ ⟨⟩)
    (by decide +kernel)
  have hsecond := hfirst.afterCalls (c := .mkfile "/b".toList) trivial (by rintro _ ⟨⟩)
    (by decide +kernel)
  exact hsecond.afterCalls (c := .rename "/b".toList "a".toList) trivial (by rintro _ ⟨⟩)
    (by decide +kernel)

end BoruixKernel
