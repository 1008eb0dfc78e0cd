import BoruixKernel.Fs.UniquePaths

/-!
# Following symbolic links

`vfs_open` follows a symbolic link by opening its target from the root, in an activation
of its own with a budget of its own.  `OpenWalk` describes the components an activation goes
through, `Meets` the links it comes to, and `Active` the activations that an activation
starts.  `Settles` says that no link is met while its own target is being opened, and that
every lookup on the way returns.

A lookup may add nodes, and links among them; `Steady` says that it keeps what is there and
that there are only so many links it can add.
-/

namespace BoruixKernel

open Finset

variable {ω : Type}

/-! ## What lookups keep -/

namespace Vfs

/-- The numbers that nodes refer to are numbers of nodes. -/
structure Closed (s : Vfs ω) : Prop where
  root : vfsRoot < s.next
  parent : ∀ n < s.next, ∀ p, (s.nodes n).parent = some p → p < s.next
  child : ∀ n < s.next, ∀ c ∈ (s.nodes n).children, c < s.next
  linkto : ∀ n < s.next, ∀ t, (s.nodes n).linkto = some t → t < s.next

/-- Nothing that a walk reads is lost. -/
structure Kept (s s' : Vfs ω) : Prop where
  next : s.next ≤ s'.next
  dropped : s'.dropped = s.dropped
  name : ∀ n < s.next, (s'.nodes n).name = (s.nodes n).name
  nodeType : ∀ n < s.next, (s'.nodes n).nodeType = (s.nodes n).nodeType
  parent : ∀ n < s.next, (s'.nodes n).parent = (s.nodes n).parent
  linkto : ∀ n < s.next, (s'.nodes n).linkto = (s.nodes n).linkto
  linktoPath : ∀ n < s.next, (s'.nodes n).linktoPath = (s.nodes n).linktoPath
  children : ∀ n < s.next, (s.nodes n).children <+: (s'.nodes n).children

variable {s s' s₁ s₂ : Vfs ω} {n p : NodeId}

theorem Kept.refl (s : Vfs ω) : Kept s s :=
  ⟨Nat.le_refl _, rfl, fun _ _ => rfl, fun _ _ => rfl, fun _ _ => rfl, fun _ _ => rfl,
    fun _ _ => rfl, fun _ _ => List.prefix_rfl⟩

theorem Kept.trans (h : Kept s s₁) (h' : Kept s₁ s₂) : Kept s s₂ where
  next := h.next.trans h'.next
  dropped := h'.dropped.trans h.dropped
  name n hn := (h'.name n (hn.trans_le h.next)).trans (h.name n hn)
  nodeType n hn := (h'.nodeType n (hn.trans_le h.next)).trans (h.nodeType n hn)
  parent n hn := (h'.parent n (hn.trans_le h.next)).trans (h.parent n hn)
  linkto n hn := (h'.linkto n (hn.trans_le h.next)).trans (h.linkto n hn)
  linktoPath n hn := (h'.linktoPath n (hn.trans_le h.next)).trans (h.linktoPath n hn)
  children n hn := (h.children n hn).trans (h'.children n (hn.trans_le h.next))

/-- A child that was found is found again. -/
theorem Kept.childFind (h : Kept s s') (hs : s.Closed) (hp : p < s.next) {name : Str}
    (hfind : vfsChildFind p name s = some n) : vfsChildFind p name s' = some n := by
  obtain ⟨more, hmore⟩ := h.children p hp
  have hsame : (s.nodes p).children.find? (fun c => (s'.nodes c).name == name) =
      (s.nodes p).children.find? fun c => (s.nodes c).name == name := by
    refine List.find?_congr fun c hc => ?_
    rw [h.name c (hs.child p hp c hc)]
  rw [vfsChildFind, ← hmore, List.find?_append, hsame]
  rw [vfsChildFind] at hfind
  rw [hfind, Option.some_or]

theorem Kept.upgrade (h : Kept s s') (w : Option NodeId) : s'.upgrade w = s.upgrade w := by
  rw [Vfs.upgrade, Vfs.upgrade, h.dropped]

theorem Kept.namesUp (h : Kept s s') (hs : s.Closed) (fuel : Nat) (hn : n < s.next) :
    BoruixKernel.namesUp s' fuel n = BoruixKernel.namesUp s fuel n := by
  induction fuel generalizing n with
  | zero => rfl
  | succ fuel ih =>
    rw [BoruixKernel.namesUp, BoruixKernel.namesUp, h.name n hn, h.parent n hn, h.upgrade]
    cases hp : s.upgrade (s.nodes n).parent with
    | none => rfl
    | some p =>
      have hparent : (s.nodes n).parent = some p := (Option.filter_eq_some_iff.mp hp).1
      simp [ih (hs.parent n hn p hparent)]

theorem Kept.fullpath (h : Kept s s') (hs : s.Closed) (hn : n < s.next) :
    vfsGetFullpath s' n = vfsGetFullpath s n := by
  rw [vfsGetFullpath, vfsGetFullpath, h.namesUp hs _ hn]

/-- The links among the nodes that are not in a set. -/
def linksOff (st : Finset NodeId) (s : Vfs ω) : Nat :=
  ((Finset.range s.next).filter fun n => (s.nodes n).nodeType = .Symlink ∧ n ∉ st).card

def newLinks (s s' : Vfs ω) : Nat :=
  ((Finset.Ico s.next s'.next).filter fun n => (s'.nodes n).nodeType = .Symlink).card

/-- A later state of a walk.  `spare` bounds the number of links that may still be added. -/
structure Later (spare : Vfs ω → Nat) (s s' : Vfs ω) : Prop extends Kept s s' where
  closed : s'.Closed
  links : newLinks s s' + spare s' ≤ spare s

variable {spare : Vfs ω → Nat}

theorem Later.refl (hs : s.Closed) : Later spare s s := by
  refine ⟨.refl s, hs, ?_⟩
  rw [newLinks, Finset.Ico_self, filter_empty, card_empty, Nat.zero_add]

theorem Later.trans (h : Later spare s s₁) (h' : Later spare s₁ s₂) : Later spare s s₂ := by
  refine ⟨h.toKept.trans h'.toKept, h'.closed, ?_⟩
  have hsplit : newLinks s s₂ ≤ newLinks s s₁ + newLinks s₁ s₂ := by
    rw [newLinks, ← Finset.Ico_union_Ico_eq_Ico h.next h'.next, filter_union]
    refine (card_union_le _ _).trans (Nat.add_le_add_right (le_of_eq ?_) _)
    refine congrArg Finset.card (filter_congr fun n hn => ?_)
    rw [h'.nodeType n (mem_Ico.mp hn).2]
  have := h.links
  have := h'.links
  omega

/-- The links that are not in a set, and those that may be added, do not get more. -/
theorem Later.linksOff_le (h : Later spare s s') (st : Finset NodeId) :
    linksOff st s' + spare s' ≤ linksOff st s + spare s := by
  have hsplit : linksOff st s' ≤ linksOff st s + newLinks s s' := by
    rw [linksOff, range_eq_Ico, ← Finset.Ico_union_Ico_eq_Ico (Nat.zero_le s.next) h.next,
      filter_union, ← range_eq_Ico]
    refine (card_union_le _ _).trans (Nat.add_le_add (le_of_eq ?_) ?_)
    · refine congrArg Finset.card (filter_congr fun n hn => ?_)
      rw [h.nodeType n (mem_range.mp hn)]
    · exact card_le_card fun n hn => by
        rw [mem_filter] at hn ⊢
        exact ⟨hn.1, hn.2.1⟩
  have := h.links
  omega

/-- One link more in the set is one less outside it. -/
theorem linksOff_insert (hn : n < s.next) (hlink : (s.nodes n).nodeType = .Symlink) (hst : n ∉ st) :
    linksOff (insert n st) s + 1 ≤ linksOff st s := by
  rw [linksOff, linksOff, ← card_insert_of_notMem (a := n)]
  · refine card_le_card fun m hm => ?_
    simp only [mem_insert, mem_filter, mem_range] at hm ⊢
    rcases hm with rfl | ⟨hlt, htype, hout⟩
    · exact ⟨hn, hlink, hst⟩
    · exact ⟨hlt, htype, fun hmem => hout (.inr hmem)⟩
  · simp

end Vfs

/-! ## Activations -/

/-- The path that following a link opens.  There is none if the link leads to a node, or
nowhere. -/
def linkTarget (s : Vfs ω) (n : NodeId) : Option Str :=
  match s.upgrade (s.nodes n).linkto with
  | some _ => none
  | none => (s.nodes n).linktoPath.map fun path =>
    if path.head? = some '/' then path
    else pathJoin (match s.upgrade (s.nodes n).parent with
      | some parent => vfsGetFullpath s parent
      | none => ['/']) path

section Activations

variable (reg : Registry ω)

/-- What a walk over the components of a path comes to: the components that are left, the
budget, the node and the state. -/
inductive OpenWalk (path : Str) (s : Vfs ω) : List Str → Nat → NodeId → Vfs ω → Prop
  | start : normalizePath path ≠ ['/'] →
      OpenWalk path s ((trimStart (normalizePath path)).splitOn '/') 8 vfsRoot s
  | skip {parts : List Str} {budget : Nat} {current : NodeId} {s₁ : Vfs ω} :
      OpenWalk path s ([] :: parts) budget current s₁ → OpenWalk path s parts budget current s₁
  | node {part : Str} {parts : List Str} {budget : Nat} {current next : NodeId} {s₁ s₂ : Vfs ω} :
      OpenWalk path s (part :: parts) budget current s₁ → part ≠ [] →
      vfsLookup reg current part s₁ = some (.ok next, s₂) →
      (s₂.nodes next).nodeType ≠ .Symlink → OpenWalk path s parts budget next s₂
  | link {part : Str} {parts : List Str} {budget depth : Nat} {current next target : NodeId}
      {s₁ s₂ s₃ : Vfs ω} :
      OpenWalk path s (part :: parts) (budget + 1) current s₁ → part ≠ [] →
      vfsLookup reg current part s₁ = some (.ok next, s₂) →
      (s₂.nodes next).nodeType = .Symlink →
      vfsResolveSymlink (vfsOpen reg depth) next s₂ = some (.ok (some target), s₃) →
      OpenWalk path s parts budget target s₃

/-- The walk comes to a link with a path to open. -/
def Meets (path : Str) (s : Vfs ω) (n : NodeId) (s₂ : Vfs ω) (full : Str) : Prop :=
  ∃ part parts budget current s₁, OpenWalk reg path s (part :: parts) (budget + 1) current s₁ ∧
    part ≠ [] ∧ vfsLookup reg current part s₁ = some (.ok n, s₂) ∧
    (s₂.nodes n).nodeType = .Symlink ∧ linkTarget s₂ n = some full

/-- The walk comes to a lookup that does not return. -/
def Stalls (path : Str) (s : Vfs ω) : Prop :=
  ∃ part parts budget current s₁, OpenWalk reg path s (part :: parts) budget current s₁ ∧
    part ≠ [] ∧ vfsLookup reg current part s₁ = none

/-- The activations that opening a path starts, itself included. -/
inductive Active (path : Str) (s : Vfs ω) : Str → Vfs ω → Prop
  | self : Active path s path s
  | nested {p full : Str} {s₁ s₂ : Vfs ω} {n : NodeId} : Active path s p s₁ →
      Meets reg p s₁ n s₂ full → Active path s full s₂

/-- No link is met while its own target is being opened, and every lookup returns. -/
structure Settles (path : Str) (s : Vfs ω) : Prop where
  lookups : ∀ p s₁, Active reg path s p s₁ → ¬ Stalls reg p s₁
  acyclic : ∀ p s₁ n s₂ full, Active reg path s p s₁ → Meets reg p s₁ n s₂ full →
    ∀ p' s₃ s₄ full', Active reg full s₂ p' s₃ → ¬ Meets reg p' s₃ n s₄ full'

/-- What a registry should make of lookups: what is there stays, what is found is a child
afterwards, and only so many links can be added. -/
structure Steady (spare : Vfs ω → Nat) : Prop where
  later : ∀ {s s' : Vfs ω} {current : NodeId} {part : Str} {r : Except VfsError NodeId},
    s.Closed → current < s.next → vfsLookup reg current part s = some (r, s') →
    Vfs.Later spare s s'
  found : ∀ {s s' : Vfs ω} {current n : NodeId} {part : Str}, s.Closed → current < s.next →
    vfsLookup reg current part s = some (.ok n, s') → vfsChildFind current part s' = some n

end Activations

section Walks

variable {reg : Registry ω} {spare : Vfs ω → Nat} {s s' s₁ s₂ : Vfs ω} {n current : NodeId} {path : Str}
  {parts : List Str} {budget : Nat}

theorem linkTarget_kept (h : Vfs.Kept s s') (hs : s.Closed) (hn : n < s.next) :
    linkTarget s' n = linkTarget s n := by
  have hbase : (match s'.upgrade (s'.nodes n).parent with
      | some parent => vfsGetFullpath s' parent
      | none => ['/']) = match s.upgrade (s.nodes n).parent with
      | some parent => vfsGetFullpath s parent
      | none => ['/'] := by
    rw [h.parent n hn, h.upgrade]
    cases hp : s.upgrade (s.nodes n).parent with
    | none => rfl
    | some p => exact h.fullpath hs (hs.parent n hn p (Option.filter_eq_some_iff.mp hp).1)
  rw [linkTarget, linkTarget, hbase, h.linkto n hn, h.upgrade, h.linktoPath n hn]

/-- Following a link, by what it leads to. -/
theorem vfsResolveSymlink_eq (openPath : Str → Vfs ω → VfsResult ω NodeId) :
    vfsResolveSymlink openPath n s =
      match s.upgrade (s.nodes n).linkto, linkTarget s n with
      | some link, _ => some (.ok (some link), s)
      | none, some full => (openPath full s).andThen fun target s => some (.ok (some target), s)
      | none, none => some (.ok none, s) := by
  simp only [vfsResolveSymlink, linkTarget]
  cases s.upgrade (s.nodes n).linkto with
  | some link => rfl
  | none => cases (s.nodes n).linktoPath <;> rfl

/-- Following a link returns if opening its path does. -/
theorem isSome_vfsResolveSymlink : (vfsResolveSymlink openPath n s).isSome ↔
      ∀ full, linkTarget s n = some full → (openPath full s).isSome := by
  rw [vfsResolveSymlink_eq]
  cases hlink : s.upgrade (s.nodes n).linkto with
  | some link => simp [linkTarget, hlink]
  | none =>
    cases linkTarget s n with
    | none => simp
    | some full => rcases hrun : openPath full s with _ | ⟨_ | _, _⟩ <;> simp [hrun]

/-! ## More depth changes nothing -/

theorem vfsResolveSymlink_mono {o o' : Str → Vfs ω → VfsResult ω NodeId}
    (h : ∀ p s r, o p s = some r → o' p s = some r)
    (hrun : vfsResolveSymlink o n s = some r) : vfsResolveSymlink o' n s = some r := by
  rw [vfsResolveSymlink_eq] at hrun ⊢
  cases hlink : s.upgrade (s.nodes n).linkto with
  | some link => rwa [hlink] at hrun
  | none =>
    cases htarget : linkTarget s n with
    | none => rwa [hlink, htarget] at hrun
    | some full =>
      rw [hlink, htarget] at hrun
      simp only at hrun ⊢
      cases hopen : o full s with
      | none =>
        rw [hopen] at hrun
        cases hrun
      | some q => rwa [h full s q hopen, ← hopen]

section Parts

variable {resolve resolve' : NodeId → Vfs ω → VfsResult ω (Option NodeId)} {part : Str} {next : NodeId}

theorem vfsOpenParts_fail (hpart : part ≠ [])
    (hlook : vfsLookup reg current part s = some (.error e, s₁)) :
    vfsOpenParts reg resolve (part :: parts) budget current s = some (.error e, s₁) := by
  rw [vfsOpenParts, if_neg hpart, hlook, Outcome.andThen_error]

section

variable (hpart : part ≠ []) (hlook : vfsLookup reg current part s = some (.ok next, s₁))

include hpart hlook

theorem vfsOpenParts_node (htype : (s₁.nodes next).nodeType ≠ .Symlink) :
    vfsOpenParts reg resolve (part :: parts) budget current s =
      vfsOpenParts reg resolve parts budget next s₁ := by
  rw [vfsOpenParts, if_neg hpart, hlook, Outcome.andThen_ok]
  exact if_neg htype

theorem vfsOpenParts_link (htype : (s₁.nodes next).nodeType = .Symlink) :
    vfsOpenParts reg resolve (part :: parts) (budget + 1) current s =
      (resolve next s₁).andThen fun target s =>
        match target with
        | some target => vfsOpenParts reg resolve parts budget target s
        | none => some (.error .NotFound, s) := by
  rw [vfsOpenParts, if_neg hpart, hlook, Outcome.andThen_ok]
  exact if_pos htype

theorem vfsOpenParts_spent (htype : (s₁.nodes next).nodeType = .Symlink) :
    vfsOpenParts reg resolve (part :: parts) 0 current s = some (.error .Invalid, s₁) := by
  rw [vfsOpenParts, if_neg hpart, hlook, Outcome.andThen_ok]
  exact if_pos htype

end

theorem vfsOpenParts_skip : vfsOpenParts reg resolve ([] :: parts) budget current s =
      vfsOpenParts reg resolve parts budget current s := by
  rw [vfsOpenParts, if_pos rfl]

theorem vfsOpenParts_mono (h : ∀ n s r, resolve n s = some r → resolve' n s = some r)
    (hrun : vfsOpenParts reg resolve parts budget current s = some r) :
    vfsOpenParts reg resolve' parts budget current s = some r := by
  induction parts generalizing budget current s with
  | nil => exact hrun
  | cons part parts ih =>
    by_cases hpart : part = []
    · subst hpart
      rw [vfsOpenParts_skip] at hrun ⊢
      exact ih hrun
    rcases hlook : vfsLookup reg current part s with _ | ⟨e | next, s₁⟩
    · rw [vfsOpenParts, if_neg hpart, hlook] at hrun
      cases hrun
    · rwa [vfsOpenParts_fail hpart hlook] at hrun ⊢
    by_cases htype : (s₁.nodes next).nodeType = .Symlink
    · cases budget with
      | zero => rwa [vfsOpenParts_spent hpart hlook htype] at hrun ⊢
      | succ budget =>
        rw [vfsOpenParts_link hpart hlook htype] at hrun ⊢
        rcases hres : resolve next s₁ with _ | ⟨_ | _ | target, s₂⟩
        · rw [hres] at hrun
          cases hrun
        · rw [hres] at hrun
          rwa [h _ _ _ hres]
        · rw [hres] at hrun
          rwa [h _ _ _ hres]
        · rw [hres] at hrun
          rw [h _ _ _ hres]
          exact ih hrun
    · rw [vfsOpenParts_node hpart hlook htype] at hrun ⊢
      exact ih hrun

end Parts

theorem vfsOpen_mono (hle : d ≤ d')
    (hrun : vfsOpen reg d path s = some r) : vfsOpen reg d' path s = some r := by
  induction d generalizing d' path s r with
  | zero => cases hrun
  | succ d ih =>
    cases d' with
    | zero => exact absurd hle (Nat.not_succ_le_zero d)
    | succ d' =>
      rw [vfsOpen] at hrun ⊢
      split at hrun
      · next hroot =>
        rw [if_pos hroot]
        exact hrun
      · next hroot =>
        rw [if_neg hroot]
        refine vfsOpenParts_mono (fun n s r => vfsResolveSymlink_mono fun p s r hp => ?_) hrun
        exact ih (Nat.le_of_succ_le_succ hle) hp

/-! ## What a walk keeps -/

/-- A node of a closed state. -/
def Vfs.Has (s : Vfs ω) (n : NodeId) : Prop := s.Closed ∧ n < s.next

/-- After opening, what was there is there. -/
abbrev OpenLater (spare : Vfs ω → Nat) := Opened Vfs.Has (Vfs.Later spare) (Vfs.Later spare)

/-- What is asked of the way a link is followed. -/
abbrev ResolvesLater (spare : Vfs ω → Nat) := Follows Vfs.Has (Vfs.Later spare) (Vfs.Later spare)

section

variable (h : Steady reg spare)

include h

theorem Steady.lookup (hs : s.Closed) (hcur : current < s.next) :
    (vfsLookup reg current part s).Post (OpenLater spare s) := by
  intro res s' hrun
  have hlater := h.later hs hcur hrun
  refine ⟨hlater, ?_⟩
  rintro n rfl
  have hmem := List.mem_of_find?_eq_some (h.found hs hcur hrun)
  exact ⟨hlater, hlater.closed, hlater.closed.child current (hcur.trans_le hlater.next) n hmem⟩

theorem Steady.openRule : OpenRule reg (fun _ => True) Vfs.Has (Vfs.Later spare) (Vfs.Later spare) where
  stay hn := ⟨.refl hn.1, .refl hn.1⟩
  trans h h' := h.trans h'
  after h h' := h.trans h'
  root hn := ⟨hn.1, hn.1.root⟩
  link hn hlink := ⟨hn.1, hn.1.linkto _ hn.2 _ (Option.filter_eq_some_iff.mp hlink).1⟩
  lookup hn _ := h.lookup hn.1 hn.2

theorem Steady.openParts (hresolve : ResolvesLater spare resolve) (hcur : s.Has current) :
    (vfsOpenParts reg resolve parts budget current s).Post (OpenLater spare s) :=
  h.openRule.openParts hresolve (fun _ _ _ => trivial) hcur

theorem Steady.open (depth : Nat) (path : Str) (hs : s.Closed) :
    (vfsOpen reg depth path s).Post (OpenLater spare s) :=
  h.openRule.open (fun _ _ => trivial) depth path ⟨hs, hs.root⟩

theorem Steady.resolvesLater (depth : Nat) :
    ResolvesLater spare (vfsResolveSymlink (vfsOpen reg depth)) :=
  h.openRule.follows fun p _ hs => h.open depth p hs.1

/-- The states of a walk. -/
theorem OpenWalk.later (hs : s.Closed) (hwalk : OpenWalk reg path s parts budget current s₁) :
    Vfs.Later spare s s₁ ∧ current < s₁.next := by
  induction hwalk with
  | start _ => exact ⟨.refl hs, hs.root⟩
  | skip _ ih => exact ih
  | node _ _ hlook _ ih =>
    obtain ⟨hlater, hnext⟩ := h.lookup ih.1.closed ih.2 _ _ hlook
    exact ⟨ih.1.trans hlater, (hnext _ rfl).2.2⟩
  | link _ _ hlook _ hres ih =>
    obtain ⟨hlater, hnext⟩ := h.lookup ih.1.closed ih.2 _ _ hlook
    obtain ⟨hlater', ht⟩ := h.resolvesLater _ (hnext _ rfl).2 _ _ hres
    exact ⟨(ih.1.trans hlater).trans hlater', (ht _ rfl).2.2⟩

theorem Meets.later (hs : s.Closed) (hmeets : Meets reg path s n s₂ full) :
    Vfs.Later spare s s₂ ∧ n < s₂.next := by
  obtain ⟨_, _, _, _, _, hwalk, _, hlook, _, _⟩ := hmeets
  obtain ⟨hlater, hcur⟩ := hwalk.later h hs
  obtain ⟨hlater', hn⟩ := h.lookup hlater.closed hcur _ _ hlook
  exact ⟨hlater.trans hlater', (hn _ rfl).2.2⟩

theorem Active.later (hs : s.Closed) (hact : Active reg path s p s₁) : Vfs.Later spare s s₁ := by
  induction hact with
  | self => exact .refl hs
  | nested _ hmeets ih => exact ih.trans (hmeets.later h ih.closed).1

end

theorem Active.trans (h : Active reg path s p s₁) (h' : Active reg p s₁ p' s₂) :
    Active reg path s p' s₂ := by
  induction h' with
  | self => exact h
  | nested _ hmeets ih => exact .nested ih hmeets

end Walks

end BoruixKernel
