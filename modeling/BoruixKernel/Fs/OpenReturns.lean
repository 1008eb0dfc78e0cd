import BoruixKernel.Fs.SymlinkWalk

/-!
# Whether opening a path returns

If no link is met while its target is being opened, the activations of `vfs_open` inside
each other have met different links, and there are only so many.  Conversely an activation
that returns has gone through the activations it started, at smaller depths; a link that is
met again would be opened at ever smaller depths.
-/

namespace BoruixKernel

open Function

variable {ω : Type}

section Walks

variable {reg : Registry ω} {spare : Vfs ω → Nat} {s s' s₁ s₂ : Vfs ω} {n current t : NodeId}

/-! ## A walk whose links do not lead back returns -/

theorem Settles.nested (h : Settles reg path s) (hmeets : Meets reg path s n s₂ full) :
    Settles reg full s₂ := by
  have hact : Active reg path s full s₂ := .nested .self hmeets
  exact ⟨fun p s₁ ha => h.lookups p s₁ (hact.trans ha),
    fun p s₁ m s3 full' ha => h.acyclic p s₁ m s3 full' (hact.trans ha)⟩

/-- The components one after the other, if every link that is met can be followed. -/
theorem OpenWalk.parts_return (hstall : ¬ Stalls reg path s)
    (hlinks : ∀ n s₂ full, Meets reg path s n s₂ full → (vfsOpen reg k full s₂).isSome)
    (hwalk : OpenWalk reg path s parts budget current s₁) :
    (vfsOpenParts reg (vfsResolveSymlink (vfsOpen reg k)) parts budget current s₁).isSome := by
  induction parts generalizing budget current s₁ with
  | nil => rfl
  | cons part parts ih =>
    by_cases hpart : part = []
    · subst hpart
      rw [vfsOpenParts_skip]
      exact ih hwalk.skip
    rcases hlook : vfsLookup reg current part s₁ with _ | ⟨e | next, s₂⟩
    · exact absurd ⟨part, parts, budget, current, s₁, hwalk, hpart, hlook⟩ hstall
    · rw [vfsOpenParts_fail hpart hlook]
      rfl
    by_cases htype : (s₂.nodes next).nodeType = .Symlink
    · cases budget with
      | zero =>
        rw [vfsOpenParts_spent hpart hlook htype]
        rfl
      | succ budget =>
        rw [vfsOpenParts_link hpart hlook htype]
        have hsome : (vfsResolveSymlink (vfsOpen reg k) next s₂).isSome :=
          isSome_vfsResolveSymlink.mpr fun full htarget => hlinks next s₂ full
            ⟨part, parts, budget, current, s₁, hwalk, hpart, hlook, htype, htarget⟩
        rcases hres : vfsResolveSymlink (vfsOpen reg k) next s₂ with _ | ⟨_ | _ | target, s3⟩
        · rw [hres] at hsome
          cases hsome
        · rfl
        · rfl
        · exact ih (hwalk.link hpart hlook htype hres)
    · rw [vfsOpenParts_node hpart hlook htype]
      exact ih (hwalk.node hpart hlook htype)

theorem vfsOpen_isSome (h : normalizePath path ≠ ['/'] →
    (vfsOpenParts reg (vfsResolveSymlink (vfsOpen reg k)) ((trimStart (normalizePath path)).splitOn '/')
      8 vfsRoot s).isSome) : (vfsOpen reg (k + 1) path s).isSome := by
  rw [vfsOpen]
  split
  · rfl
  · next hroot => exact h hroot

theorem Steady.linksOff_meets (h : Steady reg spare) (hs : s.Closed) (hmeets : Meets reg path s n s₂ full)
    (hst : n ∉ st) :
    s₂.linksOff (insert n st) + spare s₂ + 1 ≤ s.linksOff st + spare s ∧ s₂.Closed := by
  obtain ⟨hlater, hn⟩ := hmeets.later h hs
  obtain ⟨_, _, _, _, _, _, _, _, htype, _⟩ := hmeets
  have hless := Vfs.linksOff_insert hn htype hst
  have hle := hlater.linksOff_le st
  exact ⟨by omega, hlater.closed⟩

/-- `st` has the links whose targets are being opened.  Each of the activations inside
each other has met another one, so their number is bounded by the number of links. -/
theorem Steady.returns (h : Steady reg spare) (hs : s.Closed) (hk : s.linksOff st + spare s ≤ k)
    (hsettles : Settles reg path s)
    (hst : ∀ p s₁ n s₂ full, Active reg path s p s₁ → Meets reg p s₁ n s₂ full → n ∉ st) :
    (vfsOpen reg (k + 1) path s).isSome := by
  induction k generalizing st path s with
  | zero =>
    refine vfsOpen_isSome fun hroot => OpenWalk.parts_return (hsettles.lookups _ _ .self) ?_ (.start hroot)
    intro n s₂ full hmeets
    obtain ⟨hle, -⟩ := h.linksOff_meets hs hmeets (hst _ _ _ _ _ .self hmeets)
    omega
  | succ k ih =>
    refine vfsOpen_isSome fun hroot => OpenWalk.parts_return (hsettles.lookups _ _ .self) ?_ (.start hroot)
    intro n s₂ full hmeets
    obtain ⟨hle, hclosed⟩ := h.linksOff_meets hs hmeets (hst _ _ _ _ _ .self hmeets)
    have hk' : s₂.linksOff (insert n st) + spare s₂ ≤ k := by omega
    refine ih hclosed hk' (hsettles.nested hmeets) ?_
    intro p s₁ m s3 full' hact hmeets' hmem
    rcases Finset.mem_insert.mp hmem with rfl | hmem
    · exact hsettles.acyclic _ _ _ _ _ .self hmeets _ _ _ _ hact hmeets'
    · exact hst _ _ _ _ _ ((Active.nested .self hmeets).trans hact) hmeets' hmem

/-! ## A walk that returns has returned before -/

/-- Two answers to the same call are the same. -/
theorem vfsResolveSymlink_unique (hrun : vfsResolveSymlink (vfsOpen reg d) n s = some r)
    (hrun' : vfsResolveSymlink (vfsOpen reg d') n s = some r') : r = r' := by
  have hmono : ∀ {e : Nat} {q : Except VfsError (Option NodeId) × Vfs ω}, e ≤ max d d' →
      vfsResolveSymlink (vfsOpen reg e) n s = some q →
      vfsResolveSymlink (vfsOpen reg (max d d')) n s = some q := fun hle =>
    vfsResolveSymlink_mono fun _ _ _ => vfsOpen_mono hle
  have heq := (hmono (Nat.le_max_left d d') hrun).symm.trans (hmono (Nat.le_max_right d d') hrun')
  exact Option.some.inj heq

/-- If the activation returns, it returns from every point of its walk. -/
theorem OpenWalk.returned (hopen : (vfsOpen reg (d + 1) path s).isSome)
    (hwalk : OpenWalk reg path s parts budget current s₁) :
    (vfsOpenParts reg (vfsResolveSymlink (vfsOpen reg d)) parts budget current s₁).isSome := by
  induction hwalk with
  | start hroot => rwa [vfsOpen, if_neg hroot] at hopen
  | skip _ ih => rwa [vfsOpenParts_skip] at ih
  | node _ hpart hlook htype ih => rwa [vfsOpenParts_node hpart hlook htype] at ih
  | @link _ _ _ _ _ next _ _ s₂ _ _ hpart hlook htype hres ih =>
    rw [vfsOpenParts_link hpart hlook htype] at ih
    cases hrun : vfsResolveSymlink (vfsOpen reg d) next s₂ with
    | none =>
      rw [hrun] at ih
      cases ih
    | some r =>
      rw [hrun, vfsResolveSymlink_unique hrun hres] at ih
      exact ih

section

variable (hopen : (vfsOpen reg d path s).isSome)

include hopen

theorem not_stalls_of_returned : ¬ Stalls reg path s := by
  rintro ⟨part, parts, budget, current, s₁, hwalk, hpart, hlook⟩
  cases d with
  | zero => cases hopen
  | succ d =>
    have hret := hwalk.returned hopen
    rw [vfsOpenParts, if_neg hpart, hlook] at hret
    cases hret

/-- The path of a link has been opened at a smaller depth. -/
theorem Meets.returned (hmeets : Meets reg path s n s₂ full) :
    ∃ e < d, (vfsOpen reg e full s₂).isSome := by
  obtain ⟨part, parts, budget, current, s₁, hwalk, hpart, hlook, htype, htarget⟩ := hmeets
  cases d with
  | zero => cases hopen
  | succ d =>
    have hret := hwalk.returned hopen
    rw [vfsOpenParts_link hpart hlook htype] at hret
    have hres : (vfsResolveSymlink (vfsOpen reg d) n s₂).isSome := by
      rw [Option.isSome_iff_ne_none]
      intro hnone
      rw [hnone] at hret
      cases hret
    exact ⟨d, Nat.lt_succ_self d, isSome_vfsResolveSymlink.mp hres full htarget⟩

theorem Active.returned (hact : Active reg path s p s₁) : ∃ e ≤ d, (vfsOpen reg e p s₁).isSome := by
  induction hact with
  | self => exact ⟨d, Nat.le_refl d, hopen⟩
  | nested _ hmeets ih =>
    obtain ⟨e, he, hopen'⟩ := ih
    obtain ⟨e', he', hopen''⟩ := hmeets.returned hopen'
    exact ⟨e', (he'.trans_le he).le, hopen''⟩

end

/-! ## A walk goes the same way again

In a later state the nodes that the walk found are there, so it finds them without changing
anything. -/

variable {part : Str} {resolve : NodeId → Vfs ω → VfsResult ω (Option NodeId)}

theorem Steady.lookup_again (h : Steady reg spare) (hs : s.Closed) (hcur : current < s.next)
    (hlook : vfsLookup reg current part s = some (.ok next, s₁))
    (hlater : Vfs.Later spare s₁ s') : vfsLookup reg current part s' = some (.ok next, s') := by
  have hlater1 := h.later hs hcur hlook
  have hfound := hlater.toKept.childFind hlater1.closed (hcur.trans_le hlater1.next)
    (h.found hs hcur hlook)
  rw [vfsLookup, hfound]

/-- What a success of the loop over the components consists of. -/
theorem vfsOpenParts_eq_ok (hpart : part ≠ [])
    (hrun : vfsOpenParts reg resolve (part :: parts) budget current s = some (.ok t, s₁)) :
    ∃ next s₂, vfsLookup reg current part s = some (.ok next, s₂) ∧
      ((s₂.nodes next).nodeType ≠ .Symlink ∧
          vfsOpenParts reg resolve parts budget next s₂ = some (.ok t, s₁) ∨
        (s₂.nodes next).nodeType = .Symlink ∧ ∃ rest target s3, budget = rest + 1 ∧
          resolve next s₂ = some (.ok (some target), s3) ∧
          vfsOpenParts reg resolve parts rest target s3 = some (.ok t, s₁)) := by
  rcases hlook : vfsLookup reg current part s with _ | ⟨e | next, s₂⟩
  · rw [vfsOpenParts, if_neg hpart, hlook] at hrun
    cases hrun
  · rw [vfsOpenParts_fail hpart hlook] at hrun
    cases hrun
  refine ⟨next, s₂, rfl, ?_⟩
  by_cases htype : (s₂.nodes next).nodeType = .Symlink
  · cases budget with
    | zero =>
      rw [vfsOpenParts_spent hpart hlook htype] at hrun
      cases hrun
    | succ budget =>
      rw [vfsOpenParts_link hpart hlook htype] at hrun
      rcases hres : resolve next s₂ with _ | ⟨_ | _ | target, s3⟩
      · rw [hres] at hrun
        cases hrun
      · rw [hres] at hrun
        cases hrun
      · rw [hres] at hrun
        cases hrun
      · rw [hres] at hrun
        exact .inr ⟨htype, budget, target, s3, rfl, rfl, hrun⟩
  · rw [vfsOpenParts_node hpart hlook htype] at hrun
    exact .inl ⟨htype, hrun⟩

/-- A link that was followed is followed again. -/
def ResolvesAgain (spare : Vfs ω → Nat) (resolve : NodeId → Vfs ω → VfsResult ω (Option NodeId)) : Prop :=
  ∀ n s t s₁ s', s.Closed → n < s.next → resolve n s = some (.ok (some t), s₁) →
    Vfs.Later spare s₁ s' → resolve n s' = some (.ok (some t), s')

section

variable (h : Steady reg spare)

include h

theorem Steady.openParts_again (hresolve : ResolvesLater spare resolve)
    (hagain : ResolvesAgain spare resolve) (hs : s.Closed) (hcur : current < s.next)
    (hrun : vfsOpenParts reg resolve parts budget current s = some (.ok t, s₁))
    (hlater : Vfs.Later spare s₁ s') :
    vfsOpenParts reg resolve parts budget current s' = some (.ok t, s') := by
  induction parts generalizing budget current s with
  | nil =>
    cases hrun
    rfl
  | cons part parts ih =>
    by_cases hpart : part = []
    · subst hpart
      rw [vfsOpenParts_skip] at hrun ⊢
      exact ih hs hcur hrun
    obtain ⟨next, s₂, hlook, hcase⟩ := vfsOpenParts_eq_ok hpart hrun
    obtain ⟨hlater2, hnext⟩ := h.lookup hs hcur _ _ hlook
    replace hnext := (hnext next rfl).2
    rcases hcase with ⟨htype, hrest⟩ | ⟨htype, rest, target, s3, rfl, hres, hrest⟩
    · obtain ⟨hlater1, -⟩ := h.openParts hresolve hnext _ _ hrest
      have hlater' := hlater1.trans hlater
      rw [vfsOpenParts_node hpart (h.lookup_again hs hcur hlook hlater')
        (by rwa [hlater'.nodeType next hnext.2])]
      exact ih hnext.1 hnext.2 hrest
    · obtain ⟨hlater3, htarget⟩ := hresolve hnext _ _ hres
      replace htarget := (htarget target rfl).2
      obtain ⟨hlater1, -⟩ := h.openParts hresolve htarget _ _ hrest
      have hlater' := hlater1.trans hlater
      have hlater'' := hlater3.trans hlater'
      rw [vfsOpenParts_link hpart (h.lookup_again hs hcur hlook hlater'')
        (by rwa [hlater''.nodeType next hnext.2]), hagain _ _ _ _ _ hnext.1 hnext.2 hres hlater']
      exact ih htarget.1 htarget.2 hrest

theorem Steady.resolvesAgain (depth : Nat)
    (hagain : ∀ p s t s₁ s', s.Closed → vfsOpen reg depth p s = some (.ok t, s₁) → Vfs.Later spare s₁ s' →
      vfsOpen reg depth p s' = some (.ok t, s')) :
    ResolvesAgain spare (vfsResolveSymlink (vfsOpen reg depth)) := by
  intro n s t s₁ s' hs hn hrun hlater
  have hlater' := (h.resolvesLater depth ⟨hs, hn⟩ _ _ hrun).1.trans hlater
  rw [vfsResolveSymlink_eq] at hrun ⊢
  rw [linkTarget_kept hlater'.toKept hs hn, hlater'.linkto n hn, hlater'.upgrade]
  cases hlink : s.upgrade (s.nodes n).linkto with
  | some link =>
    rw [hlink] at hrun
    cases hrun
    rfl
  | none =>
    cases htarget : linkTarget s n with
    | none =>
      rw [hlink, htarget] at hrun
      cases hrun
    | some full =>
      rw [hlink, htarget] at hrun
      simp only at hrun ⊢
      rcases hopen : vfsOpen reg depth full s with _ | ⟨_ | _, _⟩
      · rw [hopen] at hrun
        cases hrun
      · rw [hopen] at hrun
        cases hrun
      · rw [hopen] at hrun
        cases hrun
        rw [hagain _ _ _ _ _ hs hopen hlater]
        rfl

theorem Steady.open_again (hs : s.Closed) (hrun : vfsOpen reg depth path s = some (.ok t, s₁))
    (hlater : Vfs.Later spare s₁ s') :
    vfsOpen reg depth path s' = some (.ok t, s') := by
  induction depth generalizing s path t s₁ s' with
  | zero => cases hrun
  | succ depth ih =>
    rw [vfsOpen] at hrun ⊢
    split at hrun
    · next hroot =>
      rw [if_pos hroot]
      cases hrun
      rfl
    · next hroot =>
      rw [if_neg hroot]
      exact h.openParts_again (h.resolvesLater depth) (h.resolvesAgain depth fun p s t s₁ s' hs => ih hs)
        hs hs.root hrun hlater

theorem OpenWalk.again (hs : s.Closed) (hwalk : OpenWalk reg path s parts budget current s₁)
    (hlater : Vfs.Later spare s₁ s') : OpenWalk reg path s' parts budget current s' := by
  induction hwalk with
  | start hroot => exact .start hroot
  | skip _ ih => exact (ih hlater).skip
  | node hwalk hpart hlook htype ih =>
    obtain ⟨hlater1, hcur⟩ := hwalk.later h hs
    obtain ⟨hlater2, hnext⟩ := h.lookup hlater1.closed hcur _ _ hlook
    refine (ih (hlater2.trans hlater)).node hpart (h.lookup_again hlater1.closed hcur hlook hlater) ?_
    rwa [hlater.nodeType _ (hnext _ rfl).2.2]
  | link hwalk hpart hlook htype hres ih =>
    obtain ⟨hlater1, hcur⟩ := hwalk.later h hs
    obtain ⟨hlater2, hnext⟩ := h.lookup hlater1.closed hcur _ _ hlook
    have hnext := (hnext _ rfl).2
    obtain ⟨hlater3, -⟩ := h.resolvesLater _ hnext _ _ hres
    have hlater' := hlater3.trans hlater
    refine (ih (hlater2.trans hlater')).link hpart (h.lookup_again hlater1.closed hcur hlook hlater') ?_
      (h.resolvesAgain _ (fun p s t s₁ s' hs => h.open_again hs) _ _ _ _ _ hnext.1 hnext.2 hres hlater)
    rwa [hlater'.nodeType _ hnext.2]

theorem Meets.again (hs : s.Closed) (hmeets : Meets reg path s n s₂ full)
    (hlater : Vfs.Later spare s₂ s') : Meets reg path s' n s' full := by
  have hn := (hmeets.later h hs).2
  obtain ⟨part, parts, budget, current, s₁, hwalk, hpart, hlook, htype, htarget⟩ := hmeets
  obtain ⟨hlater1, hcur⟩ := hwalk.later h hs
  have hlater2 := h.later hlater1.closed hcur hlook
  refine ⟨part, parts, budget, current, s', hwalk.again h hs (hlater2.trans hlater), hpart,
    h.lookup_again hlater1.closed hcur hlook hlater, ?_, ?_⟩
  · rwa [hlater.nodeType n hn]
  · rwa [linkTarget_kept hlater.toKept hlater2.closed hn]

theorem Active.again (hs : s.Closed) {p : Str} (hact : Active reg path s p s₁)
    (hlater : Vfs.Later spare s₁ s') : Active reg path s' p s' := by
  induction hact with
  | self => exact .self
  | nested hact hmeets ih =>
    have hlater1 := hact.later h hs
    have hlater2 := (hmeets.later h hlater1.closed).1
    exact .nested (ih (hlater2.trans hlater)) (hmeets.again h hlater1.closed hlater)

end

/-- A path whose opening comes back to it in the same state is never opened. -/
theorem not_returned_of_cycle (hact : Active reg full s p s) (hmeets : Meets reg p s n s full)
    (d : Nat) : ¬ (vfsOpen reg d full s).isSome := by
  induction d using Nat.strong_induction_on with
  | _ d ih =>
    intro hopen
    obtain ⟨e, he, hopen'⟩ := hact.returned hopen
    obtain ⟨e', he', hopen''⟩ := hmeets.returned hopen'
    exact ih e' (he'.trans_le he) hopen''

theorem Steady.settles (h : Steady reg spare) (hs : s.Closed)
    (hopen : (vfsOpen reg d path s).isSome) : Settles reg path s where
  lookups p s₁ hact := by
    obtain ⟨e, -, hopen'⟩ := hact.returned hopen
    exact not_stalls_of_returned hopen'
  acyclic p s₁ n s₂ full hact hmeets p' s3 s4 full' hact' hmeets' := by
    have hlater1 := hact.later h hs
    obtain ⟨hlater2, hn⟩ := hmeets.later h hlater1.closed
    have hlater3 := hact'.later h hlater2.closed
    have hlater4 := (hmeets'.later h hlater3.closed).1
    -- The link has the same path in the last state, and there everything has been found.
    obtain rfl : full' = full := by
      obtain ⟨_, _, _, _, _, _, _, _, _, htarget⟩ := hmeets
      obtain ⟨_, _, _, _, _, _, _, _, _, htarget'⟩ := hmeets'
      rw [linkTarget_kept (hlater3.trans hlater4).toKept hlater2.closed hn, htarget] at htarget'
      exact (Option.some.inj htarget').symm
    obtain ⟨e, -, hopen'⟩ := (((Active.nested hact hmeets).trans hact').nested hmeets').returned hopen
    exact not_returned_of_cycle (hact'.again h hlater2.closed hlater4)
      (hmeets'.again h hlater3.closed (.refl hlater4.closed)) e hopen'

end Walks

/-! ## Filesystems without a lookup of their own -/

section NoOpen

variable {s : Vfs ω} {n p : NodeId} (name : Str) (fsid : Nat)

/-- A node is made for a lookup and freed again. -/
def Vfs.missed (p : NodeId) (name : Str) (fsid : Nat) (s : Vfs ω) : Vfs ω :=
  vfsFree s.next (((vfsChildAppend p name s).2.calling p fsid).calling s.next fsid)

theorem Vfs.missed_next : (s.missed p name fsid).next = s.next + 1 := by
  rw [missed, vfsFree]
  split <;> exact (calling_next _ _ _).trans (calling_next _ _ _)

theorem Vfs.missed_dropped : (s.missed p name fsid).dropped = s.dropped := by
  rw [missed, vfsFree]
  split <;> exact (calling_dropped _ _ _).trans (calling_dropped _ _ _)

theorem Vfs.missed_new : (s.missed p name fsid).nodes s.next =
    { (vfsChildAppend p name s).2.nodes s.next with children := [], handle := none } := by
  simp only [missed, vfsFree, modify, update_self, calling_nodes]
  split
  · next q _ =>
    by_cases hq : s.next = q
    · subst hq
      simp [detach, modify, update_self, calling_nodes]
    · simp [detach, modify, update_of_ne hq, calling_nodes]
  · rw [calling_nodes, calling_nodes]

/-- At most this node is left among the children of the others. -/
theorem Vfs.missed_old (hs : s.Closed) (hp : p < s.next) (hn : n < s.next) :
    ∃ new : List NodeId, (∀ c ∈ new, c = s.next) ∧ (s.missed p name fsid).nodes n =
      { s.nodes n with children := (s.nodes n).children ++ new } := by
  have happend : ∃ new : List NodeId, (∀ c ∈ new, c = s.next) ∧
      (vfsChildAppend p name s).2.nodes n =
        { s.nodes n with children := (s.nodes n).children ++ new } := by
    by_cases hnp : n = p
    · subst hnp
      exact ⟨[s.next], by simp, childAppend_parent name hp⟩
    · exact ⟨[], nofun, by rw [childAppend_other name hnp (Nat.ne_of_lt hn), List.append_nil]⟩
  obtain ⟨new, hnew, hnode⟩ := happend
  simp only [missed, vfsFree, modify, update_of_ne (Nat.ne_of_lt hn)]
  split
  · next q _ =>
    by_cases hnq : n = q
    · subst hnq
      refine ⟨[], nofun, ?_⟩
      have hold : (s.nodes n).children.filter (· ≠ s.next) = (s.nodes n).children := by
        rw [List.filter_eq_self]
        exact fun c hc => decide_eq_true (Nat.ne_of_lt (hs.child n hn c hc))
      have hnone : new.filter (· ≠ s.next) = [] := by
        rw [List.filter_eq_nil_iff]
        exact fun c hc => by simp [hnew c hc]
      simp only [detach, modify, update_self, calling_nodes, hnode, List.filter_append, hold, hnone]
    · exact ⟨new, hnew, by simpa only [detach, modify, update_of_ne hnq, calling_nodes] using hnode⟩
  · exact ⟨new, hnew, by rwa [calling_nodes, calling_nodes]⟩

/-- This leaves what was there. -/
theorem Vfs.Later.missed (hs : s.Closed) (hp : p < s.next) :
    Vfs.Later (fun _ => 0) s (s.missed p name fsid) := by
  have hnode := @missed_new _ s p name fsid
  rw [childAppend_new name hp] at hnode
  have hcases : ∀ {n}, n < s.next + 1 → n < s.next ∨ n = s.next := Nat.lt_succ_iff_lt_or_eq.mp
  refine ⟨⟨?_, missed_dropped .., ?_, ?_, ?_, ?_, ?_, ?_⟩, ⟨?_, ?_, ?_, ?_⟩, ?_⟩
  · exact (Nat.le_succ _).trans_eq (missed_next ..).symm
  iterate 6
    intro n hn
    obtain ⟨new, -, hold⟩ := missed_old name fsid hs hp hn
    rw [hold]
  · exact List.prefix_append _ _
  · exact (hs.root.trans (Nat.lt_succ_self _)).trans_eq (missed_next ..).symm
  all_goals try
    intro n hn c hc
    rw [missed_next] at hn ⊢
    rcases hcases hn with hn | rfl
    rotate_left
    · rw [hnode] at hc
      cases hc <;> exact hp.trans (Nat.lt_succ_self _)
    obtain ⟨new, hnew, hold⟩ := missed_old name fsid hs hp hn
    rw [hold] at hc
  · exact (hs.parent n hn c hc).trans (Nat.lt_succ_self _)
  · rcases List.mem_append.mp hc with hc | hc
    · exact (hs.child n hn c hc).trans (Nat.lt_succ_self _)
    · exact (hnew c hc).trans_lt (Nat.lt_succ_self _)
  · exact (hs.linkto n hn c hc).trans (Nat.lt_succ_self _)
  · rw [newLinks, missed_next, Nat.Ico_succ_singleton, Finset.filter_singleton, hnode]
    exact Nat.le_refl 0

/-- A lookup that fails unless the node is there is steady, and adds no links. -/
theorem steady_of_no_open {reg : Registry ω} (hopen : ∀ fs ∈ reg, ∀ parent name node s,
      fs.ops.open parent name node s = some (.error .NotSupported, s)) : Steady reg fun _ => 0 := by
  have hlookup : ∀ {s s' : Vfs ω} {current : NodeId} {part : Str} {r : Except VfsError NodeId},
      s.Closed → current < s.next → vfsLookup reg current part s = some (r, s') →
      Vfs.Later (fun _ => 0) s s' ∧ ∀ n, r = .ok n → vfsChildFind current part s' = some n := by
    intro s s' current part r hs hcur hlook
    rw [vfsLookup] at hlook
    split at hlook
    · next hfind =>
      cases hlook
      refine ⟨.refl hs, ?_⟩
      rintro _ ⟨⟩
      exact hfind
    · split at hlook
      · cases hlook
        exact ⟨.refl hs, by rintro _ ⟨⟩⟩
      · next fs hfs =>
        simp only [hopen fs (List.mem_of_find?_eq_some hfs)] at hlook
        cases hlook
        exact ⟨.missed part fs.fsid hs hcur, by rintro _ ⟨⟩⟩
  exact ⟨fun hs hcur hlook => (hlookup hs hcur hlook).1,
    fun hs hcur hlook => (hlookup hs hcur hlook).2 _ rfl⟩

theorem steady_tmpfs (P : Boxed TmpfsFile ω) : Steady (tmpfsOnly P) fun _ => 0 := by
  refine steady_of_no_open fun fs hfs => ?_
  obtain rfl := List.mem_singleton.mp hfs
  exact fun _ _ _ _ => rfl

end NoOpen

/-! ## When opening returns -/

/-- A link whose target is its own path. -/
def selfLink : Vfs TmpfsFile :=
  afterCalls tmpfsAlone 1 [.mount none "tmpfs".toList 0, .symlink "/a".toList "/a".toList]

theorem selfLink_meets : Meets tmpfsAlone "/a".toList selfLink 1 selfLink "/a".toList := by
  have hfind : vfsChildFind vfsRoot ['a'] selfLink = some 1 := by decide +kernel
  have hparts : (trimStart (normalizePath "/a".toList)).splitOn '/' = [['a']] := by decide +kernel
  have hstart : OpenWalk tmpfsAlone "/a".toList selfLink
      ((trimStart (normalizePath "/a".toList)).splitOn '/') 8 vfsRoot selfLink :=
    .start (by decide +kernel)
  rw [hparts] at hstart
  refine ⟨['a'], [], 7, vfsRoot, selfLink, hstart, List.cons_ne_nil _ _, ?_, by decide +kernel,
    by decide +kernel⟩
  rw [vfsLookup, hfind]

end BoruixKernel
